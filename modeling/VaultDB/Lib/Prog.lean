import Mathlib.Data.List.Basic
import Mathlib.Tactic.Common
set_option autoImplicit false

/-!
Programs as trees of commands, and what can be said about them without running them.

A protocol watches the commands of one program and their results; `Follows` says that the program
never issues a command the protocol forbids.  For threads run together, an invariant over the shared
state and the watchers is then checked for single commands only.
-/

namespace VaultDB.Lib
open List Option
variable {j : Nat} {α : Type}
inductive Prog (C : Type) (R : C → Type) (α : Type) where
  | ret (a : α)
  | step (c : C) (k : R c → Prog C R α)

namespace Prog
variable {C : Type} {R : C → Type} {α β : Type}
protected def bind : Prog C R α → (α → Prog C R β) → Prog C R β
  | .ret a, f => f a
  | .step c k, f => .step c fun r => (k r).bind f

instance : Monad (Prog C R) where
  pure := .ret
  bind := .bind

theorem bind_ret (p : Prog C R α) : p.bind .ret = p := by
  induction p with
  | ret a => rfl
  | step c k ih => simp [Prog.bind,ih]

theorem bind_bind {γ : Type} (p : Prog C R α) (f : α → Prog C R β) (g : β → Prog C R γ) :
    (p.bind f).bind g = p.bind fun a => (f a).bind g := by
  induction p with
  | ret a => rfl
  | step c k ih => simp [Prog.bind,ih]

instance : LawfulMonad (Prog C R) := LawfulMonad.mk' _ bind_ret (fun _ _ => rfl) bind_bind
def cmd (c : C) : Prog C R (R c) := .step c .ret

def run {S : Type} (exec : S → (c : C) → Option (R c × S)) : Prog C R α → S → Option (α × S)
  | .ret a, s => some (a,s)
  | .step c k, s =>
    match exec s c with
    | some (r,s') => (k r).run exec s'
    | none => none

theorem run_bind {S : Type} (exec : S → (c : C) → Option (R c × S)) (p : Prog C R α) (f : α → Prog C R β) (s : S) :
    (p >>= f).run exec s = (p.run exec s).bind fun x => (f x.1).run exec x.2 := by
  show (p.bind f).run exec s = _
  induction p generalizing s with
  | ret a => rfl
  | step c k ih =>
    simp only [Prog.bind,run]
    cases exec s c with
    | none => rfl
    | some x => exact ih x.1 x.2

/-- As long as the answers are in `A`, every command is in `S` and the result in `Q`. -/
def Within (S : C → Prop) (A : (c : C) → R c → Prop) : Prog C R α → (α → Prop) → Prop
  | .ret a, Q => Q a
  | .step c k, Q => S c ∧ ∀ r, A c r → (k r).Within S A Q

section
variable {S S' : C → Prop} {A A' : (c : C) → R c → Prop} {p : Prog C R α} {Q : α → Prop}
theorem Within.mono {Q' : α → Prop} (h : p.Within S A Q) (hs : ∀ c, S c → S' c)
    (ha : ∀ c r, A' c r → A c r) (hq : ∀ a, Q a → Q' a) : p.Within S' A' Q' := by
  induction p with
  | ret a => exact hq a h
  | step c k ih => exact ⟨hs c h.1,fun r hr => ih r (h.2 r (ha c r hr))⟩

theorem within_bind {f : α → Prog C R β} {Q : β → Prop} :
    (p >>= f).Within S A Q ↔ p.Within S A fun a => (f a).Within S A Q := by
  show (p.bind f).Within S A Q ↔ _
  induction p with
  | ret a => rfl
  | step c k ih => exact and_congr_right fun _ => forall_congr' fun r => forall_congr' fun _ => ih r

theorem Within.run {St : Type} {exec : St → (c : C) → Option (R c × St)} {I : St → Prop}
    (hI : ∀ {s c r s'}, I s → S c → exec s c = some (r,s') → A c r ∧ I s')
    (h : p.Within S A Q) {s s' : St} {a : α} (hs : I s) (hr : p.run exec s = some (a,s')) : Q a ∧ I s' := by
  induction p generalizing s with
  | ret b =>
    cases hr
    exact ⟨h,hs⟩
  | step c k ih =>
    simp only [Prog.run] at hr
    split at hr
    · rename_i r s1 he
      obtain ⟨ha,hs1⟩ := hI hs h.1 he
      exact ih r (h.2 r ha) hs1 hr
    · cases hr
end
end Prog

/-- A watcher of one program: which commands it permits, and what it remembers of them. -/
structure Protocol (C : Type) (R : C → Type) (G : Type) where
  allowed : G → C → Prop
  next : G → (c : C) → R c → G

section
variable {C G : Type} {R : C → Type} {α β : Type} {Q : G → α → Prop} {p : Prog C R α} {a : α}
/-- Every command is permitted when it is issued, and the watcher ends in `Q`. -/
def Follows (P : Protocol C R G) : G → Prog C R α → (G → α → Prop) → Prop
  | g, .ret a, Q => Q g a
  | g, .step c k, Q => P.allowed g c ∧ ∀ r, Follows P (P.next g c r) (k r) Q

variable {P : Protocol C R G} {g : G}
theorem Follows.mono {Q' : G → α → Prop} (h : Follows P g p Q) (hq : ∀ g a, Q g a → Q' g a) : Follows P g p Q' := by
  induction p generalizing g with
  | ret a => exact hq g a h
  | step c k ih => exact ⟨h.1,fun r => ih r (h.2 r)⟩

theorem follows_bind {f : α → Prog C R β} {Q : G → β → Prop} :
    Follows P g (p >>= f) Q ↔ Follows P g p fun g a => Follows P g (f a) Q := by
  show Follows P g (p.bind f) Q ↔ _
  induction p generalizing g with
  | ret a => rfl
  | step c k ih => exact and_congr_right fun _ => forall_congr' fun r => ih r

theorem Follows.run {S : Type} {exec : S → (c : C) → Option (R c × S)} {I : G → S → Prop}
    (hI : ∀ {g s c r s'}, I g s → P.allowed g c → exec s c = some (r,s') → I (P.next g c r) s')
    (h : Follows P g p Q) {s s' : S} (hs : I g s) (hr : p.run exec s = some (a,s')) : ∃ g', I g' s' := by
  induction p generalizing g s with
  | ret b =>
    cases hr
    exact ⟨g,hs⟩
  | step c k ih =>
    simp only [Prog.run] at hr
    split at hr
    · rename_i r s1 he
      exact ih r (h.2 r) (hI hs h.1 he) hr
    · cases hr

theorem Prog.Within.follows {S : C → Prop} {A : (c : C) → R c → Prop} {Q : α → Prop} {J : G → Prop}
    (h : p.Within S A Q)
    (hJ : ∀ g c, J g → S c → P.allowed g c ∧ ∀ r, A c r ∧ J (P.next g c r)) (hg : J g) :
    Follows P g p fun g a => J g ∧ Q a := by
  induction p generalizing g with
  | ret a => exact ⟨hg,h⟩
  | step c k ih =>
    obtain ⟨hallow,hnext⟩ := hJ g c hg h.1
    exact ⟨hallow,fun r => ih r (h.2 r (hnext r).1) (hnext r).2⟩
end

abbrev Stmt (C : Type) (R : C → Type) (ε α : Type) := ExceptT ε (Prog C R) α

namespace Stmt
variable {C G : Type} {R : C → Type} {ε α β : Type} {x : Stmt C R ε α} {f : α → Stmt C R ε β}
  {a : α} {cleanup : Stmt C R ε Unit} {ι : Type} {e : ε} {xs : List ι}
def cmd (c : C) : Stmt C R ε (R c) := ExceptT.mk (Prog.step c fun r => Prog.ret (.ok r))

def afterError (cleanup : Stmt C R ε Unit) : Except ε α → Prog C R (Except ε α)
  | .ok a => pure (.ok a)
  | .error e => cleanup.run >>= fun _ => pure (.error e)

def onError (x : Stmt C R ε α) (cleanup : Stmt C R ε Unit) : Stmt C R ε α :=
  ExceptT.mk (x.run >>= afterError cleanup)

/-- `Follows` for a fallible program, with one condition for each way to end. -/
def Ensures (P : Protocol C R G) (g : G) (x : Stmt C R ε α) (Q : G → α → Prop) (E : G → Prop) : Prop :=
  Follows P g x.run fun g r => match r with
    | .ok a => Q g a
    | .error _ => E g

variable {P : Protocol C R G} {g : G} {Q : G → α → Prop} {E : G → Prop}
@[simp] theorem ensures_pure : Ensures P g (pure a : Stmt C R ε α) Q E ↔ Q g a := Iff.rfl

theorem Ensures.mono {Q' : G → α → Prop} {E' : G → Prop} (h : Ensures P g x Q E)
    (hq : ∀ g a, Q g a → Q' g a) (he : ∀ g, E g → E' g) : Ensures P g x Q' E' := by
  refine Follows.mono h fun g r hr => ?_
  cases r with
  | ok a => exact hq g a hr
  | error e => exact he g hr

theorem ensures_bind {Q : G → β → Prop} : Ensures P g (x >>= f) Q E ↔
    Ensures P g x (fun g a => Ensures P g (f a) Q E) E := by
  have hrun : (x >>= f).run = x.run >>= fun r => match r with
    | .ok a => (f a).run
    | .error e => pure (.error e) := rfl
  rw [Ensures,hrun,follows_bind,Ensures]
  constructor
  · intro h
    refine h.mono fun g r hr => ?_
    cases r with
    | ok a => exact hr
    | error e => exact hr
  · intro h
    refine h.mono fun g r hr => ?_
    cases r with
    | ok a => exact hr
    | error e => exact hr

theorem Ensures.bind {Q' : G → β → Prop} (h : Ensures P g x Q E)
    (hf : ∀ g a, Q g a → Ensures P g (f a) Q' E) : Ensures P g (x >>= f) Q' E :=
  ensures_bind.2 (h.mono hf fun _ he => he)

theorem ensures_step {c : C} {f : R c → Stmt C R ε β} {Q : G → β → Prop} : Ensures P g (cmd c >>= f) Q E ↔
      P.allowed g c ∧ ∀ r, Ensures P (P.next g c r) (f r) Q E := Iff.rfl

theorem ensures_onError (h : Ensures P g x Q fun g => Ensures P g cleanup (fun g _ => E g) E) :
    Ensures P g (onError x cleanup) Q E := by
  show Follows P g (x.run >>= afterError cleanup) _
  rw [follows_bind]
  refine Follows.mono h fun g r hr => ?_
  cases r with
  | ok a => exact hr
  | error e =>
    rw [afterError,follows_bind]
    refine Follows.mono hr fun g r hr => ?_
    cases r with
    | ok _ => exact hr
    | error _ => exact hr

theorem ensures_forM {f : ι → Stmt C R ε PUnit} (I : G → Prop)
    (hg : I g) (h : ∀ x ∈ xs, ∀ g, I g → Ensures P g (f x) (fun g _ => I g) E) :
    Ensures P g (xs.forM f) (fun g _ => I g) E := by
  induction xs generalizing g with
  | nil => exact hg
  | cons x xs ih =>
    show Ensures P g (f x >>= fun _ => xs.forM f) _ E
    rw [ensures_bind]
    exact (h x mem_cons_self g hg).mono
      (fun g _ hg => ih hg fun y hy => h y (mem_cons_of_mem _ hy)) fun _ he => he

def Within (S : C → Prop) (A : (c : C) → R c → Prop) (x : Stmt C R ε α) (Q : α → Prop) : Prop :=
  x.run.Within S A fun r => ∀ a, r = .ok a → Q a

section
variable {S : C → Prop} {A : (c : C) → R c → Prop} {T : α → Prop} {c : C}
theorem within_pure (h : T a) : Within S A (pure a : Stmt C R ε α) T := by
  rintro b hb
  cases hb
  exact h

theorem within_throw : Within S A (throw e : Stmt C R ε α) T := by
  rintro b hb
  cases hb

theorem Within.mono {T' : α → Prop} (h : Within S A x T) (ht : ∀ a, T a → T' a) : Within S A x T' :=
  Prog.Within.mono h (fun _ hs => hs) (fun _ _ ha => ha) fun _ hr a ha => ht a (hr a ha)

theorem within_bind {T : β → Prop} (h : Within S A x fun a => Within S A (f a) T) : Within S A (x >>= f) T := by
  refine Prog.within_bind.2 (Prog.Within.mono h (fun _ hs => hs) (fun _ _ ha => ha) fun r hr => ?_)
  cases r with
  | ok a => exact hr a rfl
  | error e =>
    rintro b hb
    cases hb

theorem within_step {f : R c → Stmt C R ε β} {T : β → Prop} (hc : S c)
    (h : ∀ r, A c r → Within S A (f r) T) : Within S A (cmd c >>= f) T := ⟨hc,h⟩

theorem within_cmd {T : R c → Prop} (hc : S c) (h : ∀ r, A c r → T r) : Within S A (cmd c : Stmt C R ε (R c)) T := by
  refine ⟨hc,fun r hr a ha => ?_⟩
  cases ha
  exact h r hr

theorem within_onError (h : Within S A x T)
    (hc : Within S A cleanup fun _ => True) : Within S A (onError x cleanup) T := by
  refine Prog.within_bind.2 (Prog.Within.mono h (fun _ hs => hs) (fun _ _ ha => ha) fun r hr => ?_)
  cases r with
  | ok a => exact hr
  | error e =>
    refine Prog.within_bind.2 (Prog.Within.mono hc (fun _ hs => hs) (fun _ _ ha => ha) fun _ _ => ?_)
    rintro b hb
    cases hb

theorem within_forM {f : ι → Stmt C R ε PUnit}
    (h : ∀ x ∈ xs, Within S A (f x) fun _ => True) : Within S A (xs.forM f) fun _ => True := by
  induction xs with
  | nil => exact within_pure trivial
  | cons x xs ih =>
    rw [forall_mem_cons] at h
    exact within_bind (h.1.mono fun _ _ => ih h.2)

theorem Within.ensures {J : G → Prop} (h : Within S A x T)
    (hJ : ∀ g c, J g → S c → P.allowed g c ∧ ∀ r, A c r ∧ J (P.next g c r)) (hg : J g) :
    Ensures P g x (fun g a => J g ∧ T a) J := by
  refine Follows.mono (Prog.Within.follows h hJ hg) fun g r hr => ?_
  cases r with
  | ok a => exact ⟨hr.1,hr.2 a rfl⟩
  | error e => exact hr.1
end

section
variable {S : Type} {exec : S → (c : C) → Option (R c × S)} {s s' : S} {Q' : α → S → Prop}
    {E' : ε → S → Prop} {c : C}
/-- Run alone it comes to an end, with one condition for each way to end. -/
def Yields (exec : S → (c : C) → Option (R c × S)) (s : S) (x : Stmt C R ε α) (Q : α → S → Prop)
    (E : ε → S → Prop) : Prop :=
  match x.run.run exec s with
  | none => False
  | some (.ok a,s') => Q a s'
  | some (.error e,s') => E e s'

variable {Q : α → S → Prop} {E : ε → S → Prop}
theorem yields_pure : Yields exec s (pure a : Stmt C R ε α) Q E ↔ Q a s := Iff.rfl

theorem yields_cmd {Q : R c → S → Prop} {r : R c} (h : exec s c = some (r,s')) :
    Yields exec s (cmd c : Stmt C R ε (R c)) Q E ↔ Q r s' := by
  simp [Yields,cmd,ExceptT.run,ExceptT.mk,Prog.run,h]

theorem Yields.mono (h : Yields exec s x Q E)
    (hq : ∀ a s, Q a s → Q' a s) (he : ∀ e s, E e s → E' e s) : Yields exec s x Q' E' := by
  unfold Yields at *
  split at h
  · exact h
  · exact hq _ _ h
  · exact he _ _ h

theorem Yields.and (h : Yields exec s x Q E)
    (h' : Yields exec s x Q' E') : Yields exec s x (fun a s => Q a s ∧ Q' a s) fun e s => E e s ∧ E' e s := by
  unfold Yields at *
  cases hx : x.run.run exec s with
  | none => simp [hx] at h
  | some out =>
    obtain ⟨out,s'⟩ := out
    rw [hx] at h h'
    cases out with
    | ok a => exact ⟨h,h'⟩
    | error e => exact ⟨h,h'⟩

theorem yields_bind {Q : β → S → Prop} :
    Yields exec s (x >>= f) Q E ↔ Yields exec s x (fun a s => Yields exec s (f a) Q E) E := by
  have hrun : (x >>= f).run = x.run >>= fun r => match r with
    | .ok a => (f a).run
    | .error e => pure (.error e) := rfl
  unfold Yields
  rw [hrun,Prog.run_bind]
  rcases x.run.run exec s with _ | ⟨_ | _,_⟩ <;> rfl

theorem Yields.bind {Q' : β → S → Prop} (h : Yields exec s x Q E)
    (hf : ∀ a s, Q a s → Yields exec s (f a) Q' E) : Yields exec s (x >>= f) Q' E :=
  yields_bind.2 (h.mono hf fun _ _ he => he)

theorem yields_step {f : R c → Stmt C R ε β} {Q : β → S → Prop} {r : R c}
    (h : exec s c = some (r,s')) : Yields exec s (cmd c >>= f) Q E ↔ Yields exec s' (f r) Q E := by
  rw [yields_bind,yields_cmd h]

theorem yields_onError (h : Yields exec s x Q fun e s => Yields exec s cleanup (fun _ => E e) fun _ => E e) :
    Yields exec s (onError x cleanup) Q E := by
  have hrun : (onError x cleanup).run = x.run >>= afterError cleanup := rfl
  unfold Yields at *
  rw [hrun,Prog.run_bind]
  split at h
  · exact h.elim
  · rename_i hx
    rw [hx]
    exact h
  · rename_i e s' hx
    rw [hx,bind_some,afterError,Prog.run_bind]
    split at h
    · exact h.elim
    · rename_i hc
      rw [hc]
      exact h
    · rename_i hc
      rw [hc]
      exact h

theorem yields_forM {f : ι → Stmt C R ε PUnit} (I : List ι → S → Prop) (hs : I xs s)
    (h : ∀ x xs s, I (x :: xs) s → Yields exec s (f x) (fun _ s => I xs s) E) :
    Yields exec s (xs.forM f) (fun _ s => I [] s) E := by
  induction xs generalizing s with
  | nil => exact hs
  | cons x xs ih =>
    show Yields exec s (f x >>= fun _ => xs.forM f) _ E
    rw [yields_bind]
    exact (h x xs s hs).mono (fun _ s hs => ih hs) fun _ _ he => he

theorem Yields.of_run (h : Yields exec s x Q E) : ∃ out s', x.run.run exec s = some (out,s') ∧ match out with
    | .ok a => Q a s'
    | .error e => E e s' := by
  unfold Yields at h
  split at h
  · exact h.elim
  · exact ⟨_,_,‹_›,h⟩
  · exact ⟨_,_,‹_›,h⟩
end
end Stmt

/-- One program under way, with its watcher and what it is about. -/
structure Thread (C : Type) (R : C → Type) (G T : Type) where
  tag : T
  watcher : G
  prog : Prog C R Unit

structure Config (C : Type) (R : C → Type) (G T S : Type) where
  state : S
  threads : List (Thread C R G T)

/-- A shared state, the programs that may be started on it, how it answers a command of
thread `i`, and what happens to it without any thread. -/
structure Machine (C : Type) (R : C → Type) (G T S E : Type) where
  protocol : Protocol C R G
  fresh : G
  start : T → Prog C R Unit → Prop
  exec : Nat → T → S → (c : C) → R c → S → Prop
  env : S → E → S → Prop

inductive Event (C : Type) (R : C → Type) (T E : Type) where
  | spawn (tag : T) (prog : Prog C R Unit)
  | run (i : Nat) (tag : T) (c : C) (r : R c)
  | env (e : E)

namespace Machine
variable {C G T S E : Type} {R : C → Type}
inductive Step (M : Machine C R G T S E) : Config C R G T S → Event C R T E → Config C R G T S → Prop where
  | spawn {cf : Config C R G T S} {t : T} {p : Prog C R Unit} : M.start t p →
      Step M cf (.spawn t p) ⟨cf.state,cf.threads++[⟨t,M.fresh,p⟩]⟩
  | run {cf : Config C R G T S} {i : Nat} {t : T} {g : G} {c : C} {k : R c → Prog C R Unit} {r : R c}
      {s : S} : cf.threads[i]? = some ⟨t,g,.step c k⟩ → M.exec i t cf.state c r s →
      Step M cf (.run i t c r) ⟨s,cf.threads.set i ⟨t,M.protocol.next g c r,k r⟩⟩
  | env {cf : Config C R G T S} {e : E} {s : S} : M.env cf.state e s →
      Step M cf (.env e) ⟨s,cf.threads⟩

/-- The configurations reached by steps that all meet a condition. -/
inductive Reach (M : Machine C R G T S E) (Ok : Config C R G T S → Event C R T E → Prop)
    (s₀ : S) : Config C R G T S → Prop where
  | init : Reach M Ok s₀ ⟨s₀,[]⟩
  | step {cf cf' : Config C R G T S} {ev : Event C R T E} : Reach M Ok s₀ cf → M.Step cf ev cf' →
      Ok cf ev → Reach M Ok s₀ cf'

/-- A run from one configuration to another. -/
inductive Run (M : Machine C R G T S E) (Ok : Config C R G T S → Event C R T E → Prop)
    (cf₀ : Config C R G T S) : Config C R G T S → Prop where
  | refl : Run M Ok cf₀ cf₀
  | step {cf cf' : Config C R G T S} {ev : Event C R T E} : Run M Ok cf₀ cf → M.Step cf ev cf' →
      Ok cf ev → Run M Ok cf₀ cf'

end Machine

theorem thread_set_cases {xs : List α} {a x : α} {i : Nat} (h : (xs.set i a)[j]? = some x) :
    (j = i ∧ x = a) ∨ (j ≠ i ∧ xs[j]? = some x) := by
  rw [getElem?_set] at h
  split at h
  · rename_i hij
    split at h
    · cases h
      exact .inl ⟨hij.symm,rfl⟩
    · cases h
  · rename_i hij
    exact .inr ⟨Ne.symm hij,h⟩

theorem thread_concat_cases {xs : List α} {a x : α} (h : (xs++[a])[j]? = some x) :
    xs[j]? = some x ∨ (j = xs.length ∧ x = a) := by
  rcases Nat.lt_or_ge j xs.length with hlt | hge
  · rw [getElem?_append_left hlt] at h
    exact .inl h
  · rw [getElem?_append_right hge,getElem?_singleton] at h
    obtain ⟨hj,⟨⟩⟩ := ite_none_right_eq_some.1 h
    exact .inr ⟨by omega,rfl⟩

def Config.watchers {C G T S : Type} {R : C → Type} (cf : Config C R G T S) : List (T × G) :=
  cf.threads.map fun th => (th.tag,th.watcher)

def Config.Obeys {C G T S : Type} {R : C → Type} (cf : Config C R G T S) (P : Protocol C R G)
    (Done : G → Prop) : Prop :=
  ∀ th ∈ cf.threads, Follows P th.watcher th.prog fun g _ => Done g

namespace Machine
variable {C G T S E : Type} {R : C → Type} {M : Machine C R G T S E} {Done : G → Prop}
  {Ok : Config C R G T S → Event C R T E → Prop} {s₀ : S} {cf cf' : Config C R G T S} {is : List Nat}
theorem Reach.run (h : M.Reach Ok s₀ cf) (hr : M.Run Ok cf cf') : M.Reach Ok s₀ cf' := by
  induction hr with
  | refl => exact h
  | step _ hs hok ih => exact .step ih hs hok

theorem Run.trans {cf'' : Config C R G T S} (h : M.Run Ok cf cf') (h' : M.Run Ok cf' cf'') : M.Run Ok cf cf'' := by
  induction h' with
  | refl => exact h
  | step _ hs hok ih => exact .step ih hs hok

theorem Run.between {cf0 : Config C R G T S} {p q : Config C R G T S → Prop} (hr : M.Run Ok cf0 cf)
    (hstep : ∀ cf ev cf', M.Step cf ev cf' → Ok cf ev → p cf' → q cf' → p cf ∨ q cf)
    (hp0 : ¬ p cf0) (hp : p cf) (hq : q cf) :
    ∃ cf', M.Run Ok cf0 cf' ∧ M.Run Ok cf' cf ∧ ((p cf' ∧ ¬ q cf') ∨ (q cf' ∧ ¬ p cf')) := by
  induction hr with
  | refl => exact absurd hp hp0
  | @step cf1 cf2 ev hr hs hok ih =>
    have hlast : ∀ {cf'}, M.Run Ok cf' cf1 → M.Run Ok cf' cf2 := fun h => .step h hs hok
    by_cases hp1 : p cf1
    · by_cases hq1 : q cf1
      · obtain ⟨cf',h1,h2,h3⟩ := ih hp1 hq1
        exact ⟨cf',h1,hlast h2,h3⟩
      · exact ⟨cf1,hr,hlast .refl,.inl ⟨hp1,hq1⟩⟩
    · have hq1 := (hstep cf1 ev cf2 hs hok hp hq).resolve_left hp1
      exact ⟨cf1,hr,hlast .refl,.inr ⟨hq1,hp1⟩⟩

theorem Reach.restrict (allowed : G → C → Prop) (h : M.Reach Ok s₀ cf) :
    Reach { M with protocol := ⟨allowed,M.protocol.next⟩ } Ok s₀ cf := by
  induction h with
  | init => exact .init
  | step _ hs hok ih =>
    refine .step ih ?_ hok
    cases hs with
    | spawn hp => exact .spawn hp
    | run hi he => exact .run hi he
    | env he => exact .env he

section
variable (hstart : ∀ t p, M.start t p → Follows M.protocol M.fresh p fun g _ => Done g)
include hstart
theorem obeys_step
    {ev : Event C R T E} (h : cf.Obeys M.protocol Done) (hs : M.Step cf ev cf') : cf'.Obeys M.protocol Done := by
  cases hs with
  | spawn hp =>
    intro th hth
    rcases mem_append.1 hth with hth | hth
    · exact h th hth
    · rw [mem_singleton.1 hth]
      exact hstart _ _ hp
  | run hi he =>
    intro th hth
    rcases mem_or_eq_of_mem_set hth with hth | rfl
    · exact h th hth
    · exact (h _ (mem_of_getElem? hi)).2 _
  | env he => exact h

theorem Reach.keeps
    (J : Config C R G T S → Prop) (h0 : J ⟨s₀,[]⟩) (hspawn : ∀ cf t p, J cf → M.start t p → Ok cf (.spawn t p) →
      J ⟨cf.state,cf.threads++[⟨t,M.fresh,p⟩]⟩)
    (hrun : ∀ (cf : Config C R G T S) (i : Nat) t g c k r s, J cf → cf.threads[i]? = some ⟨t,g,.step c k⟩ →
      M.protocol.allowed g c → M.exec i t cf.state c r s → Ok cf (.run i t c r) →
      J ⟨s,cf.threads.set i ⟨t,M.protocol.next g c r,k r⟩⟩)
    (henv : ∀ cf e s, J cf → M.env cf.state e s → Ok cf (.env e) → J ⟨s,cf.threads⟩)
    (h : Reach M Ok s₀ cf) : J cf ∧ cf.Obeys M.protocol Done := by
  induction h with
  | init => exact ⟨h0,fun _ hth => by simp at hth⟩
  | @step cf cf' ev hr hs hok ih =>
    refine ⟨?_,obeys_step hstart ih.2 hs⟩
    cases hs with
    | spawn hp => exact hspawn cf _ _ ih.1 hp hok
    | run hi he => exact hrun cf _ _ _ _ _ _ _ ih.1 hi (ih.2 _ (mem_of_getElem? hi)).1 he hok
    | env he => exact henv cf _ _ ih.1 he hok

/-- An invariant of the state and the watchers that single permitted commands keep holds in
every configuration reached. -/
theorem Reach.inv (J : S → List (T × G) → Prop) (h0 : J s₀ [])
    (hspawn : ∀ cf t p, J cf.state cf.watchers → M.start t p → Ok cf (.spawn t p) →
      J cf.state (cf.watchers++[(t,M.fresh)]))
    (hrun : ∀ cf i t g c r s, J cf.state cf.watchers → cf.watchers[i]? = some (t,g) →
      M.protocol.allowed g c → M.exec i t cf.state c r s → Ok cf (.run i t c r) →
      J s (cf.watchers.set i (t,M.protocol.next g c r)))
    (henv : ∀ cf e s, J cf.state cf.watchers → M.env cf.state e s → Ok cf (.env e) → J s cf.watchers)
    (h : Reach M Ok s₀ cf) : J cf.state cf.watchers ∧ cf.Obeys M.protocol Done := by
  refine h.keeps hstart (fun cf => J cf.state cf.watchers) h0 ?_ ?_ henv
  · intro cf t p hJ hp hok
    simpa [Config.watchers] using hspawn cf t p hJ hp hok
  · intro cf i t g c k r s hJ hi ha he hok
    have hw : cf.watchers[i]? = some (t,g) := by simp [Config.watchers,hi]
    simpa [Config.watchers,map_set] using hrun cf i t g c r s hJ hw ha he hok
end

def starting (M : Machine C R G T S E) (ps : List (T × Prog C R Unit)) : List (Thread C R G T) :=
  ps.map fun x => ⟨x.1,M.fresh,x.2⟩

variable {ps : List (T × Prog C R Unit)} {answer : Nat → T → S → (c : C) → Option (R c × S)}
  {check : Config C R G T S → Event C R T E → Bool}
theorem Reach.spawned (hok : ∀ cf t p, Ok cf (.spawn t p)) (h : M.Reach Ok s₀ cf)
    (hps : ∀ x ∈ ps, M.start x.1 x.2) : M.Reach Ok s₀ ⟨cf.state,cf.threads++M.starting ps⟩ := by
  induction ps generalizing cf with
  | nil => simpa [starting] using h
  | cons x ps ih =>
    have hstep := Reach.step h (.spawn (hps x mem_cons_self)) (hok _ _ _)
    simpa [starting] using ih hstep fun y hy => hps y (mem_cons_of_mem _ hy)

def play (M : Machine C R G T S E) (answer : Nat → T → S → (c : C) → Option (R c × S))
    (check : Config C R G T S → Event C R T E → Bool) (cf : Config C R G T S) :
    List Nat → Option (Config C R G T S)
  | [] => some cf
  | i :: is =>
    match cf.threads[i]? with
    | some ⟨t,g,.step c k⟩ => (answer i t cf.state c).bind fun x =>
      if check cf (.run i t c x.1) then
        play M answer check ⟨x.2,cf.threads.set i ⟨t,M.protocol.next g c x.1,k x.1⟩⟩ is
      else none
    | _ => none

section
variable (hans : ∀ i t s c x, answer i t s c = some x → M.exec i t s c x.1 x.2)
    (hok : ∀ cf ev, check cf ev = true → Ok cf ev)
include hans hok
theorem Reach.play (h : M.Reach Ok s₀ cf) (hp : M.play answer check cf is = some cf') : M.Reach Ok s₀ cf' := by
  induction is generalizing cf with
  | nil =>
    cases hp
    exact h
  | cons i is ih =>
    simp only [Machine.play] at hp
    split at hp
    · rename_i t g c k hth
      obtain ⟨x,hx,hp⟩ := bind_eq_some_iff.1 hp
      split at hp
      · rename_i hc
        exact ih (.step h (.run hth (hans i t _ c x hx)) (hok _ _ hc)) hp
      · cases hp
    · cases hp

theorem Reach.sample (hspawn : ∀ cf t p, Ok cf (.spawn t p))
    (hps : ∀ x ∈ ps, M.start x.1 x.2) {α : Type}
    {f : Config C R G T S → α} {a : α} (h : (M.play answer check ⟨s₀,M.starting ps⟩ is).map f = some a) :
    ∃ cf, M.Reach Ok s₀ cf ∧ f cf = a := by
  obtain ⟨cf,hcf,hf⟩ := map_eq_some_iff.1 h
  exact ⟨cf,.play hans hok (.spawned hspawn .init hps) hcf,hf⟩
end
end Machine
end VaultDB.Lib
