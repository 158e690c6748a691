import VaultDB.Lib.Prog
set_option autoImplicit false

/-!
A program that runs beside observers.

They change nothing, so all that counts is which of the states the program passes they get to see.
-/

namespace VaultDB.Lib
open List Option

/-- A run to the end in which the observers have seen `os`; they only look at states in `Seen`. -/
inductive Observed {C S α : Type} {R : C → Type} (exec : S → (c : C) → Option (R c × S)) (Seen : S → Prop) :
    Prog C R α → S → List S → α → S → Prop where
  | ret {a : α} {s : S} : Observed exec Seen (.ret a) s [] a s
  | step {c : C} {k : R c → Prog C R α} {s s' t : S} {r : R c} {os : List S} {a : α} : exec s c = some (r,s') →
      Observed exec Seen (k r) s' os a t → Observed exec Seen (.step c k) s os a t
  | observe {p : Prog C R α} {s t : S} {os : List S} {a : α} : Seen s → Observed exec Seen p s os a t →
      Observed exec Seen p s (s :: os) a t

namespace Observed
variable {C S α β : Type} {R : C → Type} {exec : S → (c : C) → Option (R c × S)} {Seen : S → Prop}
  {s t : S} {os : List S} {p : Prog C R α} {a : α}
theorem seen (h : Observed exec Seen p s os a t) : ∀ o ∈ os, Seen o := by
  induction h with
  | ret => simp
  | step _ _ ih => exact ih
  | observe hs _ ih => exact forall_mem_cons.2 ⟨hs,ih⟩

theorem of_ret {b : α} (h : Observed exec Seen (.ret a : Prog C R α) s os b t) : b = a ∧ t = s ∧
    ∀ o ∈ os, o = s := by
  generalize hp : (.ret a : Prog C R α) = p at h
  induction h with
  | ret =>
    cases hp
    simp
  | step => cases hp
  | observe _ _ ih =>
    obtain ⟨hb,ht,ho⟩ := ih hp
    exact ⟨hb,ht,forall_mem_cons.2 ⟨rfl,ho⟩⟩

theorem of_step {c : C} {k : R c → Prog C R α} (h : Observed exec Seen (.step c k) s os a t) :
    ∃ r s' os', exec s c = some (r,s') ∧ Observed exec Seen (k r) s' os' a t ∧ ∀ o ∈ os, o = s ∨ o ∈ os' := by
  generalize hp : (.step c k : Prog C R α) = p at h
  induction h with
  | ret => cases hp
  | step he hr =>
    cases hp
    exact ⟨_,_,_,he,hr,fun o ho => .inr ho⟩
  | observe _ _ ih =>
    obtain ⟨r,s',os',he,hr,ho⟩ := ih hp
    exact ⟨r,s',os',he,hr,forall_mem_cons.2 ⟨.inl rfl,ho⟩⟩

theorem of_bind {f : α → Prog C R β} {b : β} (h : Observed exec Seen (p >>= f) s os b t) :
    ∃ os1 a s' os2, Observed exec Seen p s os1 a s' ∧ Observed exec Seen (f a) s' os2 b t ∧
    ∀ o ∈ os, o ∈ os1 ∨ o ∈ os2 := by
  generalize hq : (p >>= f) = q at h
  induction h generalizing p with
  | @ret b s =>
    cases p with
    | ret a =>
      have hf : f a = .ret b := hq
      exact ⟨[],a,s,[],.ret,by rw [hf]; exact .ret,by simp⟩
    | step c k => cases hq
  | @step c k s s' t r os b he hr ih =>
    cases p with
    | ret a =>
      have hf : f a = .step c k := hq
      exact ⟨[],a,s,os,.ret,by rw [hf]; exact .step he hr,by simp⟩
    | step c' k' =>
      cases hq
      obtain ⟨os1,a,s1,os2,h1,h2,ho⟩ := ih (p := k' r) rfl
      exact ⟨os1,a,s1,os2,.step he h1,h2,ho⟩
  | @observe q s t os b hs _ ih =>
    obtain ⟨os1,a,s1,os2,h1,h2,ho⟩ := ih hq
    refine ⟨s :: os1,a,s1,os2,.observe hs h1,h2,forall_mem_cons.2 ⟨.inl mem_cons_self,fun o hm => ?_⟩⟩
    exact (ho o hm).imp_left (mem_cons_of_mem _)

theorem within {Cs : C → Prop} {A : (c : C) → R c → Prop} {I : S → Prop} {Q : α → Prop}
    (h : Observed exec Seen p s os a t) (hp : p.Within Cs A Q)
    (hI : ∀ {s c r s'}, I s → Cs c → exec s c = some (r,s') → A c r ∧ I s') (hs : I s) : Q a ∧ I t ∧
    ∀ o ∈ os, I o := by
  induction h with
  | ret => exact ⟨hp,hs,by simp⟩
  | step he _ ih =>
    obtain ⟨ha,hs'⟩ := hI hs hp.1 he
    exact ih (hp.2 _ ha) hs'
  | observe _ _ ih =>
    obtain ⟨hq,ht,ho⟩ := ih hp hs
    exact ⟨hq,ht,forall_mem_cons.2 ⟨hs,ho⟩⟩

theorem run_map {S' : Type} {exec' : S' → (c : C) → Option (R c × S')} {π : S → S'}
    (hπ : ∀ {s c r s'}, exec s c = some (r,s') → exec' (π s) c = some (r,π s'))
    (h : Observed exec Seen p s os a t) : p.run exec' (π s) = some (a,π t) := by
  induction h with
  | ret => rfl
  | step he _ ih =>
    rw [Prog.run,hπ he]
    exact ih
  | observe _ _ ih => exact ih

section
variable {ε : Type} {b : Except ε β}
theorem of_cmd_bind {c : C} {f : R c → Stmt C R ε β} (h : Observed exec Seen (Stmt.cmd c >>= f).run s os b t) :
    ∃ r s' os', exec s c = some (r,s') ∧ Observed exec Seen (f r).run s' os' b t ∧ ∀ o ∈ os, o = s ∨ o ∈ os' :=
  of_step h

theorem of_stmt_bind {x : Stmt C R ε α} {f : α → Stmt C R ε β} (h : Observed exec Seen (x >>= f).run s os b t) :
    (∃ os1 a s' os2, Observed exec Seen x.run s os1 (.ok a) s' ∧ Observed exec Seen (f a).run s' os2 b t ∧
      ∀ o ∈ os, o ∈ os1 ∨ o ∈ os2) ∨
    ∃ os1 e, Observed exec Seen x.run s os1 (.error e) t ∧ b = .error e ∧ ∀ o ∈ os, o ∈ os1 ∨ o = t := by
  obtain ⟨os1,r,s',os2,h1,h2,ho⟩ := of_bind h
  cases r with
  | ok a => exact .inl ⟨os1,a,s',os2,h1,h2,ho⟩
  | error e =>
    obtain ⟨rfl,rfl,hos⟩ := of_ret h2
    exact .inr ⟨os1,e,h1,rfl,fun o hm => (ho o hm).imp_right (hos o)⟩

theorem of_onError {x : Stmt C R ε α} {cleanup : Stmt C R ε Unit} {b : Except ε α}
    (h : Observed exec Seen (Stmt.onError x cleanup).run s os b t) :
    (∃ os1 a, Observed exec Seen x.run s os1 (.ok a) t ∧ b = .ok a ∧ ∀ o ∈ os, o ∈ os1 ∨ o = t) ∨
    ∃ os1 e s' os2 r, Observed exec Seen x.run s os1 (.error e) s' ∧
    Observed exec Seen cleanup.run s' os2 r t ∧ b = .error e ∧
      ∀ o ∈ os, o ∈ os1 ∨ o ∈ os2 ∨ o = t := by
  obtain ⟨os1,r,s',os2,h1,h2,ho⟩ := of_bind h
  cases r with
  | ok a =>
    obtain ⟨rfl,rfl,hos⟩ := of_ret h2
    exact .inl ⟨os1,a,h1,rfl,fun o hm => (ho o hm).imp_right (hos o)⟩
  | error e =>
    obtain ⟨os2,r,s2,os3,h2,h3,ho2⟩ := of_bind h2
    obtain ⟨rfl,rfl,hos⟩ := of_ret h3
    exact .inr ⟨os1,e,s',os2,r,h1,h2,rfl,fun o hm => (ho o hm).imp_right fun hm => (ho2 o hm).imp_right (hos o)⟩

variable {S' : Type} {exec' : S' → (c : C) → Option (R c × S')} {π : S → S'} {x : Stmt C R ε α} {Q : α → S' → Prop}
  {E : ε → S' → Prop}
theorem ok_of_yields (h : Observed exec Seen x.run s os (.ok a) t) (hy : Stmt.Yields exec' (π s) x Q E)
    (hπ : ∀ {s c r s'}, exec s c = some (r,s') → exec' (π s) c = some (r,π s')) : Q a (π t) := by
  rw [Stmt.Yields,h.run_map hπ] at hy
  exact hy

theorem error_of_yields {e : ε} (h : Observed exec Seen x.run s os (.error e) t) (hy : Stmt.Yields exec' (π s) x Q E)
    (hπ : ∀ {s c r s'}, exec s c = some (r,s') → exec' (π s) c = some (r,π s')) : E e (π t) := by
  rw [Stmt.Yields,h.run_map hπ] at hy
  exact hy
end
end Observed

def Prog.observe {C S α : Type} {R : C → Type} (exec : S → (c : C) → Option (R c × S)) :
    Prog C R α → S → Nat → Option (S × α × S)
  | p, s, 0 => (p.run exec s).map fun x => (s,x)
  | .ret _, _, _+1 => none
  | .step c k, s, n+1 =>
    match exec s c with
    | some (r,s') => (k r).observe exec s' n
    | none => none

section
variable {C S α : Type} {R : C → Type} {exec : S → (c : C) → Option (R c × S)} {Seen : S → Prop} {p : Prog C R α}
theorem Observed.of_run {s t : S} {a : α} (h : p.run exec s = some (a,t)) : Observed exec Seen p s [] a t := by
  induction p generalizing s with
  | ret b =>
    cases h
    exact .ret
  | step c k ih =>
    simp only [Prog.run] at h
    split at h
    · next r s' he => exact .step he (ih r h)
    · cases h

theorem Observed.of_observe {s o t : S} {a : α} {n : Nat} (h : p.observe exec s n = some (o,a,t)) (ho : Seen o) :
    Observed exec Seen p s [o] a t := by
  induction n generalizing p s with
  | zero =>
    obtain ⟨x,hx,he⟩ := map_eq_some_iff.1 (show (p.run exec s).map (fun x => (s,x)) = _ by
      cases p <;> exact h)
    cases he
    exact .observe ho (.of_run hx)
  | succ n ih =>
    cases p with
    | ret b => cases h
    | step c k =>
      simp only [Prog.observe] at h
      split at h
      · next r s' he => exact .step he (ih h)
      · cases h
end
end VaultDB.Lib
