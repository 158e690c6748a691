import VaultDB.Storage.Slots
set_option autoImplicit false

/-!
Keys of rows while statements run side by side.

`UpdateRowsVM` lets go of the table before it stores the new versions: what it has to put back is
part of the invariant.
-/

namespace VaultDB.Storage
open Wal Lib List Option Engine
variable {t : Tuple} {d : List UInt8} {e : EnvEvent} {x : Nat}
section
variable {s s' : Engine} {i : Nat} {k : TableKey} {c : Cmd} {r : c.Res} {loc : PageSlot}
theorem Engine.Effect.data_kept (h : s.Effect i k c r s') (hm : s.mem k loc = some t) :
    ∃ t', s'.mem k loc = some t' ∧ t'.data = t.data := by
  have hs := h.slot loc
  rw [hm] at hs
  generalize hq : s'.mem k loc = q at hs
  cases hs with
  | same | hot | stamp | clear => exact ⟨_,rfl,rfl⟩

theorem Engine.Effect.data_eq (h : s.Effect i k c r s') {t' : Tuple} (hm : s.mem k loc = some t)
    (hm' : s'.mem k loc = some t') : t'.data = t.data := by
  obtain ⟨t1,h1,hd⟩ := h.data_kept hm
  rw [hm'] at h1
  cases h1
  exact hd

theorem Engine.Effect.unlockedMem (h : s.Effect i k c r s') {g : Watcher} (hi : ThreadOk s i k g) (ha : g.allowed c)
    (hl : g.locked = false) (k' : TableKey) (loc : PageSlot) : s'.mem k' loc = s.mem k' loc := by
  obtain ⟨hf,hd⟩ := h.unlockedFrame hi ha hl k' loc.pid
  unfold mem
  rw [page_eq,page_eq,hf,hd]

theorem Engine.Env.schema (h : s.Env e s') (hne : e ≠ .checkpoint) {t : Table}
    (ht : s.tables k = some t) : ∃ t', s'.tables k = some t' ∧ t'.info.schema = t.info.schema := by
  have hset : ∀ {k₀ : TableKey} {t0 t1 : Table}, s.tables k₀ = some t0 → t1.info = t0.info →
      ∃ t', (s.setTable k₀ t1).tables k = some t' ∧ t'.info.schema = t.info.schema := by
    intro k₀ t0 t1 h0 hinfo
    by_cases hk : k = k₀
    · subst hk
      obtain rfl := some.inj (ht.symm.trans h0)
      exact ⟨t1,by simp,by rw [hinfo]⟩
    · exact ⟨t,by simp [hk,ht],rfl⟩
  cases h with
  | sync => exact ⟨t,ht,rfl⟩
  | flushPage h0 | evictClean h0 | evictDirty h0 => exact hset h0 rfl
  | checkpoint => exact absurd rfl hne
end

def Engine.live (s : Engine) (k : TableKey) (loc : PageSlot) : Option (List UInt8) :=
  (s.mem k loc).bind fun t => if t.deletedTx = 0 then some t.data else none

namespace Engine
variable {s s' : Engine} {i : Nat} {k : TableKey} {c : Cmd} {r : c.Res} {loc : PageSlot}
theorem live_eq_some : s.live k loc = some d ↔ ∃ t, s.mem k loc = some t ∧ t.deletedTx = 0 ∧ t.data = d := by
  simp [live,bind_eq_some_iff]

theorem live_congr (h : s'.mem k loc = s.mem k loc) : s'.live k loc = s.live k loc := by
  unfold live
  rw [h]

inductive LiveEffect (loc : PageSlot) : (c : Cmd) → c.Res → Option (List UInt8) → Option (List UInt8) → Prop where
  | same {c : Cmd} {r : c.Res} {o : Option (List UInt8)} : LiveEffect loc c r o o
  | insert {t : Tuple} {o : Option (List UInt8)} : o = none ∨ o = some t.data →
      LiveEffect loc (.insertTuple loc.pid t) (some loc.slot) none o
  | stamp {x : Nat} {o o' : Option (List UInt8)} : o' = none ∨ x = 0 → LiveEffect loc (.putXMax loc x) true o o'
  | clear {o o' : Option (List UInt8)} : LiveEffect loc (.clearXMax loc) true o o'

def touches : (c : Cmd) → c.Res → Bool
  | .insertTuple _ _, r => r.isSome
  | .putXMax _ _, r => r
  | .clearXMax _, r => r
  | _, _ => false

theorem LiveEffect.eq {o o' : Option (List UInt8)} (h : LiveEffect loc c r o o')
    (ht : touches c r = false) : o' = o := by
  cases h with
  | same => rfl
  | insert | stamp | clear => cases ht

theorem Effect.live (h : s.Effect i k c r s') (loc : PageSlot) : LiveEffect loc c r (s.live k loc)
    (s'.live k loc) := by
  have hs := h.slot loc
  unfold Engine.live
  generalize s.mem k loc = p at hs
  generalize s'.mem k loc = q at hs
  cases hs with
  | same => exact .same
  | insert =>
    refine .insert ?_
    rw [bind_some]
    split
    · exact .inr rfl
    · exact .inl rfl
  | hot => exact .same
  | @stamp x t =>
    refine .stamp ?_
    by_cases hx : x = 0
    · exact .inr hx
    · exact .inl (if_neg hx)
  | clear => exact .clear

end Engine

structure Watched (G : Type) where
  row : Watcher := {}
  out : List PageSlot := []
  own : G

namespace Watched
variable {G : Type}
/-- Once it has stored new versions, letting go of the table means that it is through. -/
def outNext (g : Watched G) : (c : Cmd) → c.Res → List PageSlot
  | .putXMax loc _, true => loc :: g.out
  | .clearXMax loc, true => g.out.filter (· ≠ loc)
  | .unlockTable, _ => if g.row.ins = [] then g.out else []
  | _, _ => g.out

end Watched

def watchedProtocol {G : Type} (P : Protocol Cmd Cmd.Res G) : Protocol Cmd Cmd.Res (Watched G) where
  allowed g c := rowProtocol.allowed g.row c ∧ P.allowed g.own c
  next g c r := ⟨rowProtocol.next g.row c r,g.outNext c r,P.next g.own c r⟩

theorem follows_watched {G α : Type} {P : Protocol Cmd Cmd.Res G} {g : Watcher} {out : List PageSlot} {o : G}
    {p : Prog Cmd Cmd.Res α} {Q : Watcher → α → Prop} {Q' : G → α → Prop} (h : Follows rowProtocol g p Q)
    (h' : Follows P o p Q') : Follows (watchedProtocol P) ⟨g,out,o⟩ p fun g a => Q g.row a ∧ Q' g.own a := by
  induction p generalizing g out o with
  | ret a => exact ⟨h,h'⟩
  | step c k ih => exact ⟨⟨h.1,h'.1⟩,fun r => ih r (h.2 r) (h'.2 r)⟩

def watchedMachine {G : Type} (P : Protocol Cmd Cmd.Res G) (fresh : G)
    (start : TableKey → Prog Cmd Cmd.Res Unit → Prop) :
    Machine Cmd Cmd.Res (Watched G) TableKey Engine EnvEvent where
  protocol := watchedProtocol P
  fresh := { own := fresh }
  start := start
  exec i k s c r s' := s.Answers i k c r s'
  env s e s' := s.Env e s'

abbrev Party (C : Type) (Q : C → Type) (G : Type) := Thread C Q (Watched G) TableKey
abbrev WatchedThread (G : Type) := Party Cmd Cmd.Res G
abbrev WatchedConfig (G : Type) := Config Cmd Cmd.Res (Watched G) TableKey Engine

def owed {C G : Type} {Q : C → Type} (th : Party C Q G) : List PageSlot :=
  match th.prog with
  | .ret _ => []
  | .step _ _ => th.watcher.out

def Watcher.wrote (g : Watcher) : List (PageSlot × Tuple) := g.pend.toList++g.ins

section
variable {C G κ : Type} {Q : C → Type} (key : List UInt8 → Option κ) (k : TableKey)
def SameKey (d d' : List UInt8) : Prop := ∃ v, key d = some v ∧ key d' = some v

/-- No two live rows have one key, and a key that has been taken away stays free for the
statement that has to put it back. -/
structure KeyInv (s : Engine) (ths : List (Party C Q G)) : Prop where
  distinct : ∀ {loc loc' d d'}, s.live k loc = some d → s.live k loc' = some d' → SameKey key d d' → loc = loc'
  stored : ∀ {i : Nat} {th loc}, ths[i]? = some th → th.tag = k → loc ∈ owed th → s.mem k loc ≠ none
  free : ∀ {i : Nat} {th loc t loc' d}, ths[i]? = some th → th.tag = k → loc ∈ owed th → s.mem k loc = some t →
    s.live k loc' = some d → SameKey key t.data d → ∃ e ∈ th.watcher.row.wrote, e.1 = loc' ∧ e.2.data = d
  apart : ∀ {i j : Nat} {th th' loc loc' t t'}, ths[i]? = some th → ths[j]? = some th' → th.tag = k → th'.tag = k →
    loc ∈ owed th → loc' ∈ owed th' → s.mem k loc = some t → s.mem k loc' = some t' →
    SameKey key t.data t'.data → i = j ∧ loc = loc'
  through : ∀ {i : Nat} {th}, ths[i]? = some th → th.tag = k → th.watcher.row.locked = false →
    owed th = [] ∨ th.watcher.row.ins = []

/-- A version is stored under a key nobody has or has to put back, stamped while live, and restored
once, by the statement that stamped it. -/
def KeyStep (s : Engine) (ths : List (Party C Q G)) (i : Nat) (g : Watched G) : (c : Cmd) → c.Res → Prop
  | .insertTuple _ t, some _ => ∀ v, key t.data = some v → (∀ loc d, s.live k loc = some d → key d ≠ some v) ∧
      ∀ (j : Nat) th, ths[j]? = some th → j ≠ i → th.tag = k → ∀ loc ∈ owed th, ∀ t₀, s.mem k loc = some t₀ →
        key t₀.data ≠ some v
  | .putXMax loc _, true => s.live k loc ≠ none
  | .clearXMax loc, true => loc ∈ g.out
  | _, _ => True

def Owes (s : Engine) (ths : List (Party C Q G)) (i : Nat) (loc : PageSlot) (d : List UInt8) : Prop :=
  ∃ th t, ths[i]? = some th ∧ th.tag = k ∧ loc ∈ owed th ∧ s.mem k loc = some t ∧ t.data = d

def Wrote (ths : List (Party C Q G)) (i : Nat) (loc : PageSlot) (d : List UInt8) : Prop :=
  ∃ th, ths[i]? = some th ∧ ∃ e ∈ th.watcher.row.wrote, e.1 = loc ∧ e.2.data = d
end

structure Sane (s : Engine) (ws : List (TableKey × Watcher)) : Prop where
  steady : Steady s ws
  clean : Clean s ws
  ids : ∀ {i : Nat} {k g x}, ws[i]? = some (k,g) → g.tx = some x → x ≠ 0

namespace Sane
variable {s s' : Engine} {ws : List (TableKey × Watcher)} {i : Nat} {k : TableKey} {g : Watcher}
    {c : Cmd} {r : c.Res}
  {loc : PageSlot}
section
variable (h : Sane s ws)
include h
theorem effect (hs : s.Answers i k c r s') : s.Effect i k c r s' := (shape hs).effect (h.steady.backed k)

section
variable (hw : ws[i]? = some (k,g))
include hw
theorem run (ha : g.allowed c) (hf : ¬ c.Failed r)
    (hs : s.Answers i k c r s') : Sane s' (ws.set i (k,g.next c r)) := by
  refine ⟨h.steady.run hw ha (shape hs),h.clean.run h.steady hw ha hf (h.effect hs),?_⟩
  intro j k' g' x hj hx
  rcases thread_set_cases hj with ⟨rfl,heq⟩ | ⟨-,hj⟩
  · cases heq
    rcases (shape hs).clock g with ⟨htx,-⟩ | ⟨-,htx,-⟩
    · exact h.ids hw (htx ▸ hx)
    · rw [htx] at hx
      cases hx
      omega
  · exact h.ids hj hx

theorem tx_ne_zero (ha : g.allowed c) (hc : c = .putXMax loc x) : x ≠ 0 := by
  subst hc
  exact h.ids hw ha.1

theorem live_cases (ha : g.allowed c) (hs : s.Answers i k c r s')
    (hd : s'.live k loc = some d) : s.live k loc = some d ∨
      (∃ t, c = .insertTuple loc.pid t ∧ HEq r (some loc.slot) ∧ d = t.data) ∨
      (c = .clearXMax loc ∧ HEq r true) := by
  have hl := (h.effect hs).live loc
  rw [hd] at hl
  generalize s.live k loc = o at hl
  cases hl with
  | same => exact .inl rfl
  | @insert t _ hor =>
    rcases hor with hn | hs
    · cases hn
    · exact .inr (.inl ⟨t,rfl,HEq.rfl,some.inj hs⟩)
  | stamp hor =>
    rcases hor with hn | hs
    · cases hn
    · exact absurd hs (h.tx_ne_zero hw ha rfl)
  | clear => exact .inr (.inr ⟨rfl,HEq.rfl⟩)
end

theorem spawn (k : TableKey) : Sane s (ws++[(k,({} : Watcher))]) := by
  refine ⟨h.steady.spawn k,h.clean.spawn k,fun {i k' g x} hi hx => ?_⟩
  rcases thread_concat_cases hi with hi | ⟨-,heq⟩
  · exact h.ids hi hx
  · cases heq
    cases hx

theorem env (hne : e ≠ .checkpoint) (he : s.Env e s') : Sane s' ws ∧ ∀ k loc, s'.mem k loc = s.mem k loc := by
  have heff := he.effect h.steady.backed hne
  refine ⟨⟨h.steady.env hne he,h.clean.env heff,h.ids⟩,fun k loc => ?_⟩
  unfold mem
  rw [h.clean.page_env h.steady heff]
end
end Sane

section
variable {C G κ : Type} {Q : C → Type} {key : List UInt8 → Option κ} {k : TableKey}
  {s s' : Engine} {ths : List (Party C Q G)} {i : Nat} {g : Watched G} {c : Cmd} {r : c.Res}
theorem owed_subset (th : Party C Q G) : ∀ loc ∈ owed th, loc ∈ th.watcher.out := by
  intro loc hl
  unfold owed at hl
  split at hl
  · simp at hl
  · exact hl

theorem Watcher.wrote_next {g : Watcher} (ha : g.allowed c) (hf : ¬ c.Failed r) : ∀ e ∈ g.wrote,
    e ∈ (g.next c r).wrote := by
  intro e he
  cases c with
  | insertTuple pid t =>
    cases r with
    | none => exact he
    | some slot =>
      have hp : g.pend = none := ha.2.2.1
      simp only [wrote,hp,toList_none,nil_append] at he
      simp [wrote,next,he]
  | logInsert x loc t =>
    cases r with
    | none => exact absurd rfl hf
    | some lsn =>
      have hp : g.pend = some (loc,t) := ha.2
      simpa [wrote,next,hp] using he
  | fetchPage | allocatePage | putXMax | clearXMax | logDelete | logCommit => cases r <;> exact he
  | _ => exact he

theorem Watcher.wrote_cases {g : Watcher} (ha : g.allowed c) {e : PageSlot × Tuple} (he : e ∈ (g.next c r).wrote) :
    e ∈ g.wrote ∨ ∃ pid slot, (⟨c,r⟩ : (c : Cmd) × c.Res) = ⟨.insertTuple pid e.2,some slot⟩ := by
  cases c with
  | insertTuple pid t =>
    cases r with
    | none => exact .inl he
    | some slot =>
      simp only [wrote,next,toList_some,singleton_append,mem_cons] at he
      rcases he with rfl | he
      · exact .inr ⟨pid,slot,rfl⟩
      · exact .inl (by simp [wrote,he])
  | logInsert x loc t =>
    have hp : g.pend = some (loc,t) := ha.2
    cases r with
    | none =>
      have hins : e ∈ g.ins := by simpa [wrote,next] using he
      exact .inl (by simp [wrote,hins])
    | some lsn => exact .inl (by simpa [wrote,next,hp] using he)
  | fetchPage | allocatePage | putXMax | clearXMax | logDelete | logCommit => cases r <;> exact .inl he
  | _ => exact .inl he

theorem Watcher.wrote_eq_nil {g : Watcher} (hp : g.pend = none) (hi : g.ins = []) : g.wrote =
    [] := by simp [wrote,hp,hi]
def Watched.after (g : Watched G) (c : Cmd) (r : c.Res) (o : G) : Watched G := ⟨g.row.next c r,g.outNext c r,o⟩

namespace KeyInv
variable {loc : PageSlot} {j : Nat} {c' : C} {kont : Q c' → Prog C Q Unit} {o : G} {p : Prog C Q Unit}
  {th : Party C Q G}
theorem of_owes
    (distinct : ∀ {loc loc' d d'}, s.live k loc = some d → s.live k loc' = some d' → SameKey key d d' → loc = loc')
    (stored : ∀ {i : Nat} {th loc}, ths[i]? = some th → th.tag = k → loc ∈ owed th → s.mem k loc ≠ none)
    (free : ∀ {i loc d loc' d'}, Owes k s ths i loc d → s.live k loc' = some d' → SameKey key d d' →
      Wrote ths i loc' d')
    (apart : ∀ {i j loc loc' d d'}, Owes k s ths i loc d → Owes k s ths j loc' d' →
      SameKey key d d' → i = j ∧ loc = loc')
    (through : ∀ {i : Nat} {th}, ths[i]? = some th → th.tag = k → th.watcher.row.locked = false →
      owed th = [] ∨ th.watcher.row.ins = []) : KeyInv key k s ths := by
  refine ⟨distinct,stored,fun hi htag hl hm hd hsame => ?_,fun hi hj htag htag' hl hl' hm hm' hsame => ?_,through⟩
  · obtain ⟨th,hi',hw⟩ := free ⟨_,_,hi,htag,hl,hm,rfl⟩ hd hsame
    rw [hi] at hi'
    cases hi'
    exact hw
  · exact apart ⟨_,_,hi,htag,hl,hm,rfl⟩ ⟨_,_,hj,htag',hl',hm',rfl⟩ hsame

theorem owed_before (hi : ths[i]? = some ⟨k,g,.step c' kont⟩)
    (hj : (ths.set i ⟨k,g.after c r o,p⟩)[j]? = some th) (htag : th.tag = k) (hl : loc ∈ owed th) :
    (j = i → loc ∈ g.outNext c r) ∧ ((j = i → loc ∈ g.out) → ∃ th0, ths[j]? = some th0 ∧ th0.tag =
      k ∧ loc ∈ owed th0) := by
  rcases thread_set_cases hj with ⟨rfl,rfl⟩ | ⟨hne,hj⟩
  · exact ⟨fun _ => owed_subset _ loc hl,fun hout => ⟨_,hi,rfl,hout rfl⟩⟩
  · exact ⟨fun hji => absurd hji hne,fun _ => ⟨th,hj,htag,hl⟩⟩

theorem wrote_after (hi : ths[i]? = some ⟨k,g,.step c' kont⟩) (ha : g.row.allowed c) (hf : ¬ c.Failed r)
    (hw : Wrote ths j loc d) : Wrote (ths.set i ⟨k,g.after c r o,p⟩) j loc d := by
  obtain ⟨th,hj,e,he,heq⟩ := hw
  have hlt := (List.getElem?_eq_some_iff.1 hj).1
  by_cases hji : j = i
  · subst hji
    obtain rfl := some.inj (hj.symm.trans hi)
    exact ⟨_,getElem?_set_self hlt,e,Watcher.wrote_next ha hf e he,heq⟩
  · exact ⟨th,by rwa [getElem?_set_ne (Ne.symm hji)],e,he,heq⟩

variable {loc' loc₀ : PageSlot} {d' : List UInt8} {k₀ : TableKey}
section
variable (h : KeyInv key k s ths)
include h
theorem owes_free (ho : Owes k s ths i loc d)
    (hl : s.live k loc' = some d') (hsame : SameKey key d d') : Wrote ths i loc' d' := by
  obtain ⟨th,t,hi,htag,hmem,hm,rfl⟩ := ho
  exact ⟨th,hi,h.free hi htag hmem hm hl hsame⟩

theorem owes_apart (ho : Owes k s ths i loc d)
    (ho' : Owes k s ths j loc' d') (hsame : SameKey key d d') : i = j ∧ loc = loc' := by
  obtain ⟨th,t,hi,htag,hmem,hm,rfl⟩ := ho
  obtain ⟨th',t',hj,htag',hmem',hm',rfl⟩ := ho'
  exact h.apart hi hj htag htag' hmem hmem' hm hm' hsame

theorem env (hm : ∀ loc, s'.mem k loc = s.mem k loc) : KeyInv key k s' ths := by
  have hlive : ∀ loc, s'.live k loc = s.live k loc := fun loc => live_congr (hm loc)
  constructor
  · intro loc loc' d d' h1 h2
    rw [hlive] at h1 h2
    exact h.distinct h1 h2
  · intro j th loc hj htag
    rw [hm]
    exact h.stored hj htag
  · intro j th loc t loc' d hj htag hl
    rw [hm,hlive]
    exact h.free hj htag hl
  · intro j j' th th' loc loc' t t' hj hj' htag htag' hl hl'
    rw [hm,hm]
    exact h.apart hj hj' htag htag' hl hl'
  · exact h.through

theorem threads {ths' : List (Party C Q G)}
    (hold : ∀ {j : Nat} {th}, ths'[j]? = some th → th.tag = k → ths[j]? = some th ∨ owed th = []) :
    KeyInv key k s ths' := by
  have howed : ∀ {j : Nat} {th loc}, ths'[j]? = some th → th.tag = k → loc ∈ owed th → ths[j]? = some th := by
    intro j th loc hj htag hl
    refine (hold hj htag).resolve_right fun hn => ?_
    simp [hn] at hl
  constructor
  · exact h.distinct
  · intro j th loc hj htag hl
    exact h.stored (howed hj htag hl) htag hl
  · intro j th loc t loc' d hj htag hl
    exact h.free (howed hj htag hl) htag hl
  · intro j j' th th' loc loc' t t' hj hj' htag htag' hl hl'
    exact h.apart (howed hj htag hl) (howed hj' htag' hl') htag htag' hl hl'
  · intro j th hj htag hlk
    rcases hold hj htag with hj | hn
    · exact h.through hj htag hlk
    · exact .inl hn

theorem other (hk : k₀ ≠ k) (hm : ∀ loc, s'.mem k loc = s.mem k loc)
    (th0 : Party C Q G) (ht : th0.tag = k₀) : KeyInv key k s' (ths.set i th0) := by
  refine (h.env hm).threads fun hj htag => ?_
  rcases thread_set_cases hj with ⟨-,rfl⟩ | ⟨-,hj⟩
  · exact absurd (ht.symm.trans htag) hk
  · exact .inl hj

theorem spawn (k₀ : TableKey) (o : G) (p : Prog C Q Unit) : KeyInv key k s (ths++[⟨k₀,{ own := o },p⟩]) := by
  refine h.threads fun hj _ => ?_
  rcases thread_concat_cases hj with hj | ⟨-,rfl⟩
  · exact .inl hj
  · refine .inr (eq_nil_iff_forall_not_mem.2 fun loc hl => ?_)
    simpa using owed_subset _ loc hl

section
variable (hi : ths[i]? = some ⟨k,g,.step c' kont⟩)
include hi
theorem owes_before (he : s.Effect i k c r s') (ho : Owes k s' (ths.set i ⟨k,g.after c r o,p⟩) j loc d) :
    (j = i → loc ∈ g.outNext c r) ∧ ((j = i → loc ∈ g.out) → Owes k s ths j loc d) := by
  obtain ⟨th,t,hj,htag,hl,hm,rfl⟩ := ho
  obtain ⟨hnext,hold⟩ := owed_before hi hj htag hl
  refine ⟨hnext,fun hout => ?_⟩
  obtain ⟨th0,hj0,htag0,hl0⟩ := hold hout
  obtain ⟨t0,hm0⟩ := ne_none_iff_exists'.1 (h.stored hj0 htag0 hl0)
  exact ⟨th0,t0,hj0,htag0,hl0,hm0,(he.data_eq hm0 hm).symm⟩

section
variable (ha : g.row.allowed c) (hf : ¬ c.Failed r) (he : s.Effect i k c r s')
include ha hf he
theorem step (hout : ∀ loc ∈ g.outNext c r, loc ∈ g.out)
    (hthrough : (g.row.next c r).locked = false → g.outNext c r = [] ∨ (g.row.next c r).ins = [])
    (hdistinct : ∀ {loc loc' d d'}, s'.live k loc = some d → s'.live k loc' = some d' →
      SameKey key d d' → loc = loc')
    (hlive : ∀ {j loc d loc' d'}, Owes k s ths j loc d → (j = i → loc ∈ g.outNext c r) → s'.live k loc' = some d' →
      SameKey key d d' → s.live k loc' = some d' ∨ Wrote (ths.set i ⟨k,g.after c r o,p⟩) j loc' d') :
    KeyInv key k s' (ths.set i ⟨k,g.after c r o,p⟩) := by
  have hold : ∀ {j loc d}, Owes k s' (ths.set i ⟨k,g.after c r o,p⟩) j loc d → Owes k s ths j loc d := by
    intro j loc d ho
    obtain ⟨hnext,hold⟩ := h.owes_before hi he ho
    exact hold fun hji => hout loc (hnext hji)
  refine .of_owes hdistinct (fun hj htag hl => ?_) (fun ho hd hsame => ?_)
    (fun ho ho' => h.owes_apart (hold ho) (hold ho'))
    fun hj htag hlk => ?_
  · obtain ⟨hnext,hold⟩ := owed_before hi hj htag hl
    obtain ⟨th0,hj0,htag0,hl0⟩ := hold fun hji => hout _ (hnext hji)
    exact he.mem_kept (h.stored hj0 htag0 hl0)
  · rcases hlive (hold ho) (h.owes_before hi he ho).1 hd hsame with hd | hw
    · exact wrote_after hi ha hf (h.owes_free (hold ho) hd hsame)
    · exact hw
  · rcases thread_set_cases hj with ⟨rfl,rfl⟩ | ⟨-,hj⟩
    · refine (hthrough hlk).imp_left fun hnil => eq_nil_iff_forall_not_mem.2 fun loc hl => ?_
      have := owed_subset _ loc hl
      simp [Watched.after,hnil] at this
    · exact h.through hj htag hlk

theorem quiet (hlive : ∀ loc d, s'.live k loc = some d → s.live k loc = some d)
    (hout : ∀ loc ∈ g.outNext c r, loc ∈ g.out)
    (hthrough : (g.row.next c r).locked = false → g.outNext c r = [] ∨ (g.row.next c r).ins = []) :
    KeyInv key k s' (ths.set i ⟨k,g.after c r o,p⟩) :=
  h.step hi ha hf he hout hthrough (fun h1 h2 => h.distinct (hlive _ _ h1) (hlive _ _ h2))
    fun _ _ hd _ => .inl (hlive _ _ hd)
end

theorem insert {pid : PageID} {slot : Nat}
    (ha : g.row.allowed (.insertTuple pid t)) (he : s.Effect i k (.insertTuple pid t) (some slot) s')
    (hok : KeyStep key k s ths i g (.insertTuple pid t) (some slot)) (hlk : g.row.locked = true) :
    KeyInv key k s' (ths.set i ⟨k,g.after (.insertTuple pid t) (some slot) o,p⟩) := by
  have hnew : ∀ {loc d}, s'.live k loc = some d → s.live k loc = some d ∨ (loc = ⟨pid,slot⟩ ∧ d = t.data) := by
    intro loc d hd
    have hl := he.live loc
    rw [hd] at hl
    generalize ho : s.live k loc = o at hl
    cases hl with
    | same => exact .inl rfl
    | insert hor =>
      cases hor with
      | inl hn => cases hn
      | inr hs => exact .inr ⟨rfl,some.inj hs⟩
  refine h.step hi ha id he (fun _ hl => hl) (fun hl => by simp [Watcher.next,hlk] at hl) ?_ ?_
  · rintro loc loc' d d' h1 h2 ⟨v,hv,hv'⟩
    rcases hnew h1 with h1 | ⟨rfl,rfl⟩ <;> rcases hnew h2 with h2 | ⟨rfl,rfl⟩
    · exact h.distinct h1 h2 ⟨v,hv,hv'⟩
    · exact absurd hv ((hok v hv').1 _ _ h1)
    · exact absurd hv' ((hok v hv).1 _ _ h2)
    · rfl
  · rintro j loc d loc' d' ⟨th0,t0,hj0,htag,hl,hm,rfl⟩ - hd ⟨v,hv,hv'⟩
    refine (hnew hd).imp_right ?_
    rintro ⟨rfl,rfl⟩
    by_cases hji : j = i
    · subst hji
      exact ⟨_,List.getElem?_set_self (List.getElem?_eq_some_iff.1 hi).1,(⟨pid,slot⟩,t),
        by simp [Watched.after,Watcher.next,Watcher.wrote],rfl,rfl⟩
    · exact absurd hv ((hok v hv').2 j th0 hj0 hji htag loc hl t0 hm)
end

section
variable (hst : Steady s (ths.map fun th => (th.tag,th.watcher.row))) (hi : ths[i]? = some ⟨k,g,.step c' kont⟩)
include hst hi
theorem nothingOwed (hlk : g.row.locked = true)
    (hj : ths[j]? = some th) (htag : th.tag = k) (hne : j ≠ i) : owed th = [] ∨ th.watcher.row.wrote = [] := by
  have hi' := hst.thread i k g.row (by simp [hi])
  have hj' := hst.thread j k th.watcher.row (by simp [hj,htag])
  have hun : th.watcher.row.locked = false := by
    by_contra hl
    exact hne (hj'.lock_unique hi' (by simpa using hl) hlk)
  exact (h.through hj htag hun).imp_right fun hins => Watcher.wrote_eq_nil (hj'.holdsNothing hun).2.2 hins

theorem stamp (ha : g.row.allowed (.putXMax loc₀ x)) (hx : x ≠ 0)
    (he : s.Effect i k (.putXMax loc₀ x) true s') (hok : KeyStep key k s ths i g (.putXMax loc₀ x) true) :
    KeyInv key k s' (ths.set i ⟨k,g.after (.putXMax loc₀ x) true o,p⟩) := by
  obtain ⟨htx,hlk,-,-,-,hpend,hins⟩ := id ha
  obtain ⟨d0,hd0⟩ := ne_none_iff_exists'.1 hok
  obtain ⟨t0,hm0,hdel,rfl⟩ := live_eq_some.1 hd0
  have hdead : s'.live k loc₀ = none := by
    obtain ⟨t',hm',hd'⟩ : ∃ t', s'.mem k loc₀ = some t' ∧ t'.deletedTx = x := by
      unfold mem at hm0 ⊢
      cases he with
      | still hs => cases hs
      | absent hp => cases hp
      | log hr => cases hr
      | logFail hf => exact hf.elim
      | stamp hp hpage _ _ hfs =>
        rw [hfs.page,if_pos ⟨rfl,rfl⟩,bind_some,hpage,Page.getTuple_modifyTuple,if_pos rfl]
        rw [hp,bind_some] at hm0
        exact ⟨_,by rw [hm0]; rfl,rfl⟩
    rw [live,hm',bind_some,hd',if_neg hx]
  have hlive : ∀ {loc d}, s'.live k loc = some d → s.live k loc = some d ∧ loc ≠ loc₀ := by
    intro loc d hd
    have hne : loc ≠ loc₀ := by
      rintro rfl
      simp [hdead] at hd
    have hl := he.live loc
    rw [hd] at hl
    generalize ho : s.live k loc = o at hl
    cases hl with
    | same => exact ⟨rfl,hne⟩
    | stamp => exact absurd rfl hne
  -- whoever owes the key of the stamped version would have stored it
  have hnot : ∀ {j loc d}, Owes k s ths j loc d → ¬ SameKey key d t0.data := by
    rintro j loc d ⟨th,t,hj,htag,hl,hm,rfl⟩ hsame
    obtain ⟨e,hw,-⟩ := h.free hj htag hl hm hd0 hsame
    by_cases hji : j = i
    · subst hji
      obtain rfl := some.inj (hj.symm.trans hi)
      rw [Watcher.wrote_eq_nil hpend hins] at hw
      simp at hw
    · rcases h.nothingOwed hst hi hlk hj htag hji with hn | hn
      · simp [hn] at hl
      · simp [hn] at hw
  have hold : ∀ {j loc d}, Owes k s' (ths.set i ⟨k,g.after (.putXMax loc₀ x) true o,p⟩) j loc d →
      (j = i ∧ loc = loc₀ ∧ d = t0.data) ∨ Owes k s ths j loc d := by
    intro j loc d ho
    obtain ⟨hnext,hold⟩ := h.owes_before hi he ho
    by_cases hji : j = i ∧ loc = loc₀
    · obtain ⟨rfl,rfl⟩ := hji
      obtain ⟨th,t,-,-,-,hm,rfl⟩ := ho
      exact .inl ⟨rfl,rfl,he.data_eq hm0 hm⟩
    · exact .inr (hold fun hj => (mem_cons.1 (hnext hj)).resolve_left fun hl => hji ⟨hj,hl⟩)
  refine .of_owes (fun h1 h2 => h.distinct (hlive h1).1 (hlive h2).1) (fun {j th loc} hj htag hl => he.mem_kept ?_)
    (fun ho hd hsame => ?_) (fun ho ho' hsame => ?_) fun hj htag hlk' => ?_
  · obtain ⟨hnext,hold⟩ := owed_before hi hj htag hl
    by_cases hloc : loc = loc₀
    · simp [hloc,hm0]
    · obtain ⟨th0,hj0,htag0,hl0⟩ := hold fun hji => (mem_cons.1 (hnext hji)).resolve_left hloc
      exact h.stored hj0 htag0 hl0
  · obtain ⟨hd,hne⟩ := hlive hd
    rcases hold ho with ⟨rfl,rfl,rfl⟩ | ho
    · exact absurd (h.distinct hd0 hd hsame).symm hne
    · exact wrote_after hi ha nofun (h.owes_free ho hd hsame)
  · rcases hold ho with ⟨rfl,rfl,rfl⟩ | h1 <;> rcases hold ho' with ⟨rfl,rfl,rfl⟩ | h2
    · exact ⟨rfl,rfl⟩
    · obtain ⟨v,hv,hv'⟩ := hsame
      exact absurd ⟨v,hv',hv⟩ (hnot h2)
    · exact absurd hsame (hnot h1)
    · exact h.owes_apart h1 h2 hsame
  · rcases thread_set_cases hj with ⟨rfl,rfl⟩ | ⟨-,hj⟩
    · exact .inr hins
    · exact h.through hj htag hlk'
end

theorem clear (hi : ths[i]? = some ⟨k,g,.step c' kont⟩) (ha : g.row.allowed (.clearXMax loc₀))
    (he : s.Effect i k (.clearXMax loc₀) true s') (hok : loc₀ ∈ g.out) :
    KeyInv key k s' (ths.set i ⟨k,g.after (.clearXMax loc₀) true o,p⟩) := by
  obtain ⟨hlk,-,-,-,hpend,hins⟩ := id ha
  obtain ⟨t0,hm0⟩ := ne_none_iff_exists'.1 (h.stored hi rfl hok)
  have hown : Owes k s ths i loc₀ t0.data := ⟨_,t0,hi,rfl,hok,hm0,rfl⟩
  have hlive : ∀ {loc d}, s'.live k loc = some d → s.live k loc = some d ∨ (loc = loc₀ ∧ d = t0.data) := by
    intro loc d hd
    by_cases hne : loc = loc₀
    · subst hne
      obtain ⟨t,hm,-,rfl⟩ := live_eq_some.1 hd
      exact .inr ⟨rfl,he.data_eq hm0 hm⟩
    · have hl := he.live loc
      rw [hd] at hl
      generalize ho : s.live k loc = o at hl
      cases hl with
      | same => exact .inl rfl
      | clear => exact absurd rfl hne
  have hfree : ∀ {loc d}, s.live k loc = some d → ¬ SameKey key t0.data d := by
    intro loc d hd hsame
    obtain ⟨e,hw,-⟩ := h.free hi rfl hok hm0 hd hsame
    rw [Watcher.wrote_eq_nil hpend hins] at hw
    simp at hw
  refine h.step hi ha nofun he (fun _ hl => (mem_filter.1 hl).1) (fun _ => .inr hins) ?_ ?_
  · intro loc loc' d d' h1 h2 hsame
    rcases hlive h1 with h1 | ⟨rfl,rfl⟩ <;> rcases hlive h2 with h2 | ⟨rfl,rfl⟩
    · exact h.distinct h1 h2 hsame
    · obtain ⟨v,hv,hv'⟩ := hsame
      exact absurd ⟨v,hv',hv⟩ (hfree h1)
    · exact absurd hsame (hfree h2)
    · rfl
  · intro j loc d loc' d' ho hnext hd hsame
    refine (hlive hd).imp_right ?_
    rintro ⟨rfl,rfl⟩
    obtain ⟨hji,rfl⟩ := h.owes_apart ho hown hsame
    exact absurd (hnext hji) (by simp [Watched.outNext])

theorem run (hsane : Sane s (ths.map fun th => (th.tag,th.watcher.row)))
    (hi : ths[i]? = some ⟨k₀,g,.step c' kont⟩) (ha : g.row.allowed c) (hf : ¬ c.Failed r)
    (hs : s.Answers i k₀ c r s') (hok : k₀ = k → KeyStep key k s ths i g c r) :
    KeyInv key k s' (ths.set i ⟨k₀,g.after c r o,p⟩) := by
  have he := hsane.effect hs
  by_cases hk : k₀ = k
  swap
  · exact h.other hk (he.otherMem (Ne.symm hk)) _ rfl
  subst hk
  have hw : (ths.map fun th => (th.tag,th.watcher.row))[i]? = some (k₀,g.row) := by simp [hi]
  have hi' := hsane.steady.thread i k₀ g.row hw
  have hown : g.row.locked = false → g.out = [] ∨ g.row.ins = [] := h.through hi rfl
  -- what is left to show for a command that touches no row
  have hquiet : touches c r = false → (∀ loc ∈ g.outNext c r, loc ∈ g.out) →
      ((g.row.next c r).locked = false → g.outNext c r = [] ∨ (g.row.next c r).ins = []) →
      KeyInv key k₀ s' (ths.set i ⟨k₀,g.after c r o,p⟩) := fun ht =>
    h.quiet hi ha hf he fun loc d hd => ((he.live loc).eq ht).symm.trans hd
  cases c with
  | insertTuple pid t =>
    cases r with
    | some slot => exact h.insert hi ha he (hok rfl) (hi'.pin pid ha.1).1
    | none => exact hquiet rfl (fun _ hl => hl) hown
  | putXMax loc x =>
    cases r with
    | true => exact h.stamp hsane.steady hi ha (hsane.tx_ne_zero hw ha rfl) he (hok rfl)
    | false => exact hquiet rfl (fun _ hl => hl) hown
  | clearXMax loc =>
    cases r with
    | true => exact h.clear hi ha he (hok rfl)
    | false => exact hquiet rfl (fun _ hl => hl) hown
  | unlockTable =>
    refine hquiet rfl (fun loc hl => ?_) fun _ => ?_
    · simp only [Watched.outNext] at hl
      split at hl
      · exact hl
      · simp at hl
    · simp only [Watched.outNext]
      split
      · rename_i hins
        exact .inr hins
      · exact .inl rfl
  | lockTable => exact hquiet rfl (fun _ hl => hl) fun _ => hown ha.1
  | relockTable => exact hquiet rfl (fun _ hl => hl) nofun
  | logInsert x loc t =>
    cases r with
    | none => exact absurd rfl hf
    | some lsn =>
      have hlk := (hi'.pin _ (hi'.pend _ ha.2).1).1
      exact hquiet rfl (fun _ hl => hl) fun hl => absurd (hlk.symm.trans hl) nofun
  | fetchPage | allocatePage | logDelete | logCommit => cases r <;> exact hquiet rfl (fun _ hl => hl) hown
  | _ => exact hquiet rfl (fun _ hl => hl) hown

theorem engine {sc : TableSchema} (hsane : Sane s (ths.map fun th => (th.tag,th.watcher.row)))
    (hsc : ∃ t, s.tables k = some t ∧ t.info.schema = sc)
    (hi : ths[i]? = some ⟨k₀,g,.step c' kont⟩) (ha : g.row.allowed c) (hf : ¬ c.Failed r)
    (hs : s.Answers i k₀ c r s') (hok : k₀ = k → KeyStep key k s ths i g c r) (o : G) (p : Prog C Q Unit) :
    Sane s' ((ths.set i ⟨k₀,g.after c r o,p⟩).map fun th => (th.tag,th.watcher.row)) ∧
      KeyInv key k s' (ths.set i ⟨k₀,g.after c r o,p⟩) ∧ ∃ t, s'.tables k = some t ∧ t.info.schema = sc := by
  refine ⟨?_,h.run hsane hi ha hf hs hok,?_⟩
  · have hw : (ths.map fun th => (th.tag,th.watcher.row))[i]? = some (k₀,g.row) := by simp [hi]
    simpa [map_set,Watched.after] using hsane.run hw ha hf hs
  · obtain ⟨t,ht,hsc⟩ := hsc
    by_cases hk : k₀ = k
    · subst hk
      obtain ⟨t',ht',hsc'⟩ := (shape hs).schema ha t ht
      exact ⟨t',ht',hsc'.trans hsc⟩
    · exact ⟨t,((shape hs).otherTable (Ne.symm hk)).trans ht,hsc⟩
end
end KeyInv
end
end VaultDB.Storage
