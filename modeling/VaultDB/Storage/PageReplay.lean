import VaultDB.Lib.Replay
import VaultDB.Storage.Page
set_option autoImplicit false

/-!
Redo and undo seen from one page: a list of inserts at given slots and of `deleted_tx` stamps.  A
replay over a page that went through part of it changes nothing that was done.
-/

namespace VaultDB.Storage
open Lib List Option
variable {n : Nat}
inductive PageOp where
  | insert (slot : Nat) (t : Tuple)
  | stamp (slot : Nat) (xmax : Nat)
  deriving DecidableEq, Repr

variable {ops : List PageOp}
namespace PageOp

def slot : PageOp → Nat
  | .insert s _ => s
  | .stamp s _ => s

def isInsert : PageOp → Bool
  | .insert _ _ => true
  | .stamp _ _ => false

def apply (p : Page) : PageOp → Except PageError Page
  | .insert s t => p.insertTupleAt s t
  | .stamp s x => .ok (p.modifyTuple s (·.setXMax x))

def lastStamp (slot : Nat) : List PageOp → Option Nat
  | [] => none
  | .insert _ _ :: ops => lastStamp slot ops
  | .stamp s x :: ops => (lastStamp slot ops).or (if s = slot then some x else none)

def WellLogged (ops : List PageOp) : Prop := ops.Pairwise fun a b => b.isInsert = true → a.slot ≠ b.slot

theorem lastStamp_append (n : Nat) (xs ys : List PageOp) : lastStamp n (xs++ys) =
    (lastStamp n ys).or (lastStamp n xs) := by
  induction xs with
  | nil => simp [lastStamp]
  | cons o xs ih => cases o <;> simp [lastStamp,ih,Option.or_assoc]

theorem lastStamp_eq_none : lastStamp n ops = none ↔ ∀ x, .stamp n x ∉ ops := by
  induction ops with
  | nil => simp [lastStamp]
  | cons o ops ih =>
    cases o with
    | insert s t => simp [lastStamp,ih]
    | stamp s y =>
      by_cases hs : s = n
      · subst hs
        simp only [lastStamp,if_true,or_eq_none_iff,reduceCtorEq,and_false,false_iff]
        exact fun h => h y mem_cons_self
      · simp [lastStamp,hs,ih,Ne.symm hs]

theorem mem_of_lastStamp {x : Nat} (h : lastStamp n ops = some x) : .stamp n x ∈ ops := by
  induction ops with
  | nil => simp [lastStamp] at h
  | cons o ops ih =>
    cases hl : lastStamp n ops with
    | some y =>
      have hy : y = x := by cases o <;> simpa [lastStamp,hl] using h
      exact mem_cons_of_mem _ (ih (hy ▸ hl))
    | none =>
      cases o with
      | insert s t => simp [lastStamp,hl] at h
      | stamp s y =>
        simp only [lastStamp,hl,none_or] at h
        split at h
        · rename_i hs
          cases h
          subst hs
          exact mem_cons_self
        · cases h

theorem lastStamp_flatMap {l : List Nat} {f : Nat → List PageOp} {u : Nat}
    (hagree : ∀ x ∈ l, ∀ v, lastStamp n (f x) = some v → v = u)
    (hsome : ∃ x ∈ l, lastStamp n (f x) ≠ none) : lastStamp n (l.flatMap f) = some u := by
  have hmem : ∀ v, lastStamp n (l.flatMap f) = some v → v = u := by
    clear hsome
    induction l with
    | nil => simp [lastStamp]
    | cons x l ih =>
      intro v hv
      rw [flatMap_cons,lastStamp_append] at hv
      cases hl : lastStamp n (l.flatMap f) with
      | some y =>
        rw [hl,some_or] at hv
        exact ih (fun x hx => hagree x (mem_cons_of_mem _ hx)) v (hl.trans hv)
      | none =>
        rw [hl,none_or] at hv
        exact hagree x mem_cons_self v hv
  cases hl : lastStamp n (l.flatMap f) with
  | some v => rw [hmem v hl]
  | none =>
    obtain ⟨x,hx,hne⟩ := hsome
    refine absurd (lastStamp_eq_none.2 fun y hy => ?_) hne
    exact lastStamp_eq_none.1 hl y (mem_flatMap.2 ⟨x,hx,hy⟩)

end PageOp

namespace Page
open PageOp
variable {p q : Page} {t : Tuple} {slot : Nat}
def replayOps (p : Page) (ops : List PageOp) : Except PageError Page := replay PageOp.apply ops p

def stampWith (p : Page) (f : Nat → Option Nat) : Page where
  items := p.items.mapIdx fun i it => it.map fun t => t.setXMax ((f i).getD t.deletedTx)
  upper := p.upper
  room := by simpa using p.room
  top := p.top

theorem getTuple_stampWith (p : Page) (f : Nat → Option Nat) (n : Nat) :
    (p.stampWith f).getTuple n = (p.getTuple n).map fun t => t.setXMax ((f n).getD t.deletedTx) := by
  simp only [getTuple,stampWith,getElem?_mapIdx]
  cases p.items[n]? with
  | none => rfl
  | some i => cases i <;> simp [Item.map,Item.tuple?]

theorem stampWith_congr {f g : Nat → Option Nat}
    (h : ∀ n t, p.getTuple n = some t → (f n).getD t.deletedTx = (g n).getD t.deletedTx) :
    p.stampWith f = p.stampWith g := by
  ext1
  · refine ext_getElem? fun n => ?_
    simp only [stampWith,getElem?_mapIdx]
    cases hi : p.items[n]? with
    | none => rfl
    | some i =>
      cases i with
      | dead => rfl
      | normal t => simp [Item.map,h n t (getTuple_eq_some_iff.2 hi)]
  · rfl

@[simp] theorem stampWith_none (p : Page) : p.stampWith (fun _ => none) = p := by
  ext1
  · refine ext_getElem? fun n => ?_
    simp only [stampWith,getElem?_mapIdx]
    cases p.items[n]? with
    | none => rfl
    | some i => cases i <;> simp [Item.map]
  · rfl

theorem stampWith_stampWith (p : Page) (f g : Nat → Option Nat) :
    (p.stampWith f).stampWith g = p.stampWith fun n => (g n).or (f n) := by
  ext1
  · refine ext_getElem? fun n => ?_
    simp only [stampWith,getElem?_mapIdx]
    cases p.items[n]? with
    | none => rfl
    | some i =>
      cases i with
      | dead => rfl
      | normal t => cases g n <;> simp [Item.map]
  · rfl

theorem modifyTuple_setXMax (p : Page) (slot x : Nat) :
    p.modifyTuple slot (·.setXMax x) = p.stampWith fun n => if slot = n then some x else none := by
  ext1
  · refine ext_getElem? fun n => ?_
    simp only [stampWith,modifyTuple,getElem?_mapIdx,getElem?_modify]
    cases p.items[n]? with
    | none => rfl
    | some i => cases i <;> by_cases h : slot = n <;> simp [Item.map,h]
  · rfl

def Present (p : Page) (slot : Nat) (t : Tuple) : Prop :=
  t.length ≤ maxTupleLength ∧ ∃ e, p.getTuple slot = some e ∧ e.SameVersion t

theorem Present.stampWith (h : p.Present slot t)
    (f : Nat → Option Nat) : (p.stampWith f).Present slot t := by
  obtain ⟨hl,e,he,hv⟩ := h
  exact ⟨hl,_,by rw [getTuple_stampWith,he]; rfl,(Tuple.sameVersion_setXMax _ _ _).2 hv⟩

theorem present_insertTupleAt (h : p.insertTupleAt slot t = .ok q) : q.Present slot t :=
  ⟨insertTupleAt_length h,_,by rw [getTuple_insertTupleAt h,if_pos rfl],sameVersion_insertedOver t _⟩

theorem getTuple_replayOps (hn : ∀ o ∈ ops, o.isInsert = true → o.slot ≠ n) (h : p.replayOps ops = .ok q) :
    q.getTuple n = (p.getTuple n).map fun t => t.setXMax ((lastStamp n ops).getD t.deletedTx) := by
  induction ops generalizing p with
  | nil =>
    cases h
    simp [lastStamp]
  | cons o ops ih =>
    obtain ⟨p1,h1,h2⟩ := replay_cons_eq_ok.1 h
    rw [ih (fun o ho => hn o (mem_cons_of_mem _ ho)) h2]
    cases o with
    | insert s t =>
      have hs : s ≠ n := hn _ mem_cons_self rfl
      rw [getTuple_insertTupleAt h1,if_neg hs]
      rfl
    | stamp s x =>
      cases h1
      rw [getTuple_modifyTuple]
      cases p.getTuple n with
      | none => split <;> rfl
      | some t => by_cases hs : s = n <;> cases hl : lastStamp n ops <;> simp [lastStamp,hs,hl]

theorem replayOps_of_present (h : ∀ s t, .insert s t ∈ ops → p.Present s t) :
    p.replayOps ops = .ok (p.stampWith fun n => lastStamp n ops) := by
  induction ops generalizing p with
  | nil => simp [replayOps,lastStamp]
  | cons o ops ih =>
    have hrest : ∀ s t, PageOp.insert s t ∈ ops → p.Present s t := fun s t hm => h s t (mem_cons_of_mem _ hm)
    refine replay_cons_eq_ok.2 ?_
    cases o with
    | insert s t =>
      obtain ⟨hl,e,he,hv⟩ := h s t mem_cons_self
      exact ⟨p,insertTupleAt_present he hv hl,ih hrest⟩
    | stamp s x =>
      refine ⟨_,rfl,?_⟩
      have hst : ∀ s' t, PageOp.insert s' t ∈ ops → (p.modifyTuple s (·.setXMax x)).Present s' t := by
        intro s' t hm
        rw [modifyTuple_setXMax]
        exact (hrest s' t hm).stampWith _
      have hih := ih hst
      rw [modifyTuple_setXMax,stampWith_stampWith] at hih
      rw [modifyTuple_setXMax]
      exact hih

theorem replayOps_stamps (h : ∀ o ∈ ops, o.isInsert = false) : p.replayOps ops =
    .ok (p.stampWith fun n => lastStamp n ops) :=
  replayOps_of_present fun s t hm => by simpa [isInsert] using h _ hm

theorem WellLogged_take (hw : WellLogged ops) (j : Nat) :
    WellLogged (ops.take j) := List.Pairwise.sublist (take_sublist j ops) hw

section
variable (hw : WellLogged ops) (h : p.replayOps ops = .ok q)
include hw h
theorem getTuple_replayOps_insert (hm : .insert n t ∈ ops) : q.getTuple n =
    some ((insertedOver t (p.getTuple n)).setXMax
      ((lastStamp n ops).getD (insertedOver t (p.getTuple n)).deletedTx)) := by
  induction ops generalizing p with
  | nil => cases hm
  | cons o ops ih =>
    obtain ⟨p1,h1,h2⟩ := replay_cons_eq_ok.1 h
    obtain ⟨ho,hw'⟩ := pairwise_cons.1 hw
    rcases mem_cons.1 hm with rfl | hm
    · rw [getTuple_replayOps (n := n) (fun o' ho' hi => (ho o' ho' hi).symm) h2,getTuple_insertTupleAt h1,if_pos rfl]
      rfl
    · have hne : o.slot ≠ n := ho _ hm rfl
      rw [ih hw' h2 hm]
      cases o with
      | insert s t' =>
        have hs : s ≠ n := hne
        rw [getTuple_insertTupleAt h1,if_neg hs]
        rfl
      | stamp s x =>
        cases h1
        have hs : s ≠ n := hne
        simp [getTuple_modifyTuple,lastStamp,hs]

theorem present_replayOps {s : Nat} (hm : .insert s t ∈ ops) : q.Present s t := by
  induction ops generalizing p with
  | nil => simp at hm
  | cons o ops ih =>
    obtain ⟨p1,h1,h2⟩ := replay_cons_eq_ok.1 h
    obtain ⟨ho,hw'⟩ := pairwise_cons.1 hw
    rcases mem_cons.1 hm with rfl | hm
    · obtain ⟨hl,e,he,hv⟩ := present_insertTupleAt h1
      have hq := getTuple_replayOps (n := s) (fun o' ho' hi => (ho o' ho' hi).symm) h2
      exact ⟨hl,_,by rw [hq,he]; rfl,(Tuple.sameVersion_setXMax _ _ _).2 hv⟩
    · exact ih hw' h2 hm

theorem deletedTx_replayOps {x : Nat} (ht : q.getTuple n = some t)
    (hx : lastStamp n ops = some x) : t.deletedTx = x := by
  induction ops generalizing p with
  | nil => simp [lastStamp] at hx
  | cons o ops ih =>
    obtain ⟨p1,h1,h2⟩ := replay_cons_eq_ok.1 h
    obtain ⟨ho,hw'⟩ := pairwise_cons.1 hw
    cases hl : lastStamp n ops with
    | some y =>
      have hxy : y = x := by cases o <;> simpa [lastStamp,hl] using hx
      exact ih hw' h2 (hxy ▸ hl)
    | none =>
      cases o with
      | insert s t' => simp [lastStamp,hl] at hx
      | stamp s y =>
        simp only [lastStamp,hl,none_or] at hx
        split at hx
        · rename_i hs
          subst hs
          cases h1
          have hn : ∀ o' ∈ ops, o'.isInsert = true → o'.slot ≠ s := fun o' ho' hi => (ho o' ho' hi).symm
          rw [getTuple_replayOps hn h2,getTuple_modifyTuple,if_pos rfl,hl] at ht
          cases hp : p.getTuple s with
          | none => simp [hp] at ht
          | some t0 =>
            simp only [hp,map_some,some.injEq] at ht hx
            rw [← ht,← hx]
            rfl
        · cases hx

theorem replayOps_idem : q.replayOps ops = .ok q := by
  have hstamp : q.stampWith (fun n => lastStamp n ops) = q.stampWith fun _ => none := by
    refine stampWith_congr fun n t ht => ?_
    cases hl : lastStamp n ops with
    | none => rfl
    | some x => exact (deletedTx_replayOps hw h ht hl).symm
  rw [replayOps_of_present fun s t hm => present_replayOps hw h hm,hstamp,stampWith_none]

theorem replayOps_restart {r : Page} (j : Nat) (hr : p.replayOps (ops.take j) = .ok r) :
    r.replayOps ops = .ok q := by
  rw [← take_append_drop j ops] at h ⊢
  obtain ⟨r',hr',hq⟩ := replay_append_eq_ok.1 h
  obtain rfl : r' = r := Except.ok.inj (hr'.symm.trans hr)
  exact replay_append_eq_ok.2 ⟨r',replayOps_idem (WellLogged_take hw j) hr,hq⟩

theorem replayOps_restart_undo {u v w : Nat → Option Nat}
    (hu : ∀ n, u n = none → v n = none ∧ w n = none) (huw : ∀ n x, u n = some x → w n = some x) :
    ∃ q', (q.stampWith v).replayOps ops = .ok q' ∧ q'.stampWith w = q.stampWith u := by
  refine ⟨_,replayOps_of_present fun s t hm => (present_replayOps hw h hm).stampWith v,?_⟩
  rw [stampWith_stampWith,stampWith_stampWith]
  refine stampWith_congr fun n t ht => ?_
  cases hun : u n with
  | some x => simp [huw n x hun]
  | none =>
    obtain ⟨hv,hw'⟩ := hu n hun
    cases hl : lastStamp n ops with
    | none => simp [hv,hw']
    | some x => simp [hw',deletedTx_replayOps hw h ht hl]
end

theorem replayOps_restart_append {r : Page} {undo undo' : List PageOp} (hw : WellLogged ops)
    (hu : ∀ o ∈ undo, o.isInsert = false) (hu' : ∀ o ∈ undo', o.isInsert = false)
    (hlast : ∀ n, lastStamp n undo' = lastStamp n undo) (h : p.replayOps (ops++undo) = .ok q)
    (j : Nat) (hr : p.replayOps ((ops++undo).take j) = .ok r) : r.replayOps (ops++undo') = .ok q := by
  obtain ⟨q1,h1,h2⟩ := replay_append_eq_ok.1 h
  obtain rfl := Except.ok.inj ((replayOps_stamps hu).symm.trans h2)
  have hst : (fun n => lastStamp n undo') = fun n => lastStamp n undo := funext hlast
  rw [take_append] at hr
  obtain ⟨r1,hr1,hr2⟩ := replay_append_eq_ok.1 hr
  rcases Nat.le_total j ops.length with hj | hj
  · -- the redo pass was interrupted: it comes back to where it ended, and the undo pass follows
    rw [Nat.sub_eq_zero_of_le hj] at hr2
    cases hr2
    exact replay_append_eq_ok.2 ⟨q1,replayOps_restart hw h1 j hr1,by
      have := replayOps_stamps (p := q1) hu'
      rwa [hst] at this⟩
  · rw [take_of_length_le hj] at hr1
    obtain rfl := Except.ok.inj (hr1.symm.trans h1)
    have hpart : ∀ o ∈ undo.take (j-ops.length), o.isInsert = false := fun o ho => hu o (mem_of_mem_take ho)
    obtain rfl := Except.ok.inj ((replayOps_stamps hpart).symm.trans hr2)
    obtain ⟨q',hq',heq⟩ := replayOps_restart_undo (u := fun n => lastStamp n undo)
      (v := fun n => lastStamp n (undo.take (j-ops.length))) (w := fun n => lastStamp n undo') hw h1
      (fun n hn => ⟨lastStamp_eq_none.2 fun x hx => lastStamp_eq_none.1 hn x (mem_of_mem_take hx),
        (hlast n).trans hn⟩)
      (fun n x hx => (hlast n).trans hx)
    exact replay_append_eq_ok.2 ⟨q',hq',by rw [← heq]; exact replayOps_stamps hu'⟩

end Page
end VaultDB.Storage
