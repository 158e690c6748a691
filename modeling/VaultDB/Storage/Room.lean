import VaultDB.Storage.PageReplay
import Mathlib.Algebra.BigOperators.Fin
import Mathlib.Algebra.Order.BigOperators.Group.Finset
set_option autoImplicit false

/-!
How much room a page needs to replay its records.  A record whose tuple is on the page as written
needs none; any other needs a fresh copy, also where only the HOT flag differs.

A page on disk is an earlier state of the cached one and has the room the tuples inserted since
took, so it can replay what the cached page could.
-/

namespace VaultDB.Storage
open Lib List Option VaultDB.Storage.Tuple
variable {p q : Page} {s : Nat} {t : Tuple} {ops : List PageOp}
theorem sum_map_getElem?_le {α : Type} (l : List α) (f : α → Nat) {is : List Nat} (h : is.Nodup) :
    (is.map fun i => (l[i]?).elim 0 f).sum ≤ (l.map f).sum := by
  have hl : (l.map f).sum = ∑ i ∈ Finset.range l.length, (l[i]?).elim 0 f := by
    rw [Finset.sum_range,← Fin.sum_univ_fun_getElem]
    exact Finset.sum_congr rfl fun i _ => by simp
  rw [hl,← sum_toFinset _ h]
  refine Finset.sum_le_sum_of_ne_zero fun i _ hi => ?_
  by_contra hn
  rw [Finset.mem_range,Nat.not_lt] at hn
  simp [getElem?_eq_none hn] at hi

namespace Page
open PageOp

def missing (p : Page) : PageOp → Nat
  | .insert s t => if (p.getTuple s).any (fun e => e.SameVersion t) then 0 else t.length
  | .stamp _ _ => 0

def lack (p : Page) (ops : List PageOp) : Nat := (ops.map p.missing).sum
theorem lack_cons (p : Page) (o : PageOp) (ops : List PageOp) : p.lack (o :: ops) =
    p.missing o+p.lack ops := by simp [lack]
theorem lack_append (p : Page) (xs ys : List PageOp) : p.lack (xs++ys) = p.lack xs+p.lack ys := by simp [lack]

theorem missing_insert_of_sameVersion {e : Tuple} (he : p.getTuple s = some e)
    (hv : e.SameVersion t) : p.missing (.insert s t) = 0 := by simp [missing,he,hv]

theorem missing_insert_of_not
    (hv : ∀ e, p.getTuple s = some e → ¬ e.SameVersion t) : p.missing (.insert s t) = t.length := by
  have hn : ((p.getTuple s).any fun e => decide (e.SameVersion t)) = false := by
    cases he : p.getTuple s with
    | none => rfl
    | some e => simp [hv e he]
  simp [missing,hn]

theorem lack_congr
    (h : ∀ s t, .insert s t ∈ ops → p.missing (.insert s t) = q.missing (.insert s t)) :
    p.lack ops = q.lack ops := by
  have hmap : ops.map p.missing = ops.map q.missing := by
    refine map_congr_left fun o ho => ?_
    cases o with
    | insert s t => exact h s t ho
    | stamp s x => rfl
  rw [lack,hmap,lack]

theorem missing_congr (h : q.getTuple s = p.getTuple s) :
    p.missing (.insert s t) = q.missing (.insert s t) := by simp [missing,h]

theorem missing_modifyTuple_setXMax (p : Page) (n x s : Nat) (t : Tuple) :
    (p.modifyTuple n (·.setXMax x)).missing (.insert s t) = p.missing (.insert s t) := by
  simp only [missing,getTuple_modifyTuple]
  cases p.getTuple s with
  | none => simp
  | some e => by_cases hs : n = s <;> simp [hs]

theorem missing_le_length (p : Page) (s : Nat) (t : Tuple) : p.missing (.insert s t) ≤ t.length := by
  simp only [missing]
  split
  · exact Nat.zero_le _
  · exact Nat.le_refl _

theorem lack_eq_zero (h : ∀ s t, .insert s t ∈ ops → p.missing (.insert s t) = 0) : p.lack ops = 0 := by
  refine sum_eq_zero fun n hn => ?_
  obtain ⟨o,ho,rfl⟩ := mem_map.1 hn
  cases o with
  | insert s t => exact h s t ho
  | stamp s x => rfl

theorem lack_modifyTuple_le {n : Nat} (slot : Nat) (f : Tuple → Tuple) (hw : WellLogged ops)
    (hn : ∀ t, .insert slot t ∈ ops → t.length ≤ n) : (p.modifyTuple slot f).lack ops ≤ p.lack ops+n := by
  have hother : ∀ s t, s ≠ slot → p.missing (.insert s t) = (p.modifyTuple slot f).missing (.insert s t) :=
    fun s t hs => missing_congr (by rw [getTuple_modifyTuple,if_neg (Ne.symm hs)])
  induction ops with
  | nil => exact Nat.zero_le _
  | cons o ops ih =>
    obtain ⟨ho,hw'⟩ := pairwise_cons.1 hw
    have hrest := ih hw' fun t hm => hn t (mem_cons_of_mem _ hm)
    rw [lack_cons,lack_cons]
    cases o with
    | stamp s x => exact Nat.add_assoc _ _ _ ▸ Nat.add_le_add_left hrest _
    | insert s t =>
      by_cases hs : s = slot
      · -- no other record inserts into the slot
        subst hs
        have hrest' : p.lack ops = (p.modifyTuple s f).lack ops :=
          lack_congr fun s' t' hm => hother s' t' (ho _ hm rfl).symm
        have hlen := hn t mem_cons_self
        have hmiss := missing_le_length (p.modifyTuple s f) s t
        omega
      · rw [hother s t hs]
        omega

theorem replayOps_total {N : Nat} (hw : WellLogged ops)
    (hl : ∀ s t, .insert s t ∈ ops → t.length ≤ maxTupleLength ∧ s < N)
    (hr : itemPointerSize*(N-p.nItems)+p.lack ops ≤ p.freeSpace) : ∃ q, p.replayOps ops = .ok q := by
  induction ops generalizing p with
  | nil => exact ⟨p,rfl⟩
  | cons o ops ih =>
    obtain ⟨ho,hw'⟩ := pairwise_cons.1 hw
    have hl' : ∀ s t, .insert s t ∈ ops → t.length ≤ maxTupleLength ∧ s < N :=
      fun s t hm => hl s t (mem_cons_of_mem _ hm)
    -- the first record leaves a page with room for the others
    have hstep : ∀ {q : Page}, o.apply p = .ok q → q.lack ops = p.lack ops →
        itemPointerSize*(N-q.nItems)+p.lack ops ≤ q.freeSpace → ∃ q, p.replayOps (o :: ops) = .ok q := by
      intro q hq hlack hroom
      obtain ⟨r,hr⟩ := ih hw' hl' (hlack ▸ hroom)
      exact ⟨r,replay_cons_eq_ok.2 ⟨q,hq,hr⟩⟩
    rw [lack_cons] at hr
    cases o with
    | stamp n x =>
      refine hstep rfl (lack_congr fun s t _ => missing_modifyTuple_setXMax p n x s t) ?_
      simp only [nItems_modifyTuple,freeSpace_modifyTuple]
      omega
    | insert s t =>
      obtain ⟨hlen,hs⟩ := hl s t mem_cons_self
      have hothers : ∀ {q : Page}, (∀ n, n ≠ s → q.getTuple n = p.getTuple n) → q.lack ops = p.lack ops :=
        fun h => (lack_congr fun s' t' hm => missing_congr (h s' (ho _ hm rfl).symm)).symm
      by_cases hv : ∃ e, p.getTuple s = some e ∧ e.SameVersion t
      · obtain ⟨e,he,hv⟩ := hv
        exact hstep (insertTupleAt_present he hv hlen) rfl (by omega)
      · have hv' : ∀ e, p.getTuple s = some e → ¬ e.SameVersion t := fun e he h => hv ⟨e,he,h⟩
        rw [missing_insert_of_not hv'] at hr
        have hroom := p.room
        have htop := p.top
        by_cases hsn : s < p.nItems
        · have hf : t.length ≤ p.freeSpace := by omega
          refine hstep (insertTupleAt_changed hsn hv' hlen hf)
            (hothers fun n hn => by rw [getTuple_replaceAt hsn,if_neg (Ne.symm hn)]) ?_
          simp only [replaceAt,nItems,freeSpace,lower,length_set] at hr hsn ⊢
          omega
        · have hgap : t.length+itemPointerSize*(s+1-p.nItems) ≤ p.freeSpace := by
            simp only [itemPointerSize] at hr ⊢
            omega
          refine hstep (insertTupleAt_gap (Nat.le_of_not_lt hsn) hlen hgap)
            (hothers fun n hn => by rw [getTuple_appendAt,if_neg (Ne.symm hn)]) ?_
          simp only [appendAt,nItems,freeSpace,lower,length_append,length_replicate,
            length_singleton,itemPointerSize] at hr hsn hgap ⊢
          omega

end Page

def Item.length : Item → Nat
  | .dead => 0
  | .normal t => t.length

def Tuple.KeptAs (s t : Tuple) : Prop := t.data = s.data ∧ (t.createdTx = s.createdTx ∨ t.isHOTUpdated = true)

namespace Tuple

theorem KeptAs.refl (t : Tuple) : KeptAs t t := ⟨rfl,.inl rfl⟩

theorem KeptAs.trans {r s : Tuple} (h : KeptAs r s) (h' : KeptAs s t) : KeptAs r t := by
  refine ⟨h'.1.trans h.1,?_⟩
  rcases h'.2 with hc | hc
  · rcases h.2 with hd | hd
    · exact .inl (hc.trans hd)
    · exact .inr (by rw [isHOTUpdated,hc]; exact hd)
  · exact .inr hc

theorem KeptAs.length_eq {s : Tuple} (h : KeptAs s t) : t.length = s.length := by simp [length,h.1]
theorem keptAs_setXMax (t : Tuple) (x : Nat) : KeptAs t (t.setXMax x) := ⟨rfl,.inl rfl⟩

theorem isHOTUpdated_eq (t : Tuple) : t.isHOTUpdated = t.createdTx.getLsbD 48 := by
  have hflag : hotUpdatedFlag = BitVec.twoPow 64 48 := by decide
  rw [isHOTUpdated,hflag,BitVec.and_twoPow]
  cases t.createdTx.getLsbD 48 with
  | true => decide
  | false => decide

theorem isHOTUpdated_setHOTUpdated (t : Tuple) (n : Nat) : (t.setHOTUpdated n).isHOTUpdated = true := by
  rw [isHOTUpdated_eq]
  simp [setHOTUpdated,hotUpdatedFlag,hotForwardMask,hotForwardShift]

theorem keptAs_setHOTUpdated (t : Tuple) (n : Nat) : KeptAs t (t.setHOTUpdated n) :=
  ⟨rfl,.inr (isHOTUpdated_setHOTUpdated t n)⟩

end Tuple

namespace Page
open PageOp

structure Grows (p q : Page) : Prop where
  nItems : p.nItems ≤ q.nItems
  upper : p.upper = q.upper+((q.items.drop p.nItems).map Item.length).sum
  kept : ∀ n s, p.getTuple n = some s → ∃ t, q.getTuple n = some t ∧ s.KeptAs t
  dead : ∀ n < p.nItems, p.getTuple n = none → q.getTuple n = none

namespace Grows

theorem refl (p : Page) : Grows p p := by
  refine ⟨Nat.le_refl _,?_,fun n s hs => ⟨s,hs,.refl s⟩,fun _ _ h => h⟩
  have hnil : p.items.drop p.nItems = [] := drop_eq_nil_of_le (Nat.le_refl _)
  simp [hnil]

theorem insertTuple {r : Page} (h : Grows p q) {slot : Nat} (hi : q.insertTuple t = some (r,slot)) : Grows p r := by
  obtain ⟨hs,hitems,hupper,-,hroom⟩ := insertTuple_eq_some hi
  have hle := h.nItems
  constructor
  · simp only [Page.nItems,hitems,length_append] at hle ⊢
    omega
  · have hu := h.upper
    have hfree : t.length ≤ q.upper := by
      have := q.room
      simp only [freeSpace,lower,Page.nItems] at hroom
      omega
    have hlen : (Item.normal t).length = t.length := rfl
    simp only [hupper,hitems,drop_append_of_le_length hle,map_append,map_cons,map_nil,sum_append,
      sum_cons,sum_nil,hlen]
    omega
  · intro n s hn
    obtain ⟨t',ht',hk⟩ := h.kept n s hn
    have hne : n ≠ slot := by
      have := getTuple_lt ht'
      omega
    exact ⟨t',by rw [getTuple_insertTuple hi,if_neg hne]; exact ht',hk⟩
  · intro n hn hd
    have hne : n ≠ slot := by omega
    rw [getTuple_insertTuple hi,if_neg hne]
    exact h.dead n hn hd

theorem modifyTuple (h : Grows p q) {f : Tuple → Tuple} (hf : ∀ t : Tuple, t.KeptAs (f t)) (slot : Nat) :
    Grows p (q.modifyTuple slot f) := by
  have hitem : ∀ i : Item, (i.map f).length = i.length := by
    intro i
    cases i with
    | dead => rfl
    | normal t => exact (hf t).length_eq
  constructor
  · simpa using h.nItems
  · rw [upper_modifyTuple,h.upper]
    congr 2
    refine ext_getElem? fun n => ?_
    simp only [Page.modifyTuple,getElem?_map,getElem?_drop,getElem?_modify]
    cases q.items[p.nItems+n]? with
    | none => simp
    | some i =>
      by_cases hn : slot = p.nItems+n
      · simp [hn,hitem]
      · simp [hn]
  · intro n s hn
    obtain ⟨t,ht,hk⟩ := h.kept n s hn
    rw [getTuple_modifyTuple,ht]
    split
    · exact ⟨f t,rfl,hk.trans (hf t)⟩
    · exact ⟨t,rfl,hk⟩
  · intro n hn hd
    rw [getTuple_modifyTuple,h.dead n hn hd]
    split <;> rfl

theorem freeSpace_eq (h : Grows p q) : p.freeSpace = q.freeSpace+((q.items.drop p.nItems).map Item.length).sum+
      itemPointerSize*(q.nItems-p.nItems) := by
  have hq := q.room
  have hn := h.nItems
  simp only [freeSpace,lower,h.upper,Page.nItems,itemPointerSize] at hn hq ⊢
  omega

end Grows

def beyond (n : Nat) : PageOp → Option Nat
  | .insert s _ => if n ≤ s then some (s-n) else none
  | .stamp _ _ => none

def taken (n : Nat) : PageOp → Nat
  | .insert s t => if n ≤ s then t.length else 0
  | .stamp _ _ => 0

theorem missing_le (h : Grows p q) {e : Tuple} (he : q.getTuple s = some e)
    (hd : e.data = t.data) (hhot : t.isHOTUpdated = false) :
    p.missing (.insert s t) ≤ taken p.nItems (.insert s t)+q.missing (.insert s t) := by
  show _ ≤ (if p.nItems ≤ s then t.length else 0)+_
  split
  · have := missing_le_length p s t
    omega
  · rename_i hs
    cases hp : p.getTuple s with
    | none =>
      rw [h.dead s (by omega) hp] at he
      cases he
    | some a =>
      obtain ⟨e',he',hk⟩ := h.kept s a hp
      obtain rfl := some.inj (he.symm.trans he')
      by_cases hv : a.SameVersion t
      · rw [missing_insert_of_sameVersion hp hv]
        omega
      · -- the data agree, so it is the HOT flag that differs, and it stays set
        have hva : a.createdTx ≠ t.createdTx := fun hc => hv ⟨hc,hk.1.symm.trans hd⟩
        have hve : ¬ e.SameVersion t := by
          rintro ⟨hc,-⟩
          rcases hk.2 with hk | hk
          · exact hva (hk.symm.trans hc)
          · rw [isHOTUpdated,hc] at hk
            rw [isHOTUpdated,hk] at hhot
            cases hhot
        rw [missing_insert_of_not (p := q) (by
          intro e' he'
          obtain rfl := some.inj (he.symm.trans he')
          exact hve)]
        have := missing_le_length p s t
        omega

structure Holds (q : Page) (ops : List PageOp) : Prop where
  wellLogged : WellLogged ops
  tuple : ∀ s t, .insert s t ∈ ops → ∃ e, q.getTuple s = some e ∧ e.data = t.data
  short : ∀ s t, .insert s t ∈ ops → t.length ≤ maxTupleLength
  plain : ∀ s t, .insert s t ∈ ops → t.isHOTUpdated = false

theorem sum_taken_le (hq : q.Holds ops) (n : Nat) : (ops.map (taken n)).sum ≤
    ((q.items.drop n).map Item.length).sum := by
  have hnodup : (ops.filterMap (beyond n)).Nodup := by
    refine pairwise_filterMap.2 (hq.wellLogged.imp fun {a b} hab i hi j hj => ?_)
    cases a with
    | stamp => cases hi
    | insert s t =>
      cases b with
      | stamp => cases hj
      | insert s' t' =>
        have hne : s ≠ s' := hab rfl
        simp only [beyond,ite_none_right_eq_some,some.injEq] at hi hj
        omega
  refine Nat.le_trans (Nat.le_of_eq ?_) (sum_map_getElem?_le (q.items.drop n) Item.length hnodup)
  have htuple := hq.tuple
  clear hnodup hq
  induction ops with
  | nil => rfl
  | cons o ops ih =>
    rw [map_cons,sum_cons,ih fun s t hm => htuple s t (mem_cons_of_mem _ hm)]
    cases o with
    | stamp m x =>
      rw [filterMap_cons_none (by rfl)]
      exact Nat.zero_add _
    | insert s t =>
      by_cases hs : n ≤ s
      · obtain ⟨e,he,hd⟩ := htuple s t mem_cons_self
        have hlen : e.length = t.length := by simp [Tuple.length,hd]
        have hget : q.items[s]? = some (.normal e) := getTuple_eq_some_iff.1 he
        rw [filterMap_cons_some (b := s-n) (by simp [beyond,hs]),map_cons,sum_cons,getElem?_drop,
          show n+(s-n) = s by omega,hget]
        simp [taken,hs,Item.length,hlen]
      · rw [filterMap_cons_none (by simp [beyond,hs])]
        simp [taken,hs]

theorem lack_le (h : Grows p q) (hq : q.Holds ops) : p.lack ops ≤
    ((q.items.drop p.nItems).map Item.length).sum+q.lack ops := by
  refine Nat.le_trans ?_ (Nat.add_le_add_right (sum_taken_le hq p.nItems) _)
  rw [lack,lack,← sum_map_add]
  refine sum_le_sum fun o ho => ?_
  cases o with
  | stamp => exact Nat.zero_le _
  | insert s t =>
    obtain ⟨e,he,hd⟩ := hq.tuple s t ho
    exact missing_le h he hd (hq.plain s t ho)

theorem replayOps_of_grows (h : Grows p q) (hq : q.Holds ops)
    (hr : q.lack ops ≤ q.freeSpace) : ∃ r, p.replayOps ops = .ok r := by
  refine replayOps_total (N := q.nItems) hq.wellLogged (fun s t hm => ⟨hq.short s t hm,?_⟩) ?_
  · obtain ⟨e,he,-⟩ := hq.tuple s t hm
    exact getTuple_lt he
  · have hl := lack_le h hq
    rw [h.freeSpace_eq]
    omega

end Page
end VaultDB.Storage
