import Mathlib.Algebra.Order.Ring.Nat
import Mathlib.Data.List.Basic
import Mathlib.Tactic.Common
set_option autoImplicit false

/-!
Slotted heap pages (`storage/page`) and the tuple header words (`storage/binary_encoding.go`).

A page is its item pointers with `upper`, where the tuple area starts; `lower` follows from the
number of items.  A tuple is its two transaction words and the encoded row.
-/

namespace VaultDB.Storage
open List

def pageSize : Nat := 8192
def pageHeaderSize : Nat := 28
def itemPointerSize : Nat := 4
def maxTupleLength : Nat := 16383

/-- Bytes `[0:8]`, `[8:16]` and `[16:]` of a stored tuple. -/
structure Tuple where
  createdTx : BitVec 64
  deletedTx : Nat
  data : List UInt8
  deriving DecidableEq, Repr

def txIDMask : BitVec 64 := 0x0000FFFFFFFFFFFF#64
def hotUpdatedFlag : BitVec 64 := 1#64 <<< 48
def hotHeapTupleFlag : BitVec 64 := 1#64 <<< 49
def hotForwardShift : Nat := 50
def hotForwardMask : BitVec 64 := 0x3FFF#64

variable {t : Tuple}
namespace Tuple

def length (t : Tuple) : Nat := 16+t.data.length

/-- `createdTx & TxIDMask` and `deletedTx & TxIDMask`, as `scanTuples` hands them out. -/
def xmin (t : Tuple) : Nat := (t.createdTx &&& txIDMask).toNat
def xmax (t : Tuple) : Nat := t.deletedTx%2^48
def setXMax (t : Tuple) (x : Nat) : Tuple := { t with deletedTx := x }
def isHOTUpdated (t : Tuple) : Bool := t.createdTx &&& hotUpdatedFlag != 0#64

def setHOTUpdated (t : Tuple) (forwardSlot : Nat) : Tuple :=
  { t with createdTx :=
      ((t.createdTx ||| hotUpdatedFlag) &&& ~~~(hotForwardMask <<< hotForwardShift)) |||
        ((BitVec.ofNat 64 forwardSlot &&& hotForwardMask) <<< hotForwardShift) }

def setHOTHeapTuple (t : Tuple) : Tuple := { t with createdTx := t.createdTx ||| hotHeapTupleFlag }

/-- The comparison `InsertTupleAt` makes before it writes: everything but `deleted_tx`. -/
def SameVersion (s t : Tuple) : Prop := s.createdTx = t.createdTx ∧ s.data = t.data
instance (s t : Tuple) : Decidable (SameVersion s t) := inferInstanceAs (Decidable (_ ∧ _))
@[simp] theorem data_setXMax (t : Tuple) (x : Nat) : (t.setXMax x).data = t.data := rfl
@[simp] theorem deletedTx_setXMax (t : Tuple) (x : Nat) : (t.setXMax x).deletedTx = x := rfl
@[simp] theorem xmin_setXMax (t : Tuple) (x : Nat) : (t.setXMax x).xmin = t.xmin := rfl
@[simp] theorem setXMax_setXMax (t : Tuple) (x y : Nat) : (t.setXMax x).setXMax y = t.setXMax y := rfl
@[simp] theorem setXMax_deletedTx (t : Tuple) : t.setXMax t.deletedTx = t := rfl
@[simp] theorem data_setHOTUpdated (t : Tuple) (n : Nat) : (t.setHOTUpdated n).data = t.data := rfl
@[simp] theorem deletedTx_setHOTUpdated (t : Tuple) (n : Nat) : (t.setHOTUpdated n).deletedTx = t.deletedTx := rfl
theorem SameVersion.refl (t : Tuple) : SameVersion t t := ⟨rfl,rfl⟩
@[simp] theorem sameVersion_setXMax (s t : Tuple) (x : Nat) : SameVersion (s.setXMax x) t ↔
    SameVersion s t := Iff.rfl

theorem getLsbD_txIDMask (i : Nat) : txIDMask.getLsbD i = decide (i < 48) := by
  have h : txIDMask = (BitVec.allOnes 48).setWidth 64 := by decide
  rw [h,BitVec.getLsbD_setWidth,BitVec.getLsbD_allOnes]
  by_cases hi : i < 48
  · simp [hi]; omega
  · simp [hi]

theorem and_txIDMask_eq {a b : BitVec 64} (h : ∀ i < 48, a.getLsbD i = b.getLsbD i) :
    a &&& txIDMask = b &&& txIDMask := by
  refine BitVec.eq_of_getLsbD_eq fun i _ => ?_
  rw [BitVec.getLsbD_and,BitVec.getLsbD_and,getLsbD_txIDMask]
  by_cases hi : i < 48
  · rw [h i hi]
  · simp [hi]

@[simp] theorem xmin_setHOTHeapTuple (t : Tuple) : t.setHOTHeapTuple.xmin = t.xmin := by
  unfold xmin setHOTHeapTuple
  rw [and_txIDMask_eq (b := t.createdTx)]
  intro i hi
  have h49 : i < 49 := by omega
  simp only [hotHeapTupleFlag,BitVec.getLsbD_shiftLeft,BitVec.getLsbD_or]
  simp [h49]

@[simp] theorem xmin_setHOTUpdated (t : Tuple) (n : Nat) : (t.setHOTUpdated n).xmin = t.xmin := by
  unfold xmin setHOTUpdated
  rw [and_txIDMask_eq (b := t.createdTx)]
  intro i hi
  have h50 : i < 50 := by omega
  have h64 : i < 64 := by omega
  simp only [hotUpdatedFlag,hotForwardShift,BitVec.getLsbD_shiftLeft,BitVec.getLsbD_or,
    BitVec.getLsbD_and,BitVec.getLsbD_not]
  simp [h50,hi,h64]

theorem createdTx_setHOTUpdated_setHOTUpdated (t : Tuple) (n m : Nat) :
    ((t.setHOTUpdated n).setHOTUpdated m).createdTx = (t.setHOTUpdated m).createdTx := by
  simp only [setHOTUpdated]
  refine BitVec.eq_of_getLsbD_eq fun i hi => ?_
  simp only [BitVec.getLsbD_or,BitVec.getLsbD_and,BitVec.getLsbD_not,hi,decide_true,Bool.true_and]
  cases hm : (hotForwardMask <<< hotForwardShift).getLsbD i with
  | true => simp
  | false =>
    -- outside the forward pointer only the flag can be set
    have hz : ∀ n, ((BitVec.ofNat 64 n &&& hotForwardMask) <<< hotForwardShift).getLsbD i = false := by
      intro n
      simp only [BitVec.getLsbD_shiftLeft,BitVec.getLsbD_and] at hm ⊢
      by_cases h1 : i < hotForwardShift
      · simp [h1]
      · simp_all
    simp [hz]

theorem xmin_ofNat (x d : Nat) (data : List UInt8) : (mk (BitVec.ofNat 64 x) d data).xmin = x%2^48 := by
  have h : txIDMask.toNat = 2^48-1 := by decide
  simp only [xmin,BitVec.toNat_and,h,BitVec.toNat_ofNat,Nat.and_two_pow_sub_one_eq_mod]
  omega

end Tuple

inductive Item where
  | dead
  | normal (t : Tuple)
  deriving DecidableEq, Repr

def Item.tuple? : Item → Option Tuple
  | .dead => none
  | .normal t => some t

def Item.map (f : Tuple → Tuple) : Item → Item
  | .dead => .dead
  | .normal t => .normal (f t)

@[ext] structure Page where
  items : List Item
  upper : Nat
  room : pageHeaderSize+itemPointerSize*items.length ≤ upper
  top : upper ≤ pageSize
  deriving DecidableEq, Repr

inductive PageError where
  | full
  | outOfRange
  deriving DecidableEq, Repr

namespace Page
variable {p q : Page} {slot n : Nat}
def init : Page := ⟨[],pageSize,by decide,by decide⟩
def nItems (p : Page) : Nat := p.items.length
def lower (p : Page) : Nat := pageHeaderSize+itemPointerSize*p.nItems
def freeSpace (p : Page) : Nat := p.upper-p.lower
def getTuple (p : Page) (slot : Nat) : Option Tuple := p.items[slot]?.bind Item.tuple?

/-- In-place change of the tuple bytes of one slot; the tuple keeps its length. -/
def modifyTuple (p : Page) (slot : Nat) (f : Tuple → Tuple) : Page where
  items := p.items.modify slot (Item.map f)
  upper := p.upper
  room := by simpa using p.room
  top := p.top

theorem room_append (items : List Item) (h : n+itemPointerSize*items.length ≤ p.freeSpace) :
    pageHeaderSize+itemPointerSize*(p.items++items).length ≤ p.upper-n := by
  have hr := p.room
  simp only [freeSpace,lower,nItems,length_append,pageHeaderSize,itemPointerSize] at *
  omega

theorem room_shrink (items : List Item) (hl : items.length = p.items.length)
    (h : n ≤ p.freeSpace) : pageHeaderSize+itemPointerSize*items.length ≤ p.upper-n := by
  have hr := p.room
  simp only [freeSpace,lower,nItems,hl,pageHeaderSize,itemPointerSize] at *
  omega

def insertTuple (p : Page) (t : Tuple) : Option (Page × Nat) :=
  if h : t.length ≤ maxTupleLength ∧ t.length+itemPointerSize ≤ p.freeSpace then
    some (⟨p.items++[.normal t],p.upper-t.length,room_append [.normal t] (by simpa using h.2),
      Nat.le_trans (Nat.sub_le _ _) p.top⟩,p.nItems)
  else none

def replaceAt (p : Page) (slot : Nat) (t : Tuple) (h : t.length ≤ p.freeSpace) : Page :=
  ⟨p.items.set slot (.normal t),p.upper-t.length,room_shrink _ (by simp) h,Nat.le_trans (Nat.sub_le _ _) p.top⟩

def appendAt (p : Page) (slot : Nat) (t : Tuple)
    (h : t.length+itemPointerSize*(slot+1-p.nItems) ≤ p.freeSpace) (hs : p.nItems ≤ slot) : Page :=
  ⟨p.items++(List.replicate (slot-p.nItems) .dead++[.normal t]),p.upper-t.length,room_append _ (by
      simp only [List.length_append,List.length_replicate,List.length_singleton]
      rwa [← Nat.sub_add_comm hs]),
    Nat.le_trans (Nat.sub_le _ _) p.top⟩

/-- `InsertTupleAt`.  The room a gap needs is computed in `uint16`; when that wraps, the loop that
pads with dead pointers runs past the page and panics. -/
def insertTupleAt (p : Page) (slot : Nat) (t : Tuple) : Except PageError Page :=
  if maxTupleLength < t.length then .error .full
  else if slot < p.nItems then
    if (p.getTuple slot).any (fun existing => existing.SameVersion t) then .ok p
    else if h : t.length ≤ p.freeSpace then .ok (p.replaceAt slot t h)
    else .error .full
  else
    let gapCount := ((slot+1)%65536+65536-p.nItems)%65536
    let needed := (t.length+gapCount*itemPointerSize)%65536
    if p.freeSpace < needed then .error .full
    else if h : t.length+itemPointerSize*(slot+1-p.nItems) ≤ p.freeSpace ∧ p.nItems ≤ slot then
      .ok (p.appendAt slot t h.1 h.2)
    else .error .outOfRange

@[simp] theorem getTuple_init (slot : Nat) : init.getTuple slot = none := by simp [init,getTuple]

@[simp] theorem nItems_modifyTuple (p : Page) (slot : Nat) (f : Tuple → Tuple) :
    (p.modifyTuple slot f).nItems = p.nItems := by simp [modifyTuple,nItems]

@[simp] theorem upper_modifyTuple (p : Page) (slot : Nat) (f : Tuple → Tuple) :
    (p.modifyTuple slot f).upper = p.upper := rfl

@[simp] theorem freeSpace_modifyTuple (p : Page) (slot : Nat) (f : Tuple → Tuple) :
    (p.modifyTuple slot f).freeSpace = p.freeSpace := by simp [freeSpace,lower]

theorem getTuple_lt (h : p.getTuple slot = some t) : slot < p.nItems := by
  by_contra hn
  simp [getTuple,getElem?_eq_none (Nat.le_of_not_lt hn)] at h

theorem getTuple_eq_some_iff : p.getTuple slot = some t ↔ p.items[slot]? = some (.normal t) := by
  unfold getTuple
  cases p.items[slot]? with
  | none => simp
  | some i => cases i <;> simp [Item.tuple?]

theorem getTuple_modifyTuple (p : Page) (slot n : Nat) (f : Tuple → Tuple) : (p.modifyTuple slot f).getTuple n =
      if slot = n then (p.getTuple n).map f else p.getTuple n := by
  simp only [getTuple,modifyTuple,getElem?_modify]
  cases p.items[n]? with
  | none => split <;> rfl
  | some i => cases i <;> split <;> simp [Item.map,Item.tuple?]

theorem modifyTuple_eq_self {f : Tuple → Tuple}
    (h : ∀ t, p.getTuple slot = some t → f t = t) : p.modifyTuple slot f = p := by
  ext1
  · refine ext_getElem? fun n => ?_
    simp only [modifyTuple,getElem?_modify]
    split
    · rename_i hn
      subst hn
      cases hi : p.items[slot]? with
      | none => rfl
      | some i =>
        cases i with
        | dead => rfl
        | normal t =>
          have := h t (getTuple_eq_some_iff.2 hi)
          simp [Item.map,this]
    · simp
  · rfl

theorem insertTuple_eq_some (h : p.insertTuple t = some (q,slot)) :
    slot = p.nItems ∧ q.items = p.items++[.normal t] ∧ q.upper = p.upper-t.length ∧
      t.length ≤ maxTupleLength ∧ t.length+itemPointerSize ≤ p.freeSpace := by
  unfold insertTuple at h
  split at h
  · rename_i hf
    simp only [Option.some.injEq,Prod.mk.injEq] at h
    obtain ⟨rfl,rfl⟩ := h
    exact ⟨rfl,rfl,rfl,hf.1,hf.2⟩
  · cases h

theorem getTuple_insertTuple (h : p.insertTuple t = some (q,slot))
    (n : Nat) : q.getTuple n = if n = slot then some t else p.getTuple n := by
  obtain ⟨hs,hi,-⟩ := insertTuple_eq_some h
  have hs' : slot = p.items.length := hs
  simp only [getTuple,hi]
  rcases Nat.lt_trichotomy n p.items.length with hn | hn | hn
  · rw [getElem?_append_left hn,if_neg (by omega)]
  · simp [hs',hn,Item.tuple?]
  · rw [getElem?_eq_none (by simp; omega),getElem?_eq_none (by omega),if_neg (by omega)]

theorem insertTupleAt_cases (h : p.insertTupleAt slot t = .ok q) :
    (∃ e, p.getTuple slot = some e ∧ e.SameVersion t ∧ q = p) ∨
    (slot < p.nItems ∧ (∀ e, p.getTuple slot = some e → ¬ e.SameVersion t) ∧ ∃ hf, q = p.replaceAt slot t hf) ∨
    (∃ hf hs, q = p.appendAt slot t hf hs) := by
  unfold insertTupleAt at h
  split at h
  · cases h
  · split at h
    · rename_i hs
      split at h
      · rename_i hv
        cases he : p.getTuple slot with
        | none => simp [he] at hv
        | some e => exact .inl ⟨e,rfl,by simpa [he] using hv,(Except.ok.inj h).symm⟩
      · rename_i hv
        split at h
        · rename_i hf
          refine .inr (.inl ⟨hs,fun e he => ?_,hf,(Except.ok.inj h).symm⟩)
          simpa [he] using hv
        · cases h
    · simp only at h
      split at h
      · cases h
      · split at h
        · rename_i hf
          exact .inr (.inr ⟨hf.1,hf.2,(Except.ok.inj h).symm⟩)
        · cases h

theorem insertTupleAt_length (h : p.insertTupleAt slot t = .ok q) : t.length ≤ maxTupleLength := by
  by_contra hn
  simp [insertTupleAt,Nat.lt_of_not_le hn] at h

theorem insertTupleAt_present {e : Tuple}
    (he : p.getTuple slot = some e) (hv : e.SameVersion t) (hl : t.length ≤ maxTupleLength) :
    p.insertTupleAt slot t = .ok p := by
  simp [insertTupleAt,Nat.not_lt.2 hl,getTuple_lt he,he,hv]

theorem insertTupleAt_changed (hs : slot < p.nItems)
    (hv : ∀ e, p.getTuple slot = some e → ¬ e.SameVersion t) (hl : t.length ≤ maxTupleLength)
    (hf : t.length ≤ p.freeSpace) : p.insertTupleAt slot t = .ok (p.replaceAt slot t hf) := by
  have hn : ((p.getTuple slot).any fun e => decide (e.SameVersion t)) = false := by
    cases he : p.getTuple slot with
    | none => rfl
    | some e => simpa [he] using hv e he
  simp [insertTupleAt,Nat.not_lt.2 hl,hs,hn,hf]

theorem insertTupleAt_gap (hs : p.nItems ≤ slot) (hl : t.length ≤ maxTupleLength)
    (hf : t.length+itemPointerSize*(slot+1-p.nItems) ≤ p.freeSpace) :
    p.insertTupleAt slot t = .ok (p.appendAt slot t hf hs) := by
  have hneed : ¬ p.freeSpace < (t.length+((slot+1)%65536+65536-p.nItems)%65536*itemPointerSize)%65536 := by
    have ht := p.top
    simp only [freeSpace,lower,nItems,pageHeaderSize,itemPointerSize,pageSize] at hf ht hs ⊢
    omega
  unfold insertTupleAt
  rw [if_neg (Nat.not_lt.2 hl),if_neg (Nat.not_lt.2 hs)]
  simp only [if_neg hneed]
  exact dif_pos ⟨hf,hs⟩

theorem getTuple_replaceAt {h : t.length ≤ p.freeSpace} (hs : slot < p.nItems) (n : Nat) :
    (p.replaceAt slot t h).getTuple n = if slot = n then some t else p.getTuple n := by
  simp only [getTuple,replaceAt,getElem?_set]
  split
  · rename_i hn
    subst hn
    simp [show slot < p.items.length from hs,Item.tuple?]
  · rfl

theorem bind_getElem?_padded {α β : Type} {f : α → Option β} {pad a : α} (hpad : f pad = none) {xs : List α}
    (hn : xs.length ≤ n) (m : Nat) :
    (xs++(List.replicate (n-xs.length) pad++[a]))[m]?.bind f = if n = m then f a else xs[m]?.bind f := by
  rw [← append_assoc]
  rcases Nat.lt_trichotomy m n with hm | rfl | hm
  · rw [if_neg (by omega),getElem?_append_left (by simp; omega)]
    rcases Nat.lt_or_ge m xs.length with hp | hp
    · rw [getElem?_append_left hp]
    · rw [getElem?_append_right hp,getElem?_replicate,getElem?_eq_none hp]
      split <;> simp [hpad]
  · rw [if_pos rfl,getElem?_append_right (by simp; omega)]
    simp [show m-(xs.length+(m-xs.length)) = 0 by omega]
  · rw [if_neg (by omega),getElem?_eq_none (by simp; omega),getElem?_eq_none (by omega)]

theorem getTuple_appendAt
    {h : t.length+itemPointerSize*(slot+1-p.nItems) ≤ p.freeSpace} {hs : p.nItems ≤ slot} (n : Nat) :
    (p.appendAt slot t h hs).getTuple n = if slot = n then some t else p.getTuple n := by
  simp only [getTuple,appendAt,nItems] at hs ⊢
  exact bind_getElem?_padded rfl hs n

def insertedOver (t : Tuple) : Option Tuple → Tuple
  | some e => if e.SameVersion t then e else t
  | none => t

theorem sameVersion_insertedOver (t : Tuple) (o : Option Tuple) : (insertedOver t o).SameVersion t := by
  cases o with
  | none => exact .refl t
  | some e =>
    simp only [insertedOver]
    split
    · assumption
    · exact .refl t

theorem getTuple_insertTupleAt (h : p.insertTupleAt slot t = .ok q) (n : Nat) :
    q.getTuple n = if slot = n then some (insertedOver t (p.getTuple slot)) else p.getTuple n := by
  rcases insertTupleAt_cases h with ⟨e,he,hv,rfl⟩ | ⟨hs,hv,hf,rfl⟩ | ⟨hf,hs,rfl⟩
  · split
    · simp_all [insertedOver]
    · rfl
  · rw [getTuple_replaceAt hs]
    cases he : p.getTuple slot with
    | none => rfl
    | some e => simp [insertedOver,hv e he]
  · have hn : p.getTuple slot = none := by simp [getTuple,getElem?_eq_none (show p.items.length ≤ slot from hs)]
    rw [getTuple_appendAt,hn]
    rfl

end Page
end VaultDB.Storage
