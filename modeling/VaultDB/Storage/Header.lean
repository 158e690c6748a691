import VaultDB.Storage.Room
set_option autoImplicit false

/-!
The flags in the header word of a tuple, after `storage/binary_encoding.go`.

The forward slot has 14 bits; the two hint flags are the upper two of them.
-/

namespace VaultDB.Storage

def xminCommittedFlag : BitVec 64 := 1#64 <<< 62
def xmaxCommittedFlag : BitVec 64 := 1#64 <<< 63

inductive HeaderCall where
  | setHOTUpdated (forwardSlot : Nat)
  | setHOTHeapTuple
  | setXMinCommitted
  | setXMaxCommitted

structure Header where
  hotUpdated : Bool
  hotHeapTuple : Bool
  forwardSlot : Nat
  xminCommitted : Bool
  xmaxCommitted : Bool
  deriving DecidableEq

def Header.call (h : Header) : HeaderCall → Header
  | .setHOTUpdated slot => { h with hotUpdated := true, forwardSlot := slot }
  | .setHOTHeapTuple => { h with hotHeapTuple := true }
  | .setXMinCommitted => { h with xminCommitted := true }
  | .setXMaxCommitted => { h with xmaxCommitted := true }

/-- The two upper bits of the forward slot are the hints. -/
def Header.HintsFit (h : Header) : Prop :=
  h.xminCommitted = h.forwardSlot.testBit 12 ∧ h.xmaxCommitted = h.forwardSlot.testBit 13

instance (h : Header) : Decidable h.HintsFit := inferInstanceAs (Decidable (_ ∧ _))

namespace Tuple
variable {t : Tuple} {c : HeaderCall}
def isHOTHeapTuple (t : Tuple) : Bool := t.createdTx &&& hotHeapTupleFlag != 0#64
def getForwardSlot (t : Tuple) : Nat := ((t.createdTx >>> hotForwardShift) &&& hotForwardMask).toNat
def isXMinCommitted (t : Tuple) : Bool := t.createdTx &&& xminCommittedFlag != 0#64
def setXMinCommitted (t : Tuple) : Tuple := { t with createdTx := t.createdTx ||| xminCommittedFlag }
def isXMaxCommitted (t : Tuple) : Bool := t.createdTx &&& xmaxCommittedFlag != 0#64
def setXMaxCommitted (t : Tuple) : Tuple := { t with createdTx := t.createdTx ||| xmaxCommittedFlag }

def call (t : Tuple) : HeaderCall → Tuple
  | .setHOTUpdated slot => t.setHOTUpdated slot
  | .setHOTHeapTuple => t.setHOTHeapTuple
  | .setXMinCommitted => t.setXMinCommitted
  | .setXMaxCommitted => t.setXMaxCommitted

def header (t : Tuple) : Header :=
  ⟨t.isHOTUpdated,t.isHOTHeapTuple,t.getForwardSlot,t.isXMinCommitted,t.isXMaxCommitted⟩

theorem and_flag_ne_zero (w : BitVec 64) {k : Nat} (hk : k < 64) : (w &&& (1#64 <<< k) != 0#64) = w.getLsbD k := by
  rw [Bool.eq_iff_iff,bne_iff_ne,← not_iff_not,not_not]
  refine ⟨fun h => ?_,fun h => BitVec.eq_of_getLsbD_eq fun i hi => ?_⟩
  · simpa [hk] using congrArg (BitVec.getLsbD · k) h
  · rcases Nat.lt_trichotomy i k with hlt | rfl | hlt
    · simp [hlt]
    · simp [h]
    · simp [BitVec.getLsbD_one,show i-k ≠ 0 by omega]

theorem forwardSlot_eq (t : Tuple) : t.getForwardSlot = (t.createdTx >>> 50).toNat := by
  have hlt : t.createdTx.toNat < 2^64 := t.createdTx.isLt
  have hmask : hotForwardMask.toNat = 2^14-1 := by decide
  rw [getForwardSlot,BitVec.toNat_and,hmask,Nat.and_two_pow_sub_one_eq_mod,hotForwardShift,BitVec.toNat_ushiftRight,
    Nat.shiftRight_eq_div_pow]
  omega

theorem header_eq (t : Tuple) : t.header = ⟨t.createdTx.getLsbD 48,t.createdTx.getLsbD 49,
    (t.createdTx >>> 50).toNat,t.createdTx.getLsbD 62,t.createdTx.getLsbD 63⟩ := by
  rw [header,forwardSlot_eq]
  congr 1 <;> exact and_flag_ne_zero _ (by decide)

theorem header_setHOTUpdated (t : Tuple) (n : Nat) : (t.setHOTUpdated n).header =
    ⟨true,t.createdTx.getLsbD 49,n%2^14,n.testBit 12,n.testBit 13⟩ := by
  have hzero : ~~~(hotForwardMask <<< 50) >>> 50 = 0#64 := by decide
  have hmask : hotForwardMask.toNat = 2^14-1 := by decide
  have hforward : ((t.setHOTUpdated n).createdTx >>> 50).toNat = n%2^14 := by
    simp only [setHOTUpdated,hotForwardShift,BitVec.ushiftRight_or_distrib,BitVec.ushiftRight_and_distrib,hzero,
      BitVec.and_zero,BitVec.zero_or,BitVec.toNat_ushiftRight,BitVec.toNat_shiftLeft,BitVec.toNat_and,hmask,
      Nat.and_two_pow_sub_one_eq_mod,BitVec.toNat_ofNat,Nat.shiftLeft_eq,Nat.shiftRight_eq_div_pow]
    omega
  rw [header_eq,hforward]
  have hofNat : ∀ k (hk : k < 64), (BitVec.ofNat 64 n)[k] = n.testBit k := fun k hk => by
    rw [← BitVec.getLsbD_eq_getElem,BitVec.getLsbD_ofNat,decide_eq_true hk,Bool.true_and]
  simp [setHOTUpdated,hotUpdatedFlag,hotForwardMask,hotForwardShift,hofNat]

theorem header_setHOTHeapTuple (t : Tuple) : t.setHOTHeapTuple.header = { t.header with hotHeapTuple := true } := by
  have hzero : hotHeapTupleFlag >>> 50 = 0#64 := by decide
  rw [header_eq,header_eq]
  simp [setHOTHeapTuple,BitVec.ushiftRight_or_distrib,hzero]
  simp [hotHeapTupleFlag]

theorem testBit_forwardSlot (t : Tuple) (i : Nat) : t.getForwardSlot.testBit i = t.createdTx.getLsbD (50+i) := by
  rw [forwardSlot_eq,BitVec.testBit_toNat,BitVec.getLsbD_ushiftRight]

theorem header_or_flag (t : Tuple) {k : Nat} (hk : 50 ≤ k) (hk' : k < 64) :
    let u : Tuple := { t with createdTx := t.createdTx ||| (1#64 <<< k) }
    u.xmin = t.xmin ∧ u.isHOTUpdated = t.isHOTUpdated ∧ u.isHOTHeapTuple = t.isHOTHeapTuple ∧
      ∀ i, u.getForwardSlot.testBit i = (t.getForwardSlot.testBit i || decide (50+i = k)) := by
  have hbit : ∀ i, (t.createdTx ||| (1#64 <<< k)).getLsbD i =
    (t.createdTx.getLsbD i || decide (i = k)) := fun i => by
    rw [BitVec.getLsbD_or,BitVec.getLsbD_shiftLeft,BitVec.getLsbD_one]
    by_cases hi : i = k
    · simp [hi,hk']
    · by_cases hlt : i < k
      · simp [hlt,hi]
      · simp [hi,show ¬(i-k = 0) by omega]
  refine ⟨congrArg BitVec.toNat (and_txIDMask_eq fun i hi => ?_),?_,?_,fun i => ?_⟩
  · simp [hbit,show i ≠ k by omega]
  · simp only [isHOTUpdated,hotUpdatedFlag,and_flag_ne_zero _ (show 48 < 64 by decide),hbit]
    simp [show 48 ≠ k by omega]
  · simp only [isHOTHeapTuple,hotHeapTupleFlag,and_flag_ne_zero _ (show 49 < 64 by decide),hbit]
    simp [show 49 ≠ k by omega]
  · simp only [testBit_forwardSlot,hbit]

theorem hints_eq (t : Tuple) :
    t.isXMinCommitted = t.getForwardSlot.testBit 12 ∧ t.isXMaxCommitted = t.getForwardSlot.testBit 13 := by
  simp only [testBit_forwardSlot]
  exact ⟨and_flag_ne_zero _ (by decide),and_flag_ne_zero _ (by decide)⟩

/-- What the word still shows of the record: the slot may have got a hint that the record has too.
-/
structure Shows (t : Tuple) (h : Header) : Prop where
  hotUpdated : t.isHOTUpdated = h.hotUpdated
  hotHeapTuple : t.isHOTHeapTuple = h.hotHeapTuple
  stored : ∀ i, h.forwardSlot.testBit i = true → t.getForwardSlot.testBit i = true
  extra : ∀ i, t.getForwardSlot.testBit i = true → h.forwardSlot.testBit i = true ∨
    i = 12 ∧ h.xminCommitted = true ∨ i = 13 ∧ h.xmaxCommitted = true

theorem Shows.call {h : Header} (hs : t.Shows h) (hc : ∀ n, c = .setHOTUpdated n → n < 2^14) :
    (t.call c).xmin = t.xmin ∧ (t.call c).Shows (h.call c) := by
  cases c with
  | setHOTUpdated n =>
    have hh := header_setHOTUpdated t n
    rw [Nat.mod_eq_of_lt (hc n rfl)] at hh
    have hslot : (t.setHOTUpdated n).getForwardSlot = n := congrArg Header.forwardSlot hh
    have hstored : ∀ i, (t.setHOTUpdated n).getForwardSlot.testBit i = n.testBit i := fun i => by rw [hslot]
    refine ⟨xmin_setHOTUpdated t n,congrArg Header.hotUpdated hh,?_,fun i hi => (hstored i).trans hi,
      fun i hi => .inl ((hstored i).symm.trans hi)⟩
    exact (congrArg Header.hotHeapTuple hh).trans ((and_flag_ne_zero _ (by decide)).symm.trans hs.hotHeapTuple)
  | setHOTHeapTuple =>
    have hh := header_setHOTHeapTuple t
    have hslot : t.setHOTHeapTuple.getForwardSlot = t.getForwardSlot := congrArg Header.forwardSlot hh
    have hstored : ∀ i, t.setHOTHeapTuple.getForwardSlot.testBit i = t.getForwardSlot.testBit i :=
      fun i => by rw [hslot]
    exact ⟨xmin_setHOTHeapTuple t,(congrArg Header.hotUpdated hh).trans hs.hotUpdated,
      congrArg Header.hotHeapTuple hh,
      fun i hi => (hstored i).trans (hs.stored i hi),fun i hi => hs.extra i ((hstored i).symm.trans hi)⟩
  | setXMinCommitted =>
    obtain ⟨hx,hu,hh,hbit⟩ := header_or_flag t (k := 62) (by decide) (by decide)
    refine ⟨hx,hu.trans hs.hotUpdated,hh.trans hs.hotHeapTuple,fun i hi => ?_,fun i hi => ?_⟩
    · exact (hbit i).trans (by simp [hs.stored i hi])
    · rcases Bool.or_eq_true_iff.1 ((hbit i).symm.trans hi) with hold | hnew
      · exact (hs.extra i hold).imp_right (Or.imp_left fun h => ⟨h.1,rfl⟩)
      · exact .inr (.inl ⟨by simp at hnew; omega,rfl⟩)
  | setXMaxCommitted =>
    obtain ⟨hx,hu,hh,hbit⟩ := header_or_flag t (k := 63) (by decide) (by decide)
    refine ⟨hx,hu.trans hs.hotUpdated,hh.trans hs.hotHeapTuple,fun i hi => ?_,fun i hi => ?_⟩
    · exact (hbit i).trans (by simp [hs.stored i hi])
    · rcases Bool.or_eq_true_iff.1 ((hbit i).symm.trans hi) with hold | hnew
      · exact (hs.extra i hold).imp_right (Or.imp_right fun h => ⟨h.1,rfl⟩)
      · exact .inr (.inr ⟨by simp at hnew; omega,rfl⟩)

theorem Shows.calls {cs : List HeaderCall} {h : Header} (hs : t.Shows h)
    (hc : ∀ n, .setHOTUpdated n ∈ cs → n < 2^14) :
    (cs.foldl Tuple.call t).xmin = t.xmin ∧ (cs.foldl Tuple.call t).Shows (cs.foldl Header.call h) := by
  induction cs generalizing t h with
  | nil => exact ⟨rfl,hs⟩
  | cons c cs ih =>
    obtain ⟨hx,hs⟩ := hs.call (c := c) fun n hn => hc n (by simp [hn])
    obtain ⟨hxs,hs⟩ := ih hs fun n hn => hc n (List.mem_cons_of_mem _ hn)
    exact ⟨hxs.trans hx,hs⟩

theorem Shows.header_eq {h : Header} (hs : t.Shows h) : t.header = h ↔ h.HintsFit := by
  obtain ⟨hmin,hmax⟩ := t.hints_eq
  refine ⟨?_,fun hfit => ?_⟩
  · rintro rfl
    exact ⟨hmin,hmax⟩
  · have hslot : t.getForwardSlot = h.forwardSlot := Nat.eq_of_testBit_eq fun i => by
      rw [Bool.eq_iff_iff]
      refine ⟨fun hi => ?_,hs.stored i⟩
      rcases hs.extra i hi with hold | ⟨rfl,hx⟩ | ⟨rfl,hx⟩
      · exact hold
      · exact hfit.1 ▸ hx
      · exact hfit.2 ▸ hx
    rw [header,hs.hotUpdated,hs.hotHeapTuple,hmin,hmax,hslot,← hfit.1,← hfit.2]

/-- Any word and any calls: the transaction id stays, and the accessors report what was stored
exactly if the last forward slot has its two upper bits as the hints are. -/
theorem header_calls_iff (t : Tuple) (cs : List HeaderCall) (hc : ∀ n, .setHOTUpdated n ∈ cs → n < 2^14) :
    (cs.foldl call t).xmin = t.xmin ∧
      ((cs.foldl call t).header = cs.foldl Header.call t.header ↔ (cs.foldl Header.call t.header).HintsFit) := by
  have hs : t.Shows t.header := ⟨rfl,rfl,fun _ => id,fun _ => .inl⟩
  obtain ⟨hx,hs⟩ := hs.calls hc
  exact ⟨hx,hs.header_eq⟩

end Tuple

def freshTuple : Tuple := ⟨7,0,[]⟩

/-- A hint and a slot that has its bit. -/
theorem header_calls_slot : let cs := [HeaderCall.setXMinCommitted,.setHOTUpdated 4101,.setHOTHeapTuple]
    (cs.foldl Header.call freshTuple.header).HintsFit ∧ (cs.foldl Tuple.call freshTuple).xmin = 7 ∧
      (cs.foldl Tuple.call freshTuple).header = ⟨true,true,4101,true,false⟩ := by
  have hfit : (Header.mk true true 4101 true false).HintsFit := by decide
  have h := Tuple.header_calls_iff freshTuple [.setXMinCommitted,.setHOTUpdated 4101,.setHOTHeapTuple] (by simp)
  exact ⟨hfit,h.1,h.2.2 hfit⟩

/-- The forward slot takes the hint away, and the hint is read as part of the forward slot. -/
theorem hints_in_forward_slot : (freshTuple.setXMinCommitted.setHOTUpdated 5).isXMinCommitted = false ∧
    (freshTuple.setHOTUpdated 5).setXMinCommitted.getForwardSlot = 4101 := by
  decide

end VaultDB.Storage
