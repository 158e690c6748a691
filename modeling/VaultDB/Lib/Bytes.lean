import Mathlib.Algebra.BigOperators.Group.List.Lemmas
import Mathlib.Algebra.Order.Ring.Nat
import Mathlib.Tactic.Common
set_option autoImplicit false

/-!
Numbers as bytes, the least significant byte first, fields at offsets of a byte string, and CRC-32
checksums.
-/

namespace VaultDB.Lib
open List Option
variable {xs : List UInt8} {i n j : Nat}
def toBytes : Nat → Nat → List UInt8
  | 0, _ => []
  | k+1, n => UInt8.ofNat n :: toBytes k (n/256)

def ofBytes (bytes : List UInt8) : Nat := bytes.foldr (fun b n => b.toNat+256*n) 0

@[simp] theorem length_toBytes (k n : Nat) : (toBytes k n).length = k := by
  induction k generalizing n with
  | zero => rfl
  | succ k ih => simp [toBytes,ih]

theorem ofBytes_toBytes (k n : Nat) : ofBytes (toBytes k n) = n%256^k := by
  induction k generalizing n with
  | zero => simp [toBytes,ofBytes,Nat.mod_one]
  | succ k ih =>
    have h : ofBytes (toBytes (k+1) n) = n%256+256*ofBytes (toBytes k (n/256)) := by simp [toBytes,ofBytes]
    rw [h,ih,Nat.pow_succ,Nat.mul_comm (256^k),Nat.mod_mul]

def uint16At (bytes : List UInt8) (i : Nat) : Option Nat :=
  match bytes.drop i with
  | a :: b :: _ => some (a.toNat+256*b.toNat)
  | _ => none

theorem uint16At_append (ys : List UInt8) (h : xs.length = i) (j : Nat) : uint16At (xs++ys) (i+j) =
    uint16At ys j := by
  subst h
  simp [uint16At,← drop_drop]

theorem uint16At_toBytes (h : n < 2^16) (rest : List UInt8) : uint16At (toBytes 2 n++rest) 0 = some n := by
  have := ofBytes_toBytes 2 n
  simp only [toBytes,ofBytes,foldr_cons,foldr_nil] at this
  simp only [uint16At,toBytes,drop_zero,cons_append,some.injEq]
  omega

theorem uint16At_table {ns : List Nat} (hns : ∀ n ∈ ns, n < 2^16) (rest : List UInt8) (hi : i < ns.length) :
    uint16At (ns.flatMap (toBytes 2)++rest) (2*i) = some ns[i] := by
  induction ns generalizing i with
  | nil => simp at hi
  | cons n ns ih =>
    simp only [flatMap_cons,append_assoc]
    cases i with
    | zero => exact uint16At_toBytes (hns n mem_cons_self) _
    | succ i =>
      rw [show 2*(i+1) = 2+2*i by omega,uint16At_append _ (length_toBytes 2 n)]
      simpa using ih (fun m hm => hns m (mem_cons_of_mem n hm)) (by simpa using hi)

theorem uint16At_isSome {bytes : List UInt8} : (uint16At bytes i).isSome = true ↔ i+2 ≤ bytes.length := by
  have hlen := @List.length_drop UInt8 i bytes
  unfold uint16At
  rcases h : bytes.drop i with _ | ⟨a,_ | ⟨b,rest⟩⟩ <;> rw [h] at hlen <;> simp at hlen ⊢ <;> omega

def slice (bytes : List UInt8) (i j : Nat) : List UInt8 := (bytes.take j).drop i

theorem slice_append (ys : List UInt8) (h : xs.length = n) (i j : Nat) : slice (xs++ys) (n+i)
    (n+j) = slice ys i j := by
  subst h
  simp [slice,take_append,drop_append]

theorem slice_flatten (pieces : List (List UInt8)) (hi : i < pieces.length) :
    slice pieces.flatten ((pieces.map List.length).take i).sum
    ((pieces.map List.length).take (i+1)).sum = pieces[i] :=
  drop_take_succ_flatten_eq_getElem pieces i hi

theorem length_slice (bytes : List UInt8) (i j : Nat) : (slice bytes i j).length =
    min j bytes.length-i := by simp [slice]

theorem slice_append_left (h : j ≤ xs.length) (ys : List UInt8) (i : Nat) : slice (xs++ys) i j = slice xs i j := by
  simp [slice,take_append_of_le_length h]

theorem slice_middle {ys : List UInt8} (hi : xs.length = i) (hj : i+ys.length = j) (zs : List UInt8) :
    slice (xs++(ys++zs)) i j = ys := by
  subst hi hj
  simp [slice,take_append]

def overwrite (bytes : List UInt8) (i : Nat) (new : List UInt8) : List UInt8 :=
  bytes.take i++(new++bytes.drop (i+new.length))

theorem overwrite_append (h : xs.length = i) (ys new : List UInt8) :
    overwrite (xs++ys) i new = xs++(new++ys.drop new.length) := by
  subst h
  simp [overwrite,drop_append]

def crcBit (c : BitVec 32) : BitVec 32 := if c.getLsbD 0 then (c >>> 1) ^^^ 0xEDB88320#32 else c >>> 1

def crcByte (c : BitVec 32) (b : UInt8) : BitVec 32 :=
  crcBit (crcBit (crcBit (crcBit (crcBit (crcBit (crcBit (crcBit (c ^^^ b.toBitVec.setWidth 32))))))))

def crcUpdate (c : BitVec 32) (bytes : List UInt8) : BitVec 32 := ~~~(bytes.foldl crcByte (~~~c))

/-- The check value of CRC-32: the checksum of the digits from one to nine. -/
example : crcUpdate 0 [49, 50, 51, 52, 53, 54, 55, 56, 57] = 0xCBF43926#32 := by decide +kernel

end VaultDB.Lib
