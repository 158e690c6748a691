import Mathlib.Algebra.Order.BigOperators.Group.List
import VaultDB.Storage.RowFormat
set_option autoImplicit false

/-!
`EncodeRow` and `DecodeRow` of `binary_encoding.go` on the bytes of a tuple.  An index or a slice
bound out of range panics.
-/

namespace VaultDB.Storage.RowCodec
open Lib List Option

inductive Fault where
  | error (message : String)
  | panic
  deriving DecidableEq, Repr

/-- `json.Marshal` of an object, and `DecodeJSON`, which may also give something that is no object.
-/
structure Json where
  Object : Type
  marshal : Object → Except String (List UInt8)
  decode : List UInt8 → Except String (Option Object)

inductive Value (J : Json) where
  | null
  | int64 (n : BitVec 64)
  | float64 (bits : BitVec 64)
  | bool (b : Bool)
  | string (s : List UInt8)
  | vector (v : List (BitVec 64))
  | object (o : J.Object)
  | other (goType : String)

def byteAt (b : List UInt8) (i : Nat) : Except Fault UInt8 :=
  match b[i]? with
  | some x => .ok x
  | none => .error .panic

def sliceAt (b : List UInt8) (lo hi : Nat) : Except Fault (List UInt8) :=
  if lo ≤ hi ∧ hi ≤ b.length then .ok (slice b lo hi) else .error .panic

def uintOf (k : Nat) (b : List UInt8) : Except Fault Nat :=
  if k ≤ b.length then .ok (ofBytes (b.take k)) else .error .panic

def uintAt (b : List UInt8) (lo k : Nat) : Except Fault Nat := (sliceAt b lo (lo+k)).bind (uintOf k)

def setByte (b : List UInt8) (i : Nat) (x : UInt8) : Except Fault (List UInt8) :=
  if i < b.length then .ok (overwrite b i [x]) else .error .panic

def putUint (b : List UInt8) (lo hi k n : Nat) : Except Fault (List UInt8) :=
  if lo ≤ hi ∧ hi ≤ b.length ∧ k ≤ hi-lo then .ok (overwrite b lo (toBytes k n)) else .error .panic

def copyAt (b : List UInt8) (lo : Nat) (src : List UInt8) : Except Fault (List UInt8) :=
  if lo ≤ b.length then .ok (overwrite b lo (src.take (b.length-lo))) else .error .panic

section
variable {J : Json} {v : Value J} {n k i : Nat} {json tuple src b xs : List UInt8} {lo : Nat} {A Y : List UInt8}
def measureValue : Value J → Except String (Nat × List UInt8)
  | .null => .ok (1,[])
  | .int64 _ => .ok (9,[])
  | .float64 _ => .ok (9,[])
  | .bool _ => .ok (2,[])
  | .string s =>
    if 65535 < s.length then
      .error ("string too long for binary encoding: "++toString s.length++" bytes (max 65535)")
    else .ok (3+s.length,[])
  | .vector v => .ok (3+v.length*8,[])
  | .object o =>
    match J.marshal o with
    | .error e => .error e
    | .ok json =>
      if 65535 < json.length then
        .error ("JSONB too long for binary encoding: "++toString json.length++" bytes (max 65535)")
      else .ok (3+json.length,json)
  | .other goType => .error ("unsupported value type "++goType++" for binary encoding")

def measure : Nat → List (Value J) → Except String (List (Nat × List UInt8))
  | _, [] => .ok []
  | i, v :: row =>
    match measureValue v with
    | .error e => .error ("column "++toString i++": "++e)
    | .ok size => (measure (i+1) row).map (size :: ·)

def putVector (tuple : List UInt8) (offset j : Nat) : List (BitVec 64) → Except Fault (List UInt8)
  | [] => .ok tuple
  | f :: v =>
    (putUint tuple ((offset+3+j*8)%2^16) ((offset+3+j*8+8)%2^16) 8 f.toNat).bind fun tuple =>
      putVector tuple offset (j+1) v

def putValue (tuple : List UInt8) (offset : Nat) (json : List UInt8) : Value J → Except Fault (List UInt8 × Nat)
  | .null => (setByte tuple offset nullMarker).map fun tuple => (tuple,(offset+1)%2^16)
  | .int64 n =>
    (setByte tuple offset (tag 'i')).bind fun tuple =>
    (putUint tuple ((offset+1)%2^16) ((offset+9)%2^16) 8 n.toNat).map fun tuple => (tuple,(offset+9)%2^16)
  | .float64 bits =>
    (setByte tuple offset (tag 'f')).bind fun tuple =>
    (putUint tuple ((offset+1)%2^16) ((offset+9)%2^16) 8 bits.toNat).map fun tuple => (tuple,(offset+9)%2^16)
  | .bool b =>
    (setByte tuple offset (tag 'b')).bind fun tuple =>
    (setByte tuple ((offset+1)%2^16) (if b then 1 else 0)).map fun tuple => (tuple,(offset+2)%2^16)
  | .string s =>
    (setByte tuple offset (tag 's')).bind fun tuple =>
    (putUint tuple ((offset+1)%2^16) ((offset+3)%2^16) 2 s.length).bind fun tuple =>
    (copyAt tuple ((offset+3)%2^16) s).map fun tuple => (tuple,(offset+(3+s.length))%2^16)
  | .vector v =>
    (setByte tuple offset (tag 'v')).bind fun tuple =>
    (putUint tuple ((offset+1)%2^16) ((offset+3)%2^16) 2 v.length).bind fun tuple =>
    (putVector tuple offset 0 v).map fun tuple => (tuple,(offset+(3+v.length*8))%2^16)
  | .object _ =>
    (setByte tuple offset (tag 'j')).bind fun tuple =>
    (putUint tuple ((offset+1)%2^16) ((offset+3)%2^16) 2 json.length).bind fun tuple =>
    (copyAt tuple ((offset+3)%2^16) json).map fun tuple => (tuple,(offset+(3+json.length))%2^16)
  | .other _ => .ok (tuple,offset)

def putColumns (tuple : List UInt8) (offset i : Nat) : List (Value J × List UInt8) → Except Fault (List UInt8)
  | [] => .ok tuple
  | (v,json) :: cols =>
    (putUint tuple (18+i*2) (18+i*2+2) 2 offset).bind fun tuple =>
    (putValue tuple offset json v).bind fun (tuple,offset) => putColumns tuple offset (i+1) cols

def poolGet (old : List UInt8) (size : Nat) : List UInt8 := (old++List.replicate size 0).take size

def encodeRow (old : List UInt8) (createdTx deletedTx : BitVec 64) (row : List (Value J)) :
    Except Fault (List UInt8) :=
  if row.length = 0 then .error (.error "encodeBinaryTuple: empty row")
  else
    let headerSize := 18+row.length*2
    match measure 0 row with
    | .error e => .error (.error e)
    | .ok sizes =>
      let totalSize := headerSize+(sizes.map Prod.fst).sum
      if 65535 < totalSize then .error (.error ("tuple too large: "++toString totalSize++" bytes"))
      else
        (putUint (poolGet old totalSize) 0 8 8 createdTx.toNat).bind fun tuple =>
        (putUint tuple 8 16 8 deletedTx.toNat).bind fun tuple =>
        (putUint tuple 16 18 2 row.length).bind fun tuple =>
        putColumns tuple (headerSize%2^16) 0 (row.zip (sizes.map Prod.snd))

def readVector (data : List UInt8) (i : Nat) : Nat → Except Fault (List (BitVec 64))
  | 0 => .ok []
  | k+1 =>
    (uintAt data (3+i*8) 8).bind fun f =>
    (readVector data (i+1) k).map fun v => BitVec.ofNat 64 f :: v

def decodeColumnValue (data : List UInt8) : Except Fault (Value J) :=
  if data.length = 0 then .ok .null
  else
    (byteAt data 0).bind fun t =>
    if t = nullMarker then .ok .null
    else if t = tag 'i' then
      if data.length < 9 then .error (.error "int64 truncated")
      else (uintAt data 1 8).map fun n => .int64 (BitVec.ofNat 64 n)
    else if t = tag 'f' then
      if data.length < 9 then .error (.error "float64 truncated")
      else (uintAt data 1 8).map fun n => .float64 (BitVec.ofNat 64 n)
    else if t = tag 'b' then
      if data.length < 2 then .error (.error "bool truncated")
      else (byteAt data 1).map fun b => .bool (b == 1)
    else if t = tag 's' then
      if data.length < 3 then .error (.error "string header truncated")
      else (uintAt data 1 2).bind fun strLen =>
        if data.length < 3+strLen then .error (.error "string data truncated")
        else (sliceAt data 3 (3+strLen)).map .string
    else if t = tag 'j' then
      if data.length < 3 then .error (.error "jsonb header truncated")
      else (uintAt data 1 2).bind fun jsonLen =>
        if data.length < 3+jsonLen then .error (.error "jsonb data truncated")
        else (sliceAt data 3 (3+jsonLen)).map fun jsonStr =>
          match J.decode jsonStr with
          | .ok (some o) => .object o
          | _ => .string jsonStr
    else if t = tag 'v' then
      if data.length < 3 then .error (.error "vector header truncated")
      else (uintAt data 1 2).bind fun count =>
        if data.length < 3+count*8 then .error (.error "vector data truncated")
        else (readVector data 0 count).map .vector
    else .error (.error ("unknown type tag: "++String.singleton (Char.ofNat t.toNat)))

def Fault.inColumn (i : Nat) : Fault → Fault
  | .error e => .error ("column "++toString i++": "++e)
  | .panic => .panic

/-- The last `k` of `colCount` columns, from column `i` on; the tuple is `len` bytes long and is
followed by the spare bytes of its capacity. -/
def readColumns (mem : List UInt8) (len colCount i : Nat) : Nat → Except Fault (List (Value J))
  | 0 => .ok []
  | k+1 =>
    (uintAt mem (18+i*2) 2).bind fun valOffset =>
    (if i+1 < colCount then uintAt mem (18+(i+1)*2) 2 else .ok (len%2^16)).bind fun nextOffset =>
    (sliceAt mem valOffset nextOffset).bind fun valBytes =>
    ((decodeColumnValue valBytes).mapError (Fault.inColumn i)).bind fun val =>
    (readColumns mem len colCount (i+1) k).map fun row => val :: row

def decodeRow (tuple spare : List UInt8) : Except Fault (BitVec 64 × BitVec 64 × List (Value J)) :=
  if tuple.length < 18 then .error (.error "tuple too short")
  else
    (uintAt (tuple++spare) 0 8).bind fun createdTx =>
    (uintAt (tuple++spare) 8 8).bind fun deletedTx =>
    (uintAt (tuple++spare) 16 2).bind fun colCount =>
    if tuple.length < 18+colCount*2 then .error (.error "tuple header truncated")
    else (readColumns (tuple++spare) tuple.length colCount 0 colCount).map fun row =>
      (BitVec.ofNat 64 createdTx,BitVec.ofNat 64 deletedTx,row)

def columnData (json : List UInt8) : Value J → List UInt8
  | .null => [nullMarker]
  | .int64 n => tag 'i' :: toBytes 8 n.toNat
  | .float64 bits => tag 'f' :: toBytes 8 bits.toNat
  | .bool b => [tag 'b',if b then 1 else 0]
  | .string s => tag 's' :: (toBytes 2 s.length++s)
  | .vector v => tag 'v' :: (toBytes 2 v.length++v.flatMap fun f => toBytes 8 f.toNat)
  | .object _ => tag 'j' :: (toBytes 2 json.length++json)
  | .other _ => []

theorem length_flatMap_words (v : List (BitVec 64)) :
    (v.flatMap fun f => toBytes 8 f.toNat).length = v.length*8 := by
  induction v with
  | nil => rfl
  | cons f v ih =>
    rw [flatMap_cons,length_append,length_toBytes,ih,length_cons]
    omega

theorem length_columnData (h : measureValue v = .ok (n,json)) : (columnData json v).length = n := by
  cases v with
  | string s =>
    simp only [measureValue] at h
    split at h <;> cases h
    simp [columnData]
    omega
  | vector v =>
    cases h
    simp only [columnData,length_cons,length_append,length_toBytes,length_flatMap_words]
    omega
  | object o =>
    simp only [measureValue] at h
    cases ho : J.marshal o with
    | error e => simp [ho] at h
    | ok bytes =>
      simp only [ho] at h
      split at h <;> cases h
      simp [columnData]
      omega
  | other t => cases h
  | _ => cases h; simp [columnData]

section
variable {A Y : List UInt8} {offset : Nat} (hA : A.length = offset)
include hA
theorem setByte_append {x y : UInt8} : setByte (A++y :: Y) offset x = .ok (A++[x]++Y) := by
  have h : offset < (A++y :: Y).length := by simp [hA]
  rw [setByte,if_pos h,overwrite_append hA]
  simp

theorem putUint_append {hi : Nat} (hhi : hi = offset+k) (hk : k ≤ Y.length) :
    putUint (A++Y) offset hi k n = .ok (A++(toBytes k n++Y.drop k)) := by
  have h : offset ≤ hi ∧ hi ≤ (A++Y).length ∧ k ≤ hi-offset := by
    rw [length_append]
    omega
  rw [putUint,if_pos h,overwrite_append hA,length_toBytes]

theorem copyAt_append (hsrc : src.length ≤ Y.length) : copyAt (A++Y) offset src =
    .ok (A++(src++Y.drop src.length)) := by
  have h : offset ≤ (A++Y).length := by simp [hA]
  have htake : src.take ((A++Y).length-offset) = src := by
    apply take_of_length_le
    rw [length_append]
    omega
  rw [copyAt,if_pos h,htake,overwrite_append hA]
end

variable {offset : Nat} {row : List (Value J)} {spare : List UInt8}
theorem putVector_append {v : List (BitVec 64)} {j : Nat} (hA : A.length = offset+3+j*8)
    (hY : v.length*8 ≤ Y.length) (hsize : offset+3+j*8+v.length*8 < 2^16) :
    putVector (A++Y) offset j v = .ok (A++((v.flatMap fun f => toBytes 8 f.toNat)++Y.drop (v.length*8))) := by
  induction v generalizing A Y j with
  | nil => simp [putVector]
  | cons f v ih =>
    rw [length_cons] at hY hsize
    have hlo : (offset+3+j*8)%2^16 = offset+3+j*8 := Nat.mod_eq_of_lt (by omega)
    have hhi : (offset+3+j*8+8)%2^16 = offset+3+j*8+8 := Nat.mod_eq_of_lt (by omega)
    have hnext : (A++toBytes 8 f.toNat).length = offset+3+(j+1)*8 := by
      rw [length_append,length_toBytes,hA]
      omega
    rw [putVector,hlo,hhi,putUint_append hA rfl (by omega),Except.bind,← append_assoc,
      ih hnext (by rw [length_drop]; omega) (by omega),drop_drop,flatMap_cons,length_cons]
    have hdrop : 8+v.length*8 = (v.length+1)*8 := by omega
    simp only [append_assoc,hdrop]

section
variable {A Y : List UInt8} {offset : Nat} (hA : A.length = offset) (y t : UInt8)
include hA
theorem putWord_append (hY : 8 ≤ Y.length) (hsize : offset+9 < 2^16) :
    ((setByte (A++y :: Y) offset t).bind fun tuple =>
      (putUint tuple ((offset+1)%2^16) ((offset+9)%2^16) 8 n).map fun tuple => (tuple,(offset+9)%2^16)) =
      .ok (A++(t :: toBytes 8 n++(y :: Y).drop 9),offset+9) := by
  have hnext : (A++[t]).length = offset+1 := by simp [hA]
  rw [setByte_append hA,Except.bind,Nat.mod_eq_of_lt (show offset+1 < 2^16 by omega),Nat.mod_eq_of_lt hsize,
    putUint_append hnext rfl hY]
  simp [Except.map]

theorem putCounted_append {β : Type} (f : List UInt8 → Except Fault β) (hY : 2 ≤ Y.length)
    (hsize : offset+3 < 2^16) : ((setByte (A++y :: Y) offset t).bind fun tuple =>
      (putUint tuple ((offset+1)%2^16) ((offset+3)%2^16) 2 n).bind f) =
      f (A++[t]++toBytes 2 n++Y.drop 2) := by
  have hnext : (A++[t]).length = offset+1 := by simp [hA]
  rw [setByte_append hA,Except.bind,Nat.mod_eq_of_lt (show offset+1 < 2^16 by omega),Nat.mod_eq_of_lt hsize,
    putUint_append hnext rfl hY,Except.bind,← append_assoc]

theorem putText_append (hY : 2+src.length ≤ Y.length) (hsize : offset+(3+src.length) < 2^16) :
    ((setByte (A++y :: Y) offset t).bind fun tuple =>
      (putUint tuple ((offset+1)%2^16) ((offset+3)%2^16) 2 src.length).bind fun tuple =>
      (copyAt tuple ((offset+3)%2^16) src).map fun tuple => (tuple,(offset+(3+src.length))%2^16)) =
      .ok (A++(t :: (toBytes 2 src.length++src)++(y :: Y).drop (3+src.length)),offset+(3+src.length)) := by
  have hlen : (A++[t]++toBytes 2 src.length).length = offset+3 := by simp [hA]
  have hdrop : (y :: Y).drop (3+src.length) = Y.drop (2+src.length) := by
    rw [show 3+src.length = (2+src.length)+1 by omega,drop_succ_cons]
  rw [putCounted_append hA y t _ (by omega) (by omega),Nat.mod_eq_of_lt (show offset+3 < 2^16 by omega),
    copyAt_append hlen (by rw [length_drop]; omega),drop_drop,Nat.mod_eq_of_lt hsize,hdrop]
  simp [Except.map]
end

theorem measureValue_pos (h : measureValue v = .ok (n,json)) : 0 < n := by
  rw [← length_columnData h]
  cases v with
  | other t => cases h
  | _ => simp [columnData]

theorem putValue_append (hm : measureValue v = .ok (n,json))
    (hA : A.length = offset) (hY : n ≤ Y.length) (hsize : offset+n < 2^16) :
    putValue (A++Y) offset json v = .ok (A++(columnData json v++Y.drop n),offset+n) := by
  have hpos := measureValue_pos hm
  obtain ⟨y,Y,rfl⟩ : ∃ y Y', Y = y :: Y' := by
    cases Y with
    | nil => exact absurd hY (Nat.not_le.2 hpos)
    | cons y Y => exact ⟨y,Y,rfl⟩
  rw [length_cons] at hY
  have hdata := length_columnData hm
  cases v with
  | null =>
    cases hm
    rw [putValue,setByte_append hA,Nat.mod_eq_of_lt hsize]
    simp [Except.map,columnData]
  | int64 m =>
    cases hm
    exact putWord_append hA y _ (by omega) hsize
  | float64 m =>
    cases hm
    exact putWord_append hA y _ (by omega) hsize
  | bool b =>
    cases hm
    have hnext : (A++[tag 'b']).length = offset+1 := by simp [hA]
    cases Y with
    | nil => simp at hY
    | cons z Y =>
      rw [putValue,setByte_append hA,Except.bind,Nat.mod_eq_of_lt (show offset+1 < 2^16 by omega),
        setByte_append hnext,Nat.mod_eq_of_lt hsize]
      simp [Except.map,columnData]
  | string s =>
    simp only [columnData,length_cons,length_append,length_toBytes] at hdata
    obtain rfl : n = 3+s.length := by omega
    exact putText_append hA y _ (by omega) hsize
  | vector v =>
    cases hm
    have hlen : (A++[tag 'v']++toBytes 2 v.length).length = offset+3+0*8 := by simp [hA]
    have hdrop : (y :: Y).drop (3+v.length*8) = Y.drop (2+v.length*8) := by
      rw [show 3+v.length*8 = (2+v.length*8)+1 by omega,drop_succ_cons]
    rw [putValue,putCounted_append hA y _ _ (by omega) (by omega),
      putVector_append hlen (by rw [length_drop]; omega) (by omega),drop_drop,Nat.mod_eq_of_lt hsize,hdrop]
    simp [Except.map,columnData]
  | object o =>
    simp only [columnData,length_cons,length_append,length_toBytes] at hdata
    obtain rfl : n = 3+json.length := by omega
    exact putText_append hA y _ (by omega) hsize
  | other t => cases hm

theorem putColumns_append {cols : List (Value J × List UInt8)} {sizes : List Nat}
    (hm : List.Forall₂ (fun c n => measureValue c.1 = .ok (n,c.2)) cols sizes) {A X B Y : List UInt8}
    (hA : A.length = 18+i*2) (hX : X.length = cols.length*2) (hB : A.length+X.length+B.length = offset)
    (hY : Y.length = sizes.sum) (hsize : offset+sizes.sum < 2^16) : putColumns (A++(X++(B++Y))) offset i cols =
      .ok (A++((offsets offset sizes).flatMap (toBytes
        2)++(B++(cols.map fun c => columnData c.2 c.1).flatten))) := by
  induction hm generalizing A X B Y offset i with
  | nil =>
    have hX : X = [] := eq_nil_of_length_eq_zero (by simpa using hX)
    have hY : Y = [] := eq_nil_of_length_eq_zero (by simpa using hY)
    simp [putColumns,hX,hY,offsets]
  | @cons c n cols sizes hc _ ih =>
    obtain ⟨v,json⟩ := c
    rw [sum_cons] at hY hsize
    rw [length_cons] at hX
    have hdata := length_columnData hc
    -- the entry of the offset table, then the value at the running offset
    have hentry : putUint (A++(X++(B++Y))) (18+i*2) (18+i*2+2) 2 offset =
      .ok ((A++(toBytes 2 offset++(X.drop 2++B)))++Y) := by
      rw [putUint_append hA rfl (by rw [length_append]; omega),drop_append_of_le_length (by omega)]
      simp only [append_assoc]
    have hstart : (A++(toBytes 2 offset++(X.drop 2++B))).length = offset := by
      simp only [length_append,length_toBytes,length_drop]
      omega
    have hrest : (A++toBytes 2 offset)++(X.drop 2++((B++columnData json v)++Y.drop n)) =
        (A++(toBytes 2 offset++(X.drop 2++B)))++(columnData json v++Y.drop n) := by simp only [append_assoc]
    rw [putColumns,hentry,Except.bind,putValue_append hc hstart (by omega) (by omega),Except.bind,← hrest]
    dsimp only
    rw [ih (i := i+1) (by simp [hA]; omega) (by rw [length_drop]; omega)
      (by simp only [length_append,length_toBytes,length_drop,hdata]; omega)
      (by rw [length_drop]; omega) (by omega)]
    simp only [offsets,flatMap_cons,map_cons,flatten_cons,append_assoc]

theorem measure_ok {sizes : List (Nat × List UInt8)} (h : measure i row = .ok sizes) :
    List.Forall₂ (fun v size => measureValue v = .ok size) row sizes := by
  induction row generalizing i sizes with
  | nil =>
    cases h
    exact .nil
  | cons v row ih =>
    rw [measure] at h
    cases hv : measureValue v with
    | error e => simp [hv] at h
    | ok size =>
      rw [hv] at h
      obtain ⟨rest,hrest,rfl⟩ := Sql.map_eq_ok h
      exact .cons hv (ih hrest)

def tupleBytes (createdTx deletedTx : BitVec 64) (cols : List (List UInt8)) : List UInt8 :=
  toBytes 8 createdTx.toNat++(toBytes 8 deletedTx.toNat++(toBytes 2 cols.length++
    ((offsets (18+cols.length*2) (cols.map List.length)).flatMap (toBytes 2)++cols.flatten)))

def rowColumns (row : List (Value J)) (sizes : List (Nat × List UInt8)) : List (List UInt8) :=
  (row.zip (sizes.map Prod.snd)).map fun c => columnData c.2 c.1

section
variable {row : List (Value J)} {sizes : List (Nat × List UInt8)}
  (h : List.Forall₂ (fun v size => measureValue v = .ok size) row sizes)
include h
theorem measured_zip : List.Forall₂ (fun (c : Value J × List UInt8) n => measureValue c.1 = .ok (n,c.2))
    (row.zip (sizes.map Prod.snd)) (sizes.map Prod.fst) := by
  induction h with
  | nil => exact .nil
  | cons hv _ ih => exact .cons hv ih

theorem measured_columns : List.Forall₂ (fun v data => ∃ n json, measureValue v = .ok (n,json) ∧
      columnData json v = data) row
      (rowColumns row sizes) := by
  induction h with
  | nil => exact .nil
  | cons hv _ ih => exact .cons ⟨_,_,hv,rfl⟩ ih

theorem map_length_rowColumns : (rowColumns row sizes).map List.length = sizes.map Prod.fst := by
  induction h with
  | nil => rfl
  | cons hv _ ih => exact congrArg₂ cons (length_columnData hv) ih
end

theorem putHeader_eq {buf : List UInt8} (hbuf : 18 ≤ buf.length) (xmin xmax n : Nat)
    (f : List UInt8 → Except Fault (List UInt8)) :
    ((putUint buf 0 8 8 xmin).bind fun tuple => (putUint tuple 8 16 8 xmax).bind fun tuple =>
      (putUint tuple 16 18 2 n).bind f) =
      f (toBytes 8 xmin++toBytes 8 xmax++toBytes 2 n++buf.drop 18) := by
  have h0 : ([] : List UInt8).length = 0 := rfl
  have h8 : (toBytes 8 xmin).length = 8 := length_toBytes _ _
  have h16 : (toBytes 8 xmin++toBytes 8 xmax).length = 16 := by simp
  have hfirst : putUint buf 0 8 8 xmin = .ok (toBytes 8 xmin++buf.drop 8) := putUint_append h0 rfl (by omega)
  have hsecond : putUint (toBytes 8 xmin++buf.drop 8) 8 16 8 xmax =
    .ok (toBytes 8 xmin++toBytes 8 xmax++buf.drop 16) := by
    rw [putUint_append h8 (show 16 = 8+8 from rfl) (by rw [length_drop]; omega),drop_drop,append_assoc]
  have hthird : putUint (toBytes 8 xmin++toBytes 8 xmax++buf.drop 16) 16 18 2 n =
      .ok (toBytes 8 xmin++toBytes 8 xmax++toBytes 2 n++buf.drop 18) := by
    rw [putUint_append h16 (show 18 = 16+2 from rfl) (by rw [length_drop]; omega),drop_drop,← append_assoc]
  rw [hfirst,Except.bind,hsecond,Except.bind,hthird,Except.bind]

theorem encodeRow_ok {old : List UInt8} {xmin xmax : BitVec 64}
    (h : encodeRow old xmin xmax row = .ok tuple) :
    ∃ cols, tuple = tupleBytes xmin xmax cols ∧ 18+cols.length*2+(cols.map List.length).sum ≤ 65535 ∧
      List.Forall₂ (fun v data => ∃ n json, measureValue v = .ok (n,json) ∧ columnData json v = data) row cols := by
  rw [encodeRow] at h
  split at h
  · cases h
  cases hm : measure 0 row with
  | error e => simp [hm] at h
  | ok sizes =>
    simp only [hm] at h
    split at h
    · cases h
    next hsize =>
    have hall := measure_ok hm
    have hcols := measured_columns hall
    have hcount : (rowColumns row sizes).length = row.length := hcols.length_eq.symm
    have hzip : (row.zip (sizes.map Prod.snd)).length = row.length := by simpa [rowColumns] using hcount
    have hlengths := map_length_rowColumns hall
    refine ⟨rowColumns row sizes,?_,by rw [hlengths,hcount]; omega,hcols⟩
    have hbuf : (poolGet old (18+row.length*2+(sizes.map Prod.fst).sum)).length =
        18+row.length*2+(sizes.map Prod.fst).sum := by simp [poolGet]
    rw [putHeader_eq (by omega)] at h
    -- the rest of the buffer is the offset table and the columns
    rw [← take_append_drop (row.length*2) ((poolGet old _).drop 18),Nat.mod_eq_of_lt (by omega)] at h
    have hput := putColumns_append (measured_zip hall) (A := toBytes 8 xmin.toNat++toBytes 8 xmax.toNat++
        toBytes 2 row.length) (X := ((poolGet old (18+row.length*2+(sizes.map Prod.fst).sum)).drop 18).take (row.length*2))
      (B := []) (Y := ((poolGet old (18+row.length*2+(sizes.map Prod.fst).sum)).drop 18).drop (row.length*2))
      (i := 0) (by simp)
      (by rw [length_take,length_drop,hbuf,hzip]; omega)
      (show _ = 18+row.length*2 by
        simp only [length_append,length_toBytes,length_take,length_drop,hbuf,length_nil]; omega)
      (by rw [length_drop,length_drop,hbuf]; omega) (by omega)
    rw [nil_append,h] at hput
    rw [Except.ok.inj hput,tupleBytes,hlengths,hcount,rowColumns]
    simp only [append_assoc,nil_append]

theorem uintAt_eq (h : lo+k ≤ b.length) : uintAt b lo k = .ok (ofBytes (slice b lo (lo+k))) := by
  have hlen : (slice b lo (lo+k)).length = k := by
    rw [length_slice]
    omega
  rw [uintAt,sliceAt,if_pos ⟨by omega,h⟩,Except.bind,uintOf,if_pos (by omega),take_of_length_le (by omega)]

theorem uintAt_middle (hlo : xs.length = lo) (hn : n < 256^k)
    (ys : List UInt8) : uintAt (xs++(toBytes k n++ys)) lo k = .ok n := by
  rw [uintAt_eq (by simp only [length_append,length_toBytes]; omega),slice_middle hlo (by simp),
    ofBytes_toBytes,Nat.mod_eq_of_lt hn]

theorem uintAt_of_uint16At (h : uint16At b i = some n) : uintAt b i 2 = .ok n := by
  have hlen : i+2 ≤ b.length := uint16At_isSome.1 (by rw [h]; rfl)
  rw [uintAt_eq hlen,slice,drop_take,Nat.add_sub_cancel_left]
  rw [uint16At] at h
  rcases hb : b.drop i with _ | ⟨x,_ | ⟨y,rest⟩⟩ <;> rw [hb] at h
  · cases h
  · cases h
  · rw [← some.inj h]
    simp [ofBytes]

theorem byteAt_eq (h : i < b.length) : byteAt b i = .ok b[i] := by simp [byteAt,h]

theorem readVector_words (hxs : xs.length = 3+i*8) (v : List (BitVec 64)) :
    readVector (xs++v.flatMap fun f => toBytes 8 f.toNat) i v.length = .ok v := by
  induction v generalizing xs i with
  | nil => rfl
  | cons f v ih =>
    have hword : f.toNat < 256^8 := f.isLt
    have hnext : (xs++toBytes 8 f.toNat).length = 3+(i+1)*8 := by
      rw [length_append,length_toBytes,hxs]
      omega
    have hrest := ih hnext
    rw [append_assoc] at hrest
    rw [length_cons,readVector,flatMap_cons,uintAt_middle hxs hword,Except.bind,hrest,Except.map,
      BitVec.ofNat_toNat,BitVec.setWidth_eq]

/-- What is asked of the JSON library: an object that is encoded is decoded to itself. -/
def Json.Lawful (J : Json) : Prop := ∀ o json, J.marshal o = .ok json → J.decode json = .ok (some o)
theorem byteAt_zero (t : UInt8) (bytes : List UInt8) : byteAt (t :: bytes) 0 = .ok t := rfl

section
variable (t : UInt8)
theorem uintAt_word (m : BitVec 64) : uintAt (t :: toBytes 8 m.toNat) 1 8 = .ok m.toNat := by
  simpa using uintAt_middle (show [t].length = 1 from rfl) (k := 8) m.isLt []

theorem uintAt_count (hn : n < 2^16) (rest : List UInt8) : uintAt (t :: (toBytes 2 n++rest)) 1 2 = .ok n :=
  uintAt_middle (show [t].length = 1 from rfl) (k := 2) hn rest

theorem sliceAt_text (src : List UInt8) : sliceAt (t :: (toBytes 2 src.length++src)) 3 (3+src.length) = .ok src := by
  have hpre : (t :: toBytes 2 src.length).length = 3 := by simp
  have hslice := slice_middle hpre (show 3+src.length = 3+src.length from rfl) []
  rw [append_nil,cons_append] at hslice
  rw [sliceAt,if_pos ⟨by omega,by simp; omega⟩,hslice]
end

theorem decodeColumnValue_columnData (hJ : J.Lawful)
    (h : measureValue v = .ok (n,json)) (hn : n < 2^16) : decodeColumnValue (columnData json v) = .ok v := by
  have hdata := length_columnData h
  cases v with
  | null => rfl
  | int64 m =>
    rw [columnData,decodeColumnValue,if_neg (by simp),byteAt_zero,Except.bind,if_neg (by decide),if_pos rfl,
      if_neg (by simp),uintAt_word,Except.map,BitVec.ofNat_toNat,BitVec.setWidth_eq]
  | float64 m =>
    rw [columnData,decodeColumnValue,if_neg (by simp),byteAt_zero,Except.bind,if_neg (by decide),if_neg (by decide),
      if_pos rfl,if_neg (by simp),uintAt_word,Except.map,BitVec.ofNat_toNat,BitVec.setWidth_eq]
  | bool b => cases b <;> rfl
  | string s =>
    simp only [columnData,length_cons,length_append,length_toBytes] at hdata
    rw [columnData,decodeColumnValue,if_neg (by simp),byteAt_zero,Except.bind,if_neg (by decide),if_neg (by decide),
      if_neg (by decide),if_neg (by decide),if_pos rfl,if_neg (by simp),uintAt_count _ (by omega),Except.bind,
      if_neg (by simp; omega),sliceAt_text,Except.map]
  | vector v =>
    simp only [columnData,length_cons,length_append,length_toBytes,length_flatMap_words] at hdata
    rw [columnData,decodeColumnValue,if_neg (by simp),byteAt_zero,Except.bind,if_neg (by decide),if_neg (by decide),
      if_neg (by decide),if_neg (by decide),if_neg (by decide),if_neg (by decide),if_pos rfl,if_neg (by simp),
      uintAt_count _ (by omega),Except.bind,
      if_neg (by simp only [length_cons,length_append,length_toBytes,length_flatMap_words]; omega)]
    have hread := readVector_words (show (tag 'v' :: toBytes 2 v.length).length = 3+0*8 by simp) v
    rw [cons_append] at hread
    rw [hread,Except.map]
  | object o =>
    simp only [columnData,length_cons,length_append,length_toBytes] at hdata
    have hjson : J.marshal o = .ok json := by
      rw [measureValue] at h
      cases ho : J.marshal o with
      | error e => simp [ho] at h
      | ok bytes =>
        simp only [ho] at h
        split at h <;> cases h
        rfl
    rw [columnData,decodeColumnValue,if_neg (by simp),byteAt_zero,Except.bind,if_neg (by decide),if_neg (by decide),
      if_neg (by decide),if_neg (by decide),if_neg (by decide),if_pos rfl,if_neg (by simp),
      uintAt_count _ (by omega),Except.bind,if_neg (by simp; omega),sliceAt_text,Except.map,hJ o json hjson]
  | other t => cases h

section
variable (xmin xmax : BitVec 64) {cols : List (List UInt8)}
  (hsize : 18+cols.length*2+(cols.map List.length).sum ≤ 65535) (spare : List UInt8)
def words (createdTx deletedTx : BitVec 64) (n : Nat) : List UInt8 :=
  toBytes 8 createdTx.toNat++(toBytes 8 deletedTx.toNat++toBytes 2 n)

theorem length_words (n : Nat) : (words xmin xmax n).length = 18 := by simp [words]

theorem tupleBytes_eq (cols : List (List UInt8)) : tupleBytes xmin xmax cols = words xmin xmax cols.length++
    ((offsets (18+cols.length*2) (cols.map List.length)).flatMap (toBytes 2)++cols.flatten) := by
  simp only [tupleBytes,words,append_assoc]

theorem length_tupleBytes (cols : List (List UInt8)) :
    (tupleBytes xmin xmax cols).length = 18+cols.length*2+(cols.map List.length).sum := by
  simp only [tupleBytes,length_append,length_toBytes,length_flatMap_toBytes,length_offsets,length_map,length_flatten]
  omega

include hsize
theorem uintAt_offset (hi : i < cols.length) : uintAt (tupleBytes xmin xmax cols++spare) (18+i*2) 2 =
      .ok (18+cols.length*2+((cols.map List.length).take i).sum) := by
  have hlt : ∀ n ∈ offsets (18+cols.length*2) (cols.map length), n < 2^16 := by
    intro n hn
    have := (mem_offsets_le hn).2
    omega
  have hi' : i < (offsets (18+cols.length*2) (cols.map length)).length := by simpa using hi
  have htable := uint16At_table hlt (cols.flatten++spare) hi'
  rw [← uint16At_append _ (length_words xmin xmax cols.length),getElem_offsets,Nat.mul_comm 2 i] at htable
  rw [tupleBytes_eq,append_assoc,append_assoc]
  exact uintAt_of_uint16At htable

omit hsize in
theorem sliceAt_column (hi : i < cols.length) :
    sliceAt (tupleBytes xmin xmax cols++spare) (18+cols.length*2+((cols.map List.length).take i).sum)
      (18+cols.length*2+((cols.map List.length).take (i+1)).sum) = .ok cols[i] := by
  have hstep : ((cols.map length).take (i+1)).sum = ((cols.map length).take i).sum+cols[i].length := by
    rw [sum_take_succ _ _ (by simpa using hi),getElem_map]
  have htotal := sum_take_add_sum_drop (cols.map length) (i+1)
  have hlen := length_tupleBytes xmin xmax cols
  have hpre : (words xmin xmax cols.length++
      (offsets (18+cols.length*2) (cols.map length)).flatMap (toBytes 2)).length = 18+cols.length*2 := by
    simp only [length_append,length_words,length_flatMap_toBytes,length_offsets,length_map]
    omega
  have hslice := slice_append cols.flatten hpre ((cols.map length).take i).sum ((cols.map length).take (i+1)).sum
  rw [slice_flatten cols hi,append_assoc,← tupleBytes_eq] at hslice
  rw [sliceAt,if_pos ⟨by omega,by rw [length_append]; omega⟩,slice_append_left (by omega),hslice]

theorem readColumns_tupleBytes (hi : i+row.length = cols.length)
    (hrow : ∀ j v, row[j]? = some v → ∃ data, cols[i+j]? = some data ∧ decodeColumnValue data = .ok v) :
    readColumns (tupleBytes xmin xmax cols++spare) (tupleBytes xmin xmax cols).length cols.length i
      row.length = .ok row := by
  induction row generalizing i with
  | nil => rfl
  | cons v row ih =>
    rw [length_cons] at hi
    have hlt : i < cols.length := by omega
    have hnext : (if i+1 < cols.length then uintAt (tupleBytes xmin xmax cols++spare) (18+(i+1)*2) 2
        else .ok ((tupleBytes xmin xmax cols).length%2^16)) =
        .ok (18+cols.length*2+((cols.map length).take (i+1)).sum) := by
      split
      · next h => exact uintAt_offset xmin xmax hsize spare h
      · next h => rw [length_tupleBytes,take_of_length_le (by rw [length_map]; omega),Nat.mod_eq_of_lt (by omega)]
    obtain ⟨data,hdata,hdecode⟩ := hrow 0 v rfl
    obtain ⟨_,rfl⟩ := List.getElem?_eq_some_iff.1 hdata
    have hrest := ih (i := i+1) (by omega) (fun j w hj => by
      obtain ⟨data,hdata,hdecode⟩ := hrow (j+1) w (by simpa using hj)
      exact ⟨data,by rwa [show i+1+j = i+(j+1) by omega],hdecode⟩)
    rw [length_cons,readColumns,uintAt_offset xmin xmax hsize spare hlt,Except.bind,hnext,Except.bind,
      sliceAt_column xmin xmax spare hlt,Except.bind]
    simp only [Nat.add_zero] at hdecode
    rw [hdecode,Except.mapError,Except.bind,hrest,Except.map]
end

/-- One object only, written `\x7b\x7d`. -/
def emptyObject : Json where
  Object := Unit
  marshal _ := .ok [0x7b,0x7d]
  decode json := if json = [0x7b,0x7d] then .ok (some ()) else .error "invalid character"

theorem emptyObject_lawful : emptyObject.Lawful := by
  intro o json h
  cases h
  rfl

/-- Every row that is encoded is decoded to itself, with its transaction words. -/
theorem decodeRow_encodeRow (hJ : J.Lawful) {old : List UInt8} {createdTx deletedTx : BitVec 64}
    {row : List (Value J)}
    {tuple : List UInt8} (h : encodeRow old createdTx deletedTx row = .ok tuple) (spare : List UInt8) :
    decodeRow tuple spare = .ok (createdTx, deletedTx, row) := by
  obtain ⟨cols,rfl,hsize,hrow⟩ := encodeRow_ok h
  have hlen := length_tupleBytes createdTx deletedTx cols
  have hcount := hrow.length_eq
  have hdecode : ∀ j v, row[j]? = some v → ∃ data, cols[0+j]? = some data ∧ decodeColumnValue data = .ok v := by
    intro j v hj
    obtain ⟨hlt,rfl⟩ := List.getElem?_eq_some_iff.1 hj
    have hlt' : j < cols.length := by omega
    obtain ⟨n,json,hm,hdata⟩ : ∃ n json, measureValue row[j] = .ok (n,json) ∧ columnData json row[j] = cols[j] :=
      hrow.get hlt hlt'
    have hn : cols[j].length ≤ (cols.map length).sum :=
      le_sum_of_mem (mem_map_of_mem (getElem_mem hlt'))
    rw [← hdata,length_columnData hm] at hn
    refine ⟨cols[j],by rw [Nat.zero_add,getElem?_eq_getElem hlt'],?_⟩
    rw [← hdata]
    exact decodeColumnValue_columnData hJ hm (by omega)
  have hread := readColumns_tupleBytes createdTx deletedTx hsize spare (by omega) hdecode
  have hcreated : uintAt (tupleBytes createdTx deletedTx cols++spare) 0 8 = .ok createdTx.toNat := by
    rw [tupleBytes,append_assoc]
    exact uintAt_middle (show ([] : List UInt8).length = 0 from rfl) createdTx.isLt _
  have hdeleted : uintAt (tupleBytes createdTx deletedTx cols++spare) 8 8 = .ok deletedTx.toNat := by
    rw [tupleBytes,append_assoc,append_assoc]
    exact uintAt_middle (length_toBytes 8 _) deletedTx.isLt _
  have hn : uintAt (tupleBytes createdTx deletedTx cols++spare) 16 2 = .ok cols.length := by
    have hwords : (toBytes 8 createdTx.toNat++toBytes 8 deletedTx.toNat).length = 16 := by simp
    rw [tupleBytes,← append_assoc,append_assoc,append_assoc]
    exact uintAt_middle hwords (k := 2) (by omega) _
  rw [decodeRow,if_neg (by omega),hcreated,Except.bind,hdeleted,Except.bind,hn,Except.bind,if_neg (by omega)]
  rw [hcount] at hread
  rw [hread,Except.map]
  simp only [BitVec.ofNat_toNat,BitVec.setWidth_eq]

/-- A number and an object written over the bytes of an older tuple, and read with spare bytes
behind them. -/
theorem decodeRow_encodeRow_sample : decodeRow
    [7, 0, 0, 0, 0, 0, 0, 0, 9, 0, 0, 0, 0, 0, 0, 0, 2, 0, 22, 0, 31, 0, 105, 5, 0, 0, 0, 0, 0, 0, 0,
      106, 2, 0, 0x7b, 0x7d] [1, 2] = .ok (7, 9, [.int64 5, .object (J := emptyObject) ()]) :=
  decodeRow_encodeRow emptyObject_lawful
    (show encodeRow [255,255,255,255] 7 9 [.int64 5,.object (J := emptyObject) ()] = .ok _ by rfl) [1,2]

theorem readVector_ok {data : List UInt8} (h : 3+(i+k)*8 ≤ data.length) : ∃ v, readVector data i k = .ok v := by
  induction k generalizing i with
  | zero => exact ⟨[],rfl⟩
  | succ k ih =>
    obtain ⟨v,hv⟩ := ih (i := i+1) (by omega)
    rw [readVector,uintAt_eq (by omega),Except.bind,hv]
    exact ⟨_,rfl⟩

section
variable {data : List UInt8} {β : Type}
theorem error_ne_panic (message : String) : (.error (.error message) : Except Fault β) ≠ .error .panic := by simp
theorem ok_ne_panic (x : β) : (.ok x : Except Fault β) ≠ .error .panic := by simp

theorem ite_ne_panic {c : Prop} [Decidable c] {x y : Except Fault β} (hx : x ≠ .error .panic)
    (hy : ¬ c → y ≠ .error .panic) : (if c then x else y) ≠ .error .panic := by
  by_cases hc : c
  · rwa [if_pos hc]
  · rw [if_neg hc]
    exact hy hc

theorem word_ne_panic (message : String) (f : Nat → β) :
    (if data.length < 9 then .error (.error message) else (uintAt data 1 8).map f) ≠ .error .panic := by
  refine ite_ne_panic (error_ne_panic message) fun hlen => ?_
  rw [uintAt_eq (by omega)]
  exact ok_ne_panic _

theorem counted_ne_panic (message message' : String) (size : Nat → Nat) (f : Nat → Except Fault β)
    (hf : ∀ n, 3+size n ≤ data.length → f n ≠ .error .panic) : (if data.length < 3 then .error (.error message)
      else (uintAt data 1 2).bind fun n =>
        if data.length < 3+size n then .error (.error message') else f n) ≠ .error .panic := by
  refine ite_ne_panic (error_ne_panic message) fun hheader => ?_
  rw [uintAt_eq (by omega),Except.bind]
  exact ite_ne_panic (error_ne_panic message') fun hlen => hf _ (by omega)

theorem text_ne_panic (h : 3+n ≤ data.length) (f : List UInt8 → β) :
    (sliceAt data 3 (3+n)).map f ≠ .error .panic := by
  rw [sliceAt,if_pos ⟨by omega,h⟩]
  exact ok_ne_panic _
end

theorem decodeColumnValue_ne_panic (data : List UInt8) : decodeColumnValue (J := J) data ≠ .error .panic := by
  rw [decodeColumnValue]
  refine ite_ne_panic (ok_ne_panic _) fun hlen => ?_
  rw [byteAt_eq (by omega),Except.bind]
  refine ite_ne_panic (ok_ne_panic _) fun _ => ?_
  refine ite_ne_panic (word_ne_panic _ _) fun _ => ?_
  refine ite_ne_panic (word_ne_panic _ _) fun _ => ?_
  refine ite_ne_panic (ite_ne_panic (error_ne_panic _) fun hbool => ?_) fun _ => ?_
  · rw [byteAt_eq (by omega)]
    exact ok_ne_panic _
  refine ite_ne_panic (counted_ne_panic _ _ (fun n => n) _ fun n hn => text_ne_panic hn _) fun _ => ?_
  refine ite_ne_panic (counted_ne_panic _ _ (fun n => n) _ fun n hn => text_ne_panic hn _) fun _ => ?_
  refine ite_ne_panic (counted_ne_panic _ _ (fun n => n*8) _ fun n hn => ?_) fun _ => error_ne_panic _
  obtain ⟨v,hv⟩ := readVector_ok (show 3+(0+n)*8 ≤ data.length by omega)
  rw [hv]
  exact ok_ne_panic _

def columnCount (tuple : List UInt8) : Nat := ofBytes (slice tuple 16 18)
def columnOffset (tuple : List UInt8) (i : Nat) : Nat := ofBytes (slice tuple (18+i*2) (18+i*2+2))

def columnEnd (tuple : List UInt8) (i : Nat) : Nat :=
  if i+1 < columnCount tuple then columnOffset tuple (i+1) else tuple.length%2^16

def InRange (tuple spare : List UInt8) (i : Nat) : Prop :=
  columnOffset tuple i ≤ columnEnd tuple i ∧ columnEnd tuple i ≤ (tuple++spare).length

def Decodes (J : Json) (tuple spare : List UInt8) (i : Nat) : Prop :=
  ∃ v : Value J, decodeColumnValue (slice (tuple++spare) (columnOffset tuple i) (columnEnd tuple i)) = .ok v

theorem sliceAt_of_inRange (h : InRange tuple spare i) : sliceAt (tuple++spare)
    (columnOffset tuple i) (columnEnd tuple i) =
      .ok (slice (tuple++spare) (columnOffset tuple i) (columnEnd tuple i)) := if_pos h

theorem sliceAt_of_not_inRange (h : ¬ InRange tuple spare i) :
    sliceAt (tuple++spare) (columnOffset tuple i) (columnEnd tuple i) = .error .panic := if_neg h

theorem uintAt_header (spare : List UInt8) (h : lo+k ≤ tuple.length) :
    uintAt (tuple++spare) lo k = .ok (ofBytes (slice tuple lo (lo+k))) := by
  rw [uintAt_eq (by rw [length_append]; omega),slice_append_left h]

theorem readColumns_ne_panic_iff (spare : List UInt8) (h : 18+columnCount tuple*2 ≤ tuple.length)
    (hk : i+k = columnCount tuple) :
    readColumns (J := J) (tuple++spare) tuple.length (columnCount tuple) i k ≠ .error .panic ↔
      ∀ j, i ≤ j → j < columnCount tuple → (∀ l, i ≤ l → l < j → Decodes J tuple spare l) →
      InRange tuple spare j := by
  induction k generalizing i with
  | zero => refine ⟨fun _ j hj hlt => absurd hlt (by omega),fun _ => by simp [readColumns]⟩
  | succ k ih =>
    have hend : (if i+1 < columnCount tuple then uintAt (tuple++spare) (18+(i+1)*2) 2 else .ok (tuple.length%2^16)) =
        .ok (columnEnd tuple i) := by
      rw [columnEnd]
      split
      · exact uintAt_header spare (by omega)
      · rfl
    rw [readColumns,uintAt_header spare (by omega),Except.bind,hend,Except.bind]
    change ((sliceAt (tuple++spare) (columnOffset tuple i) (columnEnd tuple i)).bind _) ≠ _ ↔ _
    by_cases hr : InRange tuple spare i
    · rw [sliceAt_of_inRange hr,Except.bind]
      cases hd : decodeColumnValue (J := J) (slice (tuple++spare) (columnOffset tuple i) (columnEnd tuple i)) with
      | error f =>
        have hf : Fault.inColumn i f ≠ .panic := by
          cases f with
          | error e => simp [Fault.inColumn]
          | panic => exact absurd hd (decodeColumnValue_ne_panic _)
        constructor
        · intro _ j hj hlt hprev
          rcases Nat.eq_or_lt_of_le hj with rfl | hj
          · exact hr
          · obtain ⟨v,hv⟩ := hprev i (Nat.le_refl i) hj
            rw [hd] at hv
            cases hv
        · intro _
          simpa [Except.mapError,Except.bind] using hf
      | ok v =>
        have hrest := ih (i := i+1) (by omega)
        have hmap : ((readColumns (tuple++spare) tuple.length (columnCount tuple) (i+1) k).map fun row => v :: row) ≠
            .error .panic ↔ readColumns (J := J) (tuple++spare) tuple.length (columnCount tuple)
              (i+1) k ≠ .error .panic := by
          cases readColumns (J := J) (tuple++spare) tuple.length (columnCount tuple) (i+1) k <;> simp [Except.map]
        rw [Except.mapError,Except.bind,hmap,hrest]
        constructor
        · intro hall j hj hlt hprev
          rcases Nat.eq_or_lt_of_le hj with rfl | hj
          · exact hr
          · exact hall j hj hlt fun l hl => hprev l (by omega)
        · intro hall j hj hlt hprev
          refine hall j (by omega) hlt fun l hl hlj => ?_
          rcases Nat.eq_or_lt_of_le hl with rfl | hl
          · exact ⟨v,hd⟩
          · exact hprev l hl hlj
    · constructor
      · intro hne
        exact absurd (by rw [sliceAt_of_not_inRange hr]; rfl) hne
      · intro hall
        exact absurd (hall i (Nat.le_refl i) (by omega) fun l hl hlt => absurd hlt (by omega)) hr

/-- `DecodeRow` panics unless the bounds of every column that is reached are in order and within the
capacity. -/
theorem decodeRow_ne_panic_iff (tuple spare : List UInt8) :
    decodeRow (J := J) tuple spare ≠ .error .panic ↔
      tuple.length < 18+columnCount tuple*2 ∨
        ∀ i < columnCount tuple, (∀ j < i, Decodes J tuple spare j) → InRange tuple spare i := by
  by_cases hshort : tuple.length < 18
  · refine ⟨fun _ => .inl (by omega),fun _ => ?_⟩
    rw [decodeRow,if_pos hshort]
    simp
  · rw [decodeRow,if_neg hshort,uintAt_header spare (by omega),Except.bind,
      uintAt_header spare (by omega),Except.bind,
      uintAt_header spare (by omega),Except.bind]
    change (if tuple.length < 18+columnCount tuple*2 then _ else _) ≠ _ ↔ _
    by_cases hheader : tuple.length < 18+columnCount tuple*2
    · rw [if_pos hheader]
      exact ⟨fun _ => .inl hheader,fun _ => by simp⟩
    · have hcols := readColumns_ne_panic_iff (J := J) spare (Nat.le_of_not_lt hheader) (Nat.zero_add _)
      simp only [Nat.zero_le,true_implies] at hcols
      rw [if_neg hheader,or_iff_right hheader,← hcols]
      change (Except.map _ (readColumns _ _ (columnCount tuple) 0 (columnCount tuple)) ≠ _ ↔ _)
      cases readColumns (J := J) (tuple++spare) tuple.length (columnCount tuple) 0
        (columnCount tuple) <;> simp [Except.map]

/-- One column that starts behind the end of the tuple. -/
theorem decodeRow_offset_panics :
    decodeRow (J := emptyObject) [0, 0, 0, 0, 0, 0, 0, 0, 0, 0, 0, 0, 0, 0, 0, 0, 1, 0, 30, 0] [] =
    .error .panic := by
  rfl
end
end VaultDB.Storage.RowCodec
