import VaultDB.Sql.Vm
import VaultDB.Storage.Statements
set_option autoImplicit false

/-!
The values of a row, after `normalize.go` and `binary_encoding.go`.

Texts, floats, JSON objects and vectors are given by how their bytes are read and written.
-/

namespace VaultDB.Storage
open Lib Sql.Vm List
variable {bytes : List UInt8} {i : Nat}
abbrev Value := VaultDB.Sql.Value

/-- The parts of the format that are left to Go's library. -/
structure Codec (fl : Sql.Float64) where
  utf8 : String → List UInt8
  text : List UInt8 → String
  bits : fl.F → Nat
  objectBytes : String → Except String (List UInt8)
  objectOf : List UInt8 → Option Value
  asVector : String → Option String
  jsonObject : String → Option String

def nullMarker : UInt8 := 0xFF
def tag (c : Char) : UInt8 := UInt8.ofNat c.toNat

variable {row : List Value}
section
variable {fl : Sql.Float64} (C : Codec fl)
def encodeColumnValue : Value → Except String (List UInt8)
  | .null => .ok [nullMarker]
  | .int n => .ok (tag 'i' :: toBytes 8 (n%2^64).toNat)
  | .float r =>
    match fl.parse r with
    | some x => .ok (tag 'f' :: toBytes 8 (C.bits x))
    | none => .error "unsupported value type for binary encoding"
  | .bool b => .ok [tag 'b',if b then 1 else 0]
  | .text s =>
    if 65535 < (C.utf8 s).length then
      .error ("string too long for binary encoding: "++toString (C.utf8 s).length++" bytes (max 65535)")
    else .ok (tag 's' :: (toBytes 2 (C.utf8 s).length++C.utf8 s))
  | .object r => C.objectBytes r

def encodeColumns : Nat → List Value → Except String (List (List UInt8))
  | _, [] => .ok []
  | i, v :: vs =>
    match encodeColumnValue C v with
    | .error e => .error ("column "++toString i++": "++e)
    | .ok bytes => (encodeColumns (i+1) vs).map (bytes :: ·)

def offsets (start : Nat) : List Nat → List Nat
  | [] => []
  | n :: ns => start :: offsets (start+n) ns

def encodeRow (row : List Value) : Except String (List UInt8) :=
  if row = [] then .error "encodeBinaryTuple: empty row"
  else
    match encodeColumns C 0 row with
    | .error e => .error e
    | .ok cols =>
      let headerSize := 18+2*row.length
      let totalSize := headerSize+(cols.map List.length).sum
      if 65535 < totalSize then .error ("tuple too large: "++toString totalSize++" bytes")
      else .ok (toBytes 2 row.length++((offsets headerSize (cols.map List.length)).flatMap
        (toBytes 2)++cols.flatten))

def decodeColumnValue : List UInt8 → Option Value
  | [] => some .null
  | t :: bytes =>
    if t = nullMarker then some .null
    else if t = tag 'i' then if bytes.length < 8 then none else some (.int (wrap64 (ofBytes (bytes.take 8))))
    else if t = tag 'f' then
      if bytes.length < 8 then none else some (.float (fl.print (fl.ofBits (ofBytes (bytes.take 8)))))
    else if t = tag 'b' then bytes.head?.map fun b => .bool (b == 1)
    else if t = tag 's' then
      match uint16At bytes 0 with
      | none => none
      | some n => if bytes.length < 2+n then none else some (.text (C.text (slice bytes 2 (2+n))))
    else if t = tag 'j' ∨ t = tag 'v' then C.objectOf (t :: bytes)
    else none

def columnBytes (raw : List UInt8) (n i : Nat) : Option (List UInt8) :=
  match uint16At raw (18+2*i), if i+1 < n then uint16At raw (18+2*(i+1)) else some (raw.length%2^16) with
  | some a, some b => if a ≤ b ∧ b ≤ raw.length then some (slice raw a b) else none
  | _, _ => none

def decodeTuple (raw : List UInt8) : Option (List Value) :=
  (uint16At raw 16).bind fun n =>
    if raw.length < 18+2*n then none
    else (List.range n).mapM fun i => (columnBytes raw n i).bind (decodeColumnValue C)
end

/-- The tuple, with nothing in its transaction words: no column starts that early. -/
def rawTuple (data : List UInt8) : List UInt8 := List.replicate 16 0++data

section
variable {fl : Sql.Float64} (C : Codec fl)
def toInt64 (fl : Sql.Float64) : Value → Option Int
  | .int n => some n
  | .float r => (fl.parse r).bind fun x => if fl.isWhole x then some (fl.trunc x) else none
  | _ => none

def toFloat64 (fl : Sql.Float64) : Value → Option String
  | .int n => some (fl.print (fl.ofInt n))
  | .float r => some r
  | _ => none

def expected (type : String) (v : Value) : String := "expected "++type++", got "++v.goType

def normalizeText (v : Value) (col : ColumnSchema) : Except String Value :=
  match v with
  | .text s =>
    if col.type = "VARCHAR" ∧ 0 < col.varcharLen ∧ col.varcharLen < s.length then
      .error ("VARCHAR("++toString col.varcharLen++") overflow")
    else .ok (.text s)
  | v => .error (expected col.type v)

def normalizeValue (v : Value) (col : ColumnSchema) : Except String Value :=
  if v = .null then .ok .null
  else if col.type = "INT" then
    match toInt64 fl v with
    | some n => .ok (.int n)
    | none => .error (expected "INT" v)
  else if col.type = "FLOAT" then
    match toFloat64 fl v with
    | some r => .ok (.float r)
    | none => .error (expected "FLOAT" v)
  else if col.type = "BOOL" then
    match v with
    | .bool b => .ok (.bool b)
    | v => .error (expected "BOOL" v)
  else if col.type = "TEXT" ∨ col.type = "VARCHAR" ∨ col.type = "BLOB" then normalizeText v col
  else if col.type = "VECTOR" then
    match v with
    | .object r =>
      match C.asVector r with
      | some r' => .ok (.object r')
      | none => .error (expected "VECTOR ([]float64)" v)
    | v => .error (expected "VECTOR ([]float64)" v)
  else if col.type = "FLEXIBLE" then
    match v with
    | .text s => .ok (((C.jsonObject s).map .object).getD (.text s))
    | v => .ok v
  else if col.type = "DATE" ∨ col.type = "TIME" ∨ col.type = "TIMESTAMP" ∨ col.type = "DECIMAL" ∨
    col.type = "JSONB" ∨
      col.type = "JSON" then .ok (.text v.printed)
  else .error ("unsupported column type '"++col.type++"'")
end

structure Codec.Lawful {fl : Sql.Float64} (C : Codec fl) : Prop where
  text_utf8 : ∀ s, C.text (C.utf8 s) = s
  bits_lt : ∀ x, C.bits x < 256^8
  ofBits_bits : ∀ x, fl.ofBits (C.bits x) = x
  parse_print : ∀ x, fl.parse (fl.print x) = some x
  object_tag : ∀ {r bytes}, C.objectBytes r = .ok bytes → ∃ rest, bytes = tag 'j' :: rest ∨ bytes = tag 'v' :: rest
  objectOf : ∀ {r bytes}, C.objectBytes r = .ok bytes → C.objectOf bytes = some (.object r)

def Storable (fl : Sql.Float64) : Value → Prop
  | .int n => wrap64 n = n
  | .float r => ∃ x, r = fl.print x
  | _ => True

section
variable {fl : Sql.Float64} {C : Codec fl} {ns : List Nat} {data : List UInt8}
theorem wrap64_emod (n : Int) : wrap64 ((n%2^64).toNat : Int) = wrap64 n := by
  have h : ((n%2^64).toNat : Int) = n%2^64 := Int.toNat_of_nonneg (Int.emod_nonneg n (by decide))
  rw [h,wrap64,wrap64]
  exact_mod_cast @Int.emod_bmod n (2^64)

theorem decode_int {n : Int} (h : wrap64 n = n) :
    decodeColumnValue C (tag 'i' :: toBytes 8 (n%2^64).toNat) = some (.int n) := by
  have hlt : (n%2^64).toNat < 256^8 := by
    have := Int.emod_lt_of_pos n (show (0 : Int) < 2^64 by decide)
    omega
  have hbytes : ofBytes ((toBytes 8 (n%2^64).toNat).take 8) = (n%2^64).toNat := by
    rw [take_of_length_le (by simp),ofBytes_toBytes,Nat.mod_eq_of_lt hlt]
  simp only [decodeColumnValue,hbytes,wrap64_emod,h]
  simp [tag,nullMarker]

theorem decode_encodeColumnValue (hC : C.Lawful) {v : Value} (hv : Storable fl v)
    (h : encodeColumnValue C v = .ok bytes) :
    decodeColumnValue C bytes = some v ∧ bytes ≠ [] ∧ (bytes.head? = some nullMarker ↔ v = .null) := by
  cases v with
  | null =>
    cases h
    exact ⟨rfl,by simp,by simp⟩
  | int n =>
    cases h
    exact ⟨decode_int hv,by simp,by simp [tag,nullMarker]⟩
  | float r =>
    obtain ⟨x,rfl⟩ := hv
    simp only [encodeColumnValue,hC.parse_print] at h
    cases h
    refine ⟨?_,by simp,by simp [tag,nullMarker]⟩
    have hbytes : ofBytes ((toBytes 8 (C.bits x)).take 8) = C.bits x := by
      rw [take_of_length_le (by simp),ofBytes_toBytes,Nat.mod_eq_of_lt (hC.bits_lt x)]
    simp only [decodeColumnValue,hbytes,hC.ofBits_bits]
    simp [tag,nullMarker]
  | bool b =>
    cases h
    refine ⟨?_,by simp,by simp [tag,nullMarker]⟩
    cases b <;> simp [decodeColumnValue,tag,nullMarker]
  | text s =>
    simp only [encodeColumnValue] at h
    split at h
    · cases h
    · next hlen =>
      cases h
      refine ⟨?_,by simp,by simp [tag,nullMarker]⟩
      have hn : uint16At (toBytes 2 (C.utf8 s).length++C.utf8 s) 0 = some (C.utf8 s).length :=
        uint16At_toBytes (by omega) _
      have hslice : slice (toBytes 2 (C.utf8 s).length++C.utf8 s) 2 (2+(C.utf8 s).length) = C.utf8 s := by
        have := slice_append (C.utf8 s) (length_toBytes 2 (C.utf8 s).length) 0 (C.utf8 s).length
        simpa [slice] using this
      simp only [decodeColumnValue,hn,hslice,hC.text_utf8]
      simp [tag,nullMarker]
  | object r =>
    have hof := hC.objectOf h
    obtain ⟨rest,rfl | rfl⟩ := hC.object_tag h <;>
      exact ⟨by simpa [decodeColumnValue,tag,nullMarker] using hof,by simp,by simp [tag,nullMarker]⟩

@[simp] theorem length_offsets (start : Nat) (ns : List Nat) : (offsets start ns).length = ns.length := by
  induction ns generalizing start with
  | nil => rfl
  | cons n ns ih => simp [offsets,ih]

theorem getElem_offsets (start : Nat) (h : i < (offsets start ns).length) : (offsets start ns)[i] =
    start+(ns.take i).sum := by
  induction ns generalizing start i with
  | nil => simp at h
  | cons n ns ih =>
    cases i with
    | zero => simp [offsets]
    | succ i =>
      have := ih (start+n) (i := i) (by simpa using h)
      simp only [offsets,getElem_cons_succ,this,take_succ_cons,sum_cons]
      omega

theorem mem_offsets_le {start m : Nat} (h : m ∈ offsets start ns) : start ≤ m ∧ m ≤ start+ns.sum := by
  induction ns generalizing start with
  | nil => simp [offsets] at h
  | cons n ns ih =>
    rw [sum_cons]
    rcases mem_cons.1 h with rfl | h
    · omega
    · have := ih h
      omega

theorem encodeColumns_ok {cols : List (List UInt8)} (h : encodeColumns C i row = .ok cols) :
    cols.length = row.length ∧ ∀ (j : Nat) v, row[j]? = some v → ∃ bytes, cols[j]? = some bytes ∧
    encodeColumnValue C v = .ok bytes := by
  induction row generalizing i cols with
  | nil =>
    cases h
    simp
  | cons v row ih =>
    simp only [encodeColumns] at h
    cases hv : encodeColumnValue C v with
    | error e => simp [hv] at h
    | ok bytes =>
      rw [hv] at h
      obtain ⟨rest,hrest,rfl⟩ := Sql.map_eq_ok h
      obtain ⟨hlen,hcols⟩ := ih hrest
      refine ⟨by simp [hlen],fun j w hj => ?_⟩
      cases j with
      | zero =>
        cases hj
        exact ⟨bytes,rfl,hv⟩
      | succ j => simpa using hcols j w (by simpa using hj)

def layout (cols : List (List UInt8)) : List UInt8 :=
  toBytes 2 cols.length++ ((offsets (18+2*cols.length) (cols.map List.length)).flatMap (toBytes 2)++cols.flatten)

theorem length_flatMap_toBytes (ns : List Nat) : (ns.flatMap (toBytes 2)).length = 2*ns.length := by
  induction ns with
  | nil => rfl
  | cons n ns ih =>
    simp only [flatMap_cons,length_append,length_toBytes,length_cons,ih]
    omega

theorem length_rawTuple_layout (cols : List (List UInt8)) :
    (rawTuple (layout cols)).length = 18+2*cols.length+(cols.map List.length).sum := by
  simp only [rawTuple,layout,length_append,length_replicate,length_toBytes,length_flatMap_toBytes,
    length_offsets,length_map,length_flatten]
  omega

theorem mapM_range_eq_some {α : Type} {f : Nat → Option α} {n : Nat} {xs : List α} :
    (List.range n).mapM f = some xs ↔ xs.length = n ∧ ∀ i < n, f i = xs[i]? := by
  induction n generalizing xs with
  | zero => simp [eq_comm]
  | succ n ih =>
    rw [range_succ,mapM_append]
    constructor
    · intro h
      obtain ⟨ys,hys,h⟩ := Option.bind_eq_some_iff.1 h
      obtain ⟨zs,hzs,h⟩ := Option.bind_eq_some_iff.1 h
      cases h
      obtain ⟨z,hz,rfl⟩ : ∃ z, f n = some z ∧ zs = [z] := by
        cases hf : f n with
        | none => simp [hf] at hzs
        | some z => exact ⟨z,rfl,by simpa [hf,eq_comm] using hzs⟩
      obtain ⟨hlen,hys⟩ := ih.1 hys
      refine ⟨by simp [hlen],fun i hi => ?_⟩
      rcases Nat.lt_succ_iff_lt_or_eq.1 hi with hi | rfl
      · rw [hys i hi,getElem?_append_left (by omega)]
      · simp [hz,hlen]
    · rintro ⟨hlen,hxs⟩
      have hlast : f n = xs[n]? := hxs n (Nat.lt_succ_self n)
      have hys : (range n).mapM f = some (xs.take n) := by
        refine ih.2 ⟨by simp [hlen],fun i hi => ?_⟩
        rw [hxs i (by omega),getElem?_take_of_lt hi]
      have hlt : n < xs.length := by omega
      have hn : xs[n]? = some xs[n] := getElem?_eq_getElem hlt
      have happ : xs.take n++[xs[n]] = xs := by rw [take_append_getElem,take_of_length_le (by omega)]
      rw [hys]
      simp [mapM_cons,hlast,hn,happ]

section
variable {cols : List (List UInt8)} (hsize : 18+2*cols.length+(cols.map List.length).sum ≤ 65535)
include hsize
theorem uint16At_count : uint16At (rawTuple (layout cols)) 16 = some cols.length := by
  have := uint16At_append (layout cols) (length_replicate : (replicate 16 (0 : UInt8)).length = 16) 0
  rw [rawTuple,this,layout,uint16At_toBytes (by omega)]

theorem uint16At_offset (hi : i < cols.length) :
    uint16At (rawTuple (layout cols)) (18+2*i) = some (18+2*cols.length+((cols.map List.length).take i).sum) := by
  have hlt : ∀ n ∈ offsets (18+2*cols.length) (cols.map length), n < 2^16 := by
    intro n hn
    have := (mem_offsets_le hn).2
    omega
  have hpre : (replicate 16 (0 : UInt8)++toBytes 2 cols.length).length = 18 := by simp
  have := uint16At_append ((offsets (18+2*cols.length) (cols.map length)).flatMap
    (toBytes 2)++cols.flatten) hpre (2*i)
  rw [rawTuple,layout,← append_assoc,this,uint16At_table hlt _ (by simpa using hi),getElem_offsets]

theorem columnBytes_layout (hi : i < cols.length) :
    columnBytes (rawTuple (layout cols)) cols.length i = some cols[i] := by
  have hlen := length_rawTuple_layout cols
  have hstart := uint16At_offset hsize hi
  have htotal : ∀ j, ((cols.map length).take j).sum ≤ (cols.map length).sum := by
    intro j
    have := sum_take_add_sum_drop (cols.map length) j
    omega
  have hstep : ((cols.map length).take (i+1)).sum = ((cols.map length).take i).sum+cols[i].length := by
    rw [sum_take_succ _ _ (by simpa using hi),getElem_map]
  have hend : (if i+1 < cols.length then uint16At (rawTuple (layout cols)) (18+2*(i+1))
      else some ((rawTuple (layout cols)).length%2^16)) =
      some (18+2*cols.length+((cols.map length).take (i+1)).sum) := by
    split
    · next h => exact uint16At_offset hsize h
    · next h =>
      rw [hlen,take_of_length_le (by simp; omega)]
      congr 1
      omega
  have hslice : slice (rawTuple (layout cols)) (18+2*cols.length+((cols.map length).take i).sum)
      (18+2*cols.length+((cols.map length).take (i+1)).sum) = cols[i] := by
    have hpre : (replicate 16 (0 : UInt8)++(toBytes 2 cols.length++
        (offsets (18+2*cols.length) (cols.map length)).flatMap (toBytes 2))).length = 18+2*cols.length := by
      simp only [length_append,length_replicate,length_toBytes,length_flatMap_toBytes,length_offsets,length_map]
      omega
    have := slice_append cols.flatten hpre ((cols.map length).take i).sum ((cols.map length).take (i+1)).sum
    rw [slice_flatten cols hi] at this
    rw [← this,rawTuple,layout]
    simp only [append_assoc]
  have := htotal (i+1)
  simp only [columnBytes,hstart,hend,hslice]
  rw [if_pos (by omega)]

theorem decodeTuple_layout : decodeTuple C (rawTuple (layout cols)) = some row ↔
    row.length = cols.length ∧ ∀ (i : Nat) bytes, cols[i]? = some bytes → decodeColumnValue C bytes = row[i]? := by
  have hlong : ¬ (rawTuple (layout cols)).length < 18+2*cols.length := by
    rw [length_rawTuple_layout]
    omega
  rw [decodeTuple,uint16At_count hsize,Option.bind_some,if_neg hlong,mapM_range_eq_some]
  refine and_congr_right fun _ => ⟨fun h i bytes hi => ?_,fun h i hi => ?_⟩
  · obtain ⟨hlt,rfl⟩ := List.getElem?_eq_some_iff.1 hi
    have := h i hlt
    rwa [columnBytes_layout hsize hlt,Option.bind_some] at this
  · rw [columnBytes_layout hsize hi,Option.bind_some]
    exact h i _ (getElem?_eq_getElem hi)
end

theorem encodeRow_ok (h : encodeRow C row = .ok data) :
    ∃ cols, data = layout cols ∧ 18+2*cols.length+(cols.map List.length).sum ≤ 65535 ∧ cols.length = row.length ∧
      ∀ (i : Nat) v, row[i]? = some v → ∃ bytes, cols[i]? = some bytes ∧ encodeColumnValue C v = .ok bytes := by
  unfold encodeRow at h
  split at h
  · cases h
  cases hc : encodeColumns C 0 row with
  | error e => simp [hc] at h
  | ok cols =>
    obtain ⟨hlen,hcols⟩ := encodeColumns_ok hc
    simp only [hc] at h
    split at h
    · cases h
    next hsize =>
    rw [← hlen] at h hsize
    exact ⟨cols,(Except.ok.inj h).symm,by omega,hlen,hcols⟩

theorem getElem?_decodeTuple {row' : List Value} (h : encodeRow C row = .ok data)
    (hrow' : decodeTuple C (rawTuple data) = some row') {v' : Value} (hv' : row'[i]? = some v') :
    ∃ v bytes, row[i]? = some v ∧ encodeColumnValue C v = .ok bytes ∧ decodeColumnValue C bytes = some v' := by
  obtain ⟨cols,rfl,hsize,hlen,hcols⟩ := encodeRow_ok h
  obtain ⟨hlen',hdecode⟩ := (decodeTuple_layout hsize).1 hrow'
  have hlt : i < row.length := by
    have := (List.getElem?_eq_some_iff.1 hv').1
    omega
  obtain ⟨bytes,hbytes,henc⟩ := hcols i _ (getElem?_eq_getElem hlt)
  exact ⟨_,bytes,getElem?_eq_getElem hlt,henc,(hdecode i bytes hbytes).trans hv'⟩
end

/-- The bytes do not start with the marker of NULL or the tag of an object. -/
def Legible (bytes : List UInt8) : Prop := ∀ t ∈ bytes.head?, t ≠ nullMarker ∧ t ≠ tag 'j' ∧ t ≠ tag 'v'
def LegibleAt (raw : List UInt8) (i : Nat) : Prop :=
  ∀ n ∈ uint16At raw 16, ∀ bytes ∈ columnBytes raw n i, Legible bytes

section
variable {fl : Sql.Float64} {C : Codec fl} {raw : List UInt8}
theorem toNat_eq_iff_tag {t : UInt8} {c : Char} (hc : c.toNat < 256) : t.toNat = c.toNat ↔ t = tag c := by
  rw [← UInt8.toNat_inj,tag,UInt8.toNat_ofNat',Nat.mod_eq_of_lt hc]

theorem loadTagged_illegible (h : ¬Legible bytes) : ∃ e, loadTagged fl C.text bytes = .error e := by
  cases bytes with
  | nil => simp [Legible] at h
  | cons t bytes =>
    have ht : t = nullMarker ∨ t = tag 'j' ∨ t = tag 'v' := by
      simp only [Legible,head?_cons,Option.mem_some_iff,forall_eq'] at h
      by_contra hne
      exact h ⟨fun h1 => hne (.inl h1),fun h1 => hne (.inr (.inl h1)),fun h1 => hne (.inr (.inr h1))⟩
    rcases ht with rfl | rfl | rfl <;> exact ⟨_,rfl⟩

theorem loadTagged_legible (hprint : ∀ x, fl.parse (fl.print x) = some x) {v : Value}
    (h : decodeColumnValue C bytes = some v) (hl : Legible bytes) : loadTagged fl C.text bytes = loadValue fl v := by
  cases bytes with
  | nil =>
    cases h
    rfl
  | cons t bytes =>
    obtain ⟨hnull,hj,hv⟩ := hl t rfl
    have htags := fun c hc => @toNat_eq_iff_tag t c hc
    have hzero : t.toNat ≠ 0 := by
      intro h0
      obtain rfl : t = 0 := UInt8.toNat_inj.1 h0
      simp [decodeColumnValue,nullMarker,tag] at h
    simp only [decodeColumnValue,hnull,hj,hv,if_false,or_self] at h
    simp only [loadTagged,hzero,if_false,htags 'i' (by decide),htags 'f' (by decide),htags 'b' (by decide),
      htags 's' (by decide)]
    by_cases hi : t = tag 'i'
    · rw [if_pos hi] at h ⊢
      split at h
      · cases h
      · next hlen =>
        cases h
        rw [if_neg hlen]
        rfl
    rw [if_neg hi] at h ⊢
    by_cases hf : t = tag 'f'
    · rw [if_pos hf] at h ⊢
      split at h
      · cases h
      · next hlen =>
        cases h
        rw [if_neg hlen]
        simp only [loadValue,hprint]
    rw [if_neg hf] at h ⊢
    by_cases hb : t = tag 'b'
    · rw [if_pos hb] at h ⊢
      cases bytes with
      | nil => cases h
      | cons b bytes =>
        cases h
        have hone : (b.toNat == 1) = (b == 1) := by
          rw [Bool.eq_iff_iff,beq_iff_eq,beq_iff_eq,← UInt8.toNat_inj]
          rfl
        simp only [loadValue,hone]
    rw [if_neg hb] at h ⊢
    by_cases hs : t = tag 's'
    · rw [if_pos hs] at h ⊢
      cases hn : uint16At bytes 0 with
      | none => simp [hn] at h
      | some n =>
        simp only [hn] at h ⊢
        split at h
        · cases h
        · next hlen =>
          cases h
          rw [if_neg hlen]
          rfl
    simp [hs] at h

theorem loadRaw_of_columnBytes {n : Nat} (hn : uint16At raw 16 = some n) (hi : i < n)
    (h : columnBytes raw n i = some bytes) : loadRaw fl C.text raw i = loadTagged fl C.text bytes := by
  unfold columnBytes at h
  simp only [loadRaw,hn]
  rw [if_neg (by omega)]
  cases ha : uint16At raw (18+2*i) with
  | none => simp [ha] at h
  | some a =>
    cases hb : (if i+1 < n then uint16At raw (18+2*(i+1)) else some (raw.length%2^16)) with
    | none =>
      simp only [ha,hb] at h
      cases h
    | some b =>
      simp only [ha,hb] at h ⊢
      split at h
      · cases h
        rw [if_neg (by omega)]
      · cases h

theorem loadRaw_of_decodeTuple (hprint : ∀ x, fl.parse (fl.print x) = some x)
    (h : decodeTuple C raw = some row) (i : Nat) : (LegibleAt raw i → loadRaw fl C.text raw i = loadRow fl row i) ∧
      (¬LegibleAt raw i → ∃ e, loadRaw fl C.text raw i = .error e) := by
  obtain ⟨n,hn,h⟩ := Option.bind_eq_some_iff.1 h
  split at h
  · cases h
  obtain ⟨hlen,hcols⟩ := mapM_range_eq_some.1 h
  rcases Nat.lt_or_ge i n with hi | hi
  · have hcol := hcols i hi
    rw [getElem?_eq_getElem (by omega)] at hcol
    obtain ⟨bytes,hbytes,hdec⟩ := Option.bind_eq_some_iff.1 hcol
    have hat : LegibleAt raw i ↔ Legible bytes := by simp [LegibleAt,hn,hbytes]
    have hrow : loadRow fl row i = loadValue fl row[i] := by simp [loadRow,getElem?_eq_getElem (hlen ▸ hi)]
    rw [hat,loadRaw_of_columnBytes hn hi hbytes,hrow]
    exact ⟨loadTagged_legible hprint hdec,loadTagged_illegible⟩
  · have hraw : loadRaw fl C.text raw i = .error "column index out of range" := by simp [loadRaw,hn,hi]
    have hrow : loadRow fl row i = .error "column index out of range" := by simp [loadRow,hlen,hi]
    rw [hraw,hrow]
    exact ⟨fun _ => rfl,fun _ => ⟨_,rfl⟩⟩

theorem executeVMRaw_iff (hprint : ∀ x, fl.parse (fl.print x) = some x) {code : List (OpCode fl.F)}
    (hret : .ret ∉ code)
    (h : decodeTuple C raw = some row) : executeVMRaw fl C.text code raw = .ok true ↔
      (∀ i, .loadColumn i ∈ code → LegibleAt raw i) ∧ executeVM fl code row = .ok (.bool true) := by
  have hbool : ∀ load : Nat → Except String (Sql.Vm.Value fl.F),
      executeBool load code = .ok true ↔ execute load code = .ok (.bool true) := by
    intro load
    unfold executeBool execute
    cases run load code [] with
    | error x => simp [Except.map]
    | ok stack =>
      cases stack with
      | nil => simp [Except.map]
      | cons v stack => cases v <;> simp [Except.map,Value.boolField]
  rw [executeVMRaw,executeVM,hbool]
  constructor
  · intro hrun
    have hlegible : ∀ i, .loadColumn i ∈ code → LegibleAt raw i := by
      intro i hi
      obtain ⟨stack,hstack,-⟩ := Sql.map_eq_ok hrun
      obtain ⟨v,hv⟩ := load_of_run hret hstack hi
      by_contra hne
      obtain ⟨e,he⟩ := (loadRaw_of_decodeTuple hprint h i).2 hne
      simp [hv] at he
    refine ⟨hlegible,?_⟩
    rw [← hrun,execute,execute,run_congr fun i hi => (loadRaw_of_decodeTuple hprint h i).1 (hlegible i hi)]
  · rintro ⟨hlegible,hrun⟩
    rw [← hrun,execute,execute,run_congr fun i hi => (loadRaw_of_decodeTuple hprint h i).1 (hlegible i hi)]
end

section
variable {fl : Sql.Float64} (C : Codec fl) (toLower : String → String)
def sqlRows : RowOps Value where
  null := .null
  normalizeValue := normalizeValue C
  encodeRow := encodeRow C
  decodeRow _ data := decodeTuple C (rawTuple data)
  deepEqual v w := v == w
  sprint := Sql.Value.printed
  toLower := toLower
end
end VaultDB.Storage
