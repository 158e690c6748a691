import VaultDB.Lib.Bytes
set_option autoImplicit false

/-!
The payloads of log records and their encoding, after `wal.go`.  Go strings are their bytes.
-/

namespace VaultDB.WalFile
open Lib List

def opPageInsert : UInt8 := 0x20
def opPageDelete : UInt8 := 0x21
def opPageUpdateXMax : UInt8 := 0x22
def opVacuumBegin : UInt8 := 0x30
def opVacuumCommit : UInt8 := 0x31
def opAbort : UInt8 := 0x40
def opCommit : UInt8 := 0x50
def opSchemaWrite : UInt8 := 0x60
def opRewriteBegin : UInt8 := 0x61
def opRewriteData : UInt8 := 0x62
def opRewriteCommit : UInt8 := 0x63
def opTruncateTable : UInt8 := 0x64
def opFullPageImage : UInt8 := 0x70
def opCheckpoint : UInt8 := 0xF0

structure PageInsert where
  db : List UInt8
  table : List UInt8
  segmentNo : BitVec 16
  pageNo : BitVec 32
  slotNo : BitVec 16
  xid : BitVec 64
  tupleData : List UInt8
  deriving DecidableEq, Repr

structure PageDelete where
  db : List UInt8
  table : List UInt8
  segmentNo : BitVec 16
  pageNo : BitVec 32
  slotNo : BitVec 16
  xmax : BitVec 64
  deriving DecidableEq, Repr

structure SchemaWrite where
  db : List UInt8
  table : List UInt8
  schema : List UInt8
  deriving DecidableEq, Repr

structure Vacuum where
  db : List UInt8
  table : List UInt8
  shadowPath : List UInt8
  deriving DecidableEq, Repr

structure TableName where
  db : List UInt8
  table : List UInt8
  deriving DecidableEq, Repr

structure FullPageImage where
  db : List UInt8
  table : List UInt8
  segmentNo : BitVec 16
  pageNo : BitVec 32
  pageData : List UInt8
  deriving DecidableEq, Repr

inductive Payload (V : Type) where
  | pageInsert (p : PageInsert)
  | pageDelete (p : PageDelete)
  | schemaWrite (p : SchemaWrite)
  | vacuum (p : Vacuum)
  | rewrite (p : TableName)
  | truncateTable (p : TableName)
  | checkpoint (lsn : BitVec 64)
  | commit (timestamp : BitVec 64)
  | fullPageImage (p : FullPageImage)
  | other (v : V)
  deriving DecidableEq, Repr

structure Json (V : Type) where
  marshal : V → Except String (List UInt8)
  pageInsert : List UInt8 → Except String PageInsert
  pageDelete : List UInt8 → Except String PageDelete
  schemaWrite : List UInt8 → Except String SchemaWrite
  vacuum : List UInt8 → Except String Vacuum
  rewrite : List UInt8 → Except String TableName
  truncateTable : List UInt8 → Except String TableName
  checkpoint : List UInt8 → Except String (BitVec 64)
  commit : List UInt8 → Except String (BitVec 64)
  fullPageImage : List UInt8 → Except String FullPageImage
  other : List UInt8 → Except String V

def binaryPayloadMarker : UInt8 := 0x01

/-- The length goes into 16 bits, the string is written whole. -/
def writeLPString (s : List UInt8) : List UInt8 := toBytes 2 s.length++s
def writeBytes (b : List UInt8) : List UInt8 := toBytes 4 b.length++b
def writeUint {w : Nat} (n : BitVec w) : List UInt8 := toBytes (w/8) n.toNat

def encodePageInsertBinary (p : PageInsert) : List UInt8 :=
  binaryPayloadMarker :: (writeLPString p.db++(writeLPString p.table++(writeUint p.segmentNo++(writeUint p.pageNo++
    (writeUint p.slotNo++(writeUint p.xid++writeBytes p.tupleData))))))

def encodePageDeleteBinary (p : PageDelete) : List UInt8 :=
  binaryPayloadMarker :: (writeLPString p.db++(writeLPString p.table++(writeUint p.segmentNo++(writeUint p.pageNo++
    (writeUint p.slotNo++writeUint p.xmax)))))

def encodeSchemaWriteBinary (p : SchemaWrite) : List UInt8 :=
  binaryPayloadMarker :: (writeLPString p.db++(writeLPString p.table++writeLPString p.schema))

def encodeVacuumBinary (p : Vacuum) : List UInt8 :=
  binaryPayloadMarker :: (writeLPString p.db++(writeLPString p.table++writeLPString p.shadowPath))

def encodeTableNameBinary (p : TableName) : List UInt8 :=
  binaryPayloadMarker :: (writeLPString p.db++writeLPString p.table)
def encodeRewriteBinary (p : TableName) : List UInt8 := encodeTableNameBinary p
def encodeTruncateTableBinary (p : TableName) : List UInt8 := encodeTableNameBinary p
def encodeWordBinary (n : BitVec 64) : List UInt8 := binaryPayloadMarker :: writeUint n
def encodeCheckpointBinary (lsn : BitVec 64) : List UInt8 := encodeWordBinary lsn
def encodeCommitBinary (timestamp : BitVec 64) : List UInt8 := encodeWordBinary timestamp

def encodeFullPageImageBinary (p : FullPageImage) : List UInt8 :=
  binaryPayloadMarker :: (writeLPString p.db++(writeLPString p.table++(writeUint p.segmentNo++(writeUint p.pageNo++
    writeBytes p.pageData))))

def readUint (w : Nat) (r : List UInt8) : BitVec w × List UInt8 :=
  if r.length < w/8 then (0,[]) else (BitVec.ofNat w (ofBytes (r.take (w/8))),r.drop (w/8))

/-- `io.ReadFull` into a fresh buffer of `n` bytes; its error is dropped. -/
def readFull (n : Nat) (r : List UInt8) : List UInt8 × List UInt8 :=
  (r.take n++List.replicate (n-r.length) 0,r.drop n)

def readCounted (w : Nat) (r : List UInt8) : List UInt8 × List UInt8 :=
  let (l,r) := readUint w r
  if l = 0 then ([],r) else readFull l.toNat r

def readLPString (r : List UInt8) : List UInt8 × List UInt8 := readCounted 16 r

def decodePageInsertBinary (r : List UInt8) : PageInsert :=
  let db := readLPString r
  let table := readLPString db.2
  let segmentNo := readUint 16 table.2
  let pageNo := readUint 32 segmentNo.2
  let slotNo := readUint 16 pageNo.2
  let xid := readUint 64 slotNo.2
  let tupleData := readCounted 32 xid.2
  ⟨db.1,table.1,segmentNo.1,pageNo.1,slotNo.1,xid.1,tupleData.1⟩

def decodePageDeleteBinary (r : List UInt8) : PageDelete :=
  let db := readLPString r
  let table := readLPString db.2
  let segmentNo := readUint 16 table.2
  let pageNo := readUint 32 segmentNo.2
  let slotNo := readUint 16 pageNo.2
  let xmax := readUint 64 slotNo.2
  ⟨db.1,table.1,segmentNo.1,pageNo.1,slotNo.1,xmax.1⟩

def decodeSchemaWriteBinary (r : List UInt8) : SchemaWrite :=
  let db := readLPString r
  let table := readLPString db.2
  let schema := readLPString table.2
  ⟨db.1,table.1,schema.1⟩

def decodeVacuumBinary (r : List UInt8) : Vacuum :=
  let db := readLPString r
  let table := readLPString db.2
  let shadowPath := readLPString table.2
  ⟨db.1,table.1,shadowPath.1⟩

def decodeTableNameBinary (r : List UInt8) : TableName :=
  let db := readLPString r
  let table := readLPString db.2
  ⟨db.1,table.1⟩

def decodeRewriteBinary (r : List UInt8) : TableName := decodeTableNameBinary r
def decodeTruncateTableBinary (r : List UInt8) : TableName := decodeTableNameBinary r
def decodeWordBinary (r : List UInt8) : BitVec 64 := (readUint 64 r).1
def decodeCheckpointBinary (r : List UInt8) : BitVec 64 := decodeWordBinary r
def decodeCommitBinary (r : List UInt8) : BitVec 64 := decodeWordBinary r

def decodeFullPageImageBinary (r : List UInt8) : FullPageImage :=
  let db := readLPString r
  let table := readLPString db.2
  let segmentNo := readUint 16 table.2
  let pageNo := readUint 32 segmentNo.2
  let pageData := readCounted 32 pageNo.2
  ⟨db.1,table.1,segmentNo.1,pageNo.1,pageData.1⟩

section
variable {V : Type} (J : Json V)
def encodeWALPayloadBinary : Payload V → Except String (List UInt8)
  | .pageInsert p => .ok (encodePageInsertBinary p)
  | .pageDelete p => .ok (encodePageDeleteBinary p)
  | .schemaWrite p => .ok (encodeSchemaWriteBinary p)
  | .vacuum p => .ok (encodeVacuumBinary p)
  | .rewrite p => .ok (encodeRewriteBinary p)
  | .truncateTable p => .ok (encodeTruncateTableBinary p)
  | .checkpoint lsn => .ok (encodeCheckpointBinary lsn)
  | .commit timestamp => .ok (encodeCommitBinary timestamp)
  | .fullPageImage p => .ok (encodeFullPageImageBinary p)
  | .other v => J.marshal v

def decodeLegacyJSONPayload (data : List UInt8) (opType : UInt8) : Except String (Payload V) :=
  if opType = opPageInsert then (J.pageInsert data).map .pageInsert
  else if opType = opPageDelete ∨ opType = opPageUpdateXMax then (J.pageDelete data).map .pageDelete
  else if opType = opSchemaWrite then (J.schemaWrite data).map .schemaWrite
  else if opType = opVacuumBegin ∨ opType = opVacuumCommit then (J.vacuum data).map .vacuum
  else if opType = opRewriteBegin ∨ opType = opRewriteCommit ∨ opType =
    opRewriteData then (J.rewrite data).map .rewrite
  else if opType = opTruncateTable then (J.truncateTable data).map .truncateTable
  else if opType = opCheckpoint then (J.checkpoint data).map .checkpoint
  else if opType = opCommit then (J.commit data).map .commit
  else if opType = opFullPageImage then (J.fullPageImage data).map .fullPageImage
  else (J.other data).map .other

def hexDigit (n : Nat) : Char := ("0123456789abcdef".toList)[n]?.getD '0'
def hexByte (b : UInt8) : String := String.ofList [hexDigit (b.toNat/16),hexDigit (b.toNat%16)]

def decodeBinaryPayload (data : List UInt8) (opType : UInt8) : Except String (Payload V) :=
  if opType = opPageInsert then .ok (.pageInsert (decodePageInsertBinary data))
  else if opType = opPageDelete ∨ opType = opPageUpdateXMax then .ok (.pageDelete (decodePageDeleteBinary data))
  else if opType = opSchemaWrite then .ok (.schemaWrite (decodeSchemaWriteBinary data))
  else if opType = opVacuumBegin ∨ opType = opVacuumCommit then .ok (.vacuum (decodeVacuumBinary data))
  else if opType = opRewriteBegin ∨ opType = opRewriteCommit ∨ opType = opRewriteData then
    .ok (.rewrite (decodeRewriteBinary data))
  else if opType = opTruncateTable then .ok (.truncateTable (decodeTruncateTableBinary data))
  else if opType = opCheckpoint then .ok (.checkpoint (decodeCheckpointBinary data))
  else if opType = opCommit then .ok (.commit (decodeCommitBinary data))
  else if opType = opFullPageImage then .ok (.fullPageImage (decodeFullPageImageBinary data))
  else .error ("wal: unknown op type 0x"++hexByte opType++" for binary payload")

/-- No payload at all is `none`. -/
def decodeWALPayload (data : List UInt8) (opType : UInt8) : Except String (Option (Payload V)) :=
  match data with
  | [] => .ok none
  | b :: rest =>
    if b = binaryPayloadMarker then (decodeBinaryPayload rest opType).map some
    else (decodeLegacyJSONPayload J data opType).map some
end

def Payload.LoggedAs {V : Type} (opType : UInt8) : Payload V → Prop
  | .pageInsert _ => opType = opPageInsert
  | .pageDelete _ => opType = opPageDelete ∨ opType = opPageUpdateXMax
  | .schemaWrite _ => opType = opSchemaWrite
  | .vacuum _ => opType = opVacuumBegin ∨ opType = opVacuumCommit
  | .rewrite _ => opType = opRewriteBegin ∨ opType = opRewriteCommit ∨ opType = opRewriteData
  | .truncateTable _ => opType = opTruncateTable
  | .checkpoint _ => opType = opCheckpoint
  | .commit _ => opType = opCommit
  | .fullPageImage _ => opType = opFullPageImage
  | .other _ => False

def Payload.Fits {V : Type} : Payload V → Prop
  | .pageInsert p => p.db.length < 2^16 ∧ p.table.length < 2^16 ∧ p.tupleData.length < 2^32
  | .pageDelete p => p.db.length < 2^16 ∧ p.table.length < 2^16
  | .schemaWrite p => p.db.length < 2^16 ∧ p.table.length < 2^16 ∧ p.schema.length < 2^16
  | .vacuum p => p.db.length < 2^16 ∧ p.table.length < 2^16 ∧ p.shadowPath.length < 2^16
  | .rewrite p => p.db.length < 2^16 ∧ p.table.length < 2^16
  | .truncateTable p => p.db.length < 2^16 ∧ p.table.length < 2^16
  | .checkpoint _ => True
  | .commit _ => True
  | .fullPageImage p => p.db.length < 2^16 ∧ p.table.length < 2^16 ∧ p.pageData.length < 2^32
  | .other _ => True

theorem readUint_write {w : Nat} (hw : 256^(w/8) = 2^w) (n : BitVec w) (r : List UInt8) :
    readUint w (writeUint n++r) = (n,r) := by
  have hlen : (toBytes (w/8) n.toNat).length = w/8 := length_toBytes _ _
  have hlt : n.toNat < 256^(w/8) := hw ▸ n.isLt
  have htake : (toBytes (w/8) n.toNat++r).take (w/8) = toBytes (w/8) n.toNat := take_left' hlen
  have hdrop : (toBytes (w/8) n.toNat++r).drop (w/8) = r := drop_left' hlen
  rw [readUint,writeUint,if_neg (by rw [length_append,hlen]; omega),htake,hdrop,ofBytes_toBytes,
    Nat.mod_eq_of_lt hlt,BitVec.ofNat_toNat,BitVec.setWidth_eq]

theorem readFull_append (s r : List UInt8) : readFull s.length (s++r) = (s,r) := by
  have h : s.length-(s++r).length = 0 := by
    rw [length_append]
    omega
  rw [readFull,h,take_left,drop_left,replicate_zero,append_nil]

theorem length_readFull (n : Nat) (r : List UInt8) : (readFull n r).1.length = n := by
  simp only [readFull,length_append,length_take,length_replicate]
  omega

theorem length_readCounted_lt (w : Nat) (r : List UInt8) : (readCounted w r).1.length < 2^w := by
  rw [readCounted]
  dsimp only
  split
  · exact Nat.two_pow_pos w
  · rw [length_readFull]
    exact (readUint w r).1.isLt

variable {s : List UInt8}
theorem readCounted_write {w : Nat} (hw : 256^(w/8) = 2^w) (h : s.length < 2^w) (r : List UInt8) :
    readCounted w (toBytes (w/8) s.length++s++r) = (s,r) := by
  have hlen : toBytes (w/8) s.length = writeUint (BitVec.ofNat w s.length) := by
    rw [writeUint,BitVec.toNat_ofNat,Nat.mod_eq_of_lt h]
  rw [readCounted,append_assoc,hlen,readUint_write hw]
  dsimp only
  split
  · next h0 =>
    have h0 := congrArg BitVec.toNat h0
    rw [BitVec.toNat_ofNat,Nat.mod_eq_of_lt h] at h0
    have hs : s = [] := eq_nil_of_length_eq_zero h0
    rw [hs,nil_append]
  · rw [BitVec.toNat_ofNat,Nat.mod_eq_of_lt h,readFull_append]

theorem readLPString_write (h : s.length < 2^16) (r : List UInt8) :
    readLPString (writeLPString s++r) = (s,r) := readCounted_write (by decide) h r

theorem readBytes_write {b : List UInt8} (h : b.length < 2^32) : readCounted 32 (writeBytes b) = (b,[]) := by
  have := readCounted_write (w := 32) (by decide) h []
  rwa [append_nil] at this

theorem length_readLPString_lt (r : List UInt8) : (readLPString r).1.length < 2^16 := length_readCounted_lt 16 r

theorem readLPString_last (h : s.length < 2^16) : readLPString (writeLPString s) = (s,[]) := by
  have := readLPString_write h []
  rwa [append_nil] at this

theorem readUint16_write (n : BitVec 16) (r : List UInt8) : readUint 16 (writeUint n++r) = (n,r) :=
  readUint_write (by decide) n r

theorem readUint32_write (n : BitVec 32) (r : List UInt8) : readUint 32 (writeUint n++r) = (n,r) :=
  readUint_write (by decide) n r

theorem readUint64_write (n : BitVec 64) (r : List UInt8) : readUint 64 (writeUint n++r) = (n,r) :=
  readUint_write (by decide) n r

theorem readUint64_last (n : BitVec 64) : readUint 64 (writeUint n) = (n,[]) := by
  have := readUint64_write n []
  rwa [append_nil] at this

/-! One lemma per payload: the fields are read in the order they were written, as long as each
length fits. -/

theorem pageInsert_iff (p : PageInsert) : decodePageInsertBinary (encodePageInsertBinary p).tail = p ↔
    p.db.length < 2^16 ∧ p.table.length < 2^16 ∧ p.tupleData.length < 2^32 := by
  constructor
  · intro h
    rw [← h]
    dsimp only [decodePageInsertBinary]
    exact ⟨length_readLPString_lt _,length_readLPString_lt _,length_readCounted_lt 32 _⟩
  · rintro ⟨hdb,htable,hdata⟩
    simp only [encodePageInsertBinary,tail_cons,decodePageInsertBinary,readLPString_write hdb,
      readLPString_write htable,readUint16_write,readUint32_write,readUint64_write,readBytes_write hdata]

theorem pageDelete_iff (p : PageDelete) : decodePageDeleteBinary (encodePageDeleteBinary p).tail = p ↔
    p.db.length < 2^16 ∧ p.table.length < 2^16 := by
  constructor
  · intro h
    rw [← h]
    dsimp only [decodePageDeleteBinary]
    exact ⟨length_readLPString_lt _,length_readLPString_lt _⟩
  · rintro ⟨hdb,htable⟩
    simp only [encodePageDeleteBinary,tail_cons,decodePageDeleteBinary,readLPString_write hdb,
      readLPString_write htable,readUint16_write,readUint32_write,readUint64_last]

theorem schemaWrite_iff (p : SchemaWrite) : decodeSchemaWriteBinary (encodeSchemaWriteBinary p).tail = p ↔
    p.db.length < 2^16 ∧ p.table.length < 2^16 ∧ p.schema.length < 2^16 := by
  constructor
  · intro h
    rw [← h]
    dsimp only [decodeSchemaWriteBinary]
    exact ⟨length_readLPString_lt _,length_readLPString_lt _,length_readLPString_lt _⟩
  · rintro ⟨hdb,htable,hschema⟩
    simp only [encodeSchemaWriteBinary,tail_cons,decodeSchemaWriteBinary,readLPString_write hdb,
      readLPString_write htable,readLPString_last hschema]

theorem vacuum_iff (p : Vacuum) : decodeVacuumBinary (encodeVacuumBinary p).tail = p ↔
    p.db.length < 2^16 ∧ p.table.length < 2^16 ∧ p.shadowPath.length < 2^16 := by
  constructor
  · intro h
    rw [← h]
    dsimp only [decodeVacuumBinary]
    exact ⟨length_readLPString_lt _,length_readLPString_lt _,length_readLPString_lt _⟩
  · rintro ⟨hdb,htable,hpath⟩
    simp only [encodeVacuumBinary,tail_cons,decodeVacuumBinary,readLPString_write hdb,readLPString_write htable,
      readLPString_last hpath]

theorem tableName_iff (p : TableName) : decodeTableNameBinary (encodeTableNameBinary p).tail = p ↔
    p.db.length < 2^16 ∧ p.table.length < 2^16 := by
  constructor
  · intro h
    rw [← h]
    dsimp only [decodeTableNameBinary]
    exact ⟨length_readLPString_lt _,length_readLPString_lt _⟩
  · rintro ⟨hdb,htable⟩
    simp only [encodeTableNameBinary,tail_cons,decodeTableNameBinary,readLPString_write hdb,readLPString_last htable]

theorem fullPageImage_iff (p : FullPageImage) : decodeFullPageImageBinary (encodeFullPageImageBinary p).tail = p ↔
    p.db.length < 2^16 ∧ p.table.length < 2^16 ∧ p.pageData.length < 2^32 := by
  constructor
  · intro h
    rw [← h]
    dsimp only [decodeFullPageImageBinary]
    exact ⟨length_readLPString_lt _,length_readLPString_lt _,length_readCounted_lt 32 _⟩
  · rintro ⟨hdb,htable,hdata⟩
    simp only [encodeFullPageImageBinary,tail_cons,decodeFullPageImageBinary,readLPString_write hdb,
      readLPString_write htable,readUint16_write,readUint32_write,readBytes_write hdata]

section
variable {V : Type} (J : Json V)
def ReadBack (p : Payload V) (opType : UInt8) : Prop :=
  (∃ e, encodeWALPayloadBinary J p = .error e) ∨
    ∃ data, encodeWALPayloadBinary J p = .ok data ∧ decodeWALPayload J data opType = .ok (some p)

theorem readBack_iff_eq {p q : Payload V} {opType : UInt8} (data : List UInt8)
    (hencode : encodeWALPayloadBinary J p = .ok (binaryPayloadMarker :: data))
    (hdecode : decodeBinaryPayload data opType = .ok q) : ReadBack J p opType ↔ q = p := by
  have hread : decodeWALPayload J (binaryPayloadMarker :: data) opType = .ok (some q) := by
    rw [decodeWALPayload,if_pos rfl,hdecode,Except.map]
  simp [ReadBack,hencode,hread]

/-- A payload is read back exactly when its lengths fit. -/
theorem readBack_iff {p : Payload V} {opType : UInt8} (h : p.LoggedAs opType) : ReadBack J p opType ↔ p.Fits := by
  cases p with
  | pageInsert p =>
    cases h
    rw [readBack_iff_eq J (encodePageInsertBinary p).tail rfl rfl,Payload.pageInsert.injEq]
    exact pageInsert_iff p
  | pageDelete p =>
    have hdecode : decodeBinaryPayload (V := V) (encodePageDeleteBinary p).tail opType =
        .ok (.pageDelete (decodePageDeleteBinary (encodePageDeleteBinary p).tail)) := by
      rcases h with rfl | rfl <;> rfl
    rw [readBack_iff_eq J _ rfl hdecode,Payload.pageDelete.injEq]
    exact pageDelete_iff p
  | schemaWrite p =>
    cases h
    rw [readBack_iff_eq J (encodeSchemaWriteBinary p).tail rfl rfl,Payload.schemaWrite.injEq]
    exact schemaWrite_iff p
  | vacuum p =>
    have hdecode : decodeBinaryPayload (V := V) (encodeVacuumBinary p).tail opType =
        .ok (.vacuum (decodeVacuumBinary (encodeVacuumBinary p).tail)) := by
      rcases h with rfl | rfl <;> rfl
    rw [readBack_iff_eq J _ rfl hdecode,Payload.vacuum.injEq]
    exact vacuum_iff p
  | rewrite p =>
    have hdecode : decodeBinaryPayload (V := V) (encodeTableNameBinary p).tail opType =
        .ok (.rewrite (decodeTableNameBinary (encodeTableNameBinary p).tail)) := by
      rcases h with rfl | rfl | rfl <;> rfl
    rw [readBack_iff_eq J _ rfl hdecode,Payload.rewrite.injEq]
    exact tableName_iff p
  | truncateTable p =>
    cases h
    rw [readBack_iff_eq J (encodeTableNameBinary p).tail rfl rfl,Payload.truncateTable.injEq]
    exact tableName_iff p
  | checkpoint lsn =>
    cases h
    rw [readBack_iff_eq J (writeUint lsn) rfl rfl,Payload.checkpoint.injEq,decodeCheckpointBinary,
      decodeWordBinary,readUint64_last]
    exact iff_of_true rfl trivial
  | commit timestamp =>
    cases h
    rw [readBack_iff_eq J (writeUint timestamp) rfl rfl,Payload.commit.injEq,decodeCommitBinary,
      decodeWordBinary,readUint64_last]
    exact iff_of_true rfl trivial
  | fullPageImage p =>
    cases h
    rw [readBack_iff_eq J (encodeFullPageImageBinary p).tail rfl rfl,Payload.fullPageImage.injEq]
    exact fullPageImage_iff p
  | other v => cases h
end

def noJson : Json Unit where
  marshal _ := .ok [110,117,108,108]
  pageInsert _ := .error "invalid character"
  pageDelete _ := .error "invalid character"
  schemaWrite _ := .error "invalid character"
  vacuum _ := .error "invalid character"
  rewrite _ := .error "invalid character"
  truncateTable _ := .error "invalid character"
  checkpoint _ := .error "invalid character"
  commit _ := .error "invalid character"
  fullPageImage _ := .error "invalid character"
  other _ := .error "invalid character"

theorem readBack_sample : ReadBack noJson (.pageDelete ⟨[97], [98], 1, 2, 3, 4⟩) opPageUpdateXMax := by
  refine (readBack_iff noJson ?_).2 ⟨by decide,by decide⟩
  exact .inr rfl

/-- The length of a schema of 65536 bytes is written as zero. -/
theorem long_schema_not_readBack :
    ¬ ReadBack noJson (.schemaWrite ⟨[97], [98], List.replicate 65536 32⟩) opSchemaWrite := by
  rw [readBack_iff_eq noJson (encodeSchemaWriteBinary _).tail rfl rfl,Payload.schemaWrite.injEq,schemaWrite_iff]
  rintro ⟨-,-,h⟩
  have hlen : (List.replicate 65536 (32 : UInt8)).length = 65536 := length_replicate
  exact absurd (hlen.symm.trans_lt h) (by decide)

end VaultDB.WalFile
