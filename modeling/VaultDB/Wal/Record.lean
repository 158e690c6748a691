import VaultDB.Lib.Bytes
set_option autoImplicit false

/-!
The records of a log file: how `buildRecord` of `wal.go` lays one out and how `readEntryFrom` of
`recovery.go` reads one.
-/

namespace VaultDB.WalFile
open Lib List
variable {r : List UInt8}
structure Entry where
  txID : BitVec 64
  opType : UInt8
  payload : List UInt8
  /-- The payload is still ciphertext: there was no key when it was read. -/
  encrypted : Bool
  deriving DecidableEq, Repr

abbrev Nonce := {n : List UInt8 // n.length = 12}

/-- `crypto.EncryptionManager`: AES-GCM, whose tag makes a text 16 bytes longer. -/
structure EncryptionManager where
  keyVersion : BitVec 32
  encryptPage : (nonce : Nonce) → (plaintext aad : List UInt8) → Except String (List UInt8)
  decryptPage : (nonce : Nonce) → (ciphertext aad : List UInt8) → (version : BitVec 32) → Except String (List UInt8)
  length_encryptPage : ∀ {nonce plaintext aad ciphertext},
    encryptPage nonce plaintext aad = .ok ciphertext → ciphertext.length = plaintext.length+16

/-- `crypto.TDEEngine`, the same cipher with the nonce taken from the LSN. -/
structure TDEEngine where
  encryptWAL : (data : List UInt8) → (lsn : BitVec 64) → Except String (List UInt8)
  decryptWAL : (data : List UInt8) → (lsn : BitVec 64) → Except String (List UInt8)
  length_encryptWAL : ∀ {data lsn ciphertext}, encryptWAL data lsn = .ok ciphertext →
    ciphertext.length = data.length+16

structure Keys where
  em : Option EncryptionManager
  tde : Option TDEEngine

def Keys.none : Keys := ⟨.none,.none⟩
def Keys.missing (keys : Keys) : Bool := keys.em.isNone && keys.tde.isNone
def recordMagic : List UInt8 := [0x56,0x44,0x42,0x31]
def maxPayloadSize : Nat := 32*2^20

structure Frame where
  txID : BitVec 64
  opType : UInt8
  flag : UInt8
  keyVersion : BitVec 32
  nonce : Nonce
  payload : List UInt8

def Frame.header (F : Frame) : List UInt8 :=
  recordMagic++(toBytes 8 F.txID.toNat++(F.opType :: F.flag :: (toBytes 4 F.keyVersion.toNat++(F.nonce.1++
    toBytes 4 F.payload.length))))

def Frame.crc (F : Frame) : BitVec 32 := crcUpdate (crcUpdate 0 F.header) F.payload
def Frame.bytes (F : Frame) : List UInt8 := F.header++(F.payload++toBytes 4 F.crc.toNat)
def zeroNonce : Nonce := ⟨List.replicate 12 0,rfl⟩

/-- The payload goes into the record as it is, or encrypted with the transaction id. -/
def sealPayload (keys : Keys) (nonce : Nonce) (txID : BitVec 64) (opType : UInt8) (payload : List UInt8) :
    Except String Frame :=
  match keys.em, keys.tde with
  | some em, _ =>
    match em.encryptPage nonce payload (toBytes 8 txID.toNat) with
    | .error e => .error ("wal: encrypt payload: "++e)
    | .ok ciphertext => .ok ⟨txID,opType,1,em.keyVersion,nonce,ciphertext⟩
  | none, some tde =>
    match tde.encryptWAL payload txID with
    | .error e => .error ("wal: tde encrypt payload: "++e)
    | .ok ciphertext => .ok ⟨txID,opType,2,0,zeroNonce,ciphertext⟩
  | none, none => .ok ⟨txID,opType,0,0,zeroNonce,payload⟩

def buildFrame (keys : Keys) (nonce : Nonce) (txID : BitVec 64) (opType : UInt8)
    (payload : List UInt8) : Except String Frame :=
  if maxPayloadSize < payload.length then .error ("wal: payload too large ("++toString payload.length++" bytes)")
  else sealPayload keys nonce txID opType payload

def buildRecord (keys : Keys) (nonce : Nonce) (txID : BitVec 64) (opType : UInt8) (payload : List UInt8) :
    Except String (List UInt8) := (buildFrame keys nonce txID opType payload).map Frame.bytes

inductive ReadError where
  | eof
  | unexpectedEOF
  | corruptMagic
  | tooLarge (n : Nat)
  | checksum
  | decrypt (e : String)
  | tdeDecrypt (e : String)
  deriving DecidableEq, Repr

def ReadError.message : ReadError → String
  | .eof => "EOF"
  | .unexpectedEOF => "unexpected EOF"
  | .corruptMagic => "wal: corrupt record magic bytes"
  | .tooLarge n => "wal: payload too large ("++toString n++" bytes)"
  | .checksum => "wal: checksum mismatch"
  | .decrypt e => "wal: decrypt payload: "++e
  | .tdeDecrypt e => "wal: tde decrypt payload: "++e

def ReadError.isEOF : ReadError → Bool
  | .eof => true
  | .unexpectedEOF => true
  | _ => false

def readPayload (hdr r : List UInt8) : Except ReadError Frame × List UInt8 :=
  if hdr.take 4 ≠ recordMagic then (.error .corruptMagic,r)
  else
    let payloadLen := ofBytes (slice hdr 30 34)
    if maxPayloadSize < payloadLen then (.error (.tooLarge payloadLen),r)
    else if r.length < payloadLen then (.error .unexpectedEOF,[])
    else
      let payload := r.take payloadLen
      if (r.drop payloadLen).length < 4 then (.error .unexpectedEOF,[])
      else
        let storedCRC := ofBytes ((r.drop payloadLen).take 4)
        if storedCRC ≠ (crcUpdate (crcUpdate 0 hdr) payload).toNat then (.error .checksum,(r.drop payloadLen).drop 4)
        else
          (.ok ⟨BitVec.ofNat 64 (ofBytes (slice hdr 4 12)),hdr.getD 12 0,hdr.getD 13 0,
            BitVec.ofNat 32 (ofBytes (slice hdr 14 18)),⟨(slice hdr 18 30++List.replicate 12 0).take 12,by simp⟩,payload⟩,
            (r.drop payloadLen).drop 4)

def readFrame (r : List UInt8) : Except ReadError Frame × List UInt8 :=
  if r.length = 0 then (.error .eof,[])
  else if r.length < 34 then (.error .unexpectedEOF,[])
  else readPayload (r.take 34) (r.drop 34)

def openPayload (keys : Keys) (F : Frame) : Except ReadError (List UInt8 × Bool) :=
  if F.flag = 1 then
    match keys.em with
    | some em =>
      match em.decryptPage F.nonce F.payload (toBytes 8 F.txID.toNat) F.keyVersion with
      | .error e => .error (.decrypt e)
      | .ok plaintext => .ok (plaintext,false)
    | none => .ok (F.payload,true)
  else if F.flag = 2 then
    match keys.tde with
    | some tde =>
      match tde.decryptWAL F.payload F.txID with
      | .error e => .error (.tdeDecrypt e)
      | .ok plaintext => .ok (plaintext,false)
    | none => .ok (F.payload,true)
  else .ok (F.payload,false)

/-- The entry with its size, or an error; and what is left to read. -/
def readEntryFrom (keys : Keys) (r : List UInt8) : Except ReadError (Entry × Nat) × List UInt8 :=
  match readFrame r with
  | (.error e,rest) => (.error e,rest)
  | (.ok F,rest) =>
    match openPayload keys F with
    | .error e => (.error e,rest)
    | .ok (payload,encrypted) => (.ok (⟨F.txID,F.opType,payload,encrypted⟩,34+F.payload.length+4),rest)

variable {keys : Keys} {e : ReadError}
theorem Frame.length_header (F : Frame) : F.header.length = 34 := by simp [Frame.header,recordMagic,F.nonce.2]

theorem Frame.length_bytes (F : Frame) : F.bytes.length = 34+F.payload.length+4 := by
  simp only [Frame.bytes,length_append,F.length_header,length_toBytes]
  omega

section
variable (F : Frame)
theorem header_magic : F.header.take 4 = recordMagic := rfl

theorem header_txID : ofBytes (slice F.header 4 12) = F.txID.toNat := by
  rw [Frame.header,slice_middle (show recordMagic.length = 4 from rfl) (by simp),ofBytes_toBytes]
  exact Nat.mod_eq_of_lt F.txID.isLt

theorem header_opType : F.header.getD 12 0 = F.opType := rfl
theorem header_flag : F.header.getD 13 0 = F.flag := rfl

theorem header_keyVersion : ofBytes (slice F.header 14 18) = F.keyVersion.toNat := by
  have hpre : (recordMagic++toBytes 8 F.txID.toNat++[F.opType,F.flag]).length = 14 := by simp [recordMagic]
  have hsplit : F.header = (recordMagic++toBytes 8 F.txID.toNat++[F.opType,F.flag])++(toBytes 4 F.keyVersion.toNat++
      (F.nonce.1++toBytes 4 F.payload.length)) := by simp [Frame.header]
  rw [hsplit,slice_middle hpre (by simp),ofBytes_toBytes]
  exact Nat.mod_eq_of_lt F.keyVersion.isLt

theorem header_nonce : slice F.header 18 30 = F.nonce.1 := by
  have hpre : (recordMagic++toBytes 8 F.txID.toNat++[F.opType,F.flag]++toBytes 4
    F.keyVersion.toNat).length = 18 := by
    simp [recordMagic]
  have hsplit : F.header = (recordMagic++toBytes 8 F.txID.toNat++[F.opType,F.flag]++toBytes 4 F.keyVersion.toNat)++
      (F.nonce.1++toBytes 4 F.payload.length) := by simp [Frame.header]
  rw [hsplit,slice_middle hpre (by rw [F.nonce.2])]

theorem header_payloadLen (h : F.payload.length < 2^32) : ofBytes (slice F.header 30 34) = F.payload.length := by
  have hpre : (recordMagic++toBytes 8 F.txID.toNat++[F.opType,F.flag]++toBytes 4
    F.keyVersion.toNat++F.nonce.1).length = 30 := by
    simp [recordMagic,F.nonce.2]
  have hsplit : F.header = (recordMagic++toBytes 8 F.txID.toNat++[F.opType,F.flag]++toBytes 4 F.keyVersion.toNat++
      F.nonce.1)++(toBytes 4 F.payload.length++[]) := by simp [Frame.header]
  rw [hsplit,slice_middle hpre (by simp),ofBytes_toBytes]
  exact Nat.mod_eq_of_lt h
end

variable {F : Frame} {rest : List UInt8}
theorem readFrame_bytes (hsize : F.payload.length ≤ maxPayloadSize) (r : List UInt8) :
    readFrame (F.bytes++r) = (.ok F,r) := by
  have hlen := F.length_bytes
  have hlt : F.payload.length < 2^32 := Nat.lt_of_le_of_lt hsize (by decide)
  have happ : F.bytes++r = F.header++(F.payload++(toBytes 4 F.crc.toNat++r)) := by simp [Frame.bytes]
  have hcrc : ofBytes (toBytes 4 F.crc.toNat) = (crcUpdate (crcUpdate 0 F.header) F.payload).toNat := by
    rw [ofBytes_toBytes]
    exact Nat.mod_eq_of_lt F.crc.isLt
  have hnonce : (slice F.header 18 30++List.replicate 12 0).take 12 = F.nonce.1 := by
    rw [header_nonce,take_left' F.nonce.2]
  rw [readFrame,if_neg (by rw [length_append]; omega),if_neg (by rw [length_append]; omega),happ,
    take_left' F.length_header,drop_left' F.length_header,readPayload,if_neg (by simp [header_magic])]
  simp only [header_payloadLen F hlt,take_left,drop_left,take_left' (length_toBytes 4 _),
    drop_left' (length_toBytes 4 _),hcrc,header_txID,header_opType,header_flag,header_keyVersion,hnonce,
    BitVec.ofNat_toNat,BitVec.setWidth_eq]
  rw [if_neg (by omega),if_neg (by rw [length_append]; omega),if_neg (by simp),if_neg (by simp)]

theorem readFrame_torn (hsize : F.payload.length ≤ maxPayloadSize) {n : Nat} (hn : n < F.bytes.length) :
    ∃ e, (readFrame (F.bytes.take n)).1 = .error e ∧ e.isEOF = true := by
  have hlen := F.length_bytes
  have hlt : F.payload.length < 2^32 := Nat.lt_of_le_of_lt hsize (by decide)
  have htake : (F.bytes.take n).length = n := length_take_of_le (Nat.le_of_lt hn)
  rw [readFrame,htake]
  split
  · exact ⟨_,rfl,rfl⟩
  split
  · exact ⟨_,rfl,rfl⟩
  next h34 =>
  -- the header is whole, so what is missing is payload or checksum
  obtain ⟨m,rfl⟩ : ∃ m, n = 34+m := ⟨n-34,by omega⟩
  have hcut : F.bytes.take (34+m) = F.header++(F.payload++toBytes 4 F.crc.toNat).take m := by
    rw [Frame.bytes,take_append,F.length_header,take_of_length_le (by rw [F.length_header]; omega),
      Nat.add_sub_cancel_left]
  have hrest : ((F.payload++toBytes 4 F.crc.toNat).take m).length = m :=
    length_take_of_le (by rw [length_append,length_toBytes]; omega)
  rw [hcut,take_left' F.length_header,drop_left' F.length_header,readPayload,if_neg (by simp [header_magic])]
  simp only [header_payloadLen F hlt,hrest,length_drop]
  rw [if_neg (by omega)]
  split
  · exact ⟨_,rfl,rfl⟩
  · rw [if_pos (by omega)]
    exact ⟨_,rfl,rfl⟩

theorem readFrame_tooLarge (hlarge : maxPayloadSize < F.payload.length) (hlt : F.payload.length < 2^32)
    (r : List UInt8) : (readFrame (F.bytes++r)).1 = .error (.tooLarge F.payload.length) := by
  have hlen := F.length_bytes
  have happ : F.bytes++r = F.header++((F.payload++toBytes 4 F.crc.toNat)++r) := by simp [Frame.bytes]
  rw [readFrame,if_neg (by rw [length_append]; omega),if_neg (by rw [length_append]; omega),happ,
    take_left' F.length_header,drop_left' F.length_header,readPayload,if_neg (by simp [header_magic])]
  simp only [header_payloadLen F hlt]
  rw [if_pos hlarge]

theorem length_of_readFrame (h : (readFrame r).1 = .ok F) : 38 ≤ r.length := by
  rw [readFrame] at h
  split at h
  · cases h
  split at h
  · cases h
  simp only [readPayload] at h
  split at h
  · cases h
  split at h
  · cases h
  split at h
  · cases h
  split at h
  · cases h
  next hcrc =>
  simp only [length_drop] at hcrc
  omega

theorem length_readPayload_rest (hdr r : List UInt8) : (readPayload hdr r).2.length ≤ r.length := by
  simp only [readPayload]
  repeat' split
  all_goals simp

theorem length_readFrame_rest (h : r ≠ []) : (readFrame r).2.length < r.length := by
  have hpos := length_pos_iff.2 h
  rw [readFrame]
  split
  · exact hpos
  split
  · exact hpos
  · have := length_readPayload_rest (r.take 34) (r.drop 34)
    rw [length_drop] at this
    omega

theorem openPayload_not_eof (h : openPayload keys F = .error e) : e.isEOF = false := by
  simp only [openPayload] at h
  repeat' split at h
  all_goals cases h
  all_goals rfl

theorem readFrame_rest_of_eof (h : readFrame r = (.error e,rest)) (heof : e.isEOF = true) : rest = [] := by
  simp only [readFrame,readPayload] at h
  repeat' split at h
  all_goals cases h
  all_goals first | rfl | cases heof

theorem readEntryFrom_rest (keys : Keys) (r : List UInt8) : (readEntryFrom keys r).2 = (readFrame r).2 := by
  rw [readEntryFrom]
  split
  · next h => rw [h]
  · next h => rw [h]; split <;> rfl

theorem readEntryFrom_rest_of_eof
    (h : readEntryFrom keys r = (.error e,rest)) (heof : e.isEOF = true) : rest = [] := by
  rw [readEntryFrom] at h
  split at h
  · next hr =>
    cases h
    exact readFrame_rest_of_eof hr heof
  · next F rest' hr =>
    split at h
    · next e' hopen =>
      cases h
      rw [openPayload_not_eof hopen] at heof
      cases heof
    · cases h

theorem readEntryFrom_of_error (keys : Keys) (h : (readFrame r).1 = .error e) :
    (readEntryFrom keys r).1 = .error e := by
  rw [readEntryFrom]
  split
  · next he => rw [he] at h; cases h; rfl
  · next he => rw [he] at h; cases h

theorem readFrame_of_ok {x : Entry × Nat} (h : (readEntryFrom keys r).1 = .ok x) : ∃ F, (readFrame r).1 = .ok F := by
  rw [readEntryFrom] at h
  split at h
  · cases h
  · next F rest he => exact ⟨F,by rw [he]⟩

theorem readFrame_error_of_none (h : (readEntryFrom Keys.none r).1 = .error e) : (readFrame r).1 = .error e := by
  rw [readEntryFrom] at h
  split at h
  · next he => rw [he]; cases h; rfl
  · next F rest he =>
    have hopen : ∃ p, openPayload Keys.none F = .ok p := by
      rw [openPayload]
      split
      · exact ⟨_,rfl⟩
      split <;> exact ⟨_,rfl⟩
    obtain ⟨p,hp⟩ := hopen
    rw [hp] at h
    cases h

/-- A record that was appended: what was logged, the keys and the nonce of that moment, and what it
became. -/
structure Appended where
  keys : Keys
  nonce : Nonce
  txID : BitVec 64
  opType : UInt8
  payload : List UInt8
  frame : Frame
  built : buildFrame keys nonce txID opType payload = .ok frame

def Appended.entry (a : Appended) : Entry := ⟨a.txID,a.opType,a.payload,false⟩
def fileOf (log : List Appended) : List UInt8 := log.flatMap fun a => a.frame.bytes

structure Keys.Decrypts (keys : Keys) (a : Appended) : Prop where
  em : ∀ e, a.keys.em = some e → ∃ d, keys.em = some d ∧ ∀ nonce plaintext aad ciphertext,
    e.encryptPage nonce plaintext aad = .ok ciphertext →
      d.decryptPage nonce ciphertext aad e.keyVersion = .ok plaintext
  tde : a.keys.em = .none → ∀ e, a.keys.tde = some e → ∃ d, keys.tde = some d ∧ ∀ data lsn ciphertext,
    e.encryptWAL data lsn = .ok ciphertext → d.decryptWAL ciphertext lsn = .ok data

def Appended.Readable (a : Appended) : Prop := a.payload.length+(if a.keys.missing then 0 else 16) ≤ maxPayloadSize

theorem Appended.cases (a : Appended) :
    (∃ e ciphertext, a.keys.em = some e ∧ e.encryptPage a.nonce a.payload (toBytes 8 a.txID.toNat) = .ok ciphertext ∧
      a.frame = ⟨a.txID,a.opType,1,e.keyVersion,a.nonce,ciphertext⟩) ∨
    (∃ e ciphertext, a.keys.em = .none ∧ a.keys.tde = some e ∧ e.encryptWAL a.payload a.txID = .ok ciphertext ∧
      a.frame = ⟨a.txID,a.opType,2,0,zeroNonce,ciphertext⟩) ∨
    (a.keys.missing = true ∧ a.frame = ⟨a.txID,a.opType,0,0,zeroNonce,a.payload⟩) := by
  have h := a.built
  rw [buildFrame] at h
  split at h
  · cases h
  rw [sealPayload] at h
  cases hem : a.keys.em with
  | some e =>
    rw [hem] at h
    cases he : e.encryptPage a.nonce a.payload (toBytes 8 a.txID.toNat) with
    | error msg => simp [he] at h
    | ok ciphertext =>
      simp only [he] at h
      exact .inl ⟨e,ciphertext,rfl,he,(Except.ok.inj h).symm⟩
  | none =>
    rw [hem] at h
    cases htde : a.keys.tde with
    | some e =>
      rw [htde] at h
      cases he : e.encryptWAL a.payload a.txID with
      | error msg => simp [he] at h
      | ok ciphertext =>
        simp only [he] at h
        exact .inr (.inl ⟨e,ciphertext,rfl,rfl,he,(Except.ok.inj h).symm⟩)
    | none =>
      rw [htde] at h
      exact .inr (.inr ⟨by simp [Keys.missing,hem,htde],(Except.ok.inj h).symm⟩)

variable {a : Appended}
theorem Appended.Readable.frame (h : a.Readable) : a.frame.payload.length ≤ maxPayloadSize := by
  rw [Appended.Readable] at h
  rcases a.cases with ⟨e,c,hem,he,hf⟩ | ⟨e,c,hem,htde,he,hf⟩ | ⟨hm,hf⟩
  · rw [hf,e.length_encryptPage he]
    simpa [Keys.missing,hem] using h
  · rw [hf,e.length_encryptWAL he]
    simpa [Keys.missing,hem,htde] using h
  · rw [hf]
    simpa [hm] using h

theorem Appended.frame_eq (a : Appended) : a.frame.txID = a.txID ∧ a.frame.opType = a.opType := by
  rcases a.cases with ⟨e,c,-,-,hf⟩ | ⟨e,c,-,-,-,hf⟩ | ⟨-,hf⟩ <;> rw [hf] <;> exact ⟨rfl,rfl⟩

theorem Keys.Decrypts.openPayload (h : keys.Decrypts a) : openPayload keys a.frame = .ok (a.payload,false) := by
  rcases a.cases with ⟨e,c,hem,he,hf⟩ | ⟨e,c,hem,htde,he,hf⟩ | ⟨-,hf⟩
  · obtain ⟨d,hd,hdec⟩ := h.em e hem
    simp [hf,WalFile.openPayload,hd,hdec _ _ _ _ he]
  · obtain ⟨d,hd,hdec⟩ := h.tde hem e htde
    simp [hf,WalFile.openPayload,hd,hdec _ _ _ he]
  · simp [hf,WalFile.openPayload]

theorem readEntryFrom_appended (hr : a.Readable) {payload : List UInt8} {encrypted : Bool}
    (h : openPayload keys a.frame = .ok (payload,encrypted)) (r : List UInt8) :
    readEntryFrom keys (a.frame.bytes++r) = (.ok (⟨a.txID,a.opType,payload,encrypted⟩,a.frame.bytes.length),r) := by
  simp only [readEntryFrom,readFrame_bytes hr.frame,h,a.frame_eq,a.frame.length_bytes]

end VaultDB.WalFile
