import VaultDB.Lib.Collect
import VaultDB.Wal.Record
set_option autoImplicit false

/-!
The readers of a log file, after `recovery.go`: `scanAndTruncate`, which opens it, and `Recover`,
`Replay`, `ReplayTransaction` and `AnalyzeTransactions`, which each read it from the start.

A position in the file is given by the bytes from there on.
-/

namespace VaultDB.WalFile
open Lib List
variable {n : Nat} {es : List Entry} {a : Appended} {payload torn file : List UInt8}
    {found : List (Entry × List UInt8)}
/-- The scan for the next magic bytes.  A failed peek or read is not taken back. -/
def resyncLoop (keys : Keys) : Nat → List UInt8 → Option (Entry × List UInt8)
  | 0, _ => none
  | _+1, [] => none
  | fuel+1, b :: r =>
    if b ≠ 0x56 then resyncLoop keys fuel r
    else if r.length < 3 then none
    else if b :: r.take 3 = recordMagic then
      match readEntryFrom keys (b :: r) with
      | (.ok (e,_),rest) => some (e,rest)
      | (.error _,rest) => resyncLoop keys fuel rest
    else resyncLoop keys fuel (r.drop 3)

def resync (keys : Keys) (r : List UInt8) : Option (Entry × List UInt8) := resyncLoop keys r.length r

/-- One turn of the loops of `Recover` and `scanAndTruncate`: an entry and the position behind it.
A bad record is passed over from its second byte on. -/
def nextEntry (keys : Keys) (r : List UInt8) : Option (Entry × List UInt8) :=
  match readEntryFrom keys r with
  | (.ok (e,_),rest) => some (e,rest)
  | (.error err,_) => if err.isEOF then none else resync keys (r.drop 1)

def scan (keys : Keys) (file : List UInt8) : List (Entry × List UInt8) := collect (nextEntry keys) file.length file
def validEnd (file : List UInt8) : Nat := file.length-(behind file (scan .none file)).length

/-- The file after `scanAndTruncate`, which `Open` calls before there are keys: what stands behind
the last entry is cut off. -/
def openFile (file : List UInt8) : List UInt8 := file.take (validEnd file)

/-- `Recover` leaves its loop at an entry without a key, here with the position behind it. -/
def checkKeys (keys : Keys) : List (Entry × List UInt8) → Except (Entry × List UInt8) (List Entry)
  | [] => .ok []
  | (e,rest) :: found =>
    if e.encrypted && keys.missing then .error (e,rest) else (checkKeys keys found).map (e :: ·)

def encryptedMessage (e : Entry) : String :=
  "wal: record at txID "++toString e.txID.toNat++" is encrypted but no EncryptionManager or TDEEngine is set"

def recover (keys : Keys) (file : List UInt8) : Except String (List Entry) :=
  (checkKeys keys (scan keys file)).mapError fun x => encryptedMessage x.1

/-- One turn of the loops of the other readers, as long as there is no error. -/
def readOk (keys : Keys) (r : List UInt8) : Option (Entry × List UInt8) :=
  match readEntryFrom keys r with
  | (.ok (e,_),rest) => some (e,rest)
  | (.error _,_) => none

def readEntries (keys : Keys) (file : List UInt8) : List (Entry × List UInt8) :=
  collect (readOk keys) file.length file

/-- The error their loops end with, at the position behind the last entry. -/
def readError (keys : Keys) (file : List UInt8) : ReadError :=
  match (readEntryFrom keys (behind file (readEntries keys file))).1 with
  | .error err => err
  | .ok _ => .eof

def replayed (keys : Keys) (file : List UInt8) : Except String (List Entry) :=
  if (readError keys file).isEOF then .ok ((readEntries keys file).map Prod.fst)
  else .error ("wal: read entry: "++(readError keys file).message)

def replayedTransaction (keys : Keys) (txID : BitVec 64) (file : List UInt8) : Except String (List Entry) :=
  if (readError keys file).isEOF then .ok (((readEntries keys file).map Prod.fst).filter fun e => e.txID = txID)
  else .error ("wal: read entry: "++(readError keys file).message)

def analyzed (keys : Keys) (file : List UInt8) : List Entry := (readEntries keys file).map Prod.fst

variable {r rest : List UInt8} {e : Entry} {keys : Keys} {err : ReadError} {log : List Appended}
theorem length_readEntryFrom_rest (keys : Keys) (h : r ≠ []) : (readEntryFrom keys r).2.length < r.length := by
  rw [readEntryFrom_rest]
  exact length_readFrame_rest h

theorem resync_cons_ne (keys : Keys) {b : UInt8} (h : b ≠ 0x56) (r : List UInt8) :
    resync keys (b :: r) = resync keys r := by
  rw [resync,length_cons,resyncLoop,if_pos h,resync]

theorem resync_append (keys : Keys) {xs : List UInt8} (h : 0x56 ∉ xs) (r : List UInt8) :
    resync keys (xs++r) = resync keys r := by
  induction xs with
  | nil => rfl
  | cons x xs ih =>
    rw [mem_cons,not_or] at h
    rw [cons_append,resync_cons_ne keys (Ne.symm h.1),ih h.2]

theorem resync_of_ok (keys : Keys) {F : Frame} {x : Entry × Nat}
    (h : readEntryFrom keys (F.bytes++r) = (.ok x,rest)) : resync keys (F.bytes++r) = some (x.1,rest) := by
  have hcons : F.bytes++r = 0x56 :: 0x44 :: 0x42 :: 0x31 ::
    ((F.header.drop 4++(F.payload++toBytes 4 F.crc.toNat))++r) := rfl
  rw [hcons] at h ⊢
  rw [resync,length_cons,resyncLoop,if_neg (by simp),if_neg (by simp),if_pos (by simp [recordMagic]),h]

theorem length_resync_rest (h : resync keys r = some (e,rest)) : rest.length < r.length := by
  suffices hloop : ∀ fuel r, resyncLoop keys fuel r = some (e,rest) → rest.length < r.length from hloop _ r h
  intro fuel
  induction fuel with
  | zero => intro r h; cases h
  | succ fuel ih =>
    intro r h
    cases r with
    | nil => cases h
    | cons b r =>
      have hrest := length_readEntryFrom_rest keys (cons_ne_nil b r)
      rw [resyncLoop] at h
      split at h
      · exact Nat.lt_succ_of_lt (ih r h)
      split at h
      · cases h
      split at h
      · rcases hread : readEntryFrom keys (b :: r) with ⟨_ | ⟨e',size⟩,rest'⟩ <;> rw [hread] at h hrest
        · exact Nat.lt_trans (ih rest' h) hrest
        · cases h
          exact hrest
      · have := ih _ h
        rw [length_drop] at this
        rw [length_cons]
        omega

theorem length_nextEntry_rest (h : nextEntry keys r = some (e,rest)) : rest.length < r.length := by
  cases r with
  | nil => cases h
  | cons b r =>
    have hrest := length_readEntryFrom_rest keys (cons_ne_nil b r)
    rw [nextEntry] at h
    rcases hread : readEntryFrom keys (b :: r) with ⟨err | ⟨e',size⟩,rest'⟩ <;> rw [hread] at h hrest
    · dsimp only at h
      split at h
      · cases h
      · exact Nat.lt_succ_of_lt (length_resync_rest h)
    · cases h
      exact hrest

theorem readOk_eq_some : readOk keys r = some (e,rest) ↔ ∃ size, readEntryFrom keys r = (.ok (e,size),rest) := by
  rw [readOk]
  rcases readEntryFrom keys r with ⟨_ | ⟨e',size⟩,rest'⟩ <;> simp

theorem length_readOk_rest (h : readOk keys r = some (e,rest)) : rest.length < r.length := by
  obtain ⟨size,h⟩ := readOk_eq_some.1 h
  cases r with
  | nil => cases h
  | cons b r =>
    have hrest := length_readEntryFrom_rest keys (cons_ne_nil b r)
    rwa [h] at hrest

theorem nextEntry_of_readOk (h : readOk keys r = some (e,rest)) : nextEntry keys r = some (e,rest) := by
  obtain ⟨size,h⟩ := readOk_eq_some.1 h
  rw [nextEntry,h]

theorem nextEntry_of_eof (h : (readEntryFrom keys r).1 = .error err)
    (heof : err.isEOF = true) : nextEntry keys r = none := by
  rw [nextEntry]
  rcases hread : readEntryFrom keys r with ⟨_ | _,rest⟩ <;> rw [hread] at h <;> cases h
  exact if_pos heof

theorem nextEntry_of_bad (h : (readEntryFrom keys r).1 = .error err)
    (hbad : err.isEOF = false) : nextEntry keys r = resync keys (r.drop 1) := by
  rw [nextEntry]
  rcases hread : readEntryFrom keys r with ⟨_ | _,rest⟩ <;> rw [hread] at h <;> cases h
  simp [hbad]

@[simp] theorem fileOf_nil : fileOf [] = [] := rfl
@[simp] theorem fileOf_cons (a : Appended) (log : List Appended) : fileOf (a :: log) =
    a.frame.bytes++fileOf log := rfl
@[simp] theorem fileOf_append (log log' : List Appended) : fileOf (log++log') =
    fileOf log++fileOf log' := flatMap_append

def positions (entry : Appended → Entry) (r : List UInt8) : List Appended → List (Entry × List UInt8)
  | [] => []
  | a :: log => (entry a,fileOf log++r) :: positions entry r log

variable (entry : Appended → Entry)
theorem map_fst_positions (r : List UInt8) (log : List Appended) :
    (positions entry r log).map Prod.fst = log.map entry := by
  induction log with
  | nil => rfl
  | cons a log ih => rw [positions,map_cons,ih,map_cons]

theorem behind_positions (r : List UInt8) (log : List Appended) (items : List (Entry × List UInt8)) :
    behind (fileOf log++r) (positions entry r log++items) = behind r items := by
  induction log with
  | nil => rfl
  | cons a log ih => rw [positions,cons_append,behind_cons,ih]

section
variable {keys : Keys} {entry : Appended → Entry} {log : List Appended}
theorem collect_fileOf {next : List UInt8 → Option (Entry × List UInt8)}
    (hnext : ∀ {s a s'}, next s = some (a,s') → s'.length < s.length)
    (h : ∀ a ∈ log, ∀ r, next (a.frame.bytes++r) = some (entry a,r)) (r : List UInt8) :
    collect next (fileOf log++r).length (fileOf log++r) = positions entry r log++collect next r.length r := by
  induction log with
  | nil => rfl
  | cons a log ih =>
    have ha := h a mem_cons_self (fileOf log++r)
    rw [← append_assoc] at ha
    rw [fileOf_cons,collect_of_some length hnext ha,ih fun b hb => h b (mem_cons_of_mem a hb)]
    rfl

def Reads (keys : Keys) (entry : Appended → Entry) (log : List Appended) : Prop :=
  ∀ a ∈ log, ∀ r, readOk keys (a.frame.bytes++r) = some (entry a,r)

theorem Reads.readEntries (h : Reads keys entry log) (r : List UInt8) :
    readEntries keys (fileOf log++r) = positions entry r log++readEntries keys r :=
  collect_fileOf length_readOk_rest h r

theorem Reads.scan (h : Reads keys entry log) (r : List UInt8) :
    scan keys (fileOf log++r) = positions entry r log++scan keys r :=
  collect_fileOf length_nextEntry_rest (fun a ha r => nextEntry_of_readOk (h a ha r)) r

theorem reads_of_decrypts (hr : ∀ a ∈ log, a.Readable) (hkeys : ∀ a ∈ log, keys.Decrypts a) :
    Reads keys Appended.entry log := by
  intro a ha r
  exact readOk_eq_some.2 ⟨_,readEntryFrom_appended (hr a ha) (hkeys a ha).openPayload r⟩

/-- Without keys a payload is left as it is stored. -/
def Appended.storedEntry (a : Appended) : Entry :=
  ⟨a.txID,a.opType,a.frame.payload,a.frame.flag == 1 || a.frame.flag == 2⟩

theorem openPayload_none (F : Frame) : openPayload Keys.none F = .ok (F.payload,F.flag == 1 || F.flag == 2) := by
  rw [openPayload]
  split
  · next h => simp [Keys.none,h]
  split
  · next h => simp [Keys.none,h]
  · next h1 h2 => simp [h1,h2]

theorem reads_none (hr : ∀ a ∈ log, a.Readable) : Reads Keys.none Appended.storedEntry log := by
  intro a ha r
  exact readOk_eq_some.2 ⟨_,readEntryFrom_appended (hr a ha) (openPayload_none a.frame) r⟩
end

theorem openFile_append (hr : ∀ a ∈ log, a.Readable)
    (htorn : nextEntry Keys.none torn = none) : openFile (fileOf log++torn) = fileOf log := by
  have hscan : scan Keys.none torn = [] := collect_of_none htorn _
  rw [openFile,validEnd,(reads_none hr).scan,hscan,behind_positions,behind_nil,length_append,
    Nat.add_sub_cancel,take_left]

theorem checkKeys_of_keys
    (h : ∀ x ∈ found, ¬ (x.1.encrypted && keys.missing) = true) : checkKeys keys found =
    .ok (found.map Prod.fst) := by
  induction found with
  | nil => rfl
  | cons x found ih =>
    rw [checkKeys,if_neg (h x mem_cons_self),ih fun y hy => h y (mem_cons_of_mem x hy)]
    rfl

theorem recover_of_plain (h : (scan keys file).map Prod.fst = es)
    (hplain : ∀ e ∈ es, e.encrypted = false) : recover keys file = .ok es := by
  have hall : ∀ x ∈ scan keys file, ¬ (x.1.encrypted && keys.missing) = true := by
    intro x hx
    rw [hplain x.1 (h ▸ mem_map_of_mem hx)]
    simp
  rw [recover,checkKeys_of_keys hall,h]
  rfl

theorem plain_entries : ∀ e ∈ log.map Appended.entry, e.encrypted = false := by
  intro e he
  obtain ⟨a,-,rfl⟩ := mem_map.1 he
  rfl

def wholeInside : Nat → List Appended → List Appended
  | _, [] => []
  | n, a :: log => if a.frame.bytes.length ≤ n then a :: wholeInside (n-a.frame.bytes.length) log else []

/-- The records of the file up to the one that is cut. -/
def upToCut (n : Nat) (log : List Appended) : List Appended := log.take ((wholeInside n log).length+1)

theorem mem_upToCut (h : a ∈ wholeInside n log) : a ∈ upToCut n log := by
  unfold upToCut
  induction log generalizing n with
  | nil => cases h
  | cons b log ih =>
    rw [wholeInside] at h ⊢
    split at h
    · next hb =>
      rw [if_pos hb,length_cons,take_succ_cons]
      rcases mem_cons.1 h with rfl | h
      · exact mem_cons_self
      · exact mem_cons_of_mem b (ih h)
    · cases h

theorem take_fileOf (n : Nat) (log : List Appended) : ∃ torn, (fileOf log).take n =
    fileOf (wholeInside n log)++torn ∧
    (torn = [] ∨ ∃ a ∈ upToCut n log, ∃ m < a.frame.bytes.length, torn = a.frame.bytes.take m) := by
  unfold upToCut
  induction log generalizing n with
  | nil => exact ⟨[],by simp [wholeInside],.inl rfl⟩
  | cons a log ih =>
    rw [wholeInside]
    split
    · next h =>
      obtain ⟨torn,heq,htorn⟩ := ih (n-a.frame.bytes.length)
      rw [length_cons,take_succ_cons]
      refine ⟨torn,?_,?_⟩
      · rw [fileOf_cons,take_append,take_of_length_le h,heq,fileOf_cons,append_assoc]
      · rcases htorn with rfl | ⟨b,hb,m,hm,rfl⟩
        · exact .inl rfl
        · exact .inr ⟨b,mem_cons_of_mem a hb,m,hm,rfl⟩
    · next h =>
      refine ⟨a.frame.bytes.take n,?_,.inr ⟨a,mem_cons_self,n,by omega,rfl⟩⟩
      rw [fileOf_cons,take_append_of_le_length (by omega),fileOf_nil,nil_append]

theorem nextEntry_torn (hr : ∀ a ∈ log, a.Readable)
    (h : torn = [] ∨ ∃ a ∈ log, ∃ m < a.frame.bytes.length, torn = a.frame.bytes.take m) :
    nextEntry keys torn = none := by
  rcases h with rfl | ⟨a,ha,m,hm,rfl⟩
  · rfl
  · obtain ⟨err,herr,heof⟩ := readFrame_torn (hr a ha).frame hm
    exact nextEntry_of_eof (readEntryFrom_of_error keys herr) heof

/-- After a crash that cut the file anywhere, the records wholly inside it are recovered and nothing
else. -/
theorem recover_torn {keys : Keys} {log : List Appended} {n : Nat} (hr : ∀ a ∈ upToCut n log, a.Readable)
    (hkeys : ∀ a ∈ wholeInside n log, keys.Decrypts a) :
    recover keys (openFile ((fileOf log).take n)) = .ok ((wholeInside n log).map Appended.entry) := by
  obtain ⟨torn,htake,htorn⟩ := take_fileOf n log
  have hwhole : Reads keys Appended.entry (wholeInside n log) :=
    reads_of_decrypts (fun a ha => hr a (mem_upToCut ha)) hkeys
  rw [htake,openFile_append (fun a ha => hr a (mem_upToCut ha)) (nextEntry_torn hr htorn)]
  refine recover_of_plain ?_ plain_entries
  have hscan := hwhole.scan []
  rw [append_nil] at hscan
  rw [hscan,show scan keys [] = [] from rfl,append_nil,map_fst_positions]

def sampleTag (plaintext : List UInt8) : List UInt8 := toBytes 16 (crcUpdate 0 plaintext).toNat

def sampleManager : EncryptionManager where
  keyVersion := 1
  encryptPage _ plaintext _ := .ok (plaintext++sampleTag plaintext)
  decryptPage _ ciphertext _ _ :=
    let plaintext := ciphertext.take (ciphertext.length-16)
    if ciphertext.drop (ciphertext.length-16) = sampleTag plaintext then .ok plaintext
    else .error "cipher: message authentication failed"
  length_encryptPage := by
    intro nonce plaintext aad ciphertext h
    cases h
    simp [sampleTag]

def sampleKeys : Keys := ⟨some sampleManager,none⟩

theorem sampleKeys_decrypts (h : a.keys = sampleKeys) : sampleKeys.Decrypts a := by
  constructor
  · intro e he
    rw [h] at he
    cases he
    refine ⟨sampleManager,rfl,?_⟩
    intro nonce plaintext aad ciphertext henc
    cases henc
    have hlen : (plaintext++sampleTag plaintext).length-16 = plaintext.length := by simp [sampleTag]
    simp only [sampleManager,hlen,take_left,drop_left,if_true]
  · intro he
    rw [h] at he
    cases he

def sampleAppended (txID : BitVec 64) (opType : UInt8) (payload : List UInt8) (h : payload.length ≤ maxPayloadSize) :
    Appended where
  keys := sampleKeys
  nonce := zeroNonce
  txID := txID
  opType := opType
  payload := payload
  frame := ⟨txID,opType,1,1,zeroNonce,payload++sampleTag payload⟩
  built := by
    rw [buildFrame,if_neg (Nat.not_lt.2 h)]
    rfl

theorem sampleAppended_readable {txID : BitVec 64} {opType : UInt8}
    (h : payload.length+16 ≤ maxPayloadSize) : (sampleAppended txID opType payload (by omega)).Readable := h

def sampleLog : List Appended := [sampleAppended 1 0x50 [7] (by decide),sampleAppended 2 0x50 [8] (by decide)]

theorem sampleLog_readable : ∀ a ∈ sampleLog, a.Readable := by
  intro a ha
  rcases mem_cons.1 ha with rfl | ha
  · exact sampleAppended_readable (by decide)
  · obtain rfl := mem_singleton.1 ha
    exact sampleAppended_readable (by decide)

theorem sampleLog_decrypts : ∀ a ∈ sampleLog, sampleKeys.Decrypts a := by
  intro a ha
  rcases mem_cons.1 ha with rfl | ha
  · exact sampleKeys_decrypts rfl
  · obtain rfl := mem_singleton.1 ha
    exact sampleKeys_decrypts rfl

/-- Cut in the second record, the first is recovered. -/
theorem recover_torn_sample :
    recover sampleKeys (openFile ((fileOf sampleLog).take 60)) = .ok [⟨1, 0x50, [7], false⟩] :=
  recover_torn (fun a ha => sampleLog_readable a (mem_of_mem_take ha))
    fun a ha => sampleLog_decrypts a (mem_of_mem_take (mem_upToCut ha))

theorem resync_short (keys : Keys) (h : r.length < 38) : resync keys r = none := by
  suffices hloop : ∀ fuel r, r.length < 38 → resyncLoop keys fuel r = none from hloop _ r h
  intro fuel
  induction fuel with
  | zero => intro r _; rfl
  | succ fuel ih =>
    intro r h
    cases r with
    | nil => rfl
    | cons b r =>
      have hrest := length_readEntryFrom_rest keys (cons_ne_nil b r)
      rw [resyncLoop]
      split
      · exact ih r (Nat.lt_of_succ_lt h)
      split
      · rfl
      split
      · rcases hread : readEntryFrom keys (b :: r) with ⟨_ | x,rest⟩
        · rw [hread] at hrest
          exact ih rest (Nat.lt_trans hrest h)
        · obtain ⟨F,hF⟩ := readFrame_of_ok (congrArg Prod.fst hread)
          exact absurd (length_of_readFrame hF) (Nat.not_le.2 h)
      · refine ih _ ?_
        rw [length_drop]
        rw [length_cons] at h
        omega

section
variable (hlen : payload.length = maxPayloadSize) (hV : 0x56 ∉ payload)
include hlen hV
/-- An encrypted payload as long as the limit allows is not found again, because the limit is then
checked on the ciphertext. -/
theorem nextEntry_large (keys : Keys) : nextEntry keys
    (sampleAppended 1 0x60 payload hlen.le).frame.bytes = none := by
  generalize hF : (sampleAppended 1 0x60 payload hlen.le).frame = F
  have hpayload : F.payload = payload++sampleTag payload := by rw [← hF]; rfl
  have hsize : F.payload.length = maxPayloadSize+16 := by rw [hpayload,length_append,hlen]; simp [sampleTag]
  have hread : (readFrame F.bytes).1 = .error (.tooLarge F.payload.length) := by
    have := readFrame_tooLarge (F := F) (by omega) (by rw [hsize]; decide) []
    rwa [append_nil] at this
  have hheader : F.header.drop 1 = [0x44,0x42,0x31]++(toBytes 8 1++(0x60 :: 1 :: (toBytes 4 1++(replicate 12 0++
      toBytes 4 (maxPayloadSize+16))))) := by
    rw [Frame.header,hsize,← hF]
    rfl
  have hsplit : F.bytes.drop 1 = (F.header.drop 1++payload)++(sampleTag payload++toBytes 4 F.crc.toNat) := by
    rw [Frame.bytes,drop_append_of_le_length (by rw [F.length_header]; omega),hpayload]
    simp only [append_assoc]
  have hskip : 0x56 ∉ F.header.drop 1++payload := by
    rw [mem_append,not_or,hheader]
    exact ⟨by decide,hV⟩
  rw [nextEntry_of_bad (readEntryFrom_of_error keys hread) rfl,hsplit,resync_append keys hskip,
    resync_short keys (by simp [sampleTag])]

theorem large_lost
    (hn : n = maxPayloadSize+54) : recover sampleKeys
    (openFile ((fileOf [sampleAppended 1 0x60 payload hlen.le]).take n)) ≠
      .ok ((wholeInside n [sampleAppended 1 0x60 payload hlen.le]).map Appended.entry) := by
  have hnext := nextEntry_large hlen hV Keys.none
  have hbytes : (sampleAppended 1 0x60 payload hlen.le).frame.bytes.length = n := by
    have hpayload : (sampleAppended 1 0x60 payload hlen.le).frame.payload.length = payload.length+16 := by
      simp [sampleAppended,sampleTag]
    rw [Frame.length_bytes,hpayload]
    omega
  generalize sampleAppended 1 0x60 payload hlen.le = a at hnext hbytes ⊢
  have hopen : openFile ((fileOf [a]).take n) = [] := by
    have hempty : openFile (fileOf []++a.frame.bytes) = fileOf [] := openFile_append (by simp) hnext
    rw [fileOf_cons,fileOf_nil,append_nil,take_of_length_le hbytes.le]
    exact hempty
  rw [hopen,wholeInside,if_pos hbytes.le,show recover sampleKeys [] = .ok [] from rfl]
  simp
end

def largeAppended : Appended := sampleAppended 1 0x60 (List.replicate maxPayloadSize 0) List.length_replicate.le

theorem large_record_lost : recover sampleKeys (openFile ((fileOf [largeAppended]).take (maxPayloadSize+54))) ≠
    .ok ((wholeInside (maxPayloadSize+54) [largeAppended]).map Appended.entry) :=
  large_lost length_replicate (fun h => absurd (eq_of_mem_replicate h) (by decide)) rfl

/-- Opened and recovered, a file whose bytes of one record were overwritten gives every other record
in order, and nothing that was not appended. -/
def DamageContained (keys : Keys) (before : List Appended) (a : Appended) (damaged : List UInt8)
    (after : List Appended) : Prop :=
  ∃ es, recover keys (openFile (fileOf before++(damaged++fileOf after))) = .ok es ∧
    ((before++after).map Appended.entry).Sublist es ∧ ∀ e ∈ es, e ∈ (before++a :: after).map Appended.entry

theorem behind_positions_nil (h : log ≠ []) (s : List UInt8) : behind s (positions entry [] log) = [] := by
  cases log with
  | nil => exact absurd rfl h
  | cons a log =>
    have := behind_positions entry [] log []
    rw [append_nil,append_nil,behind_nil] at this
    rw [positions,behind_cons]
    rw [append_nil]
    exact this

section
variable {keys : Keys} {entry : Appended → Entry} {after : List Appended} {damaged : List UInt8} {err : ReadError}
theorem scan_damaged (hreads : Reads keys entry after) (hne : damaged ≠ [])
    (hread : (readEntryFrom keys (damaged++fileOf after)).1 = .error err) (heof : err.isEOF = true → after = [])
    (hV : 0x56 ∉ damaged.drop 1) : scan keys (damaged++fileOf after) = positions entry [] after := by
  have hdrop : (damaged++fileOf after).drop 1 = damaged.drop 1++fileOf after :=
    drop_append_of_le_length (length_pos_iff.2 hne)
  cases after with
  | nil =>
    have hnext : nextEntry keys (damaged++fileOf []) = none := by
      cases he : err.isEOF with
      | true => exact nextEntry_of_eof hread he
      | false =>
        rw [nextEntry_of_bad hread he,hdrop,resync_append keys hV]
        rfl
    exact collect_of_none hnext _
  | cons b after =>
    have he : err.isEOF = false := by
      cases he : err.isEOF with
      | true => cases heof he
      | false => rfl
    obtain ⟨size,hb⟩ := readOk_eq_some.1 (hreads b mem_cons_self (fileOf after))
    have hnext : nextEntry keys (damaged++fileOf (b :: after)) = some (entry b,fileOf after) := by
      rw [nextEntry_of_bad hread he,hdrop,resync_append keys hV,fileOf_cons,resync_of_ok keys hb]
    have hrest : Reads keys entry after := fun c hc => hreads c (mem_cons_of_mem b hc)
    have hscan := hrest.scan []
    rw [append_nil,show scan keys [] = [] from rfl,append_nil] at hscan
    rw [WalFile.scan,collect_of_some length length_nextEntry_rest hnext]
    change _ :: WalFile.scan keys (fileOf after) = _
    rw [hscan,positions,append_nil]
end

/-- The damaged record cannot be read, not because the file ends there unless no record follows, and
no byte of it behind the first is the first byte of the magic. -/
def Confined (damaged : List UInt8) (after : List Appended) : Prop :=
  (∃ err, (readEntryFrom Keys.none (damaged++fileOf after)).1 = .error err ∧ (err.isEOF = true → after = [])) ∧
    0x56 ∉ damaged.drop 1

/-- A confined damage, or one that has written the bytes that were there. -/
def Tolerated (keys : Keys) (a : Appended) (damaged : List UInt8) (after : List Appended) : Prop :=
  Confined damaged after ∨ damaged = a.frame.bytes ∧ a.Readable ∧ keys.Decrypts a

/-- The damaged record seems to go on behind the end of the file, and another one follows. -/
def RunsOut (damaged : List UInt8) (after : List Appended) : Prop :=
  (∃ err, (readEntryFrom Keys.none (damaged++fileOf after)).1 = .error err ∧ err.isEOF = true) ∧ after ≠ []

section
variable {keys : Keys} {before after : List Appended} {a : Appended} {damaged : List UInt8}
theorem recover_fileOf {log : List Appended} (hr : ∀ b ∈ log, b.Readable) (hkeys : ∀ b ∈ log, keys.Decrypts b) :
    recover keys (fileOf log) = .ok (log.map Appended.entry) := by
  have hwhole := (reads_of_decrypts hr hkeys).scan []
  rw [append_nil,show scan keys [] = [] from rfl,append_nil] at hwhole
  exact recover_of_plain (hwhole ▸ map_fst_positions _ _ _) plain_entries

theorem openFile_fileOf {log : List Appended} (hr : ∀ b ∈ log, b.Readable) : openFile (fileOf log) = fileOf log := by
  have hcut : openFile (fileOf log++[]) = fileOf log := openFile_append hr rfl
  rwa [append_nil] at hcut

theorem contained_of_confined (hr : ∀ b ∈ before++after, b.Readable) (hkeys : ∀ b ∈ before++after, keys.Decrypts b)
    (hlen : damaged.length = a.frame.bytes.length) (h : Confined damaged after) :
    DamageContained keys before a damaged after := by
  obtain ⟨⟨err,hread,heof⟩,hV⟩ := h
  have hne : damaged ≠ [] := by
    rintro rfl
    rw [a.frame.length_bytes] at hlen
    simp at hlen
  have hr1 : ∀ b ∈ before, b.Readable := fun b hb => hr b (mem_append_left _ hb)
  have hr2 : ∀ b ∈ after, b.Readable := fun b hb => hr b (mem_append_right _ hb)
  have hread1 : Reads keys Appended.entry before := reads_of_decrypts hr1 fun b hb => hkeys b (mem_append_left _ hb)
  have hread2 : Reads keys Appended.entry after := reads_of_decrypts hr2 fun b hb => hkeys b (mem_append_right _ hb)
  -- without keys and with them the record is bad in the same way
  have hopen := scan_damaged (reads_none hr2) hne hread heof hV
  have hscan := scan_damaged hread2 hne (readEntryFrom_of_error keys (readFrame_error_of_none hread)) heof hV
  refine ⟨(before++after).map Appended.entry,?_,List.Sublist.refl _,?_⟩
  · by_cases hafter : after = []
    · subst hafter
      have hcut : openFile (fileOf before++(damaged++fileOf [])) = fileOf before := by
        rw [openFile,validEnd,(reads_none hr1).scan,hopen,positions,behind_positions,behind_nil,length_append,
          Nat.add_sub_cancel,take_left]
      rw [hcut,append_nil]
      exact recover_fileOf hr1 fun b hb => hkeys b (mem_append_left _ hb)
    · have hkeep : openFile (fileOf before++(damaged++fileOf after)) = fileOf before++(damaged++fileOf after) := by
        rw [openFile,validEnd,(reads_none hr1).scan,hopen,behind_positions,behind_positions_nil _ hafter]
        exact take_of_length_le (by simp)
      refine recover_of_plain ?_ plain_entries
      rw [hkeep,hread1.scan,hscan,map_append,map_fst_positions,map_fst_positions,map_append]
  · intro e he
    rw [map_append,mem_append] at he
    rw [map_append,map_cons,mem_append,mem_cons]
    rcases he with he | he
    · exact .inl he
    · exact .inr (.inr he)

theorem contained_of_unchanged (hr : ∀ b ∈ before++after, b.Readable) (hkeys : ∀ b ∈ before++after, keys.Decrypts b)
    (ha : a.Readable) (hkey : keys.Decrypts a) : DamageContained keys before a a.frame.bytes after := by
  have hsplit : ∀ b ∈ before++a :: after, b = a ∨ b ∈ before++after := by
    intro b hb
    rw [mem_append,mem_cons] at hb
    rw [mem_append]
    rcases hb with hb | hb | hb
    · exact .inr (.inl hb)
    · exact .inl hb
    · exact .inr (.inr hb)
  have hall : ∀ b ∈ before++a :: after, b.Readable := by
    intro b hb
    rcases hsplit b hb with rfl | hb
    · exact ha
    · exact hr b hb
  have hdecrypts : ∀ b ∈ before++a :: after, keys.Decrypts b := by
    intro b hb
    rcases hsplit b hb with rfl | hb
    · exact hkey
    · exact hkeys b hb
  refine ⟨(before++a :: after).map Appended.entry,?_,?_,fun e he => he⟩
  · rw [← fileOf_cons,← fileOf_append,openFile_fileOf hall]
    exact recover_fileOf hall hdecrypts
  · exact ((List.sublist_cons_self a after).append_left before).map _

theorem not_contained_of_eof (hr : ∀ b ∈ before, b.Readable) (hkeys : ∀ b ∈ before, keys.Decrypts b)
    (h : RunsOut damaged after) : ¬ DamageContained keys before a damaged after := by
  obtain ⟨⟨err,hread,heof⟩,hafter⟩ := h
  rintro ⟨es,hes,hsub,-⟩
  rw [openFile_append hr (nextEntry_of_eof hread heof),recover_fileOf hr hkeys] at hes
  cases hes
  have hle := hsub.length_le
  have hpos := length_pos_iff.2 hafter
  simp only [length_map,length_append] at hle
  omega
end

def sampleFirst : Appended := sampleAppended 1 0x50 [7] (by decide)
def sampleSecond : Appended := sampleAppended 2 0x50 [8] (by decide)

/-- `Recover`, `Replay` and `AnalyzeTransactions` succeed with the same entries, and
`ReplayTransaction` with those of its transaction. -/
def ReadersAgree (keys : Keys) (file : List UInt8) : Prop :=
  ∃ es, recover keys file = .ok es ∧ replayed keys file = .ok es ∧ analyzed keys file = es ∧
    ∀ txID, replayedTransaction keys txID file = .ok (es.filter fun e => e.txID = txID)

/-- One record after another can be read, with a key if it needs one, until the file ends. -/
inductive Clean (keys : Keys) : List UInt8 → Prop where
  | stop {r : List UInt8} {err : ReadError} (h : (readEntryFrom keys r).1 = .error err) (heof : err.isEOF = true) : Clean keys r
  | record {r rest : List UInt8} {e : Entry} {size : Nat} (h : readEntryFrom keys r = (.ok (e,size),rest))
      (hkey : ¬ (e.encrypted && keys.missing) = true) (hrest : Clean keys rest) : Clean keys r

section
variable {keys : Keys} {r rest : List UInt8} {e : Entry} {err : ReadError}
theorem readOk_of_error (h : (readEntryFrom keys r).1 = .error err) : readOk keys r = none := by
  rw [readOk]
  rcases hread : readEntryFrom keys r with ⟨err' | x,rest⟩
  · rfl
  · rw [hread] at h
    cases h

theorem readEntries_of_some (h : readOk keys r = some (e,rest)) :
    readEntries keys r = (e,rest) :: readEntries keys rest := collect_of_some length length_readOk_rest h

theorem readEntries_of_none (h : readOk keys r = none) : readEntries keys r = [] := collect_of_none h _

theorem scan_of_some (h : nextEntry keys r = some (e,rest)) : scan keys r = (e,rest) :: scan keys rest :=
  collect_of_some length length_nextEntry_rest h

theorem readError_of_some (h : readOk keys r = some (e,rest)) : readError keys r = readError keys rest := by
  rw [readError,readError,readEntries_of_some h,behind_cons]

theorem readError_of_error (h : (readEntryFrom keys r).1 = .error err) : readError keys r = err := by
  rw [readError,readEntries_of_none (readOk_of_error h),behind_nil,h]
end

theorem Clean.loops (h : Clean keys r) : scan keys r = readEntries keys r ∧
    (readError keys r).isEOF = true ∧ ∀ x ∈ readEntries keys r, ¬ (x.1.encrypted && keys.missing) = true := by
  induction h with
  | stop h heof =>
    rw [readEntries_of_none (readOk_of_error h),readError_of_error h]
    exact ⟨collect_of_none (nextEntry_of_eof h heof) _,heof,by simp⟩
  | record h hkey _ ih =>
    have hok := readOk_eq_some.2 ⟨_,h⟩
    obtain ⟨hscan,heof,hkeys⟩ := ih
    rw [readEntries_of_some hok,scan_of_some (nextEntry_of_readOk hok),readError_of_some hok,hscan]
    refine ⟨rfl,heof,?_⟩
    intro x hx
    rcases mem_cons.1 hx with rfl | hx
    · exact hkey
    · exact hkeys x hx

theorem clean_of_loop (heof : (readError keys r).isEOF = true)
    (hkeys : ∀ x ∈ readEntries keys r, ¬ (x.1.encrypted && keys.missing) = true) : Clean keys r := by
  generalize hn : r.length = n
  induction n using Nat.strongRecOn generalizing r with
  | ind n ih =>
    subst hn
    rcases hread : readEntryFrom keys r with ⟨err | ⟨e,size⟩,rest⟩
    · have hread := congrArg Prod.fst hread
      rw [readError_of_error hread] at heof
      exact .stop hread heof
    · have hok := readOk_eq_some.2 ⟨size,hread⟩
      rw [readError_of_some hok] at heof
      rw [readEntries_of_some hok] at hkeys
      refine .record hread (hkeys _ mem_cons_self) (ih _ (length_readOk_rest hok) heof ?_ rfl)
      exact fun x hx => hkeys x (mem_cons_of_mem _ hx)

theorem checkKeys_ok (h : checkKeys keys found = .ok es) :
    es = found.map Prod.fst ∧ ∀ e ∈ es, ¬ (e.encrypted && keys.missing) = true := by
  induction found generalizing es with
  | nil =>
    cases h
    simp
  | cons x found ih =>
    rw [checkKeys] at h
    split at h
    · cases h
    next hx =>
    cases hf : checkKeys keys found with
    | error y => simp [hf,Except.map] at h
    | ok rest =>
      rw [hf] at h
      cases h
      obtain ⟨hrest,hkeys⟩ := ih hf
      refine ⟨by rw [hrest,map_cons],?_⟩
      intro e he
      rcases mem_cons.1 he with rfl | he
      · exact hx
      · exact hkeys e he

theorem recover_ok (h : recover keys file = .ok es) : checkKeys keys (scan keys file) = .ok es := by
  rw [recover] at h
  cases hc : checkKeys keys (scan keys file) with
  | error x => simp [hc,Except.mapError] at h
  | ok es' =>
    rw [hc] at h
    cases h
    rfl

/-- On the file that `Open` leaves, the readers agree exactly when it is clean. -/
theorem readers_agree_iff (keys : Keys) (file : List UInt8) :
    ReadersAgree keys (openFile file) ↔ Clean keys (openFile file) := by
  generalize openFile file = file
  constructor
  · rintro ⟨es,hrecover,hreplay,hanalyze,-⟩
    obtain ⟨-,hkeys⟩ := checkKeys_ok (recover_ok hrecover)
    have heof : (readError keys file).isEOF = true := by
      rw [replayed] at hreplay
      split at hreplay
      · assumption
      · cases hreplay
    refine clean_of_loop heof fun x hx => hkeys x.1 ?_
    rw [← hanalyze]
    exact mem_map_of_mem hx
  · intro h
    obtain ⟨hscan,heof,hkeys⟩ := h.loops
    refine ⟨(readEntries keys file).map Prod.fst,?_,?_,rfl,?_⟩
    · rw [recover,hscan,checkKeys_of_keys hkeys]
      rfl
    · rw [replayed,if_pos heof]
    · intro txID
      rw [replayedTransaction,if_pos heof]

/-- A payload byte of the first record is overwritten: `Replay` fails, the others do not. -/
theorem readers_differ : ¬ ReadersAgree sampleKeys
    (openFile (sampleFirst.frame.bytes.set 34 9++sampleSecond.frame.bytes)) := by
  rintro ⟨es,-,hreplay,-⟩
  have hfail : replayed sampleKeys (openFile (sampleFirst.frame.bytes.set 34 9++sampleSecond.frame.bytes)) =
      .error "wal: read entry: wal: checksum mismatch" := by decide +kernel
  rw [hfail] at hreplay
  cases hreplay

end VaultDB.WalFile
