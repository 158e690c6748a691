import Mathlib.Data.List.DropRight
import Mathlib.Logic.Function.Basic
import VaultDB.Wal.Payload
import VaultDB.Wal.Readers
set_option autoImplicit false

/-!
Logical decoding of a log file, after `logical.go`: the row changes of each transaction are kept
back until its commit record is read.
-/

namespace VaultDB.WalFile
open Lib Appended List

inductive LogicalEventType where
  | insert
  | delete
  | commit
  deriving DecidableEq, Repr

structure LogicalEvent where
  txID : BitVec 64
  type : LogicalEventType
  db : List UInt8
  table : List UInt8
  tupleData : List UInt8
  timestamp : BitVec 64
  deriving DecidableEq, Repr

abbrev ActiveTx := BitVec 64 → List LogicalEvent
def ActiveTx.append (d : ActiveTx) (event : LogicalEvent) : ActiveTx :=
  Function.update d event.txID (d event.txID++[event])
def ActiveTx.delete (d : ActiveTx) (txID : BitVec 64) : ActiveTx := Function.update d txID []

variable {event : LogicalEvent}
section
variable {V : Type} (J : Json V)
def insertEvent (txID : BitVec 64) (p : PageInsert) : LogicalEvent := ⟨txID,.insert,p.db,p.table,p.tupleData,0⟩
def deleteEvent (txID : BitVec 64) (p : PageDelete) : LogicalEvent := ⟨txID,.delete,p.db,p.table,[],0⟩
def commitEvent (txID timestamp : BitVec 64) : LogicalEvent := ⟨txID,.commit,[],[],[],timestamp⟩

def decodeEntry (d : ActiveTx) (e : Entry) : List LogicalEvent × ActiveTx :=
  match decodeWALPayload J e.payload e.opType with
  | .error _ => ([],d)
  | .ok payload =>
    if e.opType = opPageInsert then
      match payload with
      | some (.pageInsert p) => ([],d.append (insertEvent e.txID p))
      | _ => ([],d)
    else if e.opType = opPageDelete ∨ e.opType = opPageUpdateXMax then
      match payload with
      | some (.pageDelete p) => ([],d.append (deleteEvent e.txID p))
      | _ => ([],d)
    else if e.opType = opCommit then
      match payload with
      | some (.commit timestamp) => (d e.txID++[commitEvent e.txID timestamp],d.delete e.txID)
      | _ => ([],d)
    else if e.opType = opAbort then ([],d.delete e.txID)
    else ([],d)

def decodeEntries (d : ActiveTx) : List Entry → List LogicalEvent × ActiveTx
  | [] => ([],d)
  | e :: es =>
    ((decodeEntry J d e).1++(decodeEntries (decodeEntry J d e).2 es).1,(decodeEntries (decodeEntry J d e).2 es).2)

/-- `DecodeFile`: its error, and the events it has emitted.  The file is opened without keys. -/
def decodeFile (d : ActiveTx) (file : List UInt8) : Option String × List LogicalEvent :=
  let w := openFile file
  (if (readError .none w).isEOF then none else some (readError .none w).message,
    (decodeEntries J d ((readEntries .none w).map Prod.fst)).1)

def rowEvent (e : Entry) : Option LogicalEvent :=
  if e.opType = opPageInsert then
    match decodeWALPayload J e.payload e.opType with
    | .ok (some (.pageInsert p)) => some (insertEvent e.txID p)
    | _ => none
  else if e.opType = opPageDelete ∨ e.opType = opPageUpdateXMax then
    match decodeWALPayload J e.payload e.opType with
    | .ok (some (.pageDelete p)) => some (deleteEvent e.txID p)
    | _ => none
  else none

def commitTime (e : Entry) : Option (BitVec 64) :=
  match decodeWALPayload J e.payload e.opType with
  | .ok (some (.commit timestamp)) => some timestamp
  | _ => none

def Entry.ends (txID : BitVec 64) (e : Entry) : Bool :=
  e.txID == txID && (e.opType == opCommit || e.opType == opAbort)

def pendingEvents (txID : BitVec 64) (es : List Entry) : List LogicalEvent :=
  ((es.rtakeWhile fun e => !e.ends txID).filter (·.txID = txID)).filterMap (rowEvent J)

def reported (past : List Entry) : List Entry → List LogicalEvent
  | [] => []
  | e :: es =>
    (if e.opType = opCommit then pendingEvents J e.txID
      past++[commitEvent e.txID ((commitTime J e).getD 0)] else [])++
      reported (past++[e]) es
end

section
variable {V : Type} {J : Json V} {past : List Entry} {e : Entry}
theorem pendingEvents_concat (txID : BitVec 64) (past : List Entry) (e : Entry) : pendingEvents J txID (past++[e]) =
      if e.ends txID then [] else
      pendingEvents J txID past++if e.txID = txID then (rowEvent J e).toList else [] := by
  rw [pendingEvents,rtakeWhile_concat,pendingEvents]
  cases e.ends txID with
  | true => rfl
  | false =>
    by_cases h : e.txID = txID
    · cases hr : rowEvent J e with
      | none => simp [h,hr]
      | some event => simp [h,hr]
    · simp [h]

theorem ends_of_opType {e : Entry} (hc : e.opType ≠ opCommit) (ha : e.opType ≠ opAbort) (txID : BitVec 64) :
    e.ends txID = false := by
  simp [Entry.ends,hc,ha]

theorem pending_keep (hends : ∀ txID, e.ends txID = false) (hrow : rowEvent J e = none) :
    (fun txID => pendingEvents J txID past) = fun txID => pendingEvents J txID (past++[e]) := by
  funext txID
  simp [pendingEvents_concat,hends,hrow]

theorem pending_append (hends : ∀ txID, e.ends txID = false) (hrow : rowEvent J e = some event)
    (htx : event.txID = e.txID) :
    ActiveTx.append (fun txID => pendingEvents J txID past) event = fun txID =>
    pendingEvents J txID (past++[e]) := by
  funext txID
  rw [ActiveTx.append,pendingEvents_concat,hends,htx,hrow]
  by_cases h : txID = e.txID
  · subst h
    simp
  · simp [Function.update_of_ne h,Ne.symm h]

theorem pending_delete (h : e.opType = opCommit ∨ e.opType = opAbort) (hrow : rowEvent J e = none) :
    ActiveTx.delete (fun txID => pendingEvents J txID past) e.txID = fun txID =>
    pendingEvents J txID (past++[e]) := by
  have hop : (e.opType == opCommit || e.opType == opAbort) = true := by simpa using h
  funext txID
  rw [ActiveTx.delete,pendingEvents_concat,hrow,Entry.ends,hop,Bool.and_true]
  by_cases ht : txID = e.txID
  · subst ht
    simp
  · simp [Function.update_of_ne ht,Ne.symm ht]

variable (J) in
structure Entry.Decodable (e : Entry) : Prop where
  commit : e.opType = opCommit → ∃ timestamp, commitTime J e = some timestamp
  abort : e.opType = opAbort → ∃ payload, decodeWALPayload J e.payload e.opType = .ok payload

theorem rowEvent_none (hi : e.opType ≠ opPageInsert)
    (hd : ¬ (e.opType = opPageDelete ∨ e.opType = opPageUpdateXMax)) : rowEvent J e = none := by
  rw [rowEvent,if_neg hi,if_neg hd]

theorem txID_of_rowEvent (h : rowEvent J e = some event) : event.txID = e.txID := by
  rw [rowEvent] at h
  repeat' split at h
  all_goals cases h
  all_goals rfl

theorem decodeEntry_row (h : e.opType = opPageInsert ∨ e.opType = opPageDelete ∨ e.opType =
      opPageUpdateXMax) (d : ActiveTx) :
    decodeEntry J d e = ([],(rowEvent J e).elim d d.append) := by
  by_cases hi : e.opType = opPageInsert
  · rw [decodeEntry,rowEvent,if_pos hi]
    rcases decodeWALPayload J e.payload e.opType with _ | (_ | p)
    · rfl
    · dsimp only
      rw [if_pos hi]
      rfl
    · dsimp only
      rw [if_pos hi]
      cases p <;> rfl
  · have hd := h.resolve_left hi
    rw [decodeEntry,rowEvent,if_neg hi,if_pos hd]
    rcases decodeWALPayload J e.payload e.opType with _ | (_ | p)
    · rfl
    · dsimp only
      rw [if_neg hi,if_pos hd]
      rfl
    · dsimp only
      rw [if_neg hi,if_pos hd]
      cases p <;> rfl

theorem decodeEntry_commit (h : e.opType = opCommit) (d : ActiveTx) : decodeEntry J d e =
    (commitTime J e).elim ([],d)
      fun timestamp => (d e.txID++[commitEvent e.txID timestamp],d.delete e.txID) := by
  have hi : e.opType ≠ opPageInsert := by
    rw [h]
    decide
  have hd : ¬ (e.opType = opPageDelete ∨ e.opType = opPageUpdateXMax) := by
    rw [h]
    decide
  rw [decodeEntry,commitTime]
  rcases decodeWALPayload J e.payload e.opType with _ | (_ | p)
  · rfl
  · dsimp only
    rw [if_neg hi,if_neg hd,if_pos h]
    rfl
  · dsimp only
    rw [if_neg hi,if_neg hd,if_pos h]
    cases p <;> rfl

theorem decodeEntry_abort (h : e.opType = opAbort) {payload : Option (Payload V)}
    (hp : decodeWALPayload J e.payload e.opType = .ok payload) (d : ActiveTx) :
    decodeEntry J d e = ([],d.delete e.txID) := by
  rw [decodeEntry,hp]
  simp only [h,show opAbort ≠ opPageInsert by decide,show opAbort ≠ opPageDelete by decide,
    show opAbort ≠ opPageUpdateXMax by decide,show opAbort ≠ opCommit by decide,if_false,if_true,or_self]

theorem decodeEntry_other (hi : e.opType ≠ opPageInsert)
    (hd : ¬ (e.opType = opPageDelete ∨ e.opType = opPageUpdateXMax))
    (hc : e.opType ≠ opCommit) (ha : e.opType ≠ opAbort) (d : ActiveTx) : decodeEntry J d e = ([],d) := by
  rw [decodeEntry]
  split
  · rfl
  · rw [if_neg hi,if_neg hd,if_neg hc,if_neg ha]

theorem decodeEntry_pending (h : e.Decodable J) : decodeEntry J (fun txID => pendingEvents J txID past) e =
    (if e.opType = opCommit then pendingEvents J e.txID past++[commitEvent e.txID ((commitTime J e).getD 0)] else [],
      fun txID => pendingEvents J txID (past++[e])) := by
  by_cases hrow : e.opType = opPageInsert ∨ e.opType = opPageDelete ∨ e.opType = opPageUpdateXMax
  · have hc : e.opType ≠ opCommit := by
      rintro hc
      rw [hc] at hrow
      exact absurd hrow (by decide)
    have ha : e.opType ≠ opAbort := by
      rintro ha
      rw [ha] at hrow
      exact absurd hrow (by decide)
    rw [decodeEntry_row hrow,if_neg hc]
    cases hev : rowEvent J e with
    | none => rw [Option.elim_none,pending_keep (ends_of_opType hc ha) hev]
    | some event => rw [Option.elim_some,pending_append (ends_of_opType hc ha) hev (txID_of_rowEvent hev)]
  rw [not_or] at hrow
  obtain ⟨hi,hd⟩ := hrow
  have hnone := rowEvent_none (J := J) hi hd
  by_cases hc : e.opType = opCommit
  · obtain ⟨timestamp,ht⟩ := h.commit hc
    rw [decodeEntry_commit hc,if_pos hc,ht,Option.elim_some,pending_delete (.inl hc) hnone,Option.getD_some]
  by_cases ha : e.opType = opAbort
  · obtain ⟨payload,hp⟩ := h.abort ha
    rw [decodeEntry_abort ha hp,if_neg hc,pending_delete (.inr ha) hnone]
  · rw [decodeEntry_other hi hd hc ha,if_neg hc,pending_keep (ends_of_opType hc ha) hnone]

theorem decodeEntries_pending {es : List Entry} (h : ∀ e ∈ es, e.Decodable J) (past : List Entry) :
    (decodeEntries J (fun txID => pendingEvents J txID past) es).1 = reported J past es := by
  induction es generalizing past with
  | nil => rfl
  | cons e es ih =>
    rw [decodeEntries,reported,decodeEntry_pending (h e mem_cons_self)]
    exact congrArg _ (ih (fun e' he => h e' (mem_cons_of_mem e he)) (past++[e]))
end

section
variable {V : Type} {J : Json V} {log : List Appended} {d : ActiveTx} {a : Appended}
variable (J) in
def Exact (log : List Appended) : Prop :=
  decodeFile J (fun _ => []) (fileOf log) = (none,reported J [] (log.map Appended.entry))

def Appended.Logical (a : Appended) : Prop :=
  a.opType = opPageInsert ∨ (a.opType = opPageDelete ∨ a.opType = opPageUpdateXMax) ∨ a.opType =
    opCommit ∨ a.opType = opAbort

variable (J) in
/-- The record can be read; if the decoder looks at it, it is not encrypted, and as an end of a
transaction it has a payload that can be decoded. -/
structure Appended.Decodable (a : Appended) : Prop where
  readable : a.Readable
  plain : a.Logical → a.keys.missing = true
  ends : a.entry.Decodable J

theorem storedEntry_of_plain (h : a.keys.missing = true) : a.storedEntry = a.entry := by
  rcases a.cases with ⟨e,c,hem,-⟩ | ⟨e,c,-,htde,-⟩ | ⟨-,hf⟩
  · simp [Keys.missing,hem] at h
  · simp [Keys.missing,htde] at h
  · rw [storedEntry,hf]
    rfl

theorem decodeEntry_stored (h : a.Decodable J) (d : ActiveTx) : decodeEntry J d a.storedEntry =
    decodeEntry J d a.entry := by
  by_cases hl : a.Logical
  · rw [storedEntry_of_plain (h.plain hl)]
  · simp only [Appended.Logical,not_or] at hl
    obtain ⟨hi,⟨hd,hx⟩,hc,ha⟩ := hl
    have hdx : ¬ (a.opType = opPageDelete ∨ a.opType = opPageUpdateXMax) := fun h => h.elim hd hx
    rw [decodeEntry_other (e := a.storedEntry) hi hdx hc ha,decodeEntry_other (e := a.entry) hi hdx hc ha]

theorem decodeEntries_stored (h : ∀ a ∈ log, a.Decodable J) (d : ActiveTx) :
    decodeEntries J d (log.map storedEntry) = decodeEntries J d (log.map entry) := by
  induction log generalizing d with
  | nil => rfl
  | cons a log ih =>
    have hrest := ih fun b hb => h b (mem_cons_of_mem a hb)
    simp only [map_cons,decodeEntries,decodeEntry_stored (h a mem_cons_self),hrest]

theorem decodeFile_fileOf (hr : ∀ a ∈ log, a.Readable) (d : ActiveTx) :
    decodeFile J d (fileOf log) = (none,(decodeEntries J d (log.map storedEntry)).1) := by
  have hopen : openFile (fileOf log) = fileOf log := by
    have : openFile (fileOf log++[]) = fileOf log := openFile_append hr rfl
    rwa [append_nil] at this
  have hread : readEntries Keys.none (fileOf log) = positions storedEntry [] log := by
    have := (reads_none hr).readEntries []
    rw [append_nil] at this
    rw [this]
    exact append_nil _
  have hend : readError Keys.none (fileOf log) = .eof := by
    have := behind_positions storedEntry [] log []
    rw [append_nil,append_nil,behind_nil] at this
    rw [readError,hread,this]
    rfl
  rw [decodeFile,hopen,hread,map_fst_positions,hend]
  rfl

theorem exact_of_decodable (h : ∀ a ∈ log, a.Decodable J) : Exact J log := by
  have hends : ∀ e ∈ log.map entry, e.Decodable J := by
    intro e he
    obtain ⟨a,ha,rfl⟩ := mem_map.1 he
    exact (h a ha).ends
  rw [Exact,decodeFile_fileOf fun a ha => (h a ha).readable,decodeEntries_stored h]
  exact congrArg _ (decodeEntries_pending hends [])

/-! Every commit that is reported was read from a commit record. -/

def LogicalEvent.isCommit (event : LogicalEvent) : Bool := event.type == .commit
def Entry.commits {V : Type} (J : Json V) (e : Entry) : Bool := e.opType == opCommit && (commitTime J e).isSome

theorem rowEvent_isCommit {e : Entry} (h : rowEvent J e = some event) : event.isCommit = false := by
  rw [rowEvent] at h
  repeat' split at h
  all_goals cases h
  all_goals rfl

def ActiveTx.Rows (d : ActiveTx) : Prop := ∀ txID, (d txID).countP LogicalEvent.isCommit = 0

theorem ActiveTx.Rows.delete (h : d.Rows) (txID : BitVec 64) : (d.delete txID).Rows := by
  intro t
  by_cases ht : t = txID
  · subst ht
    simp [ActiveTx.delete]
  · rw [ActiveTx.delete,Function.update_of_ne ht]
    exact h t

theorem ActiveTx.Rows.append (h : d.Rows) (he : event.isCommit = false) : (d.append event).Rows := by
  intro t
  by_cases ht : t = event.txID
  · subst ht
    simp [ActiveTx.append,h event.txID,he]
  · rw [ActiveTx.append,Function.update_of_ne ht]
    exact h t

theorem decodeEntry_commits (h : d.Rows) (e : Entry) :
    (decodeEntry J d e).1.countP LogicalEvent.isCommit = (if e.commits J then 1 else 0) ∧
    (decodeEntry J d e).2.Rows := by
  by_cases hc : e.opType = opCommit
  · rw [decodeEntry_commit hc,Entry.commits,hc]
    cases commitTime J e with
    | none => exact ⟨rfl,h⟩
    | some timestamp =>
      refine ⟨?_,h.delete e.txID⟩
      rw [Option.elim_some,countP_append,h e.txID]
      rfl
  have hno : e.commits J = false := by simp [Entry.commits,hc]
  rw [hno]
  by_cases hrow : e.opType = opPageInsert ∨ e.opType = opPageDelete ∨ e.opType = opPageUpdateXMax
  · rw [decodeEntry_row hrow]
    refine ⟨rfl,?_⟩
    cases hev : rowEvent J e with
    | none => exact h
    | some event => exact h.append (rowEvent_isCommit hev)
  rw [not_or] at hrow
  by_cases ha : e.opType = opAbort
  · cases hp : decodeWALPayload J e.payload e.opType with
    | error err =>
      rw [decodeEntry,hp]
      exact ⟨rfl,h⟩
    | ok payload =>
      rw [decodeEntry_abort ha hp]
      exact ⟨rfl,h.delete e.txID⟩
  · rw [decodeEntry_other hrow.1 hrow.2 hc ha]
    exact ⟨rfl,h⟩

theorem countP_decodeEntries (h : d.Rows) (es : List Entry) :
    (decodeEntries J d es).1.countP LogicalEvent.isCommit = es.countP (Entry.commits J) := by
  induction es generalizing d with
  | nil => rfl
  | cons e es ih =>
    obtain ⟨hcount,hrows⟩ := decodeEntry_commits (J := J) h e
    rw [decodeEntries,countP_append,hcount,ih hrows,countP_cons,Nat.add_comm]

theorem countP_pendingEvents (txID : BitVec 64) (es : List Entry) :
    (pendingEvents J txID es).countP LogicalEvent.isCommit = 0 := by
  rw [countP_eq_zero,pendingEvents]
  intro event hev
  obtain ⟨e,-,he⟩ := mem_filterMap.1 hev
  rw [rowEvent_isCommit he]
  exact Bool.false_ne_true

theorem countP_reported (past es : List Entry) :
    (reported J past es).countP LogicalEvent.isCommit = es.countP fun e => e.opType == opCommit := by
  induction es generalizing past with
  | nil => rfl
  | cons e es ih =>
    rw [reported,countP_append,ih,countP_cons]
    by_cases hc : e.opType = opCommit
    · rw [if_pos hc,countP_append,countP_pendingEvents]
      simp [hc,LogicalEvent.isCommit,commitEvent,Nat.add_comm]
    · simp [hc]

theorem commits_of_exact (hr : ∀ a ∈ log, a.Readable) (h : Exact J log) :
    ∀ a ∈ log, a.opType = opCommit → ∃ timestamp, commitTime J a.storedEntry = some timestamp := by
  rw [Exact,decodeFile_fileOf hr] at h
  have hcount := congrArg (List.countP LogicalEvent.isCommit) (Prod.mk.inj h).2
  rw [countP_decodeEntries (fun _ => rfl),countP_reported,countP_map,countP_map] at hcount
  have hall : ∀ a ∈ log.filter fun a => a.opType == opCommit, (commitTime J a.storedEntry).isSome = true := by
    rw [← length_filter_eq_length_iff,filter_filter,← countP_eq_length_filter,← countP_eq_length_filter]
    refine Eq.trans (countP_congr fun a _ => ?_) hcount
    rw [Function.comp_apply,Entry.commits,Bool.and_comm]
    rfl
  intro a ha hc
  exact Option.isSome_iff_exists.1 (hall a (mem_filter.2 ⟨ha,beq_iff_eq.2 hc⟩))

/-- Logical decoding is exact if the records it looks at are not encrypted and the ends of
transactions can be decoded; commit records that cannot be decoded as they are stored are never
reported. -/
theorem decode_exact (J : Json V) (log : List Appended) : ((∀ a ∈ log, a.Decodable J) → Exact J log) ∧
    ((∀ a ∈ log, a.Readable) → Exact J log →
      ∀ a ∈ log, a.opType = opCommit → ∃ timestamp, commitTime J a.storedEntry = some timestamp) :=
  ⟨exact_of_decodable,commits_of_exact⟩
end

def tagManager : EncryptionManager where
  keyVersion := 1
  encryptPage _ plaintext _ := .ok (List.replicate 16 0xA5++plaintext)
  decryptPage _ ciphertext _ _ := .ok (ciphertext.drop 16)
  length_encryptPage := by
    intro nonce plaintext aad ciphertext h
    cases h
    rw [List.length_append,List.length_replicate,Nat.add_comm]

def tagged (txID : BitVec 64) (opType : UInt8) (payload : List UInt8)
    (h : payload.length ≤ maxPayloadSize) : Appended where
  keys := ⟨some tagManager,none⟩
  nonce := zeroNonce
  txID := txID
  opType := opType
  payload := payload
  frame := ⟨txID,opType,1,1,zeroNonce,List.replicate 16 0xA5++payload⟩
  built := by
    rw [buildFrame,if_neg (Nat.not_lt.2 h)]
    rfl

def untagged (txID : BitVec 64) (opType : UInt8) (payload : List UInt8)
    (h : payload.length ≤ maxPayloadSize) : Appended where
  keys := .none
  nonce := zeroNonce
  txID := txID
  opType := opType
  payload := payload
  frame := ⟨txID,opType,0,0,zeroNonce,payload⟩
  built := by
    rw [buildFrame,if_neg (Nat.not_lt.2 h)]
    rfl

def sampleInsert : List UInt8 := encodePageInsertBinary ⟨[97],[98],0,0,0,1,[7]⟩
theorem length_sampleInsert_le : sampleInsert.length ≤ maxPayloadSize := by decide

def encryptedLog : List Appended :=
  [tagged 1 opPageInsert sampleInsert length_sampleInsert_le,tagged 1 opCommit (encodeCommitBinary 9) (by decide)]

/-- Nothing of it is reported, and there is no error. -/
theorem encrypted_log_not_exact : decodeFile noJson (fun _ => []) (fileOf encryptedLog) = (none, []) ∧
    ¬ Exact noJson encryptedLog := by
  have hreadable : ∀ a ∈ encryptedLog, a.Readable := by
    have hall : ∀ a ∈ encryptedLog, a.payload.length ≤ 100 ∧ a.keys.missing = false := by
      simp only [encryptedLog,forall_mem_cons]
      decide +kernel
    intro a ha
    obtain ⟨hlen,hkeys⟩ := hall a ha
    rw [Appended.Readable,hkeys]
    exact Nat.le_trans (Nat.add_le_add_right hlen 16) (by decide)
  have hsilent : decodeFile noJson (fun _ => []) (fileOf encryptedLog) = (none,[]) := by
    rw [decodeFile_fileOf hreadable]
    decide +kernel
  refine ⟨hsilent,?_⟩
  rw [Exact,hsilent]
  decide +kernel

def plainLog : List Appended :=
  [untagged 1 opPageInsert sampleInsert length_sampleInsert_le,
    untagged 2 opPageInsert sampleInsert length_sampleInsert_le,
    untagged 1 opCommit (encodeCommitBinary 9) (by decide),untagged 2 opAbort [] (by decide),
    untagged 1 opPageInsert sampleInsert length_sampleInsert_le,untagged 2 opCommit (encodeCommitBinary 10) (by decide)]

theorem decode_exact_sample : decodeFile noJson (fun _ => []) (fileOf plainLog) =
    (none, [⟨1, .insert, [97], [98], [7], 0⟩, ⟨1, .commit, [], [], [], 9⟩, ⟨2, .commit, [], [], [], 10⟩]) := by
  have hdecodable : ∀ a ∈ plainLog, a.Decodable noJson := by
    have hall : ∀ a ∈ plainLog, a.payload.length ≤ 100 ∧ a.keys.missing = true ∧
        (a.opType = opCommit → (commitTime noJson a.entry).isSome = true) ∧
          (a.opType = opAbort → a.payload = []) := by
      simp only [plainLog,forall_mem_cons]
      decide +kernel
    intro a ha
    obtain ⟨hlen,hkeys,hcommit,habort⟩ := hall a ha
    refine ⟨?_,fun _ => hkeys,fun hc => Option.isSome_iff_exists.1 (hcommit hc),fun h => ⟨none,?_⟩⟩
    · rw [Appended.Readable,hkeys]
      exact Nat.le_trans hlen (by decide)
    · rw [entry,habort h]
      rfl
  rw [(decode_exact noJson plainLog).1 hdecodable]
  decide +kernel

end VaultDB.WalFile
