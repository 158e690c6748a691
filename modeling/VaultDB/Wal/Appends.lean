import VaultDB.Lib.Action
import VaultDB.Wal.Payload
import VaultDB.Wal.Readers
set_option autoImplicit false

/-!
An open log and its file, after `wal.go` and `recovery.go`.  Readers and writers share the one file
offset; every call to the file system may fail.
-/

namespace VaultDB.WalFile
open Lib

structure Wal where
  file : List UInt8
  offset : Nat
  /-- Set when a torn record could not be removed: all writes are refused. -/
  writeErr : Option String
  nextTxID : BitVec 64
  syncCounter : Nat
  syncBatchSize : Nat
  keys : Keys

structure Faults where
  /-- An error of `Write` after so many bytes; a short count without one is `io.ErrShortWrite`. -/
  write : Option (Nat × String)
  sync : Option String
  truncate : Option String
  seekStart : Option String
  seekCurrent : Option String
  seekEnd : Option String

def noFaults : Faults := ⟨none,none,none,none,none,none⟩
abbrev WalAction (α : Type) := Action String Wal α

def check (message : String) (fault : Option String) : WalAction Unit :=
  match fault with
  | some e => Action.fail (message++e)
  | none => pure ()

def writeAt (file : List UInt8) (offset : Nat) (bytes : List UInt8) : List UInt8 :=
  overwrite (file++List.replicate (offset-file.length) 0) offset bytes

def truncateTo (file : List UInt8) (size : Nat) : List UInt8 := file.take size++List.replicate (size-file.length) 0

def Wal.write (w : Wal) (bytes : List UInt8) : Wal :=
  { w with file := writeAt w.file w.offset bytes, offset := w.offset+bytes.length }

def Wal.poison (w : Wal) (e : String) : Wal :=
  { w with writeErr := some ("wal: torn record could not be removed, refusing further writes: "++e) }

/-- `undoPartialWriteLocked`: the offset is behind the `n` bytes of the failed write. -/
def Wal.undoPartialWrite (w : Wal) (F : Faults) (n : Nat) : Wal :=
  match F.seekCurrent with
  | some e => w.poison e
  | none =>
    match F.truncate with
    | some e => w.poison e
    | none =>
      match F.seekStart with
      | some e => { w with file := truncateTo w.file (w.offset-n) }.poison e
      | none => { w with file := truncateTo w.file (w.offset-n), offset := w.offset-n }

def writeLocked (F : Faults) (record : List UInt8) : WalAction Unit := fun w =>
  match w.writeErr with
  | some e => (.error e,w)
  | none =>
    match F.write with
    | none => (.ok (),w.write record)
    | some (n,e) =>
      let part := record.take n
      (.error ("wal: write: "++e),if 0 < part.length then (w.write part).undoPartialWrite F part.length else w)

/-- The batching of syncs; `advanceSynced` is left out. -/
def maybeSyncLocked (F : Faults) : WalAction Unit := do
  let w ← Action.get
  if 0 < w.syncBatchSize ∧ w.syncCounter+1 < w.syncBatchSize then
    Action.modify fun w => { w with syncCounter := w.syncCounter+1 }
  else
    Action.modify fun w => { w with syncCounter := if 0 < w.syncBatchSize then 0 else w.syncCounter }
    check "wal: sync: " F.sync

def syncLocked (message : String) (F : Faults) : WalAction Unit := do
  check message F.sync
  Action.modify fun w => { w with syncCounter := 0 }

def addTxID : WalAction (BitVec 64) := do
  Action.modify fun w => { w with nextTxID := w.nextTxID+1 }
  let w ← Action.get
  pure w.nextTxID

def raiseTxID (txID : BitVec 64) : WalAction Unit :=
  Action.modify fun w => if w.nextTxID ≤ txID then { w with nextTxID := txID+1 } else w

def buildAndWrite (F : Faults) (keys : Keys) (nonce : Nonce) (txID : BitVec 64) (opType : UInt8)
    (payload : List UInt8) (message : String) : WalAction Unit := do
  let record ← Action.ofExcept (buildRecord keys nonce txID opType payload)
  (writeLocked F record).mapError (message++·)

variable {w : Wal}
section
variable {V : Type} (J : Json V) (F : Faults)
def marshal (message : String) (payload : Payload V) : WalAction (List UInt8) :=
  Action.ofExcept ((encodeWALPayloadBinary J payload).mapError (message++·))

def append (nonce : Nonce) (opType : UInt8) (payload : Payload V) : WalAction (BitVec 64) := do
  let payloadBytes ← marshal J "wal: marshal payload: " payload
  let txID ← addTxID
  let w ← Action.get
  buildAndWrite F w.keys nonce txID opType payloadBytes ""
  maybeSyncLocked F
  pure txID

def appendWithTx (nonce : Nonce) (txID : BitVec 64) (opType : UInt8) (payload : Payload V) :
    WalAction (BitVec 64) := do
  let payloadBytes ← marshal J "wal: marshal payload: " payload
  let w ← Action.get
  buildAndWrite F w.keys nonce txID opType payloadBytes ""
  maybeSyncLocked F
  raiseTxID txID
  pure txID

/-- `AppendCommitSync`, with nothing between the write and the sync. -/
def appendCommitSync (nonce : Nonce) (txID : BitVec 64) (payload : Payload V) : WalAction (BitVec 64) := do
  let payloadBytes ← marshal J "wal: marshal payload: " payload
  let w ← Action.get
  buildAndWrite F w.keys nonce txID opCommit payloadBytes ""
  raiseTxID txID
  check "wal: commit sync: " F.sync
  pure txID

/-- Also the first part of `Checkpoint`; the record is never encrypted. -/
def writeCheckpointRecord : WalAction (BitVec 64) := do
  let w ← Action.get
  let payloadBytes ← marshal (V := V) J "wal: marshal checkpoint payload: " (.checkpoint w.nextTxID)
  let txID ← addTxID
  buildAndWrite F .none zeroNonce txID opCheckpoint payloadBytes "wal: write checkpoint: "
  syncLocked "wal: sync checkpoint: " F
  pure txID

def truncateWAL : WalAction Unit := do
  check "wal: truncate after checkpoint: " F.truncate
  Action.modify fun w => { w with file := [] }
  check "wal: seek after truncate: " F.seekStart
  Action.modify fun w => { w with offset := 0, writeErr := none }

def checkpoint : WalAction Unit := do
  let _ ← writeCheckpointRecord J F
  truncateWAL F

def seekTo (position : Wal → Nat) : WalAction Unit := Action.modify fun w => { w with offset := position w }

def seekEnd : WalAction Unit := do
  check "wal: seek end: " F.seekEnd
  seekTo fun w => w.file.length

def maxTxID (es : List Entry) : BitVec 64 := es.foldl (fun m e => if m < e.txID then e.txID else m) 0

/-- The loop of `Recover` ends at the end of the file, or at an entry without a key. -/
def recoverLog : WalAction (List Entry) := do
  check "wal: seek start: " F.seekStart
  let w ← Action.get
  match checkKeys w.keys (scan w.keys w.file) with
  | .error (e,rest) =>
    seekTo fun w => w.file.length-rest.length
    Action.fail (encryptedMessage e)
  | .ok es =>
    Action.modify fun w => { w with
      offset := w.file.length, nextTxID := if w.nextTxID < maxTxID es then maxTxID es else w.nextTxID }
    seekEnd F
    pure es

def Wal.readStop (w : Wal) : Nat :=
  w.file.length-(readEntryFrom w.keys (behind w.file (readEntries w.keys w.file))).2.length

def runCallback (message : String) (callback : Entry → Option String) : List Entry → WalAction Unit
  | [] => pure ()
  | e :: es => do
    check message (callback e)
    runCallback message callback es

def replayWanted (wanted : Entry → Bool) (message : String) (callback : Entry → Option String) : WalAction Unit := do
  check "wal: seek start: " F.seekStart
  let w ← Action.get
  seekTo fun _ => w.readStop
  if (readError w.keys w.file).isEOF then
    seekEnd F
    runCallback message callback (((readEntries w.keys w.file).map Prod.fst).filter wanted)
  else Action.fail ("wal: read entry: "++(readError w.keys w.file).message)

def replay (callback : Entry → Option String) : WalAction Unit :=
  replayWanted F (fun _ => true) "wal replay: " callback

def replayTransaction (txID : BitVec 64) (callback : Entry → Option String) : WalAction Unit :=
  replayWanted F (fun e => e.txID == txID) ("wal replay tx "++toString txID.toNat++": ") callback

def analyzeTransactions : WalAction (List Entry) := do
  check "wal: seek start: " F.seekStart
  let w ← Action.get
  seekTo fun _ => w.readStop
  seekEnd F
  pure (analyzed w.keys w.file)
end

inductive AppendOp (V : Type) where
  | append (nonce : Nonce) (opType : UInt8) (payload : Payload V)
  | appendWithTx (nonce : Nonce) (txID : BitVec 64) (opType : UInt8) (payload : Payload V)
  | appendCommitSync (nonce : Nonce) (txID : BitVec 64) (payload : Payload V)
  | writeCheckpointRecord

inductive WalOp (V : Type) where
  | append (op : AppendOp V)
  | recover
  | replay (callback : Entry → Option String)
  | replayTransaction (txID : BitVec 64) (callback : Entry → Option String)
  | analyzeTransactions
  | checkpoint
  | truncateWAL

section
variable {V : Type} (J : Json V)
def AppendOp.perform (F : Faults) : AppendOp V → WalAction (BitVec 64)
  | .append nonce opType payload => WalFile.append J F nonce opType payload
  | .appendWithTx nonce txID opType payload => WalFile.appendWithTx J F nonce txID opType payload
  | .appendCommitSync nonce txID payload => WalFile.appendCommitSync J F nonce txID payload
  | .writeCheckpointRecord => WalFile.writeCheckpointRecord J F

def WalOp.perform (F : Faults) (w : Wal) : WalOp V → Wal
  | .append op => (op.perform J F w).2
  | .recover => (recoverLog F w).2
  | .replay callback => (WalFile.replay F callback w).2
  | .replayTransaction txID callback => (WalFile.replayTransaction F txID callback w).2
  | .analyzeTransactions => (WalFile.analyzeTransactions F w).2
  | .checkpoint => (WalFile.checkpoint J F w).2
  | .truncateWAL => (WalFile.truncateWAL F w).2

def performAll (w : Wal) : List (WalOp V × Faults) → Wal
  | [] => w
  | (op,F) :: ops => performAll (op.perform J F w) ops

/-- No reader leaves the offset inside the file: the replays meet no bad record, `Recover` meets no
encrypted record without a key; and no seek fails where the offset has to be moved back. -/
def Safe (w : Wal) (F : Faults) : WalOp V → Prop
  | .append _ => True
  | .recover => F.seekStart = none → ∀ x ∈ scan w.keys w.file, ¬ (x.1.encrypted && w.keys.missing) = true
  | .replay _ => F.seekStart = none → (readError w.keys w.file).isEOF = true
  | .replayTransaction _ _ => F.seekStart = none → (readError w.keys w.file).isEOF = true
  | .analyzeTransactions => F.seekStart = none → F.seekEnd = none ∨ (readError w.keys w.file).isEOF = true
  | .checkpoint => F.truncate = none → F.seekStart = none
  | .truncateWAL => F.truncate = none → F.seekStart = none

def AllSafe (w : Wal) : List (WalOp V × Faults) → Prop
  | [] => True
  | (op,F) :: ops => Safe w F op ∧ AllSafe (op.perform J F w) ops
end

def Holds (base file : List UInt8) : Prop := ∃ log, file = base++fileOf log ∨ file = fileOf log

/-- Unless writes are refused, the offset is at the end of whole records. -/
def AtEnd (base : List UInt8) (w : Wal) : Prop := w.writeErr = none → w.offset = w.file.length ∧ Holds base w.file

theorem Holds.append {base file : List UInt8} (h : Holds base file) (a : Appended) :
    Holds base (file++a.frame.bytes) := by
  obtain ⟨log,rfl | rfl⟩ := h
  · exact ⟨log++[a],.inl (by simp)⟩
  · exact ⟨log++[a],.inr (by simp)⟩

theorem writeAt_end (file bytes : List UInt8) : writeAt file file.length bytes = file++bytes := by
  have := overwrite_append (rfl : file.length = file.length) [] bytes
  simpa [writeAt] using this

theorem truncateTo_append (file bytes : List UInt8) : truncateTo (file++bytes) file.length =
    file := by simp [truncateTo]

theorem exists_appended {keys : Keys} {nonce : Nonce} {txID : BitVec 64} {opType : UInt8}
    {payload record : List UInt8} (h : buildRecord keys nonce txID opType payload = .ok record) :
    ∃ a : Appended, a.txID = txID ∧ a.opType = opType ∧ a.payload = payload ∧ a.frame.bytes = record := by
  rw [buildRecord] at h
  cases hb : buildFrame keys nonce txID opType payload with
  | error e => simp [hb,Except.map] at h
  | ok frame =>
    rw [hb] at h
    cases h
    exact ⟨⟨keys,nonce,txID,opType,payload,frame,hb⟩,rfl,rfl,rfl,rfl⟩

theorem atEnd_undo (F : Faults) {base : List UInt8} (hoff : w.offset = w.file.length) (hholds : Holds base w.file)
    (bytes : List UInt8) : AtEnd base ((w.write bytes).undoPartialWrite F bytes.length) := by
  have hfile : (w.write bytes).file = w.file++bytes := by rw [Wal.write,hoff,writeAt_end]
  have hback : (w.write bytes).offset-bytes.length = w.file.length := by rw [Wal.write,hoff,Nat.add_sub_cancel]
  rw [Wal.undoPartialWrite]
  cases F.seekCurrent with
  | some e => exact fun h => by cases h
  | none =>
    cases F.truncate with
    | some e => exact fun h => by cases h
    | none =>
      cases F.seekStart with
      | some e => exact fun h => by cases h
      | none =>
        intro _
        dsimp only
        rw [hback,hfile,truncateTo_append]
        exact ⟨rfl,hholds⟩

section
variable {V : Type} {J : Json V} {F : Faults} {base f : List UInt8} {P E : Wal → Prop} {message : String}
  {fault : Option String}
def Before (base f : List UInt8) (w : Wal) : Prop := AtEnd base w ∧ w.file = f
def After (base f : List UInt8) (a : Appended) (w : Wal) : Prop :=
  AtEnd base w ∧ Holds base f ∧ w.file = f++a.frame.bytes

theorem spec_writeLocked (a : Appended) : Action.Spec (Before base f) (writeLocked F a.frame.bytes)
    (fun _ => After base f a) (AtEnd base) := by
  rintro w ⟨hend,rfl⟩
  rw [writeLocked]
  cases herr : w.writeErr with
  | some e => exact ⟨fun _ h => (by cases h),fun _ _ => hend⟩
  | none =>
    obtain ⟨hoff,hholds⟩ := hend herr
    cases hw : F.write with
    | none =>
      refine ⟨fun _ _ => ?_,fun _ h => (by cases h)⟩
      have hfile : (w.write a.frame.bytes).file = w.file++a.frame.bytes := by rw [Wal.write,hoff,writeAt_end]
      refine ⟨fun _ => ⟨?_,?_⟩,hholds,hfile⟩
      · rw [hfile,List.length_append,← hoff]
        rfl
      · rw [hfile]
        exact hholds.append a
    | some fault =>
      obtain ⟨n,e⟩ := fault
      refine ⟨fun _ h => (by cases h),fun _ _ => ?_⟩
      dsimp only
      split
      · exact atEnd_undo F hoff hholds _
      · exact hend

theorem AtEnd.of_eq {w' : Wal} (h : AtEnd base w) (hfile : w'.file = w.file) (hoff : w'.offset = w.offset)
    (herr : w'.writeErr = w.writeErr) : AtEnd base w' := by
  intro hnone
  rw [hfile,hoff]
  exact h (herr ▸ hnone)

theorem spec_check (hE : ∀ w, P w → E w) : Action.Spec P (check message fault) (fun _ => P) E := by
  cases fault with
  | some e => exact .fail hE
  | none => exact .pure fun _ h => h

theorem spec_check_bind {α : Type} {Q : α → Wal → Prop}
    {m : WalAction α} (hE : ∀ w, P w → E w) (hm : fault = none → Action.Spec P m Q E) :
    Action.Spec P (check message fault >>= fun _ => m) Q E := by
  cases fault with
  | some e => exact .bind (Q := fun _ _ => False) (.fail hE) fun _ _ h => h.elim
  | none => exact .bind (Q := fun _ => P) (.pure fun _ h => h) fun _ => hm rfl

def Wrote (base f : List UInt8) (txID : BitVec 64) (opType : UInt8) (payload : List UInt8) (w : Wal) : Prop :=
  ∃ a : Appended, a.txID = txID ∧ a.opType = opType ∧ a.payload = payload ∧ After base f a w

section
variable {txID : BitVec 64} {opType : UInt8} {payload : List UInt8}
theorem Wrote.of_eq {w' : Wal} (h : Wrote base f txID opType payload w) (hfile : w'.file = w.file)
    (hoff : w'.offset = w.offset) (herr : w'.writeErr = w.writeErr) : Wrote base f txID opType payload w' := by
  obtain ⟨a,htx,hop,hpay,hend,hholds,heq⟩ := h
  exact ⟨a,htx,hop,hpay,hend.of_eq hfile hoff herr,hholds,hfile.trans heq⟩

theorem Wrote.atEnd (h : Wrote base f txID opType payload w) : AtEnd base w := by
  obtain ⟨a,-,-,-,hend,-⟩ := h
  exact hend

theorem spec_buildAndWrite {keys : Keys} {nonce : Nonce} :
    Action.Spec (Before base f) (buildAndWrite F keys nonce txID opType payload message)
      (fun _ => Wrote base f txID opType payload) (AtEnd base) := by
  refine .bind (Q := fun record w => buildRecord keys nonce txID opType payload = .ok record ∧ Before base f w)
    (.ofExcept (fun _ _ h hw => ⟨h,hw⟩) fun _ h => h.1) fun record => .pre fun hbuild => ?_
  obtain ⟨a,htx,hop,hpay,rfl⟩ := exists_appended hbuild
  exact (spec_writeLocked a).mapError.weaken (fun _ h => h) fun _ _ h => ⟨a,htx,hop,hpay,h⟩

theorem spec_maybeSyncLocked : Action.Spec (Wrote base f txID opType payload) (maybeSyncLocked F)
    (fun _ => Wrote base f txID opType payload) (AtEnd base) := by
  refine .bind .get fun w => ?_
  split
  · exact .modify fun _ h => h.2.of_eq rfl rfl rfl
  · refine .bind (Q := fun _ => Wrote base f txID opType payload)
      (.modify fun _ h => h.2.of_eq rfl rfl rfl) fun _ => ?_
    exact spec_check fun _ h => h.atEnd

theorem spec_syncLocked : Action.Spec (Wrote base f txID opType payload) (syncLocked message F)
    (fun _ => Wrote base f txID opType payload) (AtEnd base) :=
  .bind (spec_check fun _ h => h.atEnd) fun _ => .modify fun _ h => h.of_eq rfl rfl rfl

theorem spec_raiseTxID (id : BitVec 64) : Action.Spec (Wrote base f txID opType payload) (raiseTxID id)
    (fun _ => Wrote base f txID opType payload) (AtEnd base) := by
  refine .modify fun w h => ?_
  split
  · exact h.of_eq rfl rfl rfl
  · exact h
end

theorem spec_marshal {payload : Payload V} (hP : ∀ w, P w → AtEnd base w) :
    Action.Spec P (marshal J message payload) (fun bytes w => encodeWALPayloadBinary J payload =
      .ok bytes ∧ P w) (AtEnd base) := by
  refine .ofExcept ?_ hP
  intro bytes w h hw
  cases he : encodeWALPayloadBinary J payload with
  | error e => simp [he,Except.mapError] at h
  | ok b =>
    rw [he] at h
    cases h
    exact ⟨rfl,hw⟩

theorem spec_addTxID : Action.Spec (Before base f) addTxID (fun _ => Before base f) E := by
  refine .bind (.modify (Q := fun _ => Before base f) fun w h => ⟨h.1.of_eq rfl rfl rfl,h.2⟩) fun _ => ?_
  exact .bind .get fun w => .pure fun _ h => h.2

variable (nonce : Nonce)
theorem spec_append (opType : UInt8) (payload : Payload V) : Action.Spec (Before base f)
    (append J F nonce opType payload)
      (fun txID w => ∃ bytes, encodeWALPayloadBinary J payload = .ok bytes ∧
        Wrote base f txID opType bytes w) (AtEnd base) := by
  refine .bind (spec_marshal fun _ h => h.1) fun bytes => .pre fun henc => ?_
  refine .bind spec_addTxID fun txID => .bind .get fun w => ?_
  refine .bind (spec_buildAndWrite.weaken (fun _ h => h.2) fun _ _ h => h) fun _ => ?_
  exact .bind spec_maybeSyncLocked fun _ => .pure fun _ h => ⟨bytes,henc,h⟩

theorem spec_appendWithTx (txID : BitVec 64) (opType : UInt8) (payload : Payload V) :
    Action.Spec (Before base f) (appendWithTx J F nonce txID opType payload)
      (fun id w => ∃ bytes, encodeWALPayloadBinary J payload = .ok bytes ∧
        Wrote base f id opType bytes w) (AtEnd base) := by
  refine .bind (spec_marshal fun _ h => h.1) fun bytes => .pre fun henc => .bind .get fun w => ?_
  refine .bind (spec_buildAndWrite.weaken (fun _ h => h.2) fun _ _ h => h) fun _ => ?_
  refine .bind spec_maybeSyncLocked fun _ => .bind (spec_raiseTxID txID) fun _ => ?_
  exact .pure fun _ h => ⟨bytes,henc,h⟩

theorem spec_appendCommitSync (txID : BitVec 64) (payload : Payload V) :
    Action.Spec (Before base f) (appendCommitSync J F nonce txID payload)
      (fun id w => ∃ bytes, encodeWALPayloadBinary J payload = .ok bytes ∧
        Wrote base f id opCommit bytes w) (AtEnd base) := by
  refine .bind (spec_marshal fun _ h => h.1) fun bytes => .pre fun henc => .bind .get fun w => ?_
  refine .bind (spec_buildAndWrite.weaken (fun _ h => h.2) fun _ _ h => h) fun _ => ?_
  refine .bind (spec_raiseTxID txID) fun _ => .bind (spec_check fun _ h => h.atEnd) fun _ => ?_
  exact .pure fun _ h => ⟨bytes,henc,h⟩

theorem spec_writeCheckpointRecord (w₀ : Wal) : Action.Spec (fun w => w = w₀ ∧ AtEnd base w)
    (writeCheckpointRecord J F)
      (fun id w => ∃ bytes, encodeWALPayloadBinary J (.checkpoint w₀.nextTxID) = .ok bytes ∧
        Wrote base w₀.file id opCheckpoint bytes w) (AtEnd base) := by
  refine .read ?_
  rintro w ⟨rfl,hend⟩
  have hbefore : ∀ w', w' = w → Before base w.file w' := by
    rintro _ rfl
    exact ⟨hend,rfl⟩
  refine .bind (spec_marshal fun _ h => (hbefore _ h).1) fun bytes => .pre fun henc => ?_
  refine .bind (spec_addTxID.weaken hbefore fun _ _ h => h) fun txID => ?_
  exact .bind spec_buildAndWrite fun _ => .bind spec_syncLocked fun _ => .pure fun _ h => ⟨bytes,henc,h⟩

/-! The readers come back to the end. -/

theorem AtEnd.truncated (hfile : w.file = []) (hoff : w.offset = 0) : AtEnd base w := by
  intro _
  rw [hfile,hoff]
  exact ⟨rfl,[],.inr rfl⟩

theorem spec_truncateWAL (hsafe : F.truncate = none → F.seekStart = none) :
    Action.Spec (AtEnd base) (truncateWAL F) (fun _ => AtEnd base) (AtEnd base) := by
  refine spec_check_bind (fun _ h => h) fun ht => ?_
  refine .bind (Q := fun _ w => w.file = []) (.modify fun _ _ => rfl) fun _ => ?_
  rw [hsafe ht]
  exact .bind (Q := fun _ w => w.file = []) (.pure fun _ h => h) fun _ => .modify fun _ h => .truncated h rfl

theorem spec_checkpoint (hsafe : F.truncate = none → F.seekStart = none) (w₀ : Wal) :
    Action.Spec (fun w => w = w₀ ∧ AtEnd base w) (checkpoint J F) (fun _ => AtEnd base) (AtEnd base) :=
  .bind (spec_writeCheckpointRecord w₀) fun _ =>
    (spec_truncateWAL hsafe).weaken (fun _ h => h.choose_spec.2.atEnd) fun _ _ h => h

theorem AtEnd.seek (h : AtEnd base w) : AtEnd base { w with offset := w.file.length } :=
  fun hnone => ⟨rfl,(h hnone).2⟩

theorem spec_seekEnd : Action.Spec (AtEnd base) (seekEnd F) (fun _ => AtEnd base) (AtEnd base) :=
  .bind (spec_check fun _ h => h) fun _ => .modify fun _ h => h.seek

theorem spec_runCallback (message : String) (callback : Entry → Option String) (es : List Entry) :
    Action.Spec (AtEnd base) (runCallback message callback es) (fun _ => AtEnd base) (AtEnd base) := by
  induction es with
  | nil => exact .pure fun _ h => h
  | cons e es ih => exact .bind (spec_check fun _ h => h) fun _ => ih

theorem readStop_of_eof (h : (readError w.keys w.file).isEOF = true) : w.readStop = w.file.length := by
  rw [readError] at h
  rw [Wal.readStop]
  rcases hread : readEntryFrom w.keys (behind w.file (readEntries w.keys w.file)) with ⟨err | x,rest⟩
  · rw [hread] at h
    rw [readEntryFrom_rest_of_eof hread h]
    rfl
  · -- the loop does not end before a record that can be read
    have hstop : readOk w.keys (behind w.file (readEntries w.keys w.file)) = none :=
      next_behind_collect List.length length_readOk_rest w.file
    rw [readOk_eq_some.2 ⟨x.2,hread⟩] at hstop
    cases hstop

variable {w₀ : Wal}
theorem spec_seekStop (heof : (readError w.keys w.file).isEOF = true) (hend : AtEnd base w) :
    Action.Spec (· = w) (seekTo fun _ => w.readStop) (fun _ => AtEnd base) (AtEnd base) := by
  refine .modify ?_
  rintro _ rfl
  rw [readStop_of_eof heof]
  exact hend.seek

theorem spec_replayWanted {wanted : Entry → Bool} {callback : Entry → Option String}
    (hsafe : F.seekStart = none → (readError w₀.keys w₀.file).isEOF = true) :
    Action.Spec (fun w => w = w₀ ∧ AtEnd base w) (replayWanted F wanted message callback)
      (fun _ => AtEnd base) (AtEnd base) := by
  refine spec_check_bind (fun _ h => h.2) fun hs => .read ?_
  rintro w ⟨rfl,hend⟩
  rw [if_pos (hsafe hs)]
  exact .bind (spec_seekStop (hsafe hs) hend) fun _ => .bind spec_seekEnd fun _ => spec_runCallback _ _ _

theorem spec_analyzeTransactions
    (hsafe : F.seekStart = none → F.seekEnd = none ∨ (readError w₀.keys w₀.file).isEOF = true) :
    Action.Spec (fun w => w = w₀ ∧ AtEnd base w) (analyzeTransactions F) (fun _ => AtEnd base) (AtEnd base) := by
  refine spec_check_bind (fun _ h => h.2) fun hs => .read ?_
  rintro w ⟨rfl,hend⟩
  rcases hsafe hs with hseek | heof
  · -- the offset is moved to the end, wherever the loop has left it
    have hfile : Action.Spec (· = w) (seekTo fun _ => w.readStop)
        (fun _ w' => w' = { w with offset := w.readStop }) (AtEnd base) := .modify fun _ h => by rw [h]
    rw [seekEnd,hseek]
    refine .bind hfile fun _ => .bind (Q := fun _ => AtEnd base) ?_ fun _ => .pure fun _ h => h
    refine .bind (Q := fun _ w' => w' = { w with offset := w.readStop }) (.pure fun _ h => h) fun _ => .modify ?_
    rintro _ rfl
    exact hend.seek
  · exact .bind (spec_seekStop heof hend) fun _ => .bind spec_seekEnd fun _ => .pure fun _ h => h

theorem spec_recoverLog
    (hsafe : F.seekStart = none → ∀ x ∈ scan w₀.keys w₀.file, ¬ (x.1.encrypted && w₀.keys.missing) = true) :
    Action.Spec (fun w => w = w₀ ∧ AtEnd base w) (recoverLog F) (fun _ => AtEnd base) (AtEnd base) := by
  refine spec_check_bind (fun _ h => h.2) fun hs => .read ?_
  rintro w ⟨rfl,hend⟩
  rw [checkKeys_of_keys (hsafe hs)]
  refine .bind (Q := fun _ => AtEnd base) (.modify ?_) fun _ => .bind spec_seekEnd fun _ => .pure fun _ h => h
  rintro _ rfl
  exact hend.seek.of_eq rfl rfl rfl
end

section
variable {V : Type} {J : Json V} {F : Faults} {base : List UInt8}
def AppendOp.opType : AppendOp V → UInt8
  | .append _ opType _ => opType
  | .appendWithTx _ _ opType _ => opType
  | .appendCommitSync _ _ _ => opCommit
  | .writeCheckpointRecord => opCheckpoint

/-- The payload of the record; a checkpoint's is the counter at that moment. -/
def AppendOp.payload (w : Wal) : AppendOp V → Payload V
  | .append _ _ payload => payload
  | .appendWithTx _ _ _ payload => payload
  | .appendCommitSync _ _ payload => payload
  | .writeCheckpointRecord => .checkpoint w.nextTxID

theorem spec_perform (op : AppendOp V) (w₀ : Wal) : Action.Spec (fun w => w = w₀ ∧ AtEnd base w) (op.perform J F)
      (fun txID w => ∃ bytes, encodeWALPayloadBinary J (op.payload w₀) = .ok bytes ∧
        Wrote base w₀.file txID op.opType bytes w) (AtEnd base) := by
  have hbefore : ∀ w, w = w₀ ∧ AtEnd base w → Before base w₀.file w := fun _ h => ⟨h.2,h.1 ▸ rfl⟩
  cases op with
  | append nonce opType payload => exact (spec_append nonce opType payload).weaken hbefore fun _ _ h => h
  | appendWithTx nonce txID opType payload =>
    exact (spec_appendWithTx nonce txID opType payload).weaken hbefore fun _ _ h => h
  | appendCommitSync nonce txID payload =>
    exact (spec_appendCommitSync nonce txID payload).weaken hbefore fun _ _ h => h
  | writeCheckpointRecord => exact spec_writeCheckpointRecord w₀

theorem Safe.keeps {op : WalOp V} (hsafe : Safe w F op) (h : AtEnd base w) : AtEnd base (op.perform J F w) := by
  have hw : w = w ∧ AtEnd base w := ⟨rfl,h⟩
  cases op with
  | append op => exact ((spec_perform op w).weaken (fun _ h => h) fun _ _ h => h.choose_spec.2.atEnd).final hw
  | recover => exact (spec_recoverLog hsafe).final hw
  | replay callback => exact (spec_replayWanted hsafe).final hw
  | replayTransaction txID callback => exact (spec_replayWanted hsafe).final hw
  | analyzeTransactions => exact (spec_analyzeTransactions hsafe).final hw
  | checkpoint => exact (spec_checkpoint hsafe w).final hw
  | truncateWAL => exact (spec_truncateWAL hsafe).final h

theorem AllSafe.keeps {ops : List (WalOp V × Faults)} (hsafe : AllSafe J w ops) (h : AtEnd base w) :
    AtEnd base (performAll J w ops) := by
  induction ops generalizing w with
  | nil => exact h
  | cons op ops ih => exact ih hsafe.2 (hsafe.1.keeps h)

/-- In every such run on an opened log, an append that succeeds leaves the whole records that were
there and its own. -/
theorem append_at_end (J : Json V) {w₀ : Wal} (hoff : w₀.offset = w₀.file.length)
    {ops : List (WalOp V × Faults)} (hsafe : AllSafe J w₀ ops) (F : Faults) (op : AppendOp V) {txID : BitVec 64}
    (hok : (op.perform J F (performAll J w₀ ops)).1 = .ok txID) :
    Holds w₀.file (performAll J w₀ ops).file ∧
    ∃ a : Appended, a.txID = txID ∧ a.opType = op.opType ∧
      encodeWALPayloadBinary J (op.payload (performAll J w₀ ops)) = .ok a.payload ∧
      (op.perform J F (performAll J w₀ ops)).2.file = (performAll J w₀ ops).file++a.frame.bytes := by
  have hopened : AtEnd w₀.file w₀ := fun _ => ⟨hoff,[],.inl (by simp [fileOf])⟩
  obtain ⟨bytes,henc,a,htx,hop,rfl,-,hholds,hfile⟩ :=
    (spec_perform (J := J) (F := F) op _ _ ⟨rfl,hsafe.keeps hopened⟩).1 txID hok
  exact ⟨hholds,a,htx,hop,henc,hfile⟩
end

def damagedWal : Wal :=
  let file := openFile (sampleFirst.frame.bytes.set 34 9++sampleSecond.frame.bytes)
  ⟨file,file.length,none,2,0,0,sampleKeys⟩

/-- `Replay` fails at the damaged record, and the next commit is written over the second one. -/
theorem append_overwrites_after_replay :
    let w := performAll noJson damagedWal [(.replay fun _ => none,noFaults)]
    let appended := (AppendOp.appendCommitSync zeroNonce 3 (.commit 7)).perform noJson noFaults w
    damagedWal.file = sampleFirst.frame.bytes.set 34 9++sampleSecond.frame.bytes ∧ w.file = damagedWal.file ∧
    appended.1 = .ok 3 ∧ ¬ ∃ a : Appended, appended.2.file = w.file++a.frame.bytes := by
  intro w appended
  have hopen : damagedWal.file = sampleFirst.frame.bytes.set 34 9++sampleSecond.frame.bytes := by decide +kernel
  have hfile : w.file = damagedWal.file := by decide +kernel
  have hok : appended.1 = .ok 3 := by decide +kernel
  have hlen : appended.2.file.length < w.file.length+38 := by decide +kernel
  refine ⟨hopen,hfile,hok,?_⟩
  rintro ⟨a,ha⟩
  rw [ha,List.length_append,a.frame.length_bytes] at hlen
  omega

/-- A commit, a failed write behind it, `Recover`, a second commit. -/
theorem append_at_end_sample :
    let w₀ : Wal := ⟨[],0,none,0,0,0,sampleKeys⟩
    let ops : List (WalOp Unit × Faults) :=
      [(.append (.append zeroNonce opCommit (.commit 6)),noFaults),
        (.append (.append zeroNonce opCommit (.commit 7)),{ noFaults with write := some (5,"disk full") }),(.recover,noFaults)]
    38 < (performAll noJson w₀ ops).file.length ∧ Holds w₀.file (performAll noJson w₀ ops).file ∧
    ∃ a : Appended, a.txID = 3 ∧ a.opType = opCommit ∧ encodeWALPayloadBinary noJson (.commit 7) = .ok a.payload ∧
      ((AppendOp.appendCommitSync zeroNonce 3 (.commit 7)).perform noJson noFaults
        (performAll noJson w₀ ops)).2.file =
        (performAll noJson w₀ ops).file++a.frame.bytes := by
  intro w₀ ops
  have hsafe : AllSafe noJson w₀ ops := by
    refine ⟨trivial,trivial,fun _ => ?_,trivial⟩
    decide +kernel
  refine ⟨by decide +kernel,?_⟩
  exact append_at_end noJson rfl hsafe noFaults (.appendCommitSync zeroNonce 3 (.commit 7)) (by decide +kernel)

end VaultDB.WalFile
