import VaultDB.Lib.Prog
import VaultDB.Wal.Payload
import VaultDB.Wal.Record
set_option autoImplicit false

/-!
Commits that wait for a sync, after `AppendCommitSync` and `syncUpTo` in `wal.go`.

Calls run side by side; what they do to the log and its locks is spelled out as commands.  A sync
has a start and an end, between which other calls go on, and it may fail.  Records are counted
without a bound.
-/

namespace VaultDB.WalFile.CommitSync
open Lib Stmt List Option

inductive Cmd where
  | lockMu
  | unlockMu
  | lockSyncMu
  | unlockSyncMu
  | isOpen
  | closeFile
  | loadTxID
  | addTxID
  | raiseTxID (txID : BitVec 64)
  | write (record : List UInt8)
  | readWriteSeq
  | countSync
  | resetSyncCounter
  | startSync
  | endSync
  | loadSynced
  | casSynced (cur seq : Nat)
  | spin
  | acknowledge
  deriving DecidableEq, Repr

abbrev Cmd.Res : Cmd → Type
  | .isOpen => Bool
  | .loadTxID => BitVec 64
  | .addTxID => BitVec 64
  | .write _ => Option String
  | .readWriteSeq => Nat
  | .countSync => Bool
  | .endSync => Option String
  | .loadSynced => Nat
  | .casSynced _ _ => Bool
  | _ => Unit

abbrev Call := Stmt Cmd Cmd.Res String
def issue (c : Cmd) : Call c.Res := Stmt.cmd c
def ofExcept {α : Type} (x : Except String α) : Call α := ExceptT.mk (pure x)

def underMu {α : Type} (x : Call α) : Call α := do
  issue .lockMu
  let a ← Stmt.onError x (issue .unlockMu)
  issue .unlockMu
  pure a

def underSyncMu {α : Type} (x : Call α) : Call α := do
  issue .lockSyncMu
  let a ← Stmt.onError x (issue .unlockSyncMu)
  issue .unlockSyncMu
  pure a

def checkOpen : Call Unit := do
  if ← issue .isOpen then pure () else throw "wal file is closed"

def writeLocked (message : String) (record : List UInt8) : Call Unit := do
  match ← issue (.write record) with
  | some e => throw (message++e)
  | none => pure ()

def sync : Call (Option String) := do
  issue .startSync
  issue .endSync

/-- The loop may take any number of turns. -/
def advanceSynced : Nat → Nat → Call Unit
  | 0, _ => issue .spin
  | turns+1, seq => do
    let cur ← issue .loadSynced
    if seq ≤ cur then pure ()
    else if ← issue (.casSynced cur seq) then pure ()
    else advanceSynced turns seq

def maybeSyncLocked (turns : Nat) : Call Unit := do
  if ← issue .countSync then
    match ← sync with
    | some e => throw ("wal: sync: "++e)
    | none => advanceSynced turns (← issue .readWriteSeq)

def syncLocked (message : String) (turns : Nat) : Call Unit := do
  match ← sync with
  | some e => throw (message++e)
  | none =>
    issue .resetSyncCounter
    advanceSynced turns (← issue .readWriteSeq)

def unlessSynced (seq : Nat) (e : String) : Call Unit := do
  if seq ≤ (← issue .loadSynced) then pure () else throw ("wal: commit sync: "++e)

def syncUpTo (turns seq : Nat) : Call Unit := do
  if seq ≤ (← issue .loadSynced) then pure ()
  else underSyncMu do
    if seq ≤ (← issue .loadSynced) then pure ()
    else
      let found ← underMu do
        let opened ← issue .isOpen
        let target ← issue .readWriteSeq
        pure (opened,target)
      if !found.1 then unlessSynced seq "wal file is closed"
      else
        match ← sync with
        | some e => unlessSynced seq e
        | none => advanceSynced turns found.2

section
variable {V : Type} (J : Json V) (keys : Keys) (turns : Nat)
def marshal (message : String) (payload : Payload V) : Call (List UInt8) :=
  ofExcept ((encodeWALPayloadBinary J payload).mapError (message++·))

def append (nonce : Nonce) (opType : UInt8) (payload : Payload V) : Call (BitVec 64) := underMu do
  let payloadBytes ← marshal J "wal: marshal payload: " payload
  checkOpen
  let txID ← issue .addTxID
  let record ← ofExcept (buildRecord keys nonce txID opType payloadBytes)
  writeLocked "" record
  maybeSyncLocked turns
  pure txID

def appendWithTx (nonce : Nonce) (txID : BitVec 64) (opType : UInt8) (payload : Payload V) :
    Call (BitVec 64) := underMu do
  let payloadBytes ← marshal J "wal: marshal payload: " payload
  checkOpen
  let record ← ofExcept (buildRecord keys nonce txID opType payloadBytes)
  writeLocked "" record
  maybeSyncLocked turns
  issue (.raiseTxID txID)
  pure txID

def appendCommitSync (nonce : Nonce) (txID : BitVec 64) (payload : Payload V) : Call (BitVec 64) := do
  let payloadBytes ← marshal J "wal: marshal payload: " payload
  let seq ← underMu do
    checkOpen
    let record ← ofExcept (buildRecord keys nonce txID opCommit payloadBytes)
    writeLocked "" record
    let seq ← issue .readWriteSeq
    issue (.raiseTxID txID)
    pure seq
  syncUpTo turns seq
  pure txID

def writeCheckpointRecord : Call (BitVec 64) := underMu do
  checkOpen
  let lsn ← issue .loadTxID
  let payloadBytes ← marshal (V := V) J "wal: marshal checkpoint payload: " (.checkpoint lsn)
  let txID ← issue .addTxID
  let record ← ofExcept (buildRecord .none zeroNonce txID opCheckpoint payloadBytes)
  writeLocked "wal: write checkpoint: " record
  syncLocked "wal: sync checkpoint: " turns
  pure txID

def close : Call Unit := underMu do
  if ← issue .isOpen then
    match ← sync with
    | some e => throw e
    | none =>
      advanceSynced turns (← issue .readWriteSeq)
      issue .closeFile
end

/-- A caller throws the result away, except that a commit is acknowledged. -/
def ignore {α : Type} (x : Call α) : Prog Cmd Cmd.Res Unit := x.run >>= fun _ => pure ()

def acknowledged {α : Type} : Except String α → Prog Cmd Cmd.Res Unit
  | .ok _ => Prog.cmd Cmd.acknowledge
  | .error _ => pure ()

inductive Started {V : Type} (J : Json V) (keys : Keys) : Prog Cmd Cmd.Res Unit → Prop where
  | append (turns : Nat) (nonce : Nonce) (opType : UInt8) (payload : Payload V) :
      Started J keys (ignore (append J keys turns nonce opType payload))
  | appendWithTx (turns : Nat) (nonce : Nonce) (txID : BitVec 64) (opType : UInt8) (payload : Payload V) :
      Started J keys (ignore (appendWithTx J keys turns nonce txID opType payload))
  | appendCommitSync (turns : Nat) (nonce : Nonce) (txID : BitVec 64) (payload : Payload V) :
      Started J keys ((appendCommitSync J keys turns nonce txID payload).run >>= acknowledged)
  | writeCheckpointRecord (turns : Nat) : Started J keys (ignore (writeCheckpointRecord J turns))
  | close (turns : Nat) : Started J keys (ignore (close turns))

inductive TraceEvent where
  | wrote (record : List UInt8)
  | syncStart
  | synced
  | syncFailed
  | acknowledged
  deriving DecidableEq, Repr

abbrev Trace := List (Nat × TraceEvent)

structure State where
  mu : Option Nat := none
  syncMu : Option Nat := none
  opened : Bool := true
  nextTxID : BitVec 64 := 0
  writeSeq : Nat := 0
  syncedSeq : Nat := 0
  syncCounter : Nat := 0
  syncBatchSize : Nat := 0
  trace : Trace := []

namespace State

def log (s : State) (i : Nat) (e : TraceEvent) : State := { s with trace := s.trace++[(i,e)] }

/-- The state after call `i` got an answer to a command.  A lock is waited for; a write and a sync
may fail. -/
def answer (s : State) (i : Nat) : (c : Cmd) → c.Res → Option State
  | .lockMu, _ => if s.mu = none then some { s with mu := some i } else none
  | .unlockMu, _ => if s.mu = some i then some { s with mu := none } else none
  | .lockSyncMu, _ => if s.syncMu = none then some { s with syncMu := some i } else none
  | .unlockSyncMu, _ => if s.syncMu = some i then some { s with syncMu := none } else none
  | .isOpen, b => if b = s.opened then some s else none
  | .closeFile, _ => some { s with opened := false }
  | .loadTxID, t => if t = s.nextTxID then some s else none
  | .addTxID, t => if t = s.nextTxID+1 then some { s with nextTxID := s.nextTxID+1 } else none
  | .raiseTxID t, _ => some (if s.nextTxID ≤ t then { s with nextTxID := t+1 } else s)
  | .write record, none => some ({ s with writeSeq := s.writeSeq+1 }.log i (.wrote record))
  | .write _, some _ => some s
  | .readWriteSeq, n => if n = s.writeSeq then some s else none
  | .countSync, b =>
    if 0 < s.syncBatchSize ∧ s.syncCounter+1 < s.syncBatchSize then
      if b = false then some { s with syncCounter := s.syncCounter+1 } else none
    else if b = true then some { s with syncCounter := if 0 < s.syncBatchSize then 0 else s.syncCounter }
    else none
  | .resetSyncCounter, _ => some { s with syncCounter := 0 }
  | .startSync, _ => some (s.log i .syncStart)
  | .endSync, none => some (s.log i .synced)
  | .endSync, some _ => some (s.log i .syncFailed)
  | .loadSynced, n => if n = s.syncedSeq then some s else none
  | .casSynced cur seq, b =>
    if s.syncedSeq = cur then if b = true then some { s with syncedSeq := seq } else none
    else if b = false then some s else none
  | .spin, _ => none
  | .acknowledge, _ => some (s.log i .acknowledged)

end State

structure Watcher where
  /-- It holds `mu`. -/
  mu : Bool := false
  wrote : Bool := false
  /-- It has held `mu` since its write. -/
  fresh : Bool := false
  /-- The number of its record. -/
  own : Option Nat := none
  /-- So many records stood in the log. -/
  seen : Nat := 0
  /-- It has started a sync, having seen so many records. -/
  syncing : Option Nat := none
  /-- So many records are synced. -/
  sure : Nat := 0
  /-- It holds `mu` and all records are synced. -/
  flushed : Bool := false
  /-- Its own record is synced. -/
  covered : Bool := false
  deriving DecidableEq, Repr

namespace Watcher

def allowed (w : Watcher) : Cmd → Prop
  | .lockMu => w.mu = false ∧ w.syncing = none
  | .write _ => w.mu = true ∧ w.wrote = false ∧ w.syncing = none
  | .startSync => w.syncing = none
  | .endSync => w.syncing ≠ none
  | .casSynced _ seq => seq ≤ w.sure
  | .acknowledge => w.covered = true ∧ w.syncing = none
  | _ => True

def ownSynced (w : Watcher) (n : Nat) : Bool :=
  match w.own with
  | some q => decide (q ≤ n)
  | none => false

def next (w : Watcher) : (c : Cmd) → c.Res → Watcher
  | .lockMu, _ => { w with mu := true }
  | .unlockMu, _ => { w with mu := false, fresh := false, flushed := false }
  | .write _, none => { w with wrote := true, fresh := true, flushed := false }
  | .readWriteSeq, n => { w with
      seen := n
      own := if w.fresh then some n else w.own
      sure := if w.flushed then n else w.sure }
  | .startSync, _ => { w with syncing := some w.seen }
  | .endSync, none => { w with
      syncing := none
      sure := w.syncing.getD 0
      flushed := w.mu
      covered := w.covered || w.wrote }
  | .endSync, some _ => { w with syncing := none }
  | .loadSynced, n => { w with covered := w.covered || w.ownSynced n }
  | _, _ => w

end Watcher

def syncProtocol : Protocol Cmd Cmd.Res Watcher := ⟨Watcher.allowed,Watcher.next⟩

variable {seq : Nat}
section

abbrev Keeps {α : Type} (w : Watcher) (x : Call α) (Q : Watcher → α → Prop) (E : Watcher → Prop) : Prop :=
  Stmt.Ensures syncProtocol w x Q E

theorem keeps_issue {α : Type} {w : Watcher} {c : Cmd} {f : c.Res → Call α} {Q : Watcher → α → Prop}
    {E : Watcher → Prop} :
    Keeps w (issue c >>= f) Q E ↔ w.allowed c ∧ ∀ r, Keeps (w.next c r) (f r) Q E := Iff.rfl

variable {α : Type} {w : Watcher} {Q : Watcher → α → Prop} {E : Watcher → Prop} {x : Call α}
theorem keeps_ofExcept {x : Except String α} (hok : ∀ a, x = .ok a → Q w a) (herr : E w) :
    Keeps w (ofExcept x) Q E := by
  cases x with
  | ok a => exact hok a rfl
  | error e => exact herr

theorem keeps_underMu (hmu : w.mu = false) (hs : w.syncing = none)
    (h : Keeps { w with mu := true } x (fun w a => Q { w with mu := false, fresh := false, flushed := false } a)
      fun w => E { w with mu := false, fresh := false, flushed := false }) : Keeps w (underMu x) Q E := by
  refine keeps_issue.2 ⟨⟨hmu,hs⟩,fun _ => ensures_bind.2 (ensures_onError ?_)⟩
  refine h.mono (fun w a ha => ?_) fun w he => ?_
  · exact keeps_issue.2 ⟨trivial,fun _ => ha⟩
  · exact ⟨trivial,fun _ => he⟩

theorem keeps_underSyncMu (h : Keeps w x Q E) : Keeps w (underSyncMu x) Q E := by
  refine keeps_issue.2 ⟨trivial,fun _ => ensures_bind.2 (ensures_onError ?_)⟩
  refine h.mono (fun w a ha => ?_) fun w he => ?_
  · exact keeps_issue.2 ⟨trivial,fun _ => ha⟩
  · exact ⟨trivial,fun _ => he⟩

variable {Q : Watcher → Unit → Prop}
theorem keeps_checkOpen (hok : Q w ()) (herr : E w) : Keeps w checkOpen Q E := by
  refine keeps_issue.2 ⟨trivial,fun b => ?_⟩
  cases b with
  | true => exact hok
  | false => exact herr

variable (message : String) (turns : Nat)
theorem keeps_writeLocked (record : List UInt8)
    (hallow : w.allowed (.write record)) (hok : Q { w with wrote := true, fresh := true, flushed := false } ())
    (herr : E w) : Keeps w (writeLocked message record) Q E := by
  refine keeps_issue.2 ⟨hallow,fun r => ?_⟩
  cases r with
  | none => exact hok
  | some e => exact herr

theorem keeps_sync {Q : Watcher → Option String → Prop} (hs : w.syncing = none)
    (herr : ∀ e, Q { w with syncing := none } (some e))
    (hok : Q { w with syncing := none, sure := w.seen, flushed := w.mu, covered := w.covered || w.wrote } none) :
    Keeps w sync Q E := by
  refine keeps_issue.2 ⟨hs,fun _ => ⟨some_ne_none _,fun r => ?_⟩⟩
  cases r with
  | none => exact hok
  | some e => exact herr e

theorem keeps_advanceSynced (hsure : seq ≤ w.sure)
    (hQ : ∀ b, (w.covered = true → b = true) → Q { w with covered := b } ()) :
    Keeps w (advanceSynced turns seq) Q E := by
  induction turns generalizing w with
  | zero => exact ⟨trivial,fun _ => hQ w.covered fun h => h⟩
  | succ turns ih =>
    have hload : ∀ n, w.covered = true → (w.covered || w.ownSynced n) = true := fun n h => by rw [h,Bool.true_or]
    refine keeps_issue.2 ⟨trivial,fun cur => ?_⟩
    split
    · exact hQ _ (hload cur)
    · refine keeps_issue.2 ⟨hsure,fun b => ?_⟩
      cases b with
      | true => exact hQ _ (hload cur)
      | false => exact ih hsure fun b hb => hQ b fun h => hb (hload cur h)

theorem keeps_advanceAll (h : w.flushed = true) :
    Keeps w (issue .readWriteSeq >>= advanceSynced turns) (fun _ _ => True) E := by
  refine keeps_issue.2 ⟨trivial,fun n => keeps_advanceSynced turns ?_ fun _ _ => trivial⟩
  simp [Watcher.next,h]

theorem keeps_maybeSyncLocked (hmu : w.mu = true) (hs : w.syncing = none) :
    Keeps w (maybeSyncLocked turns) (fun _ _ => True) fun _ => True := by
  refine keeps_issue.2 ⟨trivial,fun b => ?_⟩
  cases b with
  | false => exact trivial
  | true => exact ensures_bind.2 (keeps_sync hs (fun _ => trivial) (keeps_advanceAll turns hmu))

theorem keeps_syncLocked (turns : Nat) (hmu : w.mu = true) (hs : w.syncing = none) :
    Keeps w (syncLocked message turns) (fun _ _ => True) fun _ => True := by
  refine ensures_bind.2 (keeps_sync hs (fun _ => trivial) ?_)
  exact keeps_issue.2 ⟨trivial,fun _ => keeps_advanceAll turns hmu⟩

section
variable {V : Type} {J : Json V} {keys : Keys} (turns : Nat)
variable (nonce : Nonce)
theorem keeps_append (opType : UInt8) (payload : Payload V) :
    Keeps {} (append J keys turns nonce opType payload) (fun _ _ => True) fun _ => True := by
  refine keeps_underMu rfl rfl (ensures_bind.2 (keeps_ofExcept (fun bytes _ => ?_) trivial))
  refine ensures_bind.2 (keeps_checkOpen (keeps_issue.2 ⟨trivial,fun txID => ?_⟩) trivial)
  refine ensures_bind.2 (keeps_ofExcept (fun record _ => ?_) trivial)
  refine ensures_bind.2 (keeps_writeLocked "" record ⟨rfl,rfl,rfl⟩ ?_ trivial)
  exact (keeps_maybeSyncLocked turns rfl rfl).bind fun _ _ _ => trivial

theorem keeps_appendWithTx (txID : BitVec 64) (opType : UInt8) (payload : Payload V) :
    Keeps {} (appendWithTx J keys turns nonce txID opType payload) (fun _ _ => True) fun _ => True := by
  refine keeps_underMu rfl rfl (ensures_bind.2 (keeps_ofExcept (fun bytes _ => ?_) trivial))
  refine ensures_bind.2 (keeps_checkOpen ?_ trivial)
  refine ensures_bind.2 (keeps_ofExcept (fun record _ => ?_) trivial)
  refine ensures_bind.2 (keeps_writeLocked "" record ⟨rfl,rfl,rfl⟩ ?_ trivial)
  refine (keeps_maybeSyncLocked turns rfl rfl).bind fun _ _ _ => ?_
  exact keeps_issue.2 ⟨trivial,fun _ => trivial⟩

theorem keeps_writeCheckpointRecord : Keeps {} (writeCheckpointRecord J turns) (fun _ _ => True) fun _ => True := by
  refine keeps_underMu rfl rfl (ensures_bind.2 (keeps_checkOpen (keeps_issue.2 ⟨trivial,fun lsn => ?_⟩) trivial))
  refine ensures_bind.2 (keeps_ofExcept (fun bytes _ => keeps_issue.2 ⟨trivial,fun txID => ?_⟩) trivial)
  refine ensures_bind.2 (keeps_ofExcept (fun record _ => ?_) trivial)
  refine ensures_bind.2 (keeps_writeLocked _ record ⟨rfl,rfl,rfl⟩ ?_ trivial)
  exact (keeps_syncLocked _ turns rfl rfl).bind fun _ _ _ => trivial

theorem keeps_close : Keeps {} (close turns) (fun _ _ => True) fun _ => True := by
  refine keeps_underMu rfl rfl (keeps_issue.2 ⟨trivial,fun b => ?_⟩)
  cases b with
  | false => exact trivial
  | true =>
    refine ensures_bind.2 (keeps_sync rfl (fun _ => trivial) (keeps_issue.2 ⟨trivial,fun n => ?_⟩))
    refine ensures_bind.2 (keeps_advanceSynced turns (Nat.le_refl n) fun _ _ => ?_)
    exact ⟨trivial,fun _ => trivial⟩

theorem keeps_unlessSynced (e : String) (hown : w.own = some seq) (hs : w.syncing = none) :
    Keeps w (unlessSynced seq e) (fun w _ => w.covered = true ∧ w.syncing = none) fun _ => True := by
  refine keeps_issue.2 ⟨trivial,fun n => ?_⟩
  split
  · next h => exact ⟨by simp [Watcher.next,Watcher.ownSynced,hown,h],hs⟩
  · exact trivial

theorem keeps_syncUpTo (hwrote : w.wrote = true) (hfresh : w.fresh = false) (hown : w.own = some seq)
    (hmu : w.mu = false) (hs : w.syncing = none) :
    Keeps w (syncUpTo turns seq) (fun w _ => w.covered = true ∧ w.syncing = none) fun _ => True := by
  have hcovered : ∀ {b : Bool} {n : Nat}, seq ≤ n → (b || w.ownSynced n) = true := by
    intro b n h
    simp [Watcher.ownSynced,hown,h]
  refine keeps_issue.2 ⟨trivial,fun n => ?_⟩
  split
  · next h => exact ⟨hcovered h,hs⟩
  refine keeps_underSyncMu (keeps_issue.2 ⟨trivial,fun n => ?_⟩)
  split
  · next h => exact ⟨hcovered h,hs⟩
  refine ensures_bind.2 (keeps_underMu hmu hs ?_)
  refine keeps_issue.2 ⟨trivial,fun opened => keeps_issue.2 ⟨trivial,fun target => ?_⟩⟩
  have hown' : (if w.fresh = true then some target else w.own) = some seq := by simp [hfresh,hown]
  refine ensures_pure.2 ?_
  cases opened with
  | false => exact keeps_unlessSynced _ hown' hs
  | true =>
    refine ensures_bind.2 (keeps_sync hs (fun e => keeps_unlessSynced e hown' rfl) ?_)
    refine keeps_advanceSynced turns (Nat.le_refl target) fun b hb => ⟨hb ?_,rfl⟩
    exact Bool.or_eq_true_iff.2 (.inr hwrote)

theorem keeps_appendCommitSync (txID : BitVec 64) (payload : Payload V) :
    Keeps {} (appendCommitSync J keys turns nonce txID payload) (fun w _ => w.covered = true ∧ w.syncing = none)
      fun _ => True := by
  refine ensures_bind.2 (keeps_ofExcept (fun bytes _ => ensures_bind.2 ?_) trivial)
  refine keeps_underMu rfl rfl (ensures_bind.2 (keeps_checkOpen ?_ trivial))
  refine ensures_bind.2 (keeps_ofExcept (fun record _ => ?_) trivial)
  refine ensures_bind.2 (keeps_writeLocked "" record ⟨rfl,rfl,rfl⟩ ?_ trivial)
  refine keeps_issue.2 ⟨trivial,fun seq => keeps_issue.2 ⟨trivial,fun _ => ?_⟩⟩
  exact ensures_bind.2 (keeps_syncUpTo turns rfl rfl rfl rfl rfl)

theorem follows_started {p : Prog Cmd Cmd.Res Unit} (h : Started J keys p) :
    Follows syncProtocol {} p fun _ _ => True := by
  have hignore : ∀ {α : Type} {x : Call α}, Keeps {} x (fun _ _ => True) (fun _ => True) →
      Follows syncProtocol {} (ignore x) fun _ _ => True :=
        fun hx => follows_bind.2 (Follows.mono hx fun _ _ _ => trivial)
  cases h with
  | append turns nonce opType payload => exact hignore (keeps_append turns nonce opType payload)
  | appendWithTx turns nonce txID opType payload =>
    exact hignore (keeps_appendWithTx turns nonce txID opType payload)
  | writeCheckpointRecord turns => exact hignore (keeps_writeCheckpointRecord turns)
  | close turns => exact hignore (keeps_close turns)
  | appendCommitSync turns nonce txID payload =>
    refine follows_bind.2 (Follows.mono (keeps_appendCommitSync turns nonce txID payload) fun w r hr => ?_)
    cases r with
    | ok a => exact ⟨hr,fun _ => trivial⟩
    | error e => exact trivial
end
end

def TraceEvent.isWrote : TraceEvent → Bool
  | .wrote _ => true
  | _ => false

def written (t : Trace) : Nat := t.countP fun x => x.2.isWrote

/-- Call `i` has written a record, and a sync that succeeded was started after all it wrote. -/
def Durable (t : Trace) (i : Nat) : Prop :=
  ∃ t₁ j t₂ t₃, t = t₁++((j,.syncStart) :: t₂++(j,.synced) :: t₃) ∧ (∀ x ∈ t₂, x.1 ≠ j) ∧
    (∃ record, (i,.wrote record) ∈ t₁) ∧ ∀ record, (i,.wrote record) ∉ t₂++t₃

def AcknowledgedDurable (t : Trace) : Prop := ∀ pre i post, t = pre++(i,.acknowledged) :: post → Durable pre i

def SyncedUpTo (t : Trace) (n : Nat) : Prop :=
  n = 0 ∨ ∃ t₁ j t₂ t₃, t = t₁++((j,.syncStart) :: t₂++(j,.synced) :: t₃) ∧ (∀ x ∈ t₂, x.1 ≠ j) ∧ n ≤ written t₁

def Own (t : Trace) (i q : Nat) : Prop :=
  ∃ t₁ record t₂, t = t₁++(i,.wrote record) :: t₂ ∧ (∀ r, (i,.wrote r) ∉ t₂) ∧ written t₁+1 = q

section
variable {t es : Trace} {i j m n q : Nat}
theorem written_append (t es : Trace) : written (t++es) = written t+written es := countP_append

theorem SyncedUpTo.extend (h : SyncedUpTo t n) (es : Trace) : SyncedUpTo (t++es) n := by
  rcases h with rfl | ⟨t1,j,t2,t3,rfl,hj,hn⟩
  · exact .inl rfl
  · exact .inr ⟨t1,j,t2,t3++es,by simp,hj,hn⟩

theorem SyncedUpTo.mono (h : SyncedUpTo t n) (hm : m ≤ n) : SyncedUpTo t m := by
  rcases h with rfl | ⟨t1,j,t2,t3,rfl,hj,hn⟩
  · exact .inl (Nat.le_zero.1 hm)
  · exact .inr ⟨t1,j,t2,t3,rfl,hj,Nat.le_trans hm hn⟩

theorem Own.extend (h : Own t i q) (hes : ∀ r, (i,.wrote r) ∉ es) : Own (t++es) i q := by
  obtain ⟨t1,record,t2,rfl,hlast,hq⟩ := h
  refine ⟨t1,record,t2++es,by simp,fun r hr => ?_,hq⟩
  rcases mem_append.1 hr with hr | hr
  · exact hlast r hr
  · exact hes r hr

theorem Durable.extend (h : Durable t i) (hes : ∀ r, (i,.wrote r) ∉ es) : Durable (t++es) i := by
  obtain ⟨t1,j,t2,t3,rfl,hj,hwrote,hlast⟩ := h
  refine ⟨t1,j,t2,t3++es,by simp,hj,hwrote,fun r hr => ?_⟩
  rw [← append_assoc] at hr
  rcases mem_append.1 hr with hr | hr
  · exact hlast r hr
  · exact hes r hr

theorem SyncedUpTo.durable (h : SyncedUpTo t n) (hown : Own t i q) (hq : q ≤ n) : Durable t i := by
  obtain ⟨u1,record,u2,hu,hlast,hcount⟩ := hown
  rcases h with rfl | ⟨t1,j,t2,t3,ht,hj,hn⟩
  · omega
  -- otherwise the sync was started with less than `q` records
  rw [hu] at ht
  rcases append_eq_append_iff.1 ht with ⟨v,hv,hrest⟩ | ⟨v,hv,hrest⟩
  · cases v with
    | nil =>
      rw [append_nil] at hv
      subst hv
      omega
    | cons x v =>
      rw [cons_append,cons.injEq] at hrest
      obtain ⟨rfl,hrest⟩ := hrest
      refine ⟨t1,j,t2,t3,hu.trans ht,hj,⟨record,by rw [hv]; simp⟩,fun r hr => hlast r ?_⟩
      rw [hrest]
      simp only [mem_append,mem_cons] at hr ⊢
      tauto
  · have : written u1 = written t1+written v := by rw [hv,written_append]
    omega

theorem AcknowledgedDurable.extend (h : AcknowledgedDurable t) {x : Nat × TraceEvent}
    (hx : ∀ i, x = (i,.acknowledged) → Durable t i) : AcknowledgedDurable (t++[x]) := by
  intro pre i post ht
  rcases eq_nil_or_concat post with rfl | ⟨post',y,rfl⟩
  · obtain ⟨rfl,hxe⟩ := append_inj' ht rfl
    exact hx i (singleton_inj.1 hxe)
  · have ht' : t++[x] = (pre++(i,.acknowledged) :: post')++[y] := by
      rw [ht]
      simp
    exact h pre i post' (append_inj' ht' rfl).1
end

def Syncing (s : State) (i : Nat) (w : Watcher) (n : Nat) : Prop :=
  ∃ t₁ t₂, s.trace = t₁++(i,.syncStart) :: t₂ ∧ (∀ x ∈ t₂, x.1 ≠ i) ∧ n ≤ written t₁ ∧
    (w.mu = true → s.writeSeq ≤ written t₁) ∧ (w.wrote = true → ∃ record, (i,.wrote record) ∈ t₁)

structure Local (s : State) (i : Nat) (w : Watcher) : Prop where
  lock : w.mu = true ↔ s.mu = some i
  fresh : w.fresh = true → w.mu = true ∧ Own s.trace i s.writeSeq
  own : ∀ q, w.own = some q → w.wrote = true ∧ Own s.trace i q
  wrote : w.wrote = true → ∃ record, (i,.wrote record) ∈ s.trace
  stale : w.fresh = true → w.wrote = true
  seen : w.seen ≤ s.writeSeq
  syncing : ∀ n, w.syncing = some n → Syncing s i w n
  sure : SyncedUpTo s.trace w.sure
  flushed : w.flushed = true → w.mu = true ∧ SyncedUpTo s.trace s.writeSeq
  covered : w.covered = true → w.wrote = true ∧ Durable s.trace i

structure Inv (s : State) (ws : List (Unit × Watcher)) : Prop where
  count : s.writeSeq = written s.trace
  synced : SyncedUpTo s.trace s.syncedSeq
  owner : ∀ i, s.mu = some i → i < ws.length
  calls : ∀ i w, ws[i]? = some ((),w) → Local s i w
  acknowledged : AcknowledgedDurable s.trace

section
variable {s s' : State} {ws : List (Unit × Watcher)} {i j : Nat} {w w' v : Watcher}
theorem Local.other (h : Local s j v) (es : Trace) (hes : ∀ x ∈ es, x.1 ≠ j) (htrace : s'.trace = s.trace++es)
    (hmu : s'.mu = some j ↔ s.mu = some j) (hle : s.writeSeq ≤ s'.writeSeq)
    (hseq : v.mu = true → s'.writeSeq = s.writeSeq) : Local s' j v := by
  have hnone : ∀ r, (j,TraceEvent.wrote r) ∉ es := fun r hr => hes _ hr rfl
  refine ⟨h.lock.trans hmu.symm,fun hf => ?_,fun q hq => ?_,fun hw => ?_,h.stale,Nat.le_trans h.seen hle,
    fun n hn => ?_,?_,fun hf => ?_,fun hc => ?_⟩
  · obtain ⟨hm,hown⟩ := h.fresh hf
    rw [htrace,hseq hm]
    exact ⟨hm,hown.extend hnone⟩
  · rw [htrace]
    exact ⟨(h.own q hq).1,(h.own q hq).2.extend hnone⟩
  · obtain ⟨record,hr⟩ := h.wrote hw
    exact ⟨record,by rw [htrace]; exact mem_append_left _ hr⟩
  · obtain ⟨t1,t2,ht,hj,hn,hm,hw⟩ := h.syncing n hn
    refine ⟨t1,t2++es,by simp [htrace,ht],fun x hx => ?_,hn,fun hmu => ?_,hw⟩
    · rcases mem_append.1 hx with hx | hx
      · exact hj x hx
      · exact hes x hx
    · rw [hseq hmu]
      exact hm hmu
  · rw [htrace]
    exact h.sure.extend es
  · obtain ⟨hm,hall⟩ := h.flushed hf
    rw [htrace,hseq hm]
    exact ⟨hm,hall.extend es⟩
  · rw [htrace]
    exact ⟨(h.covered hc).1,(h.covered hc).2.extend hnone⟩

structure Same (s s' : State) : Prop where
  mu : s'.mu = s.mu
  trace : s'.trace = s.trace
  writeSeq : s'.writeSeq = s.writeSeq
  syncedSeq : s'.syncedSeq = s.syncedSeq

theorem Local.same (h : Local s j v) (hs : Same s s') : Local s' j v := by
  exact h.other [] (by simp) (by simp [hs.trace]) (by rw [hs.mu])
    (Nat.le_of_eq hs.writeSeq.symm) fun _ => hs.writeSeq

variable {e : TraceEvent}
theorem Local.log (h : Local s i w) (hs : w.syncing = none) (he : e.isWrote = false) : Local (s.log i e) i w := by
  have hnone : ∀ r, (i,TraceEvent.wrote r) ∉ [(i,e)] := by
    intro r hr
    obtain ⟨-,rfl⟩ := Prod.mk.inj (mem_singleton.1 hr)
    cases he
  refine ⟨h.lock,fun hf => ⟨(h.fresh hf).1,(h.fresh hf).2.extend hnone⟩,
    fun q hq => ⟨(h.own q hq).1,(h.own q hq).2.extend hnone⟩,fun hw => ?_,h.stale,h.seen,fun n hn => ?_,
    h.sure.extend _,fun hf => ⟨(h.flushed hf).1,(h.flushed hf).2.extend _⟩,
    fun hc => ⟨(h.covered hc).1,(h.covered hc).2.extend hnone⟩⟩
  · obtain ⟨record,hr⟩ := h.wrote hw
    exact ⟨record,mem_append_left _ hr⟩
  · rw [hn] at hs
    cases hs

theorem written_log (s : State) (i : Nat) (he : e.isWrote = false) : written (s.log i e).trace =
    written s.trace := by
  simp [State.log,written,he]

theorem Local.endSync (h : Local s i w) : Local s i { w with syncing := none } :=
  { h with syncing := fun n hn => by cases hn }

section
variable (h : Inv s ws) (hi : ws[i]? = some ((),w))
include h hi
theorem Inv.set (hcount : s'.writeSeq = written s'.trace)
    (hsynced : SyncedUpTo s'.trace s'.syncedSeq) (hmu : ∀ j, s'.mu = some j → j = i ∨ s.mu = some j)
    (hlocal : Local s' i w') (hother : ∀ j v, j ≠ i → ws[j]? = some ((),v) → Local s j v → Local s' j v)
    (hack : AcknowledgedDurable s'.trace) : Inv s' (ws.set i ((),w')) := by
  refine ⟨hcount,hsynced,fun j hj => ?_,fun j v hv => ?_,hack⟩
  · rw [length_set]
    rcases hmu j hj with rfl | hj
    · exact (List.getElem?_eq_some_iff.1 hi).1
    · exact h.owner j hj
  · rcases thread_set_cases hv with ⟨rfl,he⟩ | ⟨hj,hv⟩
    · cases he
      exact hlocal
    · exact hother j v hj hv (h.calls j v hv)

theorem Inv.same (hs : Same s s') (hlocal : Local s i w → Local s i w') : Inv s' (ws.set i ((),w')) := by
  refine h.set hi (by rw [hs.writeSeq,hs.trace,h.count]) (by rw [hs.trace,hs.syncedSeq]; exact h.synced)
    (fun j hj => .inr (hs.mu ▸ hj)) ((hlocal (h.calls i w hi)).same hs) (fun j v _ _ hv => hv.same hs) ?_
  rw [hs.trace]
  exact h.acknowledged

theorem Inv.lockMu (hfree : s.mu = none) (hmu : w.mu = false)
    (hs : w.syncing = none) : Inv { s with mu := some i } (ws.set i ((),{ w with mu := true })) := by
  have hl := h.calls i w hi
  have hno : ∀ {p : Prop}, w.mu = true → p := fun ht => by rw [hmu] at ht; cases ht
  refine h.set hi h.count h.synced (fun j hj => .inl (some.inj hj).symm) ?_ (fun j v hj _ hv => ?_) h.acknowledged
  · refine { hl with
      lock := ⟨fun _ => rfl,fun _ => rfl⟩
      fresh := fun hf => hno (hl.fresh hf).1
      syncing := ?_
      flushed := fun hf => hno (hl.flushed hf).1 }
    intro n hn
    rw [show w.syncing = some n from hn] at hs
    cases hs
  · refine hv.other [] (by simp) (by simp) ⟨fun hm => ?_,fun hm => ?_⟩ (Nat.le_refl _) fun _ => rfl
    · exact absurd (some.inj hm).symm hj
    · rw [hfree] at hm
      cases hm

theorem Inv.unlockMu (hheld : s.mu = some i) :
    Inv { s with mu := none } (ws.set i ((),{ w with mu := false, fresh := false, flushed := false })) := by
  have hl := h.calls i w hi
  refine h.set hi h.count h.synced (fun j hj => by cases hj) ?_ (fun j v hj _ hv => ?_) h.acknowledged
  · refine ⟨⟨fun hf => (by cases hf),fun hf => (by cases hf)⟩,fun hf => (by cases hf),hl.own,hl.wrote,
      fun hf => (by cases hf),hl.seen,fun n hn => ?_,hl.sure,fun hf => (by cases hf),hl.covered⟩
    obtain ⟨t1,t2,ht,hj,hle,-,hw⟩ := hl.syncing n hn
    exact ⟨t1,t2,ht,hj,hle,fun hf => (by cases hf),hw⟩
  · refine hv.other [] (by simp) (by simp) ⟨fun hm => (by cases hm),fun hm => ?_⟩ (Nat.le_refl _) fun _ => rfl
    exact absurd (some.inj (hm.symm.trans hheld)) hj

theorem Inv.log (he : e.isWrote = false)
    (hlocal : Local (s.log i e) i w') (hack : e = .acknowledged → Durable s.trace i) :
    Inv (s.log i e) (ws.set i ((),w')) := by
  refine h.set hi (h.count.trans (written_log s i he).symm) (h.synced.extend _) (fun _ hj => .inr hj) hlocal ?_
    (h.acknowledged.extend ?_)
  · intro j v hj _ hv
    exact hv.other [(i,e)] (by simp [Ne.symm hj]) rfl Iff.rfl (Nat.le_refl _) fun _ => rfl
  · intro j hj
    obtain ⟨rfl,rfl⟩ := Prod.mk.inj hj
    exact hack rfl

theorem Inv.startSync (hs : w.syncing = none) : Inv (s.log i .syncStart)
    (ws.set i ((),{ w with syncing := some w.seen })) := by
  have hl := h.calls i w hi
  have hlog := hl.log (e := .syncStart) hs rfl
  refine h.log hi rfl { hlog with syncing := ?_ } fun he => by cases he
  rintro n hn
  cases hn
  exact ⟨s.trace,[],rfl,by simp,h.count ▸ hl.seen,fun _ => Nat.le_of_eq h.count,hl.wrote⟩

theorem Inv.syncFailed : Inv (s.log i .syncFailed) (ws.set i ((),{ w with syncing := none })) :=
  h.log hi rfl ((h.calls i w hi).endSync.log rfl rfl) fun he => by cases he

theorem Inv.synced_ok (hs : w.syncing ≠ none) : Inv (s.log i .synced) (ws.set i ((),{ w with
      syncing := none, sure := w.syncing.getD 0, flushed := w.mu, covered := w.covered || w.wrote })) := by
  have hl := h.calls i w hi
  have hlog := hl.endSync.log (e := .synced) rfl rfl
  obtain ⟨n,hn⟩ := ne_none_iff_exists'.1 hs
  obtain ⟨t1,t2,ht,hj,hle,hall,hwrote⟩ := hl.syncing n hn
  have htrace : (s.log i .synced).trace = t1++((i,.syncStart) :: t2++(i,.synced) :: []) := by simp [State.log,ht]
  refine h.log hi rfl { hlog with
    syncing := fun n hn => by cases hn
    sure := ?_
    flushed := fun hm => ⟨hm,.inr ⟨t1,i,t2,[],htrace,hj,hall hm⟩⟩
    covered := fun hc => ?_ } fun he => by cases he
  · rw [hn]
    exact .inr ⟨t1,i,t2,[],htrace,hj,hle⟩
  · rcases Bool.or_eq_true_iff.1 hc with hc | hw
    · exact hlog.covered hc
    · refine ⟨hw,t1,i,t2,[],htrace,hj,hwrote hw,fun r hr => ?_⟩
      rw [append_nil] at hr
      exact hj _ hr rfl

theorem Inv.write (hmu : w.mu = true) (hw : w.wrote = false) (hs : w.syncing = none) (record : List UInt8) :
    Inv ({ s with writeSeq := s.writeSeq+1 }.log i (.wrote record))
      (ws.set i ((),{ w with wrote := true, fresh := true, flushed := false })) := by
  have hl := h.calls i w hi
  have hno : ∀ {p : Prop}, w.wrote = true → p := fun ht => by rw [hw] at ht; cases ht
  refine h.set hi ?_ (h.synced.extend _) (fun _ hj => .inr hj) ?_ (fun j v hj _ hv => ?_) (h.acknowledged.extend ?_)
  · simp [State.log,h.count,written,TraceEvent.isWrote]
  · refine ⟨hl.lock,fun _ => ⟨hmu,s.trace,record,[],rfl,by simp,by rw [h.count]; rfl⟩,fun q hq =>
      hno (hl.own q hq).1,
      fun _ => ⟨record,by simp [State.log]⟩,fun _ => rfl,Nat.le_succ_of_le hl.seen,fun n hn => ?_,hl.sure.extend _,
      fun hf => (by cases hf),fun hc => hno (hl.covered hc).1⟩
    rw [show w.syncing = some n from hn] at hs
    cases hs
  · refine hv.other [(i,.wrote record)] (by simp [Ne.symm hj]) rfl Iff.rfl (Nat.le_succ _) fun hm => ?_
    -- the other call would hold `mu` as well
    exact absurd (some.inj ((hv.lock.1 hm).symm.trans (hl.lock.1 hmu))) hj
  · intro j hj
    cases hj

theorem Inv.readWriteSeq : Inv s (ws.set i ((),{ w with
      seen := s.writeSeq
      own := if w.fresh then some s.writeSeq else w.own
      sure := if w.flushed then s.writeSeq else w.sure })) := by
  refine h.same hi ⟨rfl,rfl,rfl,rfl⟩ fun hl => { hl with own := fun q hq => ?_, seen := Nat.le_refl _, sure := ?_ }
  · split at hq
    · next hf =>
      cases hq
      exact ⟨hl.stale hf,(hl.fresh hf).2⟩
    · exact hl.own q hq
  · show SyncedUpTo s.trace (if w.flushed = true then s.writeSeq else w.sure)
    split
    · next hf => exact (hl.flushed hf).2
    · exact hl.sure

theorem Inv.loadSynced : Inv s (ws.set i ((),{ w with covered := w.covered || w.ownSynced s.syncedSeq })) := by
  refine h.same hi ⟨rfl,rfl,rfl,rfl⟩ fun hl => { hl with covered := fun hc => ?_ }
  rcases Bool.or_eq_true_iff.1 hc with hc | hc
  · exact hl.covered hc
  · rw [Watcher.ownSynced] at hc
    split at hc
    · next q hq => exact ⟨(hl.own q hq).1,h.synced.durable (hl.own q hq).2 (of_decide_eq_true hc)⟩
    · cases hc

theorem Inv.casSynced (hseq : seq ≤ w.sure) : Inv { s with syncedSeq := seq } (ws.set i ((),w)) := by
  have hkeep : ∀ {j v}, Local s j v → Local { s with syncedSeq := seq } j v := fun hv =>
    hv.other [] (by simp) (by simp) Iff.rfl (Nat.le_refl _) fun _ => rfl
  have hl := h.calls i w hi
  exact h.set hi h.count (hl.sure.mono hseq) (fun _ hj => .inr hj) (hkeep hl)
    (fun _ _ _ _ hv => hkeep hv) h.acknowledged

theorem Inv.acknowledge (hc : w.covered = true) (hs : w.syncing = none) :
    Inv (s.log i .acknowledged) (ws.set i ((),w)) :=
  have hl := h.calls i w hi
  h.log hi rfl (hl.log hs rfl) fun _ => (hl.covered hc).2

theorem Inv.step {c : Cmd} {r : c.Res} (ha : w.allowed c)
    (he : s.answer i c r = some s') : Inv s' (ws.set i ((),w.next c r)) := by
  have hsame : Same s s' → Inv s' (ws.set i ((),w)) := fun hs => h.same hi hs fun hl => hl
  cases c with
  | lockMu =>
    obtain ⟨hfree,⟨⟩⟩ := ite_none_right_eq_some.1 he
    exact h.lockMu hi hfree ha.1 ha.2
  | unlockMu =>
    obtain ⟨hheld,⟨⟩⟩ := ite_none_right_eq_some.1 he
    exact h.unlockMu hi hheld
  | lockSyncMu | unlockSyncMu | isOpen | loadTxID | addTxID =>
    obtain ⟨-,⟨⟩⟩ := ite_none_right_eq_some.1 he
    exact hsame ⟨rfl,rfl,rfl,rfl⟩
  | closeFile | resetSyncCounter =>
    cases he
    exact hsame ⟨rfl,rfl,rfl,rfl⟩
  | raiseTxID txID =>
    cases he
    refine hsame ?_
    split
    · exact ⟨rfl,rfl,rfl,rfl⟩
    · exact ⟨rfl,rfl,rfl,rfl⟩
  | write record =>
    cases r with
    | none =>
      cases he
      exact h.write hi ha.1 ha.2.1 ha.2.2 record
    | some e =>
      cases he
      exact hsame ⟨rfl,rfl,rfl,rfl⟩
  | readWriteSeq =>
    obtain ⟨rfl,⟨⟩⟩ := ite_none_right_eq_some.1 he
    exact h.readWriteSeq hi
  | countSync =>
    simp only [State.answer] at he
    split at he
    · obtain ⟨-,⟨⟩⟩ := ite_none_right_eq_some.1 he
      exact hsame ⟨rfl,rfl,rfl,rfl⟩
    · obtain ⟨-,⟨⟩⟩ := ite_none_right_eq_some.1 he
      exact hsame ⟨rfl,rfl,rfl,rfl⟩
  | startSync =>
    cases he
    exact h.startSync hi ha
  | endSync =>
    cases r with
    | none =>
      cases he
      exact h.synced_ok hi ha
    | some e =>
      cases he
      exact h.syncFailed hi
  | loadSynced =>
    obtain ⟨rfl,⟨⟩⟩ := ite_none_right_eq_some.1 he
    exact h.loadSynced hi
  | casSynced cur seq =>
    simp only [State.answer] at he
    split at he
    · obtain ⟨-,⟨⟩⟩ := ite_none_right_eq_some.1 he
      exact h.casSynced hi ha
    · obtain ⟨-,⟨⟩⟩ := ite_none_right_eq_some.1 he
      exact hsame ⟨rfl,rfl,rfl,rfl⟩
  | spin => cases he
  | acknowledge =>
    cases he
    exact h.acknowledge hi ha.1 ha.2
end
end

def syncMachine {V : Type} (J : Json V) (keys : Keys) : Machine Cmd Cmd.Res Watcher Unit State Empty where
  protocol := syncProtocol
  fresh := {}
  start _ p := Started J keys p
  exec i _ s c r s' := s.answer i c r = some s'
  env _ e _ := e.elim

def opened (nextTxID : BitVec 64) (syncBatchSize : Nat) : State :=
  { nextTxID := nextTxID, syncBatchSize := syncBatchSize }

section
variable {V : Type} {J : Json V} {keys : Keys}
theorem inv_opened (nextTxID : BitVec 64) (syncBatchSize : Nat) : Inv (opened nextTxID syncBatchSize) [] :=
  ⟨rfl,.inl rfl,fun i hi => (by cases hi),fun i w hw => by simp at hw,fun pre i post h => by simp [opened] at h⟩

theorem Inv.spawn {s : State} {ws : List (Unit × Watcher)} (h : Inv s ws) : Inv s (ws++[((),({} : Watcher))]) := by
  refine ⟨h.count,h.synced,fun i hi => ?_,fun i w hw => ?_,h.acknowledged⟩
  · rw [length_append]
    exact Nat.lt_add_right _ (h.owner i hi)
  · rcases thread_concat_cases hw with hw | ⟨rfl,heq⟩
    · exact h.calls i w hw
    · cases heq
      refine ⟨⟨fun hf => (by cases hf),fun hm => absurd (h.owner _ hm) (Nat.lt_irrefl _)⟩,fun hf =>
        (by cases hf),fun q hq => (by cases hq),
        fun hf => (by cases hf),fun hf => (by cases hf),Nat.zero_le _,fun n hn => (by cases hn),.inl rfl,
        fun hf => (by cases hf),fun hf => (by cases hf)⟩

theorem Inv.reach {nextTxID : BitVec 64} {syncBatchSize : Nat} {cf : Config Cmd Cmd.Res Watcher Unit State}
    (h : (syncMachine J keys).Reach (fun _ _ => True) (opened nextTxID syncBatchSize) cf) :
    Inv cf.state cf.watchers :=
  (h.inv (fun _ _ hp => follows_started hp) Inv (inv_opened nextTxID syncBatchSize)
    (fun _ _ _ hJ _ _ => hJ.spawn) (fun _ _ _ _ _ _ _ hJ hi ha he _ => hJ.step hi ha he)
    fun _ e _ _ _ _ => e.elim).1

/-- However the calls interleave and whichever syncs fail, a commit is acknowledged only after a
sync started behind its record. -/
theorem commit_durable {nextTxID : BitVec 64} {syncBatchSize : Nat} {cf : Config Cmd Cmd.Res Watcher Unit State}
    (h : (syncMachine J keys).Reach (fun _ _ => True) (opened nextTxID syncBatchSize) cf) :
    AcknowledgedDurable cf.state.trace := (Inv.reach h).acknowledged
end

def State.reply (s : State) : (c : Cmd) → c.Res
  | .isOpen => s.opened
  | .loadTxID => s.nextTxID
  | .addTxID => s.nextTxID+1
  | .write _ => none
  | .readWriteSeq => s.writeSeq
  | .countSync => decide (¬ (0 < s.syncBatchSize ∧ s.syncCounter+1 < s.syncBatchSize))
  | .endSync => none
  | .loadSynced => s.syncedSeq
  | .casSynced cur _ => decide (s.syncedSeq = cur)
  | .lockMu | .unlockMu | .lockSyncMu | .unlockSyncMu | .closeFile | .raiseTxID _ | .resetSyncCounter | .startSync | .spin
  | .acknowledge => ()

def State.proceed (s : State) (i : Nat) (c : Cmd) : Option (c.Res × State) :=
  (s.answer i c (s.reply c)).map fun s' => (s.reply c,s')

def twoCommits : List (Unit × Prog Cmd Cmd.Res Unit) :=
  [((),(appendCommitSync noJson .none 1 zeroNonce 1 (.commit 7)).run >>= acknowledged),
   ((),(appendCommitSync noJson .none 1 zeroNonce 2 (.commit 8)).run >>= acknowledged)]

theorem commit_durable_sample : ∃ cf, (syncMachine noJson .none).Reach (fun _ _ => True) (opened 0 0) cf ∧
    cf.state.trace.map (fun x => (x.1, x.2.isWrote)) =
      [(0, true), (1, true), (0, false), (0, false), (1, false), (0, false)] ∧
    cf.state.trace.filter (fun x => decide (x.2 = .acknowledged)) = [(1, .acknowledged), (0, .acknowledged)] ∧
    AcknowledgedDurable cf.state.trace := by
  have hplay : ((syncMachine noJson .none).play (fun i _ s c => s.proceed i c) (fun _ _ => true)
      ⟨opened 0 0,(syncMachine noJson .none).starting twoCommits⟩
      (replicate 6 0++replicate 6 1++replicate 9 0++[0,0,1,1,0,0])).map
        (fun cf => (cf.state.trace.map fun x => (x.1,x.2.isWrote),cf.state.trace.filter fun x =>
          decide (x.2 = .acknowledged))) =
      some ([(0,true),(1,true),(0,false),(0,false),(1,false),(0,false)],
        [(1,.acknowledged),(0,.acknowledged)]) := by
    decide +kernel
  have hstart : ∀ x ∈ twoCommits, (syncMachine noJson .none).start x.1 x.2 := by
    rw [twoCommits,forall_mem_cons,forall_mem_singleton]
    exact ⟨.appendCommitSync 1 zeroNonce 1 (.commit 7),.appendCommitSync 1 zeroNonce 2 (.commit 8)⟩
  have hproceed : ∀ (i : Nat) (t : Unit) s c x, State.proceed s i c = some x →
      (syncMachine noJson .none).exec i t s c x.1 x.2 := by
    intro i t s c x hx
    obtain ⟨s',hs',rfl⟩ := map_eq_some_iff.1 hx
    exact hs'
  obtain ⟨cf,hreach,ht⟩ := Machine.Reach.sample hproceed (fun _ _ _ => trivial) (fun _ _ _ => trivial) hstart hplay
  obtain ⟨hevents,hack⟩ := Prod.mk.inj ht
  exact ⟨cf,hreach,hevents,hack,commit_durable hreach⟩

end VaultDB.WalFile.CommitSync
