import Mathlib.Data.List.Sort
import VaultDB.Lib.Prog
set_option autoImplicit false

/-!
Sessions over the transaction manager.

A session runs statements one after the other.  What concurrency control depends on is spelled out
as commands: versions read and bumped, commit locks taken and released, and every change of a row
with the code path of its call. What a call does to the row is left open.
-/

namespace VaultDB.Tx
open Lib

inductive Via where
  /-- The table of a statement under `MutateUnderTableLock`, or of an operation `Commit`
  applies. -/
  | immediate
  | fastPath
  | copyFrom
  | pendingTruncate
  | cascade
  /-- A MERGE fired by a trigger while a transaction is being applied. -/
  | trigger
  | ddl
  | undo
  deriving DecidableEq, Repr

structure Outcome where
  ok : Bool
  changed : Bool
  deriving DecidableEq, Repr

inductive Cmd where
  | begin
  | finish
  | read (k : String)
  | tableVersion (k : String)
  | currentVersion (k : String)
  | lock (k : String)
  | unlock (k : String)
  | bumpTableVersion (k : String)
  | mutate (via : Via) (k : String)
  /-- `Commit` has applied every operation and still holds its locks. -/
  | applied (ks : List String)
  | hasCycle
  | readOps
  | walCommit
  deriving DecidableEq, Repr

abbrev Cmd.Res : Cmd → Type
  | .tableVersion _ => Nat
  | .currentVersion _ => Nat
  | .mutate _ _ => Outcome
  | .hasCycle => Bool
  | .readOps => Bool
  | .walCommit => Bool
  | _ => Unit

abbrev P := Prog Cmd Cmd.Res
def issue (c : Cmd) : P c.Res := Prog.cmd c

/-- A statement that changes rows: the table it names, the tables of the row changes its
storage calls make, in order, and whether this kind of statement fires triggers. -/
structure Mutation where
  table : String
  calls : List String
  fires : Bool := true
  deriving DecidableEq, Repr

inductive OpType where
  | insert
  | update
  | delete
  | truncate
  | ddl
  deriving DecidableEq, Repr

/-- A buffered operation; `undo` counts the row changes its compensation makes. -/
structure PendingOp where
  type : OpType
  mutation : Mutation
  undo : Nat := 0
  deriving DecidableEq, Repr

structure Transaction where
  snapshots : List (String × Nat) := []
  ops : List PendingOp := []
  deriving DecidableEq, Repr

abbrev Session := Option Transaction

inductive Dml where
  | select (tables : List String)
  /-- `single`: one row of values without ON CONFLICT, RETURNING, SELECT or OR REPLACE. -/
  | insert (single : Bool) (op : PendingOp)
  | update (op : PendingOp)
  | delete (op : PendingOp)
  | truncate (op : PendingOp)
  | merge (m : Mutation) (sources : List String)
  | copyFrom (k : String) (rows : Nat)
  /-- `buffered`: CREATE TABLE and DROP TABLE leave an operation in the transaction. -/
  | ddl (k : String) (rows : Nat) (buffered : Bool)
  deriving DecidableEq, Repr

inductive Statement where
  | begin
  | dml (stmt : Dml)
  | rollbackToSavepoint (n : Nat)
  | commit
  | rollback
  deriving DecidableEq, Repr

def Transaction.hasSnapshot (tx : Transaction) (k : String) : Bool := tx.snapshots.any (·.1 == k)

def recordAccess (tx : Transaction) (k : String) : P Transaction :=
  if tx.hasSnapshot k then pure tx
  else do
    let v ← issue (.tableVersion k)
    pure { tx with snapshots := tx.snapshots++[(k,v)] }

def addOp (tx : Transaction) (op : PendingOp) : P Transaction := do
  let tx ← recordAccess tx op.mutation.table
  pure { tx with ops := tx.ops++[op] }

/-- Read tables and lay the transaction's own operations over them: the rows are read before
`applyTxOverlay` records the version. -/
def readTables (tx : Transaction) : List String → P Transaction
  | [] => pure tx
  | k :: ks => do
    issue (.read k)
    let tx ← recordAccess tx k
    readTables tx ks

def readInTx (s : Session) (ks : List String) : P Session :=
  match s with
  | none => pure none
  | some tx => do
    let tx ← readTables tx ks
    pure (some tx)

/-- The row changes of a statement, up to the first that fails. -/
def storageCalls (via : Via) (table : String) : List String → P Bool
  | [] => pure true
  | k :: ks => do
    let o ← issue (.mutate (if k = table then via else .cascade) k)
    if o.ok then storageCalls via table ks else pure false

def executeInner (via : Via) (m : Mutation) : P Bool := do
  let ok ← storageCalls via m.table m.calls
  if ok then do
    issue (.bumpTableVersion m.table)
    pure true
  else pure false

def mutateUnderTableLock {α : Type} (inCommitApply : Bool) (k : String) (fn : P α) : P α :=
  if inCommitApply then fn
  else do
    issue (.lock k)
    let r ← fn
    issue (.unlock k)
    pure r

def lockTables : List String → P Unit
  | [] => pure ()
  | k :: ks => do
    issue (.lock k)
    lockTables ks

def unlockTables : List String → P Unit
  | [] => pure ()
  | k :: ks => do
    issue (.unlock k)
    unlockTables ks

def versionsUnchanged : List (String × Nat) → P Bool
  | [] => pure true
  | (k,v) :: rest => do
    let current ← issue (.currentVersion k)
    if current = v then versionsUnchanged rest else pure false

def Transaction.sorted (tx : Transaction) : List (String × Nat) := tx.snapshots.insertionSort fun a b => a.1 ≤ b.1

inductive Committed where
  | refused
  | tried (applied : Nat) (ok : Bool)
  deriving DecidableEq, Repr

def managerCommit (tx : Transaction) (applyFn : List PendingOp → P (Nat × Bool)) : P Committed := do
  let cycle ← issue .hasCycle
  if cycle then pure .refused
  else do
    let tables := tx.sorted
    lockTables (tables.map (·.1))
    let same ← versionsUnchanged tables
    let readable ← if same then issue .readOps else pure false
    let r ← if readable then do
        let (n,ok) ← applyFn tx.ops
        if ok then issue (.applied (tables.map (·.1))) else pure ()
        pure (Committed.tried n ok)
      else pure .refused
    unlockTables (tables.map (·.1)).reverse
    pure r

section
variable (fire : OpType → Session → String → P Session)
def executeImmediate (inCommitApply : Bool) (s : Session) (op : PendingOp) : P (Bool × Session) :=
  mutateUnderTableLock inCommitApply op.mutation.table do
    let ok ← executeInner .immediate op.mutation
    if ok && op.mutation.fires then do
      let s ← fire op.type s op.mutation.table
      pure (true,s)
    else pure (ok,s)

def fastPathInsert (s : Session) (op : PendingOp) : P Session := do
  let ok ← executeInner .fastPath ⟨op.mutation.table,[op.mutation.table],true⟩
  if ok then fire .insert s op.mutation.table else pure s

def truncateImmediate (op : PendingOp) : P Unit := do
  issue .begin
  let tx ← addOp {} op
  let _ ← managerCommit tx fun ops => do
    let ok ← executeInner .immediate ⟨op.mutation.table,op.mutation.calls,false⟩
    pure (ops.length,ok)
  issue .finish

def executeDml (inCommitApply : Bool) (s : Session) : Dml → P Session
  | .select ks => readInTx s ks
  | .insert single op =>
    match s with
    | some tx => do
      let tx ← addOp tx op
      pure (some tx)
    | none =>
      if single then fastPathInsert fire none op
      else do
        let (_,s) ← executeImmediate fire inCommitApply none op
        pure s
  | .update op | .delete op =>
    match s with
    | some tx => do
      issue (.read op.mutation.table)
      let tx ← addOp tx op
      pure (some tx)
    | none => do
      let (_,s) ← executeImmediate fire inCommitApply none op
      pure s
  | .truncate op =>
    match s with
    | some tx => do
      let tx ← addOp tx op
      pure (some tx)
    | none => do
      truncateImmediate op
      pure none
  | .merge m sources => do
    mutateUnderTableLock inCommitApply m.table do
      let s ← readInTx s (m.table :: sources)
      let _ ← executeInner (if inCommitApply then .trigger else .immediate) m
      pure s
  | .copyFrom k rows => do
    let _ ← executeInner .copyFrom ⟨k,List.replicate rows k,false⟩
    pure s
  | .ddl k rows buffered => do
    let _ ← storageCalls .ddl k (List.replicate rows k)
    match s with
    | some tx =>
      if buffered then do
        let tx ← addOp tx ⟨.ddl,⟨k,[],false⟩,0⟩
        pure (some tx)
      else pure s
    | none => pure none

def applyOp (s : Session) (op : PendingOp) : P (Bool × Session) :=
  match op.type with
  | .truncate => do
    -- no notifyMutation here
    let ok ← storageCalls .pendingTruncate op.mutation.table (op.mutation.calls.map fun _ => op.mutation.table)
    pure (ok,s)
  | .ddl => pure (true,s)
  | _ => executeImmediate fire true s op

def applyOps (s : Session) (n : Nat) : List PendingOp → P (Nat × Bool)
  | [] => pure (n,true)
  | op :: ops => do
    let (ok,s) ← applyOp fire s op
    if ok then applyOps s (n+1) ops else pure (n,false)
end

def undoOps : List PendingOp → P Unit
  | [] => pure ()
  | op :: ops => do
    let ok ← storageCalls .undo op.mutation.table (List.replicate op.undo op.mutation.table)
    if ok then undoOps ops else pure ()

def undoAppliedOps (ops : List PendingOp) : P Unit := undoOps ops.reverse

section
variable (triggers : OpType → String → List Dml)
def executeAll (fire : OpType → Session → String → P Session) (inCommitApply : Bool) : Session → List Dml → P Session
  | s, [] => pure s
  | s, d :: ds => do
    let s ← executeDml fire inCommitApply s d
    executeAll fire inCommitApply s ds

def fireTriggers (inCommitApply : Bool) : Nat → OpType → Session → String → P Session
  | 0, _, s, _ => pure s
  | depth+1, event, s, k => executeAll (fireTriggers inCommitApply depth) inCommitApply s (triggers event k)

def maxTriggerDepth : Nat := 3

/-- `CommitCommand`: a refused COMMIT leaves the transaction open. -/
def commitCommand (tx : Transaction) : P Session := do
  let readable ← issue .readOps
  if readable then do
    let r ← managerCommit tx (applyOps (fireTriggers triggers true maxTriggerDepth) (some tx) 0)
    match r with
    | .refused => pure (some tx)
    | .tried n false => do
      undoAppliedOps (tx.ops.take n)
      issue .finish
      pure none
    | .tried _ true => do
      let written ← issue .walCommit
      if written then pure () else undoAppliedOps tx.ops
      issue .finish
      pure none
  else pure (some tx)

def executeStatement (s : Session) : Statement → P Session
  | .begin =>
    match s with
    | some tx => pure (some tx)
    | none => do
      issue .begin
      pure (some {})
  | .dml d => executeDml (fireTriggers triggers false maxTriggerDepth) false s d
  | .rollbackToSavepoint n => pure (s.map fun tx => { tx with ops := tx.ops.take n })
  | .commit =>
    match s with
    | none => pure none
    | some tx => commitCommand triggers tx
  | .rollback =>
    match s with
    | none => pure none
    | some _ => do
      issue .finish
      pure none

def runStatements : Session → List Statement → P Unit
  | _, [] => pure ()
  | s, stmt :: stmts => do
    let s ← executeStatement triggers s stmt
    runStatements s stmts
end
end VaultDB.Tx
