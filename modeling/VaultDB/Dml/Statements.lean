import VaultDB.Storage.Snapshot
set_option autoImplicit false

/-!
`INSERT` and `UPDATE` on top of the storage engine, with their checks for UNIQUE columns and unique
indexes.

Each check reads the table once: `ReadCurrentRows` for all UNIQUE columns, one `IndexLookup` for
every unique index and row.  In between other statements go on.  How rows are built and what is
checked before are parameters. Transactions, INSERT with SELECT, ON CONFLICT or partitions, and
triggers are left out.
-/

namespace VaultDB.Dml
open Lib Storage

/-- A unique index of one column: `CreateIndexMultiUnique` never marks its index. -/
structure UniqueIndex where
  name : String
  column : String
  colIndex : Nat
  deriving DecidableEq, Repr

structure TableKeys where
  schema : TableSchema
  columns : List Nat
  indexes : List UniqueIndex

section
variable {V : Type} (R : RowOps V) [BEq V]
def uniqueValue (c : Nat) (row : List V) : Option V := row[c]?.filter fun v => !(v == R.null)

def existingValues (c : Nat) (excluded : List Int) (rows : List (List V)) : List V :=
  (rows.zipIdx.filter fun x => !excluded.contains (x.2 : Int)).filterMap fun x => uniqueValue R c x.1

def duplicateValue (c : Nat) : List V → List (List V) → Option V
  | _, [] => none
  | existing, row :: rows =>
    match uniqueValue R c row with
    | none => duplicateValue c existing rows
    | some v => if existing.contains v then some v else duplicateValue c (v :: existing) rows

def checkColumns (schema : TableSchema) (existingRows : List (List V)) (excluded : List Int) (rows : List (List V)) :
    List Nat → Except String Unit
  | [] => .ok ()
  | c :: cs =>
    match duplicateValue R c (existingValues R c excluded existingRows) rows with
    | some v => .error ("duplicate value "++R.sprint v++" for unique column '"++
        (schema.columns[c]?.map ColumnSchema.name).getD ""++"'")
    | none => checkColumns schema existingRows excluded rows cs

def indexLookup (idxs : List Index) (column key : String) : List Int :=
  match idxs.find? fun idx => R.toLower idx.column == R.toLower column with
  | none => []
  | some idx => (idx.data.filter (·.1 == key)).map Prod.snd

def checkIndex (idxs : List Index) (idx : UniqueIndex) (row : List V) (excluded : List Int) : Except String Unit :=
  match uniqueValue R idx.colIndex row with
  | none => .ok ()
  | some v =>
    if (indexLookup R idxs idx.column (R.sprint v)).all fun pos => excluded.contains pos then .ok ()
    else .error ("duplicate value "++R.sprint v++" for unique index '"++idx.name++"' on column '"++idx.column++"'")
end

/-- The commands of `INSERT` and `UPDATE`: those of the engine, the schema and indexes, the
executor's table lock, and the two kinds of checks. -/
inductive DmlCmd (V : Type) where
  | storage (c : Cmd)
  | getTableSchema (k : TableKey)
  | lockTables
  | unlockTables
  | checkColumns (rows : List (List V)) (excluded : List Int)
  | checkIndex (idx : UniqueIndex) (row : List V) (excluded : List Int)

abbrev DmlCmd.Res {V : Type} : DmlCmd V → Type
  | .storage c => c.Res
  | .getTableSchema _ => Option TableKeys
  | .lockTables => Unit
  | .unlockTables => Unit
  | .checkColumns _ _ => Except String Unit
  | .checkIndex _ _ _ => Except String Unit

structure Server where
  managed : Managed
  tableLocks : TableKey → Option Nat

namespace Server

def engine (s : Server) : Engine := s.managed.engine
def setEngine (s : Server) (e : Engine) : Server := { s with managed := { s.managed with engine := e } }

def setLock (s : Server) (k : TableKey) (owner : Option Nat) : Server :=
  { s with tableLocks := fun k' => if k' = k then owner else s.tableLocks k' }

section
variable {V : Type} (R : RowOps V) [BEq V] (cat : TableKey → TableKeys)
def exec (i : Nat) (k : TableKey) (s : Server) : (c : DmlCmd V) → Option (c.Res × Server)
  | .storage c => (s.engine.exec i k c).map fun x => (x.1,s.setEngine x.2)
  | .getTableSchema k' => if k' = k then some ((s.engine.tables k).map fun _ => cat k,s) else none
  | .lockTables => if s.tableLocks k = none then some ((),s.setLock k (some i)) else none
  | .unlockTables => some ((),s.setLock k none)
  | .checkColumns rows excluded => (s.managed.selectRows R k).map fun existing =>
    (Dml.checkColumns R (cat k).schema (existing.map Prod.snd) excluded rows (cat k).columns,s)
  | .checkIndex idx row excluded =>
    (s.engine.tables k).map fun t => (Dml.checkIndex R t.info.indexes idx row excluded,s)

inductive Fault (k : TableKey) (s : Server) : (c : DmlCmd V) → c.Res → Server → Prop where
  | storage {c : Cmd} {r : c.Res} {e : Engine} : s.engine.Fault k c r e → Fault k s (.storage c) r (s.setEngine e)
  | checkColumns (rows : List (List V)) (excluded : List Int) (e : String) :
      Fault k s (.checkColumns rows excluded) (.error e) s

def Answers (i : Nat) (k : TableKey) (s : Server) (c : DmlCmd V) (r : c.Res) (s' : Server) : Prop :=
  s.exec R cat i k c = some (r,s') ∨ Fault k s c r s'
end
end Server

abbrev Call (V α : Type) := Stmt (DmlCmd V) DmlCmd.Res String α

namespace Call
variable {V α : Type}
def cmd (c : DmlCmd V) : Call V c.Res := Stmt.cmd c

def orThrow : Except String α → Call V α
  | .ok a => pure a
  | .error e => throw e

def ofProg : Prog Cmd Cmd.Res α → Prog (DmlCmd V) DmlCmd.Res α
  | .ret a => .ret a
  | .step c k => .step (.storage c) fun r => ofProg (k r)

def storage (x : Exec α) : Call V α := ExceptT.mk (ofProg x.run)

def mutateUnderTableLock (x : Call V α) : Call V α := do
  cmd .lockTables
  let a ← Stmt.onError x (cmd .unlockTables)
  cmd .unlockTables
  pure a

def toProg (x : Call V α) : Prog (DmlCmd V) DmlCmd.Res Unit := x.run >>= fun _ => pure ()

end Call

open Call
section
variable {V : Type} (R : RowOps V)
def enforceColumns (keys : TableKeys) (excluded : List Int) (rows : List (List V)) : Call V Unit :=
  if keys.columns.isEmpty then pure ()
  else do
    let r ← cmd (.checkColumns rows excluded)
    orThrow r

def enforceUnique (keys : TableKeys) (excluded : List Int) (rows : List (List V)) : Call V Unit := do
  enforceColumns keys excluded rows
  keys.indexes.forM fun idx => rows.forM fun row => do
    let r ← cmd (.checkIndex idx row excluded)
    orThrow r

def enforceUniqueConstraints (keys : TableKeys) (rows : List (List V)) : Call V Unit := enforceUnique keys [] rows

def enforceUniqueConstraintsOnUpdate (keys : TableKeys) (indices : List Int) (newValues : List (List V)) :
    Call V Unit := enforceUnique keys indices newValues

def getTableSchema (k : TableKey) : Call V TableKeys := do
  let keys ← cmd (.getTableSchema k)
  match keys with
  | none => throw ("table '"++k.table++"' does not exist")
  | some keys => pure keys

variable [BEq V]
def insertChecked (k : TableKey) (buildRows : TableSchema → Except String (List (List V))) : Call V Int := do
  let keys ← getTableSchema k
  let rows ← orThrow (buildRows (TableKeys.schema keys))
  enforceUniqueConstraints keys rows
  storage (insertRows R k rows)

def fastPathInsert (k : TableKey) (buildRows : TableSchema → Except String (List (List V))) : Call V Int :=
  insertChecked R k buildRows

def insertCommand (k : TableKey) (buildRows : TableSchema → Except String (List (List V))) : Call V Int :=
  mutateUnderTableLock (insertChecked R k buildRows)

def updateCommand (k : TableKey) (positions : Option (List Int)) (matchFn : Tuple → Except String Bool)
    (updateFn : List V → Except String (List V)) (validate : List Int → List (List V) → Except String Unit) :
    Call V Int :=
  mutateUnderTableLock do
    let keys ← getTableSchema k
    let (txID,info,vs) ← storage (stampPhaseVM R k positions matchFn updateFn)
    if List.isEmpty vs then pure 0
    else do
      let indices := vs.map fun v => v.old.rowIdx
      let newRows := vs.map NewVersion.newRow
      Stmt.onError (do
        orThrow (validate indices newRows)
        enforceUniqueConstraintsOnUpdate keys indices newRows) (storage (revertPhaseVM vs))
      storage (storePhaseVM R txID info vs)
end
end VaultDB.Dml
