import VaultDB.Storage.Engine
set_option autoImplicit false

/-!
The row statements of `page_engine_io.go` as programs over the engine's commands.

How a value is normalized, encoded and printed is a parameter.  A Go map that is walked is a list in
the order of the walk; an index out of range is an error, as is everything else that ends a
statement early.
-/

namespace VaultDB.Storage
open Lib

structure RowOps (V : Type) where
  null : V
  normalizeValue : V → ColumnSchema → Except String V
  encodeRow : List V → Except String (List UInt8)
  decodeRow : TableSchema → List UInt8 → Option (List V)
  deepEqual : V → V → Bool
  sprint : V → String
  toLower : String → String

abbrev Exec (α : Type) := Stmt Cmd Cmd.Res String α

namespace Exec

def cmd (c : Cmd) : Exec c.Res := Stmt.cmd c

def orThrow {α : Type} : Except String α → Exec α
  | .ok a => pure a
  | .error e => throw e

def unlockOnError {α : Type} (x : Exec α) : Exec α := Stmt.onError x (cmd .unlockTable)

end Exec

open Exec

def getTableForWrite (k : TableKey) : Exec Unit := do
  let found ← cmd .lockTable
  if found = true then pure () else throw ("table '"++k.table++"' does not exist")

def liveSlots (slots : List (PageSlot × Tuple)) : List PageSlot :=
  (slots.filter fun x => x.2.deletedTx = 0).map Prod.fst

def ensurePosDirectory : Exec (Option (List PageSlot)) := do
  let info ← cmd .getInfo
  match TableInfo.posDirectory info with
  | some dir => pure (some dir)
  | none => do
    let scan ← cmd .scanSlots
    match scan with
    | (slots,true) => do
      cmd (.setInfo fun info => { info with posDirectory := some (liveSlots slots) })
      pure (some (liveSlots slots))
    | (_,false) => pure none

def dirAt (dir : List PageSlot) (i : Int) : Option PageSlot := if 0 ≤ i then dir[i.toNat]? else none

section
variable {V : Type} (R : RowOps V)
def encodePageTuple (txID : Nat) (row : List V) : Except String Tuple :=
  (R.encodeRow row).map fun bytes => ⟨BitVec.ofNat 64 txID,0,bytes⟩

def normalizeRow (row : List V) : List ColumnSchema → Nat → Except String (List V)
  | [], _ => .ok []
  | col :: cols, i =>
    match R.normalizeValue (row[i]?.getD R.null) col with
    | .error e => .error ("column '"++col.name++"': "++e)
    | .ok v =>
      match normalizeRow row cols (i+1) with
      | .error e => .error e
      | .ok vs => .ok (v :: vs)

variable [BEq V]
def encodeRows (schema : TableSchema) (pkIdx : Option Nat) (pkIndex : Option Index) (txID : Nat) :
    List (List V) → List V → Except String (List Tuple)
  | [], _ => .ok []
  | row :: rows, seen =>
    match normalizeRow R row schema.columns 0 with
    | .error e => .error e
    | .ok normalized =>
      let pk := pkIdx.bind fun i => normalized[i]?
      let taken := pk.any fun v => (pkIndex.any fun idx => idx.lookup (R.sprint v)) || seen.contains v
      if taken then .error ("duplicate primary key value: "++R.sprint (pk.getD R.null))
      else
        match encodePageTuple R txID normalized with
        | .error e => .error e
        | .ok t =>
          match encodeRows schema pkIdx pkIndex txID rows (pk.toList++seen) with
          | .error e => .error e
          | .ok ts => .ok (t :: ts)

def existingPKs (schema : TableSchema) (pkIdx : Nat) : List (PageSlot × Tuple) → List V
  | [] => []
  | (_,t) :: slots =>
    match R.decodeRow schema t.data with
    | none => []
    | some row => (if t.xmax = 0 then row[pkIdx]?.toList else [])++existingPKs schema pkIdx slots

def updateIndexesOnInsert (rows : List (List V)) (startPos : Int) (idxs : List Index) : List Index :=
  idxs.map fun idx => rows.zipIdx.foldl (fun idx x =>
    match x.1[idx.colIndex]? with
    | some v => idx.insert (R.sprint v) (startPos+x.2)
    | none => idx) idx

def updateIndexesOnDelete (positions : List Int) (idxs : List Index) : List Index :=
  idxs.map fun idx => positions.foldl Index.delete idx

def updateIndexesOnUpdate (indices : List Int) (rows : List (List V)) (idxs : List Index) : List Index :=
  idxs.map fun idx => (indices.zip rows).foldl (fun idx x =>
    match x.2[idx.colIndex]? with
    | some v => idx.insert (R.sprint v) x.1
    | none => idx) idx
end

/-- Insert into a page that is locked and pinned, and log it; `none` when the page is full.
`onLogged` runs while the page is still held. -/
def insertLogged (txID : Nat) (onLogged : PageSlot → Exec Unit) (dirtyWhenFull : Bool) (pid : PageID)
    (t : Tuple) : Exec (Option PageSlot) := do
  let slot ← cmd (.insertTuple pid t)
  match slot with
  | some slot => do
    let lsn ← cmd (.logInsert txID ⟨pid,slot⟩ t)
    match lsn with
    | none => do
      cmd (.unpinPage pid false)
      cmd (.unlockPage pid)
      throw "wal insert"
    | some lsn => do
      onLogged ⟨pid,slot⟩
      cmd (.unpinPageDirty pid lsn)
      cmd (.unlockPage pid)
      pure (some ⟨pid,slot⟩)
  | none => do
    cmd (.unlockPage pid)
    cmd (.unpinPage pid dirtyWhenFull)
    pure none

def tooLarge (size : Nat) : String :=
  "tuple too large to fit on a page ("++toString size++" bytes > "++
    toString (pageSize-pageHeaderSize-itemPointerSize)++" usable)"

def placeFresh (txID : Nat) (onLogged : PageSlot → Exec Unit) (dirtyWhenFull : Bool) (t : Tuple) :
    Exec PageSlot := do
  let pid ← cmd .allocatePage
  match pid with
  | none => throw "allocate page"
  | some pid => do
    cmd (.lockPage pid)
    let loc ← insertLogged txID onLogged dirtyWhenFull pid t
    match loc with
    | some loc => pure loc
    | none => throw (tooLarge t.length)

def place (txID : Nat) (onLogged : PageSlot → Exec Unit) (dirtyWhenFull : Bool) (held : Option PageID)
    (t : Tuple) : Exec (PageSlot × Bool) :=
  match held with
  | none => do
    let loc ← placeFresh txID onLogged dirtyWhenFull t
    pure (loc,true)
  | some pid => do
    let loc ← insertLogged txID onLogged dirtyWhenFull pid t
    match loc with
    | some loc => pure (loc,false)
    | none => do
      let loc ← placeFresh txID onLogged dirtyWhenFull t
      pure (loc,true)

def holdLastPage (count : Nat) : Exec (Option PageID) :=
  if count = 0 then pure none
  else do
    cmd (.lockPage (pageIDAt (count-1)))
    let fetched ← cmd (.fetchPage (pageIDAt (count-1)))
    if fetched = true then pure (some (pageIDAt (count-1)))
    else do
      cmd (.unlockPage (pageIDAt (count-1)))
      throw "fetch page"

/-- The insert loop of `insertRowsInternal`: every tuple goes to the last page. -/
def insertTuples (txID : Nat) : List Tuple → Nat → Exec Unit
  | [], _ => pure ()
  | t :: ts, count => do
    let held ← holdLastPage count
    let placed ← place txID (fun loc => cmd (.setInfo fun info =>
      { info with posDirectory := info.posDirectory.map (·++[loc]) })) false held t
    insertTuples txID ts (if placed.2 = true then count+1 else count)

/-- The loop of `appendTuplesLocked`: only the first tuple is tried on the last page. -/
def appendTuples (txID : Nat) : Option PageID → List Tuple → Exec (List PageSlot)
  | none, [] => pure []
  | some pid, [] => do
    cmd (.unlockPage pid)
    cmd (.unpinPage pid true)
    pure []
  | held, t :: ts => do
    let placed ← place txID (fun _ => pure ()) true held t
    let rest ← appendTuples txID none ts
    pure (placed.1 :: rest)

theorem appendTuples_cons (txID : Nat) (held : Option PageID) (t : Tuple) (ts : List Tuple) :
    appendTuples txID held (t :: ts) = (do
      let placed ← place txID (fun _ => pure ()) true held t
      let rest ← appendTuples txID none ts
      pure (placed.1 :: rest)) := by
  cases held <;> rfl

def appendTuplesLocked (txID : Nat) (ts : List Tuple) : Exec (List PageSlot) := do
  let total ← cmd .pageCount
  match total with
  | none => throw "page count"
  | some total => do
    let held ← holdLastPage total
    appendTuples txID held ts

section
variable {V : Type} (R : RowOps V)
def changedColumns (cols : List ColumnSchema) (oldRow newRow : List V) : List String :=
  ((cols.zip (oldRow.zip newRow)).filter fun x => !R.deepEqual x.2.1 x.2.2).map fun x => R.toLower x.1.name

def indexedColumnUpdated (info : TableInfo) (oldRow newRow : List V) : Bool :=
  info.indexes.any fun idx => (idx.column :: idx.columns).any fun c =>
    (changedColumns R info.schema.columns oldRow newRow).contains (R.toLower c)

/-- `tryHOTInsert` with its page locked.  The append error is dropped; a tuple that is refused after
the flag was set keeps the flag. -/
def hotInsertOnPage (txID : Nat) (loc : PageSlot) (encoded : Tuple) : Exec (Option PageSlot × Tuple) := do
  let fetched ← cmd (.fetchPage loc.pid)
  if fetched = true then do
    let free ← cmd (.freeSpace loc.pid)
    if Nat.blt free ((encoded.length%65536+itemPointerSize)%65536) then do
      cmd (.unpinPage loc.pid false)
      pure (none,encoded)
    else do
      let slot ← cmd (.insertTuple loc.pid encoded.setHOTHeapTuple)
      match slot with
      | none => do
        cmd (.unpinPage loc.pid false)
        pure (none,encoded.setHOTHeapTuple)
      | some slot => do
        cmd (.setHOTUpdated loc slot)
        let lsn ← cmd (.logInsert txID ⟨loc.pid,slot⟩ encoded.setHOTHeapTuple)
        cmd (.unpinPageDirty loc.pid (Option.getD lsn 0))
        pure (some ⟨loc.pid,slot⟩,encoded.setHOTHeapTuple)
  else pure (none,encoded)

def tryHOTInsert (txID : Nat) (info : TableInfo) (loc : PageSlot) (oldRow newRow : List V)
    (encoded : Tuple) : Exec (Option PageSlot × Tuple) :=
  if indexedColumnUpdated R info oldRow newRow then pure (none,encoded)
  else do
    cmd (.lockPage loc.pid)
    let placed ← hotInsertOnPage txID loc encoded
    cmd (.unlockPage loc.pid)
    pure placed

structure Located (V : Type) where
  loc : PageSlot
  rowIdx : Int
  row : List V

structure NewVersion (V : Type) where
  old : Located V
  newRow : List V
  encoded : Tuple

def tryHOTInserts (txID : Nat) (info : TableInfo) : List (NewVersion V) → Exec (List (Option PageSlot × Tuple))
  | [] => pure []
  | v :: vs => do
    let placed ← tryHOTInsert R txID info v.old.loc v.old.row v.newRow v.encoded
    let rest ← tryHOTInserts txID info vs
    pure (placed :: rest)

/-- `newSlots`: the HOT slots, the gaps filled with the appended ones in order. -/
def fillSlots : List (Option PageSlot × Tuple) → List PageSlot → List PageSlot
  | [], _ => []
  | (some loc,_) :: ps, app => loc :: fillSlots ps app
  | (none,_) :: ps, [] => ⟨⟨0,0⟩,0⟩ :: fillSlots ps []
  | (none,_) :: ps, loc :: app => loc :: fillSlots ps app

def storeVersions (txID : Nat) (info : TableInfo) (vs : List (NewVersion V)) : Exec (List (Bool × PageSlot)) := do
  let placed ← tryHOTInserts R txID info vs
  let nonHot := (placed.filter fun p => p.1.isNone).map Prod.snd
  match nonHot with
  | [] => pure (placed.map fun p => (true,p.1.getD ⟨⟨0,0⟩,0⟩))
  | t :: ts => do
    let app ← appendTuplesLocked txID (t :: ts)
    pure ((placed.map fun p => p.1.isSome).zip (fillSlots placed app))

def setPositions (indices : List Int) (newSlots : List PageSlot) (dir : List PageSlot) : List PageSlot :=
  (indices.zip newSlots).foldl (fun dir x => if 0 ≤ x.1 then dir.set x.1.toNat x.2 else dir) dir

def putPositions (indices : List Int) (newSlots : List PageSlot) : Exec Unit :=
  cmd (.setInfo fun info => { info with posDirectory := info.posDirectory.map (setPositions indices newSlots) })

def nonHotIndices (indices : List Int) (hot : List Int) : List Int := indices.filter fun i => !hot.contains i

def logDeletes (txID : Nat) (locs : List PageSlot) : Exec Unit :=
  locs.forM fun loc => do
    let lsn ← cmd (.logDelete txID loc)
    match lsn with
    | none => throw "wal delete"
    | some _ => pure ()

def stamp (txID : Nat) (loc : PageSlot) : Exec Unit := do
  let fetched ← cmd (.putXMax loc txID)
  if fetched = true then pure () else throw "fetch page"

/-- Counters, catalog and commit record, after the table lock is gone; returns the row count
the catalog gets. -/
def finish (txID : Nat) (count : Int → Int) : Exec Int := do
  cmd (.setInfo fun info => { info with lastTxID := txID, rowCount := count info.rowCount })
  let info ← cmd .getInfo
  cmd (.syncCatalog txID)
  let lsn ← cmd (.logCommit txID)
  match lsn with
  | none => throw "wal commit"
  | some _ => pure (TableInfo.rowCount info)

def insertRowsInternal [BEq V] (k : TableKey) (txID : Nat) (rows : List (List V)) : Exec Int := do
  getTableForWrite k
  unlockOnError do
    let info ← cmd .getInfo
    let schema := TableInfo.schema info
    let pkIdx := schema.columns.findIdx? (·.primaryKey)
    let pkIndex := (pkIdx.bind fun i => schema.columns[i]?).bind fun col =>
      (TableInfo.indexes info).find? fun idx => R.toLower idx.column == R.toLower col.name
    let scan ← (if pkIdx.isSome && pkIndex.isNone then cmd .scanSlots else pure ([],true) :
      Exec (List (PageSlot × Tuple) × Bool))
    let seen := (pkIdx.map fun i => existingPKs R schema i scan.1).getD []
    let tuples ← orThrow (encodeRows R schema pkIdx pkIndex txID rows seen)
    let count ← cmd .pageCount
    match count with
    | none => throw "page count"
    | some count => insertTuples txID tuples count
  cmd .unlockTable
  let rowCount ← finish txID (·+rows.length)
  cmd (.setInfo fun info => { info with
    indexes := updateIndexesOnInsert R rows (rowCount-rows.length) info.indexes })
  pure rows.length

def insertRows [BEq V] (k : TableKey) (rows : List (List V)) : Exec Int := do
  let txID ← cmd .nextTxID
  insertRowsInternal R k txID rows

def locateScan (decode : Tuple → Option (List V)) : List (PageSlot × Tuple) → Int → List Int → List (Located V)
  | [], _, _ => []
  | (loc,t) :: slots, pos, wanted =>
    if t.deletedTx ≠ 0 then locateScan decode slots pos wanted
    else if wanted.contains pos then
      match decode t with
      | none => []
      | some row =>
        ⟨loc,pos,row⟩ :: (if (wanted.filter (· != pos)).isEmpty then []
          else locateScan decode slots (pos+1) (wanted.filter (· != pos)))
    else if wanted.isEmpty then []
    else locateScan decode slots (pos+1) wanted

def readLocated (schema : TableSchema) : List (Int × PageSlot) → Exec (List (Located V))
  | [] => pure []
  | (i,loc) :: entries => do
    let t ← cmd (.getTuple loc)
    let rest ← readLocated schema entries
    match (Option.join t).bind fun t => R.decodeRow schema t.data with
    | some row => pure (⟨loc,i,row⟩ :: rest)
    | none => pure rest

/-- Rows by position, from the directory if it has every position, else from a scan; if it cannot be
built nothing is found. -/
def locateRows (info : TableInfo) (indices : List Int) : Exec (List (Located V)) := do
  let dir ← ensurePosDirectory
  match dir with
  | none => pure []
  | some dir =>
    if indices.all fun i => (dirAt dir i).isSome then
      readLocated R info.schema (indices.filterMap fun i => (dirAt dir i).map fun loc => (i,loc))
    else do
      let scan ← cmd .scanSlots
      pure (locateScan (fun t => R.decodeRow info.schema t.data) (Prod.fst scan) 0 indices)

def applyUpdates (cols : List ColumnSchema) : List (String × V) → List V → Except String (List V)
  | [], row => .ok row
  | (name,val) :: updates, row =>
    match ((cols.zipIdx.filter fun c => R.toLower c.1.name == R.toLower name).getLast?) with
    | none => .error ("column '"++name++"' does not exist")
    | some (col,idx) =>
      match R.normalizeValue val col with
      | .error e => .error ("column '"++name++"': "++e)
      | .ok v =>
        if idx < row.length then applyUpdates cols updates (row.set idx v)
        else .error "index out of range"

/-- The second loop of `mutateRows`: stamp the old version, then build the new one. -/
def stampAndUpdate (txID : Nat) (newRow : Located V → Except String (List V)) : List (Located V) →
    Exec (List (NewVersion V))
  | [] => pure []
  | l :: ls => do
    stamp txID l.loc
    let row ← orThrow (newRow l)
    let t ← orThrow (encodePageTuple R txID row)
    let rest ← stampAndUpdate txID newRow ls
    pure (⟨l,row,t⟩ :: rest)

/-- Write the new versions.  A row is HOT when its key in `hotKeys` is; unless `guarded`, a row for
the indexes that does not exist is an error. -/
def replaceVersions (txID : Nat) (info : TableInfo) (indices hotKeys : List Int) (vs : List (NewVersion V))
    (guarded : Bool) (newIndexes : List Int → List (List V) → Int → List Index → List Index) :
    Exec Unit := do
  let placed ← storeVersions R txID info vs
  putPositions indices (placed.map Prod.snd)
  let hot := ((hotKeys.zip placed).filter fun x => x.2.1).map Prod.fst
  let rows := ((indices.zip (vs.map NewVersion.newRow)).filter fun x => !hot.contains x.1).map Prod.snd
  if !guarded && !(nonHotIndices (indices.drop vs.length) hot).isEmpty then throw "index out of range"
  else if vs.isEmpty || (nonHotIndices indices hot).isEmpty then pure ()
  else cmd (.setInfo fun info => { info with
    indexes := newIndexes (nonHotIndices indices hot) rows (info.rowCount-vs.length)
      (updateIndexesOnDelete (nonHotIndices indices hot) info.indexes) })

def mutateRows (k : TableKey) (indices : List Int) (updates : Option (List (String × V))) : Exec Int := do
  let txID ← cmd .nextTxID
  getTableForWrite k
  let affected ← unlockOnError do
    let info ← cmd .getInfo
    let located ← locateRows R info indices
    logDeletes txID (located.map Located.loc)
    match updates with
    | none => do
      (located.map Located.loc).forM (stamp txID)
      if located.isEmpty || indices.isEmpty then pure ()
      else cmd (.setInfo fun info => { info with indexes := updateIndexesOnDelete indices info.indexes })
      pure (located.length : Int)
    | some updates => do
      let vs ← stampAndUpdate R txID
        (fun l => applyUpdates R (TableInfo.schema info).columns updates l.row) located
      replaceVersions R txID info indices indices vs true fun _ rows start idxs =>
        updateIndexesOnInsert R rows start idxs
      pure (located.length : Int)
  cmd .unlockTable
  let _ ← finish txID (if updates.isNone then fun n => max (n-affected) 0 else id)
  pure affected

def updateRows (k : TableKey) (indices : List Int) (updates : List (String × V)) : Exec Int :=
  mutateRows R k indices (some updates)

def deleteRows (k : TableKey) (indices : List Int) : Exec Int := mutateRows R k indices none

/-- `UpdateRowsDirect` takes the rows from the directory without looking at them, and reads
the old values when it stamps. -/
def locateDirect (indices : List Int) : Exec (List (Located V)) := do
  let dir ← ensurePosDirectory
  match dir with
  | none => pure []
  | some dir =>
    if indices.all fun i => (dirAt dir i).isSome then
      pure (indices.filterMap fun i => (dirAt dir i).map fun loc => ⟨loc,i,[]⟩)
    else do
      let scan ← cmd .scanSlots
      if Prod.snd scan = true then
        pure (locateScan (fun _ => some []) (Prod.fst scan) 0 indices)
      else throw "scan"

def stampDirect (txID : Nat) (schema : TableSchema) (newByIndex : Int → Option (List V)) :
    List (Located V) → Exec (List (Located V) × List (List V × Tuple))
  | [] => pure ([],[])
  | l :: ls => do
    let old ← cmd (.getTuple l.loc)
    match old with
    | none => throw "fetch page"
    | some old => do
      stamp txID l.loc
      let new ← (match newByIndex l.rowIdx with
        | none => pure []
        | some nv => do
          let t ← orThrow (encodePageTuple R txID nv)
          pure [(nv,t)] : Exec (List (List V × Tuple)))
      let rest ← stampDirect txID schema newByIndex ls
      pure ({ l with row := (old.bind fun t => R.decodeRow schema t.data).getD [] } :: rest.1,new++rest.2)

def pairVersions : List (Located V) → List (List V × Tuple) → List (NewVersion V)
  | l :: ls, (nv,t) :: nvs => ⟨l,nv,t⟩ :: pairVersions ls nvs
  | _, _ => []

def updateRowsDirect (k : TableKey) (indices : List Int) (newValues : List (List V)) : Exec Int := do
  let txID ← cmd .nextTxID
  getTableForWrite k
  let affected ← unlockOnError do
    let info ← cmd .getInfo
    let located ← locateDirect indices
    logDeletes txID (located.map Located.loc)
    let stamped ← stampDirect R txID (TableInfo.schema info)
      (fun i => ((indices.zip newValues).reverse.find? (·.1 == i)).map Prod.snd) located
    let vs := pairVersions stamped.1 stamped.2
    if stamped.2.length < located.length then do
      -- the rows that have a new value are tried first, then the index runs past the end
      let _ ← tryHOTInserts R txID info vs
      throw "index out of range"
    else do
      replaceVersions R txID info indices (located.map Located.rowIdx) vs false fun _ rows start idxs =>
        updateIndexesOnInsert R rows start idxs
      pure (located.length : Int)
  cmd .unlockTable
  let _ ← finish txID id
  pure affected

/-- The test of `UpdateRowsVM` and `DeleteRowsVM` while no open transaction has the statement's id
as its own, so that `GetSnapshot` finds nothing. -/
def visibleVM (c : Clock) (t : Tuple) : Bool :=
  (t.xmin == c.txCounter || (t.xmin ≤ c.txCounter && c.isCommitted t.xmin)) &&
    (t.deletedTx == 0 || c.txCounter < t.deletedTx)

def matchRows (schema : TableSchema) (clock : Clock) (matchFn : Tuple → Except String Bool) :
    List (Int × PageSlot) → Exec (List (Located V))
  | [] => pure []
  | (i,loc) :: entries => do
    let t ← cmd (.getTuple loc)
    match t with
    | none => throw "fetch page"
    | some none => matchRows schema clock matchFn entries
    | some (some t) =>
      if visibleVM clock t then do
        let ok ← orThrow (matchFn t)
        let rest ← matchRows schema clock matchFn entries
        match if ok then R.decodeRow schema t.data else none with
        | some row => pure (⟨loc,i,row⟩ :: rest)
        | none => pure rest
      else matchRows schema clock matchFn entries

def dirEntries (positions : Option (List Int)) (dir : List PageSlot) : List (Int × PageSlot) :=
  match positions with
  | some ps => ps.filterMap fun i => (dirAt dir i).map fun loc => (i,loc)
  | none => dir.zipIdx.map fun x => (x.2,x.1)

def locateVM (schema : TableSchema) (positions : Option (List Int)) (matchFn : Tuple → Except String Bool) :
    Exec (List (Located V)) := do
  let dir ← ensurePosDirectory
  match dir with
  | none => throw "scan"
  | some dir => do
    let clock ← cmd .txClock
    matchRows R schema clock matchFn (dirEntries positions dir)

def newVersionsVM (txID : Nat) (updateFn : List V → Except String (List V)) :
    List (Located V) → Except String (List (NewVersion V))
  | [] => .ok []
  | l :: ls =>
    match updateFn l.row with
    | .error e => .error e
    | .ok row =>
      match encodePageTuple R txID row with
      | .error e => .error e
      | .ok t =>
        match newVersionsVM txID updateFn ls with
        | .error e => .error e
        | .ok vs => .ok (⟨l,row,t⟩ :: vs)

/-- Undo the stamps after a failed validation; a page that cannot be fetched keeps its stamp. -/
def revertStamps (locs : List PageSlot) : Exec Unit :=
  locs.forM fun loc => do
    let _ ← cmd (.clearXMax loc)
    pure ()

def stampVM (txID : Nat) (positions : Option (List Int)) (matchFn : Tuple → Except String Bool)
    (updateFn : List V → Except String (List V)) : Exec (TableInfo × List (NewVersion V)) := do
  let info ← cmd .getInfo
  let located ← locateVM R (TableInfo.schema info) positions matchFn
  logDeletes txID (located.map Located.loc)
  let vs ← orThrow (newVersionsVM R txID updateFn located)
  (located.map Located.loc).forM (stamp txID)
  pure (info,vs)

def updateRowsVM (k : TableKey) (positions : Option (List Int)) (matchFn : Tuple → Except String Bool)
    (updateFn : List V → Except String (List V))
    (validateFn : List Int → List (List V) → Except String Unit) : Exec Int := do
  let txID ← cmd .nextTxID
  getTableForWrite k
  let stamped ← unlockOnError (stampVM R txID positions matchFn updateFn)
  cmd .unlockTable
  match Prod.snd stamped with
  | [] => pure 0
  | v :: vs => do
    let indices := (v :: vs).map fun v => v.old.rowIdx
    match validateFn indices ((v :: vs).map NewVersion.newRow) with
    | .error e => do
      cmd .relockTable
      revertStamps ((v :: vs).map fun v => v.old.loc)
      cmd .unlockTable
      throw e
    | .ok _ => do
      cmd .relockTable
      unlockOnError (replaceVersions R txID (Prod.fst stamped) indices indices (v :: vs) false
        fun idx rows _ idxs => updateIndexesOnUpdate R idx rows idxs)
      cmd .unlockTable
      let _ ← finish txID id
      pure ((v :: vs).length : Int)

/-- `UpdateRowsVM` up to the point where it lets go of the table: its id, the table's state as it
found it, and the new versions. -/
def stampPhaseVM (k : TableKey) (positions : Option (List Int)) (matchFn : Tuple → Except String Bool)
    (updateFn : List V → Except String (List V)) : Exec (Nat × TableInfo × List (NewVersion V)) := do
  let txID ← cmd .nextTxID
  getTableForWrite k
  let stamped ← unlockOnError (stampVM R txID positions matchFn updateFn)
  cmd .unlockTable
  pure (txID,stamped)

def revertPhaseVM (vs : List (NewVersion V)) : Exec Unit := do
  cmd .relockTable
  revertStamps (vs.map fun v => v.old.loc)
  cmd .unlockTable

def storePhaseVM (txID : Nat) (info : TableInfo) (vs : List (NewVersion V)) : Exec Int := do
  let indices := vs.map fun v => v.old.rowIdx
  cmd .relockTable
  unlockOnError (replaceVersions R txID info indices indices vs false
    fun idx rows _ idxs => updateIndexesOnUpdate R idx rows idxs)
  cmd .unlockTable
  let _ ← finish txID id
  pure (vs.length : Int)

theorem updateRowsVM_eq (k : TableKey) (positions : Option (List Int)) (matchFn : Tuple → Except String Bool)
    (updateFn : List V → Except String (List V)) (validateFn : List Int → List (List V) → Except String Unit) :
    updateRowsVM R k positions matchFn updateFn validateFn = (do
      let (txID,info,vs) ← stampPhaseVM R k positions matchFn updateFn
      if vs.isEmpty then pure 0
      else match validateFn (vs.map fun v => v.old.rowIdx) (vs.map NewVersion.newRow) with
        | .error e => do
          revertPhaseVM vs
          throw e
        | .ok _ => storePhaseVM R txID info vs) := by
  simp only [updateRowsVM,stampPhaseVM,bind_assoc,pure_bind]
  congr 1; funext txID
  congr 1; funext _
  congr 1; funext stamped
  congr 1; funext _
  cases stamped.2 with
  | nil => rfl
  | cons v vs =>
    dsimp only
    cases validateFn ((v :: vs).map fun v => v.old.rowIdx) ((v :: vs).map NewVersion.newRow) with
    | error e => simp [revertPhaseVM,bind_assoc]
    | ok _ => rfl

def removePositions (indices : List Int) (dir : List PageSlot) : List PageSlot :=
  (dir.zipIdx.filter fun x => !indices.contains (x.2 : Int)).map Prod.fst

def dropPositions (indices : List Int) (info : TableInfo) : TableInfo :=
  match info.posDirectory with
  | none => info
  | some dir => { info with
      posDirectory := if (removePositions indices dir).isEmpty then none else some (removePositions indices dir)
      rowCount := info.rowCount-indices.length }

def deleteRowsVM (k : TableKey) (positions : Option (List Int)) (predicate : Tuple → Except String Bool)
    (preDelete : List Int → List (List V) → Except String Unit) : Exec Int := do
  let txID ← cmd .nextTxID
  getTableForWrite k
  let located ← unlockOnError do
    let info ← cmd .getInfo
    let located ← locateVM R (TableInfo.schema info) positions predicate
    logDeletes txID (located.map Located.loc)
    if located.isEmpty then pure []
    else do
      orThrow (preDelete (located.map Located.rowIdx) (located.map Located.row))
      (located.map Located.loc).forM (stamp txID)
      cmd (.setInfo (dropPositions (located.map Located.rowIdx)))
      cmd (.setInfo fun info => { info with
        indexes := updateIndexesOnDelete (located.map Located.rowIdx) info.indexes })
      pure located
  cmd .unlockTable
  if located.isEmpty then pure 0
  else do
    let _ ← finish txID id
    pure (located.length : Int)
end
end VaultDB.Storage
