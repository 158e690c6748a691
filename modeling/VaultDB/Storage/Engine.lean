import VaultDB.Lib.Prog
import VaultDB.Wal.Log
set_option autoImplicit false

/-!
The running page engine: tables with their cached pages, the log, the locks and the counters, and
the commands the row statements are made of.

A command is what a statement does between two points where another thread can see it.  Frames are
kept per table (the pool keys them by a 32-bit hash of the path, taken to be unique) with the
threads that pinned them.  Capacity and clock hand are left out: any unpinned frame may be evicted
at any time, and fetching or caching a page may fail.
-/

namespace VaultDB.Storage
open Wal

structure Frame where
  page : Page
  dirty : Bool
  lastModifiedLSN : Nat
  pins : List Nat
  deriving DecidableEq, Repr

structure Index where
  column : String
  colIndex : Nat
  columns : List String
  data : List (String × Int)
  reverse : List (Int × String)
  deriving DecidableEq, Repr

namespace Index

def lookup (idx : Index) (value : String) : Bool := idx.data.any (·.1 == value)

def insert (idx : Index) (value : String) (pos : Int) : Index :=
  { idx with
    data := idx.data++[(value,pos)]
    reverse := (pos,value) :: idx.reverse.filter (·.1 != pos) }

def delete (idx : Index) (pos : Int) : Index :=
  match idx.reverse.find? (·.1 == pos) with
  | none => idx
  | some (_,value) => { idx with data := idx.data.erase (value,pos), reverse := idx.reverse.filter (·.1 != pos) }

end Index

/-- The fields of `pageTable` that only live in memory; a position directory that is not
valid or nil is `none`. -/
structure TableInfo where
  schema : TableSchema
  posDirectory : Option (List PageSlot)
  rowCount : Int
  lastTxID : Nat
  indexes : List Index
  deriving DecidableEq, Repr

structure Table where
  dir : TableDir
  tableID : Nat
  frames : PageID → Option Frame
  info : TableInfo
  lockedBy : Option Nat

inductive CheckpointPhase where
  | idle
  | walFlushed (lsn : Nat)
  | pagesFlushed
  | recordWritten
  | catalogSaved
  deriving DecidableEq, Repr

structure Engine where
  tables : TableKey → Option Table
  wal : List Entry
  synced : Nat
  walNextTxID : Nat
  pageLocks : Nat → Option Nat
  clock : Clock
  catalogTx : Nat
  savedTx : Nat
  catalogMutationCount : Nat
  checkpoint : CheckpointPhase

def numPageLocks : Nat := 4096
def catalogAutoSaveInterval : Nat := 100

namespace Table

def setFrame (t : Table) (pid : PageID) (f : Option Frame) : Table :=
  { t with frames := fun pid' => if pid' = pid then f else t.frames pid' }

def setHeap (t : Table) (h : HeapFile) : Table := { t with dir := { t.dir with heap := h } }

def page (t : Table) (pid : PageID) : Option Page :=
  match t.frames pid with
  | some f => some f.page
  | none => t.dir.heap.readPage pid

def pageSlots (pid : PageID) (p : Page) : List (PageSlot × Tuple) :=
  (List.range p.nItems).filterMap fun slot => (p.getTuple slot).map fun t => (⟨pid,slot⟩,t)

def scanPages (t : Table) : List PageID → List (PageSlot × Tuple) × Bool
  | [] => ([],true)
  | pid :: pids =>
    match t.page pid with
    | none => ([],false)
    | some p => (pageSlots pid p++(t.scanPages pids).1,(t.scanPages pids).2)

def pageIDs (t : Table) : Option (List PageID) := t.dir.heap.pageCount.map fun n => (List.range n).map pageIDAt

def scanSlots (t : Table) : List (PageSlot × Tuple) × Bool :=
  match t.pageIDs with
  | none => ([],false)
  | some pids => t.scanPages pids

def stripe (t : Table) (pid : PageID) : Nat :=
  (t.tableID*16777619%2^32 ^^^ pid.segmentNo*1140071481%2^32 ^^^ pid.pageNo*2654435761%2^32)%numPageLocks

end Table

namespace Engine

def setTable (s : Engine) (k : TableKey) (t : Table) : Engine :=
  { s with tables := fun k' => if k' = k then some t else s.tables k' }

def setPageLock (s : Engine) (stripe : Nat) (owner : Option Nat) : Engine :=
  { s with pageLocks := fun n => if n = stripe then owner else s.pageLocks n }

def appendWithTx (s : Engine) (txID : Nat) (op : Op) : Engine :=
  { s with wal := s.wal++[⟨txID,op⟩], walNextTxID := max s.walNextTxID (txID+1) }

def nextTxID (s : Engine) : Engine :=
  { s with clock := ⟨s.clock.txCounter+1,max s.clock.mgrCounter (s.clock.txCounter+2)⟩ }

/-- The catalog part of a statement's end: `CurrentTxID` is set, and every hundredth change
saves the catalog. -/
def syncCatalog (s : Engine) (txID : Nat) : Engine :=
  if s.catalogMutationCount+1 < catalogAutoSaveInterval then
    { s with catalogTx := txID, catalogMutationCount := s.catalogMutationCount+1 }
  else { s with catalogTx := txID, savedTx := txID, catalogMutationCount := 0 }

def disk (s : Engine) : Disk where
  dir k := (s.tables k).map Table.dir
  vacuumDir _ := none
  rewriteDir _ := none
  catalogTx := s.savedTx

end Engine

/-- What a row statement asks of the engine.  Every command is about the statement's own
table. -/
inductive Cmd where
  | nextTxID
  | txClock
  | lockTable
  | relockTable
  | unlockTable
  | getInfo
  | setInfo (f : TableInfo → TableInfo)
  | scanSlots
  | pageCount
  | getTuple (loc : PageSlot)
  | lockPage (pid : PageID)
  | unlockPage (pid : PageID)
  | fetchPage (pid : PageID)
  | freeSpace (pid : PageID)
  | allocatePage
  | insertTuple (pid : PageID) (t : Tuple)
  | setHOTUpdated (loc : PageSlot) (forwardSlot : Nat)
  | unpinPage (pid : PageID) (dirty : Bool)
  | unpinPageDirty (pid : PageID) (lsn : Nat)
  | putXMax (loc : PageSlot) (xmax : Nat)
  | clearXMax (loc : PageSlot)
  | logInsert (txID : Nat) (loc : PageSlot) (data : Tuple)
  | logDelete (txID : Nat) (loc : PageSlot)
  | logCommit (txID : Nat)
  | syncCatalog (txID : Nat)

/-- `none` and `false` are the error results. -/
abbrev Cmd.Res : Cmd → Type
  | .nextTxID => Nat
  | .txClock => Clock
  | .lockTable => Bool
  | .getInfo => TableInfo
  | .scanSlots => List (PageSlot × Tuple) × Bool
  | .pageCount => Option Nat
  | .getTuple _ => Option (Option Tuple)
  | .fetchPage _ => Bool
  | .freeSpace _ => Nat
  | .allocatePage => Option PageID
  | .insertTuple _ _ => Option Nat
  | .putXMax _ _ => Bool
  | .clearXMax _ => Bool
  | .logInsert _ _ _ => Option Nat
  | .logDelete _ _ => Option Nat
  | .logCommit _ => Option Nat
  | _ => Unit

namespace Table

def fetchPage (t : Table) (i : Nat) (pid : PageID) : Option Table :=
  match t.frames pid with
  | some f => some (t.setFrame pid (some { f with pins := i :: f.pins }))
  | none => (t.dir.heap.readPage pid).map fun p => t.setFrame pid (some ⟨p,false,0,[i]⟩)

def allocatePage (t : Table) (i : Nat) : Option (Table × PageID) :=
  t.dir.heap.allocatePage.map fun (h,pid) =>
    (match t.frames pid with
      | some _ => t.setHeap h
      | none => (t.setHeap h).setFrame pid (some ⟨Page.init,true,0,[i]⟩),pid)

/-- `InsertTuple` on the page a thread holds.  A fresh page the pool had no room for is the thread's
own copy. -/
def insertTuple (t : Table) (pid : PageID) (tup : Tuple) : Table × Option Nat :=
  match t.frames pid with
  | none => (t,(Page.init.insertTuple tup).map Prod.snd)
  | some f =>
    match f.page.insertTuple tup with
    | some (p,slot) => (t.setFrame pid (some { f with page := p }),some slot)
    | none => (t,none)

def modifyFrame (t : Table) (pid : PageID) (f : Frame → Frame) : Table := t.setFrame pid ((t.frames pid).map f)

def setHOTUpdated (t : Table) (loc : PageSlot) (forwardSlot : Nat) : Table :=
  t.modifyFrame loc.pid fun f => { f with page := f.page.modifyTuple loc.slot (·.setHOTUpdated forwardSlot) }

def unpinPage (t : Table) (i : Nat) (pid : PageID) (dirty : Bool) : Table :=
  t.modifyFrame pid fun f => { f with pins := f.pins.erase i, dirty := f.dirty || dirty }

def unpinPageDirty (t : Table) (i : Nat) (pid : PageID) (lsn : Nat) : Table :=
  t.modifyFrame pid fun f => { f with pins := f.pins.erase i, dirty := true, lastModifiedLSN := lsn }

def putXMax (t : Table) (loc : PageSlot) (xmax : Nat) : Option Table :=
  match t.frames loc.pid with
  | some f => some (t.setFrame loc.pid
      (some ⟨f.page.modifyTuple loc.slot (·.setXMax xmax),true,0,f.pins⟩))
  | none => (t.dir.heap.readPage loc.pid).map fun p => t.setFrame loc.pid
      (some ⟨p.modifyTuple loc.slot (·.setXMax xmax),true,0,[]⟩)

end Table

namespace Engine

/-- The answer to a command of thread `i` on table `k` when nothing fails; `none` while the
thread has to wait. -/
def exec (i : Nat) (k : TableKey) (s : Engine) : (c : Cmd) → Option (c.Res × Engine)
  | .nextTxID => some (s.nextTxID.clock.txCounter,s.nextTxID)
  | .txClock => some (s.clock,s)
  | .lockTable =>
    match s.tables k with
    | none => some (false,s)
    | some t => if t.lockedBy = none then some (true,s.setTable k { t with lockedBy := some i }) else none
  | .relockTable => (s.tables k).bind fun t =>
    if t.lockedBy = none then some ((),s.setTable k { t with lockedBy := some i }) else none
  | .unlockTable => (s.tables k).map fun t => ((),s.setTable k { t with lockedBy := none })
  | .getInfo => (s.tables k).map fun t => (t.info,s)
  | .setInfo f => (s.tables k).map fun t => ((),s.setTable k { t with info := f t.info })
  | .scanSlots => (s.tables k).map fun t => (t.scanSlots,s)
  | .pageCount => (s.tables k).map fun t => (t.dir.heap.pageCount,s)
  | .getTuple loc => (s.tables k).map fun t => ((t.page loc.pid).map fun p => p.getTuple loc.slot,s)
  | .lockPage pid => (s.tables k).bind fun t =>
    if s.pageLocks (t.stripe pid) = none then some ((),s.setPageLock (t.stripe pid) (some i)) else none
  | .unlockPage pid => (s.tables k).map fun t => ((),s.setPageLock (t.stripe pid) none)
  | .fetchPage pid => (s.tables k).map fun t =>
    match t.fetchPage i pid with
    | some t' => (true,s.setTable k t')
    | none => (false,s)
  | .freeSpace pid => (s.tables k).map fun t => (((t.page pid).getD Page.init).freeSpace,s)
  | .allocatePage => (s.tables k).map fun t =>
    match t.allocatePage i with
    | some (t',pid) => (some pid,s.setTable k t')
    | none => (none,s)
  | .insertTuple pid tup =>
    (s.tables k).map fun t => ((t.insertTuple pid tup).2,s.setTable k (t.insertTuple pid tup).1)
  | .setHOTUpdated loc n => (s.tables k).map fun t => ((),s.setTable k (t.setHOTUpdated loc n))
  | .unpinPage pid dirty => (s.tables k).map fun t => ((),s.setTable k (t.unpinPage i pid dirty))
  | .unpinPageDirty pid lsn => (s.tables k).map fun t => ((),s.setTable k (t.unpinPageDirty i pid lsn))
  | .putXMax loc x => (s.tables k).map fun t =>
    match t.putXMax loc x with
    | some t' => (true,s.setTable k t')
    | none => (false,s)
  | .clearXMax loc => (s.tables k).map fun t =>
    match t.putXMax loc 0 with
    | some t' => (true,s.setTable k t')
    | none => (false,s)
  | .logInsert txID loc data => some (some txID,s.appendWithTx txID (.pageInsert k loc txID data))
  | .logDelete txID loc => some (some txID,s.appendWithTx txID (.pageDelete k loc txID))
  | .logCommit txID => some (some txID,s.appendWithTx txID .commit)
  | .syncCatalog txID => some ((),s.syncCatalog txID)

/-- What a failing disk, log or buffer pool can answer instead.  An append can fail before
or after its record is in the file. -/
inductive Fault (k : TableKey) (s : Engine) : (c : Cmd) → c.Res → Engine → Prop where
  | scanSlots {t : Table} (n : Nat) : s.tables k = some t →
      Fault k s .scanSlots ((t.scanPages ((t.pageIDs.getD []).take n)).1,false) s
  | pageCount : Fault k s .pageCount none s
  | getTuple (loc : PageSlot) : Fault k s (.getTuple loc) none s
  | fetchPage (pid : PageID) : Fault k s (.fetchPage pid) false s
  | allocatePage : Fault k s .allocatePage none s
  | cachePage {t : Table} {h : HeapFile} {pid : PageID} : s.tables k = some t →
      t.dir.heap.allocatePage = some (h,pid) →
      Fault k s .allocatePage (some pid) (s.setTable k (t.setHeap h))
  | putXMax (loc : PageSlot) (x : Nat) : Fault k s (.putXMax loc x) false s
  | clearXMax (loc : PageSlot) : Fault k s (.clearXMax loc) false s
  | logInsert (txID : Nat) (loc : PageSlot) (data : Tuple) : Fault k s (.logInsert txID loc data) none s
  | logInsertUnsynced (txID : Nat) (loc : PageSlot) (data : Tuple) :
      Fault k s (.logInsert txID loc data) none (s.appendWithTx txID (.pageInsert k loc txID data))
  | logDelete (txID : Nat) (loc : PageSlot) : Fault k s (.logDelete txID loc) none s
  | logDeleteUnsynced (txID : Nat) (loc : PageSlot) :
      Fault k s (.logDelete txID loc) none (s.appendWithTx txID (.pageDelete k loc txID))
  | logCommit (txID : Nat) : Fault k s (.logCommit txID) none s
  | logCommitUnsynced (txID : Nat) : Fault k s (.logCommit txID) none (s.appendWithTx txID .commit)

def Answers (i : Nat) (k : TableKey) (s : Engine) (c : Cmd) (r : c.Res) (s' : Engine) : Prop :=
  s.exec i k c = some (r,s') ∨ Fault k s c r s'

end Engine
end VaultDB.Storage
