import VaultDB.Wal.Log
set_option autoImplicit false

/-!
The page operations of crash recovery, after `storage/page_engine.go`, and where a replayed insert
ends up.
-/

namespace VaultDB.Storage
open Wal

structure RecoveryState where
  disk : Disk
  opened : TableKey → Bool
  clock : Clock

inductive RecoveryError where
  | page (e : PageError)
  | readPage (k : TableKey) (pid : PageID)
  | allocatePage (k : TableKey)
  | writePage (k : TableKey) (pid : PageID)
  | schemaFile (k : TableKey)
  deriving DecidableEq, Repr

namespace RecoveryState
variable {s : RecoveryState} {k : TableKey} {d : TableDir} {s' : RecoveryState} {loc : PageSlot} {h : HeapFile}
  {xid : Nat} {data : Tuple}
def table? (s : RecoveryState) (k : TableKey) : Option TableDir :=
  if s.opened k then s.disk.dir k else none

def setHeap (s : RecoveryState) (k : TableKey) (h : HeapFile) : RecoveryState :=
  { s with disk := s.disk.setHeap k h }
def advanceClock (s : RecoveryState) (xid : Nat) : RecoveryState := { s with clock := s.clock.advance xid }

def writePage (s : RecoveryState) (k : TableKey) (h : HeapFile) (pid : PageID) (p : Page) :
    Except RecoveryError RecoveryState :=
  match h.writePage pid p with
  | some h' => .ok (s.setHeap k h')
  | none => .error (.writePage k pid)

/-- The page a replayed insert works on: the one the record names if it can be read,
otherwise whichever page `AllocatePage` hands out. -/
def redoPage (k : TableKey) (d : TableDir) (pid : PageID) : Except RecoveryError (HeapFile × PageID × Page) :=
  match d.heap.readPage pid with
  | some pg => .ok (d.heap,pid,pg)
  | none =>
    match d.heap.allocatePage with
    | some (h,newPid) => .ok (h,newPid,Page.init)
    | none => .error (.allocatePage k)

def redoInsert (s : RecoveryState) (k : TableKey) (loc : PageSlot) (xid : Nat) (data : Tuple) :
    Except RecoveryError RecoveryState :=
  let s := s.advanceClock xid
  match s.table? k with
  | none => .ok s
  | some d =>
    match redoPage k d loc.pid with
    | .error e => .error e
    | .ok (h,pid,pg) =>
      match pg.insertTupleAt loc.slot data with
      | .error e => .error (.page e)
      | .ok pg' => s.writePage k h pid pg'

def stampXMax (s : RecoveryState) (k : TableKey) (loc : PageSlot) (xmax : Nat) :
    Except RecoveryError RecoveryState :=
  match s.table? k with
  | none => .ok s
  | some d =>
    match d.heap.readPage loc.pid with
    | none => .error (.readPage k loc.pid)
    | some pg =>
      match pg.getTuple loc.slot with
      | none => .ok s
      | some _ => s.writePage k d.heap loc.pid (pg.modifyTuple loc.slot (·.setXMax xmax))

def redoDelete (s : RecoveryState) (k : TableKey) (loc : PageSlot) (xmax : Nat) :
    Except RecoveryError RecoveryState := (s.advanceClock xmax).stampXMax k loc xmax

def undoInsert (s : RecoveryState) (k : TableKey) (loc : PageSlot) (xid : Nat) :
    Except RecoveryError RecoveryState := s.stampXMax k loc xid

def undoDelete (s : RecoveryState) (k : TableKey) (loc : PageSlot) :
    Except RecoveryError RecoveryState := s.stampXMax k loc 0

def redoSchemaWrite (s : RecoveryState) (k : TableKey) (schema : TableSchema) : Except RecoveryError RecoveryState :=
  match s.disk.dir k with
  | none => .error (.schemaFile k)
  | some d => .ok { s with disk := s.disk.setDir k (some { d with schema := some schema }) }

def redoTruncateTable (s : RecoveryState) (k : TableKey) : RecoveryState :=
  match s.table? k with
  | none => s
  | some _ => s.setHeap k HeapFile.create

def tuple (s : RecoveryState) (k : TableKey) (loc : PageSlot) : Option Tuple := s.disk.tuple k loc
@[simp] theorem disk_advanceClock (s : RecoveryState) (x : Nat) : (s.advanceClock x).disk = s.disk := rfl

@[simp] theorem table?_advanceClock (s : RecoveryState) (x : Nat) (k : TableKey) :
    (s.advanceClock x).table? k = s.table? k := rfl

theorem dir_of_table? (h : s.table? k = some d) : s.disk.dir k = some d := by
  unfold table? at h
  split at h
  · exact h
  · cases h

theorem writePage_eq_ok {pid : PageID} {p : Page}
    (hw : s.writePage k h pid p = .ok s') : ∃ h', h.writePage pid p = some h' ∧ s' = s.setHeap k h' := by
  unfold writePage at hw
  split at hw
  · exact ⟨_,‹_›,(Except.ok.inj hw).symm⟩
  · cases hw

theorem redoInsert_cases (hr : s.redoInsert k loc xid data = .ok s') :
    (s.table? k = none ∧ s' = s.advanceClock xid) ∨
    ∃ d h pid pg pg' h', s.table? k = some d ∧ redoPage k d loc.pid = .ok (h,pid,pg) ∧
      pg.insertTupleAt loc.slot data = .ok pg' ∧ h.writePage pid pg' = some h' ∧
      s' = (s.advanceClock xid).setHeap k h' := by
  unfold redoInsert at hr
  simp only [table?_advanceClock] at hr
  split at hr
  · exact .inl ⟨‹_›,(Except.ok.inj hr).symm⟩
  · split at hr
    · cases hr
    · split at hr
      · cases hr
      · obtain ⟨h',hw,rfl⟩ := writePage_eq_ok hr
        exact .inr ⟨_,_,_,_,_,h',‹_›,‹_›,‹_›,hw,rfl⟩

theorem redoPage_cases {pid pid' : PageID} {pg : Page} (hr : redoPage k d pid = .ok (h,pid',pg)) :
    (d.heap.readPage pid = some pg ∧ h = d.heap ∧ pid' = pid) ∨
    (d.heap.readPage pid = none ∧ d.heap.allocatePage = some (h,pid') ∧ pg = Page.init) := by
  unfold redoPage at hr
  split at hr
  · cases hr
    exact .inl ⟨‹_›,rfl,rfl⟩
  · split at hr
    · cases hr
      exact .inr ⟨‹_›,‹_›,rfl⟩
    · cases hr

theorem page_setHeap (hd : s.disk.dir k = some d)
    (h : HeapFile) (pid : PageID) : (s.setHeap k h).disk.page k pid = h.readPage pid := by
  simp [setHeap,Disk.page,Disk.dir_setHeap,hd]

theorem tuple_eq : s.tuple k loc = (s.disk.page k loc.pid).bind fun p => p.getTuple loc.slot := rfl

/-- A replay works on the place its record names: the table is open, and the page can be read or is
the one `AllocatePage` would add next. -/
def CanPlace (s : RecoveryState) (k : TableKey) (pid : PageID) : Prop :=
  ∃ d, s.table? k = some d ∧ (d.heap.readPage pid ≠ none ∨ d.heap.nextPage = some pid)

theorem page_redoInsert (hr : s.redoInsert k loc xid data = .ok s')
    (hd : s.table? k = some d) :
    (∃ pg pg', d.heap.readPage loc.pid = some pg ∧ pg.insertTupleAt loc.slot data = .ok pg' ∧
      s'.disk.page k loc.pid = some pg') ∨
    (d.heap.readPage loc.pid = none ∧ d.heap.nextPage = some loc.pid ∧
      ∃ pg', Page.init.insertTupleAt loc.slot data = .ok pg' ∧ s'.disk.page k loc.pid = some pg') ∨
    (d.heap.readPage loc.pid = none ∧ d.heap.nextPage ≠ some loc.pid ∧ s'.disk.page k loc.pid = none) := by
  rcases redoInsert_cases hr with ⟨hn,-⟩ | ⟨d',h,pid,pg,pg',h',hd',hp,hi,hw,rfl⟩
  · simp [hd] at hn
  · obtain rfl := Option.some.inj (hd.symm.trans hd')
    have hdir : (s.advanceClock xid).disk.dir k = some d := by simpa using dir_of_table? hd
    rw [page_setHeap hdir,HeapFile.readPage_writePage hw]
    rcases redoPage_cases hp with ⟨hread,rfl,rfl⟩ | ⟨hread,halloc,rfl⟩
    · exact .inl ⟨pg,pg',hread,hi,by simp⟩
    · obtain ⟨hnext,hreads⟩ := HeapFile.allocatePage_eq halloc
      by_cases hpid : pid = loc.pid
      · subst hpid
        exact .inr (.inl ⟨hread,hnext,pg',hi,by simp⟩)
      · refine .inr (.inr ⟨hread,fun hn => hpid ?_,?_⟩)
        · exact Option.some.inj (hnext.symm.trans hn)
        · simp [hpid,hreads,hread]

/-- Where a replayed insert that reports success leaves the logged tuple: the version, then all its
bytes (a version already there keeps its `deleted_tx`). -/
theorem redoInsert_places_iff {s s' : RecoveryState} {k : TableKey} {loc : PageSlot} {xid : Nat}
    {data : Tuple} (hr : s.redoInsert k loc xid data = .ok s') :
    ((∃ e, s'.tuple k loc = some e ∧ e.SameVersion data) ↔
      s.CanPlace k loc.pid ∨
        (s.table? k = none ∧ ∃ e, s.tuple k loc = some e ∧ e.SameVersion data)) ∧
    (s'.tuple k loc = some data ↔
      (s.CanPlace k loc.pid ∧ ∀ e, s.tuple k loc = some e → e.SameVersion data → e = data) ∨
        (s.table? k = none ∧ s.tuple k loc = some data)) := by
  cases hd : s.table? k with
  | none =>
    have hs : s' = s.advanceClock xid := by
      rcases redoInsert_cases hr with ⟨-,hs⟩ | ⟨d,_,_,_,_,_,hd',-⟩
      · exact hs
      · simp [hd] at hd'
    have ht : s'.tuple k loc = s.tuple k loc := by simp [hs,tuple]
    simp [ht,CanPlace,hd]
  | some d =>
    have hpage : ∀ pid, s.disk.page k pid = d.heap.readPage pid := Disk.page_eq (dir_of_table? hd)
    rcases page_redoInsert hr hd with ⟨pg,pg',hread,hi,hp⟩ | ⟨hread,hnext,pg',hi,hp⟩ |
      ⟨hread,hnext,hp⟩
    · have hcan : s.CanPlace k loc.pid := ⟨d,hd,.inl (by simp [hread])⟩
      have ht : s'.tuple k loc = some (Page.insertedOver data (s.tuple k loc)) := by
        simp [tuple_eq,hp,hpage,hread,Page.getTuple_insertTupleAt hi]
      refine ⟨by simp [ht,hcan,Page.sameVersion_insertedOver],?_⟩
      cases he : s.tuple k loc with
      | none => simp [ht,he,hcan,Page.insertedOver]
      | some e =>
        by_cases hv : e.SameVersion data <;> simp [ht,he,hcan,Page.insertedOver,hv]
    · have hcan : s.CanPlace k loc.pid := ⟨d,hd,.inr hnext⟩
      have ht : s'.tuple k loc = some data := by
        simp [tuple_eq,hp,Page.getTuple_insertTupleAt hi,Page.insertedOver]
      have hold : s.tuple k loc = none := by simp [tuple_eq,hpage,hread]
      simp [ht,hold,hcan,Tuple.SameVersion.refl]
    · have hcan : ¬ s.CanPlace k loc.pid := by
        rintro ⟨d',hd',hor⟩
        obtain rfl := Option.some.inj (hd.symm.trans hd')
        simp_all
      simp [tuple_eq,hp,hcan]

def ofHeap (h : HeapFile) : RecoveryState where
  disk :=
    { dir := fun k => if k = ⟨"app","users"⟩ then some ⟨h,some ⟨[⟨"id","INT",0,false⟩]⟩,none⟩ else none
      vacuumDir := fun _ => none
      rewriteDir := fun _ => none
      catalogTx := 0 }
  opened := fun k => k = ⟨"app","users"⟩
  clock := .start 0

def rowTuple : Tuple := ⟨7#64,0,[1,0]⟩

theorem redoInsert_places_readable :
    ∃ s', (ofHeap ⟨[[some Page.init]]⟩).redoInsert ⟨"app", "users"⟩ ⟨⟨0, 0⟩, 0⟩ 7 rowTuple = .ok s' ∧
      ∃ e, s'.tuple ⟨"app", "users"⟩ ⟨⟨0, 0⟩, 0⟩ = some e ∧ e.SameVersion rowTuple := by
  have hcan : (ofHeap ⟨[[some Page.init]]⟩).CanPlace ⟨"app","users"⟩ ⟨0,0⟩ :=
    ⟨_,rfl,.inl (by decide)⟩
  obtain ⟨s',hr⟩ : ∃ s', (ofHeap ⟨[[some Page.init]]⟩).redoInsert ⟨"app","users"⟩ ⟨⟨0,0⟩,0⟩ 7
      rowTuple = .ok s' := ⟨_,rfl⟩
  exact ⟨s',hr,(redoInsert_places_iff hr).1.2 (.inl hcan)⟩

/-- A record that names page 5 of a heap with one page is replayed without an error, and its
tuple lands on page 1. -/
theorem redoInsert_lands_elsewhere :
    ∃ s', (ofHeap ⟨[[some Page.init]]⟩).redoInsert ⟨"app", "users"⟩ ⟨⟨0, 5⟩, 0⟩ 7 rowTuple = .ok s' ∧
      s'.tuple ⟨"app", "users"⟩ ⟨⟨0, 5⟩, 0⟩ = none ∧
      s'.tuple ⟨"app", "users"⟩ ⟨⟨0, 1⟩, 0⟩ = some rowTuple :=
  ⟨_,rfl,by decide,by decide⟩

end RecoveryState
end VaultDB.Storage
