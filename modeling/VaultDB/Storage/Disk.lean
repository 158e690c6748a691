import VaultDB.Storage.Heap
set_option autoImplicit false

/-!
What the page engine keeps on disk: a directory per table, the temporary directories of VACUUM and
rewrites, and the transaction id saved in `_catalog.json`.
-/

namespace VaultDB.Storage

structure TableKey where
  db : String
  table : String
  deriving DecidableEq, Repr

structure ColumnSchema where
  name : String
  type : String
  varcharLen : Nat := 0
  primaryKey : Bool := false
  deriving DecidableEq, Repr

structure TableSchema where
  columns : List ColumnSchema
  deriving DecidableEq, Repr

structure IndexDef where
  name : String
  columns : List String
  type : String
  unique : Bool
  deriving DecidableEq, Repr

structure TableDir where
  heap : HeapFile
  schema : Option TableSchema
  indexes : Option (List IndexDef)
  deriving DecidableEq, Repr

def TableDir.canOpen (d : TableDir) : Bool := !d.heap.segments.isEmpty && d.schema.isSome

structure Disk where
  dir : TableKey → Option TableDir
  vacuumDir : TableKey → Option TableDir
  rewriteDir : TableKey → Option TableDir
  catalogTx : Nat

namespace Disk
variable {d : Disk} {k : TableKey} {pid : PageID} {p : Page} {t : TableDir}
def setDir (d : Disk) (k : TableKey) (t : Option TableDir) : Disk :=
  { d with dir := fun k' => if k' = k then t else d.dir k' }

def setVacuumDir (d : Disk) (k : TableKey) (t : Option TableDir) : Disk :=
  { d with vacuumDir := fun k' => if k' = k then t else d.vacuumDir k' }

def setHeap (d : Disk) (k : TableKey) (h : HeapFile) : Disk :=
  d.setDir k ((d.dir k).map fun t => { t with heap := h })
def page (d : Disk) (k : TableKey) (pid : PageID) : Option Page := (d.dir k).bind fun t => t.heap.readPage pid
def tuple (d : Disk) (k : TableKey) (loc : PageSlot) : Option Tuple :=
  (d.page k loc.pid).bind fun p => p.getTuple loc.slot

@[simp] theorem dir_setDir (d : Disk) (k k' : TableKey) (t : Option TableDir) :
    (d.setDir k t).dir k' = if k' = k then t else d.dir k' := rfl

theorem dir_setHeap (d : Disk) (k k' : TableKey) (h : HeapFile) : (d.setHeap k h).dir k' =
      if k' = k then (d.dir k).map fun t => { t with heap := h } else d.dir k' := rfl

def setPage (d : Disk) (k : TableKey) (pid : PageID) (p : Page) : Disk :=
  match d.dir k with
  | none => d
  | some t =>
    match t.heap.writePage pid p with
    | none => d
    | some h => d.setHeap k h

@[simp] theorem catalogTx_setPage (d : Disk) (k : TableKey) (pid : PageID) (p : Page) :
    (d.setPage k pid p).catalogTx = d.catalogTx := by
  unfold setPage
  split
  · rfl
  · split <;> rfl

theorem page_eq (h : d.dir k = some t) (pid : PageID) : d.page k pid = t.heap.readPage pid := by simp [page,h]

theorem exists_of_page (h : d.page k pid = some p) : ∃ t, d.dir k = some t ∧ t.heap.readPage pid = some p := by
  simpa [page,Option.bind_eq_some_iff] using h

theorem setPage_eq {h : HeapFile} {q : Page}
    (ht : d.dir k = some t) (hw : t.heap.writePage pid q = some h) :
    d.setPage k pid q = d.setHeap k h := by simp [setPage,ht,hw]

section
variable (h : d.page k pid = some p)
include h
theorem setPage_self : d.setPage k pid p = d := by
  obtain ⟨t,ht,hr⟩ := exists_of_page h
  rw [setPage_eq ht (HeapFile.writePage_self hr)]
  cases d with
  | mk dir v r c =>
    simp only [setHeap,setDir,mk.injEq,and_true]
    funext k'
    split
    · rename_i hk
      subst hk
      simp only at ht
      simp [ht]
    · rfl

theorem page_setPage (q : Page) (k' : TableKey) (pid' : PageID) :
    (d.setPage k pid q).page k' pid' = if (k,pid) = (k',pid') then some q else d.page k' pid' := by
  obtain ⟨t,ht,hr⟩ := exists_of_page h
  obtain ⟨h',hw⟩ := HeapFile.writePage_eq_some (q := q) hr
  rw [setPage_eq ht hw]
  by_cases hk : k' = k
  · subst hk
    simp only [page,dir_setHeap,ht,if_true,Option.map_some,Option.bind_some,
      HeapFile.readPage_writePage hw,Prod.mk.injEq,true_and]
  · simp [page,dir_setHeap,hk,Ne.symm hk]

def frame (d : Disk) (k : TableKey) : Option (List Nat × Option TableSchema × Option (List IndexDef)) :=
  (d.dir k).map fun t => (t.heap.shape,t.schema,t.indexes)

theorem frame_setPage (q : Page) (k' : TableKey) : (d.setPage k pid q).frame k' = d.frame k' := by
  obtain ⟨t,ht,hr⟩ := exists_of_page h
  obtain ⟨h',hw⟩ := HeapFile.writePage_eq_some (q := q) hr
  rw [setPage_eq ht hw]
  by_cases hk : k' = k
  · subst hk
    simp [frame,dir_setHeap,ht,HeapFile.shape_writePage hr hw]
  · simp [frame,dir_setHeap,hk]
end

theorem dir_ext {d' : Disk} (hf : d.frame k = d'.frame k)
    (hp : ∀ pid, d.page k pid = d'.page k pid) : d.dir k = d'.dir k := by
  cases ht : d.dir k with
  | none =>
    cases ht' : d'.dir k with
    | none => rfl
    | some t' => simp [frame,ht,ht'] at hf
  | some t =>
    cases ht' : d'.dir k with
    | none => simp [frame,ht,ht'] at hf
    | some t' =>
      simp only [frame,ht,ht',Option.map_some,Option.some.injEq,Prod.mk.injEq] at hf
      have hheap : t.heap = t'.heap := HeapFile.ext_readPage hf.1 fun pid => by simpa [page,ht,ht'] using hp pid
      cases t; cases t'
      simp_all

end Disk

structure Clock where
  txCounter : Nat
  mgrCounter : Nat
  deriving DecidableEq, Repr

namespace Clock

def ensureNextTxIDAtLeast (c : Clock) (v : Nat) : Clock := ⟨max c.txCounter v,max c.mgrCounter v⟩
def advance (c : Clock) (xid : Nat) : Clock := if 0 < xid then c.ensureNextTxIDAtLeast (xid+1) else c
def isCommitted (c : Clock) (xid : Nat) : Bool := xid < c.mgrCounter

def visible (c : Clock) (t : Tuple) : Bool :=
  (t.xmin == c.txCounter || (t.xmin ≤ c.txCounter && c.isCommitted t.xmin)) && (t.xmax == 0 || c.txCounter < t.xmax)

def start (catalogTx : Nat) : Clock := ⟨catalogTx,if 0 < catalogTx then catalogTx+1 else 0⟩
def Synced (c : Clock) : Prop := c.txCounter ≤ c.mgrCounter

theorem synced_start (n : Nat) : (start n).Synced := by
  unfold Synced start
  split
  · exact Nat.le_succ n
  · simp_all

theorem Synced.ensure {c : Clock} (h : c.Synced) (v : Nat) : (c.ensureNextTxIDAtLeast v).Synced := by
  simp only [Synced,ensureNextTxIDAtLeast] at *
  omega

theorem Synced.advance {c : Clock} (h : c.Synced) (v : Nat) : (c.advance v).Synced := by
  unfold Clock.advance
  split
  · exact h.ensure _
  · exact h

theorem le_ensure (c : Clock) (v : Nat) : c.txCounter ≤ (c.ensureNextTxIDAtLeast v).txCounter := Nat.le_max_left _ _

theorem le_advance (c : Clock) (v : Nat) : c.txCounter ≤ (c.advance v).txCounter := by
  unfold advance
  split
  · exact c.le_ensure _
  · exact Nat.le_refl _

theorem visible_iff {c : Clock} (h : c.Synced) (t : Tuple) :
    c.visible t = true ↔ t.xmin ≤ c.txCounter ∧ (t.xmax = 0 ∨ c.txCounter < t.xmax) := by
  simp only [Synced] at h
  simp only [visible,isCommitted,Bool.and_eq_true,Bool.or_eq_true,beq_iff_eq,decide_eq_true_eq]
  omega

end Clock
end VaultDB.Storage
