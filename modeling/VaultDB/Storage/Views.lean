import VaultDB.Storage.Machine
set_option autoImplicit false

/-!
What a thread sees of the engine, what a crash would see, and how each command and each
step of the buffer pool changes the two.
-/

namespace VaultDB.Storage
open Wal Lib List Option
variable {i : Nat}
namespace Table
variable {t : Table} {pid : PageID} {t' : Table} {tup : Tuple}
@[simp] theorem frames_setFrame (t : Table) (pid pid' : PageID) (f : Option Frame) :
    (t.setFrame pid f).frames pid' = if pid' = pid then f else t.frames pid' := rfl
@[simp] theorem dir_setFrame (t : Table) (pid : PageID) (f : Option Frame) : (t.setFrame pid f).dir = t.dir := rfl
@[simp] theorem frames_setHeap (t : Table) (h : HeapFile) : (t.setHeap h).frames = t.frames := rfl
@[simp] theorem heap_setHeap (t : Table) (h : HeapFile) : (t.setHeap h).dir.heap = h := rfl
theorem page_eq_frame {f : Frame} (h : t.frames pid = some f) : t.page pid = some f.page := by simp [page,h]
theorem page_eq_heap (h : t.frames pid = none) : t.page pid = t.dir.heap.readPage pid := by simp [page,h]

theorem page_setFrame_some (t : Table) (pid pid' : PageID) (f : Frame) :
    (t.setFrame pid (some f)).page pid' = if pid' = pid then some f.page else t.page pid' := by
  by_cases h : pid' = pid <;> simp [page,h]

def KeepsPins (i : Nat) (old : Option Frame) (f : Frame) : Prop :=
  ∀ f₀, old = some f₀ → ∀ j ∈ f₀.pins, j ≠ i → j ∈ f.pins

theorem fetchPage_eq_some (h : t.fetchPage i pid = some t') :
    ∃ f, t' = t.setFrame pid (some f) ∧ t.page pid = some f.page ∧ i ∈ f.pins ∧ KeepsPins i (t.frames pid) f ∧
      (∀ f0, t.frames pid = some f0 → f.dirty = f0.dirty ∧ f.lastModifiedLSN = f0.lastModifiedLSN) ∧
      (t.frames pid = none → f.dirty = false ∧ t.dir.heap.readPage pid = some f.page) := by
  unfold fetchPage at h
  cases hf : t.frames pid with
  | some f =>
    simp only [hf,some.injEq] at h
    refine ⟨_,h.symm,by simp [page,hf],mem_cons_self,?_,?_,by simp⟩
    · rintro f0 ⟨⟩ j hj -
      exact mem_cons_of_mem _ hj
    · rintro f0 ⟨⟩
      exact ⟨rfl,rfl⟩
  | none =>
    simp only [hf,map_eq_some_iff] at h
    obtain ⟨p,hp,rfl⟩ := h
    exact ⟨_,rfl,by simp [page_eq_heap hf,hp],mem_singleton.2 rfl,by simp [KeepsPins],by simp,fun _ => ⟨rfl,hp⟩⟩

theorem allocatePage_eq_some (h : t.allocatePage i = some (t',pid)) : ∃ hf, t.dir.heap.allocatePage = some (hf,pid) ∧
      ((∃ f, t.frames pid = some f ∧ t' = t.setHeap hf) ∨
        (t.frames pid = none ∧ t' = (t.setHeap hf).setFrame pid (some ⟨Page.init,true,0,[i]⟩))) := by
  simp only [allocatePage,map_eq_some_iff] at h
  obtain ⟨⟨hf,pid'⟩,ha,he⟩ := h
  obtain ⟨ht,rfl⟩ := Prod.mk.inj he
  refine ⟨hf,ha,?_⟩
  cases hfr : t.frames pid' with
  | some f => exact .inl ⟨f,rfl,by simpa [hfr] using ht.symm⟩
  | none => exact .inr ⟨rfl,by simpa [hfr] using ht.symm⟩

theorem insertTuple_some {slot : Nat} (h : (t.insertTuple pid tup).2 = some slot) :
    (t.frames pid = none ∧ (t.insertTuple pid tup).1 = t) ∨
    ∃ f p, t.frames pid = some f ∧ f.page.insertTuple tup = some (p,slot) ∧
      (t.insertTuple pid tup).1 = t.setFrame pid (some { f with page := p }) := by
  unfold insertTuple at h ⊢
  cases hf : t.frames pid with
  | none => exact .inl ⟨rfl,by simp⟩
  | some f =>
    cases hp : f.page.insertTuple tup with
    | none => simp [hf,hp] at h
    | some x =>
      simp only [hf,hp,some.injEq] at h
      exact .inr ⟨f,x.1,rfl,by rw [hp,← h],by simp [hp]⟩

theorem insertTuple_none (h : (t.insertTuple pid tup).2 = none) : (t.insertTuple pid tup).1 = t := by
  unfold insertTuple at h ⊢
  cases hf : t.frames pid with
  | none => simp
  | some f =>
    cases hp : f.page.insertTuple tup with
    | none => simp [hp]
    | some x => simp [hf,hp] at h

theorem modifyFrame_cases (t : Table) (pid : PageID) (g : Frame → Frame) :
    (t.frames pid = none ∧ t.modifyFrame pid g = t) ∨
    ∃ f, t.frames pid = some f ∧ t.modifyFrame pid g = t.setFrame pid (some (g f)) := by
  cases hf : t.frames pid with
  | none =>
    refine .inl ⟨rfl,?_⟩
    cases t with
    | mk dir tableID frames info lockedBy =>
      simp only [modifyFrame,setFrame,mk.injEq,true_and,and_true]
      funext pid'
      split
      · rename_i h
        subst h
        simp only at hf
        simp [hf]
      · rfl
  | some f => exact .inr ⟨f,rfl,by simp [modifyFrame,hf]⟩

theorem putXMax_eq_some {loc : PageSlot} {x : Nat} (h : t.putXMax loc x = some t') :
    ∃ p f, t.page loc.pid = some p ∧ f.page = p.modifyTuple loc.slot (·.setXMax x) ∧ f.dirty = true ∧
      f.lastModifiedLSN = 0 ∧ (∀ f0, t.frames loc.pid = some f0 → f.pins = f0.pins) ∧
      t' = t.setFrame loc.pid (some f) := by
  unfold putXMax at h
  cases hf : t.frames loc.pid with
  | some f =>
    simp only [hf,some.injEq] at h
    exact ⟨f.page,_,page_eq_frame hf,rfl,rfl,rfl,by simp,h.symm⟩
  | none =>
    simp only [hf,map_eq_some_iff] at h
    obtain ⟨p,hp,rfl⟩ := h
    exact ⟨p,_,by simp [page_eq_heap hf,hp],rfl,rfl,rfl,by simp,rfl⟩

end Table

namespace Engine

def page (s : Engine) (k : TableKey) (pid : PageID) : Option Page := (s.tables k).bind fun t => t.page pid
def diskPage (s : Engine) (k : TableKey) (pid : PageID) : Option Page :=
  (s.tables k).bind fun t => t.dir.heap.readPage pid
def frame (s : Engine) (k : TableKey) (pid : PageID) : Option Frame := (s.tables k).bind fun t => t.frames pid
def mem (s : Engine) (k : TableKey) (loc : PageSlot) : Option Tuple :=
  (s.page k loc.pid).bind fun p => p.getTuple loc.slot

variable (s : Engine)
theorem page_disk (k : TableKey) (pid : PageID) : s.disk.page k pid = s.diskPage k pid := by
  simp only [Disk.page,disk,diskPage]
  cases s.tables k <;> rfl

section
variable (k k' : TableKey) (t : Table)
include k k' t
@[simp] theorem tables_setTable : (s.setTable k t).tables k' = if k' = k then some t else s.tables k' := rfl
theorem diskPage_setTable (pid : PageID) :
    (s.setTable k t).diskPage k' pid = if k' = k then t.dir.heap.readPage pid else s.diskPage k' pid := by
  by_cases h : k' = k <;> simp [diskPage,h]

theorem frame_setTable (pid : PageID) :
    (s.setTable k t).frame k' pid = if k' = k then t.frames pid else s.frame k' pid := by
  by_cases h : k' = k <;> simp [frame,h]
end

theorem syncCatalog_eq (x : Nat) : (s.syncCatalog x).tables = s.tables ∧
    (s.syncCatalog x).wal = s.wal ∧ (s.syncCatalog x).synced = s.synced ∧
    (s.syncCatalog x).pageLocks = s.pageLocks ∧ (s.syncCatalog x).clock = s.clock ∧
    (s.syncCatalog x).catalogTx = x ∧ ((s.syncCatalog x).savedTx = s.savedTx ∨ (s.syncCatalog x).savedTx = x) := by
  unfold syncCatalog
  split
  · exact ⟨rfl,rfl,rfl,rfl,rfl,rfl,.inl rfl⟩
  · exact ⟨rfl,rfl,rfl,rfl,rfl,rfl,.inr rfl⟩

end Engine

def Cmd.quiet : Cmd → Bool
  | .txClock | .scanSlots | .pageCount | .getTuple _ | .freeSpace _ => true
  | _ => false

def Cmd.Failed : (c : Cmd) → c.Res → Prop
  | .logInsert _ _ _, r => r = none
  | .logDelete _ _, r => r = none
  | .logCommit _, r => r = none
  | _, _ => False

namespace Engine
variable {k : TableKey} {s s' : Engine} {c : Cmd} {r : c.Res}
/-- Every way a command can end, with the state it leaves. -/
inductive Shape (i : Nat) (k : TableKey) (s : Engine) : (c : Cmd) → c.Res → Engine → Prop where
  | quiet {c : Cmd} {r : c.Res} : c.quiet = true → Shape i k s c r s
  | syncCatalog {x : Nat} : Shape i k s (.syncCatalog x) () (s.syncCatalog x)
  | getInfo {t : Table} : s.tables k = some t → Shape i k s .getInfo t.info s
  | nextTxID : Shape i k s .nextTxID s.nextTxID.clock.txCounter s.nextTxID
  | setInfo {f : TableInfo → TableInfo} {t : Table} : s.tables k = some t →
      Shape i k s (.setInfo f) () (s.setTable k { t with info := f t.info })
  | noTable : s.tables k = none → Shape i k s .lockTable false s
  | lockTable {t : Table} : s.tables k = some t → t.lockedBy = none →
      Shape i k s .lockTable true (s.setTable k { t with lockedBy := some i })
  | relockTable {t : Table} : s.tables k = some t → t.lockedBy = none →
      Shape i k s .relockTable () (s.setTable k { t with lockedBy := some i })
  | unlockTable {t : Table} : s.tables k = some t →
      Shape i k s .unlockTable () (s.setTable k { t with lockedBy := none })
  | lockPage {t : Table} {pid : PageID} : s.tables k = some t → s.pageLocks (t.stripe pid) = none →
      Shape i k s (.lockPage pid) () (s.setPageLock (t.stripe pid) (some i))
  | unlockPage {t : Table} {pid : PageID} : s.tables k = some t →
      Shape i k s (.unlockPage pid) () (s.setPageLock (t.stripe pid) none)
  | fetchPage {t t' : Table} {pid : PageID} : s.tables k = some t → t.fetchPage i pid = some t' →
      Shape i k s (.fetchPage pid) true (s.setTable k t')
  | fetchFail {pid : PageID} : Shape i k s (.fetchPage pid) false s
  | allocatePage {t t' : Table} {pid : PageID} : s.tables k = some t → t.allocatePage i = some (t',pid) →
      Shape i k s .allocatePage (some pid) (s.setTable k t')
  | cacheFail {t : Table} {h : HeapFile} {pid : PageID} : s.tables k = some t →
      t.dir.heap.allocatePage = some (h,pid) →
      Shape i k s .allocatePage (some pid) (s.setTable k (t.setHeap h))
  | allocateFail : Shape i k s .allocatePage none s
  | insertTuple {t : Table} {pid : PageID} {tup : Tuple} {slot : Nat} : s.tables k = some t →
      (t.insertTuple pid tup).2 = some slot →
      Shape i k s (.insertTuple pid tup) (some slot) (s.setTable k (t.insertTuple pid tup).1)
  | pageFull {t : Table} {pid : PageID} {tup : Tuple} : s.tables k = some t →
      (t.insertTuple pid tup).2 = none → Shape i k s (.insertTuple pid tup) none (s.setTable k t)
  | setHOTUpdated {t : Table} {loc : PageSlot} {n : Nat} : s.tables k = some t →
      Shape i k s (.setHOTUpdated loc n) () (s.setTable k (t.setHOTUpdated loc n))
  | unpinPage {t : Table} {pid : PageID} {dirty : Bool} : s.tables k = some t →
      Shape i k s (.unpinPage pid dirty) () (s.setTable k (t.unpinPage i pid dirty))
  | unpinPageDirty {t : Table} {pid : PageID} {lsn : Nat} : s.tables k = some t →
      Shape i k s (.unpinPageDirty pid lsn) () (s.setTable k (t.unpinPageDirty i pid lsn))
  | putXMax {t t' : Table} {loc : PageSlot} {x : Nat} : s.tables k = some t → t.putXMax loc x = some t' →
      Shape i k s (.putXMax loc x) true (s.setTable k t')
  | putFail {loc : PageSlot} {x : Nat} : Shape i k s (.putXMax loc x) false s
  | clearXMax {t t' : Table} {loc : PageSlot} : s.tables k = some t → t.putXMax loc 0 = some t' →
      Shape i k s (.clearXMax loc) true (s.setTable k t')
  | clearFail {loc : PageSlot} : Shape i k s (.clearXMax loc) false s
  | logInsert {x : Nat} {loc : PageSlot} {data : Tuple} :
      Shape i k s (.logInsert x loc data) (some x) (s.appendWithTx x (.pageInsert k loc x data))
  | logDelete {x : Nat} {loc : PageSlot} :
      Shape i k s (.logDelete x loc) (some x) (s.appendWithTx x (.pageDelete k loc x))
  | logCommit {x : Nat} : Shape i k s (.logCommit x) (some x) (s.appendWithTx x .commit)
  | logFail {c : Cmd} {r : c.Res} {s' : Engine} : c.Failed r → (s' = s ∨ ∃ x op, s' = s.appendWithTx x op) →
      Shape i k s c r s'

theorem Fault.shape (h : Fault k s c r s') : Shape i k s c r s' := by
  cases h with
  | scanSlots | pageCount | getTuple => exact .quiet rfl
  | fetchPage => exact .fetchFail
  | allocatePage => exact .allocateFail
  | cachePage ht ha => exact .cacheFail ht ha
  | putXMax => exact .putFail
  | clearXMax => exact .clearFail
  | logInsert | logDelete | logCommit => exact .logFail rfl (.inl rfl)
  | logInsertUnsynced | logDeleteUnsynced | logCommitUnsynced => exact .logFail rfl (.inr ⟨_,_,rfl⟩)

theorem shape (h : s.Answers i k c r s') : Shape i k s c r s' := by
  rcases h with h | h
  · cases c with
    | nextTxID =>
      cases h
      exact .nextTxID
    | txClock =>
      cases h
      exact .quiet rfl
    | lockTable =>
      simp only [exec] at h
      split at h
      · cases h
        exact .noTable ‹_›
      · split at h
        · cases h
          exact .lockTable ‹_› ‹_›
        · cases h
    | relockTable =>
      obtain ⟨t,ht,h⟩ := bind_eq_some_iff.1 h
      split at h
      · cases h
        exact .relockTable ht ‹_›
      · cases h
    | unlockTable =>
      obtain ⟨t,ht,h⟩ := map_eq_some_iff.1 h
      cases h
      exact .unlockTable ht
    | getInfo =>
      obtain ⟨t,ht,h⟩ := map_eq_some_iff.1 h
      cases h
      exact .getInfo ht
    | setInfo f =>
      obtain ⟨t,ht,h⟩ := map_eq_some_iff.1 h
      cases h
      exact .setInfo ht
    | scanSlots | pageCount | getTuple | freeSpace =>
      obtain ⟨t,ht,h⟩ := map_eq_some_iff.1 h
      cases h
      exact .quiet rfl
    | lockPage pid =>
      obtain ⟨t,ht,h⟩ := bind_eq_some_iff.1 h
      split at h
      · cases h
        exact .lockPage ht ‹_›
      · cases h
    | unlockPage pid =>
      obtain ⟨t,ht,h⟩ := map_eq_some_iff.1 h
      cases h
      exact .unlockPage ht
    | fetchPage pid =>
      obtain ⟨t,ht,h⟩ := map_eq_some_iff.1 h
      split at h
      · cases h
        exact .fetchPage ht ‹_›
      · cases h
        exact .fetchFail
    | allocatePage =>
      obtain ⟨t,ht,h⟩ := map_eq_some_iff.1 h
      split at h
      · cases h
        exact .allocatePage ht ‹_›
      · cases h
        exact .allocateFail
    | insertTuple pid tup =>
      obtain ⟨t,ht,h⟩ := map_eq_some_iff.1 h
      obtain ⟨hr,hs⟩ := Prod.mk.inj h
      subst hs
      cases r with
      | some slot => exact .insertTuple ht hr
      | none =>
        rw [Table.insertTuple_none hr]
        exact .pageFull ht hr
    | setHOTUpdated loc n =>
      obtain ⟨t,ht,h⟩ := map_eq_some_iff.1 h
      cases h
      exact .setHOTUpdated ht
    | unpinPage pid dirty =>
      obtain ⟨t,ht,h⟩ := map_eq_some_iff.1 h
      cases h
      exact .unpinPage ht
    | unpinPageDirty pid lsn =>
      obtain ⟨t,ht,h⟩ := map_eq_some_iff.1 h
      cases h
      exact .unpinPageDirty ht
    | putXMax loc x =>
      obtain ⟨t,ht,h⟩ := map_eq_some_iff.1 h
      split at h
      · cases h
        exact .putXMax ht ‹_›
      · cases h
        exact .putFail
    | clearXMax loc =>
      obtain ⟨t,ht,h⟩ := map_eq_some_iff.1 h
      split at h
      · cases h
        exact .clearXMax ht ‹_›
      · cases h
        exact .clearFail
    | logInsert x loc data =>
      cases h
      exact .logInsert
    | logDelete x loc =>
      cases h
      exact .logDelete
    | logCommit x =>
      cases h
      exact .logCommit
    | syncCatalog x =>
      cases h
      exact .syncCatalog
  · exact h.shape

theorem Shape.otherTable {k' : TableKey} (h : Shape i k s c r s') (hk : k' ≠ k) : s'.tables k' = s.tables k' := by
  cases h with
  | quiet => rfl
  | syncCatalog => rw [(s.syncCatalog_eq _).1]
  | logFail _ hs =>
    rcases hs with rfl | ⟨x,op,rfl⟩
    · rfl
    · rfl
  | nextTxID | getInfo | noTable | lockPage | unlockPage | fetchFail | allocateFail | putFail | clearFail |
    logInsert | logDelete | logCommit => rfl
  | _ => simp [hk]

theorem Shape.pageLocks (h : Shape i k s c r s') : s'.pageLocks = s.pageLocks ∨
      (∃ t pid, s.tables k = some t ∧ s.pageLocks (t.stripe pid) = none ∧ c = .lockPage pid ∧
        s' = s.setPageLock (t.stripe pid) (some i)) ∨
      ∃ t pid, s.tables k = some t ∧ c = .unlockPage pid ∧ s' = s.setPageLock (t.stripe pid) none := by
  cases h with
  | syncCatalog => exact .inl (s.syncCatalog_eq _).2.2.2.1
  | logFail _ hs =>
    rcases hs with rfl | ⟨x,op,rfl⟩
    · exact .inl rfl
    · exact .inl rfl
  | lockPage ht hn => exact .inr (.inl ⟨_,_,ht,hn,rfl,rfl⟩)
  | unlockPage ht => exact .inr (.inr ⟨_,_,ht,rfl,rfl⟩)
  | _ => exact .inl rfl

end Engine

theorem emptyUsers_frame (k : TableKey) (pid : PageID) : emptyUsers.frame k pid = none := by
  simp only [Engine.frame,emptyUsers]
  split <;> rfl

theorem emptyUsers_mem (k : TableKey) (loc : PageSlot) : emptyUsers.mem k loc = none := by
  simp only [Engine.mem,Engine.page,emptyUsers]
  split
  · obtain ⟨⟨seg,page⟩,slot⟩ := loc
    cases seg with
    | zero => rfl
    | succ n => rfl
  · rfl

end VaultDB.Storage
