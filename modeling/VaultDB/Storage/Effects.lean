import VaultDB.Storage.Threads
set_option autoImplicit false

/-!
What the commands of the row statements and the steps of the buffer pool do to the cached
pages, the pages on disk and the log.
-/

namespace VaultDB.Storage
open Wal Lib Table
variable {k : TableKey} {pid : PageID} {f : Frame} {t : Table} {i : Nat} {e : EnvEvent}
namespace Engine
variable {s s' : Engine}
theorem page_eq (s : Engine) (k : TableKey) (pid : PageID) : s.page k pid = match s.frame k pid with
      | some f => some f.page
      | none => s.diskPage k pid := by
  unfold page frame diskPage
  cases s.tables k with
  | none => rfl
  | some t =>
    simp only [Option.bind_some]
    cases hf : t.frames pid with
    | none => exact page_eq_heap hf
    | some f => exact page_eq_frame hf

theorem page_of_frame (h : s.frame k pid = some f) : s.page k pid = some f.page := by rw [page_eq,h]
theorem page_of_no_frame (h : s.frame k pid = none) : s.page k pid = s.diskPage k pid := by rw [page_eq,h]

structure SameFrames (s s' : Engine) : Prop where
  frame : ∀ k pid, s'.frame k pid = s.frame k pid
  disk : ∀ k pid, s'.diskPage k pid = s.diskPage k pid

structure FrameSet (k : TableKey) (pid : PageID) (f : Frame) (s s' : Engine) : Prop where
  frame : ∀ k' pid', s'.frame k' pid' = if k' = k ∧ pid' = pid then some f else s.frame k' pid'
  disk : ∀ k' pid', s'.diskPage k' pid' = s.diskPage k' pid'

theorem SameFrames.page (h : SameFrames s s') (k : TableKey) (pid : PageID) :
    s'.page k pid = s.page k pid := by rw [page_eq,page_eq,h.frame,h.disk]

theorem FrameSet.page (h : FrameSet k pid f s s') (k' : TableKey) (pid' : PageID) :
    s'.page k' pid' = if k' = k ∧ pid' = pid then some f.page else s.page k' pid' := by
  rw [page_eq,page_eq,h.frame,h.disk]
  by_cases hk : k' = k ∧ pid' = pid
  · simp [hk]
  · simp [hk]

theorem sameFrames_of_tables (h : s'.tables = s.tables) : SameFrames s s' :=
  ⟨fun k pid => by simp [frame,h],fun k pid => by simp [diskPage,h]⟩

section
variable (ht : s.tables k = some t)
include ht
theorem sameFrames_setTable {t' : Table} (hf : t'.frames = t.frames) (hd : t'.dir = t.dir) :
    SameFrames s (s.setTable k t') := by
  constructor
  · intro k' pid
    rw [frame_setTable]
    split
    · rename_i hk
      subst hk
      simp [frame,ht,hf]
    · rfl
  · intro k' pid
    rw [diskPage_setTable]
    split
    · rename_i hk
      subst hk
      simp [diskPage,ht,hd]
    · rfl

theorem frameSet_setTable (pid : PageID) (f : Frame) :
    FrameSet k pid f s (s.setTable k (t.setFrame pid (some f))) := by
  constructor
  · intro k' pid'
    rw [frame_setTable]
    by_cases hk : k' = k
    · subst hk
      by_cases hp : pid' = pid <;> simp [hp,frame,ht]
    · simp [hk]
  · intro k' pid'
    rw [diskPage_setTable]
    split
    · rename_i hk
      subst hk
      simp [diskPage,ht]
    · rfl

theorem frame_eq (pid : PageID) : s.frame k pid = t.frames pid := by simp [frame,ht]
theorem diskPage_eq (pid : PageID) : s.diskPage k pid = t.dir.heap.readPage pid := by simp [diskPage,ht]
theorem page_eq_table (pid : PageID) : s.page k pid = t.page pid := by simp [page,ht]

theorem modifyFrame_setTable (pid : PageID) (m : Frame → Frame) :
    (s.frame k pid = none ∧ SameFrames s (s.setTable k (t.modifyFrame pid m))) ∨
    ∃ f, s.frame k pid = some f ∧ FrameSet k pid (m f) s (s.setTable k (t.modifyFrame pid m)) := by
  rw [frame_eq ht]
  rcases t.modifyFrame_cases pid m with ⟨hn,he⟩ | ⟨f,hf,he⟩
  · refine .inl ⟨hn,?_⟩
    rw [he]
    exact sameFrames_setTable ht rfl rfl
  · refine .inr ⟨f,hf,?_⟩
    rw [he]
    exact frameSet_setTable ht pid (m f)
end
end Engine

def Cmd.Still : (c : Cmd) → c.Res → Bool
  | .fetchPage _, r => !r
  | .allocatePage, r => r.isNone
  | .insertTuple _ _, r => r.isNone
  | .setHOTUpdated _ _, _ => false
  | .unpinPage _ _, _ => false
  | .unpinPageDirty _ _, _ => false
  | .putXMax _ _, r => !r
  | .clearXMax _, r => !r
  | .logInsert _ _ _, _ => false
  | .logDelete _ _, _ => false
  | .logCommit _, _ => false
  | _, _ => true

def Cmd.pinned : (c : Cmd) → c.Res → Option PageID
  | .insertTuple pid _, r => r.map fun _ => pid
  | .setHOTUpdated loc _, _ => some loc.pid
  | .unpinPage pid _, _ => some pid
  | .unpinPageDirty pid _, _ => some pid
  | _, _ => none

def Cmd.record (k : TableKey) : Cmd → Option Entry
  | .logInsert x loc t => some ⟨x,.pageInsert k loc x t⟩
  | .logDelete x loc => some ⟨x,.pageDelete k loc x⟩
  | .logCommit x => some ⟨x,.commit⟩
  | _ => none

variable {c : Cmd} {r : c.Res}
namespace Engine
variable {s s' : Engine}
inductive Effect (i : Nat) (k : TableKey) (s : Engine) : (c : Cmd) → c.Res → Engine → Prop where
  | still {c : Cmd} {r : c.Res} {s' : Engine} : c.Still r = true → SameFrames s s' → s'.wal = s.wal →
      Effect i k s c r s'
  | fetch {pid : PageID} {f : Frame} {s' : Engine} : FrameSet k pid f s s' → s.page k pid = some f.page →
      i ∈ f.pins → (∀ f₀, s.frame k pid = some f₀ → f.dirty = f₀.dirty ∧ f.lastModifiedLSN = f₀.lastModifiedLSN) →
      (s.frame k pid = none → f.dirty = false ∧ s.diskPage k pid = some f.page) → s'.wal = s.wal →
      Effect i k s (.fetchPage pid) true s'
  | allocate {pid : PageID} {f : Option Frame} {s' : Engine} : s.diskPage k pid = none → s.frame k pid = none →
      (f = none ∨ f = some ⟨Page.init,true,0,[i]⟩) →
      (∀ k' pid', s'.frame k' pid' = if k' = k ∧ pid' = pid then f else s.frame k' pid') →
      (∀ k' pid', s'.diskPage k' pid' = if k' = k ∧ pid' = pid then some Page.init else s.diskPage k' pid') →
      s'.wal = s.wal → Effect i k s .allocatePage (some pid) s'
  | absent {c : Cmd} {r : c.Res} {pid : PageID} {s' : Engine} : c.pinned r = some pid →
      s.frame k pid = none → SameFrames s s' → s'.wal = s.wal → Effect i k s c r s'
  | insert {pid : PageID} {t : Tuple} {slot : Nat} {f : Frame} {p : Page} {s' : Engine} :
      s.frame k pid = some f → f.page.insertTuple t = some (p,slot) →
      FrameSet k pid { f with page := p } s s' → s'.wal = s.wal →
      Effect i k s (.insertTuple pid t) (some slot) s'
  | hot {loc : PageSlot} {n : Nat} {f : Frame} {s' : Engine} : s.frame k loc.pid = some f →
      FrameSet k loc.pid { f with page := f.page.modifyTuple loc.slot (·.setHOTUpdated n) } s s' →
      s'.wal = s.wal → Effect i k s (.setHOTUpdated loc n) () s'
  | unpin {pid : PageID} {dirty : Bool} {f : Frame} {s' : Engine} : s.frame k pid = some f →
      FrameSet k pid { f with pins := f.pins.erase i, dirty := f.dirty || dirty } s s' → s'.wal = s.wal →
      Effect i k s (.unpinPage pid dirty) () s'
  | unpinDirty {pid : PageID} {lsn : Nat} {f : Frame} {s' : Engine} : s.frame k pid = some f →
      FrameSet k pid { f with pins := f.pins.erase i, dirty := true, lastModifiedLSN := lsn } s s' →
      s'.wal = s.wal → Effect i k s (.unpinPageDirty pid lsn) () s'
  | stamp {loc : PageSlot} {x : Nat} {p : Page} {f : Frame} {s' : Engine} : s.page k loc.pid = some p →
      f.page = p.modifyTuple loc.slot (·.setXMax x) → f.dirty = true → f.lastModifiedLSN = 0 →
      FrameSet k loc.pid f s s' → s'.wal = s.wal → Effect i k s (.putXMax loc x) true s'
  | clear {loc : PageSlot} {p : Page} {f : Frame} {s' : Engine} : s.page k loc.pid = some p →
      f.page = p.modifyTuple loc.slot (·.setXMax 0) → f.dirty = true → f.lastModifiedLSN = 0 →
      FrameSet k loc.pid f s s' → s'.wal = s.wal → Effect i k s (.clearXMax loc) true s'
  | log {c : Cmd} {r : c.Res} {e : Entry} {s' : Engine} : c.record k = some e → ¬ c.Failed r →
      SameFrames s s' → s'.wal = s.wal++[e] → Effect i k s c r s'
  | logFail {c : Cmd} {r : c.Res} {s' : Engine} : c.Failed r → SameFrames s s' → Effect i k s c r s'

theorem Shape.effect (hb : ∀ pid f, s.frame k pid = some f → s.diskPage k pid ≠ none) (h : s.Shape i k c r s') :
    Effect i k s c r s' := by
  have hfresh : ∀ {t : Table} {hf : HeapFile} {pid : PageID}, s.tables k = some t →
      t.dir.heap.allocatePage = some (hf,pid) → s.diskPage k pid = none ∧ s.frame k pid = none := by
    intro t hf pid ht hal
    have hd : s.diskPage k pid = none := by
      rw [diskPage_eq ht]
      exact HeapFile.readPage_nextPage (HeapFile.allocatePage_eq hal).1
    refine ⟨hd,?_⟩
    cases hfr : s.frame k pid with
    | none => rfl
    | some f => exact absurd hd (hb pid f hfr)
  have halloc : ∀ {t t' : Table} {hf : HeapFile} {pid : PageID} {f : Option Frame}, s.tables k = some t →
      t.dir.heap.allocatePage = some (hf,pid) → (f = none ∨ f = some ⟨Page.init,true,0,[i]⟩) →
      t'.dir.heap = hf → (∀ pid', t'.frames pid' = if pid' = pid then f else t.frames pid') →
      Effect i k s .allocatePage (some pid) (s.setTable k t') := by
    intro t t' hf pid f ht hal hor hheap hfr
    refine .allocate (hfresh ht hal).1 (hfresh ht hal).2 hor (fun k' pid' => ?_) (fun k' pid' => ?_) rfl
    · rw [frame_setTable]
      by_cases hk : k' = k
      · subst hk
        simp [hfr,frame_eq ht]
      · simp [hk]
    · rw [diskPage_setTable]
      by_cases hk : k' = k
      · subst hk
        simp [hheap,(HeapFile.allocatePage_eq hal).2,diskPage_eq ht,eq_comm]
      · simp [hk]
  cases h with
  | quiet hq =>
    refine .still ?_ (sameFrames_of_tables rfl) rfl
    cases c with
    | txClock | scanSlots | pageCount | getTuple | freeSpace => rfl
    | _ => cases hq
  | syncCatalog => exact .still rfl (sameFrames_of_tables (s.syncCatalog_eq _).1) (s.syncCatalog_eq _).2.1
  | getInfo | nextTxID | noTable | fetchFail | allocateFail | putFail | clearFail =>
    exact .still rfl (sameFrames_of_tables rfl) rfl
  | setInfo ht | lockTable ht | relockTable ht | unlockTable ht | pageFull ht =>
    exact .still rfl (sameFrames_setTable ht rfl rfl) rfl
  | lockPage | unlockPage => exact .still rfl (sameFrames_of_tables rfl) rfl
  | @fetchPage t t' pid ht he =>
    obtain ⟨f,rfl,hp,hmem,-,hold,hnew⟩ := fetchPage_eq_some he
    refine .fetch (frameSet_setTable ht pid f) (by rw [page_eq_table ht]; exact hp) hmem ?_ ?_ rfl
    · rw [frame_eq ht]
      exact hold
    · rw [frame_eq ht,diskPage_eq ht]
      exact hnew
  | @allocatePage t t' pid ht he =>
    obtain ⟨hf,hal,⟨f,hfr,-⟩ | ⟨-,rfl⟩⟩ := allocatePage_eq_some he
    · have := (hfresh ht hal).2
      rw [frame_eq ht,hfr] at this
      cases this
    · exact halloc ht hal (.inr rfl) rfl fun pid' => by simp
  | @cacheFail t hf pid ht hal =>
    refine halloc ht hal (.inl rfl) rfl fun pid' => ?_
    by_cases hp : pid' = pid
    · subst hp
      have := (hfresh ht hal).2
      rw [frame_eq ht] at this
      simp [this]
    · simp [hp]
  | @insertTuple t pid tup slot ht he =>
    rcases insertTuple_some he with ⟨hn,heq⟩ | ⟨f,p,hf,hp,heq⟩
    · rw [heq]
      exact .absent rfl (by rw [frame_eq ht]; exact hn) (sameFrames_setTable ht rfl rfl) rfl
    · rw [heq]
      exact .insert (by rw [frame_eq ht]; exact hf) hp (frameSet_setTable ht pid _) rfl
  | @setHOTUpdated t loc n ht =>
    rcases modifyFrame_setTable ht loc.pid
      (fun f => { f with page := f.page.modifyTuple loc.slot (·.setHOTUpdated n) }) with ⟨hn,hs⟩ | ⟨f,hf,hs⟩
    · exact .absent rfl hn hs rfl
    · exact .hot hf hs rfl
  | @unpinPage t pid dirty ht =>
    rcases modifyFrame_setTable ht pid
      (fun f => { f with pins := f.pins.erase i, dirty := f.dirty || dirty }) with ⟨hn,hs⟩ | ⟨f,hf,hs⟩
    · exact .absent rfl hn hs rfl
    · exact .unpin hf hs rfl
  | @unpinPageDirty t pid lsn ht =>
    rcases modifyFrame_setTable ht pid
      (fun f => { f with pins := f.pins.erase i, dirty := true, lastModifiedLSN := lsn }) with ⟨hn,hs⟩ | ⟨f,hf,hs⟩
    · exact .absent rfl hn hs rfl
    · exact .unpinDirty hf hs rfl
  | @putXMax t t' loc x ht he =>
    obtain ⟨p,f,hp,hpage,hd,hl,-,rfl⟩ := putXMax_eq_some he
    exact .stamp (by rw [page_eq_table ht]; exact hp) hpage hd hl (frameSet_setTable ht loc.pid f) rfl
  | @clearXMax t t' loc ht he =>
    obtain ⟨p,f,hp,hpage,hd,hl,-,rfl⟩ := putXMax_eq_some he
    exact .clear (by rw [page_eq_table ht]; exact hp) hpage hd hl (frameSet_setTable ht loc.pid f) rfl
  | logInsert | logDelete | logCommit => exact .log rfl (by simp [Cmd.Failed]) (sameFrames_of_tables rfl) rfl
  | logFail hc hs =>
    refine .logFail hc ?_
    rcases hs with rfl | ⟨x,op,rfl⟩
    · exact sameFrames_of_tables rfl
    · exact sameFrames_of_tables rfl

theorem page_allocate {f : Option Frame} (hor : f = none ∨ f = some ⟨Page.init,true,0,[i]⟩)
    (hf : ∀ k' pid', s'.frame k' pid' = if k' = k ∧ pid' = pid then f else s.frame k' pid')
    (hd : ∀ k' pid', s'.diskPage k' pid' = if k' = k ∧ pid' = pid then some Page.init else s.diskPage k' pid')
    (k' : TableKey) (pid' : PageID) :
    s'.page k' pid' = if k' = k ∧ pid' = pid then some Page.init else s.page k' pid' := by
  rw [page_eq,page_eq,hf,hd]
  by_cases hk : k' = k ∧ pid' = pid
  · rcases hor with rfl | rfl <;> simp [hk]
  · simp [hk]

theorem Effect.wal (h : Effect i k s c r s') (hf : ¬ c.Failed r) : s'.wal = s.wal++(c.record k).toList := by
  cases h with
  | log hc _ _ hwal => simp [hwal,hc]
  | logFail hc => exact absurd hc hf
  | still hst _ hwal =>
    cases c with
    | logInsert | logDelete | logCommit => cases hst
    | _ => simpa [Cmd.record] using hwal
  | absent hpin _ _ hwal =>
    cases c with
    | logInsert | logDelete | logCommit => cases hpin
    | _ => simpa [Cmd.record] using hwal
  | fetch _ _ _ _ _ hwal | allocate _ _ _ _ _ hwal | stamp _ _ _ _ _ hwal | clear _ _ _ _ _ hwal =>
    simpa [Cmd.record] using hwal
  | insert _ _ _ hwal | hot _ _ hwal | unpin _ _ hwal | unpinDirty _ _ hwal => simpa [Cmd.record] using hwal

inductive EnvEffect (s : Engine) : EnvEvent → Engine → Prop where
  | sync {n : Nat} {s' : Engine} : SameFrames s s' → s'.wal = s.wal → s'.synced = n → s.synced ≤ n →
      n ≤ s.wal.length → EnvEffect s (.sync n) s'
  | flush {k : TableKey} {pid : PageID} {f : Frame} {s' : Engine} : s.frame k pid = some f → f.dirty = true →
      (∀ k' pid', s'.frame k' pid' =
        if k' = k ∧ pid' = pid then some { f with dirty := false, lastModifiedLSN := 0 } else s.frame k' pid') →
      (∀ k' pid', s'.diskPage k' pid' = if k' = k ∧ pid' = pid then some f.page else s.diskPage k' pid') →
      s'.wal = s.wal → s'.synced = s.synced → EnvEffect s (.flushPage k pid) s'
  | drop {k : TableKey} {pid : PageID} {f : Frame} {s' : Engine} : s.frame k pid = some f → f.pins = [] →
      f.dirty = false → (∀ k' pid', s'.frame k' pid' = if k' = k ∧ pid' = pid then none else s.frame k' pid') →
      (∀ k' pid', s'.diskPage k' pid' = s.diskPage k' pid') → s'.wal = s.wal → s'.synced = s.synced →
      EnvEffect s (.evict k pid) s'
  | evict {k : TableKey} {pid : PageID} {f : Frame} {s' : Engine} : s.frame k pid = some f → f.pins = [] →
      f.dirty = true → (∀ k' pid', s'.frame k' pid' = if k' = k ∧ pid' = pid then none else s.frame k' pid') →
      (∀ k' pid', s'.diskPage k' pid' = if k' = k ∧ pid' = pid then some f.page else s.diskPage k' pid') →
      s'.wal = s.wal → s'.synced = s.wal.length → EnvEffect s (.evict k pid) s'

theorem Env.wal (h : s.Env e s') (he : e ≠ .checkpoint) : s'.wal = s.wal := by
  cases h with
  | checkpoint => exact absurd rfl he
  | _ => rfl

theorem readPage_writeFrame (h : t.dir.heap.readPage pid ≠ none) (pid' : PageID) :
    (t.writeFrame pid f).dir.heap.readPage pid' = if pid' = pid then some f.page else t.dir.heap.readPage pid' := by
  obtain ⟨p,hp⟩ := Option.ne_none_iff_exists'.1 h
  obtain ⟨h',hw⟩ := HeapFile.writePage_eq_some (q := f.page) hp
  simp [writeFrame,hw,HeapFile.readPage_writePage hw,eq_comm]

theorem Env.effect (hb : ∀ k pid f, s.frame k pid = some f → s.diskPage k pid ≠ none)
    (he : e ≠ .checkpoint) (h : s.Env e s') : EnvEffect s e s' := by
  have hdisk : ∀ {k : TableKey} {pid : PageID} {t : Table} {f : Frame}, s.tables k = some t →
      t.frames pid = some f → ∀ k' pid', (s.setTable k (t.writeFrame pid f)).diskPage k' pid' =
        if k' = k ∧ pid' = pid then some f.page else s.diskPage k' pid' := by
    intro k pid t f ht hf k' pid'
    have hread := hb k pid f (by rw [frame_eq ht]; exact hf)
    rw [diskPage_eq ht] at hread
    rw [diskPage_setTable]
    by_cases hk : k' = k
    · subst hk
      simp [readPage_writeFrame hread,diskPage_eq ht]
    · simp [hk]
  have hnone : ∀ {k : TableKey} {pid : PageID} {t t' : Table}, s.tables k = some t → t'.frames = t.frames →
      ∀ k' pid', (s.setTable k (t'.setFrame pid none)).frame k' pid' =
        if k' = k ∧ pid' = pid then none else s.frame k' pid' := by
    intro k pid t t' ht hfr k' pid'
    rw [frame_setTable]
    by_cases hk : k' = k
    · subst hk
      simp [frame_eq ht,hfr]
    · simp [hk]
  cases h with
  | sync hle hn => exact .sync (sameFrames_of_tables rfl) rfl rfl hle hn
  | @flushPage k pid t f ht hf hd =>
    refine .flush (by rw [frame_eq ht]; exact hf) hd (fun k' pid' => ?_) (hdisk ht hf) rfl rfl
    rw [frame_setTable]
    by_cases hk : k' = k
    · subst hk
      simp [writeFrame,frame_eq ht]
    · simp [hk]
  | @evictClean k pid t f ht hf hp hd =>
    refine .drop (by rw [frame_eq ht]; exact hf) hp hd (hnone ht rfl) (fun k' pid' => ?_) rfl rfl
    rw [diskPage_setTable]
    split
    · rename_i hk
      subst hk
      simp [diskPage_eq ht]
    · rfl
  | @evictDirty k pid t f ht hf hp hd =>
    refine .evict (by rw [frame_eq ht]; exact hf) hp hd (fun k' pid' => ?_) (fun k' pid' => ?_) rfl rfl
    · show (s.setTable k ((t.writeFrame pid f).setFrame pid none)).frame k' pid' = _
      rw [frame_setTable]
      by_cases hk : k' = k
      · subst hk
        by_cases hp : pid' = pid <;> simp [writeFrame,frame_eq ht,hp]
      · simp [hk]
    · have hset := hdisk ht hf k' pid'
      rw [diskPage_setTable] at hset
      show (s.setTable k ((t.writeFrame pid f).setFrame pid none)).diskPage k' pid' = _
      rw [diskPage_setTable]
      exact hset
  | checkpoint => exact absurd rfl he

end Engine

inductive PageEffect (pid : PageID) : (c : Cmd) → c.Res → Option Page → Option Page → Prop where
  | same {c : Cmd} {r : c.Res} {p : Option Page} : PageEffect pid c r p p
  | init : PageEffect pid .allocatePage (some pid) none (some Page.init)
  | insert {t : Tuple} {slot : Nat} {p q : Page} : p.insertTuple t = some (q,slot) →
      PageEffect pid (.insertTuple pid t) (some slot) (some p) (some q)
  | hot {slot n : Nat} {p : Page} : PageEffect pid (.setHOTUpdated ⟨pid,slot⟩ n) () (some p)
      (some (p.modifyTuple slot (·.setHOTUpdated n)))
  | stamp {slot x : Nat} {p : Page} : PageEffect pid (.putXMax ⟨pid,slot⟩ x) true (some p)
      (some (p.modifyTuple slot (·.setXMax x)))
  | clear {slot : Nat} {p : Page} : PageEffect pid (.clearXMax ⟨pid,slot⟩) true (some p)
      (some (p.modifyTuple slot (·.setXMax 0)))

inductive SlotEffect (loc : PageSlot) : (c : Cmd) → c.Res → Option Tuple → Option Tuple → Prop where
  | same {c : Cmd} {r : c.Res} {o : Option Tuple} : SlotEffect loc c r o o
  | insert {t : Tuple} : SlotEffect loc (.insertTuple loc.pid t) (some loc.slot) none (some t)
  | hot {n : Nat} {t : Tuple} : SlotEffect loc (.setHOTUpdated loc n) () (some t) (some (t.setHOTUpdated n))
  | stamp {x : Nat} {t : Tuple} : SlotEffect loc (.putXMax loc x) true (some t) (some (t.setXMax x))
  | clear {t : Tuple} : SlotEffect loc (.clearXMax loc) true (some t) (some (t.setXMax 0))

section
variable {s s' : Engine} {c : Cmd} {r : c.Res} {k' : TableKey} (h : s.Effect i k c r s')
include h
theorem Engine.Effect.otherFrame (hk : k' ≠ k) (pid : PageID) :
    s'.frame k' pid = s.frame k' pid ∧ s'.diskPage k' pid = s.diskPage k' pid := by
  cases h with
  | still _ hf | absent _ _ hf | log _ _ hf | logFail _ hf => exact ⟨hf.frame k' pid,hf.disk k' pid⟩
  | fetch hf => exact ⟨by simp [hf.frame,hk],hf.disk k' pid⟩
  | allocate _ _ _ hf hd => exact ⟨by simp [hf,hk],by simp [hd,hk]⟩
  | insert _ _ hf | hot _ hf | unpin _ hf | unpinDirty _ hf => exact ⟨by simp [hf.frame,hk],hf.disk k' pid⟩
  | stamp _ _ _ _ hf | clear _ _ _ _ hf => exact ⟨by simp [hf.frame,hk],hf.disk k' pid⟩

theorem Engine.Effect.page (pid : PageID) : PageEffect pid c r (s.page k pid) (s'.page k pid) := by
  have hset : ∀ {pid' : PageID} {f : Frame}, Engine.FrameSet k pid' f s s' →
      (pid = pid' → PageEffect pid c r (s.page k pid) (some f.page)) →
      PageEffect pid c r (s.page k pid) (s'.page k pid) := by
    intro pid' f hf hp
    rw [hf.page k pid]
    by_cases hpid : pid = pid'
    · rw [if_pos ⟨rfl,hpid⟩]
      exact hp hpid
    · rw [if_neg fun hk => hpid hk.2]
      exact .same
  cases h with
  | still _ hf | absent _ _ hf | log _ _ hf | logFail _ hf =>
    rw [hf.page]
    exact .same
  | fetch hf hp =>
    refine hset hf ?_
    rintro rfl
    rw [hp]
    exact .same
  | @allocate pid' _ _ hd hn hor hf hd' =>
    rw [page_allocate hor hf hd']
    by_cases hpid : pid = pid'
    · subst hpid
      rw [if_pos ⟨rfl,rfl⟩,page_of_no_frame hn,hd]
      exact .init
    · rw [if_neg fun hk => hpid hk.2]
      exact .same
  | insert hfr hp hf =>
    refine hset hf ?_
    rintro rfl
    rw [page_of_frame hfr]
    exact .insert hp
  | @hot loc _ _ _ hfr hf =>
    refine hset hf ?_
    rintro rfl
    rw [page_of_frame hfr]
    exact .hot
  | unpin hfr hf | unpinDirty hfr hf =>
    refine hset hf ?_
    rintro rfl
    rw [page_of_frame hfr]
    exact .same
  | stamp hp hpage _ _ hf =>
    refine hset hf ?_
    rintro rfl
    rw [hp,hpage]
    exact .stamp
  | clear hp hpage _ _ hf =>
    refine hset hf ?_
    rintro rfl
    rw [hp,hpage]
    exact .clear

theorem Engine.Effect.otherPage (hk : k' ≠ k) (pid : PageID) : s'.page k' pid = s.page k' pid := by
  obtain ⟨hf,hd⟩ := h.otherFrame hk pid
  rw [page_eq,page_eq,hf,hd]

theorem Engine.Effect.slot (loc : PageSlot) : SlotEffect loc c r (s.mem k loc) (s'.mem k loc) := by
  have hmod : ∀ {p : Page} {slot : Nat} {m : Tuple → Tuple},
    (∀ t, slot = loc.slot → SlotEffect loc c r (some t) (some (m t))) →
      SlotEffect loc c r (p.getTuple loc.slot) ((p.modifyTuple slot m).getTuple loc.slot) := by
    intro p slot m hm
    rw [Page.getTuple_modifyTuple]
    split
    · rename_i hs
      cases p.getTuple loc.slot with
      | none => exact .same
      | some t => exact hm t hs
    · exact .same
  have hp := h.page loc.pid
  unfold Engine.mem
  generalize s.page k loc.pid = p at hp
  generalize s'.page k loc.pid = q at hp
  cases hp with
  | same => exact .same
  | init => exact .same
  | @insert t slot p q hi =>
    rw [Option.bind_some,Option.bind_some,Page.getTuple_insertTuple hi]
    split
    · rename_i hs
      have hnone : p.getTuple loc.slot = none := by
        cases hg : p.getTuple loc.slot with
        | none => rfl
        | some t' =>
          have := Page.getTuple_lt hg
          have := (Page.insertTuple_eq_some hi).1
          omega
      rw [hnone,← hs]
      exact .insert
    · exact .same
  | hot =>
    refine hmod fun t hs => ?_
    rw [hs]
    exact .hot
  | stamp =>
    refine hmod fun t hs => ?_
    rw [hs]
    exact .stamp
  | clear =>
    refine hmod fun t hs => ?_
    rw [hs]
    exact .clear

theorem Engine.Effect.otherMem (hk : k' ≠ k) (loc : PageSlot) : s'.mem k' loc = s.mem k' loc := by
  unfold Engine.mem
  rw [h.otherPage hk]

theorem Engine.Effect.diskPage (k' : TableKey) (pid : PageID) : s'.diskPage k' pid = s.diskPage k' pid ∨
      (s.diskPage k' pid = none ∧ s'.diskPage k' pid = some Page.init ∧ s'.page k' pid = some Page.init) := by
  cases h with
  | still _ hf | absent _ _ hf | log _ _ hf | logFail _ hf => exact .inl (hf.disk k' pid)
  | fetch hf => exact .inl (hf.disk k' pid)
  | insert _ _ hf | hot _ hf | unpin _ hf | unpinDirty _ hf => exact .inl (hf.disk k' pid)
  | stamp _ _ _ _ hf | clear _ _ _ _ hf => exact .inl (hf.disk k' pid)
  | @allocate pid' _ _ hd hn hor hf hd' =>
    by_cases hk : k' = k ∧ pid = pid'
    · rw [page_allocate hor hf hd',hd',if_pos hk,if_pos hk,hk.1,hk.2]
      exact .inr ⟨hd,rfl,rfl⟩
    · rw [hd',if_neg hk]
      exact .inl rfl
end

theorem ThreadOk.env {s s' : Engine} {g : Watcher}
    (h : ThreadOk s i k g) (hne : e ≠ .checkpoint) (he : s.Env e s') : ThreadOk s' i k g := by
  have hset : ∀ {k' : TableKey} {t t' : Table}, s.tables k' = some t → Table.Alike t t' →
      (∀ pid' f', t'.frames pid' = some f' → ∃ f, t.frames pid' = some f ∧ (i ∈ f.pins → i ∈ f'.pins)) →
      ThreadOk (s.setTable k' t') i k g := by
    intro k' t t' ht ha hf
    by_cases hk : k = k'
    · subst hk
      exact h.setTable ht ha fun pid' f' _ hf' => hf pid' f' hf'
    · exact h.congr_eq (by simp [hk]) fun n hn => hn
  have hdrop : ∀ {t t' : Table} {pid pid' : PageID} {f' : Frame}, t'.frames = t.frames →
      (t'.setFrame pid none).frames pid' = some f' → ∃ f, t.frames pid' = some f ∧ (i ∈ f.pins → i ∈ f'.pins) := by
    intro t t' pid pid' f' hfr hf'
    simp only [frames_setFrame,hfr] at hf'
    split at hf'
    · cases hf'
    · exact ⟨f',hf',id⟩
  cases he with
  | sync => exact h.congr_eq rfl fun n hn => hn
  | @flushPage k' pid t f ht hf =>
    refine hset ht ⟨rfl,rfl,rfl⟩ fun pid' f' hf' => ?_
    simp only [writeFrame,frames_setFrame,frames_setHeap] at hf'
    split at hf'
    · rename_i hp
      subst hp
      obtain rfl := Option.some.inj hf'
      exact ⟨f,hf,id⟩
    · exact ⟨f',hf',id⟩
  | @evictClean k' pid t f ht => exact hset ht ⟨rfl,rfl,rfl⟩ fun pid' f' hf' => hdrop rfl hf'
  | @evictDirty k' pid t f ht =>
    have h' : ThreadOk (s.setTable k' ((t.writeFrame pid f).setFrame pid none)) i k g :=
      hset ht ⟨rfl,rfl,rfl⟩ fun pid' f' hf' => by
        simp only [writeFrame,frames_setFrame,frames_setHeap] at hf'
        split at hf'
        · cases hf'
        · exact ⟨f',hf',id⟩
    exact h'.congr_eq rfl fun n hn => hn
  | checkpoint => exact absurd rfl hne

namespace Steady
variable {s s' : Engine} {ws : List (TableKey × Watcher)}
theorem run (h : Steady s ws) {g : Watcher} (hw : ws[i]? = some (k,g)) (ha : g.allowed c) (hs : s.Shape i k c r s') :
    Steady s' (ws.set i (k,g.next c r)) := by
  have hi := h.thread i k g hw
  constructor
  · intro j k' g' hj
    rw [List.getElem?_set] at hj
    split at hj
    · rename_i hij
      subst hij
      split at hj
      · cases hj
        exact hi.self (h.backed k) ha hs
      · cases hj
    · rename_i hij
      exact (h.thread j k' g' hj).other hi (Ne.symm hij) ha hs
  · have hset : ∀ {pid : PageID} {f : Frame}, Engine.FrameSet k pid f s s' → s.diskPage k pid ≠ none →
        ∀ k' pid' f', s'.frame k' pid' = some f' → s'.diskPage k' pid' ≠ none := by
      intro pid f hf hd k' pid' f' hf'
      rw [hf.disk]
      rw [hf.frame] at hf'
      split at hf'
      · rename_i hk
        rw [hk.1,hk.2]
        exact hd
      · exact h.backed k' pid' f' hf'
    have hsame : Engine.SameFrames s s' → ∀ k' pid' f', s'.frame k' pid' = some f' → s'.diskPage k' pid' ≠ none := by
      intro hf k' pid' f' hf'
      rw [hf.disk]
      rw [hf.frame] at hf'
      exact h.backed k' pid' f' hf'
    have hpage : ∀ {pid : PageID} {p : Page}, s.page k pid = some p → s.diskPage k pid ≠ none := by
      intro pid p hp
      cases hf : s.frame k pid with
      | some f => exact h.backed k pid f hf
      | none =>
        rw [Engine.page_of_no_frame hf] at hp
        simp [hp]
    cases hs.effect (h.backed k) with
    | still _ hf | absent _ _ hf | log _ _ hf | logFail _ hf => exact hsame hf
    | fetch hf hp => exact hset hf (hpage hp)
    | stamp hp _ _ _ hf | clear hp _ _ _ hf => exact hset hf (hpage hp)
    | insert hfr _ hf | hot hfr hf | unpin hfr hf | unpinDirty hfr hf => exact hset hf (h.backed _ _ _ hfr)
    | allocate _ _ _ hf hd =>
      intro k' pid' f' hf'
      rw [hd]
      rw [hf] at hf'
      split
      · simp
      · rename_i hk
        rw [if_neg hk] at hf'
        exact h.backed k' pid' f' hf'

theorem env (h : Steady s ws) (hne : e ≠ .checkpoint) (he : s.Env e s') : Steady s' ws := by
  refine ⟨fun i k g hw => (h.thread i k g hw).env hne he,?_⟩
  cases he.effect h.backed hne with
  | sync hf =>
    intro k pid f hfr
    rw [hf.disk]
    rw [hf.frame] at hfr
    exact h.backed k pid f hfr
  | flush hfr _ hf hd =>
    intro k pid f hf'
    rw [hd]
    rw [hf] at hf'
    split
    · simp
    · rename_i hk
      rw [if_neg hk] at hf'
      exact h.backed k pid f hf'
  | drop hfr _ _ hf hd =>
    intro k pid f hf'
    rw [hd]
    rw [hf] at hf'
    split at hf'
    · cases hf'
    · exact h.backed k pid f hf'
  | evict hfr _ _ hf hd =>
    intro k pid f hf'
    rw [hd]
    rw [hf] at hf'
    split
    · simp
    · rename_i hk
      rw [if_neg hk] at hf'
      exact h.backed k pid f hf'

theorem spawn (h : Steady s ws) (k : TableKey) : Steady s (ws++[(k,({} : Watcher))]) := by
  refine ⟨fun i k' g hw => ?_,h.backed⟩
  rcases thread_concat_cases hw with hw | ⟨-,heq⟩
  · exact h.thread i k' g hw
  · cases heq
    exact ⟨by simp,by simp,by simp,by simp,by simp,by simp⟩

end Steady
end VaultDB.Storage
