import VaultDB.Storage.Crash
import VaultDB.Storage.Files
set_option autoImplicit false

/-!
VACUUM of one table and a crash in the middle of it.

The pages are rebuilt in a directory of their own, which takes the place of the table's:
`_schema.json` and `.indexes.json` go with the old one.
-/

namespace VaultDB.Storage
open Wal Lib HeapFile List Option
variable {p q : Page} {ps : List Page} {shadow : HeapFile} {d : Disk} {h : HeapFile} {n : Nat}
  {dead : Tuple → Bool} {c : Contents} {k : TableKey} {t : Table}
namespace Page

def refill (p : Page) : List Tuple → Option Page
  | [] => some p
  | t :: ts => (p.insertTuple t).bind fun x => x.1.refill ts

def rebuilt (dead : Tuple → Bool) (p : Page) : Option Page := init.refill (p.tuples.filter fun t => !dead t)

theorem tuples_refill {ts : List Tuple} (h : p.refill ts = some q) : q.tuples = p.tuples++ts := by
  induction ts generalizing p with
  | nil =>
    cases h
    simp
  | cons t ts ih =>
    obtain ⟨⟨p',slot⟩,hins,hrest⟩ := bind_eq_some_iff.1 h
    rw [ih hrest,tuples_insertTuple hins]
    simp

theorem tuples_rebuilt (h : p.rebuilt dead = some q) : q.tuples = p.tuples.filter fun t => !dead t := by
  rw [tuples_refill h]
  rfl

end Page

/-- `isDead`: the deletion is committed and older than every active transaction.  The manager
calls no transaction aborted. -/
def isDead (clock : Clock) (oldestActiveXID : Nat) (t : Tuple) : Bool :=
  t.deletedTx != 0 && clock.isCommitted t.deletedTx && t.deletedTx < oldestActiveXID

inductive VacuumPhase where
  | start
  | begun
  | copying (shadow : HeapFile) (flushed : Bool) (pages : Nat)
  | committed (shadow : HeapFile)
  | removed (shadow : HeapFile)
  | renamed (shadow : HeapFile)
  | saved (shadow : HeapFile)
  deriving DecidableEq, Repr

structure Vacuuming where
  engine : Engine
  phase : VacuumPhase

def TableDir.bare (h : HeapFile) : TableDir := ⟨h,none,none⟩

def Vacuuming.disk (v : Vacuuming) (k : TableKey) : Disk :=
  match v.phase with
  | .start | .begun => v.engine.disk
  | .copying shadow _ _ | .committed shadow => v.engine.disk.setVacuumDir k (some (.bare shadow))
  | .removed shadow => (v.engine.disk.setDir k none).setVacuumDir k (some (.bare shadow))
  | .renamed shadow | .saved shadow => v.engine.disk.setDir k (some (.bare shadow))

/-- One step of `Vacuum` on table `k`.  `FlushAll` writes the dirty pages of every table in some
order. -/
inductive VacuumStep (k : TableKey) (dead : Tuple → Bool) : Vacuuming → Vacuuming → Prop where
  | logBegin {s : Engine} : VacuumStep k dead ⟨s,.start⟩ ⟨s.append (.vacuumBegin k),.begun⟩
  | create {s : Engine} : VacuumStep k dead ⟨s,.begun⟩ ⟨s,.copying .create false 0⟩
  | flushPage {s s' : Engine} {shadow : HeapFile} {k' : TableKey} {pid : PageID} : s.Env (.flushPage k' pid) s' →
      VacuumStep k dead ⟨s,.copying shadow false 0⟩ ⟨s',.copying shadow false 0⟩
  | flushed {s : Engine} {shadow : HeapFile} : (∀ k' pid f, s.frame k' pid = some f → f.dirty = false) →
      VacuumStep k dead ⟨s,.copying shadow false 0⟩ ⟨s,.copying shadow true 0⟩
  | copyPage {s : Engine} {shadow shadow' : HeapFile} {g n : Nat} {p q : Page} :
      ((s.tables k).bind fun t => t.dir.heap.pageCount) = some n → g < n → s.diskPage k (pageIDAt g) = some p →
      p.rebuilt dead = some q → shadow.writePage (pageIDAt g) q = some shadow' →
      VacuumStep k dead ⟨s,.copying shadow true g⟩ ⟨s,.copying shadow' true (g+1)⟩
  | logCommit {s : Engine} {shadow : HeapFile} {n : Nat} :
      ((s.tables k).bind fun t => t.dir.heap.pageCount) = some n →
      VacuumStep k dead ⟨s,.copying shadow true n⟩ ⟨s.append (.vacuumCommit k),.committed shadow⟩
  | removeAll {s : Engine} {shadow : HeapFile} : VacuumStep k dead ⟨s,.committed shadow⟩ ⟨s,.removed shadow⟩
  | rename {s : Engine} {shadow : HeapFile} : VacuumStep k dead ⟨s,.removed shadow⟩ ⟨s,.renamed shadow⟩
  | saveCatalog {s : Engine} {shadow : HeapFile} :
      VacuumStep k dead ⟨s,.renamed shadow⟩
        ⟨{ s with savedTx := s.catalogTx },.saved shadow⟩

inductive VacuumRun (k : TableKey) (dead : Tuple → Bool) (v : Vacuuming) : Vacuuming → Prop where
  | refl : VacuumRun k dead v v
  | step {v₁ v₂ : Vacuuming} : VacuumRun k dead v v₁ → VacuumStep k dead v₁ v₂ → VacuumRun k dead v v₂

/-- Recovery brings the table back with this schema, these index definitions and these rows. -/
def Restored (d : Disk) (w : List Entry) (order : List Nat) (k : TableKey) (schema : Option TableSchema)
    (indexes : Option (List IndexDef)) (rows : List (List UInt8)) : Prop :=
  ∃ st dir ts, recoverFromWAL d w order = .ok st ∧ st.opened k = true ∧ st.disk.dir k = some dir ∧
    dir.schema = schema ∧ dir.indexes = indexes ∧ dir.tuples = some ts ∧ visibleRows st.clock ts = rows

structure Table.Cached (t : Table) : Prop where
  readable : ∀ pid f, t.frames pid = some f → t.dir.heap.readPage pid ≠ none
  clean : ∀ pid f, t.frames pid = some f → f.dirty = false → t.dir.heap.readPage pid = some f.page

variable {v v' : Vacuuming}
theorem HeapFile.Packed.of_shape {h' : HeapFile} (hp : h.Packed n) (hs : h'.shape = h.shape) : h'.Packed n := by
  obtain ⟨segs,seg,hsegs,hfull,hle,hfew,rfl⟩ := hp
  rw [shape,shape,hsegs,map_append] at hs
  obtain ⟨segs',rest,hsegs',hmap,hrest⟩ := map_eq_append_iff.1 hs
  obtain ⟨seg',rfl,hlen⟩ : ∃ seg', rest = [seg'] ∧ seg'.length = seg.length := by
    simpa [map_eq_singleton_iff] using hrest
  have hcount : segs'.length = segs.length := by simpa using congrArg List.length hmap
  refine ⟨segs',seg',hsegs',?_,by omega,by omega,by rw [hcount,hlen]⟩
  intro x hx
  have hmem : x.length ∈ segs.map List.length := hmap ▸ mem_map_of_mem hx
  obtain ⟨y,hy,hxy⟩ := mem_map.1 hmem
  rw [← hxy,hfull y hy]

namespace Table
variable {t : Table} {c : Contents} {pid : PageID} {f : Frame}
theorem Holds.writeFrame (h : t.Holds c) (hc : t.Cached) (hf : t.frames pid = some f) :
    (t.writeFrame pid f).Holds c := by
  obtain ⟨p,hp⟩ := ne_none_iff_exists'.1 (hc.readable pid f hf)
  obtain ⟨h',hw⟩ := writePage_eq_some (q := f.page) hp
  refine ⟨h.info,?_,?_⟩
  · have hshape : (t.writeFrame pid f).dir.heap.shape = t.dir.heap.shape := by
      simpa [Table.writeFrame,hw] using shape_writePage hp hw
    exact h.heap.of_shape hshape
  · intro pid'
    rw [Table.writeFrame,page_setFrame_some,← h.page]
    by_cases he : pid' = pid
    · simp [he,page_eq_frame hf]
    · rw [if_neg he]
      simp only [Table.page,frames_setHeap]
      cases t.frames pid' with
      | some f' => rfl
      | none => simp [Table.setHeap,hw,readPage_writePage hw,Ne.symm he]

theorem Cached.writeFrame (hc : t.Cached) (hf : t.frames pid = some f) : (t.writeFrame pid f).Cached := by
  have hread := hc.readable pid f hf
  constructor
  · intro pid' f' hf'
    rw [Engine.readPage_writeFrame hread]
    split
    · simp
    · rename_i he
      simp only [Table.writeFrame,frames_setFrame,frames_setHeap,if_neg he] at hf'
      exact hc.readable pid' f' hf'
  · intro pid' f' hf' hclean
    rw [Engine.readPage_writeFrame hread]
    simp only [Table.writeFrame,frames_setFrame,frames_setHeap] at hf'
    split at hf'
    · rename_i he
      cases hf'
      simp [he]
    · rename_i he
      rw [if_neg he]
      exact hc.clean pid' f' hf' hclean

theorem Cached.readPage (hc : t.Cached) (hall : ∀ f, t.frames pid = some f → f.dirty = false) :
    t.dir.heap.readPage pid = t.page pid := by
  cases hf : t.frames pid with
  | none => exact (page_eq_heap hf).symm
  | some f => rw [page_eq_frame hf,hc.clean pid f hf (hall f hf)]

end Table

def Copied (dead : Tuple → Bool) (ps : List Page) (shadow : HeapFile) : Prop :=
  ∃ qs, ps.mapM (Page.rebuilt dead) = some qs ∧ shadow = ⟨[qs.map some]⟩ ∧ qs.length ≤ pagesPerSegment

def VacuumPhase.Holds (dead : Tuple → Bool) (ps : List Page) : VacuumPhase → Prop
  | .start | .begun => True
  | .copying shadow flushed g => (flushed = false → g = 0) ∧ g ≤ ps.length ∧ Copied dead (ps.take g) shadow
  | .committed shadow | .removed shadow | .renamed shadow | .saved shadow => Copied dead ps shadow

def VacuumPhase.isFlushed : VacuumPhase → Bool
  | .start | .begun => false
  | .copying _ flushed _ => flushed
  | _ => true

structure VacuumInv (k : TableKey) (dead : Tuple → Bool) (t : Table) (c : Contents) (v : Vacuuming) : Prop where
  phase : v.phase.Holds dead c.pages
  table : ∃ t', v.engine.tables k = some t' ∧ t'.Holds c ∧ t'.Cached ∧ t'.dir.schema = t.dir.schema ∧
    t'.dir.indexes = t.dir.indexes ∧ (v.phase.isFlushed = true → ∀ pid f, t'.frames pid = some f → f.dirty = false)

theorem Copied.create (dead : Tuple → Bool) : Copied dead [] .create := ⟨[],rfl,rfl,by simp⟩

theorem Copied.writePage {shadow' : HeapFile} (h : Copied dead ps shadow) (hp : p.rebuilt dead = some q)
    (hw : shadow.writePage (pageIDAt ps.length) q = some shadow') : Copied dead (ps++[p]) shadow' := by
  obtain ⟨qs,hqs,rfl,hle⟩ := h
  have hlength := length_mapM hqs
  have hroom : qs.length < pagesPerSegment := by
    by_contra hfull
    have hseg : (pageIDAt ps.length).segmentNo = 1 := by
      simp only [pageIDAt,pagesPerSegment,maxSegments] at *
      omega
    simp [writePage,hseg] at hw
  have hpid : pageIDAt ps.length = ⟨0,qs.length⟩ := by
    simp only [pageIDAt,pagesPerSegment,maxSegments,PageID.mk.injEq] at *
    omega
  rw [hpid] at hw
  simp only [writePage,length_singleton,Nat.zero_lt_one,if_true,some.injEq] at hw
  refine ⟨qs++[q],?_,?_,?_⟩
  · simp [mapM_append,hqs,hp]
  · rw [← hw]
    simp [Segment.writeAt]
  · rw [length_append]
    exact hroom

theorem pageCount_eq {s : Engine} (ht : s.tables k = some t)
    (h : t.Holds c) (hn : ((s.tables k).bind fun t => t.dir.heap.pageCount) = some n) : n = c.pages.length := by
  rw [ht,bind_some,h.heap.pageCount] at hn
  split at hn
  · cases hn
  · exact (some.inj hn).symm

theorem VacuumInv.step (h : VacuumInv k dead t c v) (hs : VacuumStep k dead v v') : VacuumInv k dead t c v' := by
  obtain ⟨hphase,t',ht,hholds,hcached,hschema,hindexes,hflushed⟩ := h
  cases hs with
  | logBegin => exact ⟨trivial,t',ht,hholds,hcached,hschema,hindexes,nofun⟩
  | create => exact ⟨⟨fun _ => rfl,Nat.zero_le _,.create dead⟩,t',ht,hholds,hcached,hschema,hindexes,nofun⟩
  | @flushPage s s' shadow k' pid he =>
    refine ⟨hphase,?_⟩
    cases he with
    | @flushPage _ _ t0 f ht0 hf hd =>
      simp only at ht
      by_cases hk : k = k'
      · subst hk
        obtain rfl := some.inj (ht.symm.trans ht0)
        exact ⟨t'.writeFrame pid f,by simp [Engine.setTable],hholds.writeFrame hcached hf,hcached.writeFrame hf,
          hschema,hindexes,nofun⟩
      · exact ⟨t',by simpa [Engine.setTable,hk] using ht,hholds,hcached,hschema,hindexes,nofun⟩
  | flushed hall =>
    refine ⟨⟨nofun,hphase.2.1,hphase.2.2⟩,t',ht,hholds,hcached,hschema,hindexes,?_⟩
    intro _ pid f hf
    simp only at ht
    exact hall k pid f (by simp [Engine.frame,ht,hf])
  | @copyPage s shadow shadow' g n p q hn hg hp hq hw =>
    simp only at ht
    have hcount : n = c.pages.length := pageCount_eq ht hholds hn
    have hread : c.pages[g]? = some p := by
      have hpage : t'.dir.heap.readPage (pageIDAt g) = some p := by simpa [Engine.diskPage,ht] using hp
      rw [hcached.readPage (hflushed rfl _),hholds.page] at hpage
      rwa [c.page_pageIDAt (by have := c.few; omega)] at hpage
    refine ⟨⟨nofun,by omega,?_⟩,t',ht,hholds,hcached,hschema,hindexes,hflushed⟩
    rw [take_add_one,hread]
    have hlen : (c.pages.take g).length = g := by
      rw [length_take]
      omega
    exact hphase.2.2.writePage hq (by rwa [hlen])
  | @logCommit s shadow n hn =>
    simp only at ht
    have hcount : n = c.pages.length := pageCount_eq ht hholds hn
    have hcopied := hphase.2.2
    rw [hcount,take_length] at hcopied
    exact ⟨hcopied,t',ht,hholds,hcached,hschema,hindexes,fun _ => hflushed rfl⟩
  | removeAll | rename => exact ⟨hphase,t',ht,hholds,hcached,hschema,hindexes,hflushed⟩
  | saveCatalog => exact ⟨hphase,t',ht,hholds,hcached,hschema,hindexes,hflushed⟩

theorem VacuumRun.inv (h : VacuumInv k dead t c v) (hr : VacuumRun k dead v v') : VacuumInv k dead t c v' := by
  induction hr with
  | refl => exact h
  | step _ hs ih => exact ih.step hs

theorem flatMap_rebuilt {qs : List Page} (h : ps.mapM (Page.rebuilt dead) = some qs) :
    qs.flatMap Page.tuples = (ps.flatMap Page.tuples).filter fun t => !dead t := by
  induction ps generalizing qs with
  | nil =>
    cases h
    rfl
  | cons p ps ih =>
    simp only [mapM_cons,bind_eq_bind,bind_eq_some_iff] at h
    obtain ⟨q,hq,zs,hzs,h⟩ := h
    cases h
    simp [Page.tuples_rebuilt hq,ih hzs]

theorem Copied.tuples (h : Copied dead ps shadow) (schema : Option TableSchema) (indexes : Option (List IndexDef)) :
    TableDir.tuples ⟨shadow,schema,indexes⟩ = some ((ps.flatMap Page.tuples).filter fun t => !dead t) := by
  obtain ⟨qs,hqs,rfl,hle⟩ := h
  have hcount : pageCount ⟨[qs.map some]⟩ = some qs.length := by
    have hsmall : ¬0xFFFFFFFF < qs.length := by
      simp only [pagesPerSegment] at hle
      omega
    simp [pageCount,hsmall]
  have hread : (List.range qs.length).mapM (fun g => readPage ⟨[qs.map some]⟩ (pageIDAt g)) = some qs := by
    rw [range_eq_range']
    refine mapM_range' fun n q hq => ?_
    have hlt := (List.getElem?_eq_some_iff.1 hq).1
    have hpid : pageIDAt (0+n) = ⟨0,n⟩ := by
      simp only [pageIDAt,pagesPerSegment,maxSegments,PageID.mk.injEq] at *
      omega
    rw [hpid]
    simp [readPage,hq]
  simp only [TableDir.tuples,hcount,bind_some,hread,map_some,flatMap_rebuilt hqs]

theorem openTables_bare :
    (d.setDir k (some (.bare h))).openTables k = false := by simp [Disk.openTables,TableDir.canOpen,TableDir.bare]

section
variable {k : TableKey} {dead : Tuple → Bool} {t : Table} {c : Contents} {w : List Entry} {order : List Nat}
  {schema : Option TableSchema} {indexes : Option (List IndexDef)} {rows : List (List UInt8)}
theorem not_restored_removed (h : d.dir k = none) : ¬Restored d w order k schema indexes rows := by
  rintro ⟨st,dir,ts,hrec,-,hdir,-⟩
  have hclosed : d.openTables k = false := by simp [Disk.openTables,h]
  rw [(RecoveryState.recover_closed hclosed hrec).1,h] at hdir
  cases hdir

theorem restored_renamed_iff (hcopied : Copied dead c.pages shadow) :
    Restored (d.setDir k (some (.bare shadow))) w order k schema indexes rows ↔
      indexes = none ∧ schema ≠ none ∧ RecoveryState.lastSchema k (redoPhase w) = schema ∧
        ∃ st, recoverFromWAL (d.setDir k (some (.bare shadow))) w order = .ok st ∧
          visibleRows st.clock (c.tuples.filter fun t => !dead t) = rows := by
  have hclosed {st : RecoveryState} (hrec : recoverFromWAL (d.setDir k (some (.bare shadow))) w order = .ok st) :
      st.disk.dir k = some ⟨shadow,RecoveryState.lastSchema k (redoPhase w),none⟩ ∧
        st.opened k = (RecoveryState.lastSchema k (redoPhase w)).isSome := by
    obtain ⟨hdir,hopen⟩ := RecoveryState.recover_closed openTables_bare hrec
    have hdir' : st.disk.dir k = some ⟨shadow,RecoveryState.lastSchema k (redoPhase w),none⟩ := by
      simpa [TableDir.bare] using hdir
    have hsegments : shadow.segments.isEmpty = false := by
      obtain ⟨qs,-,rfl,-⟩ := hcopied
      rfl
    refine ⟨hdir',?_⟩
    simp [hopen,Disk.openTables,hdir',TableDir.canOpen,hsegments]
  constructor
  · rintro ⟨st,dir,ts,hrec,hopen,hdir,rfl,rfl,hts,hrows⟩
    obtain ⟨hdir',hopen'⟩ := hclosed hrec
    obtain rfl := some.inj (hdir.symm.trans hdir')
    rw [hcopied.tuples] at hts
    refine ⟨rfl,?_,rfl,st,hrec,?_⟩
    · simpa [hopen',isSome_iff_ne_none] using hopen
    · rw [← hrows,← some.inj hts]
      rfl
  · rintro ⟨rfl,hschema,rfl,st,hrec,hrows⟩
    obtain ⟨hdir,hopen⟩ := hclosed hrec
    exact ⟨st,_,_,hrec,by rw [hopen,isSome_iff_ne_none.2 hschema],hdir,rfl,rfl,hcopied.tuples _ _,hrows⟩
end

/-- A log without page records: what it has since the last checkpoint are commits, VACUUM's own
records and the schemas of tables, as they stand in the files. -/
structure QuietLog (d : Disk) (w : List Entry) : Prop where
  page : ∀ e ∈ w, e.op.slot? = none
  noTruncate : ∀ e ∈ w, ∀ k, e.op ≠ .truncateTable k
  schema : ∀ e ∈ w, ∀ k schema, e.op = .schemaWrite k schema → (d.dir k).bind TableDir.schema = some schema

section
open RecoveryStep RecoveryState
variable {w : List Entry} {order : List Nat} {st : RecoveryState}
theorem recover_quiet (h : ∀ e ∈ w, e.op.slot? = none) (htrunc : ∀ e ∈ w, ∀ k, e.op ≠ .truncateTable k)
    (hdirs : ∀ e ∈ w, ∀ k schema, e.op = .schemaWrite k schema → d.dir k ≠ none) (order : List Nat) :
    ∃ st, recoverFromWAL d w order = .ok st := by
  have hcover : ∀ o ∈ recoverySteps w order, o.entry ∈ w := fun o ho => entry_mem_recoverySteps ho
  have hr : Replayable w (recoveryStart d w) := by
    refine ⟨fun e he k loc hs => ?_,hdirs,htrunc⟩
    rw [h e he] at hs
    cases hs
  have hnone : ∀ k pid, opsOn (k,pid) (recoverySteps w order) = [] := by
    intro k pid
    refine filterMap_eq_nil_iff.2 fun o ho => ?_
    cases hop : o.pageOp with
    | none => rfl
    | some x =>
      obtain ⟨⟨k',pid'⟩,op⟩ := x
      obtain ⟨loc,hloc,-⟩ := slot?_of_pageOp hop
      rw [h _ (hcover o ho)] at hloc
      cases hloc
  obtain ⟨s1,hs1⟩ := replay_runStep_total hr hcover fun k pid p _ => ⟨p,by rw [hnone]; rfl⟩
  exact ⟨_,recoverFromWAL_eq_ok.2 ⟨s1,hs1,rfl⟩⟩

theorem recover_quiet_dir (h : ∀ e ∈ w, e.op.slot? = none) (htrunc : ∀ e ∈ w, ∀ k, e.op ≠ .truncateTable k)
    (hst : recoverFromWAL d w order = .ok st) (k : TableKey) :
    st.disk.dir k = ((d.dir k).map fun t => { t with schema := (lastSchema k (redoPhase w)).or t.schema }) ∧
      st.opened k = (d.openTables k || st.disk.openTables k) := by
  obtain ⟨s1,hs1,rfl⟩ := recoverFromWAL_eq_ok.1 hst
  have hnames : ∀ o ∈ recoverySteps w order, o.heap? ≠ some k := by
    intro o ho hname
    have hw := entry_mem_recoverySteps ho
    unfold RecoveryStep.heap? at hname
    split at hname
    · next hop => simpa [hop,Op.slot?] using h _ hw
    · next hop => simpa [hop,Op.slot?] using h _ hw
    · next k' hop => exact htrunc _ hw k' hop
    · cases hname
  obtain ⟨hopen,hdir⟩ := dir_replay (.inr hnames) hs1
  refine ⟨?_,?_⟩
  · rw [hdir,lastSchema_recoverySteps]
    rfl
  · show (s1.opened k || s1.disk.openTables k) = _
    rw [hopen]
    rfl

theorem recover_clock (hst : recoverFromWAL d w order = .ok st) :
    st.clock.Synced ∧ d.catalogTx ≤ st.clock.txCounter := by
  obtain ⟨s1,hs1,rfl⟩ := recoverFromWAL_eq_ok.1 hst
  obtain ⟨hsync,hle⟩ := recoveryStart_clock d w
  obtain ⟨hsync',hle'⟩ := foldl_advance hsync (recoverySteps w order)
  show s1.clock.Synced ∧ d.catalogTx ≤ s1.clock.txCounter
  rw [(clock_replay hs1).1]
  exact ⟨hsync',hle.trans hle'⟩
end

/-- What VACUUM leaves as it is while no page is dirty. -/
structure Unmoved (k : TableKey) (s : Engine) (v : Vacuuming) : Prop where
  tables : v.engine.tables = s.tables
  catalog : v.engine.catalogTx = s.catalogTx
  saved : s.savedTx ≤ v.engine.savedTx
  log : ∀ e ∈ v.engine.wal, e ∈ s.wal ∨ e.op = .vacuumBegin k ∨ e.op = .vacuumCommit k

section
variable {s : Engine} (hclean : ∀ k pid f, s.frame k pid = some f → f.dirty = false)
include hclean
theorem Unmoved.step (hsaved : s.savedTx ≤ s.catalogTx) (h : Unmoved k s v) (hs : VacuumStep k dead v v') :
    Unmoved k s v' := by
  obtain ⟨htab,hcat,hsave,hlog⟩ := h
  cases hs with
  | logBegin =>
    refine ⟨htab,hcat,hsave,fun e he => ?_⟩
    rcases mem_append.1 he with he | he
    · exact hlog e he
    · rw [mem_singleton.1 he]
      exact .inr (.inl rfl)
  | logCommit =>
    refine ⟨htab,hcat,hsave,fun e he => ?_⟩
    rcases mem_append.1 he with he | he
    · exact hlog e he
    · rw [mem_singleton.1 he]
      exact .inr (.inr rfl)
  | @flushPage _ _ _ k' pid he =>
    cases he with
    | @flushPage _ _ t f ht hf hd =>
      rw [hclean k' pid f (by simp only at htab; rw [Engine.frame,← htab,ht]; exact hf)] at hd
      cases hd
  | saveCatalog => exact ⟨htab,hcat,by simp only at hcat ⊢; omega,hlog⟩
  | create | flushed | copyPage | removeAll | rename => exact ⟨htab,hcat,hsave,hlog⟩

theorem Unmoved.run (hsaved : s.savedTx ≤ s.catalogTx) (h : VacuumRun k dead ⟨s,.start⟩ v) : Unmoved k s v := by
  induction h with
  | refl => exact ⟨rfl,rfl,le_refl _,fun e he => .inl he⟩
  | step _ hs ih => exact ih.step hclean hsaved hs
end

theorem Unmoved.quiet {s : Engine} (h : Unmoved k s v) (hlog : QuietLog s.disk s.wal) (n : Nat) :
    QuietLog s.disk (v.engine.wal.take n) := by
  refine ⟨fun e he => ?_,fun e he k' => ?_,fun e he k' schema hop => ?_⟩
  · rcases h.log e (mem_of_mem_take he) with he | he | he
    · exact hlog.page e he
    · rw [he]
      rfl
    · rw [he]
      rfl
  · rcases h.log e (mem_of_mem_take he) with he | he | he
    · exact hlog.noTruncate e he k'
    · rw [he]
      nofun
    · rw [he]
      nofun
  · rcases h.log e (mem_of_mem_take he) with he | he | he
    · exact hlog.schema e he k' schema hop
    · rw [he] at hop
      cases hop
    · rw [he] at hop
      cases hop

/-- With every stored id at most the counter, the visible rows are those without a stamp. -/
theorem visibleRows_eq {clock : Clock} {ts : List Tuple} {m : Nat} (hids : ∀ u ∈ ts, u.xmin ≤ m ∧ u.deletedTx ≤ m)
    (hm : m < 2^48) (hsync : clock.Synced) (hle : m ≤ clock.txCounter) :
    visibleRows clock ts = (ts.filter fun u => u.deletedTx = 0).map Tuple.data := by
  refine congrArg (List.map Tuple.data) (filter_congr fun u hu => ?_)
  obtain ⟨hmin,hmax⟩ := hids u hu
  by_cases hd : u.deletedTx = 0
  · rw [Clock.visible_of_live hsync (hmin.trans hle) hd]
    simp [hd]
  · rw [Clock.not_visible_of_deleted hsync (by omega) (hmax.trans hle) (by omega)]
    simp [hd]

theorem tuples_of_holds (h : t.Holds c) (hcached : t.Cached)
    (hclean : ∀ pid f, t.frames pid = some f → f.dirty = false)
    (hcount : c.pages.length ≤ 0xFFFFFFFF) : t.dir.tuples = some c.tuples := by
  have hread : (List.range c.pages.length).mapM (fun g => t.dir.heap.readPage (pageIDAt g)) = some c.pages := by
    rw [range_eq_range']
    refine mapM_range' fun n p hp => ?_
    have hlt := (List.getElem?_eq_some_iff.1 hp).1
    rw [hcached.readPage (hclean _),h.page,Nat.zero_add,c.page_pageIDAt (Nat.lt_of_lt_of_le hlt h.heap.le),hp]
  rw [TableDir.tuples,h.heap.pageCount,if_neg (Nat.not_lt.2 hcount),bind_some,hread]
  rfl

theorem lastSchema_cons (e : Entry) (w : List Entry) : RecoveryState.lastSchema k (redoPhase (e :: w)) =
    (RecoveryState.lastSchema k (redoPhase w)).or (match e.op with
      | .schemaWrite k' schema => if k' = k then some schema else none
      | _ => none) := by
  obtain ⟨x,op⟩ := e
  cases op <;> rfl

theorem mem_of_lastSchema {w : List Entry} {schema : TableSchema}
    (h : RecoveryState.lastSchema k (redoPhase w) = some schema) : ∃ e ∈ w, e.op = .schemaWrite k schema := by
  induction w with
  | nil => cases h
  | cons e w ih =>
    rw [lastSchema_cons,or_eq_some_iff] at h
    rcases h with h | ⟨-,h⟩
    · obtain ⟨e',he',hop⟩ := ih h
      exact ⟨e',mem_cons_of_mem _ he',hop⟩
    · split at h
      · next k' schema' hop =>
        split at h
        · next hk =>
          cases h
          exact ⟨e,mem_cons_self,hk ▸ hop⟩
        · cases h
      · cases h

theorem lastSchema_ne_none {w : List Entry} {e : Entry} {schema : TableSchema} (he : e ∈ w)
    (hop : e.op = .schemaWrite k schema) : RecoveryState.lastSchema k (redoPhase w) ≠ none := by
  induction w with
  | nil => cases he
  | cons e' w ih =>
    rw [lastSchema_cons,ne_eq,or_eq_none_iff]
    rintro ⟨hrest,hhead⟩
    rcases mem_cons.1 he with rfl | he
    · simp [hop] at hhead
    · exact ih he hrest

/-- What the log says of the schema is what the file has. -/
theorem QuietLog.lastSchema {w : List Entry} {schema : TableSchema} (h : QuietLog d w)
    (hdir : (d.dir k).bind TableDir.schema = some schema) :
    (RecoveryState.lastSchema k (redoPhase w)).or (some schema) = some schema ∧
      (RecoveryState.lastSchema k (redoPhase w) = some schema ↔ ∃ e ∈ w, ∃ sch, e.op = .schemaWrite k sch) := by
  cases hlast : RecoveryState.lastSchema k (redoPhase w) with
  | none =>
    refine ⟨rfl,nofun,?_⟩
    rintro ⟨e,he,sch,hop⟩
    exact absurd hlast (lastSchema_ne_none he hop)
  | some sch =>
    obtain ⟨e,he,hop⟩ := mem_of_lastSchema hlast
    have hsch := h.schema e he k sch hop
    rw [hdir] at hsch
    cases hsch
    exact ⟨rfl,fun _ => ⟨e,he,schema,hop⟩,fun _ => rfl⟩

def VacuumPhase.beforeRemoval : VacuumPhase → Bool
  | .start | .begun | .copying _ _ _ | .committed _ => true
  | _ => false

def VacuumPhase.afterRename : VacuumPhase → Bool
  | .renamed _ | .saved _ => true
  | _ => false

section
variable {s : Engine} {schema : TableSchema} {w : List Entry} {order : List Nat}
/-- VACUUM of a table that can be scanned, when the last checkpoint has left no dirty page and no
page record, and the saved catalog knows every stored id. -/
structure Checkpointed (s : Engine) (k : TableKey) (t : Table) (c : Contents) (schema : TableSchema) : Prop where
  table : s.tables k = some t
  holds : t.Holds c
  cached : t.Cached
  schema : t.dir.schema = some schema
  pages : c.pages.length ≤ 0xFFFFFFFF
  clean : ∀ k pid f, s.frame k pid = some f → f.dirty = false
  log : QuietLog s.disk s.wal
  ids : ∀ u ∈ c.tuples, u.xmin ≤ s.savedTx ∧ u.deletedTx ≤ s.savedTx
  clock : s.clock.Synced ∧ s.savedTx ≤ s.clock.txCounter ∧ s.savedTx ≤ s.catalogTx ∧ s.savedTx < 2^48

namespace Checkpointed
variable (hs : Checkpointed s k t c schema)
include hs
theorem dir : s.disk.dir k = some t.dir := by
  show (s.tables k).map Table.dir = _
  rw [hs.table]
  rfl

theorem dir_schema : (s.disk.dir k).bind TableDir.schema = some schema := by
  rw [hs.dir,bind_some,hs.schema]

theorem rows {clock : Clock} (hdead : ∀ u, dead u = true → u.deletedTx ≠ 0) (hsync : clock.Synced)
    (hle : s.savedTx ≤ clock.txCounter) : visibleRows clock (c.tuples.filter fun u => !dead u) =
    visibleRows s.clock c.tuples := by
  rw [visibleRows_eq hs.ids hs.clock.2.2.2 hs.clock.1 hs.clock.2.1,
    visibleRows_eq (fun u hu => hs.ids u (mem_filter.1 hu).1) hs.clock.2.2.2 hsync hle,List.filter_filter]
  refine congrArg (List.map Tuple.data) (filter_congr fun u _ => ?_)
  cases hd : dead u with
  | false => simp
  | true => simp [hdead u hd]

theorem restored_before {d : Disk} (hdirs : d.dir = s.disk.dir) (hcat : s.savedTx ≤ d.catalogTx)
    (hq : QuietLog s.disk w) :
    Restored d w order k t.dir.schema t.dir.indexes (visibleRows s.clock c.tuples) := by
  obtain ⟨st,hst⟩ := recover_quiet (d := d) hq.page hq.noTruncate (fun e he k' sch hop hnone => by
    have := hq.schema e he k' sch hop
    rw [← hdirs,hnone] at this
    cases this) order
  obtain ⟨hdir,hopen⟩ := recover_quiet_dir hq.page hq.noTruncate hst k
  obtain ⟨hsync,hle⟩ := recover_clock hst
  rw [hdirs,hs.dir,map_some,hs.schema,(hq.lastSchema hs.dir_schema).1,← hs.schema] at hdir
  have hsegments : t.dir.heap.segments.isEmpty = false := by
    obtain ⟨segs,seg,hsegs,-⟩ := hs.holds.heap
    simp [hsegs]
  refine ⟨st,t.dir,c.tuples,hst,?_,hdir,rfl,rfl,?_,?_⟩
  · simp [hopen,Disk.openTables,hdirs,hs.dir,TableDir.canOpen,hsegments,hs.schema]
  · exact tuples_of_holds hs.holds hs.cached (fun pid f hf =>
      hs.clean k pid f (by rw [Engine.frame,hs.table]; exact hf)) hs.pages
  · rw [← hs.rows (fun _ h => absurd h Bool.false_ne_true) hsync (hcat.trans hle)]
    simp

theorem restored_after {d : Disk} (hcopied : Copied dead c.pages shadow)
    (hdead : ∀ u, dead u = true → u.deletedTx ≠ 0)
    (hdirs : d.dir = s.disk.dir) (hcat : s.savedTx ≤ d.catalogTx) (hq : QuietLog s.disk w) :
    Restored (d.setDir k (some (.bare shadow))) w order k t.dir.schema t.dir.indexes (visibleRows s.clock c.tuples) ↔
      t.dir.indexes = none ∧ ∃ e ∈ w, ∃ sch, e.op = .schemaWrite k sch := by
  rw [restored_renamed_iff hcopied,hs.schema,(hq.lastSchema hs.dir_schema).2]
  refine and_congr_right fun _ => ⟨fun hr => hr.2.1,fun hrec => ⟨nofun,hrec,?_⟩⟩
  obtain ⟨st,hst⟩ := recover_quiet (d := d.setDir k (some (.bare shadow))) hq.page hq.noTruncate
    (fun e he k' sch hop hnone => by
      have := hq.schema e he k' sch hop
      by_cases hk : k' = k
      · simp [Disk.setDir,hk] at hnone
      · simp only [Disk.setDir,if_neg hk,hdirs] at hnone
        rw [hnone] at this
        cases this) order
  obtain ⟨hsync,hle⟩ := recover_clock hst
  exact ⟨st,hst,hs.rows hdead hsync (hcat.trans hle)⟩
end Checkpointed
end

def rowPage : Page := ⟨[.normal ⟨1#64,0,[7]⟩],pageSize-17,by decide,by decide⟩

def storedUsers : Engine :=
  { emptyUsers with
    tables := fun k => if k = users then
        some ⟨⟨⟨[[some rowPage]]⟩,some ⟨[⟨"id","INT",0,false⟩]⟩,some [⟨"by_id",["id"],"btree",false⟩]⟩,1,
          fun _ => none,⟨⟨[⟨"id","INT",0,false⟩]⟩,none,1,1,[]⟩,none⟩
      else none
    clock := ⟨1,2⟩
    catalogTx := 1
    savedTx := 1 }

def storedContents : Contents where
  pages := [rowPage]
  info := ⟨⟨[⟨"id","INT",0,false⟩]⟩,none,1,1,[]⟩
  few := by decide

theorem Table.holds_single (hheap : t.dir.heap = ⟨[[some p]]⟩)
    (hframes : t.frames = fun _ => none) (hpages : c.pages = [p]) (hinfo : t.info = c.info) :
    t.Holds c ∧ t.Cached := by
  have hread : ∀ pid, t.dir.heap.readPage pid = c.page pid := by
    rintro ⟨seg,n⟩
    rcases seg with - | seg
    · cases n <;> simp [hheap,readPage,Contents.page,hpages,pageIndex,pagesPerSegment]
    · have hfar : ¬(seg+1)*pagesPerSegment+n < 1 := by
        simp only [pagesPerSegment]
        omega
      simp [hheap,readPage,Contents.page,hpages,pageIndex,hfar]
  refine ⟨⟨hinfo,?_,fun pid => ?_⟩,fun pid f hf => ?_,fun pid f hf => ?_⟩
  · rw [hheap,hpages]
    exact ⟨[],[some p],rfl,by simp,by simp [pagesPerSegment],by decide,rfl⟩
  · rw [Table.page_eq_heap (by rw [hframes]),hread]
  · simp [hframes] at hf
  · simp [hframes] at hf

def copiedUsers : Vacuuming := ⟨storedUsers.append (.vacuumBegin users),.copying ⟨[[some rowPage]]⟩ true 1⟩

theorem storedUsers_copied (dead : Tuple → Bool) (h : dead ⟨1#64,0,[7]⟩ = false) :
    VacuumRun users dead ⟨storedUsers,.start⟩ copiedUsers := by
  have hbuilt : rowPage.rebuilt dead = some rowPage := by
    simp only [Page.rebuilt,Page.tuples,rowPage,filterMap_cons,Item.tuple?,filterMap_nil,
      filter_cons,h,Bool.not_false,if_true,filter_nil]
    rfl
  have hframes : ∀ k pid f, (storedUsers.append (.vacuumBegin users)).frame k pid = some f → f.dirty = false := by
    intro k pid f hf
    by_cases hk : k = users <;> simp [Engine.frame,Engine.append,storedUsers,hk] at hf
  have hstart : VacuumRun users dead ⟨storedUsers,.start⟩ ⟨storedUsers,.start⟩ := .refl
  have hshadow := ((hstart.step .logBegin).step .create).step (.flushed hframes)
  exact hshadow.step (.copyPage (n := 1) rfl (by decide) rfl hbuilt rfl)

def vacuumedUsers : Vacuuming :=
  ⟨{ (storedUsers.append (.vacuumBegin users)).append (.vacuumCommit users) with savedTx := 1 },
    .saved ⟨[[some rowPage]]⟩⟩

end VaultDB.Storage
