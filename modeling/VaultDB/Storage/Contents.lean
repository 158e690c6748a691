import VaultDB.Storage.Snapshot
set_option autoImplicit false

/-!
One statement at a time, on an engine where nothing fails.

A table is then the list of its pages with the fields kept in memory, and commands on such contents
get the answers the engine gives.
-/

namespace VaultDB.Storage
open Lib List Option Table
variable {n : Nat} {pid : PageID} {p : Page}
def maxPages : Nat := pagesPerSegment*maxSegments
def pageIndex (pid : PageID) : Nat := pid.segmentNo*pagesPerSegment+pid.pageNo

theorem pageIndex_pageIDAt (h : n < maxPages) : pageIndex (pageIDAt n) = n := by
  have hseg : n/pagesPerSegment < maxSegments := by
    simp only [maxPages,pagesPerSegment,maxSegments] at h ⊢
    omega
  rw [pageIndex,pageIDAt,Nat.mod_eq_of_lt hseg,Nat.mul_comm]
  exact Nat.div_add_mod n pagesPerSegment

theorem pageNo_pageIDAt (n : Nat) : (pageIDAt n).pageNo < pagesPerSegment := Nat.mod_lt n (by decide)

theorem pageIDAt_pageIndex (h : pid.pageNo < pagesPerSegment) (hi : pageIndex pid < maxPages) :
    pageIDAt (pageIndex pid) = pid := by
  cases pid with
  | mk seg no =>
    simp only [pageIndex,pageIDAt,maxPages,pagesPerSegment,maxSegments,PageID.mk.injEq] at h hi ⊢
    omega

structure Contents where
  pages : List Page
  info : TableInfo
  few : pages.length ≤ maxPages

namespace Contents
variable {c : Contents}
def page (c : Contents) (pid : PageID) : Option Page :=
  if pid.pageNo < pagesPerSegment then c.pages[pageIndex pid]? else none

def setPage (c : Contents) (pid : PageID) (p : Page) : Contents :=
  ⟨c.pages.set (pageIndex pid) p,c.info,by simpa using c.few⟩

def addPage (c : Contents) (h : c.pages.length < maxPages) : Contents :=
  ⟨c.pages++[Page.init],c.info,by simpa using Nat.succ_le_of_lt h⟩

def pageCount (c : Contents) : Option Nat := if 0xFFFFFFFF < c.pages.length then none else some c.pages.length
def slots (c : Contents) : List (PageSlot × Tuple) :=
  c.pages.zipIdx.flatMap fun x => Table.pageSlots (pageIDAt x.2) x.1

def scanSlots (c : Contents) : List (PageSlot × Tuple) × Bool :=
  if c.pageCount.isSome then (c.slots,true) else ([],false)

def tuple (c : Contents) (loc : PageSlot) : Option Tuple := (c.page loc.pid).bind fun p => p.getTuple loc.slot

theorem page_lt (h : c.page pid = some p) : pid.pageNo < pagesPerSegment ∧ c.pages[pageIndex pid]? = some p := by
  unfold page at h
  split at h
  · exact ⟨‹_›,h⟩
  · cases h

theorem page_pageIDAt (c : Contents) (h : n < maxPages) : c.page (pageIDAt n) = c.pages[n]? := by
  rw [page,if_pos (pageNo_pageIDAt n),pageIndex_pageIDAt h]

theorem page_setPage (q : Page) (h : c.page pid = some p) (pid' : PageID) :
    (c.setPage pid q).page pid' = if pid' = pid then some q else c.page pid' := by
  obtain ⟨hp,hc⟩ := page_lt h
  have hlt := (List.getElem?_eq_some_iff.1 hc).1
  have hn := c.few
  unfold page setPage
  by_cases hp' : pid'.pageNo < pagesPerSegment
  · simp only [hp',if_true,getElem?_set]
    by_cases hi : pageIndex pid = pageIndex pid'
    · have he : pid' = pid := by
        rw [← pageIDAt_pageIndex hp (by omega),← pageIDAt_pageIndex hp' (by omega),hi]
      simp [he,hlt]
    · have he : pid' ≠ pid := fun he => hi (he ▸ rfl)
      simp [hi,he]
  · have he : pid' ≠ pid := fun he => hp' (he ▸ hp)
    simp [hp',he]

theorem page_addPage (hn : c.pages.length < maxPages) (pid : PageID) :
    (c.addPage hn).page pid = if pid = pageIDAt c.pages.length then some Page.init else c.page pid := by
  unfold addPage page
  by_cases hp : pid.pageNo < pagesPerSegment
  · by_cases he : pid = pageIDAt c.pages.length
    · simp [he,pageNo_pageIDAt,pageIndex_pageIDAt hn]
    · have hi : pageIndex pid ≠ c.pages.length := by
        intro hi
        rw [← hi,pageIDAt_pageIndex hp (by omega)] at he
        exact he rfl
      simp only [hp,he,if_true,if_false]
      rcases Nat.lt_or_ge (pageIndex pid) c.pages.length with hlt | hge
      · rw [getElem?_append_left hlt]
      · rw [getElem?_append_right hge,getElem?_eq_none (show c.pages.length ≤ pageIndex pid from hge),
          getElem?_eq_none (by simp; omega)]
  · have he : pid ≠ pageIDAt c.pages.length := fun he => hp (he ▸ pageNo_pageIDAt _)
    simp [hp,he]

end Contents

structure Store where
  table : TableKey → Option Contents
  clock : Clock
  pin : Option PageID

namespace Store

def set (st : Store) (k : TableKey) (c : Contents) : Store :=
  { st with table := fun k' => if k' = k then some c else st.table k' }

@[simp] theorem table_set (st : Store) (k k' : TableKey) (c : Contents) :
    (st.set k c).table k' = if k' = k then some c else st.table k' := rfl
/-- The commands without locks, pool and log.  There is no answer to a command that works on a
page which is not pinned. -/
def exec (k : TableKey) (st : Store) : (c : Cmd) → Option (c.Res × Store)
  | .nextTxID => some (st.clock.txCounter+1,
      { st with clock := ⟨st.clock.txCounter+1,max st.clock.mgrCounter (st.clock.txCounter+2)⟩ })
  | .txClock => some (st.clock,st)
  | .lockTable => some ((st.table k).isSome,st)
  | .relockTable => some ((),st)
  | .unlockTable => some ((),st)
  | .getInfo => (st.table k).map fun c => (c.info,st)
  | .setInfo f => (st.table k).map fun c => ((),st.set k { c with info := f c.info })
  | .scanSlots => (st.table k).map fun c => (c.scanSlots,st)
  | .pageCount => (st.table k).map fun c => (c.pageCount,st)
  | .getTuple loc => (st.table k).map fun c => ((c.page loc.pid).map fun p => p.getTuple loc.slot,st)
  | .lockPage _ => some ((),st)
  | .unlockPage _ => some ((),st)
  | .fetchPage pid => (st.table k).map fun c =>
    if (c.page pid).isSome then (true,{ st with pin := some pid }) else (false,st)
  | .freeSpace pid => (st.table k).map fun c => (((c.page pid).getD Page.init).freeSpace,st)
  | .allocatePage => (st.table k).map fun c =>
    if h : c.pages.length < maxPages then
      (some (pageIDAt c.pages.length),{ st.set k (c.addPage h) with pin := some (pageIDAt c.pages.length) })
    else (none,st)
  | .insertTuple pid t => (st.table k).bind fun c =>
    if st.pin = some pid then (c.page pid).map fun p =>
      match p.insertTuple t with
      | some (q,slot) => (some slot,st.set k (c.setPage pid q))
      | none => (none,st)
    else none
  | .setHOTUpdated loc n => (st.table k).bind fun c =>
    if st.pin = some loc.pid then (c.page loc.pid).map fun p =>
      ((),st.set k (c.setPage loc.pid (p.modifyTuple loc.slot (·.setHOTUpdated n))))
    else none
  | .unpinPage _ _ => some ((),{ st with pin := none })
  | .unpinPageDirty _ _ => some ((),{ st with pin := none })
  | .putXMax loc x => (st.table k).map fun c =>
    match c.page loc.pid with
    | some p => (true,st.set k (c.setPage loc.pid (p.modifyTuple loc.slot (·.setXMax x))))
    | none => (false,st)
  | .clearXMax loc => (st.table k).map fun c =>
    match c.page loc.pid with
    | some p => (true,st.set k (c.setPage loc.pid (p.modifyTuple loc.slot (·.setXMax 0))))
    | none => (false,st)
  | .logInsert txID _ _ => some (some txID,st)
  | .logDelete txID _ => some (some txID,st)
  | .logCommit txID => some (some txID,st)
  | .syncCatalog _ => some ((),st)

end Store

namespace HeapFile
variable {h : HeapFile}
def Packed (h : HeapFile) (n : Nat) : Prop := ∃ segs seg, h.segments = segs++[seg] ∧
  (∀ x ∈ segs, x.length = pagesPerSegment) ∧ seg.length ≤ pagesPerSegment ∧ segs.length < maxSegments ∧
    n = segs.length*pagesPerSegment+seg.length

theorem Packed.le (hp : h.Packed n) : n ≤ maxPages := by
  obtain ⟨segs,seg,-,-,hle,hfew,rfl⟩ := hp
  simp only [maxPages,pagesPerSegment,maxSegments] at *
  omega

theorem Packed.pageCount (hp : h.Packed n) : h.pageCount = if 0xFFFFFFFF < n then none else some n := by
  obtain ⟨segs,seg,hsegs,hfull,-,-,rfl⟩ := hp
  have hcount : (h.segments.map length).sum = segs.length*pagesPerSegment+seg.length := by
    rw [hsegs,map_append,sum_append,map_congr_left hfull]
    simp
  rw [HeapFile.pageCount,hcount]

theorem modify_last {α : Type} (xs : List α) (x : α) (f : α → α) : (xs++[x]).modify xs.length f = xs++[f x] := by
  induction xs with
  | nil => rfl
  | cons y ys ih => simp [ih]

theorem Packed.allocatePage (hp : h.Packed n) :
    if n < maxPages then
      ∃ h', h.allocatePage = some (h',pageIDAt n) ∧ h'.Packed (n+1) else h.allocatePage = none := by
  obtain ⟨segs,seg,hsegs,hfull,hle,hfew,rfl⟩ := hp
  have hlast : h.segments.getLast? = some seg := by simp [hsegs]
  have hlen : h.segments.length = segs.length+1 := by simp [hsegs]
  by_cases hroom : seg.length < pagesPerSegment
  · have hpid : pageIDAt (segs.length*pagesPerSegment+seg.length) = ⟨segs.length,seg.length⟩ := by
      simp only [pageIDAt,pagesPerSegment,maxSegments,PageID.mk.injEq] at *
      omega
    have hnext : h.nextPage = some ⟨segs.length,seg.length⟩ := by simp [nextPage,hlast,hroom,hlen]
    rw [if_pos (by simp only [maxPages,pagesPerSegment,maxSegments] at *; omega),hpid]
    refine ⟨⟨segs++[seg++[some Page.init]]⟩,?_,segs,seg++[some Page.init],rfl,hfull,?_,hfew,?_⟩
    · simp [HeapFile.allocatePage,hnext,withSegment,writePage,hsegs,modify_last,Segment.writeAt]
    · rw [length_append]
      exact hroom
    · simp [Nat.add_assoc]
  · have hseg : seg.length = pagesPerSegment := by omega
    by_cases hmore : segs.length+1 < maxSegments
    · have hpid : pageIDAt (segs.length*pagesPerSegment+seg.length) = ⟨segs.length+1,0⟩ := by
        simp only [pageIDAt,pagesPerSegment,maxSegments,PageID.mk.injEq] at *
        omega
      have hnext : h.nextPage = some ⟨segs.length+1,0⟩ := by simp [nextPage,hlast,hroom,hlen,hmore]
      rw [if_pos (by simp only [maxPages,pagesPerSegment,maxSegments] at *; omega),hpid]
      have hfull' : ∀ x ∈ segs++[seg], x.length = pagesPerSegment := by
        intro x hx
        rcases mem_append.1 hx with hx | hx
        · exact hfull x hx
        · rw [mem_singleton.1 hx,hseg]
      have hadd : ((segs++[seg])++[[]]).modify (segs.length+1) (Segment.writeAt · 0 Page.init) =
          (segs++[seg])++[[some Page.init]] := by
        have := modify_last (segs++[seg]) [] (Segment.writeAt · 0 Page.init)
        rwa [length_append] at this
      refine ⟨⟨(segs++[seg])++[[some Page.init]]⟩,?_,segs++[seg],_,rfl,hfull',by decide,?_,?_⟩
      · simp only [HeapFile.allocatePage,hnext,bind_some,withSegment,hlen,Nat.lt_irrefl,if_false,writePage]
        simp only [hsegs,length_append,length_singleton,Nat.lt_succ_self,if_true,hadd,map_some]
      · rw [length_append]
        exact hmore
      · simp [hseg,Nat.add_mul]
    · have hnext : h.nextPage = none := by simp [nextPage,hlast,hroom,hlen,hmore]
      rw [if_neg (by simp only [maxPages,pagesPerSegment,maxSegments] at *; omega)]
      simp [HeapFile.allocatePage,hnext]

end HeapFile

structure Table.Holds (t : Table) (c : Contents) : Prop where
  info : t.info = c.info
  heap : t.dir.heap.Packed c.pages.length
  page : ∀ pid, t.page pid = c.page pid

namespace Table.Holds
variable {t : Table} {c : Contents}
theorem scanPages {m : Nat} {ps : List Page} (h : ∀ n p, ps[n]? = some p → t.page (pageIDAt (m+n)) = some p) :
    t.scanPages ((List.range' m ps.length).map pageIDAt) =
      ((ps.zipIdx m).flatMap fun x => pageSlots (pageIDAt x.2) x.1,true) := by
  induction ps generalizing m with
  | nil => rfl
  | cons p ps ih =>
    have hp : t.page (pageIDAt m) = some p := h 0 p rfl
    have hps := ih (m := m+1) fun n q hq => by
      have := h (n+1) q hq
      rwa [Nat.add_comm n,← Nat.add_assoc] at this
    simp [range'_succ,Table.scanPages,hp,hps]

section
variable (h : t.Holds c)
include h
theorem scanSlots : t.scanSlots = c.scanSlots := by
  have hcount : t.dir.heap.pageCount = c.pageCount := h.heap.pageCount
  unfold Table.scanSlots Table.pageIDs Contents.scanSlots
  rw [hcount]
  unfold Contents.pageCount
  by_cases hmany : 0xFFFFFFFF < c.pages.length
  · simp only [if_pos hmany,map_none,isSome_none,Bool.false_eq_true,if_false]
  · have hpages : t.scanPages ((range' 0 c.pages.length).map pageIDAt) =
        ((c.pages.zipIdx 0).flatMap fun x => pageSlots (pageIDAt x.2) x.1,true) := scanPages fun n p hp => by
      have hlt := (List.getElem?_eq_some_iff.1 hp).1
      rw [h.page,Nat.zero_add,c.page_pageIDAt (Nat.lt_of_lt_of_le hlt h.heap.le),hp]
    rw [← range_eq_range'] at hpages
    simp only [if_neg hmany,map_some,isSome_some,if_true,hpages]
    rfl

theorem setFrame (hp : c.page pid = some p) (f : Frame) :
    (t.setFrame pid (some f)).Holds (c.setPage pid f.page) where
  info := h.info
  heap := by
    rw [Contents.setPage,length_set]
    exact h.heap
  page pid' := by rw [page_setFrame_some,Contents.page_setPage f.page hp,h.page]

theorem refresh {f : Frame} (hp : t.page pid = some f.page) : (t.setFrame pid (some f)).Holds c where
  info := h.info
  heap := h.heap
  page pid' := by
    rw [page_setFrame_some,← h.page]
    split
    · rename_i he
      rw [he,hp]
    · rfl

theorem modifyFrame (pid : PageID) {m : Frame → Frame} (hm : ∀ f, (m f).page = f.page) :
    (t.modifyFrame pid m).Holds c := by
  rcases t.modifyFrame_cases pid m with ⟨-,he⟩ | ⟨f,hf,he⟩
  · rwa [he]
  · rw [he]
    exact h.refresh (by rw [page_eq_frame hf,hm])

theorem setInfo (f : TableInfo → TableInfo) : Table.Holds { t with info := f t.info }
    { c with info := f c.info } where
  info := by rw [h.info]
  heap := h.heap
  page := h.page

theorem setLock (o : Option Nat) : Table.Holds { t with lockedBy := o } c := { h with }

theorem putXMax (loc : PageSlot) (x : Nat) : match c.page loc.pid with
    | some p =>
      ∃ f, t.putXMax loc x = some (t.setFrame loc.pid (some f)) ∧ f.page = p.modifyTuple loc.slot (·.setXMax x)
    | none => t.putXMax loc x = none := by
  rw [← h.page]
  cases hf : t.frames loc.pid with
  | some f =>
    rw [page_eq_frame hf]
    exact ⟨⟨f.page.modifyTuple loc.slot (·.setXMax x),true,0,f.pins⟩,by simp [Table.putXMax,hf],rfl⟩
  | none =>
    rw [page_eq_heap hf]
    cases hp : t.dir.heap.readPage loc.pid with
    | some p => exact ⟨⟨p.modifyTuple loc.slot (·.setXMax x),true,0,[]⟩,by simp [Table.putXMax,hf,hp],rfl⟩
    | none => simp [Table.putXMax,hf,hp]

theorem fetchPage (i : Nat) (pid : PageID) :
    if (c.page pid).isSome then ∃ f, t.fetchPage i pid = some (t.setFrame pid (some f)) ∧ t.page pid = some f.page
    else t.fetchPage i pid = none := by
  rw [← h.page]
  cases hf : t.frames pid with
  | some f =>
    rw [page_eq_frame hf]
    exact ⟨{ f with pins := i :: f.pins },by simp [Table.fetchPage,hf],rfl⟩
  | none =>
    rw [page_eq_heap hf]
    cases hp : t.dir.heap.readPage pid with
    | some p => exact ⟨⟨p,false,0,[i]⟩,by simp [Table.fetchPage,hf,hp],rfl⟩
    | none => simp [Table.fetchPage,hf,hp]

theorem allocatePage (i : Nat) :
    if hn : c.pages.length < maxPages then ∃ t', t.allocatePage i = some (t',pageIDAt c.pages.length) ∧
      t'.Holds (c.addPage hn) ∧ (∀ pid f, t.frames pid = some f → t'.frames pid = some f) ∧
      t'.frames (pageIDAt c.pages.length) ≠ none
    else t.allocatePage i = none := by
  have hal := h.heap.allocatePage
  split at hal
  · rename_i hn
    rw [dif_pos hn]
    obtain ⟨hf,hal,hpacked⟩ := hal
    have hnone : t.page (pageIDAt c.pages.length) = none := by
      rw [h.page,c.page_pageIDAt hn,getElem?_eq_none (Nat.le_refl _)]
    have hframe : t.frames (pageIDAt c.pages.length) = none := by
      cases hfr : t.frames (pageIDAt c.pages.length) with
      | none => rfl
      | some f =>
        rw [page_eq_frame hfr] at hnone
        cases hnone
    refine ⟨(t.setHeap hf).setFrame (pageIDAt c.pages.length) (some ⟨Page.init,true,0,[i]⟩),
      by simp [Table.allocatePage,hal,hframe],⟨h.info,?_,fun pid => ?_⟩,fun pid f hfr => ?_,by simp⟩
    · simpa [Contents.addPage] using hpacked
    · rw [page_setFrame_some,Contents.page_addPage hn]
      split
      · rfl
      · rename_i hne
        rw [← h.page]
        cases hfr : t.frames pid with
        | some f => rw [page_eq_frame hfr,page_eq_frame (t := t.setHeap hf) hfr]
        | none =>
          rw [page_eq_heap hfr,page_eq_heap (t := t.setHeap hf) hfr,heap_setHeap,(HeapFile.allocatePage_eq hal).2,
            if_neg (Ne.symm hne)]
    · have hne : pid ≠ pageIDAt c.pages.length := by
        rintro rfl
        rw [hframe] at hfr
        cases hfr
      simpa [hne] using hfr
  · rename_i hn
    rw [dif_neg hn]
    simp [Table.allocatePage,hal]
end
end Table.Holds

inductive Holding : Option Table → Option Contents → Prop where
  | none : Holding none none
  | some {t : Table} {c : Contents} : t.Holds c → Holding (some t) (some c)

/-- The engine has the contents of the store, and a page that is pinned there is in the pool. -/
structure Shows (k : TableKey) (s : Engine) (st : Store) : Prop where
  table : ∀ k', Holding (s.tables k') (st.table k')
  clock : s.clock = st.clock
  pin : ∀ pid, st.pin = some pid → s.frame k pid ≠ none

namespace Shows
variable {k : TableKey} {s s' : Engine} {st st' : Store} {t : Table}
section
variable (h : Shows k s st) {t' : Table} {c : Contents} {β : Type}
include h
theorem of_some (ht : s.tables k = some t) : ∃ c, st.table k = some c ∧ t.Holds c := by
  have hk := h.table k
  rw [ht] at hk
  generalize hc : st.table k = o at hk
  cases hk with
  | some hh => exact ⟨_,rfl,hh⟩

theorem of_none (ht : s.tables k = none) : st.table k = none := by
  have hk := h.table k
  rw [ht] at hk
  generalize st.table k = o at hk
  cases hk
  rfl

theorem congr (ht : s'.tables = s.tables) (hc : s'.clock = s.clock) : Shows k s' st where
  table := ht ▸ h.table
  clock := hc.trans h.clock
  pin pid hp := by
    rw [Engine.frame,ht]
    exact h.pin pid hp

theorem unpin : Shows k s { st with pin := none } := ⟨h.table,h.clock,by simp⟩

theorem set (ht : s.tables k = some t) (hh : t'.Holds c)
    (hf : ∀ pid, t.frames pid ≠ none → t'.frames pid ≠ none) : Shows k (s.setTable k t') (st.set k c) where
  table k' := by
    simp only [Engine.tables_setTable,Store.table_set]
    split
    · exact .some hh
    · exact h.table k'
  clock := h.clock
  pin pid hp := by
    rw [Engine.frame_setTable,if_pos rfl]
    have := h.pin pid hp
    rw [Engine.frame_eq ht] at this
    exact hf pid this

theorem keep (ht : s.tables k = some t) (hc : st.table k = some c)
    (hh : t'.Holds c) (hf : ∀ pid, t.frames pid ≠ none → t'.frames pid ≠ none) : Shows k (s.setTable k t') st := by
  have hset : st.set k c = st := by
    cases st with
    | mk table clock pin =>
      simp only [Store.set,Store.mk.injEq,and_true]
      funext k'
      split
      · rename_i hk
        rw [hk]
        exact hc.symm
      · rfl
  have := h.set ht hh hf
  rwa [hset] at this

theorem of_map {f : Table → β} {x : β} (he : (s.tables k).map f = some x) :
    ∃ t c, s.tables k = some t ∧ st.table k = some c ∧ t.Holds c ∧ f t = x := by
  obtain ⟨t,ht,he⟩ := map_eq_some_iff.1 he
  obtain ⟨c,hc,hh⟩ := h.of_some ht
  exact ⟨t,c,ht,hc,hh,he⟩

theorem map {f : Table → β × Engine} {g : Contents → β × Store} {r r' : β}
    (hfg : ∀ t c, s.tables k = some t → st.table k = some c → t.Holds c → (g c).1 = (f t).1 ∧
      Shows k (f t).2 (g c).2)
    (he : (s.tables k).map f = some (r,s')) (ha : (st.table k).map g = some (r',st')) : r' = r ∧ Shows k s' st' := by
  obtain ⟨t,c,ht,hc,hh,he⟩ := h.of_map he
  rw [hc,map_some] at ha
  have hstep := hfg t c ht hc hh
  rwa [he,some_inj.1 ha] at hstep

theorem exec {i : Nat} {c : Cmd} {r r' : c.Res} (he : s.exec i k c = some (r,s'))
    (ha : st.exec k c = some (r',st')) : r' = r ∧ Shows k s' st' := by
  have hkeep : ∀ {t : Table} {f : PageID → Option Frame}, f = t.frames → ∀ pid,
    t.frames pid ≠ none → f pid ≠ none := by
    rintro t f rfl pid hp
    exact hp
  have hset : ∀ {t : Table} {pid : PageID} {f : Frame} (pid' : PageID), t.frames pid' ≠ none →
      (t.setFrame pid (some f)).frames pid' ≠ none := by
    intro t pid f pid' hp
    rw [frames_setFrame]
    split
    · simp
    · exact hp
  have hmod : ∀ {t : Table} {pid : PageID} {m : Frame → Frame} (pid' : PageID), t.frames pid' ≠ none →
      (t.modifyFrame pid m).frames pid' ≠ none := by
    intro t pid m pid' hp
    rcases t.modifyFrame_cases pid m with ⟨-,heq⟩ | ⟨f,-,heq⟩
    · rwa [heq]
    · rw [heq]
      exact hset pid' hp
  have hframe : ∀ {t : Table} {c : Contents} {pid : PageID}, s.tables k = some t → t.Holds c → st.pin = some pid →
      ∃ f, t.frames pid = some f ∧ c.page pid = some f.page := by
    intro t c pid ht hh hp
    have := h.pin pid hp
    rw [Engine.frame_eq ht] at this
    obtain ⟨f,hf⟩ := ne_none_iff_exists'.1 this
    exact ⟨f,hf,by rw [← hh.page,page_eq_frame hf]⟩
  have hput : ∀ {loc : PageSlot} {x : Nat} {b b' : Bool}, s.exec i k (.putXMax loc x) = some (b,s') →
      st.exec k (.putXMax loc x) = some (b',st') → b' = b ∧ Shows k s' st' := by
    intro loc x b b'
    refine h.map fun t c ht hc hh => ?_
    have hp := hh.putXMax loc x
    cases hpage : c.page loc.pid with
    | none =>
      rw [hpage] at hp
      rw [hp]
      exact ⟨rfl,h⟩
    | some p =>
      rw [hpage] at hp
      obtain ⟨f,hp,hf⟩ := hp
      rw [hp]
      refine ⟨rfl,h.set ht ?_ hset⟩
      rw [← hf]
      exact hh.setFrame hpage f
  cases c with
  | nextTxID =>
    cases he
    cases ha
    refine ⟨by simp [Engine.nextTxID,h.clock],h.table,by simp [Engine.nextTxID,h.clock],h.pin⟩
  | txClock =>
    cases he
    cases ha
    exact ⟨h.clock.symm,h⟩
  | lockTable =>
    simp only [Engine.exec] at he
    cases ha
    split at he
    · rename_i ht
      cases he
      exact ⟨by rw [h.of_none ht]; rfl,h⟩
    · rename_i t ht
      obtain ⟨c,hc,hh⟩ := h.of_some ht
      split at he
      · cases he
        exact ⟨by rw [hc]; rfl,h.keep ht hc (hh.setLock _) (hkeep rfl)⟩
      · cases he
  | relockTable =>
    obtain ⟨t,ht,he⟩ := bind_eq_some_iff.1 he
    obtain ⟨c,hc,hh⟩ := h.of_some ht
    cases ha
    split at he
    · cases he
      exact ⟨rfl,h.keep ht hc (hh.setLock _) (hkeep rfl)⟩
    · cases he
  | unlockTable =>
    obtain ⟨t,c,ht,hc,hh,he⟩ := h.of_map he
    cases he
    cases ha
    exact ⟨rfl,h.keep ht hc (hh.setLock _) (hkeep rfl)⟩
  | getInfo => exact h.map (fun t c ht hc hh => ⟨hh.info.symm,h⟩) he ha
  | setInfo f =>
    refine h.map (fun t c ht hc hh => ?_) he ha
    exact ⟨rfl,h.set ht (hh.setInfo f) (hkeep rfl)⟩
  | scanSlots => exact h.map (fun t c ht hc hh => ⟨hh.scanSlots.symm,h⟩) he ha
  | pageCount => exact h.map (fun t c ht hc hh => ⟨hh.heap.pageCount.symm,h⟩) he ha
  | getTuple loc => exact h.map (fun t c ht hc hh => ⟨by rw [hh.page],h⟩) he ha
  | lockPage pid =>
    obtain ⟨t,ht,he⟩ := bind_eq_some_iff.1 he
    cases ha
    split at he
    · cases he
      exact ⟨rfl,h.congr rfl rfl⟩
    · cases he
  | unlockPage pid =>
    obtain ⟨t,ht,he⟩ := map_eq_some_iff.1 he
    cases he
    cases ha
    exact ⟨rfl,h.congr rfl rfl⟩
  | fetchPage pid =>
    refine h.map (fun t c ht hc hh => ?_) he ha
    have hf := hh.fetchPage i pid
    split at hf
    · rename_i hp
      obtain ⟨f,hf,hpage⟩ := hf
      rw [hf,if_pos hp]
      have hkept := h.keep ht hc (hh.refresh hpage) hset
      refine ⟨rfl,hkept.table,hkept.clock,?_⟩
      rintro pid' ⟨⟩
      rw [Engine.frame_setTable,if_pos rfl]
      simp
    · rename_i hp
      rw [hf,if_neg hp]
      exact ⟨rfl,h⟩
  | freeSpace pid => exact h.map (fun t c ht hc hh => ⟨by rw [hh.page],h⟩) he ha
  | allocatePage =>
    refine h.map (fun t c ht hc hh => ?_) he ha
    have hal := hh.allocatePage i
    split at hal
    · rename_i hn
      obtain ⟨t',hal,hh',hold,hnew⟩ := hal
      rw [hal,dif_pos hn]
      have hs := h.set ht hh' fun pid hp => by
        obtain ⟨f,hf⟩ := ne_none_iff_exists'.1 hp
        simp [hold pid f hf]
      refine ⟨rfl,hs.table,hs.clock,?_⟩
      rintro pid ⟨⟩
      rw [Engine.frame_setTable,if_pos rfl]
      exact hnew
    · rename_i hn
      rw [hal,dif_neg hn]
      exact ⟨rfl,h⟩
  | insertTuple pid tup =>
    obtain ⟨t,c,ht,hc,hh,he⟩ := h.of_map he
    simp only [Store.exec,hc,bind_some] at ha
    split at ha
    · rename_i hp
      obtain ⟨f,hf,hpage⟩ := hframe ht hh hp
      rw [hpage,map_some] at ha
      cases hi : f.page.insertTuple tup with
      | none =>
        simp only [insertTuple,hf,hi] at he ha
        cases he
        cases ha
        exact ⟨rfl,h.keep ht hc hh (hkeep rfl)⟩
      | some x =>
        simp only [insertTuple,hf,hi] at he ha
        cases he
        cases ha
        exact ⟨rfl,h.set ht (hh.setFrame hpage { f with page := x.1 }) hset⟩
    · cases ha
  | setHOTUpdated loc n =>
    obtain ⟨t,c,ht,hc,hh,he⟩ := h.of_map he
    simp only [Store.exec,hc,bind_some] at ha
    split at ha
    · rename_i hp
      obtain ⟨f,hf,hpage⟩ := hframe ht hh hp
      rw [hpage,map_some] at ha
      have heq : t.setHOTUpdated loc n = t.setFrame loc.pid
          (some { f with page := f.page.modifyTuple loc.slot (·.setHOTUpdated n) }) := by
        simp [setHOTUpdated,modifyFrame,hf]
      rw [heq] at he
      cases he
      cases ha
      exact ⟨rfl,h.set ht (hh.setFrame hpage
        { f with page := f.page.modifyTuple loc.slot (·.setHOTUpdated n) }) hset⟩
    · cases ha
  | unpinPage pid dirty =>
    obtain ⟨t,c,ht,hc,hh,he⟩ := h.of_map he
    have hh' : (t.unpinPage i pid dirty).Holds c := hh.modifyFrame pid fun _ => rfl
    cases he
    cases ha
    exact ⟨rfl,(h.keep ht hc hh' hmod).unpin⟩
  | unpinPageDirty pid lsn =>
    obtain ⟨t,c,ht,hc,hh,he⟩ := h.of_map he
    have hh' : (t.unpinPageDirty i pid lsn).Holds c := hh.modifyFrame pid fun _ => rfl
    cases he
    cases ha
    exact ⟨rfl,(h.keep ht hc hh' hmod).unpin⟩
  | putXMax loc x => exact hput he ha
  | clearXMax loc => exact hput he ha
  | logInsert | logDelete | logCommit =>
    cases he
    cases ha
    exact ⟨rfl,h.congr rfl rfl⟩
  | syncCatalog x =>
    cases he
    cases ha
    exact ⟨rfl,h.congr (s.syncCatalog_eq x).1 (s.syncCatalog_eq x).2.2.2.2.1⟩
end
end Shows

end VaultDB.Storage
