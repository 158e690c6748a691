import VaultDB.Storage.Page
set_option autoImplicit false

/-!
Heap files (`storage/heap`): a table's pages in consecutive segment files.

A segment is the list of its pages on disk; `none` is a page that fails the checksum.
-/

namespace VaultDB.Storage
open List Option

def pagesPerSegment : Nat := 131072
def maxSegments : Nat := 65536

structure PageID where
  segmentNo : Nat
  pageNo : Nat
  deriving DecidableEq, Repr

structure PageSlot where
  pid : PageID
  slot : Nat
  deriving DecidableEq, Repr

def pageIDAt (global : Nat) : PageID := ⟨global/pagesPerSegment%maxSegments,global%pagesPerSegment⟩
abbrev Segment := List (Option Page)

@[ext] structure HeapFile where
  segments : List Segment
  deriving DecidableEq, Repr

/-- `WriteAt` on one segment file; writing past the end leaves unreadable pages in between. -/
def Segment.writeAt (seg : Segment) (pageNo : Nat) (p : Page) : Segment :=
  if pageNo < seg.length then seg.set pageNo (some p)
  else seg++(List.replicate (pageNo-seg.length) none++[some p])

namespace HeapFile

def create : HeapFile := ⟨[[]]⟩
def readPage (h : HeapFile) (pid : PageID) : Option Page :=
  h.segments[pid.segmentNo]?.bind fun seg => seg[pid.pageNo]?.join

def writePage (h : HeapFile) (pid : PageID) (p : Page) : Option HeapFile :=
  if pid.segmentNo < h.segments.length then
    some ⟨h.segments.modify pid.segmentNo (·.writeAt pid.pageNo p)⟩
  else none

/-- The place `AllocatePage` puts the next page: the end of the last segment, or a new
segment once that one is full. -/
def nextPage (h : HeapFile) : Option PageID :=
  match h.segments.getLast? with
  | none => none
  | some seg =>
    if seg.length < pagesPerSegment then some ⟨h.segments.length-1,seg.length⟩
    else if h.segments.length < maxSegments then some ⟨h.segments.length,0⟩
    else none

def withSegment (h : HeapFile) (pid : PageID) : HeapFile :=
  if pid.segmentNo < h.segments.length then h else ⟨h.segments++[[]]⟩

def allocatePage (h : HeapFile) : Option (HeapFile × PageID) :=
  h.nextPage.bind fun pid => ((h.withSegment pid).writePage pid Page.init).map fun h' => (h',pid)

def pageCount (h : HeapFile) : Option Nat :=
  let total := (h.segments.map List.length).sum
  if 0xFFFFFFFF < total then none else some total

end HeapFile

theorem Segment.getElem?_writeAt (seg : Segment) (n m : Nat) (p : Page) :
    (seg.writeAt n p)[m]?.join = if n = m then some p else seg[m]?.join := by
  unfold writeAt
  split
  · rename_i hn
    rw [getElem?_set]
    split
    · simp
    · rfl
  · rename_i hn
    exact Page.bind_getElem?_padded rfl (Nat.not_lt.1 hn) m

namespace HeapFile
variable {h h' : HeapFile} {pid : PageID} {p : Page}
section
variable (hr : h.readPage pid = some p) {q : Page}
include hr
theorem readPage_lt : pid.segmentNo < h.segments.length := by
  by_contra hn
  simp [readPage,getElem?_eq_none (Nat.le_of_not_lt hn)] at hr

theorem writePage_eq_some : ∃ h', h.writePage pid q = some h' := by simp [writePage,readPage_lt hr]

theorem writePage_self : h.writePage pid p = some h := by
  obtain ⟨seg,hseg,hp⟩ := bind_eq_some_iff.1 hr
  have hj : seg[pid.pageNo]? = some (some p) := by simpa [join_eq_some_iff] using hp
  rw [writePage,if_pos (readPage_lt hr)]
  congr 1
  ext1
  refine ext_getElem? fun n => ?_
  rw [getElem?_modify]
  by_cases hn : pid.segmentNo = n
  · subst hn
    obtain ⟨hlt,hget⟩ := List.getElem?_eq_some_iff.1 hj
    simp only [hseg,if_true,Option.map_eq_map,Option.map_some,Segment.writeAt,if_pos hlt]
    rw [← hget,List.set_getElem_self hlt]
  · simp [hn]

def shape (h : HeapFile) : List Nat := h.segments.map List.length

theorem shape_writePage (hw : h.writePage pid q = some h') : h'.shape = h.shape := by
  obtain ⟨seg,hseg,hp⟩ := bind_eq_some_iff.1 hr
  have hj : seg[pid.pageNo]? = some (some p) := by simpa [join_eq_some_iff] using hp
  rw [writePage,if_pos (readPage_lt hr)] at hw
  obtain rfl := some.inj hw
  refine ext_getElem? fun n => ?_
  simp only [shape,getElem?_map,getElem?_modify]
  by_cases hn : pid.segmentNo = n
  · subst hn
    have hlt := (List.getElem?_eq_some_iff.1 hj).1
    simp [hseg,Segment.writeAt,if_pos hlt]
  · simp [hn]
end

theorem ext_readPage (hs : h.shape = h'.shape) (hp : ∀ pid, h.readPage pid = h'.readPage pid) : h = h' := by
  ext1
  refine ext_getElem? fun n => ?_
  have hlen : (h.segments[n]?).map length = (h'.segments[n]?).map length := by
    simpa [shape] using congrArg (fun l => l[n]?) hs
  cases hn : h.segments[n]? with
  | none =>
    cases hn' : h'.segments[n]? with
    | none => rfl
    | some seg' => simp [hn,hn'] at hlen
  | some seg =>
    cases hn' : h'.segments[n]? with
    | none => simp [hn,hn'] at hlen
    | some seg' =>
      have hl : seg.length = seg'.length := by simpa [hn,hn'] using hlen
      congr 1
      refine ext_getElem hl fun m hm hm' => ?_
      have hread := hp ⟨n,m⟩
      simp only [readPage,hn,hn',bind_some,getElem?_eq_getElem hm,getElem?_eq_getElem hm'] at hread
      simpa using hread

theorem readPage_writePage (hw : h.writePage pid p = some h') (pid' : PageID) :
    h'.readPage pid' = if pid = pid' then some p else h.readPage pid' := by
  unfold writePage at hw
  split at hw
  · rename_i hs
    obtain rfl := some.inj hw
    simp only [readPage,getElem?_modify]
    by_cases hseg : pid.segmentNo = pid'.segmentNo
    · have hs' : pid'.segmentNo < h.segments.length := hseg ▸ hs
      have heq : pid = pid' ↔ pid.pageNo = pid'.pageNo := by cases pid; cases pid'; simp_all
      simp [hseg,hs',Segment.getElem?_writeAt,heq]
    · have hne : pid ≠ pid' := fun h => hseg (h ▸ rfl)
      simp [hseg,hne]
  · cases hw

theorem nextPage_cases (hn : h.nextPage = some pid) :
    (∃ seg, h.segments[pid.segmentNo]? = some seg ∧ pid.pageNo = seg.length) ∨
      pid = ⟨h.segments.length,0⟩ := by
  unfold nextPage at hn
  split at hn
  · cases hn
  · rename_i seg hseg
    split at hn
    · obtain rfl := some.inj hn
      exact .inl ⟨seg,by rw [← hseg,getLast?_eq_getElem?],rfl⟩
    · split at hn
      · exact .inr (some.inj hn).symm
      · cases hn

theorem readPage_nextPage (hn : h.nextPage = some pid) : h.readPage pid = none := by
  rcases nextPage_cases hn with ⟨seg,hseg,hp⟩ | rfl
  · simp [readPage,hseg,hp]
  · simp [readPage]

@[simp] theorem readPage_withSegment (h : HeapFile) (pid pid' : PageID) :
    (h.withSegment pid).readPage pid' = h.readPage pid' := by
  unfold withSegment
  split
  · rfl
  · simp only [readPage]
    rcases Nat.lt_trichotomy pid'.segmentNo h.segments.length with hm | hm | hm
    · rw [getElem?_append_left hm]
    · simp [hm]
    · rw [getElem?_eq_none (by simp; omega),getElem?_eq_none (by omega)]

theorem allocatePage_eq (ha : h.allocatePage = some (h',pid)) : h.nextPage = some pid ∧
      ∀ pid', h'.readPage pid' = if pid = pid' then some Page.init else h.readPage pid' := by
  obtain ⟨pid0,hn,he⟩ := bind_eq_some_iff.1 ha
  obtain ⟨h0,hw,he⟩ := map_eq_some_iff.1 he
  obtain ⟨rfl,rfl⟩ := Prod.mk.inj he
  refine ⟨hn,fun pid' => ?_⟩
  rw [readPage_writePage hw,readPage_withSegment]

end HeapFile
end VaultDB.Storage
