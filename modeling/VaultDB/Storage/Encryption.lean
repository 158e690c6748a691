import VaultDB.Storage.Vacuum
set_option autoImplicit false

/-!
Transparent encryption (`crypto/tde.go`) of heap files and of the log.

The nonce is the place of a page or the transaction of a record only.
-/

namespace VaultDB.Storage
open List Option

/-- FNV-1a, and never zero. -/
def tableIDFromPath (path : List UInt8) : UInt32 :=
  let h := path.foldl (fun h b => (h ^^^ b.toUInt32)*16777619) 2166136261
  if h = 0 then 1 else h

/-- The first eight bytes of the nonce; the other four are zero. -/
def pageNonce (tableID : UInt32) (pid : PageID) : Nat := tableID.toNat <<< 32 ||| pid.pageNo

/-- A cipher with its key, by what decryption under the nonce `n'` gives for a page encrypted under
`n`. -/
structure Aead where
  reopen : (n n' : Nat) → Page → Option Page
  same : ∀ n p, reopen n n p = some p

/-- Each stored page is kept as its plaintext and the nonce it has been encrypted under. -/
structure TdeFile where
  heap : HeapFile
  nonce : PageID → Nat
  cachedPageCount : Nat
  pageCountValid : Bool

namespace TdeFile

def create : TdeFile := ⟨.create,fun _ => 0,0,true⟩

def putSealed (f : TdeFile) (pid : PageID) (n : Nat) (h : HeapFile) : TdeFile :=
  { f with heap := h, nonce := fun q => if q = pid then n else f.nonce q }

def readPage (tde : Option Aead) (tableID : UInt32) (f : TdeFile) (pid : PageID) : Option Page :=
  (f.heap.readPage pid).bind fun p =>
    match tde with
    | none => some p
    | some a => a.reopen (f.nonce pid) (pageNonce tableID pid) p

def writePage (tableID : UInt32) (f : TdeFile) (pid : PageID) (p : Page) : Option TdeFile :=
  (f.heap.writePage pid p).map (f.putSealed pid (pageNonce tableID pid))

def allocatePage (f : TdeFile) : Option (TdeFile × PageID) :=
  f.heap.allocatePage.map fun r => ({ f.putSealed r.2 (pageNonce 0 r.2) r.1 with pageCountValid := false },r.2)

def pageCount (f : TdeFile) : Option Nat × TdeFile :=
  if f.pageCountValid then (some f.cachedPageCount,f)
  else
    match f.heap.pageCount with
    | none => (none,f)
    | some n => (some n,{ f with cachedPageCount := n, pageCountValid := true })

end TdeFile

inductive FileCall where
  | allocatePage
  | writePage (pid : PageID) (p : Page)
  | readPage (pid : PageID)
  | pageCount

inductive FileAnswer where
  | allocated (pid : Option PageID)
  | written (ok : Bool)
  | page (p : Option Page)
  | count (n : Option Nat)
  deriving DecidableEq

def TdeFile.call (tde : Option Aead) (tableID : UInt32) (f : TdeFile) : FileCall → FileAnswer × TdeFile
  | .allocatePage =>
    match f.allocatePage with
    | some (f',pid) => (.allocated (some pid),f')
    | none => (.allocated none,f)
  | .writePage pid p =>
    match f.writePage tableID pid p with
    | some f' => (.written true,f')
    | none => (.written false,f)
  | .readPage pid => (.page (f.readPage tde tableID pid),f)
  | .pageCount => (.count f.pageCount.1,f.pageCount.2)

/-- What a heap file is for: an array of pages that grows at its end. -/
def FileCall.onArray (ps : List Page) : FileCall → FileAnswer × List Page
  | .allocatePage =>
    if ps.length < maxPages then (.allocated (some (pageIDAt ps.length)),ps++[Page.init]) else (.allocated none,ps)
  | .writePage pid p => (.written true,ps.set (pageIndex pid) p)
  | .readPage pid => (.page ps[pageIndex pid]?,ps)
  | .pageCount => (.count (some ps.length),ps)

def answers {S : Type} (call : S → FileCall → FileAnswer × S) : S → List FileCall → List FileAnswer
  | _, [] => []
  | s, c :: cs => (call s c).1 :: answers call (call s c).2 cs

section
variable (tde : Option Aead) (tableID : UInt32)
def FileCall.writtenAfter (written : List PageID) : FileCall → List PageID
  | .writePage pid _ => pid :: written
  | _ => written

/-- Pages are named that have been allocated, and with encryption none is read before it has been
written. -/
def FileCall.Proper (ps : List Page) (written : List PageID) : FileCall → Prop
  | .allocatePage => True
  | .writePage pid _ => ∃ i < ps.length, pid = pageIDAt i
  | .readPage pid => (∃ i < ps.length, pid = pageIDAt i) ∧ (tde = none ∨ tableID = 0 ∨ pid ∈ written)
  | .pageCount => ps.length ≤ 0xFFFFFFFF

def ProperCalls : List Page → List PageID → List FileCall → Prop
  | _, _, [] => True
  | ps, written, c :: cs =>
    c.Proper tde tableID ps written ∧ ProperCalls (c.onArray ps).2 (c.writtenAfter written) cs

structure TdeFile.Holds (f : TdeFile) (ps : List Page) (written : List PageID) : Prop where
  packed : f.heap.Packed ps.length
  page : ∀ i p, ps[i]? = some p → f.heap.readPage (pageIDAt i) = some p
  nonce : ∀ i < ps.length, f.nonce (pageIDAt i) =
    pageNonce (if pageIDAt i ∈ written then tableID else 0) (pageIDAt i)
  written : ∀ pid ∈ written, ∃ i < ps.length, pid = pageIDAt i
  count : f.pageCountValid = true → f.cachedPageCount = ps.length

namespace TdeFile.Holds
variable {tde tableID} {f : TdeFile} {ps : List Page} {written : List PageID}
theorem pageIDAt_inj {i j : Nat} (hi : i < maxPages) (hj : j < maxPages) (h : pageIDAt i = pageIDAt j) : i = j := by
  rw [← pageIndex_pageIDAt hi,h,pageIndex_pageIDAt hj]

theorem create : TdeFile.create.Holds tableID [] [] where
  packed := ⟨[],[],rfl,by simp,by simp,by decide,rfl⟩
  page i p h := by simp at h
  nonce i h := absurd h (Nat.not_lt_zero i)
  written pid h := by simp at h
  count _ := rfl

section
variable (h : f.Holds tableID ps written)
include h
theorem allocatePage (hlt : ps.length < maxPages) :
    ∃ f', f.allocatePage = some (f',pageIDAt ps.length) ∧ f'.Holds tableID (ps++[Page.init]) written := by
  have hnew := h.packed.allocatePage
  rw [if_pos hlt] at hnew
  obtain ⟨heap,ha,hpacked⟩ := hnew
  have hread := (HeapFile.allocatePage_eq ha).2
  have hne : ∀ i < ps.length, pageIDAt ps.length ≠ pageIDAt i := fun i hi he =>
    absurd (pageIDAt_inj hlt (hi.trans hlt) he) (by omega)
  refine ⟨_,by rw [TdeFile.allocatePage,ha]; rfl,?_,fun i p hi => ?_,fun i hi => ?_,fun pid hw => ?_, fun hv => by cases hv⟩
  · rw [length_append]
    exact hpacked
  · rw [getElem?_append] at hi
    split at hi
    · next hi' => exact (hread _).trans ((if_neg (hne i hi')).trans (h.page i p hi))
    · next hi' =>
      obtain ⟨hz,rfl⟩ : i-ps.length = 0 ∧ Page.init = p := by simpa [getElem?_singleton] using hi
      obtain rfl : i = ps.length := by omega
      exact (hread _).trans (if_pos rfl)
  · simp only [length_append,length_singleton] at hi
    rcases Nat.lt_succ_iff_lt_or_eq.1 hi with hi' | rfl
    · exact (if_neg (hne i hi').symm).trans (h.nonce i hi')
    · have hfresh : pageIDAt ps.length ∉ written := fun hw => by
        obtain ⟨i,hi,he⟩ := h.written _ hw
        exact hne i hi he
      rw [if_neg hfresh]
      exact if_pos rfl
  · obtain ⟨i,hi,he⟩ := h.written pid hw
    exact ⟨i,by simp; omega,he⟩

theorem writePage {i : Nat} (hi : i < ps.length) (p : Page) :
    ∃ f', f.writePage tableID (pageIDAt i) p = some f' ∧ f'.Holds tableID (ps.set i p) (pageIDAt i :: written) := by
  have hold := h.page i _ (getElem?_eq_getElem hi)
  obtain ⟨heap,hw⟩ := HeapFile.writePage_eq_some (q := p) hold
  have hread := HeapFile.readPage_writePage hw
  have hmax := h.packed.le
  have hinj : ∀ j < ps.length, pageIDAt j = pageIDAt i ↔ j = i := fun j hj =>
    ⟨pageIDAt_inj (by omega) (by omega),fun he => he ▸ rfl⟩
  refine ⟨f.putSealed (pageIDAt i) (pageNonce tableID (pageIDAt i)) heap,by rw [TdeFile.writePage,hw]; rfl,?_,
    fun j q hj => ?_,fun j hj => ?_,fun pid hm => ?_,fun hv => (h.count hv).trans (by simp)⟩
  · rw [length_set]
    exact h.packed.of_shape (HeapFile.shape_writePage hold hw)
  · refine (hread _).trans ?_
    rw [getElem?_set] at hj
    split at hj
    · next he =>
      obtain rfl : p = q := by simpa [hi] using hj
      rw [if_pos (he ▸ rfl)]
    · next he =>
      have hj' := (List.getElem?_eq_some_iff.1 hj).1
      rw [if_neg fun hp => he ((hinj j hj').1 hp.symm).symm]
      exact h.page j q hj
  · rw [length_set] at hj
    by_cases he : j = i
    · subst he
      rw [if_pos mem_cons_self]
      exact if_pos rfl
    · have hne : pageIDAt j ≠ pageIDAt i := fun hp => he ((hinj j hj).1 hp)
      refine (if_neg hne).trans ((h.nonce j hj).trans ?_)
      simp [hne]
  · rw [length_set]
    rcases mem_cons.1 hm with rfl | hm
    · exact ⟨i,hi,rfl⟩
    · exact h.written pid hm

theorem call {c : FileCall} (hc : c.Proper tde tableID ps written) : (f.call tde tableID c).1 = (c.onArray ps).1 ∧
      (f.call tde tableID c).2.Holds tableID (c.onArray ps).2 (c.writtenAfter written) := by
  have hmax := h.packed.le
  cases c with
  | allocatePage =>
    simp only [TdeFile.call,FileCall.onArray]
    by_cases hlt : ps.length < maxPages
    · obtain ⟨f',ha,hf'⟩ := h.allocatePage hlt
      simp only [ha,if_pos hlt,true_and]
      exact hf'
    · have hfull := h.packed.allocatePage
      rw [if_neg hlt] at hfull
      simp only [TdeFile.allocatePage,hfull,map_none,if_neg hlt,true_and]
      exact h
  | writePage pid p =>
    obtain ⟨i,hi,rfl⟩ := hc
    obtain ⟨f',hw,hf'⟩ := h.writePage hi p
    simp only [TdeFile.call,hw,FileCall.onArray,pageIndex_pageIDAt (show i < maxPages by omega),true_and]
    exact hf'
  | readPage pid =>
    obtain ⟨⟨i,hi,rfl⟩,hkey⟩ := hc
    refine ⟨?_,h⟩
    have hread := h.page i _ (getElem?_eq_getElem hi)
    simp only [TdeFile.call,FileCall.onArray,pageIndex_pageIDAt (show i < maxPages by omega),
      getElem?_eq_getElem hi,TdeFile.readPage,hread,bind_some]
    cases tde with
    | none => rfl
    | some a =>
      have hnonce : f.nonce (pageIDAt i) = pageNonce tableID (pageIDAt i) := by
        rw [h.nonce i hi]
        rcases hkey with hkey | rfl | hkey
        · cases hkey
        · simp
        · rw [if_pos hkey]
      simp only [hnonce,a.same]
  | pageCount =>
    have hcount := h.packed.pageCount
    rw [if_neg (Nat.not_lt.2 hc)] at hcount
    simp only [TdeFile.call,TdeFile.pageCount,FileCall.onArray,FileCall.writtenAfter]
    by_cases hv : f.pageCountValid = true
    · simp only [hv,if_true,h.count hv,true_and]
      exact h
    · simp only [hv,hcount,Bool.false_eq_true,if_false,true_and]
      exact ⟨h.packed,h.page,h.nonce,h.written,fun _ => rfl⟩
end
end TdeFile.Holds

/-- A heap file answers as the array does. -/
theorem heapFile_is_array {calls : List FileCall} (h : ProperCalls tde tableID [] [] calls) :
    answers (TdeFile.call tde tableID) .create calls = answers FileCall.onArray [] calls := by
  have hrun : ∀ calls f ps written, f.Holds tableID ps written → ProperCalls tde tableID ps written calls →
      answers (TdeFile.call tde tableID) f calls = answers FileCall.onArray ps calls := by
    intro calls
    induction calls with
    | nil => intros; rfl
    | cons c calls ih =>
      intro f ps written hf hc
      obtain ⟨hans,hnext⟩ := hf.call hc.1
      rw [answers,answers,hans,ih _ _ _ hnext hc.2]
  exact hrun calls _ _ _ TdeFile.Holds.create h
end

/-- A cipher that refuses every other nonce, as AES-GCM does. -/
def strict : Aead := ⟨fun n n' p => if n = n' then some p else none,fun _ _ => if_pos rfl⟩
def usersPath : List UInt8 := [97,112,112,47,117,115,101,114,115]

/-- The page has been allocated under the nonce of table 0, and its table has another id. -/
theorem allocated_page_unreadable :
    answers (TdeFile.call (some strict) (tableIDFromPath usersPath)) .create
    [.allocatePage, .readPage (pageIDAt 0)] =
      [.allocated (some (pageIDAt 0)), .page none] := by
  decide +kernel

theorem heapFile_is_array_encrypted :
    answers (TdeFile.call (some strict) (tableIDFromPath usersPath)) .create
        [.allocatePage, .writePage (pageIDAt 0) Page.init, .readPage (pageIDAt 0), .pageCount] =
      [.allocated (some (pageIDAt 0)), .written true, .page (some Page.init), .count (some 1)] :=
  heapFile_is_array (some strict) (tableIDFromPath usersPath)
    ⟨trivial,⟨0,by decide,rfl⟩,⟨⟨0,by decide,rfl⟩,.inr (.inr (by decide))⟩,
      show 1 ≤ 0xFFFFFFFF by decide,trivial⟩

inductive SealCall where
  | allocatePage (path : List UInt8)
  | writePage (path : List UInt8) (pid : PageID) (p : Page) (buf : List UInt8)
  | append (txID : Nat) (payload : List UInt8)

def maxPayloadSize : Nat := 33554432
abbrev HeapFiles := List UInt8 → HeapFile

namespace SealCall

def putFile (files : HeapFiles) (path : List UInt8) (h : HeapFile) : HeapFiles :=
  fun q => if q = path then h else files q

def run (fresh : List UInt8) (files : HeapFiles) : SealCall → Option (Nat × List UInt8) × HeapFiles
  | .allocatePage path =>
    match (files path).allocatePage with
    | some (h,pid) => (some (pageNonce 0 pid,fresh),putFile files path h)
    | none => (none,files)
  | .writePage path pid p buf =>
    match (files path).writePage pid p with
    | some h => (some (pageNonce (tableIDFromPath path) pid,buf),putFile files path h)
    | none => (none,files)
  -- `buildRecord` hands its transaction id to `EncryptWAL` as the LSN.
  | .append txID payload => (if payload.length ≤ maxPayloadSize then some (txID,payload) else none,files)

def sealed (fresh : List UInt8) (files : HeapFiles) : List SealCall → List (Nat × List UInt8)
  | [] => []
  | c :: cs => (c.run fresh files).1.toList++sealed fresh (c.run fresh files).2 cs

def Unique (xs : List (Nat × List UInt8)) : Prop := ∀ x ∈ xs, ∀ y ∈ xs, x.1 = y.1 → x.2 = y.2

instance (xs : List (Nat × List UInt8)) : Decidable (Unique xs) :=
  inferInstanceAs (Decidable (∀ x ∈ xs, ∀ y ∈ xs, x.1 = y.1 → x.2 = y.2))

/-- Pages are written with one contents only, in the first segment and under different table ids; a
transaction logs one record, and its id is in a range of its own. -/
structure Careful (cs : List SealCall) : Prop where
  once : ∀ {path pid p p' buf buf'}, writePage path pid p buf ∈ cs → writePage path pid p' buf' ∈ cs → buf = buf'
  first : ∀ {path pid p buf}, writePage path pid p buf ∈ cs → pid.segmentNo = 0 ∧ pid.pageNo < pagesPerSegment
  tables : ∀ {path path' pid pid' p p' buf buf'}, writePage path pid p buf ∈ cs → writePage path' pid' p' buf' ∈ cs →
    tableIDFromPath path = tableIDFromPath path' → path = path'
  records : ∀ {tx payload payload'}, append tx payload ∈ cs → append tx payload' ∈ cs → payload = payload'
  ids : ∀ {tx payload}, append tx payload ∈ cs → pagesPerSegment ≤ tx ∧ tx < 2^32

section
variable {fresh : List UInt8} {files : HeapFiles} {c : SealCall} {cs : List SealCall} {x : Nat × List UInt8}
inductive Origin (fresh : List UInt8) (cs : List SealCall) : Nat × List UInt8 → Prop where
  | allocated (pid : PageID) : pid.pageNo < pagesPerSegment → Origin fresh cs (pageNonce 0 pid,fresh)
  | written {path : List UInt8} {pid : PageID} {p : Page} {buf : List UInt8} : writePage path pid p buf ∈ cs →
      Origin fresh cs (pageNonce (tableIDFromPath path) pid,buf)
  | logged {tx : Nat} {payload : List UInt8} : append tx payload ∈ cs → Origin fresh cs (tx,payload)

theorem Origin.mono {cs' : List SealCall} (h : Origin fresh cs x) (hs : ∀ c ∈ cs, c ∈ cs') : Origin fresh cs' x := by
  cases h with
  | allocated pid hp => exact .allocated pid hp
  | written hm => exact .written (hs _ hm)
  | logged hm => exact .logged (hs _ hm)

theorem pageNo_nextPage {h : HeapFile} {pid : PageID} (hn : h.nextPage = some pid) : pid.pageNo <
    pagesPerSegment := by
  unfold HeapFile.nextPage at hn
  split at hn
  · cases hn
  · split at hn
    · next hlt =>
      cases hn
      exact hlt
    · split at hn
      · cases hn
        exact (by decide : 0 < pagesPerSegment)
      · cases hn

theorem origin_run (h : (c.run fresh files).1 = some x) : Origin fresh [c] x := by
  cases c with
  | allocatePage path =>
    simp only [run] at h
    split at h
    · next heap pid ha =>
      cases h
      exact .allocated pid (pageNo_nextPage (HeapFile.allocatePage_eq ha).1)
    · cases h
  | writePage path pid p buf =>
    simp only [run] at h
    split at h
    · cases h
      exact .written (.head _)
    · cases h
  | append tx payload =>
    simp only [run] at h
    split at h
    · cases h
      exact .logged (.head _)
    · cases h

theorem origin_sealed (h : x ∈ sealed fresh files cs) : Origin fresh cs x := by
  induction cs generalizing files with
  | nil => cases h
  | cons c cs ih =>
    rcases mem_append.1 h with h | h
    · exact (origin_run (mem_toList.1 h)).mono (by simp)
    · exact (ih h).mono fun _ => mem_cons_of_mem c
end

theorem pageNonce_eq {tableID : UInt32} {pid : PageID} (h : pid.pageNo < pagesPerSegment) :
    pageNonce tableID pid = tableID.toNat*2^32+pid.pageNo := by
  have hlt : pid.pageNo < 2^32 := h.trans (by decide)
  rw [pageNonce,← Nat.shiftLeft_add_eq_or_of_lt hlt,Nat.shiftLeft_eq]

theorem tableIDFromPath_pos (path : List UInt8) : 0 < (tableIDFromPath path).toNat := by
  unfold tableIDFromPath
  dsimp only
  split
  · decide
  · next h => exact Nat.pos_of_ne_zero fun h0 => h (UInt32.toNat_inj.1 h0)

/-- Allocations, records and pages of tables then have nonces in ranges of their own. -/
theorem no_nonce_reuse (fresh : List UInt8) (files : HeapFiles) {cs : List SealCall} (h : Careful cs) :
    Unique (sealed fresh files cs) := by
  have halloc : ∀ pid : PageID, pid.pageNo < pagesPerSegment → pageNonce 0 pid < pagesPerSegment := by
    intro pid hp
    simpa [pageNonce_eq hp] using hp
  have hwrite : ∀ {path pid p buf}, writePage path pid p buf ∈ cs → 2^32 ≤ pageNonce (tableIDFromPath path) pid := by
    intro path pid p buf hm
    have := tableIDFromPath_pos path
    rw [pageNonce_eq (h.first hm).2]
    omega
  have hseg : pagesPerSegment < 2^32 := by decide
  -- The nonce tells which kind of call it comes from.
  intro x hx y hy hxy
  cases origin_sealed hx with
  | allocated pid hp =>
    have := halloc pid hp
    cases origin_sealed hy with
    | allocated => rfl
    | written hm =>
      have := hwrite hm
      dsimp only at hxy
      omega
    | logged hm =>
      have := h.ids hm
      dsimp only at hxy
      omega
  | @written path pid p _ hm =>
    have := hwrite hm
    cases origin_sealed hy with
    | allocated pid' hp =>
      have := halloc pid' hp
      dsimp only at hxy
      omega
    | @written path' pid' p' _ hm' =>
      obtain ⟨hs,hp⟩ := h.first hm
      obtain ⟨hs',hp'⟩ := h.first hm'
      dsimp only at hxy
      rw [pageNonce_eq hp,pageNonce_eq hp'] at hxy
      have htab : tableIDFromPath path = tableIDFromPath path' := UInt32.toNat_inj.1 (by omega)
      have hno : pid.pageNo = pid'.pageNo := by rw [htab] at hxy; omega
      obtain rfl := h.tables hm hm' htab
      obtain rfl : pid = pid' := by
        cases pid
        cases pid'
        simp_all
      exact h.once hm hm'
    | logged hm' =>
      have := h.ids hm'
      dsimp only at hxy
      omega
  | logged hm =>
    have := h.ids hm
    cases origin_sealed hy with
    | allocated pid' hp =>
      have := halloc pid' hp
      dsimp only at hxy
      omega
    | written hm' =>
      have := hwrite hm'
      dsimp only at hxy
      omega
    | logged hm' =>
      dsimp only at hxy
      subst hxy
      exact h.records hm hm'

/-- The second contents of a page, and the second record of a transaction. -/
theorem nonce_reused :
    ¬Unique (sealed [0] (fun _ => .create) [.allocatePage usersPath, .writePage usersPath (pageIDAt 0) Page.init [1],
      .writePage usersPath (pageIDAt 0) Page.init [2]]) ∧
      ¬Unique (sealed [0] (fun _ => .create) [.append 1 [7], .append 1 []]) := by
  decide +kernel

/-- A page that is written once, and one record. -/
theorem no_nonce_reuse_once :
    Unique (sealed [0] (fun _ => .create)
      [.allocatePage usersPath, .writePage usersPath (pageIDAt 0) Page.init [1], .append 200000 [7]]) := by
  refine no_nonce_reuse _ _ ⟨?_,?_,?_,?_,?_⟩
  · simp +contextual
  · simp +contextual [pageIDAt,pagesPerSegment]
  · simp +contextual
  · simp +contextual
  · simp +contextual [pagesPerSegment]

end SealCall
end VaultDB.Storage
