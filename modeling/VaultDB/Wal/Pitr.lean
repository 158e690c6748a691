import Mathlib.Data.List.Sort
import VaultDB.Wal.Appends
import VaultDB.Wal.Logical
set_option autoImplicit false

/-!
Restoring a log as of a point in time, after `pitr.go`.  Paths are byte strings, a directory is
given by its listing.
-/

namespace VaultDB.WalFile
open Lib List Option

structure DirEntry (α : Type) where
  name : List UInt8
  isDir : Bool
  content : α

def walName : List UInt8 := [0x77,0x61,0x6c]
def gzName : List UInt8 := [0x2e,0x67,0x7a]

structure Gzip where
  compress : List UInt8 → List UInt8
  decompress : List UInt8 → Except String (List UInt8)
  decompress_compress : ∀ data, decompress (compress data) = .ok data

/-- A directory is named as `filepath.Join` leaves it. -/
def walFiles {α : Type} (dir : List UInt8) (listing : List (DirEntry α)) : List (List UInt8 × α) :=
  if dir = [] then []
  else (listing.filter fun e => !e.isDir && walName.isPrefixOf e.name).map fun e => (dir++0x2f :: e.name,e.content)

def visitedFiles {α : Type} (archiveDir : List UInt8) (archive : List (DirEntry α)) (activeDir : List UInt8)
    (active : List (DirEntry α)) : List (List UInt8 × α) :=
  (walFiles archiveDir archive++walFiles activeDir active).insertionSort fun a b => a.1 ≤ b.1

structure UpTo where
  entries : List Entry
  stop : Bool
  maxTxID : BitVec 64

section
variable {V : Type} (J : Json V) (G : Gzip) (keys : Keys)
def stopsAt (target : BitVec 64) (e : Entry) : Bool :=
  e.opType == opCommit && (commitTime J e).any fun timestamp => target.sle timestamp

def fileReader (path content : List UInt8) : Except String (List UInt8) :=
  if gzName.isSuffixOf path then G.decompress content else .ok content

def entriesUpTo (r : List UInt8) (target : BitVec 64) : Except String UpTo :=
  let es := (readEntries keys r).map Prod.fst
  let before := es.takeWhile fun e => !stopsAt J target e
  if es.any (stopsAt J target) then .ok ⟨before,true,maxTxID (es.take (before.length+1))⟩
  else if (readError keys r).isEOF then .ok ⟨es,false,maxTxID es⟩
  else .error (readError keys r).message

def readEntriesUpTo (path content : List UInt8) (target : BitVec 64) : Except String UpTo := do
  let r ← fileReader G path content
  entriesUpTo J keys r target

def restoreFiles (target : BitVec 64) : List (List UInt8 × List UInt8) → Except String (List Entry × BitVec 64)
  | [] => .ok ([],0)
  | f :: fs => do
    let x ← readEntriesUpTo J G keys f.1 f.2 target
    if x.stop then .ok (x.entries,x.maxTxID)
    else
      let rest ← restoreFiles target fs
      .ok (x.entries++rest.1,if x.maxTxID < rest.2 then rest.2 else x.maxTxID)

def restoreAsOf (archiveDir : List UInt8) (archive : List (DirEntry (List UInt8))) (activeDir : List UInt8)
    (active : List (DirEntry (List UInt8))) (target nextTxID : BitVec 64) :
    Except String (List Entry × BitVec 64) := do
  let x ← restoreFiles J G keys target (visitedFiles archiveDir archive activeDir active)
  .ok (x.1,if nextTxID < x.2 then x.2 else nextTxID)
end

structure Stamped where
  record : Appended
  time : BitVec 64
  time_nonneg : 0 ≤ time.toInt

def nullJSON : List UInt8 := [0x6e,0x75,0x6c,0x6c]

/-- The engine passes `nil` with its commits, so that the records hold no time. -/
def EngineLog (log : List Stamped) : Prop := ∀ x ∈ log, x.record.opType = opCommit → x.record.payload = nullJSON

/-- Go reads `null` into a struct by leaving it as it is. -/
def Json.NullIsZero {V : Type} (J : Json V) : Prop := J.commit nullJSON = .ok 0

def onDisk (G : Gzip) (path : List UInt8) (records : List Stamped) : List UInt8 :=
  if gzName.isSuffixOf path then G.compress (fileOf (records.map Stamped.record)) else fileOf
    (records.map Stamped.record)

def listingOf (G : Gzip) (dir : List UInt8) (files : List (DirEntry (List Stamped))) :
    List (DirEntry (List UInt8)) :=
  files.map fun e => ⟨e.name,e.isDir,onDisk G (dir++0x2f :: e.name) e.content⟩

def Stamped.late (target : BitVec 64) (x : Stamped) : Bool := x.record.opType == opCommit && target.sle x.time

def asOf (target : BitVec 64) (log : List Stamped) : List Entry :=
  (log.takeWhile fun x => !x.late target).map fun x => x.record.entry

section
variable {V : Type} {J : Json V} {G : Gzip} {keys : Keys}
abbrev entriesOf (log : List Stamped) : List Entry := log.map fun x => x.record.entry
def Opens (keys : Keys) (log : List Stamped) : Prop := ∀ x ∈ log, x.record.Readable ∧ keys.Decrypts x.record

variable {log : List Stamped}
theorem Opens.reads (h : Opens keys log) : Reads keys Appended.entry (log.map Stamped.record) := by
  refine reads_of_decrypts ?_ ?_
  · intro a ha
    obtain ⟨x,hx,rfl⟩ := mem_map.1 ha
    exact (h x hx).1
  · intro a ha
    obtain ⟨x,hx,rfl⟩ := mem_map.1 ha
    exact (h x hx).2

theorem readEntries_fileOf {log : List Appended} (h : Reads keys Appended.entry log) :
    (readEntries keys (fileOf log)).map Prod.fst = log.map Appended.entry ∧ readError keys (fileOf log) = .eof := by
  have hread : readEntries keys (fileOf log) = positions Appended.entry [] log := by
    have := h.readEntries []
    rw [append_nil] at this
    rw [this]
    exact append_nil _
  have hend := behind_positions Appended.entry [] log []
  rw [append_nil,append_nil,behind_nil] at hend
  refine ⟨by rw [hread,map_fst_positions],?_⟩
  rw [readError,hread,hend]
  rfl

theorem takeWhile_not_of_any {α : Type} {p : α → Bool} {xs : List α} (h : xs.any p = false) :
    xs.takeWhile (fun x => !p x) = xs := by
  rw [takeWhile_eq_self_iff]
  intro x hx
  simp [any_eq_false.1 h x hx]

theorem readEntriesUpTo_onDisk (h : Opens keys log) (path : List UInt8) (target : BitVec 64) :
    ∃ m, readEntriesUpTo J G keys path (onDisk G path log) target =
      .ok ⟨(entriesOf log).takeWhile fun e => !stopsAt J target e,(entriesOf log).any (stopsAt J target),m⟩ := by
  obtain ⟨hentries,hend⟩ := readEntries_fileOf h.reads
  have hes : (readEntries keys (fileOf (log.map Stamped.record))).map Prod.fst = entriesOf log := by
    rw [hentries,List.map_map]
    rfl
  have hbytes : fileReader G path (onDisk G path log) = .ok (fileOf (log.map Stamped.record)) := by
    rw [fileReader,onDisk]
    split
    · exact G.decompress_compress _
    · rfl
  simp only [readEntriesUpTo,hbytes,bind,Except.bind,entriesUpTo,hes,hend]
  cases hany : (entriesOf log).any (stopsAt J target) with
  | true => exact ⟨_,rfl⟩
  | false =>
    rw [takeWhile_not_of_any hany]
    exact ⟨_,rfl⟩

theorem restoreFiles_onDisk {files : List (List UInt8 × List Stamped)}
    (h : ∀ f ∈ files, Opens keys f.2) (target : BitVec 64) :
    ∃ m, restoreFiles J G keys target (files.map fun f => (f.1,onDisk G f.1 f.2)) =
      .ok ((entriesOf (files.flatMap Prod.snd)).takeWhile fun e => !stopsAt J target e,m) := by
  induction files with
  | nil => exact ⟨_,rfl⟩
  | cons f files ih =>
    obtain ⟨m,hm⟩ := readEntriesUpTo_onDisk (J := J) (G := G) (h f mem_cons_self) f.1 target
    obtain ⟨m',hm'⟩ := ih fun g hg => h g (mem_cons_of_mem f hg)
    rw [map_cons,restoreFiles,flatMap_cons,entriesOf,map_append]
    simp only [hm,hm',bind,Except.bind]
    cases hany : (entriesOf f.2).any (stopsAt J target) with
    | true =>
      obtain ⟨e,he,hstop⟩ := any_eq_true.1 hany
      refine ⟨m,?_⟩
      rw [if_pos rfl,takeWhile_append,if_neg]
      intro hlen
      have hall := takeWhile_eq_self_iff.1 (( takeWhile_prefix _).eq_of_length hlen) e he
      simp [hstop] at hall
    | false =>
      refine ⟨if m < m' then m' else m,?_⟩
      rw [if_neg Bool.false_ne_true,takeWhile_not_of_any hany,takeWhile_append_of_pos]
      intro e he
      simp [any_eq_false.1 hany e he]

theorem walFiles_listingOf (dir : List UInt8) (files : List (DirEntry (List Stamped))) :
    walFiles dir (listingOf G dir files) = (walFiles dir files).map fun f => (f.1,onDisk G f.1 f.2) := by
  rw [walFiles,walFiles]
  split
  · rfl
  · rw [listingOf,List.filter_map,List.map_map,List.map_map]
    rfl

theorem visitedFiles_listingOf (archiveDir activeDir : List UInt8)
    (archive active : List (DirEntry (List Stamped))) :
    visitedFiles archiveDir (listingOf G archiveDir archive) activeDir (listingOf G activeDir active) =
      (visitedFiles archiveDir archive activeDir active).map fun f => (f.1,onDisk G f.1 f.2) := by
  rw [visitedFiles,visitedFiles,walFiles_listingOf,walFiles_listingOf,← map_append]
  exact (map_insertionSort (fun a b : List UInt8 × List Stamped => a.1 ≤ b.1)
    (fun a b : List UInt8 × List UInt8 => a.1 ≤ b.1) _ _ fun _ _ _ _ => Iff.rfl).symm

def visitedRecords (archiveDir : List UInt8) (archive : List (DirEntry (List Stamped))) (activeDir : List UInt8)
    (active : List (DirEntry (List Stamped))) : List Stamped :=
  (visitedFiles archiveDir archive activeDir active).flatMap Prod.snd

section
variable {archiveDir activeDir : List UInt8} {archive active : List (DirEntry (List Stamped))} {log : List Stamped}
theorem visitedRecords_perm (h : ((walFiles archiveDir archive++walFiles activeDir active).flatMap
      Prod.snd).Perm log) :
    (visitedRecords archiveDir archive activeDir active).Perm log :=
  ((perm_insertionSort _ _).flatMap_right _).trans h

theorem restoreAsOf_visited (h : Opens keys (visitedRecords archiveDir archive activeDir active))
    (target nextTxID : BitVec 64) :
    ∃ m, restoreAsOf J G keys archiveDir (listingOf G archiveDir archive) activeDir
    (listingOf G activeDir active) target nextTxID =
      .ok ((entriesOf (visitedRecords archiveDir archive activeDir active)).takeWhile fun e =>
        !stopsAt J target e,m) := by
  have hfiles : ∀ f ∈ visitedFiles archiveDir archive activeDir active, Opens keys f.2 :=
    fun f hf x hx => h x (mem_flatMap.2 ⟨f,hf,hx⟩)
  obtain ⟨m,hm⟩ := restoreFiles_onDisk (J := J) (G := G) hfiles target
  refine ⟨if nextTxID < m then m else nextTxID,?_⟩
  rw [restoreAsOf,visitedFiles_listingOf,hm]
  rfl
end

theorem commitTime_null (hnull : J.NullIsZero) {e : Entry} (hop : e.opType = opCommit) (hp : e.payload = nullJSON) :
    commitTime J e = some 0 := by
  have hdecode : decodeWALPayload J nullJSON opCommit = ((J.commit nullJSON).map Payload.commit).map some := rfl
  rw [commitTime,hop,hp,hdecode,hnull]
  rfl

theorem stopsAt_engine (hnull : J.NullIsZero) (hlog : EngineLog log) {x : Stamped} (hx : x ∈ log)
    (target : BitVec 64) : stopsAt J target x.record.entry = (x.record.opType == opCommit && target.sle 0) := by
  by_cases hop : x.record.opType = opCommit
  · have htime : commitTime J x.record.entry = some 0 := commitTime_null hnull hop (hlog x hx hop)
    rw [stopsAt,htime]
    rfl
  · have hne : (x.record.opType == opCommit) = false := beq_eq_false_iff_ne.2 hop
    rw [stopsAt,hne]
    show (x.record.opType == opCommit && _) = _
    rw [hne,Bool.false_and,Bool.false_and]

def beforeCommits (log : List Stamped) : List Entry := entriesOf (log.takeWhile fun x => x.record.opType != opCommit)

/-- For a target after 1970: the records were visited in the order they were logged in, and no
commit was made at or after the target.  For an earlier one what stands in front of the first commit
counts. -/
def Restorable (target : BitVec 64) (visited log : List Stamped) : Prop :=
  (0 < target.toInt → entriesOf visited = entriesOf log ∧ ∀ x ∈ log, x.late target = false) ∧
  (target.toInt ≤ 0 → beforeCommits visited = beforeCommits log)

section
variable {log visited : List Stamped} {target : BitVec 64}
theorem sle_iff (a b : BitVec 64) : a.sle b = true ↔ a.toInt ≤ b.toInt := by rw [BitVec.sle_iff_toInt_le]

theorem takeWhile_stopsAt (hnull : J.NullIsZero) (hlog : EngineLog visited) (target : BitVec 64) :
    (entriesOf visited).takeWhile (fun e => !stopsAt J target e) =
      if 0 < target.toInt then entriesOf visited else beforeCommits visited := by
  by_cases ht : 0 < target.toInt
  · have hsle : target.sle 0 = false := by
      rw [← Bool.not_eq_true,sle_iff]
      exact not_le.2 ht
    rw [if_pos ht]
    refine takeWhile_not_of_any (any_eq_false.2 fun e he => ?_)
    obtain ⟨x,hx,rfl⟩ := mem_map.1 he
    rw [stopsAt_engine hnull hlog hx,hsle,Bool.and_false]
    exact Bool.false_ne_true
  · have hsle : target.sle 0 = true := (sle_iff _ _).2 (not_lt.1 ht)
    rw [if_neg ht,beforeCommits]
    induction visited with
    | nil => rfl
    | cons x xs ih =>
      have hx := stopsAt_engine hnull hlog mem_cons_self target
      have hxs := ih fun y hy => hlog y (mem_cons_of_mem x hy)
      rw [hsle,Bool.and_true] at hx
      rw [entriesOf,map_cons,takeWhile_cons,takeWhile_cons,hx]
      cases hop : x.record.opType == opCommit with
      | true => simp [bne,hop]
      | false => simpa [bne,hop] using hxs

theorem asOf_of_nonpos (ht : target.toInt ≤ 0) (log : List Stamped) : asOf target log = beforeCommits log := by
  rw [asOf,beforeCommits]
  congr 2
  funext x
  have hsle : target.sle x.time = true := (sle_iff _ _).2 (ht.trans x.time_nonneg)
  rw [Stamped.late,hsle,Bool.and_true]
  rfl

theorem asOf_eq_iff (h : visited.length = log.length) :
    entriesOf visited = asOf target log ↔ entriesOf visited = entriesOf log ∧ ∀ x ∈ log, x.late target = false := by
  constructor
  · intro he
    have hlen := congrArg length he
    rw [asOf,length_map,length_map,h] at hlen
    have hall : log.takeWhile (fun x => !x.late target) = log := ( takeWhile_prefix _).eq_of_length hlen.symm
    refine ⟨by rw [he,asOf,hall],fun x hx => ?_⟩
    simpa using takeWhile_eq_self_iff.1 hall x hx
  · rintro ⟨he,hall⟩
    have hwhole : log.takeWhile (fun x => !x.late target) = log :=
      takeWhile_eq_self_iff.2 fun x hx => by rw [hall x hx]; rfl
    rw [he,asOf,hwhole]

/-- A point-in-time restore of records the engine has logged is exact in just these cases. -/
theorem restore_exact_iff (hnull : J.NullIsZero) {archiveDir activeDir : List UInt8}
    {archive active : List (DirEntry (List Stamped))}
    (hstored : ((walFiles archiveDir archive++walFiles activeDir active).flatMap Prod.snd).Perm log)
    (hlog : EngineLog log) (hopens : Opens keys log) (target nextTxID : BitVec 64) :
    (∃ m, restoreAsOf J G keys archiveDir (listingOf G archiveDir archive) activeDir (listingOf G activeDir active)
      target nextTxID = .ok (asOf target log, m)) ↔
    Restorable target (visitedRecords archiveDir archive activeDir active) log := by
  have hperm := visitedRecords_perm hstored
  obtain ⟨m,hm⟩ := restoreAsOf_visited (J := J) (G := G) (fun x hx => hopens x (hperm.mem_iff.1 hx)) target nextTxID
  rw [hm,takeWhile_stopsAt hnull fun x hx => hlog x (hperm.mem_iff.1 hx)]
  have hout : ∀ es, (∃ m', (.ok (es,m) : Except String (List Entry × BitVec 64)) = .ok (asOf target log,m')) ↔
      es = asOf target log := by
    intro es
    refine ⟨?_,fun h => ⟨m,by rw [h]⟩⟩
    rintro ⟨m',h⟩
    cases h
    rfl
  rw [hout,Restorable]
  by_cases ht : 0 < target.toInt
  · rw [if_pos ht,asOf_eq_iff hperm.length_eq]
    exact ⟨fun h => ⟨fun _ => h,fun hle => absurd ht (not_lt.2 hle)⟩,fun h => h.1 ht⟩
  · rw [if_neg ht,asOf_of_nonpos (not_lt.1 ht)]
    exact ⟨fun h => ⟨fun h' => absurd h' ht,fun _ => h⟩,fun h => h.2 (not_lt.1 ht)⟩
end
end

def nullOnly : Json Unit :=
  { noJson with commit := fun data => if data = nullJSON then .ok 0 else .error "invalid character" }
def sameBytes : Gzip := ⟨fun data => data,.ok,fun _ => rfl⟩

def stamp (time : BitVec 64) (h : 0 ≤ time.toInt) (txID : BitVec 64) (opType : UInt8) (payload : List UInt8)
    (hlen : payload.length ≤ maxPayloadSize) : Stamped := ⟨untagged txID opType payload hlen,time,h⟩

theorem five_nonneg : 0 ≤ (5 : BitVec 64).toInt := by decide
theorem ten_nonneg : 0 ≤ (10 : BitVec 64).toInt := by decide

def twoStatements : List Stamped :=
  [stamp 5 five_nonneg 1 opPageInsert sampleInsert length_sampleInsert_le,
    stamp 5 five_nonneg 1 opCommit nullJSON (by decide),
    stamp 10 ten_nonneg 2 opPageInsert sampleInsert length_sampleInsert_le,stamp 10 ten_nonneg 2 opCommit nullJSON (by decide)]

def sampleDir : List UInt8 := [0x2f,0x64]
def sampleListing : List (DirEntry (List Stamped)) := [⟨walName++[0x2e,0x6c,0x6f,0x67],false,twoStatements⟩]
theorem visited_sample : visitedRecords [] [] sampleDir sampleListing = twoStatements := rfl

theorem opens_sample : Opens .none twoStatements := by
  have hall : ∀ x ∈ twoStatements, x.record.payload.length ≤ 100 ∧ x.record.keys.em.isNone = true ∧
      x.record.keys.tde.isNone = true := by
    simp only [twoStatements,forall_mem_cons]
    decide +kernel
  intro x hx
  obtain ⟨hlen,hem,htde⟩ := hall x hx
  have hem := isNone_iff_eq_none.1 hem
  have htde := isNone_iff_eq_none.1 htde
  refine ⟨?_,fun e he => ?_,fun _ e he => ?_⟩
  · rw [Appended.Readable,Keys.missing,hem,htde]
    exact Nat.le_trans hlen (by decide)
  · rw [hem] at he
    cases he
  · rw [htde] at he
    cases he

/-- As of the time 7 the commit of time 10 is returned too. -/
theorem restore_keeps_late_commit : ∃ m,
    restoreAsOf nullOnly sameBytes .none [] [] sampleDir (listingOf sameBytes sampleDir sampleListing) 7 0 =
      .ok (entriesOf twoStatements, m) ∧
    asOf 7 twoStatements = (entriesOf twoStatements).take 3 ∧ entriesOf twoStatements ≠ asOf 7 twoStatements := by
  obtain ⟨m,hm⟩ : ∃ m, restoreAsOf nullOnly sameBytes .none [] (listingOf sameBytes [] []) sampleDir
        (listingOf sameBytes sampleDir sampleListing) 7 0 =
      .ok ((entriesOf (visitedRecords [] [] sampleDir sampleListing)).takeWhile fun e => !stopsAt nullOnly 7 e,m) :=
    restoreAsOf_visited (visited_sample ▸ opens_sample) 7 0
  have hall : (entriesOf twoStatements).takeWhile (fun e => !stopsAt nullOnly 7 e) = entriesOf twoStatements := by
    decide +kernel
  rw [visited_sample,hall] at hm
  exact ⟨m,hm,by decide +kernel,by decide +kernel⟩

/-- As of the time 20 everything is to be returned, and is. -/
theorem restore_exact_sample : ∃ m,
    restoreAsOf nullOnly sameBytes .none [] (listingOf sameBytes [] []) sampleDir
      (listingOf sameBytes sampleDir sampleListing) 20 0 = .ok (asOf 20 twoStatements, m) := by
  have hengine : EngineLog twoStatements := by
    simp only [EngineLog,twoStatements,forall_mem_cons]
    decide +kernel
  have hnull : nullOnly.NullIsZero := rfl
  have hstored : ((walFiles [] []++walFiles sampleDir sampleListing).flatMap Prod.snd).Perm twoStatements := .refl _
  have hearly : ∀ x ∈ twoStatements, x.late 20 = false := by
    simp only [twoStatements,forall_mem_cons]
    decide +kernel
  exact (restore_exact_iff hnull hstored hengine opens_sample 20 0).2
    ⟨fun _ => ⟨rfl,hearly⟩,fun h => absurd h (by decide)⟩

end VaultDB.WalFile
