import VaultDB.Storage.Calls
set_option autoImplicit false

/-!
The phases of the row statements, run alone: finding rows, stamping them, storing new versions.
-/

namespace VaultDB.Storage
open Lib Stmt Exec Contents List Option
variable {loc : PageSlot} {locs : List PageSlot} {t : Tuple} {E : String → Store → Prop} {t' : Tuple}
namespace Contents
variable {c c' c'' : Contents} {pid : PageID} {f : Tuple → Tuple} {x : Nat}
def directory (c : Contents) : List PageSlot := c.info.posDirectory.getD (liveSlots c.slots)
def directed (c : Contents) : Contents := c.setInfo fun info => { info with posDirectory := some c.directory }
@[simp] theorem page_directed (c : Contents) (pid : PageID) : c.directed.page pid = c.page pid := rfl
@[simp] theorem slots_directed (c : Contents) : c.directed.slots = c.slots := rfl
@[simp] theorem scanSlots_directed (c : Contents) : c.directed.scanSlots = c.scanSlots := rfl
theorem setInfo_id {f : TableInfo → TableInfo} (h : f c.info = c.info) : c.setInfo f = c := by
  cases c
  simp only [setInfo] at *
  simp [h]

def stampAll (c : Contents) (x : Nat) (locs : List PageSlot) : Contents :=
  locs.foldl (fun c loc => c.modify loc (·.setXMax x)) c

@[simp] theorem stampAll_nil (c : Contents) (x : Nat) : c.stampAll x [] = c := rfl

@[simp] theorem stampAll_cons (c : Contents) (x : Nat) (loc : PageSlot) (locs : List PageSlot) :
    c.stampAll x (loc :: locs) = (c.modify loc (·.setXMax x)).stampAll x locs := rfl

@[simp] theorem info_stampAll (c : Contents) (x : Nat) (locs : List PageSlot) :
    (c.stampAll x locs).info = c.info := by
  induction locs generalizing c with
  | nil => rfl
  | cons loc locs ih => simp [ih]

@[simp] theorem length_stampAll (c : Contents) (x : Nat) (locs : List PageSlot) :
    (c.stampAll x locs).pages.length = c.pages.length := by
  induction locs generalizing c with
  | nil => rfl
  | cons loc locs ih => simp [ih]

theorem page_modify_eq_none : (c.modify loc f).page pid = none ↔ c.page pid = none := by
  unfold modify
  cases hp : c.page loc.pid with
  | none => exact Iff.rfl
  | some q =>
    show (c.setPage loc.pid _).page pid = none ↔ _
    rw [page_setPage _ hp]
    split
    · next h => simp [h,hp]
    · rfl

theorem page_stampAll_eq_none : (c.stampAll x locs).page pid = none ↔ c.page pid = none := by
  induction locs generalizing c with
  | nil => rfl
  | cons loc locs ih => rw [stampAll_cons,ih,page_modify_eq_none]

theorem slots_stampAll (c : Contents) (x : Nat) (locs : List PageSlot) :
    (c.stampAll x locs).slots = c.slots.map fun y => if y.1 ∈ locs then (y.1,y.2.setXMax x) else y := by
  induction locs generalizing c with
  | nil => simp
  | cons loc locs ih =>
    rw [stampAll_cons,ih,slots_modify,List.map_map]
    refine map_congr_left fun y _ => ?_
    by_cases hy : y.1 = loc
    · by_cases hm : loc ∈ locs <;> simp [hy,hm]
    · by_cases hm : y.1 ∈ locs <;> simp [hy,hm]

theorem live_stampAll (c : Contents) (hx : x ≠ 0) (locs : List PageSlot) :
    (c.stampAll x locs).live = c.live.filter fun y => y.1 ∉ locs := by
  induction locs generalizing c with
  | nil => simp
  | cons loc locs ih =>
    rw [stampAll_cons,ih,live_setXMax c loc hx,List.filter_filter]
    refine filter_congr fun y _ => ?_
    by_cases hy : y.1 = loc <;> simp [hy]

theorem tuple_iff_of_slots {f : PageSlot → Tuple → Tuple} (h : c'.slots = c.slots.map fun y => (y.1,f y.1 y.2))
    (loc : PageSlot) : c'.tuple loc = (c.tuple loc).map (f loc) := by
  rw [Option.ext_iff]
  intro t
  rw [← @mem_slots_iff (loc,t) c',h,Option.map_eq_some_iff,List.mem_map]
  constructor
  · rintro ⟨y,hy,he⟩
    obtain ⟨rfl,rfl⟩ := Prod.mk.inj he
    exact ⟨y.2,mem_slots_iff.1 hy,rfl⟩
  · rintro ⟨t0,ht0,rfl⟩
    exact ⟨(loc,t0),mem_slots_iff.2 ht0,rfl⟩

theorem tuple_stampAll (c : Contents) (x : Nat) (locs : List PageSlot) (loc : PageSlot) :
    (c.stampAll x locs).tuple loc = (c.tuple loc).map fun t => if loc ∈ locs then t.setXMax x else t := by
  refine tuple_iff_of_slots (f := fun loc t => if loc ∈ locs then t.setXMax x else t) ?_ loc
  rw [slots_stampAll]
  refine map_congr_left fun y _ => ?_
  split <;> rfl

structure Extends (c c' : Contents) (new : List (PageSlot × List UInt8)) : Prop where
  kept : ∀ {loc t}, c.tuple loc = some t → ∃ t', c'.tuple loc = some t' ∧ t'.deletedTx =
    t.deletedTx ∧ t'.data = t.data
  live : c'.live.Perm (c.live++new)
  info : c'.info = c.info

namespace Extends
variable {new new' : List (PageSlot × List UInt8)}
theorem refl (c : Contents) : Extends c c [] := ⟨fun h => ⟨_,h,rfl,rfl⟩,by simp,rfl⟩

theorem trans (h : Extends c c' new) (h' : Extends c' c'' new') : Extends c c'' (new++new') where
  kept ht := by
    obtain ⟨t',ht',hd,hdata⟩ := h.kept ht
    obtain ⟨t'',ht'',hd',hdata'⟩ := h'.kept ht'
    exact ⟨t'',ht'',hd'.trans hd,hdata'.trans hdata⟩
  live := by
    rw [← append_assoc]
    exact h'.live.trans (h.live.append_right new')
  info := h'.info.trans h.info

theorem perm (h : Extends c c' new) (hp : new.Perm new') : Extends c c' new' :=
  ⟨h.kept,h.live.trans (hp.append_left _),h.info⟩

theorem not_live (h : Extends c c' new)
    (ht : c.tuple loc = some t) (hd : t.deletedTx ≠ 0) (d : List UInt8) : (loc,d) ∉ c'.live := by
  intro hm
  obtain ⟨t',ht',hd',-⟩ := mem_live_iff.1 hm
  obtain ⟨t'',ht'',hsame,-⟩ := h.kept ht
  rw [ht'] at ht''
  cases ht''
  omega

theorem of_slots {ts : List Tuple} (h : c'.slots = c.slots++locs.zip ts)
    (hinfo : c'.info = c.info) (hts : ∀ t ∈ ts, t.deletedTx = 0) : Extends c c' (locs.zip (ts.map Tuple.data)) where
  kept {loc t} ht := by
    refine ⟨t,?_,rfl,rfl⟩
    rw [← @mem_slots_iff (loc,t) c',h]
    exact mem_append_left _ (mem_slots_iff.2 ht)
  live := by
    have hnew : ((locs.zip ts).filter fun y => y.2.deletedTx = 0) = locs.zip ts :=
      filter_eq_self.2 fun y hy => by simpa using hts y.2 (of_mem_zip hy).2
    rw [Contents.live,h,filter_append,map_append,hnew,← Contents.live,zip_map_right]
    exact List.Perm.refl _
  info := hinfo

theorem of_insertAt (h : c.insertAt pid t = some (c',loc)) (ht : t.deletedTx = 0) : Extends c c' [(loc,t.data)] where
  kept {loc' t'} ht' := by
    obtain ⟨a,b,hs,hs',-⟩ := slots_insertAt h
    refine ⟨t',?_,rfl,rfl⟩
    have hm := (@mem_slots_iff (loc',t') c).2 ht'
    rw [hs] at hm
    rw [← @mem_slots_iff (loc',t') c',hs']
    simp only [mem_append,mem_cons] at hm ⊢
    tauto
  live := by
    obtain ⟨a,b,hl,hl',-⟩ := live_insertAt h ht
    rw [hl,hl']
    refine perm_middle.trans ?_
    exact (perm_append_singleton _ _).symm
  info := (info_insertAt h).1

theorem of_modify (c : Contents) (loc : PageSlot) (hd : ∀ t, (f t).deletedTx = t.deletedTx)
    (hdata : ∀ t, (f t).data = t.data) : Extends c (c.modify loc f) [] where
  kept {loc' t} ht := by
    have := @tuple_iff_of_slots c (c.modify loc f) (fun l t => if l = loc then f t else t)
      (by rw [slots_modify]; refine map_congr_left fun y _ => ?_; split <;> rfl) loc'
    rw [this,ht,map_some]
    refine ⟨_,rfl,?_⟩
    split
    · exact ⟨hd t,hdata t⟩
    · exact ⟨rfl,rfl⟩
  live := by rw [live_modify c loc hd hdata,append_nil]
  info := info_modify c loc f

end Extends
end Contents

section
open Store
variable {V : Type} (R : RowOps V) {st : Store} {k : TableKey} {c : Contents} {p : Option PageID} {x : Nat}
  {schema : TableSchema} {entries : List (Int × PageSlot)} {ls : List (Located V)}
  {matchFn : Tuple → Except String Bool} {indices : List Int} {clock : Clock}
theorem yields_ensurePosDirectory : Yields k (st.put k c p) ensurePosDirectory
    (fun dir st' => (dir = some c.directory ∧ st' = st.put k c.directed p) ∨
      (dir = none ∧ c.pageCount = none ∧ st' = st.put k c p)) E := by
  refine (yields_step exec_getInfo).2 ?_
  cases hdir : c.info.posDirectory with
  | some dir =>
    have hd : c.directory = dir := by simp [directory,hdir]
    refine .inl ⟨by rw [hd],?_⟩
    rw [directed,setInfo_id]
    rw [hd,← hdir]
  | none =>
    have hd : c.directory = liveSlots c.slots := by simp [directory,hdir]
    refine (yields_step exec_scanSlots).2 ?_
    cases hn : c.pageCount with
    | none =>
      have hscan : c.scanSlots = ([],false) := by simp [scanSlots,hn]
      rw [hscan]
      exact .inr ⟨rfl,rfl,rfl⟩
    | some n =>
      simp only [scanSlots,hn,isSome_some,if_true]
      refine (yields_step (exec_setInfo _)).2 (.inl ⟨by rw [hd],?_⟩)
      rw [directed,hd]

def readEntries (schema : TableSchema) (c : Contents) (entries : List (Int × PageSlot)) : List (Located V) :=
  entries.filterMap fun e => ((c.tuple e.2).bind fun t => R.decodeRow schema t.data).map fun row => ⟨e.2,e.1,row⟩

theorem yields_readLocated : Yields k (st.put k c p) (readLocated R schema entries)
      (fun ls st' => ls = readEntries R schema c entries ∧ st' = st.put k c p) E := by
  induction entries with
  | nil => exact ⟨rfl,rfl⟩
  | cons e entries ih =>
    refine (yields_step (exec_getTuple e.2)).2 (ih.bind fun ls st' hq => ?_)
    obtain ⟨rfl,rfl⟩ := hq
    have hjoin : join ((c.page e.2.pid).map fun q => q.getTuple e.2.slot) = c.tuple e.2 := by
      cases hp : c.page e.2.pid <;> simp [tuple,hp]
    rw [hjoin]
    cases hrow : (c.tuple e.2).bind fun t => R.decodeRow schema t.data with
    | none => exact ⟨by rw [readEntries,readEntries,filterMap_cons,hrow]; rfl,rfl⟩
    | some row => exact ⟨by rw [readEntries,readEntries,filterMap_cons,hrow]; rfl,rfl⟩

def entriesAt (dir : List PageSlot) (indices : List Int) : List (Int × PageSlot) :=
  indices.filterMap fun i => (dirAt dir i).map fun loc => (i,loc)

def locatedRows (c : Contents) (indices : List Int) : List (Located V) :=
  if indices.all fun i => (dirAt c.directory i).isSome then readEntries R c.info.schema c
    (entriesAt c.directory indices)
  else locateScan (fun t => R.decodeRow c.info.schema t.data) c.scanSlots.1 0 indices

theorem yields_locateRows : Yields k (st.put k c p) (locateRows R c.info indices)
      (fun ls st' => (ls = locatedRows R c indices ∧ st' = st.put k c.directed p) ∨
        (ls = [] ∧ c.pageCount = none ∧ st' = st.put k c p)) E := by
  refine yields_ensurePosDirectory.bind fun dir st' hq => ?_
  rcases hq with ⟨rfl,rfl⟩ | ⟨rfl,hn,rfl⟩
  · simp only [locatedRows]
    split
    · exact (yields_readLocated R).mono (fun ls st' hq => .inl hq) fun _ _ he => he
    · exact (yields_step exec_scanSlots).2 (.inl ⟨rfl,rfl⟩)
  · exact .inr ⟨rfl,hn,rfl⟩

theorem yields_logDeletes : Yields k st (logDeletes x locs) (fun _ st' => st' = st) E := by
  refine yields_forM (fun _ st' => st' = st) rfl fun loc locs st' hst => ?_
  subst hst
  have hlog : st'.exec k (.logDelete x loc) = some (some x,st') := rfl
  exact (yields_step hlog).2 rfl

theorem yields_stamp : Yields k (st.put k c p) (stamp x loc)
    (fun _ st' => st' = st.put k (c.modify loc (·.setXMax x)) p) fun _ _ => c.page loc.pid = none := by
  cases hp : c.page loc.pid with
  | none => exact (yields_step (exec_putXMax_none hp)).2 rfl
  | some q => exact (yields_step (exec_putXMax (by simp [hp]))).2 rfl

theorem yields_stamps : Yields k (st.put k c p) (locs.forM (stamp x))
    (fun _ st' => st' = st.put k (c.stampAll x locs) p) fun _ _ => ∃ loc ∈ locs, c.page loc.pid = none := by
  refine yields_forM (fun rest st' => ∃ done, locs = done++rest ∧ st' = st.put k (c.stampAll x done) p)
    ⟨[],rfl,rfl⟩ (fun loc rest st' hst => ?_) |>.mono (fun _ st' hq => ?_) fun _ _ he => he
  · obtain ⟨done,hdone,rfl⟩ := hst
    refine yields_stamp.mono (fun _ st' hq => ⟨done++[loc],by simp [hdone],?_⟩) fun _ _ he => ?_
    · rw [hq,stampAll,stampAll,foldl_append]
      rfl
    · exact ⟨loc,by simp [hdone],page_stampAll_eq_none.1 he⟩
  · obtain ⟨done,hdone,rfl⟩ := hq
    rw [hdone,append_nil]

theorem yields_stampAndUpdate {newRow : Located V → Except String (List V)} {f : List V → Except String (List V)}
    (hf : ∀ l, newRow l = f l.row) : Yields k (st.put k c p) (stampAndUpdate R x newRow ls)
      (fun vs st' => newVersionsVM R x f ls = .ok vs ∧ st' = st.put k (c.stampAll x (ls.map Located.loc)) p)
      fun e st' => (∃ l ∈ ls, c.page l.loc.pid = none) ∨ (newVersionsVM R x f ls = .error e ∧
        ∃ n, 0 < n ∧ st' = st.put k (c.stampAll x ((ls.map Located.loc).take n)) p) := by
  induction ls generalizing c with
  | nil => exact ⟨rfl,rfl⟩
  | cons l ls ih =>
    refine yields_bind.2 (yields_stamp.mono (fun _ st' hq => ?_) fun _ _ he => .inl ⟨l,mem_cons_self,he⟩)
    subst hq
    rw [hf]
    cases hrow : f l.row with
    | error e => exact .inr ⟨by simp [newVersionsVM,hrow],1,by omega,by simp⟩
    | ok row =>
      cases ht : encodePageTuple R x row with
      | error e =>
        refine yields_bind.2 (yields_orThrow (fun a ha => ?_) fun e he => by cases he)
        cases ha
        rw [ht]
        exact .inr ⟨by simp [newVersionsVM,hrow,ht],1,by omega,by simp⟩
      | ok t =>
        refine yields_bind.2 (yields_orThrow (fun a ha => ?_) fun e he => by cases he)
        cases ha
        rw [ht]
        refine yields_bind.2 (yields_orThrow (fun a ha => ?_) fun e he => by cases he)
        cases ha
        refine yields_bind.2 (ih.mono (fun vs st' hq => ?_) fun e st' he => ?_)
        · obtain ⟨hvs,rfl⟩ := hq
          exact ⟨by simp [newVersionsVM,hrow,ht,hvs],rfl⟩
        · rcases he with ⟨l',hl',he⟩ | ⟨hvs,n,hn,rfl⟩
          · exact .inl ⟨l',mem_cons_of_mem _ hl',page_modify_eq_none.1 he⟩
          · exact .inr ⟨by simp [newVersionsVM,hrow,ht,hvs],n+1,by omega,by simp⟩

def matchEntries (schema : TableSchema) (clock : Clock) (matchFn : Tuple → Except String Bool) (c : Contents) :
    List (Int × PageSlot) → Except String (List (Located V))
  | [] => .ok []
  | e :: entries =>
    match c.page e.2.pid with
    | none => .error "fetch page"
    | some q =>
      match q.getTuple e.2.slot with
      | none => matchEntries schema clock matchFn c entries
      | some t =>
        if visibleVM clock t then
          match matchFn t with
          | .error err => .error err
          | .ok ok => (matchEntries schema clock matchFn c entries).map fun rest =>
            ((if ok then R.decodeRow schema t.data else none).map fun row => ⟨e.2,e.1,row⟩).toList++rest
        else matchEntries schema clock matchFn c entries

theorem yields_matchRows : Yields k (st.put k c p) (matchRows R schema clock matchFn entries)
      (fun ls st' => matchEntries R schema clock matchFn c entries = .ok ls ∧ st' = st.put k c p)
      fun e st' => matchEntries R schema clock matchFn c entries = .error e ∧ st' = st.put k c p := by
  induction entries with
  | nil => exact ⟨rfl,rfl⟩
  | cons e entries ih =>
    refine (yields_step (exec_getTuple e.2)).2 ?_
    simp only [matchEntries]
    cases hp : c.page e.2.pid with
    | none => exact ⟨rfl,rfl⟩
    | some q =>
      cases ht : q.getTuple e.2.slot with
      | none => simpa [ht] using ih
      | some t =>
        simp only [map_some,ht]
        split
        · cases hm : matchFn t with
          | error err =>
            exact yields_bind.2 (yields_orThrow (fun a ha => by cases ha) fun e he => by cases he; exact ⟨rfl,rfl⟩)
          | ok ok =>
            refine yields_bind.2 (yields_orThrow (fun a ha => ?_) fun e he => by cases he)
            cases ha
            refine yields_bind.2 (ih.mono (fun ls st' hq => ?_) fun err st' he => ?_)
            · obtain ⟨hls,rfl⟩ := hq
              rw [hls]
              cases hrow : if ok then R.decodeRow schema t.data else none with
              | none => exact ⟨by simp [hrow,Except.map],rfl⟩
              | some row => exact ⟨by simp [hrow,Except.map],rfl⟩
            · rw [he.1]
              exact ⟨rfl,he.2⟩
        · exact ih

theorem yields_locateVM {positions : Option (List Int)} : Yields k (st.put k c p)
    (locateVM R schema positions matchFn)
      (fun ls st' => matchEntries R schema st.clock matchFn c (dirEntries positions c.directory) = .ok ls ∧
        st' = st.put k c.directed p)
      fun e st' => (e = "scan" ∧ c.pageCount = none ∧ st' = st.put k c p) ∨
        (matchEntries R schema st.clock matchFn c (dirEntries positions c.directory) = .error e ∧
          st' = st.put k c.directed p) := by
  have hsame : ∀ entries, matchEntries R schema st.clock matchFn c.directed entries =
      matchEntries R schema st.clock matchFn c entries := by
    intro entries
    induction entries with
    | nil => rfl
    | cons e entries ih => simp only [matchEntries,ih,page_directed]
  refine yields_ensurePosDirectory.bind fun dir st' hq => ?_
  rcases hq with ⟨rfl,rfl⟩ | ⟨rfl,hn,rfl⟩
  · refine (yields_step (show (st.put k c.directed p).exec k .txClock =
      some (st.clock,st.put k c.directed p) from rfl)).2 ?_
    refine (yields_matchRows R).mono (fun ls st' hq => ?_) fun e st' he => ?_
    · rw [hsame] at hq
      exact hq
    · rw [hsame] at he
      exact .inr he
  · exact .inl ⟨rfl,hn,rfl⟩

theorem matchEntries_visible (h : matchEntries R schema clock matchFn c entries = .ok ls) :
    ∀ l ∈ ls, ∃ t, c.tuple l.loc = some t ∧ visibleVM clock t = true := by
  induction entries generalizing ls with
  | nil =>
    cases h
    simp
  | cons e entries ih =>
    simp only [matchEntries] at h
    cases hp : c.page e.2.pid with
    | none => simp [hp] at h
    | some q =>
      cases ht : q.getTuple e.2.slot with
      | none => exact ih (by simpa [hp,ht] using h)
      | some t =>
        simp only [hp,ht] at h
        split at h
        · next hv =>
          cases hm : matchFn t with
          | error err => simp [hm] at h
          | ok ok =>
            simp only [hm] at h
            cases hrest : matchEntries R schema clock matchFn c entries with
            | error err => simp [hrest,Except.map] at h
            | ok rest =>
              simp only [hrest,Except.map,Except.ok.injEq] at h
              subst h
              intro l hl
              rcases mem_append.1 hl with hl | hl
              · obtain ⟨row,-,rfl⟩ := map_eq_some_iff.1 (mem_toList.1 hl)
                exact ⟨t,by simp [tuple,hp,ht],hv⟩
              · exact ih hrest l hl
        · exact ih h

def locatedDirect (c : Contents) (indices : List Int) : List (Located V) :=
  if indices.all fun i => (dirAt c.directory i).isSome then
    (entriesAt c.directory indices).map fun e => ⟨e.2,e.1,[]⟩
  else locateScan (fun _ => some []) c.scanSlots.1 0 indices

theorem yields_locateDirect : Yields k (st.put k c p) (locateDirect indices : Exec (List (Located V)))
      (fun ls st' => (ls = locatedDirect c indices ∧ st' = st.put k c.directed p) ∨
        (ls = [] ∧ c.pageCount = none ∧ st' = st.put k c p))
      fun e _ => e = "scan" ∧ c.pageCount = none := by
  refine yields_ensurePosDirectory.bind fun dir st' hq => ?_
  rcases hq with ⟨rfl,rfl⟩ | ⟨rfl,hn,rfl⟩
  · simp only [locatedDirect]
    split
    · exact .inl ⟨by simp [entriesAt,List.map_filterMap,Option.map_map,Function.comp_def],rfl⟩
    · refine (yields_step exec_scanSlots).2 ?_
      split
      · exact .inl ⟨rfl,rfl⟩
      · next hscan =>
        refine ⟨rfl,?_⟩
        cases hn : c.pageCount with
        | none => rfl
        | some n =>
          rw [scanSlots_directed] at hscan
          simp [scanSlots,hn] at hscan
  · exact .inr ⟨rfl,hn,rfl⟩

def directVersions (x : Nat) (newByIndex : Int → Option (List V)) : List (Located V) →
    Except String (List (List V × Tuple))
  | [] => .ok []
  | l :: ls =>
    match newByIndex l.rowIdx with
    | none => directVersions x newByIndex ls
    | some nv =>
      match encodePageTuple R x nv with
      | .error e => .error e
      | .ok t => (directVersions x newByIndex ls).map ((nv,t) :: ·)

theorem yields_stampDirect {newByIndex : Int → Option (List V)} : Yields k (st.put k c p)
    (stampDirect R x schema newByIndex ls)
      (fun r st' => directVersions R x newByIndex ls = .ok r.2 ∧ r.1.map Located.loc = ls.map Located.loc ∧
        st' = st.put k (c.stampAll x (ls.map Located.loc)) p)
      fun e st' => (∃ l ∈ ls, c.page l.loc.pid = none) ∨ (directVersions R x newByIndex ls = .error e ∧
        ∃ n, 0 < n ∧ st' = st.put k (c.stampAll x ((ls.map Located.loc).take n)) p) := by
  induction ls generalizing c with
  | nil => exact ⟨rfl,rfl,rfl⟩
  | cons l ls ih =>
    refine (yields_step (exec_getTuple l.loc)).2 ?_
    cases hp : c.page l.loc.pid with
    | none => exact .inl ⟨l,mem_cons_self,hp⟩
    | some q =>
      refine yields_bind.2 (yields_stamp.mono (fun _ st' hq => ?_) fun _ _ he => .inl ⟨l,mem_cons_self,he⟩)
      subst hq
      have hrest : ∀ new : List (List V × Tuple),
          (∀ rest, directVersions R x newByIndex ls = .ok rest →
            directVersions R x newByIndex (l :: ls) = .ok (new++rest)) →
          (∀ e, directVersions R x newByIndex ls = .error e → directVersions R x newByIndex (l :: ls) = .error e) →
          Yields k (st.put k (c.modify l.loc (·.setXMax x)) p) (do
            let rest ← stampDirect R x schema newByIndex ls
            pure ({ l with row := ((q.getTuple l.loc.slot).bind fun t => R.decodeRow schema t.data).getD [] } :: rest.1,
              new++rest.2))
            (fun r st' => directVersions R x newByIndex (l :: ls) = .ok r.2 ∧ r.1.map Located.loc =
              (l :: ls).map Located.loc ∧
              st' = st.put k (c.stampAll x ((l :: ls).map Located.loc)) p)
            fun e st' => (∃ l' ∈ l :: ls, c.page l'.loc.pid = none) ∨
              (directVersions R x newByIndex (l :: ls) = .error e ∧
              ∃ n, 0 < n ∧ st' = st.put k (c.stampAll x (((l :: ls).map Located.loc).take n)) p) := by
        intro new hok herr
        refine yields_bind.2 (ih.mono (fun r st' hq => ?_) fun e st' he => ?_)
        · obtain ⟨hr,hlocs,rfl⟩ := hq
          exact ⟨hok _ hr,by simp [hlocs],rfl⟩
        · rcases he with ⟨l',hl',he⟩ | ⟨he,n,hn,rfl⟩
          · exact .inl ⟨l',mem_cons_of_mem _ hl',page_modify_eq_none.1 he⟩
          · exact .inr ⟨herr e he,n+1,by omega,by simp⟩
      cases hnew : newByIndex l.rowIdx with
      | none =>
        exact hrest [] (fun rest h => by simp [directVersions,hnew,h]) fun e h => by simp [directVersions,hnew,h]
      | some nv =>
        refine yields_bind.2 (yields_bind.2 (yields_orThrow (fun t ht => ?_) fun e ht => ?_))
        · exact hrest [(nv,t)] (fun rest h => by simp [directVersions,hnew,ht,h,Except.map])
            fun e h => by simp [directVersions,hnew,ht,h,Except.map]
        · exact .inr ⟨by simp [directVersions,hnew,ht],1,by omega,by simp⟩

theorem locateScan_live {decode : Tuple → Option (List V)} {slots : List (PageSlot × Tuple)}
    {pos : Int} {wanted : List Int}
    {l : Located V} (h : l ∈ locateScan decode slots pos wanted) : ∃ t, (l.loc,t) ∈ slots ∧ t.deletedTx = 0 := by
  induction slots generalizing pos wanted with
  | nil => simp [locateScan] at h
  | cons y slots ih =>
    obtain ⟨loc,t⟩ := y
    have hrest : ∀ {pos wanted}, l ∈ locateScan decode slots pos wanted → ∃ t',
      (l.loc,t') ∈ (loc,t) :: slots ∧ t'.deletedTx = 0 := by
      intro pos wanted h
      obtain ⟨t',hm,hd⟩ := ih h
      exact ⟨t',mem_cons_of_mem _ hm,hd⟩
    simp only [locateScan] at h
    split at h
    · exact hrest h
    · next hd =>
      split at h
      · split at h
        · simp at h
        · rcases mem_cons.1 h with rfl | h
          · exact ⟨t,mem_cons_self,Decidable.not_not.1 hd⟩
          · split at h
            · simp at h
            · exact hrest h
      · split at h
        · simp at h
        · exact hrest h
end

namespace Contents

def Directed (c : Contents) : Prop := ∀ loc ∈ c.directory, ∃ t, c.tuple loc = some t ∧ t.deletedTx = 0

variable {V : Type} {R : RowOps V} {c : Contents} {indices : List Int}
theorem mem_entriesAt {dir : List PageSlot} {e : Int × PageSlot} (h : e ∈ entriesAt dir indices) : e.2 ∈ dir := by
  obtain ⟨i,-,h⟩ := mem_filterMap.1 h
  obtain ⟨loc,hloc,rfl⟩ := map_eq_some_iff.1 h
  unfold dirAt at hloc
  split at hloc
  · exact mem_of_getElem? hloc
  · cases hloc

theorem scanSlots_subset : ∀ y ∈ c.scanSlots.1, y ∈ c.slots := by
  unfold scanSlots
  split
  · exact fun y hy => hy
  · simp

section
variable {P : PageSlot → Prop} (hdir : ∀ loc ∈ c.directory, P loc)
  (hlive : ∀ {loc t}, c.tuple loc = some t → t.deletedTx = 0 → P loc)
include hdir hlive
theorem forall_locatedRows : ∀ l ∈ locatedRows R c indices, P l.loc := by
  intro l hl
  unfold locatedRows at hl
  split at hl
  · obtain ⟨e,he,hl⟩ := mem_filterMap.1 hl
    obtain ⟨row,-,rfl⟩ := map_eq_some_iff.1 hl
    exact hdir _ (mem_entriesAt he)
  · obtain ⟨t,hm,hd⟩ := locateScan_live hl
    exact hlive (mem_slots_iff.1 (scanSlots_subset _ hm)) hd

theorem forall_locatedDirect : ∀ l ∈ (locatedDirect c indices : List (Located V)), P l.loc := by
  intro l hl
  unfold locatedDirect at hl
  split at hl
  · obtain ⟨e,he,rfl⟩ := mem_map.1 hl
    exact hdir _ (mem_entriesAt he)
  · obtain ⟨t,hm,hd⟩ := locateScan_live hl
    exact hlive (mem_slots_iff.1 (scanSlots_subset _ hm)) hd
end
end Contents

theorem Tuple.fits_congr (h : t'.data = t.data) : t'.Fits ↔ t.Fits := by simp [Tuple.Fits,Tuple.length,h]

section
open Store
variable {V : Type} (R : RowOps V) {st : Store} {k : TableKey} {c : Contents} {x : Nat} {info : TableInfo}
  {vs : List (NewVersion V)} {placed : List (Option PageSlot × Tuple)} {enc : Tuple}
theorem yields_hotInsertOnPage (hd : enc.deletedTx = 0) :
    Yields k (st.put k c none) (hotInsertOnPage x loc enc) (fun placed st' => ∃ c', st' = st.put k c' none ∧
      c'.pages.length = c.pages.length ∧ placed.2.data = enc.data ∧ placed.2.deletedTx = 0 ∧
      c.Extends c' (placed.1.map fun l => (l,enc.data)).toList ∧ (placed.1.isSome → enc.Fits)) E := by
  cases hp : c.page loc.pid with
  | none =>
    refine (yields_step (exec_fetchPage_none hp)).2 ?_
    exact ⟨c,rfl,rfl,rfl,hd,.refl c,by simp⟩
  | some q =>
    have hsome : (c.page loc.pid).isSome := by simp [hp]
    refine (yields_step (exec_fetchPage hsome)).2 ((yields_step (exec_freeSpace _)).2 ?_)
    split
    · refine (yields_step (exec_unpinPage _ _)).2 ?_
      exact ⟨c,rfl,rfl,rfl,hd,.refl c,by simp⟩
    · cases hi : c.insertAt loc.pid enc.setHOTHeapTuple with
      | none =>
        refine (yields_step (exec_insertTuple_none hsome hi)).2 ((yields_step (exec_unpinPage _ _)).2 ?_)
        exact ⟨c,rfl,rfl,rfl,hd,.refl c,by simp⟩
      | some y =>
        obtain ⟨c',new⟩ := y
        have hpid : new = ⟨loc.pid,new.slot⟩ := by
          obtain ⟨-,-,-,-,hpid,-⟩ := slots_insertAt hi
          rw [← hpid]
        have hpage : (c'.page loc.pid).isSome := by
          obtain ⟨p,hp',h⟩ := bind_eq_some_iff.1 hi
          obtain ⟨z,-,h⟩ := map_eq_some_iff.1 h
          cases h
          simp [page_setPage z.1 hp']
        have hlog : ∀ st' : Store, st'.exec k (.logInsert x ⟨loc.pid,new.slot⟩ enc.setHOTHeapTuple)
          = some (some x,st') :=
          fun _ => rfl
        refine (yields_step (exec_insertTuple hi)).2 ((yields_step (exec_setHOTUpdated hpage)).2 ?_)
        refine (yields_step (hlog _)).2 ((yields_step (exec_unpinPageDirty _ _)).2 ?_)
        have hadd := (Contents.Extends.of_insertAt hi hd).trans
          (.of_modify c' loc (fun t => t.deletedTx_setHOTUpdated new.slot) fun t => t.data_setHOTUpdated new.slot)
        rw [← hpid]
        have hfits : enc.setHOTHeapTuple.Fits := fits_of_insertAt hi
        exact ⟨_,rfl,by simp [(info_insertAt hi).2],rfl,hd,hadd,fun _ => (Tuple.fits_congr rfl).1 hfits⟩

theorem yields_tryHOTInsert {oldRow newRow : List V} (hd : enc.deletedTx = 0) :
    Yields k (st.put k c none) (tryHOTInsert R x info loc oldRow newRow enc)
    (fun placed st' => ∃ c', st' = st.put k c' none ∧
      c'.pages.length = c.pages.length ∧ placed.2.data = enc.data ∧ placed.2.deletedTx = 0 ∧
      c.Extends c' (placed.1.map fun l => (l,enc.data)).toList ∧ (placed.1.isSome → enc.Fits)) E := by
  unfold tryHOTInsert
  split
  · exact ⟨c,rfl,rfl,rfl,hd,.refl c,by simp⟩
  · have hlock : (st.put k c none).exec k (.lockPage loc.pid) = some ((),st.put k c none) := rfl
    refine (yields_step hlock).2 ((yields_hotInsertOnPage hd).bind fun placed st' hq => ?_)
    exact (yields_step (show st'.exec k (.unlockPage loc.pid) = some ((),st') from rfl)).2 hq

def HotPlaced : List (NewVersion V) → List (Option PageSlot × Tuple) → Prop :=
  List.Forall₂ fun v p => p.2.data = v.encoded.data ∧ p.2.deletedTx = 0 ∧ (p.1.isSome → v.encoded.Fits)

def hotRows (placed : List (Option PageSlot × Tuple)) : List (PageSlot × List UInt8) :=
  placed.flatMap fun p => (p.1.map fun l => (l,p.2.data)).toList

theorem yields_tryHOTInserts (hd : ∀ v ∈ vs, v.encoded.deletedTx = 0) :
    Yields k (st.put k c none) (tryHOTInserts R x info vs) (fun placed st' => ∃ c', st' = st.put k c' none ∧
      c'.pages.length = c.pages.length ∧ HotPlaced vs placed ∧ c.Extends c' (hotRows placed)) E := by
  induction vs generalizing c with
  | nil => exact ⟨c,rfl,rfl,.nil,.refl c⟩
  | cons v vs ih =>
    rw [forall_mem_cons] at hd
    refine (yields_tryHOTInsert R hd.1).bind fun placed st' hq => ?_
    obtain ⟨c1,rfl,hlen,hdata,hdel,hext,hfits⟩ := hq
    refine (ih hd.2).bind fun rest st' hq => ?_
    obtain ⟨c2,rfl,hlen2,hplaced,hext2⟩ := hq
    refine ⟨c2,rfl,hlen2.trans hlen,.cons ⟨hdata,hdel,hfits⟩ hplaced,?_⟩
    rw [← hdata] at hext
    exact hext.trans hext2

theorem fillSlots_perm {app : List PageSlot} (h : app.length = (placed.filter fun p => p.1.isNone).length) :
    ((fillSlots placed app).zip (placed.map fun p => p.2.data)).Perm
      (hotRows placed++app.zip ((placed.filter fun p => p.1.isNone).map fun p => p.2.data)) := by
  induction placed generalizing app with
  | nil => simp [fillSlots,hotRows]
  | cons p placed ih =>
    obtain ⟨hot,t⟩ := p
    cases hot with
    | some loc => simpa [fillSlots,hotRows] using ih (by simpa using h)
    | none =>
      cases app with
      | nil => simp at h
      | cons loc app =>
        have hrest : app.length = (placed.filter fun p => p.1.isNone).length := by simpa using h
        have := ih hrest
        simp only [fillSlots,map_cons,zip_cons_cons,filter_cons,isNone_none,if_true]
        exact (this.cons _).trans perm_middle.symm

theorem fillSlots_nil (h : placed.filter (fun p => p.1.isNone) = []) :
    fillSlots placed [] = placed.map fun p => p.1.getD ⟨⟨0,0⟩,0⟩ := by
  induction placed with
  | nil => rfl
  | cons p placed ih =>
    obtain ⟨hot,t⟩ := p
    cases hot with
    | none => simp at h
    | some loc => simp [fillSlots,ih (by simpa using h)]

theorem length_fillSlots (placed : List (Option PageSlot × Tuple)) (app : List PageSlot) :
    (fillSlots placed app).length = placed.length := by
  induction placed generalizing app with
  | nil => rfl
  | cons p placed ih =>
    obtain ⟨hot,t⟩ := p
    cases hot with
    | some loc => simp [fillSlots,ih]
    | none => cases app <;> simp [fillSlots,ih]

def StoreError (c : Contents) (vs : List (NewVersion V)) (e : String) : Prop :=
  (e = "page count" ∧ c.pageCount = none) ∨ ∃ v ∈ vs, ∃ pages, pages < c.pages.length+vs.length ∧
    PlaceError pages v.encoded e

theorem PlaceError.congr {pages : Nat} {e : String} (h : PlaceError pages t e) (hd : t'.data = t.data) :
    PlaceError pages t' e := by
  cases h with
  | full h => exact .full h
  | large h =>
    have hlen : t'.length = t.length := by rw [Tuple.length,Tuple.length,hd]
    exact hlen ▸ .large fun hf => h ((Tuple.fits_congr hd).1 hf)

theorem HotPlaced.exists_of_mem (h : HotPlaced vs placed)
    {p : Option PageSlot × Tuple} (hp : p ∈ placed) : ∃ v ∈ vs, p.2.data = v.encoded.data ∧ p.2.deletedTx = 0 := by
  induction h with
  | nil => simp at hp
  | @cons v q vs placed hq _ ih =>
    rcases mem_cons.1 hp with rfl | hp
    · exact ⟨v,mem_cons_self,hq.1,hq.2.1⟩
    · obtain ⟨v',hv',hr⟩ := ih hp
      exact ⟨v',mem_cons_of_mem _ hv',hr⟩

theorem HotPlaced.data_eq (h : HotPlaced vs placed) : (placed.map fun p => p.2.data) =
    vs.map fun v => v.encoded.data := by
  induction h with
  | nil => rfl
  | cons hq _ ih => simp [hq.1,ih]

theorem HotPlaced.fits (h : HotPlaced vs placed)
    (hrest : ∀ t ∈ (placed.filter fun p => p.1.isNone).map Prod.snd, t.Fits) : ∀ v ∈ vs, v.encoded.Fits := by
  induction h with
  | nil => simp
  | @cons v q vs placed hq _ ih =>
    rw [forall_mem_cons]
    obtain ⟨hot,t⟩ := q
    cases hot with
    | some loc => exact ⟨hq.2.2 rfl,ih (by simpa using hrest)⟩
    | none =>
      simp only [filter_cons,isNone_none,if_true,map_cons,forall_mem_cons] at hrest
      exact ⟨(Tuple.fits_congr hq.1).1 hrest.1,ih hrest.2⟩

theorem yields_storeVersions (hd : ∀ v ∈ vs, v.encoded.deletedTx = 0) : Yields k (st.put k c none)
    (storeVersions R x info vs)
      (fun r st' => ∃ c', st' = st.put k c' none ∧ r.length = vs.length ∧
        c.Extends c' ((r.map Prod.snd).zip (vs.map fun v => v.encoded.data)) ∧ ∀ v ∈ vs, v.encoded.Fits)
      fun e st' => ∃ c' new p, st' = st.put k c' p ∧ c.Extends c' new ∧ StoreError c vs e := by
  refine (yields_tryHOTInserts R hd).bind fun placed st' hq => ?_
  obtain ⟨c1,rfl,hlen,hplaced,hext⟩ := hq
  have hcount : placed.length = vs.length := by simpa using congrArg length hplaced.data_eq
  have hslots : ∀ {app : List PageSlot}, app.length = (placed.filter fun p => p.1.isNone).length →
      ((fillSlots placed app).zip (vs.map fun v => v.encoded.data)).Perm
        (hotRows placed++app.zip ((placed.filter fun p => p.1.isNone).map fun p => p.2.data)) := by
    intro app happ
    rw [← hplaced.data_eq]
    exact fillSlots_perm happ
  have hdead : ∀ t' ∈ (placed.filter fun p => p.1.isNone).map Prod.snd, t'.deletedTx = 0 := by
    intro t' ht'
    obtain ⟨q,hq,rfl⟩ := mem_map.1 ht'
    obtain ⟨v,-,-,hdel⟩ := hplaced.exists_of_mem (mem_filter.1 hq).1
    exact hdel
  have happend : Yields k (st.put k c1 none) (do
      let app ← appendTuplesLocked x ((placed.filter fun p => p.1.isNone).map Prod.snd)
      pure ((placed.map fun p => p.1.isSome).zip (fillSlots placed app)))
      (fun r st' => ∃ c', st' = st.put k c' none ∧ r.length = vs.length ∧
        c.Extends c' ((r.map Prod.snd).zip (vs.map fun v => v.encoded.data)) ∧ ∀ v ∈ vs, v.encoded.Fits)
      fun e st' => ∃ c' new p, st' = st.put k c' p ∧ c.Extends c' new ∧ StoreError c vs e := by
    refine yields_bind.2 (yields_appendTuplesLocked.mono (fun app st' hq => ?_) fun e st' he => ?_)
    · obtain ⟨c2,rfl,happ,hstored⟩ := hq
      have hext2 := Contents.Extends.of_slots hstored.slots hstored.info hdead
      rw [length_map] at happ
      refine ⟨c2,rfl,by simp [length_fillSlots,hcount],?_,hplaced.fits ?_⟩
      · have hzip : (((placed.map fun p => p.1.isSome).zip (fillSlots placed app)).map Prod.snd) =
          fillSlots placed app :=
          map_snd_zip (by simp [length_fillSlots])
        rw [hzip]
        refine (hext.trans hext2).perm ((hslots happ).trans ?_).symm
        rw [List.map_map]
        exact List.Perm.refl _
      · have := hstored.fits
        rw [take_of_length_le (by simp [happ])] at this
        exact this
    · rcases he with ⟨rfl,hcnt,rfl⟩ | ⟨c2,locs,p,rfl,hstop⟩
      · refine ⟨c1,_,none,rfl,hext,.inl ⟨rfl,?_⟩⟩
        rw [pageCount,← hlen]
        exact hcnt
      · obtain ⟨t',pages,ht',hpages,hreason⟩ := hstop.next
        obtain ⟨q,hq,rfl⟩ := mem_map.1 (mem_of_getElem? ht')
        obtain ⟨v,hv,hdata,-⟩ := hplaced.exists_of_mem (mem_filter.1 hq).1
        have hlt := (List.getElem?_eq_some_iff.1 ht').1
        have hle := length_filter_le (fun p : Option PageSlot × Tuple => p.1.isNone) placed
        rw [length_map] at hlt
        exact ⟨c2,_,p,rfl,hext.trans (.of_slots hstop.slots hstop.info hdead),.inr ⟨v,hv,pages,by omega,
          hreason.congr hdata.symm⟩⟩
  dsimp only
  cases hnon : (placed.filter fun p => p.1.isNone).map Prod.snd with
  | nil =>
    have hnil : placed.filter (fun p => p.1.isNone) = [] := map_eq_nil_iff.1 hnon
    refine ⟨c1,rfl,by simp [hcount],?_,hplaced.fits (by simp [hnil])⟩
    rw [List.map_map]
    show c.Extends c1 ((placed.map fun p => p.1.getD ⟨⟨0,0⟩,0⟩).zip _)
    rw [← fillSlots_nil hnil]
    refine hext.perm ((hslots (by simp [hnil])).trans ?_).symm
    simp [hnil]
  | cons t ts =>
    rw [hnon] at happend
    exact happend

def MovesTo (indices : List Int) (locs : List PageSlot) (i i' : TableInfo) : Prop :=
  i' = { i with posDirectory := i.posDirectory.map (setPositions indices locs), indexes := i'.indexes }

theorem yields_replaceVersions {indices hotKeys : List Int} {guarded : Bool}
    {newIndexes : List Int → List (List V) → Int → List Index → List Index}
    (hd : ∀ v ∈ vs, v.encoded.deletedTx = 0) :
    Yields k (st.put k c none) (replaceVersions R x info indices hotKeys vs guarded newIndexes)
      (fun _ st' => ∃ c1 locs f, st' = st.put k (c1.setInfo f) none ∧ locs.length = vs.length ∧
        c.Extends c1 (locs.zip (vs.map fun v => v.encoded.data)) ∧ (∀ v ∈ vs, v.encoded.Fits) ∧
        MovesTo indices locs c.info (f c.info))
      fun e st' => ∃ c1 new f p, st' = st.put k (c1.setInfo f) p ∧ c.Extends c1 new ∧
        (StoreError c vs e ∨ (e = "index out of range" ∧ guarded = false ∧ vs.length < indices.length)) := by
  refine yields_bind.2 ((yields_storeVersions R hd).mono (fun r st' hq => ?_) fun e st' he => ?_)
  · obtain ⟨c1,rfl,hlen,hext,hfits⟩ := hq
    have hlocs : (r.map Prod.snd).length = vs.length := by simpa using hlen
    refine yields_bind.2 ((yields_cmd (exec_setInfo _)).2 ?_)
    dsimp only
    split
    · next hrange =>
      simp only [Bool.and_eq_true,Bool.not_eq_true',isEmpty_eq_false_iff] at hrange
      refine ⟨c1,_,_,none,rfl,hext,.inr ⟨rfl,hrange.1,?_⟩⟩
      by_contra hle
      exact hrange.2 (by simp [nonHotIndices,drop_of_length_le (Nat.le_of_not_lt hle)])
    · split
      · exact ⟨c1,_,_,rfl,hlocs,hext,hfits,rfl⟩
      · refine (yields_cmd (exec_setInfo _)).2 ?_
        rw [setInfo_setInfo]
        exact ⟨c1,_,_,rfl,hlocs,hext,hfits,rfl⟩
  · obtain ⟨c1,new,p,rfl,hext,herr⟩ := he
    exact ⟨c1,new,id,p,rfl,hext,.inl herr⟩

theorem yields_finish {count : Int → Int} {p : Option PageID} : Yields k (st.put k c p) (finish x count)
      (fun n st' => n = count c.info.rowCount ∧
        st' = st.put k (c.setInfo fun i => { i with lastTxID := x, rowCount := count i.rowCount }) p) E := by
  refine (yields_step (exec_setInfo _)).2 ((yields_step exec_getInfo).2 ?_)
  have hsync : ∀ st' : Store, st'.exec k (.syncCatalog x) = some ((),st') := fun _ => rfl
  have hlog : ∀ st' : Store, st'.exec k (.logCommit x) = some (some x,st') := fun _ => rfl
  exact (yields_step (hsync _)).2 ((yields_step (hlog _)).2 ⟨rfl,rfl⟩)
end
end VaultDB.Storage
