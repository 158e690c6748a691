import VaultDB.Storage.Phases
set_option autoImplicit false

/-!
How the row statements end when they run alone: what is left of the table after a success and after
each kind of failure.
-/

namespace VaultDB.Storage
open Lib Stmt Exec List Option Contents
variable {E : String → Store → Prop}
namespace Store

def tick (st : Store) : Store :=
  { st with clock := ⟨st.clock.txCounter+1,max st.clock.mgrCounter (st.clock.txCounter+2)⟩ }
abbrev nextID (st : Store) : Nat := st.clock.txCounter+1

variable {st : Store} {k : TableKey} {c : Contents} {p : Option PageID}
theorem exec_nextTxID : (st.put k c p).exec k .nextTxID = some (st.clock.txCounter+1,st.tick.put k c p) := rfl

theorem yields_getTableForWrite : Yields k (st.put k c p) (getTableForWrite k)
    (fun _ st' => st' = st.put k c p) E := by
  have hlock : (st.put k c p).exec k .lockTable = some (true,st.put k c p) := by simp [exec]
  exact (yields_step hlock).2 rfl

theorem exec_unlockTable : st.exec k .unlockTable = some ((),st) := rfl
theorem exec_relockTable : st.exec k .relockTable = some ((),st) := rfl

theorem yields_begin {α : Type} {body : Nat → Exec α} {Q : α → Store → Prop}
    (h : Yields k (st.tick.put k c p) (body st.nextID) Q E) : Yields k (st.put k c p) (do
      let txID ← Exec.cmd .nextTxID
      getTableForWrite k
      body txID) Q E := by
  refine (yields_step exec_nextTxID).2 (yields_getTableForWrite.bind fun _ st' hq => ?_)
  rwa [hq]

end Store

section
open Store
variable {V : Type} (R : RowOps V) {st : Store} {k : TableKey} {c : Contents}
  {x : Nat} {locs : List PageSlot} {p : Option PageID} {is : List Int}
  {ls : List (Located V)} {vs : List (NewVersion V)} {t : Tuple} {n : Nat} {news : List (List V × Tuple)}
def encodedRows [BEq V] (c : Contents) (x : Nat) (rows : List (List V)) : Except String (List Tuple) :=
  let schema := c.info.schema
  let pkIdx := schema.columns.findIdx? (·.primaryKey)
  let pkIndex := (pkIdx.bind fun i => schema.columns[i]?).bind fun col =>
    c.info.indexes.find? fun idx => R.toLower idx.column == R.toLower col.name
  let slots := if pkIdx.isSome && pkIndex.isNone then c.scanSlots.1 else []
  encodeRows R schema pkIdx pkIndex x rows ((pkIdx.map fun i => existingPKs R schema i slots).getD [])

def Finished (x : Nat) (added : Int) (i i' : TableInfo) : Prop :=
  i' = { i with lastTxID := x, rowCount := i.rowCount+added, indexes := i'.indexes }

theorem yields_insertRows [BEq V] {rows : List (List V)} : Yields k (st.put k c none) (insertRows R k rows)
      (fun n st' => n = rows.length ∧ ∃ ts c1 locs f, encodedRows R c st.nextID rows = .ok ts ∧
        locs.length = ts.length ∧ Stored notePositions c c1 locs ts ∧ st' = st.tick.put k (c1.setInfo f) none ∧
        Finished st.nextID rows.length c1.info (f c1.info))
      fun e st' => (encodedRows R c st.nextID rows = .error e ∧ st' = st.tick.put k c none) ∨
        (e = "page count" ∧ c.pageCount = none) ∨
        ∃ ts c1 locs p, encodedRows R c st.nextID rows = .ok ts ∧ Stopped notePositions c c1 locs ts e ∧
          st' = st.tick.put k c1 p := by
  refine yields_begin ?_
  refine (yields_unlockOnError (Q := fun _ st' => ∃ ts c1 locs,
    encodedRows R c st.nextID rows = .ok ts ∧ locs.length = ts.length ∧ Stored notePositions c c1 locs ts ∧
    st' = st.tick.put k c1 none) ?_).bind fun _ st' hq => ?_
  · refine (yields_step exec_getInfo).2 ?_
    dsimp only
    refine yields_bind.2 (Yields.mono (Q := fun scan st' => st' = st.tick.put k c none ∧
      encodedRows R c st.nextID rows =
      encodeRows R c.info.schema (c.info.schema.columns.findIdx? (·.primaryKey))
        (((c.info.schema.columns.findIdx? (·.primaryKey)).bind fun i => c.info.schema.columns[i]?).bind fun col =>
          c.info.indexes.find? fun idx => R.toLower idx.column == R.toLower col.name) st.nextID rows
        (((c.info.schema.columns.findIdx? (·.primaryKey)).map fun i => existingPKs R c.info.schema i scan.1).getD []))
      (E := fun _ _ => False) ?_ (fun scan st' hq => ?_) fun _ _ he => he.elim)
    · unfold encodedRows
      split
      · next hscan =>
        refine (yields_cmd exec_scanSlots).2 ⟨rfl,?_⟩
        simp only [hscan,if_true]
      · next hscan => exact ⟨rfl,by simp only [hscan]; rfl⟩
    · obtain ⟨rfl,henc⟩ := hq
      rw [henc]
      refine yields_bind.2 (yields_orThrow (fun ts hts => ?_) fun e he => .inl ⟨he,rfl⟩)
      refine (yields_step exec_pageCount).2 ?_
      cases hn : c.pageCount with
      | none => exact .inr (.inl ⟨rfl,rfl⟩)
      | some n =>
        have hlen : n = c.pages.length := by
          unfold pageCount at hn
          split at hn
          · cases hn
          · exact (some.inj hn).symm
        subst hlen
        refine yields_insertTuples.mono (fun _ st' hq => ?_) fun e st' he => ?_
        · obtain ⟨c1,locs,rfl,hlocs,hstored⟩ := hq
          exact ⟨ts,c1,locs,hts,hlocs,hstored,rfl⟩
        · obtain ⟨c1,locs,p,rfl,hstop⟩ := he
          exact .inr (.inr ⟨ts,c1,locs,p,hts,hstop,rfl⟩)
  · obtain ⟨ts,c1,locs,hts,hlocs,hstored,rfl⟩ := hq
    refine (yields_step exec_unlockTable).2 ?_
    refine yields_finish.bind fun n st' hq => ?_
    obtain ⟨rfl,rfl⟩ := hq
    refine (yields_step (exec_setInfo _)).2 ?_
    rw [setInfo_setInfo]
    exact ⟨rfl,ts,c1,locs,_,hts,hlocs,hstored,rfl,rfl⟩

def Contents.Room (c : Contents) (n : Nat) : Prop := c.pages.length+n ≤ 0xFFFFFFFF

theorem Contents.Room.pageCount (h : c.Room n) : c.pageCount ≠ none := by
  unfold Contents.Room at h
  unfold Contents.pageCount
  rw [if_neg (by omega)]
  simp

theorem StoreError.large {e : String} (h : StoreError c vs e) (hroom : c.Room vs.length) : ∃ v ∈ vs,
    ¬v.encoded.Fits := by
  rcases h with ⟨-,hn⟩ | ⟨v,hv,pages,hpages,hreason⟩
  · exact absurd hn hroom.pageCount
  · cases hreason with
    | full hfull =>
      unfold Contents.Room at hroom
      have : maxPages = 8589934592 := by decide
      omega
    | large hlarge => exact ⟨v,hv,hlarge⟩

def Spoiled (k : TableKey) (c : Contents) (x : Nat) (locs : List PageSlot) (st' : Store) : Prop :=
  ∃ n c₁ new g, 0 < n ∧ (c.stampAll x (locs.take n)).Extends c₁ new ∧ st'.table k = some (c₁.setInfo g)

theorem Spoiled.of_stamps (hn : 0 < n) : Spoiled k c x locs (st.put k (c.stampAll x (locs.take n)) p) :=
  ⟨n,_,[],id,hn,.refl _,by simp [setInfo_id (f := id)]⟩

theorem Spoiled.of_extends {c1 : Contents}
    {new : List (PageSlot × List UInt8)} {g : TableInfo → TableInfo} (h : (c.stampAll x locs).Extends c1 new) :
    Spoiled k c x locs (st.put k (c1.setInfo g) p) :=
  ⟨locs.length+1,c1,new,g,by omega,by rwa [take_of_length_le (by omega)],by simp⟩

theorem Spoiled.live_ne (hx : x ≠ 0) {st' : Store} (h : Spoiled k c x locs st')
    (hne : locs ≠ []) (hlive : ∀ loc ∈ locs, ∃ t, c.tuple loc = some t ∧ t.deletedTx = 0) :
    ∃ c', st'.table k = some c' ∧ c'.live ≠ c.live := by
  obtain ⟨n,c1,new,g,hn,hext,htab⟩ := h
  refine ⟨_,htab,fun heq => ?_⟩
  obtain ⟨loc,locs,rfl⟩ := exists_cons_of_ne_nil hne
  obtain ⟨t,ht,hd⟩ := hlive loc mem_cons_self
  obtain ⟨m,rfl⟩ : ∃ m, n = m+1 := ⟨n-1,by omega⟩
  have hstamped : (c.stampAll x ((loc :: locs).take (m+1))).tuple loc = some (t.setXMax x) := by
    rw [tuple_stampAll,ht]
    simp
  have hm : (loc,t.data) ∈ c.live := mem_live_iff.2 ⟨t,ht,hd,rfl⟩
  rw [← heq] at hm
  exact hext.not_live hstamped hx t.data hm

theorem yields_updateRows {updates : List (String × V)}
    (hpages : ∀ l ∈ locatedRows R c is, c.page l.loc.pid ≠ none) (hroom : c.Room (locatedRows R c is).length) :
    Yields k (st.put k c none) (updateRows R k is updates)
      (fun _ _ => ∃ vs, newVersionsVM R st.nextID (applyUpdates R c.info.schema.columns updates)
        (locatedRows R c is) = .ok vs ∧ ∀ v ∈ vs, v.encoded.Fits)
      fun _ st' => (∀ vs, newVersionsVM R st.nextID (applyUpdates R c.info.schema.columns updates)
        (locatedRows R c is) = .ok vs → ∃ v ∈ vs, ¬v.encoded.Fits) ∧ locatedRows R c is ≠ [] ∧
        Spoiled k c.directed st.nextID ((locatedRows R c is).map Located.loc) st' := by
  refine yields_begin ?_
  refine (yields_unlockOnError (Q := fun _ st' => (∃ vs, newVersionsVM R st.nextID
    (applyUpdates R c.info.schema.columns updates) (locatedRows R c is) = .ok vs ∧ ∀ v ∈ vs, v.encoded.Fits) ∧
    ∃ c1, st' = st.tick.put k c1 none) ?_).bind fun n st' hq => ?_
  · refine (yields_step exec_getInfo).2 ((yields_locateRows R).bind fun ls st' hq => ?_)
    rcases hq with ⟨rfl,rfl⟩ | ⟨-,hn,-⟩
    · refine yields_logDeletes.bind fun _ st' hq => ?_
      subst hq
      refine yields_bind.2 ((yields_stampAndUpdate R
        (f := applyUpdates R c.info.schema.columns updates) fun _ => rfl).mono
        (fun vs st' hq => ?_) fun e st' he => ?_)
      · obtain ⟨hvs,rfl⟩ := hq
        have hok := newVersionsVM_ok hvs
        have hlen : vs.length = (locatedRows R c is).length := by simpa using congrArg length hok.1
        have hdead : ∀ v ∈ vs, v.encoded.deletedTx = 0 := fun v hv => (encodePageTuple_ok (hok.2 v hv).2).1
        refine yields_bind.2 ((yields_replaceVersions R hdead).mono (fun _ st' hq => ?_) fun e st' he => ?_)
        · obtain ⟨c1,locs,g,rfl,-,-,hfits,-⟩ := hq
          exact ⟨⟨vs,hvs,hfits⟩,_,rfl⟩
        · obtain ⟨c1,new,g,p,rfl,hext,herr⟩ := he
          rcases herr with herr | ⟨-,hg,-⟩
          · have hbig := herr.large (by rw [hlen]; simpa [Contents.Room,directed] using hroom)
            refine ⟨fun vs' hvs' => ?_,?_,.of_extends hext⟩
            · rw [hvs] at hvs'
              cases hvs'
              exact hbig
            · intro hnil
              obtain ⟨v,hv,-⟩ := hbig
              rw [hnil,length_nil] at hlen
              rw [length_eq_zero_iff.1 hlen] at hv
              simp at hv
          · cases hg
      · rcases he with ⟨l,hl,hnone⟩ | ⟨hvs,n,hn,rfl⟩
        · exact absurd hnone (hpages l hl)
        · refine ⟨fun vs hok => ?_,?_,.of_stamps hn⟩
          · rw [hvs] at hok
            cases hok
          · intro hnil
            rw [hnil] at hvs
            cases hvs
    · exact absurd hn hroom.pageCount
  · obtain ⟨hsafe,c1,rfl⟩ := hq
    refine (yields_step exec_unlockTable).2 ?_
    exact yields_finish.bind fun _ _ _ => hsafe

/-- What readers see of a table is the same: the live rows, their positions and their number. -/
structure Contents.Same (c c' : Contents) : Prop where
  live : c'.live = c.live
  directory : c'.directory = c.directory
  rowCount : c'.info.rowCount = c.info.rowCount

theorem Contents.same_directed (c : Contents) : c.Same c.directed := ⟨rfl,rfl,rfl⟩

theorem yields_replaceVersions_nil {info : TableInfo} {hotKeys : List Int} {guarded : Bool}
    {newIndexes : List Int → List (List V) → Int → List Index → List Index} :
    Yields k (st.put k c none) (replaceVersions R x info is hotKeys [] guarded newIndexes)
      (fun _ st' => st' = st.put k c none) fun _ st' => st' = st.put k c none := by
  have hpos : ∀ dir, setPositions is [] dir = dir := by simp [setPositions]
  have hsame :
    c.setInfo (fun info => { info with posDirectory := info.posDirectory.map (setPositions is []) }) = c := by
    have hmap : ∀ dir : Option (List PageSlot), dir.map (setPositions is []) = dir := by
      intro dir
      cases dir <;> simp [hpos]
    refine setInfo_id ?_
    rw [hmap]
  refine yields_bind.2 ((yields_pure (a := ([] : List (Bool × PageSlot)))).2 ?_)
  refine yields_bind.2 ((yields_cmd (exec_setInfo _)).2 ?_)
  rw [map_nil,hsame]
  dsimp only
  split
  · exact rfl
  · exact rfl

def newValueAt (indices : List Int) (newValues : List (List V)) (i : Int) : Option (List V) :=
  ((indices.zip newValues).reverse.find? (·.1 == i)).map Prod.snd

theorem directVersions_ok {R : RowOps V} {newByIndex : Int → Option (List V)}
    (h : directVersions R x newByIndex ls = .ok news) : news.length ≤ ls.length ∧ ∀ y ∈ news, y.2.deletedTx = 0 := by
  induction ls generalizing news with
  | nil =>
    cases h
    simp
  | cons l ls ih =>
    simp only [directVersions] at h
    cases hnew : newByIndex l.rowIdx with
    | none =>
      have := ih (by simpa [hnew] using h)
      exact ⟨Nat.le_succ_of_le this.1,this.2⟩
    | some nv =>
      cases ht : encodePageTuple R x nv with
      | error e => simp [hnew,ht] at h
      | ok t =>
        simp only [hnew,ht] at h
        obtain ⟨rest,hrest,rfl⟩ : ∃ rest, directVersions R x newByIndex ls = .ok rest ∧ (nv,t) :: rest = news := by
          cases hr : directVersions R x newByIndex ls with
          | error e => simp [hr,Except.map] at h
          | ok rest => exact ⟨rest,rfl,by simpa [hr,Except.map] using h⟩
        have := ih hrest
        exact ⟨Nat.succ_le_succ this.1,forall_mem_cons.2 ⟨(encodePageTuple_ok ht).1,this.2⟩⟩

theorem pairVersions_encoded (ls : List (Located V)) (news : List (List V × Tuple)) (h : news.length ≤ ls.length) :
    (pairVersions ls news).map NewVersion.encoded = news.map Prod.snd := by
  induction news generalizing ls with
  | nil => cases ls <;> rfl
  | cons y news ih =>
    cases ls with
    | nil => simp at h
    | cons l ls => simp [pairVersions,ih ls (by simpa using h)]

theorem forall_pairVersions {P : Tuple → Prop}
    (h : news.length ≤ ls.length) : (∀ v ∈ pairVersions ls news, P v.encoded) ↔ ∀ y ∈ news, P y.2 := by
  rw [← List.forall_mem_map (f := NewVersion.encoded),pairVersions_encoded ls news h,List.forall_mem_map]

/-- `UpdateRowsDirect` has a new row for everything it stamps, and all of them can be stored. -/
def DirectSafe (c : Contents) (x : Nat) (indices : List Int) (newValues : List (List V)) : Prop :=
  ∃ news, directVersions R x (newValueAt indices newValues) (locatedDirect c indices) = .ok news ∧
    news.length = (locatedDirect c indices : List (Located V)).length ∧ ∀ y ∈ news, y.2.Fits

theorem yields_updateRowsDirect {newValues : List (List V)}
    (hpages : ∀ l ∈ locatedDirect (V := V) c is, c.page l.loc.pid ≠ none)
    (hroom : c.Room (locatedDirect (V := V) c is).length) :
    Yields k (st.put k c none) (updateRowsDirect R k is newValues)
      (fun _ _ => DirectSafe R c st.nextID is newValues)
      fun _ st' => (locatedDirect (V := V) c is = [] ∧ ∃ c', st'.table k = some c' ∧ c.Same c') ∨
        ((DirectSafe R c st.nextID is newValues → (locatedDirect (V := V) c is).length < is.length) ∧
          locatedDirect (V := V) c is ≠ [] ∧
          Spoiled k c.directed st.nextID ((locatedDirect (V := V) c is).map Located.loc) st') := by
  refine yields_begin ?_
  refine (yields_unlockOnError (Q := fun _ st' => DirectSafe R c st.nextID is newValues ∧
    ∃ c1, st' = st.tick.put k c1 none) ?_).bind fun n st' hq => ?_
  · refine (yields_step exec_getInfo).2 (yields_bind.2
      (yields_locateDirect.mono (fun ls st' hq => ?_) fun _ _ he => ?_))
    · rcases hq with ⟨rfl,rfl⟩ | ⟨-,hn,-⟩
      · refine yields_logDeletes.bind fun _ st' hq => ?_
        subst hq
        refine yields_bind.2 ((yields_stampDirect R).mono (fun r st' hq => ?_) fun e st' he => ?_)
        · obtain ⟨hnews,hlocs,rfl⟩ := hq
          have hnews : directVersions R st.nextID (newValueAt is newValues) (locatedDirect c is) = .ok r.2 := hnews
          obtain ⟨hle,hdead⟩ := directVersions_ok hnews
          have hlen : r.1.length = (locatedDirect (V := V) c is).length := by simpa using congrArg length hlocs
          have hshort : r.2.length ≤ r.1.length := by omega
          have hvs : ∀ v ∈ pairVersions r.1 r.2, v.encoded.deletedTx = 0 :=
            (forall_pairVersions (P := fun t => t.deletedTx = 0) hshort).2 hdead
          split
          · next hmiss =>
            refine (yields_tryHOTInserts R hvs).bind fun placed st' hq => ?_
            obtain ⟨c1,rfl,-,-,hext⟩ := hq
            refine .inr ⟨?_,?_,.of_extends (g := id) hext⟩
            · rintro ⟨news,hok,hnum,-⟩
              rw [hnews] at hok
              cases hok
              omega
            · intro hnil
              rw [hnil] at hmiss
              simp at hmiss
          · next hall =>
            have hnum : r.2.length = (locatedDirect (V := V) c is).length := by omega
            by_cases hnil : locatedDirect (V := V) c is = []
            · -- without rows only the check of the positions is left
              have hr : r.2 = [] := length_eq_zero_iff.1 (by rw [hnum,hnil]; rfl)
              have hpair : pairVersions r.1 r.2 = [] := by
                rw [hr]
                cases r.1 <;> rfl
              rw [hpair]
              refine yields_bind.2 ((yields_replaceVersions_nil R).mono (fun _ st' hq => ?_) fun e st' he => ?_)
              · exact ⟨⟨r.2,hnews,hnum,by simp [hr]⟩,_,hq⟩
              · refine .inl ⟨hnil,c.directed,?_,c.same_directed⟩
                rw [he,hnil]
                simp
            · have hcount : (pairVersions r.1 r.2).length = (locatedDirect (V := V) c is).length := by
                rw [← hnum,← length_map (f := NewVersion.encoded),pairVersions_encoded r.1 r.2 hshort,length_map]
              refine yields_bind.2 ((yields_replaceVersions R hvs).mono (fun _ st' hq => ?_) fun e st' he => ?_)
              · obtain ⟨c1,locs,g,rfl,-,-,hall,-⟩ := hq
                exact ⟨⟨r.2,hnews,hnum,(forall_pairVersions hshort).1 hall⟩,_,rfl⟩
              · obtain ⟨c1,new,g,p,rfl,hext,herr⟩ := he
                refine .inr ⟨?_,hnil,.of_extends hext⟩
                rintro ⟨news,hok,-,hallfit⟩
                rw [hnews] at hok
                cases hok
                rcases herr with herr | ⟨-,-,hfew⟩
                · obtain ⟨v,hv,hbig⟩ := herr.large (by rw [hcount]; simpa [Contents.Room,directed] using hroom)
                  exact absurd ((forall_pairVersions hshort).2 hallfit v hv) hbig
                · rwa [hcount] at hfew
        · rcases he with ⟨l,hl,hnone⟩ | ⟨hnews,n,hn,rfl⟩
          · exact absurd hnone (hpages l hl)
          · refine .inr ⟨?_,?_,.of_stamps hn⟩
            · rintro ⟨news,hok,-⟩
              have := hnews.symm.trans hok
              cases this
            · intro hnil
              rw [hnil] at hnews
              cases hnews
      · exact absurd hn hroom.pageCount
    · exact absurd he.2 hroom.pageCount
  · obtain ⟨hsafe,c1,rfl⟩ := hq
    refine (yields_step exec_unlockTable).2 ?_
    exact yields_finish.bind fun _ _ _ => hsafe

theorem Contents.same_reverted
    (h : ∀ loc ∈ locs, ∃ t, c.tuple loc = some t ∧ t.deletedTx = 0) :
    c.Same ((c.directed.stampAll x locs).stampAll 0 locs) := by
  have hslots : ((c.directed.stampAll x locs).stampAll 0 locs).slots = c.slots := by
    rw [slots_stampAll,slots_stampAll,List.map_map,slots_directed]
    conv_rhs => rw [← map_id c.slots]
    refine map_congr_left fun y hy => ?_
    by_cases hm : y.1 ∈ locs
    · obtain ⟨t,ht,hd⟩ := h y.1 hm
      have := (mem_slots_iff (x := y)).1 hy
      rw [ht] at this
      cases this
      simp only [Function.comp_apply,hm,if_true,Tuple.setXMax_setXMax,id]
      rw [← hd,Tuple.setXMax_deletedTx]
    · simp [hm]
  refine ⟨by rw [live,hslots,live],?_,by simp [directed]⟩
  simp [directory,directed]

theorem yields_revertStamps :
    Yields k (st.put k c p) (revertStamps locs) (fun _ st' => st' = st.put k (c.stampAll 0 locs) p) E := by
  refine yields_forM (fun rest st' => ∃ done, locs = done++rest ∧ st' = st.put k (c.stampAll 0 done) p)
    ⟨[],rfl,rfl⟩ (fun loc rest st' hst => ?_) |>.mono (fun _ st' hq => ?_) fun _ _ he => he
  · obtain ⟨done,hdone,rfl⟩ := hst
    have hnext : (c.stampAll 0 done).modify loc (·.setXMax 0) = c.stampAll 0 (done++[loc]) := by
      rw [stampAll,stampAll,foldl_append]
      rfl
    have hclear : ∃ b, (st.put k (c.stampAll 0 done) p).exec k (.clearXMax loc) =
        some (b,st.put k (c.stampAll 0 (done++[loc])) p) := by
      rw [← hnext]
      cases hp : (c.stampAll 0 done).page loc.pid with
      | none => exact ⟨false,by simp [Store.exec,hp,Contents.modify]⟩
      | some q => exact ⟨true,by simp [Store.exec,hp,Contents.modify]⟩
    obtain ⟨b,hb⟩ := hclear
    exact (yields_step hb).2 ⟨done++[loc],by simp [hdone],rfl⟩
  · obtain ⟨done,hdone,rfl⟩ := hq
    rw [hdone,append_nil]

section
variable {positions : Option (List Int)} {matchFn : Tuple → Except String Bool}
    {updateFn : List V → Except String (List V)}
  {validateFn : List Int → List (List V) → Except String Unit}
def matchedRows (c : Contents) (clock : Clock) (positions : Option (List Int))
    (matchFn : Tuple → Except String Bool) : Except String (List (Located V)) :=
  matchEntries R c.info.schema clock matchFn c (dirEntries positions c.directory)

theorem yields_stampVM (st' : Store) : Yields k (st'.put k c none) (stampVM R st.nextID positions matchFn updateFn)
      (fun r st'' => ∃ ls, matchedRows R c st'.clock positions matchFn = .ok ls ∧ r.1 = c.info ∧
        newVersionsVM R st.nextID updateFn ls = .ok r.2 ∧
        st'' = st'.put k (c.directed.stampAll st.nextID (ls.map Located.loc)) none)
      fun _ st'' => (st'' = st'.put k c none ∨ st'' = st'.put k c.directed none) ∧ (c.pageCount = none ∨
        ∀ ls vs, matchedRows R c st'.clock positions matchFn = .ok ls → newVersionsVM R st.nextID updateFn ls ≠ .ok vs) := by
  refine (yields_step exec_getInfo).2 (yields_bind.2
    ((yields_locateVM R).mono (fun ls st'' hq => ?_) fun e st'' he => ?_))
  · obtain ⟨hls,rfl⟩ := hq
    refine yields_logDeletes.bind fun _ st'' hq => ?_
    subst hq
    refine yields_bind.2 (yields_orThrow (fun vs hvs => ?_) fun e he => ⟨.inr rfl,.inr fun ls' vs hls' hvs => ?_⟩)
    case refine_2 =>
      unfold matchedRows at hls'
      rw [hls] at hls'
      cases hls'
      rw [he] at hvs
      cases hvs
    refine yields_bind.2 (yields_stamps.mono (fun _ st'' hq => ?_) fun _ _ he => ?_)
    · exact ⟨ls,hls,rfl,hvs,hq⟩
    · obtain ⟨loc,hloc,hnone⟩ := he
      obtain ⟨l,hl,rfl⟩ := mem_map.1 hloc
      obtain ⟨t,ht,-⟩ := matchEntries_visible R hls l hl
      rw [page_directed] at hnone
      simp [tuple,hnone] at ht
  · rcases he with ⟨-,hn,rfl⟩ | ⟨hls,rfl⟩
    · exact ⟨.inl rfl,.inl hn⟩
    · refine ⟨.inr rfl,.inr fun ls vs hls' => ?_⟩
      unfold matchedRows at hls'
      rw [hls] at hls'
      cases hls'

theorem deletedTx_of_visibleVM {clock : Clock} (hv : visibleVM clock t = true)
    (hle : t.deletedTx ≤ clock.txCounter) : t.deletedTx = 0 := by
  simp only [visibleVM,Bool.and_eq_true,Bool.or_eq_true,beq_iff_eq,decide_eq_true_eq] at hv
  omega

def VmSafe (c : Contents) (clock : Clock) (x : Nat) (positions : Option (List Int))
    (matchFn : Tuple → Except String Bool)
    (updateFn : List V → Except String (List V)) (validateFn : List Int → List (List V) →
      Except String Unit) : Prop :=
  ∀ ls vs, matchedRows R c clock positions matchFn = .ok ls → newVersionsVM R x updateFn ls = .ok vs →
    validateFn (vs.map fun v => v.old.rowIdx) (vs.map NewVersion.newRow) = .ok () → ∀ v ∈ vs, v.encoded.Fits

theorem yields_updateRowsVM (hdated : ∀ y ∈ c.slots, y.2.deletedTx ≤ st.clock.txCounter)
    (hroom : ∀ ls, matchedRows R c st.tick.clock positions matchFn = .ok ls → c.Room ls.length) :
    Yields k (st.put k c none) (updateRowsVM R k positions matchFn updateFn validateFn)
      (fun n st' => ∃ ls vs, matchedRows R c st.tick.clock positions matchFn = .ok ls ∧
        newVersionsVM R st.nextID updateFn ls = .ok vs ∧ n = vs.length ∧ (∀ v ∈ vs, v.encoded.Fits) ∧
        ((vs = [] ∧ st' = st.tick.put k c.directed none) ∨
          validateFn (vs.map fun v => v.old.rowIdx) (vs.map NewVersion.newRow) = .ok () ∧
          ∃ c1 locs g, locs.length = vs.length ∧
            (c.directed.stampAll st.nextID (ls.map Located.loc)).Extends c1
            (locs.zip (vs.map fun v => v.encoded.data)) ∧
            st' = st.tick.put k (c1.setInfo g) none ∧ (g c1.info).schema = c.info.schema ∧
            (g c1.info).posDirectory = some (setPositions (vs.map fun v => v.old.rowIdx) locs c.directory) ∧
            (g c1.info).rowCount = c.info.rowCount))
      fun _ st' => (∃ c', st'.table k = some c' ∧ c.Same c') ∧
          VmSafe R c st.tick.clock st.nextID positions matchFn updateFn validateFn ∨
        ¬VmSafe R c st.tick.clock st.nextID positions matchFn updateFn validateFn ∧
        ∃ ls, matchedRows R c st.tick.clock positions matchFn = .ok ls ∧ ls ≠ [] ∧
          Spoiled k c.directed st.nextID (ls.map Located.loc) st' := by
  refine yields_begin ?_
  refine yields_bind.2 ((yields_unlockOnError (yields_stampVM R st.tick)).mono (fun r st' hq => ?_)
    fun _ _ he => .inl ⟨?_,fun ls vs hls hvs => ?_⟩)
  case refine_2 =>
    rcases he.1 with rfl | rfl
    · exact ⟨c,by simp,rfl,rfl,rfl⟩
    · exact ⟨_,by simp,c.same_directed⟩
  case refine_3 =>
    rcases he.2 with hn | hnone
    · exact absurd hn (hroom ls hls).pageCount
    · exact absurd hvs (hnone ls vs hls)
  obtain ⟨ls,hls,hinfo,hvs,rfl⟩ := hq
  obtain ⟨info,vs⟩ := r
  obtain ⟨hold,hnew⟩ := newVersionsVM_ok hvs
  have hdead : ∀ v ∈ vs, v.encoded.deletedTx = 0 := fun v hv => (encodePageTuple_ok (hnew v hv).2).1
  have hlive : ∀ l ∈ ls, ∃ t, c.tuple l.loc = some t ∧ t.deletedTx = 0 := by
    intro l hl
    obtain ⟨t,ht,hv⟩ := matchEntries_visible R hls l hl
    have hle : t.deletedTx ≤ st.clock.txCounter := hdated (l.loc,t) (mem_slots_iff.2 ht)
    exact ⟨t,ht,deletedTx_of_visibleVM hv (Nat.le_succ_of_le hle)⟩
  refine (yields_step exec_unlockTable).2 ?_
  cases vs with
  | nil =>
    obtain rfl : ls = [] := by simpa using hold.symm
    exact ⟨[],[],hls,hvs,rfl,by simp,.inl ⟨rfl,rfl⟩⟩
  | cons v vs =>
    have hlen : (v :: vs).length = ls.length := by simpa using congrArg length hold
    have hlocs : ((v :: vs).map fun v => v.old.loc) = ls.map Located.loc := by
      rw [← hold,List.map_map]
      rfl
    dsimp only
    cases hval : validateFn ((v :: vs).map fun v => v.old.rowIdx) ((v :: vs).map NewVersion.newRow) with
    | error e =>
      refine (yields_step exec_relockTable).2 (yields_revertStamps.bind fun _ st' hq => ?_)
      subst hq
      refine (yields_step exec_unlockTable).2 (.inl
        ⟨⟨_,by rw [Store.table_put,if_pos rfl],?_⟩,fun ls' vs' hls' hvs' hval' => ?_⟩)
      · rw [hlocs]
        refine same_reverted fun loc hloc => ?_
        obtain ⟨l,hl,rfl⟩ := mem_map.1 hloc
        exact hlive l hl
      · rw [hls] at hls'
        cases hls'
        rw [hvs] at hvs'
        cases hvs'
        rw [hval] at hval'
        cases hval'
    | ok u =>
      refine (yields_step exec_relockTable).2 (yields_bind.2
        ((yields_unlockOnError (yields_replaceVersions R hdead)).mono
        (fun _ st' hq => ?_) fun e st' he => ?_))
      · obtain ⟨c1,locs,g,rfl,hnum,hext,hfits,hmoves⟩ := hq
        refine (yields_step exec_unlockTable).2 (yields_finish.bind fun _ st' hq => ?_)
        obtain ⟨-,rfl⟩ := hq
        rw [setInfo_setInfo]
        refine ⟨ls,v :: vs,hls,hvs,rfl,hfits,.inr ⟨hval,c1,locs,_,hnum,hext,rfl,?_⟩⟩
        unfold MovesTo at hmoves
        rw [hext.info,hmoves]
        simp [directed]
      · obtain ⟨c1,new,g,p,rfl,hext,herr⟩ := he
        refine .inr ⟨fun hsafe => ?_,ls,hls,?_,.of_extends hext⟩
        · have hroom' : (c.directed.stampAll st.nextID (ls.map Located.loc)).Room (v :: vs).length := by
            rw [hlen]
            simpa [Contents.Room,directed] using hroom ls hls
          rcases herr with herr | ⟨-,-,hshort⟩
          · obtain ⟨w,hw,hbig⟩ := herr.large hroom'
            exact hbig (hsafe ls _ hls hvs hval w hw)
          · simp at hshort
        · rintro rfl
          simp at hlen
end
end
end VaultDB.Storage
