import VaultDB.Sql.RowSecurity
import VaultDB.Sql.Joins
import Mathlib.Logic.Function.Basic
set_option autoImplicit false

/-!
INSERT and SELECT on a partitioned table.

A single-row INSERT outside a transaction and a SELECT without WHERE take fast paths to the table
itself; any other INSERT of VALUES routes its rows, and any other SELECT reads the partitions left
after pruning.  INSERT with ON CONFLICT and INSERT SELECT, which store in the table itself, are left
out.
-/

namespace VaultDB.Sql
open Lib List Option Function
variable {rows : List Row}
abbrev Tables := String → Option (List Row)

structure InsertValues where
  rows : List Row
  returning : Bool := false
  mapOrder : { f : List (String × List Row) → List (String × List Row) // ∀ routes, (f routes).Perm routes } :=
    ⟨id,fun _ => .refl _⟩

def InsertValues.fastPath (st : InsertValues) : Bool := st.rows.length == 1 && !st.returning

def addRoute : List (String × List Row) → String → Row → List (String × List Row)
  | [], t, row => [(t,[row])]
  | (u,rows) :: routes, t, row => if u = t then (u,rows++[row]) :: routes else (u,rows) :: addRoute routes t row

variable {sts : List InsertValues}
section
variable (ctx : Context) (schema : TableSchema) (spec : PartitionSpec)
-- The checks before anything is stored, and those of the storage engine.
variable (check : Tables → InsertValues → Option String) (refuses : String → List Row → List Row → Option String)
def insertRows (db : Tables) (table : String) (rows : List Row) : Except String Tables :=
  match db table with
  | none => .error ("table '"++table++"' does not exist")
  | some old =>
    match refuses table old rows with
    | some e => .error e
    | none => .ok (Function.update db table (some (old++rows)))

def rowRoute (row : Row) : Except String String := insertRoute ctx.ev.toLower ctx.floatLt schema spec row

def routeRows : List Row → List (String × List Row) → Except String (List (String × List Row))
  | [], routes => .ok routes
  | row :: rows, routes =>
    match rowRoute ctx schema spec row with
    | .error e => .error ("partition routing: "++e)
    | .ok t => routeRows rows (addRoute routes t row)

/-- What has been stored before an error stays. -/
def storeRoutes : List (String × List Row) → Tables → Tables × Option String
  | [], db => (db,none)
  | (t,rows) :: routes, db =>
    match insertRows refuses db t rows with
    | .error e => (db,some ("insert into partition '"++t++"': "++e))
    | .ok db => storeRoutes routes db

def executePartitionedInsert (db : Tables) (st : InsertValues) : Tables × Option String :=
  match routeRows ctx schema spec st.rows [] with
  | .error e => (db,some e)
  | .ok routes => storeRoutes refuses (st.mapOrder.1 routes) db

def fastPathInsert (db : Tables) (st : InsertValues) : Tables × Option String :=
  match insertRows refuses db schema.name st.rows with
  | .error e => (db,some e)
  | .ok db => (db,none)

def executeInsert (db : Tables) (st : InsertValues) : Tables × Option String :=
  match check db st with
  | some e => (db,some e)
  | none =>
    if st.fastPath then fastPathInsert schema refuses db st else executePartitionedInsert ctx schema
      spec refuses db st

def executeInserts : Tables → List InsertValues → Tables × List InsertValues
  | db, [] => (db,[])
  | db, st :: sts =>
    let (db',err) := executeInsert ctx schema spec check refuses db st
    let (out,done) := executeInserts db' sts
    (out,if err.isNone then st :: done else done)

def Whole : Tables → List InsertValues → Prop
  | _, [] => True
  | db, st :: sts =>
    ((executeInsert ctx schema spec check refuses db st).2.isSome →
      (executeInsert ctx schema spec check refuses db st).1 = db) ∧
      Whole (executeInsert ctx schema spec check refuses db st).1 sts

def InsertValues.target (st : InsertValues) (row : Row) : Option String :=
  if st.fastPath then some schema.name else (rowRoute ctx schema spec row).toOption

def stored (sts : List InsertValues) : List (Option String × Row) :=
  sts.flatMap fun st => st.rows.map fun row => (st.target ctx schema spec row,row)

def ownTables : List String := schema.name :: (spec.tables schema.name).map Partition.tableName
end

section
variable {ctx : Context} {schema : TableSchema} {spec : PartitionSpec}
  {check : Tables → InsertValues → Option String} {refuses : String → List Row → List Row → Option String}
  {routes : List (String × List Row)} {db : Tables} {st : InsertValues} {t : String}
def routed (routes : List (String × List Row)) (t : String) : List Row :=
  (routes.filter fun x => x.1 = t).flatMap Prod.snd

theorem routed_perm {routes' : List (String × List Row)} (h : routes.Perm routes') (t : String) :
    (routed routes t).Perm (routed routes' t) :=
  (h.filter _).flatMap_right _

theorem routed_addRoute (routes : List (String × List Row)) (t u : String) (row : Row) :
    (routed (addRoute routes t row) u).Perm (routed routes u++if t = u then [row] else []) := by
  induction routes with
  | nil =>
    by_cases h : t = u
    · simp [addRoute,routed,h]
    · simp [addRoute,routed,h]
  | cons x routes ih =>
    obtain ⟨v,rows⟩ := x
    by_cases hv : v = t
    · subst hv
      by_cases hu : v = u
      · simp only [addRoute,if_true,routed,filter_cons,hu,decide_true,flatMap_cons,append_assoc]
        exact perm_append_comm.append_left rows
      · simp [addRoute,routed,hu]
    · by_cases hu : v = u
      · subst hu
        simp only [addRoute,hv,if_false,routed,filter_cons,decide_true,if_true,flatMap_cons,append_assoc] at ih ⊢
        exact ih.append_left rows
      · simpa only [addRoute,hv,if_false,routed,filter_cons,hu,decide_false,Bool.false_eq_true] using ih

theorem routed_routeRows {out : List (String × List Row)}
    (h : routeRows ctx schema spec rows routes = .ok out) (t : String) :
    (routed out t).Perm (routed routes t++rows.filter fun row =>
      (rowRoute ctx schema spec row).toOption = some t) := by
  induction rows generalizing routes with
  | nil =>
    cases h
    simp
  | cons row rows ih =>
    simp only [routeRows] at h
    cases hr : rowRoute ctx schema spec row with
    | error e => simp [hr] at h
    | ok u =>
      simp only [hr] at h
      refine (ih h).trans (((routed_addRoute routes u t row).append_right _).trans ?_)
      by_cases hu : u = t
      · simp [hu,hr,Except.toOption,append_assoc]
      · simp [hu,hr,Except.toOption]

theorem storeRoutes_ok {db' : Tables} (h : storeRoutes refuses routes db = (db',none)) (t : String) :
    db' t = (db t).map (·++routed routes t) := by
  induction routes generalizing db with
  | nil =>
    cases h
    simp [routed]
  | cons x routes ih =>
    obtain ⟨u,rows⟩ := x
    simp only [storeRoutes,insertRows] at h
    cases hu : db u with
    | none => simp [hu] at h
    | some old =>
      cases hr : refuses u old rows with
      | some e => simp [hu,hr] at h
      | none =>
        simp only [hu,hr] at h
        rw [ih h]
        by_cases ht : u = t
        · subst ht
          simp [routed,hu]
        · rw [update_of_ne (Ne.symm ht)]
          simp [routed,ht]

theorem executeInsert_ok
    (h : (executeInsert ctx schema spec check refuses db st).2 = none) (t : String) (old : List Row)
    (ho : db t = some old) :
    ∃ new, (executeInsert ctx schema spec check refuses db st).1 t = some (old++new) ∧
      new.Perm (st.rows.filter fun row => st.target ctx schema spec row = some t) := by
  unfold executeInsert at h ⊢
  cases hc : check db st with
  | some e => simp [hc] at h
  | none =>
    simp only [hc] at h ⊢
    cases hf : st.fastPath with
    | true =>
      simp only [hf,if_true,fastPathInsert,insertRows,InsertValues.target] at h ⊢
      cases hd : db schema.name with
      | none => simp [hd] at h
      | some rows =>
        cases hr : refuses schema.name rows st.rows with
        | some e => simp [hd,hr] at h
        | none =>
          by_cases ht : schema.name = t
          · subst ht
            rw [hd] at ho
            cases ho
            exact ⟨st.rows,by simp [hr],by simp⟩
          · refine ⟨[],?_,by simp [ht]⟩
            simp [hr,update_of_ne (Ne.symm ht),ho]
    | false =>
      simp only [hf,Bool.false_eq_true,if_false,executePartitionedInsert,InsertValues.target] at h ⊢
      cases hr : routeRows ctx schema spec st.rows [] with
      | error e => simp [hr] at h
      | ok routes =>
        simp only [hr] at h ⊢
        have hs : (storeRoutes refuses (st.mapOrder.1 routes) db).1 t =
          (db t).map (·++routed (st.mapOrder.1 routes) t) :=
          storeRoutes_ok (Prod.ext rfl h) t
        refine ⟨routed (st.mapOrder.1 routes) t,hs.trans (by rw [ho]; rfl),?_⟩
        refine (routed_perm (st.mapOrder.2 routes) t).trans ?_
        simpa [routed] using routed_routeRows hr t

theorem executeInserts_table (hw : Whole ctx schema spec check refuses db sts) {old : List Row}
    (ho : db t = some old) :
    ∃ new, (executeInserts ctx schema spec check refuses db sts).1 t = some (old++new) ∧ new.Perm
      (((stored ctx schema spec (executeInserts ctx schema spec check refuses db sts).2).filter fun x =>
        x.1 = some t).map Prod.snd) := by
  induction sts generalizing db old with
  | nil => exact ⟨[],by simpa [executeInserts] using ho,by simp [executeInserts,stored]⟩
  | cons st sts ih =>
    simp only [executeInserts]
    cases he : (executeInsert ctx schema spec check refuses db st).2 with
    | some e =>
      have hsame := hw.1 (by simp [he])
      have hw2 := hw.2
      rw [hsame] at hw2 ⊢
      simpa using ih hw2 ho
    | none =>
      obtain ⟨new,hn,hp⟩ := executeInsert_ok he t old ho
      obtain ⟨rest,hr,hq⟩ := ih hw.2 hn
      refine ⟨new++rest,by rw [hr,append_assoc],?_⟩
      have hfirst : ((st.rows.map fun row => (st.target ctx schema spec row,row)).filter fun x => x.1 = some t).map
          Prod.snd = st.rows.filter fun row => st.target ctx schema spec row = some t := by
        rw [List.filter_map,List.map_map]
        simp [comp_def]
      simp only [isNone_none,if_true,stored,flatMap_cons,filter_append,map_append,hfirst]
      exact hp.append hq

theorem target_mem {row : Row} (h : st.target ctx schema spec row = some t) : t ∈ ownTables schema spec := by
  unfold InsertValues.target at h
  split at h
  · cases h
    exact mem_cons_self
  · cases hr : rowRoute ctx schema spec row with
    | error e => simp [hr,Except.toOption] at h
    | ok u =>
      simp only [hr,Except.toOption,some_inj] at h
      subst h
      exact mem_cons_of_mem _ (insertRoute_mem _ _ hr)
end

section
variable {spec : PartitionSpec}
theorem tableName_eq {n : String} {p : Partition} (h : p ∈ spec.tables n) : p.tableName = n++"_"++p.name := by
  unfold PartitionSpec.tables at h
  split at h
  · obtain ⟨d,-,rfl⟩ := mem_map.1 h
    rfl
  · obtain ⟨i,-,rfl⟩ := mem_map.1 h
    have hp : ("_p" : String) = "_"++"p" := rfl
    simp only [hp,String.append_assoc]

theorem map_name_tables (spec : PartitionSpec) (n m : String) :
    (spec.tables n).map Partition.name = (spec.tables m).map Partition.name := by
  unfold PartitionSpec.tables
  cases spec.type <;> simp [comp_def]

theorem nodup_tableNames {m : String} (h : ((spec.tables m).map Partition.name).Nodup) (n : String) :
    ((spec.tables n).map Partition.tableName).Nodup := by
  rw [map_name_tables spec m n] at h
  have heq : (spec.tables n).map Partition.tableName = ((spec.tables n).map Partition.name).map (n++"_"++·) := by
    rw [List.map_map]
    exact map_congr_left fun p hp => tableName_eq hp
  rw [heq]
  refine h.map fun a b hab => ?_
  have hl := congrArg String.toList hab
  simp only [String.toList_append,append_cancel_left_eq] at hl
  exact String.toList_inj.1 hl
end

section
variable (ctx : Context) (schema : TableSchema) (spec : PartitionSpec) {ts : List String}
structure ReadsFrom (db : Tables) : Prop where
  exists_iff : ∀ t, (ctx.storage.tableSchema t).isSome = (db t).isSome
  rows : ∀ t rows, db t = some rows → ctx.storage.readCurrentRows t = .ok rows
  noTx : ctx.inTx = false
  noSnapshot : ctx.snapshotTxID = 0
  overlay : ∀ t rows, ctx.applyTxOverlay t rows = .ok rows

def tablesRead (s : SelectStatement) : List String :=
  if s.fastPath ctx then [s.tableName] else prunedTables ctx s (aliased s.asName schema) spec

def satisfies (s : SelectStatement) (row : Row) : Except String Bool :=
  ctx.ev.evalExpr s.where_ row (aliased s.asName schema) (some (ctx.ev.buildColumnIndex (aliased s.asName schema)))

structure PlainSelect (s : SelectStatement) : Prop where
  table : s.tableName = schema.name
  known : ctx.storage.tableSchema s.tableName = some schema
  partitioned : schema.partitions = some spec
  noPolicies : schema.rlsEnabled = false
  pushdown : ctx.tablePredicate s s.tableName = none ∨ ctx.tablePredicate s s.tableName = s.where_
  unchanged : ctx.whereAfter s = s.where_

variable {ctx schema spec} {db : Tables} {s : SelectStatement}
theorem readPartitions_eq (h : ReadsFrom ctx db) (ts : List String) :
    readPartitions ctx ts = .ok (ts.flatMap fun t => ((db t).getD []).map fun row => (t,row)) := by
  induction ts with
  | nil => rfl
  | cons t ts ih =>
    have he := h.exists_iff t
    cases hd : db t with
    | none =>
      rw [hd,isSome_none,isSome_eq_false_iff,isNone_iff_eq_none] at he
      simp [readPartitions,he,ih,hd]
    | some rows =>
      rw [hd,isSome_some,isSome_iff_exists] at he
      obtain ⟨sch,hsch⟩ := he
      simp [readPartitions,hsch,h.rows t rows hd,ih,hd]

theorem aliased_rls (asName : String) (schema : TableSchema) : (aliased asName schema).rlsEnabled =
    schema.rlsEnabled := by
  unfold aliased
  split <;> rfl

theorem filterRowsWithRLS_off (h : PlainSelect ctx schema spec s) (rows : List Row) :
    filterRowsWithRLS ctx (aliased s.asName schema) s.tableName rows = .ok rows := by
  simp [filterRowsWithRLS,aliased_rls,h.noPolicies]

theorem applyPushdownFilter_eq
    (h : ctx.tablePredicate s s.tableName = none ∨ ctx.tablePredicate s s.tableName = s.where_)
    (he : ∀ row ∈ rows, ∃ b, satisfies ctx schema s row = .ok b) :
    ∃ kept, applyPushdownFilter ctx s (aliased s.asName schema) rows = .ok kept ∧ (∀ row ∈ kept, row ∈ rows) ∧
      kept.filter (fun row => holds (satisfies ctx schema s row)) = rows.filter fun row =>
      holds (satisfies ctx schema s row) := by
  unfold applyPushdownFilter
  split
  · exact ⟨rows,rfl,fun _ hr => hr,rfl⟩
  · rcases h with hn | hw
    · simp only [hn]
      exact ⟨rows,rfl,fun _ hr => hr,rfl⟩
    · cases hp : s.where_ with
      | none => simp_all
      | some w =>
        have hf : filterRows (satisfies ctx schema s) rows =
          .ok (rows.filter fun row => holds (satisfies ctx schema s row)) :=
          filterRows_eq_filter he
        simp only [hw,hp]
        refine ⟨rows.filter fun row => holds (satisfies ctx schema s row),?_,fun row hr => mem_of_mem_filter hr,?_⟩
        · rw [← hp]
          exact hf
        · simp [List.filter_filter]

theorem whereLeft_eq (h : ctx.whereAfter s = s.where_) (rows : List Row) : whereLeft ctx s rows = s.where_ := by
  simp [whereLeft,h]

theorem filterRows_map {α β : Type} (f : α → β) (test : β → Except String Bool) (as : List α) :
    filterRows test (as.map f) = (filterRows (fun a => test (f a)) as).map (List.map f) := by
  induction as with
  | nil => rfl
  | cons a as ih =>
    simp only [map_cons,filterRows,ih]
    cases test (f a) with
    | error e => rfl
    | ok b =>
      cases filterRows (fun a => test (f a)) as with
      | error e => rfl
      | ok kept => cases b <;> rfl

section
variable (hr : ReadsFrom ctx db) (h : PlainSelect ctx schema spec s)
include hr h
theorem partitionedRows_eq (he : ∀ row ∈ ts.flatMap fun t => (db t).getD [], ∃ b,
      satisfies ctx schema s row = .ok b) :
    ∃ rows, partitionedRows ctx s (aliased s.asName schema) ts = .ok rows ∧
      rows.map Joined.flat = (ts.flatMap fun t => (db t).getD []).filter fun row =>
      holds (satisfies ctx schema s row) := by
  have hread : ((ts.flatMap fun t => ((db t).getD []).map fun row => (t,row)).map Prod.snd) =
      ts.flatMap fun t => (db t).getD [] := by
    simp [map_flatMap,comp_def]
  obtain ⟨kept,hk,hsub,hfilter⟩ := applyPushdownFilter_eq h.pushdown he
  have hlast := filterRows_eq_filter fun row hrow => he row (hsub row hrow)
  simp only [partitionedRows,readPartitions_eq hr,Except.bind,hread,hr.overlay,filterRowsWithRLS_off h,hk,
    whereLeft_eq h.unchanged]
  rw [filterRows_map]
  have hlast' : filterRows (fun row => ctx.ev.evalExpr s.where_ (Joined.ofRow s.tableName row).flat
    (aliased s.asName schema)
      (some (ctx.ev.buildColumnIndex (aliased s.asName schema)))) kept =
      .ok (kept.filter fun row => holds (satisfies ctx schema s row)) := hlast
  rw [hlast']
  refine ⟨_,rfl,?_⟩
  rw [List.map_map,hfilter]
  exact map_id _

theorem selectSources_eq
    (he : ∀ row ∈ (tablesRead ctx schema spec s).flatMap fun t => (db t).getD [], ∃ b,
      satisfies ctx schema s row = .ok b) :
    ∃ x, selectSources ctx s = .ok x ∧ x.2.2.map Joined.flat =
      ((tablesRead ctx schema spec s).flatMap fun t => (db t).getD []).filter fun row =>
      holds (satisfies ctx schema s row) := by
  unfold selectSources
  simp only [h.known]
  cases hf : s.fastPath ctx with
  | false =>
    have hp : (aliased s.asName schema).partitions = some spec := by
      unfold aliased
      split <;> exact h.partitioned
    simp only [tablesRead,hf,Bool.false_eq_true,if_false] at he ⊢
    obtain ⟨rows,hrows,hflat⟩ := partitionedRows_eq hr h he
    simp only [hp,hrows]
    exact ⟨_,rfl,hflat⟩
  | true =>
    have hexists := hr.exists_iff s.tableName
    rw [h.known,isSome_some] at hexists
    obtain ⟨rows,hrows⟩ := isSome_iff_exists.1 hexists.symm
    have hw : s.where_ = none := by
      simp only [SelectStatement.fastPath,SelectStatement.isSimpleSelect,Bool.and_eq_true,isNone_iff_eq_none] at hf
      exact hf.1.1.1.1.1.1.1.1.1
    simp only [fastPathRows,hr.rows _ _ hrows,Except.bind,filterRowsWithRLS_off h,if_true,Except.map]
    refine ⟨_,rfl,?_⟩
    simp [tablesRead,hf,hrows,satisfies,hw,Evaluator.evalExpr,holds,comp_def,Joined.ofRow]
end

variable {check : Tables → InsertValues → Option String} {refuses : String → List Row → List Row → Option String}
theorem read_perm_stored {db0 : Tables} (hempty : ∀ t ∈ ownTables schema spec, db0 t = some [])
    (hw : Whole ctx schema spec check refuses db0 sts) (hnodup : ts.Nodup)
    (hown : ∀ t ∈ ts, (executeInserts ctx schema spec check refuses db0 sts).1 t ≠ none →
      t ∈ ownTables schema spec) :
    (ts.flatMap fun t => ((executeInserts ctx schema spec check refuses db0 sts).1 t).getD []).Perm
      (((stored ctx schema spec (executeInserts ctx schema spec check refuses db0 sts).2).filter fun x =>
        x.1 ∈ ts.map some).map Prod.snd) := by
  have htable : ∀ t ∈ ts, (((executeInserts ctx schema spec check refuses db0 sts).1 t).getD []).Perm
      (((stored ctx schema spec (executeInserts ctx schema spec check refuses db0 sts).2).filter fun x =>
        x.1 = some t).map Prod.snd) := by
    intro t ht
    by_cases hd : (executeInserts ctx schema spec check refuses db0 sts).1 t = none
    · have hnone : ∀ x ∈ stored ctx schema spec (executeInserts ctx schema spec check refuses db0
        sts).2, x.1 ≠ some t := by
        rintro x hx hxt
        obtain ⟨st,-,hx⟩ := mem_flatMap.1 hx
        obtain ⟨row,-,rfl⟩ := mem_map.1 hx
        obtain ⟨new,hn,-⟩ := executeInserts_table hw (hempty t (target_mem hxt))
        rw [hd] at hn
        cases hn
      rw [hd,filter_eq_nil_iff.2 fun x hx => by simpa using hnone x hx]
      exact .nil
    · obtain ⟨new,hn,hp⟩ := executeInserts_table hw (hempty t (hown t ht hd))
      rw [hn]
      exact hp
  have hbins := flatMap_bins_perm Prod.fst Prod.snd
    (stored ctx schema spec (executeInserts ctx schema spec check refuses db0 sts).2)
    (hnodup.map (some_injective String))
  rw [flatMap_map] at hbins
  exact (List.Perm.flatMap_left ts htable).trans (by convert hbins)

def Tables.storage (db : Tables) (schemas : String → TableSchema) : Storage :=
  { Storage.ofTables [] with
    tableSchema := fun t => (db t).map fun _ => schemas t
    readCurrentRows := fun t =>
      match db t with
      | some rows => .ok rows
      | none => .error ("table '"++t++"' does not exist") }

def metersSpec : PartitionSpec := ⟨.range,["id"],[⟨"p",none⟩],0⟩
def metersSchema : TableSchema := ⟨"m",[{ name := "id" }],[],false,[],some metersSpec⟩

def metersTables (parent part : List Row) : Tables := fun t =>
  if t = "m" then some parent else if t = "m_p" then some part else none

def metersContext (parent part : List Row) : Context where
  ev := plainEvaluator
  storage := (metersTables parent part).storage fun t => { metersSchema with name := t }
  dbName := "app"
  tablePredicate s _ := s.where_

def meterFive : SelectStatement where
  columns := [⟨.columnRef "" "id",""⟩]
  tableName := "m"
  where_ := some (.binary .eq (.columnRef "" "id") (.value (.int 5)))

def insertMeters (sts : List InsertValues) : Tables × List InsertValues :=
  executeInserts (metersContext [] []) metersSchema metersSpec (fun _ _ => none) (fun _ _ _ => none)
    (metersTables [] []) sts

theorem readsFrom_meters (parent part : List Row) : ReadsFrom (metersContext parent part)
    (metersTables parent part) where
  exists_iff t := by simp [metersContext,Tables.storage]
  rows t rows h := by simp [metersContext,Tables.storage,h]
  noTx := rfl
  noSnapshot := rfl
  overlay _ _ := rfl

theorem exists_of_isOk {α : Type} {x : Except String α} (h : x.isOk = true) : ∃ a, x = .ok a := by
  cases x with
  | error e => cases h
  | ok a => exact ⟨a,rfl⟩

end
end VaultDB.Sql
