import VaultDB.Sql.Select
set_option autoImplicit false

/-!
Row-level security: which stored rows a statement reads into its result, changes or removes.
-/

namespace VaultDB.Sql
open List Option
variable {s : SelectStatement} {schema : TableSchema} {row : Row} {rows : List Row}
  {α : Type} {ci : Option ColumnIndex} {kept : List Row} {where_ : Option Expr}
section
variable (ctx : Context)
def updateMatch (schema : TableSchema) (where_ : Option Expr) (row : Row) : Except String Bool :=
  let ci := some (ctx.ev.buildColumnIndex schema)
  if schema.rlsEnabled && !schema.policies.isEmpty then
    match policiesAllow ctx schema ci row schema.policies with
    | .error e => .error e
    | .ok false => .ok false
    | .ok true => ctx.ev.evalExpr where_ row schema ci
  else ctx.ev.evalExpr where_ row schema ci

def deleteMatch (schema : TableSchema) (where_ : Option Expr) (row : Row) : Except String Bool :=
  if where_.isNone then .ok true else updateMatch ctx schema where_ row

def candidateRows (table : String) (where_ : Option Expr) : Except String (List Row) :=
  match where_.bind (ctx.storage.tryIndexLookup table) with
  | some positions => ctx.storage.readRowsByPositions table positions
  | none => ctx.storage.readCurrentRows table

inductive SelectPath where
  | fast | general | partitioned
  deriving DecidableEq, Repr

def selectSources (s : SelectStatement) : Except String (SelectPath × TableSchema × List Joined) :=
  match ctx.storage.tableSchema s.tableName with
  | none => .error ("table '"++s.tableName++"' does not exist")
  | some schema =>
    if s.fastPath ctx then
      (fastPathRows ctx s (aliased s.asName schema)).map fun rows => (.fast,aliased s.asName schema,rows)
    else
      match (aliased s.asName schema).partitions with
      | some spec =>
        (partitionedRows ctx s (aliased s.asName schema) (prunedTables ctx s (aliased s.asName schema) spec)).map
          fun rows => (.partitioned,aliased s.asName schema,rows)
      | none => (selectedRows ctx s (aliased s.asName schema)).map fun x => (.general,x.1,x.2)

def renderSelect (s : SelectStatement) : SelectPath × TableSchema × List Joined → Except String Result
  | (.fast,schema,rows) => projectAll ctx s schema s.columns rows
  | (.general,schema,rows) => finishSelect ctx s schema rows
  | (.partitioned,schema,rows) =>
    let ci := some (ctx.ev.buildColumnIndex schema)
    let out := (applyOrderBy ctx s schema ci rows).map fun r => projectRow ctx schema ci s.columns r.flat
    (partitionPage s.limit (s.offset.getD 0) out).map fun rows => ⟨columnNames s.columns,rows⟩

def SelectStatement.fromCache (s : SelectStatement) : Bool :=
  !s.fastPath ctx && !ctx.inTx && (ctx.resultCache s).isSome

theorem bind_map {ε β γ : Type} (x : Except ε α) (f : α → β) (g : β → Except ε γ) :
    (x.map f).bind g = x.bind fun a => g (f a) := by
  cases x <;> rfl

theorem executeSelect_eq (h : s.fromCache ctx = false) :
    executeSelect ctx s = (selectSources ctx s).bind (renderSelect ctx s) := by
  unfold executeSelect selectSources
  by_cases hf : s.fastPath ctx = true
  · simp only [hf,if_true,fastPathSelect]
    cases ctx.storage.tableSchema s.tableName with
    | none => rfl
    | some schema => simp only [bind_map,renderSelect]
  · have hc : (if ctx.inTx = true then none else ctx.resultCache s) = none := by
      simp only [Bool.not_eq_true] at hf
      simp only [SelectStatement.fromCache,hf] at h
      cases hi : ctx.inTx <;> simp_all
    simp only [hf,hc,executeSimpleSelect]
    cases ctx.storage.tableSchema s.tableName with
    | none => rfl
    | some schema =>
      simp only [Bool.false_eq_true,if_false]
      cases (aliased s.asName schema).partitions with
      | none => simp only [bind_map,renderSelect]
      | some spec => simp only [bind_map,renderSelect,executePartitionedSelect]

inductive Statement where
  | select (s : SelectStatement)
  | copyTo (table : String)
  | history (table : String) (key : Option Value) (where_ : Option Expr)
  | update (table : String) (where_ : Option Expr)
  | delete (table : String) (where_ : Option Expr)

def historyMatch (schema : TableSchema) (where_ : Option Expr) (v : Nat × Nat × Row) : Except String Bool :=
  ctx.ev.evalExpr where_
    (.int v.1 :: (if v.2.1 = 0 then .text "CURRENT" else .text (toString v.2.1)) :: v.2.2)
    { name := schema.name, columns := ⟨"created_tx","INT",false,false,false,false⟩ ::
        ⟨"deleted_tx","TEXT",false,false,false,false⟩ :: schema.columns }
    ctx.columnIndex

def withSchema {α : Type} (table : String) (f : TableSchema → Except String α) : Except String α :=
  match ctx.storage.tableSchema table with
  | none => .error ("table '"++table++"' does not exist")
  | some schema => f schema

def buildFKKey (row : Row) (schema : TableSchema) (columns : List String) : String :=
  "\x00".intercalate (columns.map fun name =>
    (((schema.columns.zipIdx.filter fun c => ctx.ev.equalFold c.1.name name).getLast?.bind fun c => row[c.2]?).map
      valueToString).getD "")

/-- The rows of other tables that go with the removed ones; the policies of their tables are not
asked. -/
def cascadeDeletes (table : String) (schema : TableSchema) (removed : List Row) : List (String × Row) :=
  ((ctx.cascades table).filter fun k => k.child != table).flatMap fun k =>
    match ctx.storage.tableSchema k.child, ctx.storage.readCurrentRows k.child with
    | some child, .ok rows =>
      (rows.filter fun row => removed.any fun r =>
        buildFKKey ctx row child k.columns == buildFKKey ctx r schema k.refCols).map fun row => (k.child,row)
    | _, _ => []

/-- Of a DELETE that foreign keys do not refuse. -/
def Statement.touched : Statement → Except String (List (String × Row))
  | .select s => (selectSources ctx s).map fun x => x.2.2.flatMap Joined.parts
  | .copyTo table => withSchema ctx table fun _ =>
    (ctx.storage.readCurrentRows table).map fun rows => rows.map fun r => (table,r)
  | .history table key where_ => withSchema ctx table fun schema =>
    ((ctx.storage.rowHistory table key).bind (filterRows (historyMatch ctx schema where_))).map
      fun vs => vs.map fun v => (table,v.2.2)
  | .update table where_ => withSchema ctx table fun schema =>
    ((candidateRows ctx table where_).bind (filterRows (updateMatch ctx schema where_))).map
      fun rows => rows.map fun r => (table,r)
  | .delete table where_ => withSchema ctx table fun schema =>
    ((candidateRows ctx table where_).bind (filterRows (deleteMatch ctx schema where_))).map
      fun rows => rows.map (fun r => (table,r))++cascadeDeletes ctx table schema rows

def TableSchema.isProtected (schema : TableSchema) : Bool := schema.rlsEnabled && !schema.policies.isEmpty

/-- Some policy's USING expression is true of the row, under the statement's name of the table and
its columns. -/
def Allowed (schema : TableSchema) (row : Row) : Prop :=
  ∃ p ∈ schema.policies, ∃ e name ci, p.usingExpr = some (.ok e) ∧
    (ci = ctx.columnIndex ∨ ci = some (ctx.ev.buildColumnIndex schema)) ∧
    ctx.ev.evalOperand e row { schema with name := name } ci = .ok (.bool true)

def Permitted (table : String) (row : Row) : Prop :=
  ∀ schema, ctx.storage.tableSchema table = some schema → schema.isProtected = true → Allowed ctx schema row

def AllUsing (table : String) : Prop :=
  ∀ schema, ctx.storage.tableSchema table = some schema → schema.isProtected = true →
    ∀ p ∈ schema.policies, p.usingExpr ≠ none

def Statement.table : Statement → String
  | .select s => s.tableName
  | .copyTo table | .history table _ _ | .update table _ | .delete table _ => table

def Statement.joins : Statement → List JoinClause
  | .select s => s.joins
  | _ => []

/-- What a statement takes past the policies holds no forbidden row: joined tables, a COPY TO, a
DELETE without WHERE, the rows that a DELETE cascades to, a HISTORY. -/
def Statement.Guarded : Statement → Prop
  | .select s =>
    ∀ join ∈ s.joins, ∀ rows, readJoined ctx join = .ok rows → ∀ row ∈ rows, Permitted ctx join.tableName row
  | .copyTo table => ∀ rows, ctx.storage.readCurrentRows table = .ok rows → ∀ row ∈ rows, Permitted ctx table row
  | .history table key where_ => ∀ schema vs, ctx.storage.tableSchema table = some schema →
      ctx.storage.rowHistory table key = .ok vs →
      ∀ v ∈ vs, historyMatch ctx schema where_ v = .ok true → Permitted ctx table v.2.2
  | .update _ _ => True
  | .delete table where_ => (where_ = none → ∀ rows, ctx.storage.readCurrentRows table = .ok rows →
      ∀ row ∈ rows, Permitted ctx table row) ∧
    ∀ schema rows, ctx.storage.tableSchema table = some schema →
      (candidateRows ctx table where_).bind (filterRows (deleteMatch ctx schema where_)) = .ok rows →
      ∀ x ∈ cascadeDeletes ctx table schema rows, Permitted ctx x.1 x.2
end

variable {table : String}
section
variable {ctx : Context}
theorem allowed_of_policiesAllow {name : String}
    (hci : ci = ctx.columnIndex ∨ ci = some (ctx.ev.buildColumnIndex schema)) {ps : List RLSPolicy}
    (hps : ∀ p ∈ ps, p ∈ schema.policies) (hu : ∀ p ∈ ps, p.usingExpr ≠ none)
    (h : policiesAllow ctx { schema with name := name } ci row ps = .ok true) : Allowed ctx schema row := by
  induction ps with
  | nil => simp [policiesAllow] at h
  | cons p ps ih =>
    simp only [policiesAllow] at h
    have hrest := ih (fun q hq => hps q (mem_cons_of_mem _ hq)) fun q hq => hu q (mem_cons_of_mem _ hq)
    cases hp : p.usingExpr with
    | none => exact absurd hp (hu p mem_cons_self)
    | some u =>
      cases u with
      | error e => simp [hp] at h
      | ok e =>
        simp only [hp] at h
        split at h
        · rename_i he
          exact ⟨p,hps p mem_cons_self,e,name,ci,hp,hci,he⟩
        · exact hrest h

theorem aliased_eq (asName : String) (schema : TableSchema) : ∃ name, aliased asName schema =
    { schema with name := name } := by
  unfold aliased
  split
  · exact ⟨schema.name,rfl⟩
  · exact ⟨asName,rfl⟩

theorem filterRowsWithRLS_of_protected (table : String) (rows : List Row)
    (h : schema.isProtected = true) : filterRowsWithRLS ctx schema table rows =
      filterRows (fun row => policiesAllow ctx schema ctx.columnIndex row schema.policies) rows := by
  simp only [TableSchema.isProtected,Bool.and_eq_true,Bool.not_eq_true'] at h
  simp [filterRowsWithRLS,h]

theorem permitted_of_filter {asName : String}
    (ht : ctx.storage.tableSchema table = some schema) (hu : AllUsing ctx table)
    (h : filterRowsWithRLS ctx (aliased asName schema) table rows = .ok kept) :
    ∀ row ∈ kept, Permitted ctx table row := by
  obtain ⟨name,ha⟩ := aliased_eq asName schema
  intro row hrow schema' ht' hp
  have hs : schema' = schema := by simpa [ht] using ht'.symm
  subst hs
  have hpa : (aliased asName schema').isProtected = true := by rw [ha]; exact hp
  rw [filterRowsWithRLS_of_protected _ _ hpa,ha] at h
  exact allowed_of_policiesAllow (.inl rfl) (fun p hp => hp) (hu _ ht hp) ((mem_filterRows h).1 hrow).2

theorem permitted_of_updateMatch (ht : ctx.storage.tableSchema table = some schema) (hu : AllUsing ctx table)
    (h : updateMatch ctx schema where_ row = .ok true) : Permitted ctx table row := by
  intro schema' ht' hp
  have hs : schema' = schema := by simpa [ht] using ht'.symm
  subst hs
  have hprot := hp
  simp only [TableSchema.isProtected] at hp
  simp only [updateMatch,hp,if_true] at h
  split at h
  · cases h
  · cases h
  · rename_i hallow
    have hname : schema' = { schema' with name := schema'.name } := rfl
    rw [hname] at hallow
    exact allowed_of_policiesAllow (.inr rfl) (fun p hp => hp) (hu _ ht hprot) hallow
end

section
variable {ctx : Context} {P : String → Row → Prop} {l : Joined} {out : List Joined}
def Joined.MadeOf (P : String → Row → Prop) (j : Joined) : Prop := ∀ x ∈ j.parts, P x.1 x.2

theorem Joined.MadeOf.append {r : Joined} (hl : l.MadeOf P) (hr : r.MadeOf P) : (l.append r).MadeOf P := by
  intro x hx
  rcases mem_append.1 hx with hx | hx
  · exact hl x hx
  · exact hr x hx

theorem Joined.madeOf_padding (row : Row) : (Joined.padding row).MadeOf P := by
  intro x hx
  simp [Joined.padding] at hx

theorem madeOf_ofRow (h : ∀ row ∈ rows, P table row) : ∀ j ∈ rows.map (Joined.ofRow table), j.MadeOf P := by
  intro j hj x hx
  obtain ⟨row,hrow,rfl⟩ := mem_map.1 hj
  simp only [Joined.ofRow,mem_singleton] at hx
  subst hx
  exact h row hrow

variable {left right : List Joined}
theorem madeOf_matches {test : Joined → Joined → Bool} (hl : l.MadeOf P)
    (hr : ∀ r ∈ right, r.MadeOf P) : ∀ j ∈ (right.filter (test l)).map l.append, j.MadeOf P := by
  intro j hj
  obtain ⟨r,hr',rfl⟩ := mem_map.1 hj
  exact hl.append (hr r (mem_filter.1 hr').1)

variable (test : Joined → Joined → Bool)
theorem madeOf_pairRows (hl : ∀ l ∈ left, l.MadeOf P)
    (hr : ∀ r ∈ right, r.MadeOf P) : ∀ j ∈ pairRows test left right, j.MadeOf P := by
  intro j hj
  obtain ⟨l,hl',hj⟩ := mem_flatMap.1 hj
  exact madeOf_matches (hl l hl') hr j hj

theorem madeOf_leftRows (pad : Row) (hl : ∀ l ∈ left, l.MadeOf P)
    (hr : ∀ r ∈ right, r.MadeOf P) : ∀ j ∈ leftRows test pad left right, j.MadeOf P := by
  intro j hj
  obtain ⟨l,hl',hj⟩ := mem_flatMap.1 hj
  split at hj
  · exact madeOf_matches (hl l hl') hr j hj
  · rw [mem_singleton.1 hj]
    exact (hl l hl').append (Joined.madeOf_padding pad)

theorem madeOf_unmatchedRight (pad : Row)
    (hr : ∀ r ∈ right, r.MadeOf P) : ∀ j ∈ unmatchedRight test pad left right, j.MadeOf P := by
  intro j hj
  obtain ⟨r,hr',rfl⟩ := mem_map.1 hj
  exact (Joined.madeOf_padding pad).append (hr r (mem_filter.1 hr').1)

theorem madeOf_append {xs ys : List Joined} (hx : ∀ j ∈ xs, j.MadeOf P) (hy : ∀ j ∈ ys, j.MadeOf P) :
    ∀ j ∈ xs++ys, j.MadeOf P := by
  intro j hj
  rcases mem_append.1 hj with hj | hj
  · exact hx j hj
  · exact hy j hj

theorem madeOf_joinRows (ci : Option ColumnIndex) (join : JoinClause) (ls rs : TableSchema)
    (hl : ∀ l ∈ left, l.MadeOf P) (hr : ∀ r ∈ right, r.MadeOf P) :
    ∀ j ∈ joinRows ctx ci join ls rs left right, j.MadeOf P := by
  dsimp only [joinRows]
  split
  · exact madeOf_pairRows _ hl hr
  · exact madeOf_pairRows _ hl hr
  · exact madeOf_pairRows _ hl hr
  · exact madeOf_leftRows _ _ hl hr
  · exact madeOf_leftRows _ _ hl hr
  · exact madeOf_append (madeOf_pairRows _ hl hr) (madeOf_unmatchedRight _ _ hr)
  · intro j hj
    obtain ⟨r,hr',hj⟩ := mem_flatMap.1 hj
    split at hj
    · obtain ⟨l,hl',rfl⟩ := mem_map.1 hj
      exact (hl l (mem_filter.1 hl').1).append (hr r hr')
    · rw [mem_singleton.1 hj]
      exact (Joined.madeOf_padding _).append (hr r hr')
  · exact madeOf_append (madeOf_leftRows _ _ hl hr) (madeOf_unmatchedRight _ _ hr)

variable {joins : List JoinClause}
theorem madeOf_joinTables {combined : TableSchema} {rows : List Joined} (hrows : ∀ j ∈ rows, j.MadeOf P)
    (hjoins : ∀ join ∈ joins, ∀ rs, readJoined ctx join = .ok rs → ∀ r ∈ rs, P join.tableName r)
    (h : joinTables ctx ci joins schema rows = .ok (combined,out)) : ∀ j ∈ out, j.MadeOf P := by
  induction joins generalizing schema rows with
  | nil =>
    cases h
    exact hrows
  | cons join joins ih =>
    obtain ⟨right,rs,-,hr,h⟩ := joinTables_cons h
    have hright := madeOf_ofRow (hjoins join mem_cons_self rs hr)
    exact ih (madeOf_joinRows ci join _ _ hrows hright) (fun join' hj => hjoins join' (mem_cons_of_mem _ hj)) h

theorem mem_orderJoins {join : JoinClause} (h : join ∈ orderJoins ctx joins) : join ∈ joins := by
  unfold orderJoins at h
  split at h
  · exact mem_mergeSort.1 h
  · exact h

theorem mem_applyPushdownFilter
    (h : applyPushdownFilter ctx s schema rows = .ok kept) (hrow : row ∈ kept) : row ∈ rows := by
  unfold applyPushdownFilter at h
  split at h
  · cases h
    exact hrow
  · split at h
    · cases h
      exact hrow
    · exact ((mem_filterRows h).1 hrow).1

theorem mem_limitRows {rows : List Joined} {j : Joined} (h : j ∈ limitRows ctx s rows) : j ∈ rows := by
  unfold limitRows at h
  split at h
  · exact mem_of_mem_take h
  · exact h

theorem madeOf_selectedRows {x : TableSchema × List Joined}
    (ht : ctx.storage.tableSchema s.tableName = some schema) (hu : AllUsing ctx s.tableName)
    (hjoins : ∀ join ∈ s.joins, ∀ rows, readJoined ctx join = .ok rows → ∀ row ∈ rows,
      Permitted ctx join.tableName row)
    (h : selectedRows ctx s (aliased s.asName schema) = .ok x) : ∀ j ∈ x.2, j.MadeOf (Permitted ctx) := by
  obtain ⟨visible,hv,h⟩ := bind_eq_ok h
  obtain ⟨main,hmain,hv⟩ := bind_eq_ok hv
  obtain ⟨rows,hp,h⟩ := bind_eq_ok h
  obtain ⟨⟨combined,out⟩,hj,h⟩ := bind_eq_ok h
  obtain ⟨kept,hk,rfl⟩ := map_eq_ok h
  have hperm : ∀ row ∈ rows, Permitted ctx s.tableName row := fun row hrow =>
    permitted_of_filter ht hu hv row (mem_applyPushdownFilter hp hrow)
  have hout := madeOf_joinTables (madeOf_ofRow hperm)
    (fun join hjoin => hjoins join (mem_orderJoins hjoin)) hj
  intro j hj
  exact hout j ((mem_filterRows hk).1 (mem_limitRows hj)).1

theorem madeOf_partitionedRows {parts : List String}
    (ht : ctx.storage.tableSchema s.tableName = some schema) (hu : AllUsing ctx s.tableName)
    (h : partitionedRows ctx s (aliased s.asName schema) parts = .ok out) : ∀ j ∈ out, j.MadeOf (Permitted ctx) := by
  obtain ⟨read,hread,h⟩ := bind_eq_ok h
  obtain ⟨rows,hover,h⟩ := bind_eq_ok h
  obtain ⟨visible,hv,h⟩ := bind_eq_ok h
  obtain ⟨kept,hk,h⟩ := bind_eq_ok h
  have hperm : ∀ row ∈ kept, Permitted ctx s.tableName row := fun row hrow =>
    permitted_of_filter ht hu hv row (mem_applyPushdownFilter hk hrow)
  intro j hj
  exact madeOf_ofRow hperm j ((mem_filterRows h).1 hj).1

theorem madeOf_selectSources {x : SelectPath × TableSchema × List Joined} (hu : AllUsing ctx s.tableName)
    (hjoins : ∀ join ∈ s.joins, ∀ rows, readJoined ctx join = .ok rows → ∀ row ∈ rows,
      Permitted ctx join.tableName row)
    (h : selectSources ctx s = .ok x) : ∀ j ∈ x.2.2, j.MadeOf (Permitted ctx) := by
  unfold selectSources at h
  cases ht : ctx.storage.tableSchema s.tableName with
  | none => simp [ht] at h
  | some schema =>
    simp only [ht] at h
    split at h
    · obtain ⟨rows,hf,rfl⟩ := map_eq_ok h
      obtain ⟨kept,hk,rfl⟩ := map_eq_ok hf
      obtain ⟨read,hread,hk⟩ := bind_eq_ok hk
      exact madeOf_ofRow (permitted_of_filter ht hu hk)
    · split at h
      · obtain ⟨rows,hp,rfl⟩ := map_eq_ok h
        exact madeOf_partitionedRows ht hu hp
      · obtain ⟨y,hs,rfl⟩ := map_eq_ok h
        exact madeOf_selectedRows ht hu hjoins hs
end

section
variable {ctx : Context}
theorem exists_of_withSchema {f : TableSchema → Except String α} {a : α} (h : withSchema ctx table f = .ok a) :
    ∃ schema, ctx.storage.tableSchema table = some schema ∧ f schema = .ok a := by
  unfold withSchema at h
  cases ht : ctx.storage.tableSchema table with
  | none => simp [ht] at h
  | some schema => exact ⟨schema,rfl,by simpa [ht] using h⟩

variable {touched : List (String × Row)}
theorem mem_touched {read : Except String (List α)} {test : TableSchema → α → Except String Bool}
    {f : α → String × Row}
    (h : withSchema ctx table (fun schema => (read.bind (filterRows (test schema))).map fun as =>
      as.map f) = .ok touched) :
    ∃ schema as, ctx.storage.tableSchema table = some schema ∧ read = .ok as ∧
      ∀ {y}, y ∈ touched ↔ ∃ a, (a ∈ as ∧ test schema a = .ok true) ∧ f a = y := by
  obtain ⟨schema,ht,h⟩ := exists_of_withSchema h
  obtain ⟨kept,hk,rfl⟩ := map_eq_ok h
  obtain ⟨as,hr,hk⟩ := bind_eq_ok hk
  refine ⟨schema,as,ht,hr,fun {y} => ?_⟩
  simp only [List.mem_map,mem_filterRows hk]

theorem permitted_of_deleteMatch (ht : ctx.storage.tableSchema table = some schema) (hu : AllUsing ctx table)
    (hall : where_ = none → ∀ rows, ctx.storage.readCurrentRows table = .ok rows →
      ∀ row ∈ rows, Permitted ctx table row) (hc : candidateRows ctx table where_ = .ok rows) (hrow : row ∈ rows)
    (h : deleteMatch ctx schema where_ row = .ok true) : Permitted ctx table row := by
  cases where_ with
  | none => exact hall rfl rows hc row hrow
  | some w => exact permitted_of_updateMatch ht hu h

theorem touched_permitted (st : Statement) (hu : AllUsing ctx st.table)
    (hg : st.Guarded ctx) (h : st.touched ctx = .ok touched) : ∀ x ∈ touched, Permitted ctx x.1 x.2 := by
  cases st with
  | select s =>
    obtain ⟨x,hs,rfl⟩ := map_eq_ok h
    intro y hy
    obtain ⟨j,hj,hy⟩ := mem_flatMap.1 hy
    exact madeOf_selectSources hu hg hs j hj y hy
  | copyTo table =>
    obtain ⟨schema,ht,h⟩ := exists_of_withSchema h
    obtain ⟨rows,hr,rfl⟩ := map_eq_ok h
    intro y hy
    obtain ⟨row,hrow,rfl⟩ := mem_map.1 hy
    exact hg rows hr row hrow
  | history table key where_ =>
    obtain ⟨schema,vs,ht,hv,hmem⟩ := mem_touched h
    intro y hy
    obtain ⟨v,hvm,rfl⟩ := hmem.1 hy
    exact hg schema vs ht hv v hvm.1 hvm.2
  | update table where_ =>
    obtain ⟨schema,rows,ht,-,hmem⟩ := mem_touched h
    intro y hy
    obtain ⟨row,hrow,rfl⟩ := hmem.1 hy
    exact permitted_of_updateMatch ht hu hrow.2
  | delete table where_ =>
    obtain ⟨schema,ht,h⟩ := exists_of_withSchema h
    obtain ⟨removed,hr,rfl⟩ := map_eq_ok h
    intro y hy
    rcases mem_append.1 hy with hy | hy
    · obtain ⟨row,hrow,rfl⟩ := mem_map.1 hy
      obtain ⟨rows,hc,hf⟩ := bind_eq_ok hr
      obtain ⟨hmem,hmatch⟩ := (mem_filterRows hf).1 hrow
      exact permitted_of_deleteMatch ht hu hg.1 hc hmem hmatch
    · exact hg.2 schema removed ht hr y hy

theorem guarded_of_touched (st : Statement) (hj : st.joins = [])
    (h : st.touched ctx = .ok touched) (hp : ∀ x ∈ touched, Permitted ctx x.1 x.2) : st.Guarded ctx := by
  cases st with
  | select s =>
    have hs : s.joins = [] := hj
    intro join hjoin
    simp [hs] at hjoin
  | copyTo table =>
    obtain ⟨schema,ht,h⟩ := exists_of_withSchema h
    intro rows hr row hrow
    rw [hr] at h
    cases h
    exact hp (table,row) (mem_map_of_mem hrow)
  | history table key where_ =>
    obtain ⟨schema,vs,ht,hv,hmem⟩ := mem_touched h
    intro schema' vs' ht' hv' v hvm hmatch
    rw [ht] at ht'
    rw [hv] at hv'
    cases ht'
    cases hv'
    exact hp (table,v.2.2) (hmem.2 ⟨v,⟨hvm,hmatch⟩,rfl⟩)
  | update table where_ => trivial
  | delete table where_ =>
    obtain ⟨schema,ht,h⟩ := exists_of_withSchema h
    obtain ⟨removed,hr,rfl⟩ := map_eq_ok h
    refine ⟨fun hw rows' hrows row hrow => ?_,fun schema' rows' ht' hr' x hx => ?_⟩
    · subst hw
      obtain ⟨rows,hc,hf⟩ := bind_eq_ok hr
      obtain rfl : rows' = rows := by
        have hc' : ctx.storage.readCurrentRows table = .ok rows := hc
        simpa [hrows] using hc'
      exact hp (table,row) (mem_append_left _ (mem_map_of_mem ((mem_filterRows hf).2 ⟨hrow,rfl⟩)))
    · obtain rfl : schema = schema' := by simpa [ht] using ht'
      obtain rfl : removed = rows' := Except.ok.inj (hr.symm.trans hr')
      exact hp x (mem_append_right _ hx)

end

def docsSchema : TableSchema where
  name := "docs"
  columns := [⟨"owner","TEXT",false,false,false,false⟩,⟨"body","TEXT",false,false,false,false⟩]
  rlsEnabled := true
  policies := [⟨"own",some (.ok (.binary .eq (.columnRef "" "owner") (.value (.text "alice"))))⟩]

def docsRows : List Row := [[.text "alice",.text "a"],[.text "bob",.text "b"]]

def columnEval : Evaluator where
  toLower := id
  node e row schema _ :=
    match e with
    | .binary .eq (.columnRef _ name) (.value v) =>
      .ok (.bool ((schema.columns.findIdx? (·.name == name)).bind (row[·]?) == some v))
    | .value v => .ok v
    | _ => .error "unsupported"

def docsContext : Context where
  ev := columnEval
  storage :=
    { tableSchema := fun t => if t = "docs" then some docsSchema else none
      readCurrentRows := fun _ => .ok docsRows
      readRowsAsOf := fun _ _ => .ok docsRows
      txIDAtTimestamp := fun _ => .ok 1
      tryIndexLookup := fun _ _ => none
      tryIndexOnlyScan := fun _ _ _ => none
      readRowsByPositions := fun _ _ => .ok []
      selectForUpdateVM := fun _ _ _ => .ok docsRows
      rowHistory := fun _ _ => .ok (docsRows.map fun r => (1,0,r)) }
  dbName := "app"

theorem docs_allUsing : AllUsing docsContext "docs" := by
  intro schema ht _ p hp
  simp only [docsContext,if_true,some.injEq] at ht
  subst ht
  simp only [docsSchema,mem_singleton] at hp
  subst hp
  simp

end VaultDB.Sql
