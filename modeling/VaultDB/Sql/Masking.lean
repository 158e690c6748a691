import VaultDB.Sql.RowSecurity
set_option autoImplicit false

/-!
Column masking: what stands in a result cell that is a plain reference to a column.
-/

namespace VaultDB.Sql
open List Option SelectStatement
variable {schema : TableSchema} {ci : Option ColumnIndex} {row : Row} {p : Nat} {v : Value}
namespace Evaluator
variable (ev : Evaluator)
def scanPosition (n : Nat) (name : String) : List (ColumnSchema × Nat) → Option Nat
  | [] => none
  | (col,i) :: cols =>
    if (ev.equalFold col.name name || ((afterDot name).isNone && (shortName col.name).any fun s =>
      ev.equalFold s name)) &&
        i < n then some i
    else scanPosition n name cols

def columnPosition (n : Nat) (schema : TableSchema) (name : String) (ci : Option ColumnIndex) : Option Nat :=
  match ci.bind fun idx => (idx.lookup (ev.toLower name)).filter (· < n) with
  | some i => some i
  | none => ev.scanPosition n name schema.columns.zipIdx

def refPosition (n : Nat) (schema : TableSchema) (table name : String) (ci : Option ColumnIndex) : Option Nat :=
  if table = "" then ev.columnPosition n schema name ci
  else
    match ev.columnPosition n schema (table++"."++name) ci with
    | some i => some i
    | none => ev.columnPosition n schema name ci

theorem scanColumns_eq (row : Row) (name : String) (cols : List (ColumnSchema × Nat)) :
    ev.scanColumns row name cols = (ev.scanPosition row.length name cols).bind (row[·]?) := by
  induction cols with
  | nil => rfl
  | cons c cols ih =>
    obtain ⟨col,i⟩ := c
    simp only [scanColumns,scanPosition]
    split
    · rfl
    · exact ih

theorem lookup_bind (row : Row) (i : Option Nat) : i.bind (row[·]?) =
    (i.filter (· < row.length)).bind (row[·]?) := by
  cases i with
  | none => rfl
  | some i =>
    by_cases h : i < row.length
    · simp [Option.filter,h]
    · simp [Option.filter,h]

theorem resolveColumn_eq (row : Row) (schema : TableSchema) (name : String) (ci : Option ColumnIndex) :
    (ev.resolveColumn row schema name ci).toOption =
    (ev.columnPosition row.length schema name ci).bind (row[·]?) := by
  have hidx : (ci.bind fun idx => (idx.lookup (ev.toLower name)).bind (row[·]?)) =
      (ci.bind fun idx => (idx.lookup (ev.toLower name)).filter (· < row.length)).bind (row[·]?) := by
    cases ci with
    | none => rfl
    | some idx => exact lookup_bind row _
  unfold resolveColumn columnPosition
  rw [hidx,scanColumns_eq]
  cases hc : ci.bind fun idx => (idx.lookup (ev.toLower name)).filter (· < row.length) with
  | some i =>
    obtain ⟨idx,-,hi⟩ := bind_eq_some_iff.1 hc
    have hlt : i < row.length := by simpa using (filter_eq_some_iff.1 hi).2
    simp [getElem?_eq_getElem hlt,Except.toOption]
  | none =>
    simp only [bind_none]
    cases (ev.scanPosition row.length name schema.columns.zipIdx).bind (row[·]?) <;> rfl

theorem evalOperand_columnRef {table name : String}
    (h : ev.refPosition row.length schema table name ci = some p) (hv : row[p]? = some v) :
    ev.evalOperand (.columnRef table name) row schema ci = .ok v := by
  have hresolve : ∀ {name}, ev.columnPosition row.length schema name ci = some p →
      ev.resolveColumn row schema name ci = .ok v := by
    intro name hp
    have := ev.resolveColumn_eq row schema name ci
    rw [hp,bind_some,hv] at this
    cases hr : ev.resolveColumn row schema name ci with
    | error e => simp [hr,Except.toOption] at this
    | ok w => simpa [hr,Except.toOption] using this
  unfold refPosition at h
  simp only [evalOperand]
  split at h
  · rename_i ht
    rw [if_pos ht]
    exact hresolve h
  · rename_i ht
    rw [if_neg ht]
    cases hq : ev.columnPosition row.length schema (table++"."++name) ci with
    | some i =>
      rw [hq] at h
      cases h
      rw [hresolve hq]
    | none =>
      rw [hq] at h
      have hnone := ev.resolveColumn_eq row schema (table++"."++name) ci
      rw [hq,bind_none] at hnone
      cases hr : ev.resolveColumn row schema (table++"."++name) ci with
      | error e => exact hresolve h
      | ok w => simp [hr,Except.toOption] at hnone

end Evaluator

section
variable (ctx : Context)
def tableColumns (table : String) : List (String × String) :=
  ((ctx.storage.tableSchema table).map fun schema => schema.columns.map fun col => (table,col.name)).getD []

def origins (s : SelectStatement) : List (String × String) :=
  tableColumns ctx s.tableName++(orderJoins ctx s.joins).flatMap fun join => tableColumns ctx join.tableName

def originPolicy (s : SelectStatement) (p : Nat) : Option MaskingPolicy :=
  ((origins ctx s)[p]?).bind fun c => ctx.maskingPolicy (policyKey ctx.dbName c.1 c.2)

def joinedSchema (schema : TableSchema) : List JoinClause → TableSchema
  | [] => schema
  | join :: joins =>
    match ctx.storage.tableSchema join.tableName with
    | none => joinedSchema schema joins
    | some right => joinedSchema (joinSchema schema (aliased join.asName right)) joins

def SelectStatement.partitioned (s : SelectStatement) (schema : TableSchema) : Bool :=
  !s.fastPath ctx && schema.partitions.isSome

def combinedSchema (s : SelectStatement) (schema : TableSchema) : TableSchema :=
  if s.partitioned ctx schema then aliased s.asName schema
  else joinedSchema ctx (aliased s.asName schema) (orderJoins ctx s.joins)

def ToMasked (s : SelectStatement) (schema : TableSchema) (n : Nat) (col : SelectColumn) (p : Nat)
    (policy : MaskingPolicy) : Prop :=
  ∃ table name, col.expr = .columnRef table name ∧
    ctx.ev.refPosition n schema table name (some (ctx.ev.buildColumnIndex schema)) = some p ∧
    originPolicy ctx s p = some policy

/-- The plain references to masked columns in an output row show the masked values of a
source row. -/
def MaskedRow (s : SelectStatement) (schema : TableSchema) (src : Row) (out : List String) : Prop :=
  ∀ (i : Nat) col p policy v, (s.effectiveColumns schema)[i]? = some col →
    ToMasked ctx s schema src.length col p policy →
    src[p]? = some v → out[i]? = some (maskString (valueToString v) policy)

/-- `applyMasking` finds the policy of every reference to a masked column: no grouping, no
partitioned table, and the statement knows the column by its registered name. -/
def PoliciesFound (s : SelectStatement) (schema : TableSchema) : Prop :=
  ∀ n, ∀ col ∈ s.effectiveColumns (combinedSchema ctx s schema), ∀ p policy,
    ToMasked ctx s (combinedSchema ctx s schema) n col p policy → s.partitioned ctx schema = false ∧
      s.grouped = false ∧
      columnPolicy ctx (combinedSchema ctx s schema) col = some policy
end

section
variable {ctx : Context} {rows : List Joined} {s : SelectStatement} {combined : TableSchema} {out : List String}
  {α : Type} {cols : List SelectColumn} {res : Result} {col : SelectColumn} {a : α}
theorem joinTables_schema {joins : List JoinClause}
    {out : List Joined} (h : joinTables ctx ci joins schema rows = .ok (combined,out)) :
    combined = joinedSchema ctx schema joins := by
  induction joins generalizing schema rows with
  | nil =>
    cases h
    rfl
  | cons join joins ih =>
    obtain ⟨right,rs,ht,-,h⟩ := joinTables_cons h
    simpa [joinedSchema,ht] using ih h

theorem mem_dedupBy {κ : Type} [BEq κ] {key : α → κ} {as : List α} {seen : List κ}
    (h : a ∈ dedupBy key as seen) : a ∈ as := by
  induction as generalizing seen with
  | nil => simp [dedupBy] at h
  | cons b as ih =>
    simp only [dedupBy] at h
    split at h
    · exact mem_cons_of_mem _ (ih h)
    · rcases mem_cons.1 h with rfl | h
      · exact mem_cons_self
      · exact mem_cons_of_mem _ (ih h)

theorem mem_applyDistinct {rows : List (Joined × List String)} {x : Joined × List String}
    (h : x ∈ applyDistinct ctx s schema ci rows) : x ∈ rows := by
  unfold applyDistinct at h
  split at h
  · exact mem_dedupBy h
  · split at h
    · exact mem_dedupBy h
    · exact h

theorem mem_pageRows {limit : Option Int} {offset : Int} {rows paged : List α}
    (h : pageRows limit offset rows = .ok paged) (ha : a ∈ paged) : a ∈ rows := by
  unfold pageRows at h
  split at h
  · cases h
    exact mem_of_mem_take (mem_of_mem_drop ha)
  · cases h

theorem exists_of_projectAll (h : projectAll ctx s schema cols rows = .ok res) (ho : out ∈ res.rows) :
    ∃ r ∈ rows, out = applyMasking ctx schema cols
      (projectRow ctx schema (some (ctx.ev.buildColumnIndex schema)) cols r.flat) := by
  obtain ⟨paged,hp,rfl⟩ := map_eq_ok h
  obtain ⟨x,hx,rfl⟩ := mem_map.1 ho
  obtain ⟨r,hr,rfl⟩ := mem_map.1 (mem_applyDistinct (mem_pageRows hp hx))
  exact ⟨r,mem_mergeSort.1 hr,rfl⟩

theorem getElem?_applyMasking {i : Nat} (hm : ctx.hasUnmask = false) (hc : cols[i]? = some col) :
    (applyMasking ctx schema cols (projectRow ctx schema ci cols row))[i]? =
      some (maskCell ctx schema col (projectCell ctx schema ci row col)) := by
  have hzip : (cols.zip (cols.map (projectCell ctx schema ci row)))[i]? =
      some (col,projectCell ctx schema ci row col) := getElem?_zip_eq_some.2 ⟨hc,by simp [hc]⟩
  simp [applyMasking,hm,projectRow,getElem?_map,hzip]

theorem projectCell_toMasked {policy : MaskingPolicy} (h : ToMasked ctx s schema row.length col p policy)
    (hv : row[p]? = some v) :
    projectCell ctx schema (some (ctx.ev.buildColumnIndex schema)) row col = valueToString v := by
  obtain ⟨table,name,he,hp,-⟩ := h
  simp [projectCell,he,ctx.ev.evalOperand_columnRef hp hv]

theorem maskedRow_of_projectAll (hm : ctx.hasUnmask = false)
    (hf : ∀ n, ∀ col ∈ s.effectiveColumns schema, ∀ p policy, ToMasked ctx s schema n col p policy →
      columnPolicy ctx schema col = some policy)
    (h : projectAll ctx s schema (s.effectiveColumns schema) rows = .ok res)
    (ho : out ∈ res.rows) : ∃ r ∈ rows, MaskedRow ctx s schema r.flat out := by
  obtain ⟨r,hr,rfl⟩ := exists_of_projectAll h ho
  refine ⟨r,hr,fun i col p policy v hc hto hv => ?_⟩
  have hpol := hf _ col (mem_of_getElem? hc) p policy hto
  rw [getElem?_applyMasking hm hc,projectCell_toMasked hto hv,maskCell,hpol]

theorem maskedRow_of_none {src : Row}
    (h : ∀ n, ∀ col ∈ s.effectiveColumns schema, ∀ p policy, ¬ ToMasked ctx s schema n col p policy) :
    MaskedRow ctx s schema src out :=
  fun _ col p policy _ hc hto _ => absurd hto (h _ col (mem_of_getElem? hc) p policy)

theorem aliased_partitions (asName : String) (schema : TableSchema) :
    (aliased asName schema).partitions = schema.partitions := by
  unfold aliased
  split <;> rfl

theorem fastPath_plain (h : s.fastPath ctx = true) : s.joins = [] ∧ s.columns ≠ [] := by
  simp only [fastPath,isSimpleSelect,Bool.and_eq_true,Bool.not_eq_true',List.isEmpty_iff] at h
  refine ⟨h.1.1.1.1.1.1.1.1.2,fun hc => ?_⟩
  simp [hc] at h

theorem selectSources_schema {path : SelectPath} (ht : ctx.storage.tableSchema s.tableName = some schema)
    (h : selectSources ctx s = .ok (path,combined,rows)) :
    combined = combinedSchema ctx s schema ∧ (path = .fast → s.columns ≠ []) ∧
      (path = .partitioned → s.partitioned ctx schema = true) := by
  simp only [selectSources,ht,aliased_partitions] at h
  split at h
  · rename_i hfast
    obtain ⟨out,-,he⟩ := map_eq_ok h
    cases he
    have hplain := fastPath_plain hfast
    refine ⟨?_,fun _ => hplain.2,nofun⟩
    simp [combinedSchema,partitioned,hfast,hplain.1,orderJoins,joinedSchema]
  · rename_i hfast
    simp only [Bool.not_eq_true] at hfast
    cases hp : schema.partitions with
    | some parts =>
      rw [hp] at h
      obtain ⟨out,-,he⟩ := map_eq_ok h
      cases he
      have hpart : s.partitioned ctx schema = true := by simp [partitioned,hfast,hp]
      exact ⟨by rw [combinedSchema,if_pos hpart],nofun,fun _ => hpart⟩
    | none =>
      rw [hp] at h
      obtain ⟨⟨c,out⟩,hsel,he⟩ := map_eq_ok h
      cases he
      obtain ⟨visible,-,hsel⟩ := bind_eq_ok hsel
      obtain ⟨main,-,hsel⟩ := bind_eq_ok hsel
      obtain ⟨⟨c',joined⟩,hj,hsel⟩ := bind_eq_ok hsel
      obtain ⟨kept,-,he⟩ := map_eq_ok hsel
      cases he
      have hpart : s.partitioned ctx schema = false := by simp [partitioned,hp]
      refine ⟨?_,nofun,nofun⟩
      rw [combinedSchema,hpart]
      exact joinTables_schema hj

end

def usersSchema : TableSchema where
  name := "users"
  columns := [{ name := "email", type := "TEXT" }]

def usersRows : List Row := [[.text "anna"]]

def usersContext : Context where
  ev := columnEval
  storage :=
    { docsContext.storage with
      tableSchema := fun t => if t = "users" then some usersSchema else none
      readCurrentRows := fun _ => .ok usersRows }
  dbName := "app"
  hasUnmask := false
  maskingPolicy := fun key => if key = "app.users.email" then some ⟨1,0,'*'⟩ else none

def selectEmail (asName : String) : SelectStatement where
  columns := [⟨.columnRef "" "email",""⟩]
  tableName := "users"
  asName := asName

theorem selectEmail_policiesFound : PoliciesFound usersContext (selectEmail "") usersSchema := by
  intro n col hcol p policy hto
  obtain ⟨table,name,he,hp,ho⟩ := hto
  have hcol' : col = ⟨.columnRef "" "email",""⟩ := by simpa [effectiveColumns,selectEmail] using hcol
  subst hcol'
  have hpol : columnPolicy usersContext (combinedSchema usersContext (selectEmail "") usersSchema)
      ⟨.columnRef "" "email",""⟩ = some ⟨1,0,'*'⟩ := by decide +kernel
  refine ⟨by decide +kernel,by decide +kernel,?_⟩
  rw [hpol]
  -- the only policy there is
  simp only [originPolicy,usersContext,bind_eq_some_iff] at ho
  obtain ⟨c,-,hc⟩ := ho
  split at hc
  · exact hc
  · cases hc

end VaultDB.Sql
