import Mathlib.Logic.Function.Basic
import VaultDB.Sql.Eval
set_option autoImplicit false

/-!
WITH: common table expressions, kept as tables of the current database while they run.

A table of the name of the CTE is dropped before the CTE's own is created.  The tables of a plain
WITH are dropped by a call deferred after the last one is filled, that of a recursive CTE at the end
of its rounds.
-/

namespace VaultDB.Sql
open List Option Function
variable {since : Nat}
inductive SetOp where
  | union
  | unionAll
  | intersect
  | except
  deriving DecidableEq, Repr

def SetOp.text : SetOp → String
  | .union => "UNION"
  | .unionAll => "UNION ALL"
  | .intersect => "INTERSECT"
  | .except => "EXCEPT"

inductive ReadStatement where
  | select (s : SelectStatement)
  | setOperation (op : SetOp) (left right : ReadStatement)

structure CTEDefinition where
  name : String
  columns : List String := []
  query : ReadStatement

structure CTEStatement where
  ctes : List CTEDefinition
  body : ReadStatement
  recursive : Bool := false

structure StoredTable where
  schema : TableSchema
  rows : List Row
  createdAt : Nat

structure World (C : Type) where
  tables : String → Option StoredTable
  now : Nat
  session : C

/-- What WITH uses: `nameError` is what the storage has against a table name, `tupleError` against a
row that does not fit on a page. -/
structure CTEContext (C : Type) where
  requireCurrentDB : Except String String
  nameError : String → Option String
  tupleError : Row → Option String
  runSubquery : ReadStatement → (String → Option StoredTable) → C → Except String Result × C
  invalidate : String → C → C

structure CTEEntry where
  definition : CTEDefinition
  result : Option Result := none

abbrev CTEScope := String → Option CTEEntry
def CTEScope.registerCTE (scope : CTEScope) (cte : CTEEntry) : CTEScope :=
  Function.update scope cte.definition.name (some cte)

def CTEScope.ofDefinitions (ctes : List CTEDefinition) : CTEScope :=
  ctes.foldl (fun scope d => scope.registerCTE ⟨d,none⟩) fun _ => none

def textSchema (name : String) (columns : List String) : TableSchema :=
  { name := name, columns := columns.map fun col => { name := col } }

variable {C : Type} (ctx : CTEContext C)
def fitting (rows : List Row) : List Row := rows.takeWhile fun row => (ctx.tupleError row).isNone

variable {ctes : List CTEDefinition} {w' : World C}
namespace World

def dropTable (name : String) (w : World C) : World C :=
  if ctx.nameError name = none then { w with tables := Function.update w.tables name none } else w

def createTable (name : String) (columns : List String) (w : World C) : Except String Unit × World C :=
  match ctx.nameError name, w.tables name with
  | some e, _ => (.error e,w)
  | none, some _ => (.error ("table '"++name++"' already exists"),w)
  | none, none =>
    let t : StoredTable := ⟨textSchema name columns,[],w.now⟩
    (.ok (),{ w with tables := Function.update w.tables name (some t), now := w.now+1 })

def normalizedRow (width : Nat) (row : List String) : Row :=
  (List.range width).map fun i => (row[i]?).elim .null .text

def insertRows (name : String) (rows : List (List String)) (w : World C) : Except String Unit × World C :=
  match w.tables name with
  | none => (.error ("table '"++name++"' does not exist"),w)
  | some t =>
    let stored := rows.map (normalizedRow t.schema.columns.length)
    let t' := { t with rows := t.rows++fitting ctx stored }
    let w' := { w with tables := Function.update w.tables name (some t') }
    match stored.findSome? ctx.tupleError with
    | some e => (.error e,w')
    | none => (.ok (),w')

def runSubquery (q : ReadStatement) (w : World C) : Except String Result × World C :=
  ((ctx.runSubquery q w.tables w.session).1,{ w with session := (ctx.runSubquery q w.tables w.session).2 })

def storeResult (who name : String) (columns : List String) (rows : List (List String)) (w : World C) :
    Except String Unit × World C :=
  match w.createTable ctx name columns with
  | (.error e,w) => (.error (who++" temp table: "++e),w)
  | (.ok _,w) =>
    match w.insertRows ctx name rows with
    | (.error e,w) => (.error (who++" temp insert: "++e),w)
    | (.ok _,w) => (.ok (),w)

end World

def executeCTE (scope : CTEScope) (cte : CTEEntry) (w : World C) : Except String (Result × CTEScope) × World C :=
  match cte.result with
  | some res => (.ok (res,scope),w)
  | none =>
    match w.runSubquery ctx cte.definition.query with
    | (.error e,w) => (.error ("CTE '"++cte.definition.name++"': "++e),w)
    | (.ok res,w) => (.ok (res,scope.registerCTE { cte with result := some res }),w)

def materializeCTEs : List CTEDefinition → CTEScope → World C → Except String CTEScope × World C
  | [], scope, w => (.ok scope,w)
  | d :: rest, scope, w =>
    -- Every CTE of the statement was registered: of two with one name the second one stands.
    match executeCTE ctx scope ((scope d.name).getD ⟨d,none⟩) w with
    | (.error e,w) => (.error ("CTE '"++d.name++"': "++e),w)
    | (.ok (res,scope),w) =>
      match (w.dropTable ctx d.name).storeResult ctx ("CTE '"++d.name++"'") d.name res.columns res.rows with
      | (.error e,w) => (.error e,w)
      | (.ok _,w) => materializeCTEs rest scope w

def maxCTEIterations : Nat := 100
def rowKeyStr (row : List String) : String := String.intercalate "\x00" row

def appendNew (allRows : List (List String)) (rows : List (List String)) : List (List String) :=
  rows.foldl (fun all row => if all.any fun r => rowKeyStr r == rowKeyStr row then all else all++[row]) allRows

def recursiveRounds (name : String) (columns : List String) (member : ReadStatement) :
    Nat → List (List String) → World C → Except String Result × World C
  | 0, allRows, w => (.ok ⟨columns,allRows⟩,w.dropTable ctx name)
  | n+1, allRows, w =>
    match (w.dropTable ctx name).storeResult ctx "recursive CTE" name columns allRows with
    | (.error e,w) => (.error e,w)
    | (.ok _,w) =>
      match { w with session := ctx.invalidate name w.session }.runSubquery ctx member with
      | (.error e,w) => (.error ("recursive CTE recursive member: "++e),w)
      | (.ok iterRes,w) =>
        let grown := appendNew allRows iterRes.rows
        if grown.length = allRows.length then (.ok ⟨columns,grown⟩,w.dropTable ctx name)
        else if n = 0 then
          (.error ("recursive CTE '"++name++"' exceeded maximum allowed iterations ("++toString
            maxCTEIterations++")"),
            w.dropTable ctx name)
        else recursiveRounds name columns member n grown w

def executeRecursiveCTE (cte : CTEDefinition) (w : World C) : Except String Result × World C :=
  match cte.query with
  | .select _ => (.error "recursive CTE query must be a UNION ALL",w)
  | .setOperation op left right =>
    if op ≠ .unionAll then (.error ("recursive CTE only supports UNION ALL, got "++op.text),w)
    else
      match w.runSubquery ctx left with
      | (.error e,w) => (.error ("recursive CTE anchor: "++e),w)
      | (.ok anchorRes,w) =>
        match ctx.requireCurrentDB with
        | .error e => (.error e,w)
        | .ok _ =>
          let columns := if cte.columns.isEmpty then anchorRes.columns else cte.columns
          recursiveRounds ctx cte.name columns right maxCTEIterations anchorRes.rows w

def executeRecursiveCTEs : List CTEDefinition → CTEScope → World C → Except String CTEScope × World C
  | [], scope, w => (.ok scope,w)
  | d :: rest, scope, w =>
    match executeRecursiveCTE ctx d w with
    | (.error e,w) => (.error ("RECURSIVE CTE '"++d.name++"': "++e),w)
    | (.ok res,w) => executeRecursiveCTEs rest (scope.registerCTE ⟨d,some res⟩) w

def SelectStatement.hasAdditionalClauses (s : SelectStatement) : Bool :=
  (s.columns.any fun col => match col.expr with | .aggregate _ _ _ => true | _ => false) ||
    s.having.isSome || !s.groupBy.isEmpty || !s.orderBy.isEmpty || s.limit.isSome || s.offset.isSome
      || s.where_.isSome

def executeOnCTE (scope : CTEScope) (cte : CTEEntry) (s : SelectStatement) (w : World C) :
    Except String Result × World C :=
  match executeCTE ctx scope cte w with
  | (.error e,w) => (.error e,w)
  | (.ok (cteRes,_),w) =>
    if !s.hasAdditionalClauses then (.ok cteRes,w)
    else
      let tempTable := "_cte_"++s.tableName
      match w.createTable ctx tempTable cteRes.columns with
      | (.error e,w) => (.error ("CTE temp table: "++e),w)
      | (.ok _,w) =>
        match w.insertRows ctx tempTable cteRes.rows with
        | (.error e,w) => (.error ("CTE temp insert: "++e),w.dropTable ctx tempTable)
        | (.ok _,w) =>
          let (res,w) := w.runSubquery ctx (.select { s with tableName := tempTable })
          (res,w.dropTable ctx tempTable)

def executeBody (body : ReadStatement) (scope : CTEScope) (w : World C) : Except String Result × World C :=
  match body with
  | .select s =>
    match if s.tableName = "" then none else scope s.tableName with
    | some cte => executeOnCTE ctx scope cte s w
    | none => w.runSubquery ctx body
  | .setOperation _ _ _ => w.runSubquery ctx body

def dropTables (names : List String) (w : World C) : World C := names.foldl (fun w name => w.dropTable ctx name) w

def executeCTEStatement (stmt : CTEStatement) (w : World C) : Except String Result × World C :=
  let scope := CTEScope.ofDefinitions stmt.ctes
  if stmt.recursive then
    match executeRecursiveCTEs ctx stmt.ctes scope w with
    | (.error e,w) => (.error e,w)
    | (.ok scope,w) => executeBody ctx stmt.body scope w
  else
    match materializeCTEs ctx stmt.ctes scope w with
    | (.error e,w) => (.error e,w)
    | (.ok scope,w) =>
      let (res,w) := executeBody ctx stmt.body scope w
      (res,dropTables ctx (stmt.ctes.map CTEDefinition.name) w)

def RowsFit (width : Nat) (rows : List (List String)) : Prop :=
  ∀ row ∈ rows, ctx.tupleError (World.normalizedRow width row) = none

namespace World
variable {ctx} {name other : String} {columns : List String} {rows : List (List String)} {who : String} {w : World C}
@[simp] theorem runSubquery_tables (q : ReadStatement) : (w.runSubquery ctx q).2.tables = w.tables := rfl
@[simp] theorem runSubquery_now (q : ReadStatement) : (w.runSubquery ctx q).2.now = w.now := rfl

@[simp] theorem dropTable_now : (w.dropTable ctx name).now = w.now := by
  simp only [dropTable]
  split <;> rfl

theorem dropTable_tables_of_ne (h : other ≠ name) : (w.dropTable ctx name).tables other = w.tables other := by
  simp only [dropTable]
  split
  · exact update_of_ne h _ _
  · rfl

theorem dropTable_tables_self (h : ctx.nameError name = none) : (w.dropTable ctx name).tables name = none := by
  simp [dropTable,h]

theorem dropTable_of_error (h : ctx.nameError name ≠ none) : w.dropTable ctx name = w := by simp [dropTable,h]

theorem createTable_cases (ctx : CTEContext C) (name : String) (columns : List String) (w : World C) :
    (∃ e, w.createTable ctx name columns = (.error e,w) ∧ (ctx.nameError name = none → w.tables name ≠ none)) ∨
      ∃ t : StoredTable, t.createdAt = w.now ∧ t.schema.columns.length = columns.length ∧ t.rows = [] ∧
        ctx.nameError name = none ∧ w.tables name = none ∧
        w.createTable ctx name columns = (.ok (),
          { w with tables := update w.tables name (some t), now := w.now+1 }) := by
  cases hn : ctx.nameError name with
  | some e => exact .inl ⟨e,by simp [createTable,hn],by simp⟩
  | none =>
    cases ht : w.tables name with
    | some t => exact .inl ⟨"table '"++name++"' already exists",by simp only [createTable,hn,ht],by simp⟩
    | none =>
      exact .inr ⟨⟨textSchema name columns,[],w.now⟩,rfl,
        by simp [textSchema],rfl,rfl,rfl,by simp only [createTable,hn,ht]⟩

theorem insertRows_cases (ctx : CTEContext C) (name : String) {t : StoredTable} (ht : w.tables name = some t)
    (rows : List (List String)) : ∃ t' : StoredTable, t'.createdAt = t.createdAt ∧
      (w.insertRows ctx name rows).2 = { w with tables := update w.tables name (some t') } ∧
      ((w.insertRows ctx name rows).1 = .ok () ↔ RowsFit ctx t.schema.columns.length rows) := by
  simp only [insertRows,ht]
  refine ⟨{ t with rows := t.rows++fitting ctx (rows.map (normalizedRow t.schema.columns.length)) },rfl,?_⟩
  cases hf : (rows.map (normalizedRow t.schema.columns.length)).findSome? ctx.tupleError with
  | some e =>
    refine ⟨rfl,?_⟩
    obtain ⟨row,hrow,he⟩ := exists_of_findSome?_eq_some hf
    simp only [List.mem_map] at hrow
    obtain ⟨row,hrow,rfl⟩ := hrow
    simp only [reduceCtorEq,false_iff]
    intro hall
    simp [hall row hrow] at he
  | none =>
    refine ⟨rfl,?_⟩
    simpa [RowsFit] using hf

theorem replace_cases (ctx : CTEContext C) (who name : String) (columns : List String) (rows : List (List String))
    (w : World C) :
    (ctx.nameError name ≠ none ∧ ∃ e, (w.dropTable ctx name).storeResult ctx who name columns rows = (.error e,w)) ∨
      (ctx.nameError name = none ∧ ∃ t : StoredTable, t.createdAt = w.now ∧
        ((w.dropTable ctx name).storeResult ctx who name columns rows).2 =
          { w with tables := update w.tables name (some t), now := w.now+1 } ∧
        (((w.dropTable ctx name).storeResult ctx who name columns rows).1 = .ok () ↔ RowsFit ctx columns.length rows)) := by
  cases hn : ctx.nameError name with
  | some e =>
    refine .inl ⟨by simp,who++" temp table: "++e,?_⟩
    simp only [dropTable_of_error (hn.trans_ne (some_ne_none e)),storeResult,createTable,hn]
  | none =>
    refine .inr ⟨rfl,?_⟩
    let t : StoredTable := ⟨textSchema name columns,[],w.now⟩
    let created : World C := { w with tables := update w.tables name (some t), now := w.now+1 }
    have hcreate : (w.dropTable ctx name).createTable ctx name columns = (.ok (),created) := by
      simp [dropTable,createTable,hn,created,t]
    obtain ⟨t',hat,hins,hok⟩ := insertRows_cases ctx name (show created.tables name = some t by simp [created]) rows
    refine ⟨t',hat,?_⟩
    simp only [storeResult,hcreate]
    cases hr : created.insertRows ctx name rows with
    | mk r filled =>
      rw [hr] at hins hok
      have hfilled : filled = { w with tables := update w.tables name (some t'), now := w.now+1 } := by
        simpa [created] using hins
      cases r <;> simp_all [textSchema,t]

end World

theorem executeCTE_world (scope : CTEScope) (cte : CTEEntry) (w : World C) :
    (executeCTE ctx scope cte w).2.tables = w.tables ∧ (executeCTE ctx scope cte w).2.now = w.now := by
  simp only [executeCTE]
  split
  · simp
  · rcases hrun : w.runSubquery ctx cte.definition.query with ⟨e | res,w'⟩
    all_goals
      have hw : w' = (w.runSubquery ctx cte.definition.query).2 := by rw [hrun]
      simp [hw]

def CTERefused (d : CTEDefinition) (scope : CTEScope) (w : World C) : Prop :=
  ctx.nameError d.name ≠ none ∨ ∃ e w', executeCTE ctx scope ((scope d.name).getD ⟨d,none⟩) w = (.error e,w')

def CTEsAnswer : List CTEDefinition → CTEScope → World C → Prop
  | [], _, _ => True
  | d :: rest, scope, w =>
    ∃ res scope' w', executeCTE ctx scope ((scope d.name).getD ⟨d,none⟩) w = (.ok (res,scope'),w') ∧
      ctx.nameError d.name = none ∧ RowsFit ctx res.columns.length res.rows ∧
      CTEsAnswer rest scope'
        ((w'.dropTable ctx d.name).storeResult ctx ("CTE '"++d.name++"'") d.name res.columns res.rows).2

def World.Temp (since : Nat) (name : String) (w : World C) : Prop :=
  ∃ t, w.tables name = some t ∧ since ≤ t.createdAt

section
variable {ctx} {name : String}
theorem materializeCTEs_cons (d : CTEDefinition) (rest : List CTEDefinition) (scope : CTEScope) (w : World C) :
    (CTERefused ctx d scope w ∧ ∃ e w', materializeCTEs ctx (d :: rest) scope w = (.error e,w') ∧
      w'.tables = w.tables) ∨
      ctx.nameError d.name = none ∧ ∃ res scope' w1 w2 t,
        executeCTE ctx scope ((scope d.name).getD ⟨d,none⟩) w = (.ok (res,scope'),w1) ∧
        ((w1.dropTable ctx d.name).storeResult ctx ("CTE '"++d.name++"'") d.name res.columns res.rows).2 = w2 ∧
        t.createdAt = w.now ∧ w2.tables = update w.tables d.name (some t) ∧ w2.now = w.now+1 ∧
        ((RowsFit ctx res.columns.length res.rows ∧
            materializeCTEs ctx (d :: rest) scope w = materializeCTEs ctx rest scope' w2) ∨
          ¬RowsFit ctx res.columns.length res.rows ∧ ∃ e, materializeCTEs ctx (d :: rest) scope w = (.error e,w2)) := by
  have hworld := executeCTE_world ctx scope ((scope d.name).getD ⟨d,none⟩) w
  rcases hrun : executeCTE ctx scope ((scope d.name).getD ⟨d,none⟩) w with ⟨e | ⟨res,scope'⟩,w1⟩
  · refine .inl ⟨.inr ⟨e,w1,hrun⟩,"CTE '"++d.name++"': "++e,w1,?_,by simpa [hrun] using hworld.1⟩
    simp only [materializeCTEs,hrun]
  · rw [hrun] at hworld
    rcases World.replace_cases ctx ("CTE '"++d.name++"'") d.name res.columns res.rows w1 with
      ⟨hn,e,hstore⟩ | ⟨hn,t,hat,hts,hok⟩
    · refine .inl ⟨.inl hn,e,w1,?_,hworld.1⟩
      simp only [materializeCTEs,hrun,hstore]
    · refine .inr ⟨hn,res,scope',w1,_,t,rfl,rfl,hat.trans hworld.2,?_,?_,?_⟩
      · rw [hts,← hworld.1]
      · rw [hts,← hworld.2]
      · simp only [materializeCTEs,hrun]
        rcases hstore : (w1.dropTable ctx d.name).storeResult ctx ("CTE '"++d.name++"'") d.name
          res.columns res.rows with
          ⟨e | _,w2⟩
        · rw [hstore] at hok
          exact .inr ⟨by simpa using hok,e,rfl⟩
        · rw [hstore] at hok
          exact .inl ⟨by simpa using hok,rfl⟩

theorem materializeCTEs_ok_iff (ctes : List CTEDefinition) (scope : CTEScope) (w : World C) :
    (∃ scope' w', materializeCTEs ctx ctes scope w = (.ok scope',w')) ↔ CTEsAnswer ctx ctes scope w := by
  induction ctes generalizing scope w with
  | nil => simp [materializeCTEs,CTEsAnswer]
  | cons d rest ih =>
    simp only [CTEsAnswer]
    rcases materializeCTEs_cons d rest scope w with
      ⟨href,e,w',hrun,-⟩ | ⟨hn,res,scope',w1,w2,t,hcte,hw2,-,-,-,⟨hfit,hrun⟩ | ⟨hfit,e,hrun⟩⟩
    · rw [hrun]
      rcases href with hn | ⟨e',w'',hcte⟩
      · simp [hn]
      · simp [hcte]
    · rw [hrun,ih,← hw2]
      simp [hcte,hn,hfit]
    · rw [hrun]
      simp [hcte,hfit]

theorem materializeCTEs_of_notMem (ctx : CTEContext C)
    (h : name ∉ ctes.map CTEDefinition.name) (scope : CTEScope) (w : World C) :
    (materializeCTEs ctx ctes scope w).2.tables name = w.tables name := by
  induction ctes generalizing scope w with
  | nil => rfl
  | cons d rest ih =>
    simp only [map_cons,mem_cons,not_or] at h
    rcases materializeCTEs_cons d rest scope w with
      ⟨-,e,w',hrun,hts⟩ | ⟨-,res,scope',w1,w2,t,-,-,-,hts,-,⟨-,hrun⟩ | ⟨-,e,hrun⟩⟩
    · rw [hrun,hts]
    · rw [hrun,ih h.2,hts,update_of_ne h.1]
    · rw [hrun,hts,update_of_ne h.1]

theorem materializeCTEs_temp (ctx : CTEContext C) (ctes : List CTEDefinition)
    (scope : CTEScope) {w : World C} (hnow : since ≤ w.now) (htemp : w.Temp since name) :
    (materializeCTEs ctx ctes scope w).2.Temp since name := by
  induction ctes generalizing scope w with
  | nil => exact htemp
  | cons d rest ih =>
    have hnew {t : StoredTable} {w2 : World C} (hat : t.createdAt = w.now)
        (hts : w2.tables = update w.tables d.name (some t)) : w2.Temp since name := by
      by_cases hname : name = d.name
      · exact ⟨t,by simp [hts,hname],by omega⟩
      · obtain ⟨t',ht',hat'⟩ := htemp
        exact ⟨t',by simpa [hts,update_of_ne hname] using ht',hat'⟩
    rcases materializeCTEs_cons d rest scope w with
      ⟨-,e,w',hrun,hts⟩ | ⟨-,res,scope',w1,w2,t,-,-,hat,hts,hnow2,⟨-,hrun⟩ | ⟨-,e,hrun⟩⟩
    · rw [hrun]
      obtain ⟨t,ht,hat⟩ := htemp
      exact ⟨t,by simpa [hts] using ht,hat⟩
    · rw [hrun]
      exact ih scope' (by omega) (hnew hat hts)
    · rw [hrun]
      exact hnew hat hts
end

theorem executeOnCTE_tables (scope : CTEScope) (cte : CTEEntry) (s : SelectStatement) (w : World C) :
    (executeOnCTE ctx scope cte s w).2.tables = w.tables := by
  have hworld := executeCTE_world ctx scope cte w
  simp only [executeOnCTE]
  rcases hrun : executeCTE ctx scope cte w with ⟨e | ⟨res,scope'⟩,w1⟩
  all_goals rw [hrun] at hworld
  · exact hworld.1
  · simp only
    split
    · exact hworld.1
    · rcases World.createTable_cases ctx ("_cte_"++s.tableName) res.columns w1 with
        ⟨e,hcreate,-⟩ | ⟨t,-,-,-,hn,hfree,hcreate⟩
      · rw [hcreate]
        exact hworld.1
      · -- The table is new, so dropping it leaves what was there.
        rw [hcreate]
        simp only
        let created : World C :=
          { w1 with tables := update w1.tables ("_cte_"++s.tableName) (some t), now := w1.now+1 }
        obtain ⟨t',-,hins,-⟩ := World.insertRows_cases ctx ("_cte_"++s.tableName)
          (show created.tables ("_cte_"++s.tableName) = some t by simp [created]) res.rows
        have hdropped (c : C) : (World.dropTable ctx ("_cte_"++s.tableName)
            { (created.insertRows ctx ("_cte_"++s.tableName) res.rows).2 with session := c }).tables = w.tables := by
          simp only [World.dropTable,hn,hins,created,if_true,update_idem,← hfree,update_eq_self]
          exact hworld.1
        rcases hr : created.insertRows ctx ("_cte_"++s.tableName) res.rows with ⟨e | _,w2⟩
        · rw [hr] at hdropped
          exact hdropped w2.session
        · rw [hr] at hdropped
          exact hdropped _

theorem executeBody_tables (body : ReadStatement) (scope : CTEScope) (w : World C) :
    (executeBody ctx body scope w).2.tables = w.tables := by
  cases body with
  | setOperation op l r => rfl
  | select s =>
    simp only [executeBody]
    split
    · exact executeOnCTE_tables ctx scope _ s w
    · rfl

theorem dropTables_apply (names : List String) (w : World C) (name : String) : (dropTables ctx names w).tables name =
      if name ∈ names ∧ ctx.nameError name = none then none else w.tables name := by
  induction names generalizing w with
  | nil => simp [dropTables]
  | cons n names ih =>
    have hcons : dropTables ctx (n :: names) w = dropTables ctx names (w.dropTable ctx n) := rfl
    rw [hcons,ih]
    by_cases hname : name = n
    · subst hname
      by_cases hn : ctx.nameError name = none
      · simp [hn,World.dropTable_tables_self]
      · simp [hn,World.dropTable_of_error]
    · simp [World.dropTable_tables_of_ne hname,hname]

variable {name : String}
section
variable {ctx} {w : World C} {scope : CTEScope}
theorem nameError_of_answer (h : CTEsAnswer ctx ctes scope w) : ∀ d ∈ ctes, ctx.nameError d.name = none := by
  induction ctes generalizing scope w with
  | nil => simp
  | cons d rest ih =>
    obtain ⟨res,scope',w',-,hn,-,hrest⟩ := h
    simpa [hn] using ih hrest

theorem not_refused_of_ok {scope' : CTEScope}
    (h : materializeCTEs ctx ctes scope w = (.ok scope',w')) : ∀ d ∈ ctes.head?, ¬CTERefused ctx d scope w := by
  cases ctes with
  | nil => simp
  | cons d rest =>
    obtain ⟨res,scope1,w1,hcte,hn,-⟩ := (materializeCTEs_ok_iff _ scope w).1 ⟨scope',w',h⟩
    simp [CTERefused,hcte,hn]

theorem tables_ne_of_temp (hclock : ∀ name t, w.tables name = some t → t.createdAt < w.now)
    (h : w'.Temp w.now name) : w'.tables ≠ w.tables := by
  intro heq
  obtain ⟨t,ht,hat⟩ := h
  have := hclock name t (heq ▸ ht)
  omega

theorem materializeCTEs_error_iff {e : String} (hclock : ∀ name t, w.tables name = some t → t.createdAt < w.now)
    (h : materializeCTEs ctx ctes scope w = (.error e,w')) :
    w'.tables = w.tables ↔ ∃ d ∈ ctes.head?, CTERefused ctx d scope w := by
  cases ctes with
  | nil => simp [materializeCTEs] at h
  | cons d rest =>
    rcases materializeCTEs_cons d rest scope w with
      ⟨href,e',w'',hrun,hts⟩ | ⟨hn,res,scope',w1,w2,t,hcte,-,hat,hts,hnow,hcases⟩
    · rw [hrun,Prod.mk.injEq] at h
      simpa [← h.2,hts] using href
    · have hnot : ¬CTERefused ctx d scope w := by simp [CTERefused,hcte,hn]
      have htemp2 : w2.Temp w.now d.name := ⟨t,by simp [hts],hat.ge⟩
      have htemp : w'.Temp w.now d.name := by
        rcases hcases with ⟨-,hrun⟩ | ⟨-,e',hrun⟩
        · have hkept := materializeCTEs_temp ctx rest scope' (by omega) htemp2
          rwa [← hrun,h] at hkept
        · rw [hrun,Prod.mk.injEq] at h
          exact h.2 ▸ htemp2
      simpa [hnot] using tables_ne_of_temp hclock htemp

theorem executeCTEStatement_plain_iff {stmt : CTEStatement} (hplain : stmt.recursive = false)
    (hclock : ∀ name t, w.tables name = some t → t.createdAt < w.now) :
    (executeCTEStatement ctx stmt w).2.tables = w.tables ↔
      (∃ d ∈ stmt.ctes.head?, CTERefused ctx d (.ofDefinitions stmt.ctes) w) ∨
        (∀ d ∈ stmt.ctes, w.tables d.name = none) ∧ CTEsAnswer ctx stmt.ctes (.ofDefinitions stmt.ctes) w := by
  rw [← materializeCTEs_ok_iff]
  simp only [executeCTEStatement,hplain,Bool.false_eq_true,if_false]
  generalize CTEScope.ofDefinitions stmt.ctes = scope
  rcases hrun : materializeCTEs ctx stmt.ctes scope w with ⟨e | scope',w'⟩
  · simpa using materializeCTEs_error_iff hclock hrun
  · have hhead : ¬∃ d ∈ stmt.ctes.head?, CTERefused ctx d scope w := by
      rintro ⟨d,hd,href⟩
      exact not_refused_of_ok hrun d hd href
    have hnames := (nameError_of_answer <| (materializeCTEs_ok_iff _ scope w).1 ⟨scope',w',hrun⟩)
    simp only [hhead,false_or,Prod.mk.injEq,Except.ok.injEq,exists_and_left,exists_eq',and_true]
    rw [funext_iff]
    simp only [dropTables_apply,executeBody_tables]
    constructor
    · intro h d hd
      rw [← h d.name,if_pos ⟨mem_map_of_mem hd,hnames d hd⟩]
    · intro h name
      split
      · rename_i hname
        obtain ⟨d,hd,rfl⟩ := mem_map.1 hname.1
        exact (h d hd).symm
      · rename_i hname
        have hmem : name ∉ stmt.ctes.map CTEDefinition.name := by
          intro hmem
          obtain ⟨d,hd,rfl⟩ := mem_map.1 hmem
          exact hname ⟨hmem,hnames d hd⟩
        simpa [hrun] using materializeCTEs_of_notMem ctx hmem scope w
end

def RoundsAnswer (name : String) (columns : List String) (member : ReadStatement) : Nat →
    List (List String) → World C → Prop
  | 0, _, _ => True
  | n+1, allRows, w =>
    let stored := ((w.dropTable ctx name).storeResult ctx "recursive CTE" name columns allRows).2
    let answer := World.runSubquery ctx member { stored with session := ctx.invalidate name stored.session }
    RowsFit ctx columns.length allRows ∧ ∃ iterRes, answer.1 = .ok iterRes ∧
      ((appendNew allRows iterRes.rows).length ≠ allRows.length → n ≠ 0 →
        RoundsAnswer name columns member n (appendNew allRows iterRes.rows) answer.2)

def RecursiveAnswer (cte : CTEDefinition) (w : World C) : Prop :=
  match cte.query with
  | .setOperation .unionAll left right =>
    ∀ anchorRes dbName, (w.runSubquery ctx left).1 = .ok anchorRes → ctx.requireCurrentDB = .ok dbName →
      ctx.nameError cte.name = none →
      w.tables cte.name = none ∧
        RoundsAnswer ctx cte.name (if cte.columns.isEmpty then anchorRes.columns else cte.columns) right
          maxCTEIterations anchorRes.rows (w.runSubquery ctx left).2
  | _ => True

def RecursiveAnswers : List CTEDefinition → World C → Prop
  | [], _ => True
  | d :: rest, w =>
    RecursiveAnswer ctx d w ∧ ∀ res w', executeRecursiveCTE ctx d w = (.ok res,w') → RecursiveAnswers rest w'

def World.Gone (since : Nat) (name : String) (w : World C) : Prop :=
  since ≤ w.now ∧ ∀ t, w.tables name = some t → since ≤ t.createdAt

section
variable {ctx} {w : World C} {n : Nat} {allRows : List (List String)} {cte : CTEDefinition}
theorem World.Gone.congr (h : w.Gone since name)
    (hts : w'.tables name = w.tables name) (hnow : w'.now = w.now) : w'.Gone since name :=
  ⟨hnow ▸ h.1,fun t ht => h.2 t (hts ▸ ht)⟩

theorem World.Gone.dropTable (h : w.Gone since name) (other : String) : (w.dropTable ctx other).Gone since name := by
  by_cases hn : ctx.nameError other = none
  · refine ⟨by simpa using h.1,?_⟩
    intro t ht
    by_cases hname : name = other
    · subst hname
      simp [World.dropTable_tables_self hn] at ht
    · exact h.2 t (by rwa [World.dropTable_tables_of_ne hname] at ht)
  · rw [World.dropTable_of_error hn]
    exact h

variable {name : String} {columns : List String} {member : ReadStatement}
theorem recursiveRounds_succ (hn : ctx.nameError name = none) (columns : List String)
    (member : ReadStatement) (n : Nat)
    (allRows : List (List String)) (w : World C) : ∃ (w' : World C) (t : StoredTable), t.createdAt = w.now ∧
      w'.tables = update w.tables name (some t) ∧ w'.now = w.now+1 ∧
      ((¬RoundsAnswer ctx name columns member (n+1) allRows w ∧
          ∃ e, recursiveRounds ctx name columns member (n+1) allRows w = (.error e,w')) ∨
        (RoundsAnswer ctx name columns member (n+1) allRows w ∧
          (recursiveRounds ctx name columns member (n+1) allRows w).2 = w'.dropTable ctx name) ∨
        ∃ grown, (RoundsAnswer ctx name columns member (n+1) allRows w ↔
          RoundsAnswer ctx name columns member n grown w') ∧
          recursiveRounds ctx name columns member (n+1) allRows w = recursiveRounds ctx name columns member n grown w') := by
  rcases World.replace_cases ctx "recursive CTE" name columns allRows w with ⟨h,-⟩ | ⟨-,t,hat,hts,hok⟩
  · exact absurd hn h
  · simp only [recursiveRounds,RoundsAnswer]
    rcases hstore : (w.dropTable ctx name).storeResult ctx "recursive CTE" name columns allRows with ⟨e | _,w1⟩
    all_goals
      rw [hstore] at hts hok
      simp only at hts hok ⊢
    · have hfit : ¬RowsFit ctx columns.length allRows := by simpa using hok
      exact ⟨w1,t,hat,by rw [hts],by rw [hts],.inl ⟨by simp [hfit],e,rfl⟩⟩
    · have hfit : RowsFit ctx columns.length allRows := by simpa using hok
      rcases hrun : World.runSubquery ctx member
        { w1 with session := ctx.invalidate name w1.session } with ⟨e | res,w2⟩
      all_goals
        have hw2 : w2 = (World.runSubquery ctx member
          { w1 with session := ctx.invalidate name w1.session }).2 := by rw [hrun]
        have hts2 : w2.tables = update w.tables name (some t) := by simp [hw2,hts]
        have hnow2 : w2.now = w.now+1 := by simp [hw2,hts]
        refine ⟨w2,t,hat,hts2,hnow2,?_⟩
      · exact .inl ⟨by simp,_,rfl⟩
      · by_cases hlen : (appendNew allRows res.rows).length = allRows.length
        · exact .inr (.inl ⟨by simp [hfit,hlen],by simp [hlen]⟩)
        · by_cases hzero : n = 0
          · exact .inr (.inl ⟨by simp [hfit,hzero],by simp [hlen,hzero]⟩)
          · exact .inr (.inr ⟨appendNew allRows res.rows,by simp [hfit,hlen,hzero],by simp [hlen,hzero]⟩)

theorem recursiveRounds_refused (hn : ctx.nameError name ≠ none) (columns : List String) (member : ReadStatement)
    (n : Nat) (allRows : List (List String)) (w : World C) :
    (recursiveRounds ctx name columns member n allRows w).2 = w := by
  cases n with
  | zero => exact World.dropTable_of_error hn
  | succ n =>
    rcases World.replace_cases ctx "recursive CTE" name columns allRows w with ⟨-,e,hstore⟩ | ⟨h,-⟩
    · simp only [recursiveRounds,hstore]
    · exact absurd h hn

theorem recursiveRounds_answered (hn : ctx.nameError name = none)
    (h : RoundsAnswer ctx name columns member n allRows w) :
    (recursiveRounds ctx name columns member n allRows w).2.tables = update w.tables name none := by
  induction n generalizing allRows w with
  | zero => simp [recursiveRounds,World.dropTable,hn]
  | succ n ih =>
    obtain ⟨w',t,-,hts,-,⟨hnot,-⟩ | ⟨-,hend⟩ | ⟨grown,hiff,hrun⟩⟩ :=
      recursiveRounds_succ hn columns member n allRows w
    · exact absurd h hnot
    · simp [hend,World.dropTable,hn,hts]
    · rw [hrun,ih (hiff.1 h),hts,update_idem]

theorem recursiveRounds_unanswered (hn : ctx.nameError name = none)
    (hnow : since ≤ w.now) (h : ¬RoundsAnswer ctx name columns member n allRows w) :
    ∃ e w', recursiveRounds ctx name columns member n allRows w = (.error e,w') ∧ w'.Temp since name := by
  induction n generalizing allRows w with
  | zero => exact absurd trivial h
  | succ n ih =>
    obtain ⟨w',t,hat,hts,hnow',⟨-,e,hrun⟩ | ⟨hyes,-⟩ | ⟨grown,hiff,hrun⟩⟩ :=
      recursiveRounds_succ hn columns member n allRows w
    · exact ⟨e,w',hrun,t,by simp [hts],by omega⟩
    · exact absurd hyes h
    · rw [hrun]
      exact ih (by omega) (mt hiff.2 h)

theorem recursiveRounds_now (n : Nat) (allRows : List (List String)) (w : World C) :
    w.now ≤ (recursiveRounds ctx name columns member n allRows w).2.now := by
  by_cases hn : ctx.nameError name = none
  · induction n generalizing allRows w with
    | zero => simp [recursiveRounds]
    | succ n ih =>
      obtain ⟨w',t,-,-,hnow,⟨-,e,hrun⟩ | ⟨-,hend⟩ | ⟨grown,-,hrun⟩⟩ :=
        recursiveRounds_succ hn columns member n allRows w
      · simp only [hrun]
        omega
      · rw [hend,World.dropTable_now]
        omega
      · rw [hrun]
        have := ih grown w'
        omega
  · rw [recursiveRounds_refused hn]

theorem recursiveRounds_dropTable (n : Nat) (allRows : List (List String)) (w : World C) :
    recursiveRounds ctx name columns member n allRows (w.dropTable ctx name) =
      recursiveRounds ctx name columns member n allRows w := by
  have hdrop : (w.dropTable ctx name).dropTable ctx name = w.dropTable ctx name := by
    by_cases hn : ctx.nameError name = none <;> simp [World.dropTable,hn]
  cases n <;> simp only [recursiveRounds,hdrop]

theorem recursiveRounds_gone {other : String} (n : Nat) (allRows : List (List String))
    (h : w.Gone since other) : (recursiveRounds ctx name columns member n allRows w).2.Gone since other := by
  by_cases hn : ctx.nameError name = none
  · induction n generalizing allRows w with
    | zero => exact h.dropTable name
    | succ n ih =>
      obtain ⟨w',t,hat,hts,hnow',hcases⟩ := recursiveRounds_succ hn columns member n allRows w
      have hgone : w'.Gone since other := by
        refine ⟨by have := h.1; omega,?_⟩
        intro t' ht'
        rw [hts] at ht'
        by_cases hname : other = name
        · subst hname
          have ht : t = t' := by simpa using ht'
          rw [← ht,hat]
          exact h.1
        · rw [update_of_ne hname] at ht'
          exact h.2 t' ht'
      rcases hcases with ⟨-,e,hrun⟩ | ⟨-,hend⟩ | ⟨grown,-,hrun⟩
      · rwa [hrun]
      · rw [hend]
        exact hgone.dropTable name
      · rw [hrun]
        exact ih grown hgone
  · rw [recursiveRounds_refused hn]
    exact h

theorem executeRecursiveCTE_cases (cte : CTEDefinition) (w : World C) :
    (RecursiveAnswer ctx cte w ∧ ∃ e w', executeRecursiveCTE ctx cte w = (.error e,w') ∧
        w'.tables = w.tables ∧ w'.now = w.now) ∨
      ∃ columns member rows w', w'.tables = w.tables ∧ w'.now = w.now ∧
        executeRecursiveCTE ctx cte w = recursiveRounds ctx cte.name columns member maxCTEIterations rows w' ∧
        (RecursiveAnswer ctx cte w ↔ (ctx.nameError cte.name = none → w.tables cte.name = none ∧
          RoundsAnswer ctx cte.name columns member maxCTEIterations rows w')) := by
  simp only [executeRecursiveCTE,RecursiveAnswer]
  cases cte.query with
  | select s => exact .inl ⟨trivial,_,w,rfl,rfl,rfl⟩
  | setOperation op left right =>
    by_cases hop : op = .unionAll
    · subst hop
      simp only [ne_eq,not_true_eq_false,if_false]
      rcases hrun : w.runSubquery ctx left with ⟨e | anchorRes,w'⟩
      all_goals have hw' : w' = (w.runSubquery ctx left).2 := by rw [hrun]
      · exact .inl ⟨by simp,_,w',rfl,by simp [hw'],by simp [hw']⟩
      · cases hdb : ctx.requireCurrentDB with
        | error e => exact .inl ⟨by simp,e,w',rfl,by simp [hw'],by simp [hw']⟩
        | ok dbName => exact .inr ⟨_,right,anchorRes.rows,w',by simp [hw'],by simp [hw'],rfl,by simp⟩
    · simp only [ne_eq,hop,not_false_eq_true,if_true]
      refine .inl ⟨?_,_,w,rfl,rfl,rfl⟩
      cases op <;> first | exact absurd rfl hop | trivial

theorem executeRecursiveCTE_answered (h : RecursiveAnswer ctx cte w) :
    (executeRecursiveCTE ctx cte w).2.tables = w.tables := by
  rcases executeRecursiveCTE_cases cte w with ⟨-,e,w',hrun,hts,-⟩ | ⟨cols,member,rows,w',hts,-,hrun,hiff⟩
  · rw [hrun,hts]
  · rw [hrun]
    by_cases hn : ctx.nameError cte.name = none
    · have hfree := hiff.1 h hn
      rw [recursiveRounds_answered hn hfree.2,hts,← hfree.1,update_eq_self]
    · rw [recursiveRounds_refused hn,hts]

theorem executeRecursiveCTE_gone (ctx : CTEContext C) (cte : CTEDefinition)
    (h : w.Gone since name) : (executeRecursiveCTE ctx cte w).2.Gone since name := by
  rcases executeRecursiveCTE_cases cte w with
    ⟨-,e,w',hrun,hts,hnow⟩ | ⟨cols,member,rows,w',hts,hnow,hrun,-⟩
  · rw [hrun]
    exact h.congr (by rw [hts]) hnow
  · rw [hrun]
    exact recursiveRounds_gone _ rows (h.congr (by rw [hts]) hnow)

theorem executeRecursiveCTE_now (ctx : CTEContext C) (cte : CTEDefinition) (w : World C) :
    w.now ≤ (executeRecursiveCTE ctx cte w).2.now := by
  rcases executeRecursiveCTE_cases cte w with ⟨-,e,w',hrun,-,hnow⟩ | ⟨cols,member,rows,w',-,hnow,hrun,-⟩
  · rw [hrun,hnow]
  · rw [hrun,← hnow]
    exact recursiveRounds_now _ rows w'

theorem executeRecursiveCTE_unanswered (h : ¬RecursiveAnswer ctx cte w) :
    (w.tables cte.name ≠ none ∧ (executeRecursiveCTE ctx cte w).2.Gone w.now cte.name) ∨
      ∃ e w', executeRecursiveCTE ctx cte w = (.error e,w') ∧ w'.Temp w.now cte.name := by
  rcases executeRecursiveCTE_cases cte w with ⟨hyes,-⟩ | ⟨cols,member,rows,w',hts,hnow,hrun,hiff⟩
  · exact absurd hyes h
  · rw [hiff,Classical.not_imp] at h
    obtain ⟨hn,h⟩ := h
    rw [hrun]
    by_cases hfree : w.tables cte.name = none
    · exact .inr (recursiveRounds_unanswered hn hnow.ge fun hround => h ⟨hfree,hround⟩)
    · refine .inl ⟨hfree,?_⟩
      rw [← recursiveRounds_dropTable]
      apply recursiveRounds_gone
      exact ⟨by simp [hnow],by simp [World.dropTable_tables_self hn]⟩

theorem executeRecursiveCTEs_gone (ctes : List CTEDefinition) (scope : CTEScope)
    (h : w.Gone since name) : (executeRecursiveCTEs ctx ctes scope w).2.Gone since name := by
  induction ctes generalizing scope w with
  | nil => exact h
  | cons d rest ih =>
    have hgone := executeRecursiveCTE_gone ctx d h
    simp only [executeRecursiveCTEs]
    rcases hrun : executeRecursiveCTE ctx d w with ⟨e | res,w'⟩
    · simpa [hrun] using hgone
    · rw [hrun] at hgone
      exact ih _ hgone

theorem executeRecursiveCTEs_iff (ctes : List CTEDefinition) (scope : CTEScope)
    (hclock : ∀ name t, w.tables name = some t → t.createdAt < w.now) :
    (executeRecursiveCTEs ctx ctes scope w).2.tables = w.tables ↔ RecursiveAnswers ctx ctes w := by
  induction ctes generalizing scope w with
  | nil => simp [executeRecursiveCTEs,RecursiveAnswers]
  | cons d rest ih =>
    simp only [RecursiveAnswers]
    by_cases hd : RecursiveAnswer ctx d w
    · have hts := executeRecursiveCTE_answered hd
      have hnow := executeRecursiveCTE_now ctx d w
      simp only [executeRecursiveCTEs]
      rcases hrun : executeRecursiveCTE ctx d w with ⟨e | res,w'⟩
      all_goals rw [hrun] at hts hnow
      · simpa [hd] using hts
      · have hclock' : ∀ name t, w'.tables name = some t → t.createdAt < w'.now := by
          intro name t ht
          exact (hclock name t (hts ▸ ht)).trans_le hnow
        have hrest := ih (scope.registerCTE ⟨d,some res⟩) hclock'
        simp only at hts ⊢
        rw [← hts,hrest]
        simp [hd]
    · simp only [hd,false_and,iff_false]
      rcases executeRecursiveCTE_unanswered hd with ⟨hstored,hgone⟩ | ⟨e,w',hrun,htemp⟩
      · -- The stored table is gone, and what follows cannot bring it back.
        obtain ⟨t,ht⟩ := ne_none_iff_exists'.1 hstored
        have hgone' : (executeRecursiveCTEs ctx (d :: rest) scope w).2.Gone w.now d.name := by
          simp only [executeRecursiveCTEs]
          rcases hrun : executeRecursiveCTE ctx d w with ⟨e | res,w'⟩
          all_goals rw [hrun] at hgone
          · exact hgone
          · exact executeRecursiveCTEs_gone rest _ hgone
        intro heq
        have hlate := hgone'.2 t (by rw [heq,ht])
        have hearly := hclock d.name t ht
        omega
      · simp only [executeRecursiveCTEs,hrun]
        exact tables_ne_of_temp hclock htemp
end

/-- The statement finds the names of its CTEs free where it stores them, and nothing fails while
one of their tables is there. -/
def CTEStatement.Tidy (stmt : CTEStatement) (w : World C) : Prop :=
  if stmt.recursive then RecursiveAnswers ctx stmt.ctes w
  else
    (∃ d ∈ stmt.ctes.head?, CTERefused ctx d (.ofDefinitions stmt.ctes) w) ∨
      (∀ d ∈ stmt.ctes, w.tables d.name = none) ∧ CTEsAnswer ctx stmt.ctes (.ofDefinitions stmt.ctes) w

/-- WITH leaves every table as it was, and no new one, exactly when it is tidy. -/
theorem with_read_only (stmt : CTEStatement) (w : World C)
    (hclock : ∀ name t, w.tables name = some t → t.createdAt < w.now) :
    (executeCTEStatement ctx stmt w).2.tables = w.tables ↔ stmt.Tidy ctx w := by
  cases hrec : stmt.recursive with
  | false => simpa [CTEStatement.Tidy,hrec] using executeCTEStatement_plain_iff hrec hclock
  | true =>
    simp only [CTEStatement.Tidy,hrec,if_true]
    rw [← executeRecursiveCTEs_iff stmt.ctes (.ofDefinitions stmt.ctes) hclock]
    simp only [executeCTEStatement,hrec,if_true]
    rcases executeRecursiveCTEs ctx stmt.ctes (.ofDefinitions stmt.ctes) w with ⟨e | scope,w'⟩
    · rfl
    · simp only [executeBody_tables]

def readTables (tables : String → Option StoredTable) : ReadStatement → Except String Result
  | .select s =>
    let storage : Storage :=
      { Storage.ofTables [] with
        tableSchema := fun name => (tables name).map StoredTable.schema
        readCurrentRows := fun name => ((tables name).map StoredTable.rows).elim (.error "no such table") .ok }
    executeSelect { ev := plainEvaluator, storage := storage, dbName := "app" } s
  | .setOperation _ l r => do
    let left ← readTables tables l
    let right ← readTables tables r
    return { left with rows := left.rows++right.rows }

def plainCTEContext : CTEContext Unit where
  requireCurrentDB := .ok "app"
  nameError name := if name = "" then some "object name cannot be empty" else none
  tupleError _ := none
  runSubquery q tables session := (readTables tables q,session)
  invalidate _ session := session

def twoTables : World Unit where
  tables name :=
    if name = "a" then some ⟨textSchema "a" ["x"],[[.text "1"]],0⟩
    else if name = "b" then some ⟨textSchema "b" ["x"],[[.text "2"]],1⟩
    else none
  now := 2
  session := ()

theorem twoTables_clock (name : String) (t : StoredTable) (h : twoTables.tables name = some t) :
    t.createdAt < twoTables.now := by
  simp only [twoTables] at h ⊢
  split at h
  · cases h
    decide
  · split at h
    · cases h
      decide
    · cases h

def selectFrom (table : String) : ReadStatement := .select { tableName := table }

/-- `WITH a AS (SELECT * FROM b) SELECT * FROM a` drops the stored table a;
`WITH c AS (SELECT * FROM b), d AS (SELECT * FROM e) SELECT * FROM c` fails and leaves c behind. -/
theorem with_drops_stored_table :
    (executeCTEStatement plainCTEContext ⟨[⟨"a", [], selectFrom "b"⟩], selectFrom "a", false⟩ twoTables).1 =
        .ok ⟨["x"], [["2"]]⟩ ∧
      (twoTables.tables "a").isSome ∧
      ((executeCTEStatement plainCTEContext ⟨[⟨"a", [], selectFrom "b"⟩], selectFrom "a", false⟩ twoTables).2.tables
        "a").isNone ∧
      (twoTables.tables "c").isNone ∧
      ((executeCTEStatement plainCTEContext ⟨[⟨"c", [], selectFrom "b"⟩, ⟨"d", [], selectFrom "e"⟩], selectFrom "c",
        false⟩ twoTables).2.tables "c").isSome := by
  decide +kernel

/-- `WITH c AS (SELECT * FROM a) SELECT * FROM c`, with no stored table c. -/
theorem with_free_name_read_only :
    (executeCTEStatement plainCTEContext ⟨[⟨"c", [], selectFrom "a"⟩], selectFrom "c", false⟩ twoTables).2.tables =
      twoTables.tables := by
  refine (with_read_only plainCTEContext _ twoTables twoTables_clock).2 (.inr ⟨?_,?_⟩)
  · simp [twoTables]
  · exact ⟨_,_,_,rfl,rfl,fun _ _ => rfl,trivial⟩

end VaultDB.Sql
