import VaultDB.Lib.Lru
import VaultDB.Sql.Eval
set_option autoImplicit false

/-!
The result cache of a session, its keys, and SELECT with the subqueries it runs.

A part of a key may hold the separator.  Joins, the expressions of GROUP BY and HAVING, DISTINCT ON
and qualifiers are no part of it.
-/

namespace VaultDB.Sql
section
/- `otherText` stands for the nodes only the evaluator knows: "WIN:" and the name of a window
function, else "E" and the type of the node. -/
variable (otherText : Nat → String)
def formatValueForCache : Value → String
  | .int n => toString n
  | .float r => r
  | .text s => s
  | .bool b => if b then "T" else "F"
  | .null | .object _ => "?"

mutual

def formatExpressionForCache : Expr → String
  | .binary op l r => formatExpressionForCache l++op.text++formatExpressionForCache r
  | .and l r => formatExpressionForCache l++"AND"++formatExpressionForCache r
  | .or l r => formatExpressionForCache l++"OR"++formatExpressionForCache r
  | .not e => "NOT"++formatExpressionForCache e
  | .columnRef _ name => name
  | .functionCall name args => name++"("++formatArgsForCache args++")"
  | .aggregate name args distinct => name++"("++(if distinct then "DISTINCT" else "")++formatArgsForCache args++")"
  | .value v => formatValueForCache v
  | .inList _ _ _ => "E*parser.InExpr"
  | .between _ _ _ _ => "E*parser.BetweenExpr"
  | .cast _ _ => "E*parser.CastExpr"
  | .paramRef _ => "E*parser.ParamRef"
  | .other id => otherText id

def formatArgsForCache : List Expr → String
  | [] => ""
  | [e] => formatExpressionForCache e
  | e :: es => formatExpressionForCache e++","++formatArgsForCache es
end

def formatSelectColumnForCache (col : SelectColumn) : String :=
  if col.asName ≠ "" then "A"++col.asName else formatExpressionForCache otherText col.expr

def resultCacheKey (s : SelectStatement) (dbName : String) : String :=
  dbName++":"++s.tableName++ String.join (s.columns.map fun col => ":"++formatSelectColumnForCache otherText col)++
    (match s.where_ with
      | some w => ":W:"++formatExpressionForCache otherText w
      | none => "")++
    (if s.groupBy.isEmpty then "" else ":GB")++
    (if s.having.isSome then ":H" else "")++
    (if s.orderBy.isEmpty then "" else ":O"++String.join (s.orderBy.map fun item =>
      formatExpressionForCache otherText item.expr++if item.desc then "DESC" else "ASC"))++
    (match s.limit with
      | some l => ":L"++toString l
      | none => "")++
    (match s.limitExpr with
      | some e => ":LE:"++formatExpressionForCache otherText e
      | none => "")++
    (match s.offset with
      | some o => ":OF"++toString o
      | none => "")++
    (match s.offsetExpr with
      | some e => ":OE:"++formatExpressionForCache otherText e
      | none => "")++
    (if s.distinct then ":D" else "")++
    (match s.asOf with
      | some (.version v) => ":ASOFv"++toString v
      | some (.timestamp ts) => ":ASOF:"++ts
      | none => "")
end

/-- Named columns of one table, and nothing else. -/
def plainSelect (table : String) (names : List String) : SelectStatement :=
  { columns := names.map fun n => ⟨.columnRef "" n,""⟩, tableName := table }

theorem resultCacheKey_plain (otherText : Nat → String) (db table : String) (names : List String) :
    (resultCacheKey otherText (plainSelect table names) db).toList++[':'] =
      ((db :: table :: names).map String.toList).flatMap (·++[':']) := by
  have hjoin : (names.map fun n => ":"++n).flatMap String.toList++[':'] =
      ':' :: (names.map String.toList).flatMap (·++[':']) := by
    induction names with
    | nil => rfl
    | cons n names ih => simp [ih]
  simp [resultCacheKey,plainSelect,formatSelectColumnForCache,formatExpressionForCache,Function.comp_def,hjoin]

/-- SELECTs of this form have different keys, unless a name has the separator in it. -/
theorem plainSelect_of_key {otherText : Nat → String} {db db' table table' : String} {names names' : List String}
    (hfree : ∀ n ∈ db :: table :: names, ':' ∉ n.toList) (hfree' : ∀ n ∈ db' :: table' :: names', ':' ∉ n.toList)
    (h : resultCacheKey otherText (plainSelect table names) db =
      resultCacheKey otherText (plainSelect table' names') db') :
    plainSelect table names = plainSelect table' names' := by
  have hlists := congrArg (fun key => key.toList++[':']) h
  simp only [resultCacheKey_plain] at hlists
  have heq := flatMap_separated_inj (by simpa using hfree) (by simpa using hfree') hlists
  have hnames : db :: table :: names = db' :: table' :: names' :=
    List.map_injective_iff.2 (fun _ _ h => String.toList_inj.1 h) heq
  cases hnames
  rfl

structure CachedResult where
  result : Result
  tables : List String

abbrev ResultCache := Lru String CachedResult

def ResultCache.invalidate (cache : ResultCache) (tableName : String) : ResultCache :=
  cache.drop fun e => e.2.tables.contains tableName

abbrev Answer := Except String Result

/-- A computation on a fixed database that runs SELECTs of its own, each with the computation of its
answer. -/
inductive Work : Type → Type 1 where
  | done {β : Type} (b : β) : Work β
  | ask {β : Type} (s : SelectStatement) (inner : Work Answer) (k : Answer → Work β) : Work β

section
variable (otherText : Nat → String) (ctx : Context)
def selectCommand (s : SelectStatement) (exec : ResultCache → Answer × ResultCache) (cache : ResultCache) :
    Answer × ResultCache :=
  if s.fastPath ctx || ctx.inTx then exec cache
  else
    match cache.get (resultCacheKey otherText s ctx.dbName) with
    | (some cached,cache) => (.ok cached.result,cache)
    | (none,cache) =>
      match exec cache with
      | (.ok result,cache) => (.ok result,cache.put (resultCacheKey otherText s ctx.dbName) ⟨result,[s.tableName]⟩)
      | (.error e,cache) => (.error e,cache)

namespace Work

def run : {β : Type} → Work β → ResultCache → β × ResultCache
  | _, .done b, cache => (b,cache)
  | _, .ask s inner k, cache =>
    let answered := selectCommand otherText ctx s inner.run cache
    (k answered.1).run answered.2

def value : {β : Type} → Work β → β
  | _, .done b => b
  | _, .ask _ inner k => (k inner.value).value

def asks : {β : Type} → Work β → List SelectStatement
  | _, .done _ => []
  | _, .ask s inner k => inner.asks++s :: (k inner.value).asks

def Honest : {β : Type} → Work β → Prop
  | _, .done _ => True
  | _, .ask s inner k => inner.value = executeSelect ctx s ∧ inner.Honest ∧ ∀ a, (k a).Honest

end Work

def consulted (s : SelectStatement) : Bool := !(s.fastPath ctx || ctx.inTx)

structure Asked where
  key : String
  table : String
  answer : Answer

def askedOf (s : SelectStatement) : Asked := ⟨resultCacheKey otherText s ctx.dbName,s.tableName,executeSelect ctx s⟩

def Grounded (F : Asked → Prop) (key : String) (cached : CachedResult) : Prop :=
  ∃ f, F f ∧ f.key = key ∧ cached.tables = [f.table] ∧ f.answer = .ok cached.result

variable {otherText ctx} {F : Asked → Prop}
theorem selectCommand_eq {s : SelectStatement} {exec : ResultCache → Answer × ResultCache} {cache : ResultCache}
    (hF : consulted ctx s = true → F (askedOf otherText ctx s) ∧
      ∀ f, F f → f.key = resultCacheKey otherText s ctx.dbName → f.answer = executeSelect ctx s)
    (hexec : ∀ cache : ResultCache, cache.All (Grounded F) →
      (exec cache).1 = executeSelect ctx s ∧ (exec cache).2.All (Grounded F)) (hc : cache.All (Grounded F)) :
    (selectCommand otherText ctx s exec cache).1 = executeSelect ctx s ∧
      (selectCommand otherText ctx s exec cache).2.All (Grounded F) := by
  unfold selectCommand
  by_cases hfast : (s.fastPath ctx || ctx.inTx) = true
  · rw [if_pos hfast]
    exact hexec cache hc
  · rw [if_neg hfast]
    obtain ⟨hself,hkeys⟩ := hF (by simpa [consulted] using hfast)
    have hget := hc.get (resultCacheKey otherText s ctx.dbName)
    have hfound := fun v => @Lru.All.found _ _ _ _ _ hc (resultCacheKey otherText s ctx.dbName) v
    generalize cache.get (resultCacheKey otherText s ctx.dbName) = found at hget hfound
    obtain ⟨hit,cache'⟩ := found
    cases hit with
    | some cached =>
      obtain ⟨f,hf,hkey,-,hans⟩ := hfound cached rfl
      exact ⟨hans.symm.trans (hkeys f hf hkey),hget⟩
    | none =>
      obtain ⟨hval,hall⟩ := hexec cache' hget
      simp only []
      generalize exec cache' = answered at hval hall
      obtain ⟨a,cache''⟩ := answered
      cases a with
      | error e => exact ⟨hval,hall⟩
      | ok r => exact ⟨hval,hall.put ⟨_,hself,rfl,rfl,hval.symm⟩⟩

theorem Work.run_eq : ∀ {β : Type} (w : Work β) {cache : ResultCache}, w.Honest ctx →
    (∀ s ∈ w.asks, consulted ctx s = true → F (askedOf otherText ctx s) ∧
      ∀ f, F f → f.key = resultCacheKey otherText s ctx.dbName → f.answer = executeSelect ctx s) →
    cache.All (Grounded F) → (w.run otherText ctx cache).1 = w.value ∧ (w.run otherText ctx cache).2.All (Grounded F)
  | _, .done _, _, _, _, hc => ⟨rfl,hc⟩
  | _, .ask s inner k, cache, hw, hF, hc => by
    obtain ⟨hinner,hhonest,hk⟩ := hw
    have hexec : ∀ cache : ResultCache, cache.All (Grounded F) →
        (inner.run otherText ctx cache).1 = executeSelect ctx s ∧
          (inner.run otherText ctx cache).2.All (Grounded F) := by
      intro cache hc
      have hrun := inner.run_eq hhonest (fun s' hs' => hF s' (by simp [Work.asks,hs'])) hc
      rwa [hinner] at hrun
    obtain ⟨hans,hall⟩ := selectCommand_eq (hF s (by simp [Work.asks])) hexec hc
    have hrest : ((k inner.value).run otherText ctx
      (selectCommand otherText ctx s (inner.run otherText ctx) cache).2).1 =
        (k inner.value).value ∧ _ :=
      (k inner.value).run_eq (hk _) (fun s' hs' => hF s' (by simp [Work.asks,hs'])) hall
    rw [Work.run,hans,← hinner]
    exact hrest
end
end VaultDB.Sql
