import VaultDB.Lib.Text
import Mathlib.Data.List.Basic
set_option autoImplicit false

/-!
Values, expressions and schemas as the SQL executor sees them.

Floats are given by their shortest decimal texts, vectors and JSON objects by their printed form.
Lower-casing and the value of every expression but a column are parameters: the executor looks
inside only for columns and aggregates.
-/

namespace VaultDB.Sql

inductive Value where
  | null
  | int (n : Int)
  | float (repr : String)
  | bool (b : Bool)
  | text (s : String)
  | object (repr : String)
  deriving DecidableEq, Repr

abbrev Row := List Value

def valueToString : Value → String
  | .null => ""
  | .int n => toString n
  | .float r => r
  | .bool b => if b then "true" else "false"
  | .text s => s
  | .object r => r

inductive BinaryOp where
  | eq | ne | lt | gt | le | ge
  | add | sub | mul | div
  | like | ilike | is | isNot
  | semanticMatch | ftsMatch | jsonContains | jsonContainedBy | jsonHasKey | concat
  deriving DecidableEq, Repr

/-- `other` stands for the nodes only the evaluator knows: window functions, subqueries and
the JSON operators. -/
inductive Expr where
  | value (v : Value)
  | columnRef (table name : String)
  | binary (op : BinaryOp) (left right : Expr)
  | and (left right : Expr)
  | or (left right : Expr)
  | not (e : Expr)
  | inList (e : Expr) (list : List Expr) (negated : Bool)
  | between (e lower upper : Expr) (negated : Bool)
  | functionCall (name : String) (args : List Expr)
  | aggregate (name : String) (args : List Expr) (distinct : Bool)
  | cast (e : Expr) (targetType : String)
  | paramRef (index : Nat)
  | other (id : Nat)

namespace Expr

mutual

def containsAggregate : Expr → Bool
  | .aggregate _ _ _ => true
  | .binary _ l r => l.containsAggregate || r.containsAggregate
  | .and l r => l.containsAggregate || r.containsAggregate
  | .or l r => l.containsAggregate || r.containsAggregate
  | .not e => e.containsAggregate
  | .functionCall _ args => anyAggregate args
  | _ => false

def anyAggregate : List Expr → Bool
  | [] => false
  | e :: es => e.containsAggregate || anyAggregate es
end
end Expr

structure ColumnSchema where
  name : String
  type : String := "TEXT"
  notNull : Bool := false
  unique : Bool := false
  primaryKey : Bool := false
  autoIncrement : Bool := false
  deriving DecidableEq, Repr

structure RLSPolicy where
  name : String
  usingExpr : Option (Except String Expr)

structure ForeignKey where
  name : String
  columns : List String
  refTable : String
  refCols : List String
  onDeleteCascade : Bool
  deriving DecidableEq, Repr

inductive PartitionType where
  | range | hash
  deriving DecidableEq, Repr

/-- No bound is MAXVALUE.  A bound given in SQL is the literal as the parser has it, which
prints as an object and not as its value. -/
structure PartitionDef where
  name : String
  bound : Option Value
  deriving DecidableEq, Repr

structure PartitionSpec where
  type : PartitionType
  columns : List String
  partitions : List PartitionDef := []
  numParts : Nat := 0
  deriving DecidableEq, Repr

structure TableSchema where
  name : String
  columns : List ColumnSchema
  foreignKeys : List ForeignKey := []
  rlsEnabled : Bool := false
  policies : List RLSPolicy := []
  partitions : Option PartitionSpec := none

/-- Lower-cased column names and their positions; the first entry found counts. -/
abbrev ColumnIndex := List (String × Nat)

def afterDot (s : String) : Option String :=
  match s.toList.dropWhile (· != '.') with
  | [] => none
  | _ :: rest => some (String.ofList rest)

def shortName (s : String) : Option String := (afterDot s).filter (· != "")

structure Evaluator where
  toLower : String → String
  node : Expr → Row → TableSchema → Option ColumnIndex → Except String Value

namespace Evaluator
variable (ev : Evaluator)
def equalFold (a b : String) : Bool := ev.toLower a == ev.toLower b

def buildColumnIndex (schema : TableSchema) : ColumnIndex :=
  (schema.columns.zipIdx.map fun c => (ev.toLower c.1.name,c.2)).reverse++
    schema.columns.zipIdx.filterMap fun c => (shortName (ev.toLower c.1.name)).map fun s => (s,c.2)

def scanColumns (row : Row) (name : String) : List (ColumnSchema × Nat) → Option Value
  | [] => none
  | (col,i) :: cols =>
    if (ev.equalFold col.name name || ((afterDot name).isNone && (shortName col.name).any fun s =>
      ev.equalFold s name)) &&
        i < row.length then row[i]?
    else scanColumns row name cols

def resolveColumn (row : Row) (schema : TableSchema) (name : String) (ci : Option ColumnIndex) :
    Except String Value :=
  match ci.bind fun idx => ((idx.lookup (ev.toLower name)).bind fun i => row[i]?) with
  | some v => .ok v
  | none =>
    match ev.scanColumns row name schema.columns.zipIdx with
    | some v => .ok v
    | none => .error ("unknown column '"++name++"'")

def evalOperand (e : Expr) (row : Row) (schema : TableSchema) (ci : Option ColumnIndex) : Except String Value :=
  match e with
  | .columnRef table name =>
    if table = "" then ev.resolveColumn row schema name ci
    else
      match ev.resolveColumn row schema (table++"."++name) ci with
      | .ok v => .ok v
      | .error _ => ev.resolveColumn row schema name ci
  | e => ev.node e row schema ci

def evalExpr (e : Option Expr) (row : Row) (schema : TableSchema) (ci : Option ColumnIndex) : Except String Bool :=
  match e with
  | none => .ok true
  | some e =>
    match ev.evalOperand e row schema ci with
    | .error err => .error err
    | .ok (.bool b) => .ok b
    | .ok _ => .error "expression must return boolean"

end Evaluator

variable {α : Type} {test : α → Except String Bool} {ε β : Type} {as kept : List α}
theorem map_eq_ok {x : Except ε α} {f : α → β} {b : β} (h : x.map f = .ok b) : ∃ a, x = .ok a ∧ f a = b := by
  cases x with
  | error e => cases h
  | ok a => exact ⟨a,rfl,by simpa [Except.map] using h⟩

theorem bind_eq_ok {x : Except ε α} {f : α → Except ε β} {b : β} (h : x.bind f = .ok b) : ∃ a, x =
    .ok a ∧ f a = .ok b := by
  cases x with
  | error e => cases h
  | ok a => exact ⟨a,rfl,h⟩

def filterRows {α : Type} (test : α → Except String Bool) : List α → Except String (List α)
  | [] => .ok []
  | a :: as =>
    match test a with
    | .error e => .error e
    | .ok b =>
      match filterRows test as with
      | .error e => .error e
      | .ok kept => .ok (if b then a :: kept else kept)

def holds (r : Except String Bool) : Bool :=
  match r with
  | .ok true => true
  | _ => false

theorem holds_iff {r : Except String Bool} : holds r = true ↔ r = .ok true := by
  cases r with
  | error e => simp [holds]
  | ok b => cases b <;> simp [holds]

theorem filterRows_eq_filter {as : List α}
    (h : ∀ a ∈ as, ∃ b, test a = .ok b) : filterRows test as = .ok (as.filter fun a => holds (test a)) := by
  induction as with
  | nil => rfl
  | cons a as ih =>
    obtain ⟨b,hb⟩ := h a List.mem_cons_self
    rw [filterRows,hb,ih fun x hx => h x (List.mem_cons_of_mem a hx)]
    cases b <;> simp [hb,holds]

theorem filterRows_ok (h : filterRows test as = .ok kept) : ∀ a ∈ as, ∃ b, test a = .ok b := by
  induction as generalizing kept with
  | nil => simp
  | cons x as ih =>
    simp only [filterRows] at h
    cases hx : test x with
    | error e => simp [hx] at h
    | ok b =>
      cases hf : filterRows test as with
      | error e => simp [hx,hf] at h
      | ok rest =>
        intro a ha
        rcases List.mem_cons.1 ha with rfl | ha
        · exact ⟨b,hx⟩
        · exact ih hf a ha

theorem mem_filterRows
    (h : filterRows test as = .ok kept) {a : α} : a ∈ kept ↔ a ∈ as ∧ test a = .ok true := by
  rw [filterRows_eq_filter (filterRows_ok h)] at h
  cases h
  rw [List.mem_filter,holds_iff]

end VaultDB.Sql
