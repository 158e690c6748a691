import VaultDB.Sql.Select
set_option autoImplicit false

/-!
The operators WHERE and ON clauses are made of: comparisons after `CompareValues`, IS NULL, AND, OR
and NOT.

Arithmetic on floats and the other operators are parameters.
-/

namespace VaultDB.Sql

/-- `float64` as the comparisons use it; a stored float is given by its text. -/
structure Floats where
  F : Type
  ofInt : Int → F
  parse : String → Option F
  isNaN : F → Bool
  eq : F → F → Bool
  lt : F → F → Bool

namespace Floats
variable (fl : Floats)
def toFloatFast : Value → Option fl.F
  | .int n => some (fl.ofInt n)
  | .float r => (fl.parse r).filter fun x => !fl.isNaN x
  | _ => none

/-- As `toFloatFast`, and a text that reads as a number. -/
def toFloat : Value → Option fl.F
  | .text s => fl.parse s
  | v => fl.toFloatFast v

end Floats

namespace BinaryOp

def isComparison : BinaryOp → Bool
  | .eq | .ne | .lt | .gt | .le | .ge => true
  | _ => false

def text : BinaryOp → String
  | .eq => "="
  | .ne => "!="
  | .lt => "<"
  | .gt => ">"
  | .le => "<="
  | .ge => ">="
  | .add => "+"
  | .sub => "-"
  | .mul => "*"
  | .div => "/"
  | .like => "LIKE"
  | .ilike => "ILIKE"
  | .is => "IS"
  | .isNot => "IS NOT"
  | .semanticMatch => "SEMANTIC_MATCH"
  | .ftsMatch => "FTS_MATCH"
  | .jsonContains => "@>"
  | .jsonContainedBy => "<@"
  | .jsonHasKey => "?"
  | .concat => "||"

def holds (op : BinaryOp) (eq lt gt : Bool) : Bool :=
  match op with
  | .eq => eq
  | .ne => !eq
  | .lt => lt
  | .gt => gt
  | .le => lt || eq
  | .ge => gt || eq
  | _ => false

end BinaryOp

theorem PruneOp.isComparison_binary (op : PruneOp) : op.binary.isComparison = true := by cases op <;> rfl

def Value.goType : Value → String
  | .null => "<nil>"
  | .int _ => "int64"
  | .float _ => "float64"
  | .bool _ => "bool"
  | .text _ => "string"
  | .object _ => "object"

def typeMismatch (l r : Value) (op : BinaryOp) : String :=
  "type mismatch in comparison: "++l.goType++" "++op.text++" "++r.goType

section
variable (fl : Floats)
def compareFloats (op : BinaryOp) (a b : fl.F) : Bool := op.holds (fl.eq a b) (fl.lt a b) (fl.lt b a)

def compareMixed (l r : Value) (op : BinaryOp) : Except String Bool :=
  match fl.toFloatFast l, fl.toFloatFast r with
  | some a, some b => .ok (compareFloats fl op a b)
  | _, _ =>
    match fl.toFloat l with
    | some a =>
      match fl.toFloat r with
      | some b => .ok (compareFloats fl op a b)
      | none => .error (typeMismatch l r op)
    | none =>
      match l, r with
      | .bool a, .bool b =>
        match op with
        | .eq => .ok (a == b)
        | .ne => .ok (a != b)
        | _ => .error ("operator '"++op.text++"' is not supported for BOOL")
      | .bool _, _ => .error (typeMismatch l r op)
      | .text _, _ => .error (typeMismatch l r op)
      | _, _ => .error ("unsupported comparison type "++l.goType)

def compareValues (l r : Value) (op : BinaryOp) : Except String Bool :=
  match l, r with
  | .null, .null => .ok (op == .eq)
  | .null, _ => .ok (op == .ne)
  | _, .null => .ok (op == .ne)
  | .int a, .int b => .ok (op.holds (a == b) (decide (a < b)) (decide (b < a)))
  | .text a, .text b => .ok (op.holds (a == b) (textLt a b) (textLt b a))
  | l, r => compareMixed fl l r op
end

def asBool : Value → Except String Bool
  | .bool b => .ok b
  | _ => .error "expression must return boolean"

namespace Evaluator
variable (ev : Evaluator) (fl : Floats) (other : BinaryOp → Value → Value → Except String Value)
def evalBinary (op : BinaryOp) (l r : Value) : Except String Value :=
  if op.isComparison then (compareValues fl l r op).map .bool
  else
    match op with
    | .is => .ok (.bool (l == .null))
    | .isNot => .ok (.bool (l != .null))
    | op => other op l r

def evalTree : Expr → Row → TableSchema → Option ColumnIndex → Except String Value
  | .value v, _, _, _ => .ok v
  | .binary op l r, row, schema, ci =>
    (evalTree l row schema ci).bind fun a => (evalTree r row schema ci).bind fun b => evalBinary fl other op a b
  | .and l r, row, schema, ci =>
    ((evalTree l row schema ci).bind asBool).bind fun a =>
      ((evalTree r row schema ci).bind asBool).map fun b => .bool (a && b)
  | .or l r, row, schema, ci =>
    ((evalTree l row schema ci).bind asBool).bind fun a =>
      ((evalTree r row schema ci).bind asBool).map fun b => .bool (a || b)
  | .not e, row, schema, ci => ((evalTree e row schema ci).bind asBool).map fun a => .bool (!a)
  | e, row, schema, ci => ev.evalOperand e row schema ci

def standard : Evaluator := ⟨ev.toLower,ev.evalTree fl other⟩

theorem resolveColumn_standard (row : Row) (schema : TableSchema) (name : String) (ci : Option ColumnIndex) :
    (ev.standard fl other).resolveColumn row schema name ci = ev.resolveColumn row schema name ci := by
  have hscan : ∀ cols, (ev.standard fl other).scanColumns row name cols = ev.scanColumns row name cols := by
    intro cols
    induction cols with
    | nil => rfl
    | cons c cols ih => simp only [scanColumns,ih]; rfl
  simp only [resolveColumn,hscan]
  rfl

section
variable (e : Expr) (row : Row) (schema : TableSchema) (ci : Option ColumnIndex)
include e row schema ci
theorem evalOperand_standard : (ev.standard fl other).evalOperand e row schema ci =
    ev.evalTree fl other e row schema ci := by
  cases e with
  | columnRef table name => simp [evalOperand,evalTree,resolveColumn_standard]
  | _ => rfl

theorem evalExpr_standard :
    (ev.standard fl other).evalExpr (some e) row schema ci = (ev.evalTree fl other e row schema ci).bind asBool := by
  rw [evalExpr,evalOperand_standard]
  cases ev.evalTree fl other e row schema ci with
  | error err => rfl
  | ok v => cases v <;> rfl
end
end Evaluator

def Floats.whole : Floats := ⟨Int,id,fun _ => none,fun _ => false,(· == ·),fun a b => decide (a < b)⟩

def plainEvaluator : Evaluator :=
  Evaluator.standard ⟨id,fun _ _ _ _ => .error "unsupported operand"⟩ Floats.whole
    fun _ _ _ => .error "unsupported operator"

def Storage.ofTables (tables : List (TableSchema × List Row)) : Storage where
  tableSchema name := (tables.find? fun t => t.1.name == name).map Prod.fst
  readCurrentRows name :=
    match tables.find? fun t => t.1.name == name with
    | some t => .ok t.2
    | none => .error ("table '"++name++"' does not exist")
  readRowsAsOf _ _ := .ok []
  txIDAtTimestamp _ := .ok 0
  tryIndexLookup _ _ := none
  tryIndexOnlyScan _ _ _ := none
  readRowsByPositions _ _ := .ok []
  selectForUpdateVM _ _ _ := .ok []
  rowHistory _ _ := .ok []

end VaultDB.Sql
