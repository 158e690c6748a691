import VaultDB.Sql.Eval
set_option autoImplicit false

/-!
CHECK constraints: the evaluator of a query and the one `evaluateCheckExpr` uses.

A query is evaluated with a context, which has the column index and finds user-defined functions; a
CHECK without one.
-/

namespace VaultDB.Sql
open Except

/-- What the evaluator takes from `ExecutionContext`; `userDefined` is a call in the current
database that succeeds. -/
structure QueryContext where
  columnIndex : Option ColumnIndex := none
  currentDatabase : String := ""
  userDefined : String → List Value → Option Value := fun _ _ => none

/-- The tables of built-in functions, the operators that are not comparisons, casts, and the other
nodes (CASE, JSON paths, subqueries).  Of the operators only SEMANTIC_MATCH looks at the context. -/
structure Builtins where
  toUpper : String → String
  builtin : String → Option (List Value → Option QueryContext → Except String Value)
  operator : Option QueryContext → BinaryOp → Value → Value → Except String Value
  cast : String → Value → Except String Value
  rest : Option QueryContext → Expr → Row → TableSchema → Except String Value
  operator_context : ∀ ctx op, op ≠ .semanticMatch → operator ctx op = operator none op

def Builtins.evalFunctionCall (B : Builtins) (ctx : Option QueryContext) (name : String) (args : List Value) :
    Except String Value :=
  match B.builtin (B.toUpper name) with
  | some f => f args ctx
  | none =>
    match ctx.bind fun c => if c.currentDatabase = "" then none else c.userDefined (B.toUpper name) args with
    | some v => .ok v
    | none => .error ("unknown function: "++B.toUpper name)

section
variable (ev : Evaluator) (fl : Floats) (B : Builtins) (ctx : Option QueryContext) (row : Row) (schema : TableSchema)
mutual

def evalNode : Expr → Except String Value
  | .value v => .ok v
  | .columnRef table name => ev.evalOperand (.columnRef table name) row schema (ctx.bind (·.columnIndex))
  | .binary op l r =>
    (evalNode l).bind fun a => (evalNode r).bind fun b => Evaluator.evalBinary fl (B.operator ctx) op a b
  | .and l r => ((evalNode l).bind asBool).bind fun a => ((evalNode r).bind asBool).map fun b => .bool (a && b)
  | .or l r => ((evalNode l).bind asBool).bind fun a => ((evalNode r).bind asBool).map fun b => .bool (a || b)
  | .not e => ((evalNode e).bind asBool).map fun a => .bool (!a)
  | .inList e es negated => (evalNode e).bind fun v => (evalIn v es).map fun found => .bool (found != negated)
  | .between e lower upper negated =>
    (evalNode e).bind fun v => (evalNode lower).bind fun a => (evalNode upper).bind fun b =>
      (compareValues fl v a .ge).bind fun p => (compareValues fl v b .le).map fun q => .bool ((p && q) != negated)
  | .functionCall name args => (evalArgs args).bind (B.evalFunctionCall ctx name)
  | .aggregate _ _ _ => .ok .null
  | .cast e targetType => (evalNode e).bind (B.cast targetType)
  | e => B.rest ctx e row schema

def evalIn (v : Value) : List Expr → Except String Bool
  | [] => .ok false
  | e :: es =>
    (evalNode e).bind fun w => (compareValues fl v w .eq).bind fun c => if c then .ok true else evalIn v es

def evalArgs : List Expr → Except String (List Value)
  | [] => .ok []
  | e :: es => (evalNode e).bind fun v => (evalArgs es).map (v :: ·)
end
end

section
variable (ev : Evaluator) (fl : Floats) (B : Builtins) (row : Row) (schema : TableSchema)
def compareAny (l r : Value) (op : BinaryOp) : Except String Bool :=
  if op.isComparison then compareValues fl l r op
  else
    match l, r with
    | .null, _ => .ok false
    | _, .null => .ok false
    | .int _, .int _ => .ok false
    | .text _, .text _ => .ok false
    | l, r => (compareMixed fl l r op).bind fun _ => .error ("unknown operator '"++op.text++"'")

/-- Here an element that cannot be compared is passed over. -/
def checkIn (v : Value) : List Expr → Except String Bool
  | [] => .ok false
  | e :: es =>
    (evalNode ev fl B none row schema e).bind fun w =>
      if holds (compareValues fl v w .eq) then .ok true else checkIn v es

def evalCheckExprAST : Expr → Except String Bool
  | .binary op l r =>
    (evalNode ev fl B none row schema l).bind fun a =>
      (evalNode ev fl B none row schema r).bind fun b => compareAny fl a b op
  | .and l r => (evalCheckExprAST l).bind fun a => (evalCheckExprAST r).map fun b => a && b
  | .or l r => (evalCheckExprAST l).bind fun a => (evalCheckExprAST r).map fun b => a || b
  | .not e => (evalCheckExprAST e).map fun a => !a
  | .inList e es negated =>
    (evalNode ev fl B none row schema e).bind fun v =>
      (checkIn ev fl B row schema v es).map fun found => found != negated
  | .between e lower upper negated => (evalNode ev fl B none row schema (.between e lower upper negated)).bind asBool
  | .functionCall name args => (evalNode ev fl B none row schema (.functionCall name args)).bind asBool
  | _ => .error "unsupported CHECK expression type"
end

mutual

/-- Nothing in the expression looks at the context: functions are built in and do without it. -/
def ContextFree (B : Builtins) : Expr → Prop
  | .value _ | .columnRef _ _ | .aggregate _ _ _ => True
  | .binary op l r => op ≠ .semanticMatch ∧ ContextFree B l ∧ ContextFree B r
  | .and l r | .or l r => ContextFree B l ∧ ContextFree B r
  | .not e | .cast e _ => ContextFree B e
  | .inList e es _ => ContextFree B e ∧ AllContextFree B es
  | .between e lower upper _ => ContextFree B e ∧ ContextFree B lower ∧ ContextFree B upper
  | .functionCall name args =>
    (∃ f, B.builtin (B.toUpper name) = some f ∧ ∀ args ctx, f args ctx = f args none) ∧ AllContextFree B args
  | _ => False

def AllContextFree (B : Builtins) : List Expr → Prop
  | [] => True
  | e :: es => ContextFree B e ∧ AllContextFree B es
end

/-- The column index of the query finds what the columns in order give. -/
def ResolvesAlike (ev : Evaluator) (ctx : Option QueryContext) (row : Row) (schema : TableSchema) : Prop :=
  ∀ table name, ev.evalOperand (.columnRef table name) row schema (ctx.bind (·.columnIndex)) =
    ev.evalOperand (.columnRef table name) row schema none

/-- The forms CHECK knows: comparisons, IN, BETWEEN and functions under AND, OR and NOT. -/
def Expr.Checkable : Expr → Prop
  | .binary op _ _ => op.isComparison = true
  | .and l r | .or l r => l.Checkable ∧ r.Checkable
  | .not e => e.Checkable
  | .inList _ _ _ | .between _ _ _ _ | .functionCall _ _ => True
  | _ => False

section
variable {ev : Evaluator} {fl : Floats} {B : Builtins} {ctx : Option QueryContext} {row : Row} {schema : TableSchema}
theorem bind_asBool_map {f : Bool → Bool} {x : Except String Bool} :
    (x.map fun a => Value.bool (f a)).bind asBool = x.map f := by cases x <;> rfl

mutual

theorem evalNode_contextFree (hci : ResolvesAlike ev ctx row schema) : ∀ {e : Expr}, ContextFree B e →
    evalNode ev fl B ctx row schema e = evalNode ev fl B none row schema e
  | .value _, _ => by simp only [evalNode]
  | .aggregate _ _ _, _ => by simp only [evalNode]
  | .columnRef table name, _ => by
    simp only [evalNode]
    exact hci table name
  | .binary op l r, h => by
    have hop : Evaluator.evalBinary fl (B.operator ctx) op = Evaluator.evalBinary fl (B.operator none) op := by
      funext a b
      cases op <;> simp only [Evaluator.evalBinary,B.operator_context ctx _ h.1]
    simp only [evalNode,evalNode_contextFree hci h.2.1,evalNode_contextFree hci h.2.2,hop]
  | .and l r, h => by simp only [evalNode,evalNode_contextFree hci h.1,evalNode_contextFree hci h.2]
  | .or l r, h => by simp only [evalNode,evalNode_contextFree hci h.1,evalNode_contextFree hci h.2]
  | .not e, h => by simp only [evalNode,evalNode_contextFree hci (e := e) h]
  | .cast e _, h => by simp only [evalNode,evalNode_contextFree hci (e := e) h]
  | .inList e es _, h => by simp only [evalNode,evalNode_contextFree hci h.1,evalIn_contextFree hci h.2]
  | .between e lower upper _, h => by
    simp only [evalNode,evalNode_contextFree hci h.1,evalNode_contextFree hci h.2.1,evalNode_contextFree hci h.2.2]
  | .functionCall name args, ⟨⟨f,hf,hpure⟩,hargs⟩ => by
    have hcall : B.evalFunctionCall ctx name = B.evalFunctionCall none name := by
      funext vs
      simp only [Builtins.evalFunctionCall,hf,hpure vs ctx]
    simp only [evalNode,evalArgs_contextFree hci hargs,hcall]
  | .paramRef _, h => h.elim
  | .other _, h => h.elim

theorem evalIn_contextFree {v : Value} (hci : ResolvesAlike ev ctx row schema) : ∀ {es : List Expr},
    AllContextFree B es → evalIn ev fl B ctx row schema v es = evalIn ev fl B none row schema v es
  | [], _ => rfl
  | e :: es, h => by simp only [evalIn,evalNode_contextFree hci h.1,evalIn_contextFree hci h.2]

theorem evalArgs_contextFree (hci : ResolvesAlike ev ctx row schema) : ∀ {es : List Expr}, AllContextFree B es →
    evalArgs ev fl B ctx row schema es = evalArgs ev fl B none row schema es
  | [], _ => rfl
  | e :: es, h => by simp only [evalArgs,evalNode_contextFree hci h.1,evalArgs_contextFree hci h.2]
end

theorem checkIn_of_evalIn {v : Value} {es : List Expr} {b : Bool} (h : evalIn ev fl B none row schema v es = .ok b) :
    checkIn ev fl B row schema v es = .ok b := by
  induction es with
  | nil => exact h
  | cons e es ih =>
    obtain ⟨w,hw,hrest⟩ := bind_eq_ok h
    obtain ⟨c,hc,hrest⟩ := bind_eq_ok hrest
    simp only [checkIn,hw,Except.bind,hc,holds]
    cases c with
    | true => exact hrest
    | false => exact ih hrest

theorem check_eq_evalNode {e : Expr} {b : Bool} (hc : e.Checkable)
    (h : (evalNode ev fl B none row schema e).bind asBool = .ok b) :
    evalCheckExprAST ev fl B row schema e = .ok b := by
  fun_induction evalCheckExprAST ev fl B row schema e generalizing b with
  | case1 op l r =>
    have hop : op.isComparison = true := hc
    obtain ⟨v,hv,hb⟩ := bind_eq_ok h
    obtain ⟨x,hx,hrest⟩ := bind_eq_ok hv
    obtain ⟨y,hy,hrest⟩ := bind_eq_ok hrest
    simp only [Evaluator.evalBinary,hop,if_true] at hrest
    obtain ⟨c,hcmp,rfl⟩ := map_eq_ok hrest
    cases hb
    simp only [hx,hy,Except.bind,compareAny,if_pos hop,hcmp]
  | case2 l r ihl ihr | case3 l r ihl ihr =>
    obtain ⟨v,hv,hb⟩ := bind_eq_ok h
    obtain ⟨x,hx,hrest⟩ := bind_eq_ok hv
    obtain ⟨y,hy,rfl⟩ := map_eq_ok hrest
    cases hb
    rw [ihl hc.1 hx,ihr hc.2 hy]
    rfl
  | case4 e ih =>
    rw [evalNode,bind_asBool_map] at h
    obtain ⟨x,hx,rfl⟩ := map_eq_ok h
    rw [ih hc hx]
    rfl
  | case5 e es negated =>
    obtain ⟨v,hv,hb⟩ := bind_eq_ok h
    obtain ⟨x,hx,hrest⟩ := bind_eq_ok hv
    obtain ⟨found,hfound,rfl⟩ := map_eq_ok hrest
    cases hb
    rw [hx,Except.bind,checkIn_of_evalIn hfound]
    rfl
  | case6 e lower upper negated => exact h
  | case7 name args => exact h
  | case8 e => cases e <;> first | exact hc.elim | grind

end

/-- ABS is built in; EVEN is a function of the user. -/
def fewBuiltins : Builtins where
  toUpper := id
  builtin name := if name = "ABS" then some fun args _ =>
    match args with
    | [.int n] => .ok (.int n.natAbs)
    | _ => .error "ABS() requires one number"
  else none
  operator _ _ _ _ := .error "unsupported operator"
  cast _ v := .ok v
  rest _ _ _ _ := .error "unsupported expression type"
  operator_context _ _ _ := rfl

def shopContext : QueryContext where
  currentDatabase := "shop"
  userDefined
    | "EVEN", [.int n] => some (.bool (n%2 == 0))
    | _, _ => none

def oneInt : TableSchema := { name := "t", columns := [{ name := "x" }] }
def columnEvaluator : Evaluator := ⟨id,fun _ _ _ _ => .error "unsupported operand"⟩

def inQuery (row : Row) (e : Expr) : Except String Bool :=
  (evalNode columnEvaluator Floats.whole fewBuiltins (some shopContext) row oneInt e).bind asBool

def inCheck (row : Row) (e : Expr) : Except String Bool :=
  evalCheckExprAST columnEvaluator Floats.whole fewBuiltins row oneInt e

end VaultDB.Sql
