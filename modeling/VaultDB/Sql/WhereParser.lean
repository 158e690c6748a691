import VaultDB.Sql.Vm
set_option autoImplicit false

/-!
The parser of the clauses the machine can run, after `parser/parse_utils.go`, and the stack they
need.

Columns, literals, arithmetic, comparisons, AND, OR, NOT and parentheses are parsed here.
`compileNode` takes nothing else, and where the parser meets anything else (a call, LIKE, IN,
BETWEEN, IS, CASE, CAST, a subquery) the model stops.
-/

namespace VaultDB.Sql
open List
variable {m d fuel : Nat} {e : Expr}
/-- `other` is the first token of a construct `compileNode` rejects; `stop` is one that ends the
clause. -/
inductive Token where
  | literal (v : Value)
  | ident (name : String)
  | dot | lparen | rparen
  | plus | minus | star | slash
  | compare (op : PruneOp)
  | and | or | not
  | other | stop
  deriving DecidableEq, Repr

inductive Level where
  | or | and | addition | multiplication
  deriving DecidableEq, Repr

def Level.node : Level → Token → Option (Expr → Expr → Expr)
  | .or, .or => some .or
  | .and, .and => some .and
  | .addition, .plus => some (.binary .add)
  | .addition, .minus => some (.binary .sub)
  | .multiplication, .star => some (.binary .mul)
  | .multiplication, .slash => some (.binary .div)
  | _, _ => none

inductive Goal where
  | level (lv : Level)
  | loop (lv : Level) (left : Expr)
  | not
  | comparison
  | primary

def Level.operand : Level → Goal
  | .or => .level .and
  | .and => .not
  | .addition => .level .multiplication
  | .multiplication => .primary

inductive ParseError where
  | outOfFuel
  | tooDeep (maxDepth : Nat)
  | expected (what : String)
  | notModelled
  deriving DecidableEq, Repr

def defaultMaxParserDepth : Nat := 32

/-- `depth` is that of `checkDepth`. -/
def parseGoal (maxDepth : Nat) : Nat → Goal → Nat → List Token → Except ParseError (Expr × List Token)
  | 0, _, _, _ => .error .outOfFuel
  | fuel+1, .level lv, depth, ts =>
    (parseGoal maxDepth fuel lv.operand depth ts).bind fun (left,ts) =>
      parseGoal maxDepth fuel (.loop lv left) depth ts
  | _+1, .loop _ left, _, [] => .ok (left,[])
  | fuel+1, .loop lv left, depth, t :: ts =>
    match lv.node t with
    | some f =>
      (parseGoal maxDepth fuel lv.operand depth ts).bind fun (right,ts) =>
        parseGoal maxDepth fuel (.loop lv (f left right)) depth ts
    | none => .ok (left,t :: ts)
  | fuel+1, .not, depth, .not :: ts => (parseGoal maxDepth fuel .not depth ts).bind fun (e,ts) => .ok (.not e,ts)
  | fuel+1, .not, depth, ts => parseGoal maxDepth fuel .comparison depth ts
  | fuel+1, .comparison, depth, ts =>
    (parseGoal maxDepth fuel (.level .addition) depth ts).bind fun (left,ts) =>
      match ts with
      | .compare op :: ts =>
        (parseGoal maxDepth fuel (.level .addition) depth ts).bind fun (right,ts) =>
          .ok (.binary op.binary left right,ts)
      | .other :: _ | .not :: .other :: _ => .error .notModelled
      | ts => .ok (left,ts)
  | fuel+1, .primary, depth, .lparen :: ts =>
    if maxDepth < depth+1 then .error (.tooDeep maxDepth)
    else
      (parseGoal maxDepth fuel (.level .or) (depth+1) ts).bind fun (e,ts) =>
        match ts with
        | .rparen :: ts => .ok (e,ts)
        | _ => .error (.expected "')'")
  | _+1, .primary, _, .literal v :: ts => .ok (.value v,ts)
  | _+1, .primary, _, .ident table :: .dot :: .ident name :: ts =>
    if ts.head? = some .other then .error .notModelled else .ok (.columnRef table name,ts)
  | _+1, .primary, _, .ident _ :: .dot :: _ => .error (.expected "column name after '.'")
  | _+1, .primary, _, .ident name :: ts =>
    if ts.head? = some .other || ts.head? = some .lparen then .error .notModelled else .ok (.columnRef "" name,ts)
  | _+1, .primary, _, .other :: _ => .error .notModelled
  | _+1, .primary, _, _ => .error (.expected "expression")

def parseExpression (maxDepth : Nat) (ts : List Token) : Except ParseError (Expr × List Token) :=
  parseGoal maxDepth (8*ts.length+8) (.level .or) 0 ts

open Vm
section
variable {fl : Float64} {toLower : String → String} {schema : TableSchema} {e : Expr} {code : List (OpCode fl.F)}
  {load : Nat → Except String (Vm.Value fl.F)}
theorem execute_fault_iff (h : compileNode fl toLower schema e = .ok code) :
    execute load code = .error .fault ↔ stackSize < height load toLower schema e := by
  rw [execute_compileNode h,evalAt_eq_fault,Nat.add_zero]

theorem executeBool_fault_iff (h : compileNode fl toLower schema e = .ok code) :
    executeBool load code = .error .fault ↔ stackSize < height load toLower schema e := by
  rw [executeBool_compileNode h,← Nat.add_zero (height load toLower schema e),← evalAt_eq_fault]
  cases evalAt load toLower schema 0 e <;> simp [Except.map]

/-- The machine stays within its stack exactly on the clauses that need at most eight values up to
their first error. -/
theorem within_stack_iff (text : List UInt8 → String) (h : compile fl toLower schema (some e) = .ok code) (row : Row)
    (raw : List UInt8) :
    (executeVM fl code row ≠ .error .fault ↔ height (loadRow fl row) toLower schema e ≤ stackSize) ∧
    (executeVMBool fl code row ≠ .error .fault ↔ height (loadRow fl row) toLower schema e ≤ stackSize) ∧
    (executeVMRaw fl text code raw ≠ .error .fault ↔ height (loadRaw fl text raw) toLower schema e ≤ stackSize) := by
  simp only [ne_eq,executeVM,executeVMBool,executeVMRaw,execute_fault_iff h,executeBool_fault_iff h,Nat.not_lt,
    and_self]
end

def Float64.whole : Float64 where
  toFloats := Floats.whole
  arith op (a b : Int) :=
    match op with
    | .add => a+b
    | .sub => a-b
    | .mul => a*b
    | .div => a.tdiv b
  isZero (a : Int) := a == 0
  print (a : Int) := toString a
  ofBits n := (n : Int)
  trunc a := a
  isWhole _ := true
  outOfRange _ := false

def threeColumns : TableSchema := ⟨"t",[{ name := "a" },{ name := "b" },{ name := "c" }],[],false,[],none⟩
def comparedWith (name : String) (n : Int) : List Token := [.ident name,.compare .eq,.literal (.int n)]

def nestedClause (inner : List Token) : List Token :=
  comparedWith "a" 1++.or :: comparedWith "b" 2++.and :: comparedWith "c" 3++
    [.plus,.literal (.int 4),.star,.lparen,.literal (.int 5),.plus,.literal (.int 6),.star]++inner++[.rparen]

def sevenPlusEight : List Token := [.lparen,.literal (.int 7),.plus,.literal (.int 8),.rparen]

def runClause (ts : List Token) (row : Row) : Option (Except Failure (Vm.Value Int)) :=
  match parseExpression defaultMaxParserDepth ts with
  | .ok (e,[]) =>
    match compile Float64.whole id threeColumns (some e) with
    | .ok code => some (executeVM Float64.whole code row)
    | .error _ => none
  | _ => none

/-- Two pairs of parentheses are enough for a ninth value. -/
theorem nested_clause_faults :
    runClause (nestedClause sevenPlusEight) [.int 1, .int 2, .int 3] = some (.error .fault) := by
  decide +kernel

def flatClause : Expr :=
  .binary .eq (.columnRef "" "c") (.binary .add (.value (.int 3)) (.binary .mul (.value (.int 4))
    (.binary .add (.value (.int 5)) (.value (.int 6)))))

def flatCode : List (OpCode Int) :=
  [.loadColumn 2,.pushInt 3,.pushInt 4,.pushInt 5,.pushInt 6,.arith .add,.arith .mul,.arith .add,.compare .eq]

theorem flat_clause_within_stack :
    executeVM Float64.whole flatCode [.int 1, .int 2, .int 47] ≠ .error .fault := by
  have hc : compile Float64.whole id threeColumns (some flatClause) = .ok flatCode := rfl
  exact ((within_stack_iff (fun _ => "") hc [.int 1,.int 2,.int 47] []).1).2 (by decide +kernel)

end VaultDB.Sql
