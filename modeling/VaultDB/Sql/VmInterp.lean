import VaultDB.Sql.WhereParser
set_option autoImplicit false

/-!
Compiled clauses and the interpreter.

Each has its own arithmetic and comparisons; where these agree, the truth values are the same.
-/

namespace VaultDB.Sql
open Vm Floats Option

def Value.isInt : Value → Bool
  | .int _ => true
  | _ => false

def BinaryOp.arith : BinaryOp → Option ArithOp
  | .add => some .add
  | .sub => some .sub
  | .mul => some .mul
  | .div => some .div
  | _ => none

section
variable (fl : Float64)
-- `IsIntervalString` and `EvalDateInterval`.
variable (isInterval : String → Bool) (evalDateInterval : String → String → ArithOp → Except String Value)
/-- Integers too are computed as floats. -/
def evalNumeric (op : ArithOp) (l r : Value) (a b : fl.F) : Except String Value :=
  if op = .div ∧ fl.isZero b then .error "division by zero"
  else if l.isInt && r.isInt && op != .div then
    if fl.outOfRange (fl.arith op a b) then .error "value out of int64 range"
    else .ok (.int (fl.trunc (fl.arith op a b)))
  else .ok (.float (fl.print (fl.arith op a b)))

def evalDates (op : ArithOp) (l r : String) : Option (Except String Value) :=
  if op = .mul ∨ op = .div then none
  else if isInterval r then some (evalDateInterval l r op)
  else if isInterval l then some (evalDateInterval r l op)
  else none

def evalArithmetic (op : ArithOp) (l r : Value) : Except String Value :=
  if l = .null ∨ r = .null then .ok .null
  else
    match fl.toFloatFast l, fl.toFloatFast r with
    | some a, some b => evalNumeric fl op l r a b
    | _, _ =>
      match evalDates isInterval evalDateInterval op (valueToString l) (valueToString r) with
      | some res => res
      | none =>
        match fl.toFloat l, fl.toFloat r with
        | some a, some b => evalNumeric fl op l r a b
        | _, _ => .error ("arithmetic requires numeric operands, got "++l.goType++" and "++r.goType)

def evalOperator (other : BinaryOp → Value → Value → Except String Value) (op : BinaryOp)
    (l r : Value) : Except String Value :=
  match op.arith with
  | some o => evalArithmetic fl isInterval evalDateInterval o l r
  | none => other op l r
end

section
variable (fl : Float64) {e s : String}
inductive Same : Vm.Value fl.F → Value → Prop where
  | int (n : Int) : Same (.int n) (.int n)
  | float (x : fl.F) (r : String) : fl.parse r = some x → Same (.float x) (.float r)
  | string (s : String) : Same (.string s) (.text s)
  | bool (b : Bool) : Same (.bool b) (.bool b)
  | null : Same .null .null

def OtherNumber (s : String) (differs : fl.F → Bool) : Prop := ∃ y, fl.parse s = some y ∧ differs y = true

def Vm.isEquality : PruneOp → Prop
  | .eq | .ne => True
  | _ => False

def CompareAgrees (op : PruneOp) : Vm.Value fl.F → Vm.Value fl.F → Prop
  | .null, .null => ¬Vm.isEquality op
  | .null, _ => True
  | _, .null => True
  | .int _, .int _ => True
  | .string _, .string _ => True
  | .bool _, .bool _ => True
  | .float x, .float y => fl.isNaN x = false ∧ fl.isNaN y = false
  | .float x, .int _ => fl.isNaN x = false
  | .int _, .float y => fl.isNaN y = false
  | .string s, .int n => Vm.isEquality op → OtherNumber fl s fun y => !fl.eq y (fl.ofInt n)
  | .int n, .string s => Vm.isEquality op → OtherNumber fl s fun y => !fl.eq (fl.ofInt n) y
  | .string s, .float x => Vm.isEquality op → fl.isNaN x = false ∧ OtherNumber fl s fun y => !fl.eq y x
  | .float x, .string s => Vm.isEquality op → fl.isNaN x = false ∧ OtherNumber fl s fun y => !fl.eq x y
  | _, _ => ¬Vm.isEquality op

def ArithAgrees (op : ArithOp) : Vm.Value fl.F → Vm.Value fl.F → Prop
  | .int a, .int b =>
    if op = .div then b = 0
    else fl.outOfRange (fl.arith op (fl.ofInt a) (fl.ofInt b)) = false ∧
      arithInt op a b = .ok (fl.trunc (fl.arith op (fl.ofInt a) (fl.ofInt b)))
  | .float x, .float y => fl.isNaN x = false ∧ fl.isNaN y = false
  | .float x, .int _ => fl.isNaN x = false
  | .int _, .float y => fl.isNaN y = false
  | _, _ => True

def OperatorAgrees (op : BinaryOp) (a b : Vm.Value fl.F) : Prop :=
  match op.arith with
  | some o => ArithAgrees fl o a b
  | none =>
    match op.prune with
    | some o => CompareAgrees fl o a b
    | none => True

variable {fl} {x y : fl.F} {a b v : Vm.Value fl.F} {op : PruneOp}
theorem toFloatFast_float {r : String} (h : fl.parse r = some x) :
    fl.toFloatFast (.float r) = if fl.isNaN x then none else some x := by
  simp only [toFloatFast,h,filter_some]
  cases fl.isNaN x <;> rfl

theorem compareOther_error : (∀ c, compareOther op = .ok c → Except.error e = .ok c) ↔ ¬Vm.isEquality op := by
  cases op <;> simp [compareOther,isEquality]

theorem compareOther_ne : ∀ c, compareOther op = .ok c →
    (Except.ok (op.binary == .ne) : Except String Bool) = .ok c := by
  cases op <;> simp [compareOther,PruneOp.binary]

theorem compareOther_eq :
    (∀ c, compareOther op = .ok c → (Except.ok (op.binary == .eq) : Except String Bool) = .ok c) ↔
    ¬Vm.isEquality op := by
  cases op <;> simp [compareOther,PruneOp.binary,isEquality]

theorem compareOther_number :
    (∀ c, compareOther op = .ok c → (Except.ok (compareFloats fl.toFloats op.binary x y) :
      Except String Bool) = .ok c) ↔
      (Vm.isEquality op → (!fl.eq x y) = true) := by
  cases op <;> simp [compareOther,PruneOp.binary,isEquality,compareFloats,BinaryOp.holds]

theorem otherNumber_of_none (h : fl.parse s = none) (differs : fl.F → Bool) : ¬OtherNumber fl s differs := by
  simp [OtherNumber,h]

theorem otherNumber_of_some (h : fl.parse s = some y) (differs : fl.F → Bool) :
    OtherNumber fl s differs ↔ differs y = true := by
  simp [OtherNumber,h]

theorem compareOther_refused {P : Prop} (hP : ¬P) :
    (∀ c, compareOther op = .ok c → Except.error e = .ok c) ↔ (Vm.isEquality op → P) := by
  rw [compareOther_error]
  exact ⟨fun h heq => absurd heq h,fun h heq => hP (h heq)⟩

theorem compare_agrees_iff {a' b' : Value} (ha : Same fl a a') (hb : Same fl b b') :
    (∀ c, Vm.compare fl op a b = .ok c → compareValues fl.toFloats a' b' op.binary = .ok c) ↔
    CompareAgrees fl op a b := by
  cases ha with
  | null =>
    cases hb with
    | null => exact compareOther_eq
    | _ => exact iff_of_true compareOther_ne trivial
  | int m =>
    cases hb with
    | int n => simp [Vm.compare,compareValues,CompareAgrees]
    | null => exact iff_of_true compareOther_ne trivial
    | bool b => exact compareOther_error
    | string s =>
      simp only [Vm.compare,compareValues,CompareAgrees,compareMixed,toFloat,toFloatFast]
      cases hs : fl.parse s with
      | none => exact compareOther_refused (otherNumber_of_none hs _)
      | some y => simpa only [otherNumber_of_some hs] using compareOther_number
    | float y r hr =>
      simp only [Vm.compare,compareValues,CompareAgrees,compareMixed,toFloat,toFloatFast,hr,filter_some]
      cases fl.isNaN y <;> simp
  | float x r hr =>
    cases hb with
    | null => exact iff_of_true compareOther_ne trivial
    | int n =>
      simp only [Vm.compare,compareValues,CompareAgrees,compareMixed,toFloat,toFloatFast,hr,filter_some]
      cases fl.isNaN x <;> simp
    | float y q hq =>
      simp only [Vm.compare,compareValues,CompareAgrees,compareMixed,toFloat,toFloatFast,hr,hq,filter_some]
      cases fl.isNaN x <;> cases fl.isNaN y <;> simp
    | bool b =>
      simp only [Vm.compare,compareValues,CompareAgrees,compareMixed,toFloat,toFloatFast,hr,filter_some]
      cases fl.isNaN x <;> exact compareOther_error
    | string s =>
      simp only [Vm.compare,compareValues,CompareAgrees,compareMixed,toFloat,toFloatFast,hr,filter_some]
      cases fl.isNaN x with
      | false =>
        cases hs : fl.parse s with
        | none => exact compareOther_refused (by simp [otherNumber_of_none hs])
        | some y =>
          simp only [otherNumber_of_some hs,true_and]
          exact compareOther_number
      | true => exact compareOther_refused (by simp)
  | string s =>
    cases hb with
    | null => exact iff_of_true compareOther_ne trivial
    | string t => simp [Vm.compare,compareValues,CompareAgrees]
    | int n =>
      simp only [Vm.compare,compareValues,CompareAgrees,compareMixed,toFloat,toFloatFast]
      cases hs : fl.parse s with
      | none => exact compareOther_refused (otherNumber_of_none hs _)
      | some y => simpa only [otherNumber_of_some hs] using compareOther_number
    | bool b =>
      simp only [Vm.compare,compareValues,CompareAgrees,compareMixed,toFloat,toFloatFast]
      cases fl.parse s <;> exact compareOther_error
    | float y r hr =>
      simp only [Vm.compare,compareValues,CompareAgrees,compareMixed,toFloat,toFloatFast,hr,filter_some]
      cases fl.isNaN y with
      | false =>
        cases hs : fl.parse s with
        | none => exact compareOther_refused (by simp [otherNumber_of_none hs])
        | some y =>
          simp only [otherNumber_of_some hs,true_and]
          exact compareOther_number
      | true => cases fl.parse s <;> exact compareOther_refused (by simp)
  | bool b =>
    cases hb with
    | null => exact iff_of_true compareOther_ne trivial
    | bool c => cases op <;> simp [Vm.compare,compareValues,CompareAgrees,compareMixed,toFloat,toFloatFast,
        PruneOp.binary,compareOther]
    | _ => exact compareOther_error

def Float64.Prints (fl : Float64) : Prop := ∀ x, fl.parse (fl.print x) = some x

section
variable {isInterval : String → Bool} {evalDateInterval : String → String → ArithOp →
      Except String Value} {l r : Value}
theorem evalArithmetic_number {op : ArithOp} (hl : fl.toFloatFast l = some x)
    (hr : fl.toFloatFast r = some y) :
    evalArithmetic fl isInterval evalDateInterval op l r = evalNumeric fl op l r x y := by
  have hnl : l ≠ .null := by
    rintro rfl
    cases hl
  have hnr : r ≠ .null := by
    rintro rfl
    cases hr
  simp [evalArithmetic,hnl,hnr,hl,hr]

theorem evalNumeric_float (hprint : fl.Prints) {op : ArithOp}
    (hint : (l.isInt && r.isInt) = false) (hv : (arithFloat fl op x y).map .float = .ok v) :
    ∃ w, evalNumeric fl op l r x y = .ok w ∧ Same fl v w := by
  unfold arithFloat at hv
  split at hv
  · cases hv
  · next hz =>
    cases hv
    refine ⟨.float (fl.print (fl.arith op x y)),?_,.float _ _ (hprint _)⟩
    simp only [evalNumeric,if_neg hz,hint,Bool.false_and,Bool.false_eq_true,if_false]

theorem evalNumeric_int {op : ArithOp} {m n : Int} (h : ArithAgrees fl op (.int m) (.int n))
    (hv : (arithInt op m n).map .int = .ok v) :
    ∃ w, evalNumeric fl op (.int m) (.int n) (fl.ofInt m) (fl.ofInt n) = .ok w ∧ Same fl v w := by
  simp only [ArithAgrees] at h
  by_cases hop : op = .div
  · subst hop
    rw [if_pos rfl] at h
    subst h
    cases hv
  · rw [if_neg hop] at h
    rw [h.2] at hv
    cases hv
    refine ⟨.int (fl.trunc (fl.arith op (fl.ofInt m) (fl.ofInt n))),?_,.int _⟩
    have hne : (op != .div) = true := bne_iff_ne.2 hop
    simp [evalNumeric,hop,hne,h.1,Value.isInt]

theorem arith_agrees (hprint : fl.Prints) {op : ArithOp} {a' b' : Value}
    (ha : Same fl a a') (hb : Same fl b b') (h : ArithAgrees fl op a b) (hv : Vm.arith fl op a b = .ok v) :
    ∃ w, evalArithmetic fl isInterval evalDateInterval op a' b' = .ok w ∧ Same fl v w := by
  cases ha with
  | int m =>
    cases hb with
    | int n =>
      rw [evalArithmetic_number rfl rfl]
      exact evalNumeric_int h hv
    | float y r hr =>
      have hy : fl.isNaN y = false := h
      rw [evalArithmetic_number (x := fl.ofInt m) (y := y) rfl (by simp [toFloatFast_float hr,hy])]
      exact evalNumeric_float hprint rfl hv
    | _ => cases hv
  | float x r hr =>
    cases hb with
    | int n =>
      have hx : fl.isNaN x = false := h
      rw [evalArithmetic_number (x := x) (y := fl.ofInt n) (by simp [toFloatFast_float hr,hx]) rfl]
      exact evalNumeric_float hprint rfl hv
    | float y q hq =>
      have hxy : fl.isNaN x = false ∧ fl.isNaN y = false := h
      rw [evalArithmetic_number (x := x) (y := y) (by simp [toFloatFast_float hr,hxy.1])
        (by simp [toFloatFast_float hq,hxy.2])]
      exact evalNumeric_float hprint rfl hv
    | _ => cases hv
  | _ => cases hb <;> cases hv
end
end

section
variable (base : Evaluator) (fl : Float64) (isInterval : String → Bool)
  (evalDateInterval : String → String → ArithOp → Except String Value)
  (other : BinaryOp → Value → Value → Except String Value) (schema : TableSchema)
    (ci : Option ColumnIndex) (row : Row)
  {u : Value}
def interpret (e : Expr) : Except String Value :=
  base.evalTree fl.toFloats (evalOperator fl isInterval evalDateInterval other) e row schema ci

def interpreter : Evaluator := base.standard fl.toFloats (evalOperator fl isInterval evalDateInterval other)

/-- Every column is the same one for both, and every operator agrees on the operands the machine
gives it. -/
def Faithful : Expr → Prop
  | .columnRef table name =>
    ∀ v, ((schema.columns.findIdx? fun col => base.toLower col.name == base.toLower name).bind
      fun i => row[i]?) = some v →
      base.evalOperand (.columnRef table name) row schema ci = .ok v
  | .binary op l r => Faithful l ∧ Faithful r ∧ ∀ a b, eval (loadRow fl row) base.toLower schema l = .ok a →
      eval (loadRow fl row) base.toLower schema r = .ok b → OperatorAgrees fl op a b
  | .and l r | .or l r => Faithful l ∧ Faithful r
  | .not e => Faithful e
  | _ => True

variable {base fl isInterval evalDateInterval other schema ci row} {a b v : Vm.Value fl.F} {op : PruneOp}
theorem same_loadValue (h : loadValue fl u = .ok v) : Same fl v u := by
  cases u with
  | float r =>
    simp only [loadValue] at h
    split at h
    · next x hx =>
      cases h
      exact .float x r hx
    · cases h
  | object r => cases h
  | _ =>
    cases h
    constructor

theorem same_loadRow {i : Nat} (h : loadRow fl row i = .ok v) : ∃ w, row[i]? = some w ∧ Same fl v w := by
  unfold loadRow at h
  split at h
  · cases h
  · next w hi => exact ⟨w,hi,same_loadValue h⟩

theorem apply_binary (op : PruneOp) (a b : Vm.Value fl.F) : apply op.binary a b =
    (Vm.compare fl op a b).map .bool := by
  cases op <;> rfl

theorem evalBinary_binary (op : PruneOp) (l r : Value) : Evaluator.evalBinary fl.toFloats other op.binary l r =
    (compareValues fl.toFloats l r op.binary).map .bool := by
  simp only [Evaluator.evalBinary,op.isComparison_binary,if_true]

theorem operator_agrees (hprint : fl.Prints) {op : BinaryOp} {a' b' : Value}
    (ha : Same fl a a') (hb : Same fl b b') (h : OperatorAgrees fl op a b) (hv : apply op a b = .ok v) :
    ∃ w, Evaluator.evalBinary fl.toFloats (evalOperator fl isInterval evalDateInterval other) op a' b' = .ok w ∧
      Same fl v w := by
  cases hop : op.prune with
  | some o =>
    obtain rfl := BinaryOp.eq_binary_of_prune hop
    have hagree : CompareAgrees fl o a b := by cases o <;> exact h
    rw [apply_binary] at hv
    obtain ⟨c,hc,rfl⟩ := map_eq_ok hv
    refine ⟨.bool c,?_,.bool c⟩
    rw [evalBinary_binary,(compare_agrees_iff ha hb).2 hagree c hc]
    rfl
  | none =>
    cases op with
    | add => exact arith_agrees hprint ha hb h hv
    | sub => exact arith_agrees hprint ha hb h hv
    | mul => exact @arith_agrees fl a b v isInterval evalDateInterval hprint .mul a' b' ha hb h hv
    | div => exact @arith_agrees fl a b v isInterval evalDateInterval hprint .div a' b' ha hb h hv
    | _ => simp [apply,BinaryOp.prune] at hv hop

theorem same_literal {load : Nat → Except String (Vm.Value fl.F)}
    {toLower : String → String} (h : leaf load toLower schema (.value u) = .ok v) : Same fl v u := by
  cases u with
  | int n =>
    cases h
    exact .int n
  | text s =>
    cases h
    exact .string s
  | bool b =>
    cases h
    exact .bool b
  | float r =>
    simp only [leaf] at h
    split at h
    · next x hx =>
      cases h
      exact .float x r hx
    · cases h
  | null => cases h
  | object r => cases h

theorem same_logical {f : Bool → Bool → Bool} (h : logical fl f a b = .ok v) :
    ∃ x y, a = .bool x ∧ b = .bool y ∧ v = .bool (f x y) := by
  cases a <;> cases b <;> simp_all [logical,eq_comm]

theorem Same.eq_bool {b : Bool} {w : Value} (h : Same fl (.bool b) w) : w = .bool b := by
  cases h
  rfl

theorem same_interpret (hprint : fl.Prints) : ∀ {e : Expr} {v : Vm.Value fl.F},
    Faithful base fl schema ci row e → eval (loadRow fl row) base.toLower schema e = .ok v →
    ∃ w, interpret base fl isInterval evalDateInterval other schema ci row e = .ok w ∧ Same fl v w
  | .value u, v, hf, h => by
    simp only [eval] at h
    exact ⟨u,rfl,same_literal h⟩
  | .columnRef table name, v, hf, h => by
    simp only [eval,leaf] at h
    split at h
    · next i hi =>
      obtain ⟨w,hw,hsame⟩ := same_loadRow h
      simp only [Faithful,hi,bind_some] at hf
      exact ⟨w,by simpa only [interpret,Evaluator.evalTree] using hf w hw,hsame⟩
    · cases h
  | .binary op l r, v, hf, h => by
    simp only [eval] at h
    obtain ⟨a,ha,h⟩ := bind_eq_ok h
    obtain ⟨b,hb,h⟩ := bind_eq_ok h
    simp only [Faithful] at hf
    obtain ⟨a',ha',hsa⟩ := same_interpret hprint hf.1 ha
    obtain ⟨b',hb',hsb⟩ := same_interpret hprint hf.2.1 hb
    obtain ⟨w,hw,hsw⟩ := operator_agrees hprint hsa hsb (hf.2.2 a b ha hb) h
    refine ⟨w,?_,hsw⟩
    simp only [interpret] at ha' hb'
    simp only [interpret,Evaluator.evalTree,ha',hb',Except.bind]
    exact hw
  | .and l r, v, hf, h | .or l r, v, hf, h => by
    simp only [eval] at h
    obtain ⟨a,ha,h⟩ := bind_eq_ok h
    obtain ⟨b,hb,h⟩ := bind_eq_ok h
    obtain ⟨x,y,rfl,rfl,rfl⟩ := same_logical h
    simp only [Faithful] at hf
    obtain ⟨a',ha',hsa⟩ := same_interpret hprint hf.1 ha
    obtain ⟨b',hb',hsb⟩ := same_interpret hprint hf.2 hb
    rw [hsa.eq_bool] at ha'
    rw [hsb.eq_bool] at hb'
    simp only [interpret] at ha' hb'
    exact ⟨_,by simp only [interpret,Evaluator.evalTree,ha',hb',Except.bind,asBool,Except.map],.bool _⟩
  | .not e, v, hf, h => by
    simp only [eval] at h
    obtain ⟨a,ha,h⟩ := bind_eq_ok h
    simp only [Faithful] at hf
    obtain ⟨a',ha',hsa⟩ := same_interpret hprint hf ha
    cases a with
    | bool x =>
      cases h
      rw [hsa.eq_bool] at ha'
      simp only [interpret] at ha'
      exact ⟨_,by simp only [interpret,Evaluator.evalTree,ha',Except.bind,asBool,Except.map],.bool _⟩
    | _ => cases h
  | .inList _ _ _, v, hf, h | .between _ _ _ _, v, hf, h | .functionCall _ _, v, hf, h | .aggregate _ _ _, v, hf, h
  | .cast _ _, v, hf, h | .paramRef _, v, hf, h | .other _, v, hf, h => by
    simp [eval,leaf] at h

variable {e : Expr} {code : List (OpCode fl.F)}
theorem executeVM_eq_bool (hc : compileNode fl base.toLower schema e = .ok code) {b : Bool} :
    executeVM fl code row = .ok (.bool b) ↔ height (loadRow fl row) base.toLower schema e ≤ stackSize ∧
      eval (loadRow fl row) base.toLower schema e = .ok (.bool b) := by
  rw [executeVM,execute_compileNode hc,evalAt,Nat.add_zero]
  split
  · next h => cases eval (loadRow fl row) base.toLower schema e <;> simp [lift,h]
  · next h => simp [h]

theorem evalExpr_eq_ok {b : Bool} :
    (interpreter base fl isInterval evalDateInterval other).evalExpr (some e) row schema ci = .ok b ↔
      interpret base fl isInterval evalDateInterval other schema ci row e = .ok (.bool b) := by
  rw [interpreter,Evaluator.evalExpr_standard,interpret]
  cases hv : base.evalTree fl.toFloats (evalOperator fl isInterval evalDateInterval other) e row schema ci with
  | error m => simp [Except.bind]
  | ok v => cases v <;> simp [Except.bind,asBool]

variable (base fl isInterval evalDateInterval other schema ci row e code) in
def Agrees : Prop :=
  ∀ b, executeVM fl code row = .ok (.bool b) →
    (interpreter base fl isInterval evalDateInterval other).evalExpr (some e) row schema ci = .ok b

theorem agrees_of_faithful (hprint : fl.Prints)
    (hc : compileNode fl base.toLower schema e = .ok code) (hf : Faithful base fl schema ci row e) :
    Agrees base fl isInterval evalDateInterval other schema ci row e code := by
  intro b hb
  obtain ⟨w,hw,hsame⟩ := same_interpret hprint hf ((executeVM_eq_bool hc).1 hb).2
  rw [hsame.eq_bool] at hw
  exact evalExpr_eq_ok.2 hw

theorem compareAgrees_of_agrees (hprint : fl.Prints) {l r : Expr}
    (hc : compileNode fl base.toLower schema (.binary op.binary l r) = .ok code)
    (hl : Faithful base fl schema ci row l) (hr : Faithful base fl schema ci row r)
    (hh : height (loadRow fl row) base.toLower schema (.binary op.binary l r) ≤ stackSize)
    (h : Agrees base fl isInterval evalDateInterval other schema ci row (.binary op.binary l r) code)
    (ha : eval (loadRow fl row) base.toLower schema l = .ok a)
    (hb : eval (loadRow fl row) base.toLower schema r = .ok b) : CompareAgrees fl op a b := by
  obtain ⟨a',ha',hsa⟩ := @same_interpret base fl isInterval evalDateInterval other schema ci row hprint l a hl ha
  obtain ⟨b',hb',hsb⟩ := @same_interpret base fl isInterval evalDateInterval other schema ci row hprint r b hr hb
  rw [← compare_agrees_iff hsa hsb]
  intro c hcmp
  have hvm : eval (loadRow fl row) base.toLower schema (.binary op.binary l r) = .ok (.bool c) := by
    simp only [eval,ha,hb,Except.bind,apply_binary,hcmp,Except.map]
  have hint := evalExpr_eq_ok.1 (h c ((executeVM_eq_bool hc).2 ⟨hh,hvm⟩))
  simp only [interpret] at ha' hb'
  simp only [interpret,Evaluator.evalTree,ha',hb',Except.bind,evalBinary_binary] at hint
  obtain ⟨d,hd,hdc⟩ := map_eq_ok hint
  cases hdc
  exact hd

/-- Compiled and interpreted clauses agree where columns and operators do; for a comparison of
operands evaluated alike this is also necessary. -/
theorem compiled_agrees (hprint : ∀ x, fl.parse (fl.print x) = some x)
    (hc : compile fl base.toLower schema (some e) = .ok code) :
    (Faithful base fl schema ci row e → Agrees base fl isInterval evalDateInterval other schema ci row e code) ∧
    ∀ (op : PruneOp) (l r : Expr), e = .binary op.binary l r → Faithful base fl schema ci row l →
      Faithful base fl schema ci row r → height (loadRow fl row) base.toLower schema e ≤ stackSize →
      (Agrees base fl isInterval evalDateInterval other schema ci row e code ↔
        Faithful base fl schema ci row e) := by
  refine ⟨agrees_of_faithful hprint hc,?_⟩
  rintro op l r rfl hl hr hh
  refine ⟨fun h => ?_,agrees_of_faithful hprint hc⟩
  simp only [Faithful]
  refine ⟨hl,hr,fun a b ha hb => ?_⟩
  have hcmp := compareAgrees_of_agrees hprint hc hl hr hh h ha hb
  cases op <;> exact hcmp
end

def noOperator (_ : BinaryOp) (_ _ : Value) : Except String Value := .error "unsupported operator"
def noDates (_ _ : String) (_ : ArithOp) : Except String Value := .error "invalid date"

def bareInterpreter (fl : Float64) : Evaluator :=
  interpreter ⟨id,fun _ _ _ _ => .error "unsupported operand"⟩ fl (fun _ => false) noDates noOperator

def bothWays (fl : Float64) (e : Expr) (row : Row) : Option Bool × Except String Bool :=
  (match compile fl id threeColumns (some e) with
    | .ok code =>
      match executeVM fl code row with
      | .ok (.bool b) => some b
      | _ => none
    | .error _ => none,
    (bareInterpreter fl).evalExpr (some e) row threeColumns none)

def columnOp (op : BinaryOp) (a b : String) : Expr := .binary op (.columnRef "" a) (.columnRef "" b)

/-- Two NULLs, and a text that is no number beside a number. -/
theorem compiled_differs :
    bothWays Float64.whole (columnOp .eq "a" "b") [.null, .null, .null] = (some false, .ok true) ∧
    bothWays Float64.whole (columnOp .eq "a" "b") [.text "x", .int 1, .null] =
      (some false, .error "type mismatch in comparison: string = int64") := by
  decide +kernel

def Float64.single : Float64 where
  F := Unit
  ofInt _ := ()
  parse _ := some ()
  isNaN _ := false
  eq _ _ := true
  lt _ _ := false
  arith _ _ _ := ()
  isZero _ := false
  print _ := ""
  ofBits _ := ()
  trunc _ := 0
  isWhole _ := true
  outOfRange _ := false

theorem integers_agree :
    (bareInterpreter Float64.single).evalExpr (some (columnOp .lt "a" "b"))
    [.int 1, .int 2, .null] threeColumns none =
      .ok true := by
  have hc : compile Float64.single id threeColumns (some (columnOp .lt "a" "b")) =
      .ok [.loadColumn 0,.loadColumn 1,.compare .lt] := rfl
  refine (compiled_agrees (fun _ => rfl) hc).1 ?_ true rfl
  simp only [columnOp,Faithful]
  refine ⟨?_,?_,?_⟩
  · decide +kernel
  · decide +kernel
  · intro a b ha hb
    cases ha
    cases hb
    trivial

end VaultDB.Sql
