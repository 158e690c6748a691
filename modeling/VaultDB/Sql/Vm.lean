import VaultDB.Lib.Bytes
import VaultDB.Sql.Eval
set_option autoImplicit false

/-!
The machine WHERE clauses are compiled for, after `eval/vm`.

`ExecuteVM`, `ExecuteVMBool` and `ExecuteVMRaw` load columns and return differently.
-/

namespace VaultDB.Sql
open Lib List Option

inductive ArithOp where
  | add | sub | mul | div
  deriving DecidableEq, Repr

structure Float64 extends Floats where
  arith : ArithOp → F → F → F
  isZero : F → Bool
  print : F → String
  ofBits : Nat → F
  trunc : F → Int
  isWhole : F → Bool
  outOfRange : F → Bool

namespace Vm

inductive Value (F : Type) where
  | int (n : Int)
  | float (x : F)
  | string (s : String)
  | bool (b : Bool)
  | null
  deriving DecidableEq, Repr

inductive OpCode (F : Type) where
  | pushInt (n : Int)
  | pushFloat (x : F)
  | pushString (s : String)
  | pushBool (b : Bool)
  | loadColumn (i : Nat)
  | arith (op : ArithOp)
  | compare (op : PruneOp)
  | and
  | or
  | not
  | ret
  deriving DecidableEq, Repr

inductive Failure where
  | error (msg : String)
  | fault
  deriving DecidableEq, Repr

def stackSize : Nat := 8

def Value.boolField {F : Type} : Value F → Bool
  | .bool b => b
  | _ => false

def wrap64 (n : Int) : Int := n.bmod (2^64)

def arithInt : ArithOp → Int → Int → Except String Int
  | .add, a, b => .ok (wrap64 (a+b))
  | .sub, a, b => .ok (wrap64 (a-b))
  | .mul, a, b => .ok (wrap64 (a*b))
  | .div, a, b => if b = 0 then .error "division by zero" else .ok (wrap64 (a.tdiv b))

section
variable (fl : Float64)
def arithFloat (op : ArithOp) (a b : fl.F) : Except String fl.F :=
  if op = .div ∧ fl.isZero b then .error "division by zero" else .ok (fl.arith op a b)

def arith (op : ArithOp) : Value fl.F → Value fl.F → Except String (Value fl.F)
  | .int a, .int b => (arithInt op a b).map .int
  | .float a, .float b => (arithFloat fl op a b).map .float
  | .int a, .float b => (arithFloat fl op (fl.ofInt a) b).map .float
  | .float a, .int b => (arithFloat fl op a (fl.ofInt b)).map .float
  | _, _ => .error "type mismatch in arithmetic operation"

/-- Values of different types are different, and so are two NULLs. -/
def compareOther (op : PruneOp) : Except String Bool :=
  match op with
  | .eq => .ok false
  | .ne => .ok true
  | _ => .error "type mismatch in comparison"

def compare (op : PruneOp) : Value fl.F → Value fl.F → Except String Bool
  | .int a, .int b => .ok (op.binary.holds (a == b) (decide (a < b)) (decide (b < a)))
  | .float a, .float b => .ok (compareFloats fl.toFloats op.binary a b)
  | .int a, .float b => .ok (compareFloats fl.toFloats op.binary (fl.ofInt a) b)
  | .float a, .int b => .ok (compareFloats fl.toFloats op.binary a (fl.ofInt b))
  | .string a, .string b => .ok (op.binary.holds (a == b) (textLt a b) (textLt b a))
  | .bool a, .bool b =>
    match op with
    | .eq => .ok (a == b)
    | .ne => .ok (a != b)
    | op => compareOther op
  | _, _ => compareOther op

def logical (f : Bool → Bool → Bool) : Value fl.F → Value fl.F → Except String (Value fl.F)
  | .bool a, .bool b => .ok (.bool (f a b))
  | _, _ => .error "type mismatch in logical operation"

def negate : Value fl.F → Except String (Value fl.F)
  | .bool b => .ok (.bool (!b))
  | _ => .error "type mismatch in logical NOT"

section
variable {fl} (load : Nat → Except String (Value fl.F))
def push (v : Value fl.F) (stack : List (Value fl.F)) : Except Failure (List (Value fl.F)) :=
  if stack.length < stackSize then .ok (v :: stack) else .error .fault

def binaryStep (f : Value fl.F → Value fl.F → Except String (Value fl.F)) :
    List (Value fl.F) → Except Failure (List (Value fl.F))
  | right :: left :: stack =>
    match f left right with
    | .ok v => push v stack
    | .error e => .error (.error e)
  | _ => .error (.error "stack underflow")

def unaryStep (f : Value fl.F → Except String (Value fl.F)) : List (Value fl.F) → Except Failure (List (Value fl.F))
  | v :: stack =>
    match f v with
    | .ok v => push v stack
    | .error e => .error (.error e)
  | _ => .error (.error "stack underflow")

def step : OpCode fl.F → List (Value fl.F) → Except Failure (List (Value fl.F))
  | .pushInt n, stack => push (.int n) stack
  | .pushFloat x, stack => push (.float x) stack
  | .pushString s, stack => push (.string s) stack
  | .pushBool b, stack => push (.bool b) stack
  | .loadColumn i, stack =>
    match load i with
    | .ok v => push v stack
    | .error e => .error (.error e)
  | .arith op, stack => binaryStep (arith fl op) stack
  | .compare op, stack => binaryStep (fun a b => (compare fl op a b).map .bool) stack
  | .and, stack => binaryStep (logical fl (· && ·)) stack
  | .or, stack => binaryStep (logical fl (· || ·)) stack
  | .not, stack => unaryStep (negate fl) stack
  | .ret, stack => if stack.isEmpty then .error (.error "stack underflow") else .ok stack

def run : List (OpCode fl.F) → List (Value fl.F) → Except Failure (List (Value fl.F))
  | [], stack => .ok stack
  | .ret :: _, stack => step load .ret stack
  | op :: ops, stack => (step load op stack).bind (run ops)

def execute (code : List (OpCode fl.F)) : Except Failure (Value fl.F) :=
  (run load code []).map fun stack => stack.head?.getD .null

def executeBool (code : List (OpCode fl.F)) : Except Failure Bool :=
  (run load code []).map fun stack => (stack.head?.map Value.boolField).getD false
end

def loadValue : VaultDB.Sql.Value → Except String (Value fl.F)
  | .int n => .ok (.int n)
  | .float r =>
    match fl.parse r with
    | some x => .ok (.float x)
    | none => .error ("unsupported column type: "++(VaultDB.Sql.Value.float r).goType)
  | .text s => .ok (.string s)
  | .bool b => .ok (.bool b)
  | .null => .ok .null
  | .object r => .error ("unsupported column type: "++(VaultDB.Sql.Value.object r).goType)

def loadRow (row : Row) (i : Nat) : Except String (Value fl.F) :=
  match row[i]? with
  | none => .error "column index out of range"
  | some v => loadValue fl v

def executeVM (code : List (OpCode fl.F)) (row : Row) : Except Failure (Value fl.F) := execute (loadRow fl row) code
def executeVMBool (code : List (OpCode fl.F)) (row : Row) : Except Failure Bool := executeBool (loadRow fl row) code

section
-- The text of some bytes.
variable (text : List UInt8 → String)
def loadTagged : List UInt8 → Except String (Value fl.F)
  | [] => .ok .null
  | tag :: bytes =>
    if tag.toNat = 0 then .ok .null
    else if tag.toNat = 'i'.toNat then
      if bytes.length < 8 then .error "corrupted int value" else .ok (.int (wrap64 (ofBytes (bytes.take 8))))
    else if tag.toNat = 'f'.toNat then
      if bytes.length < 8 then .error "corrupted float value" else .ok (.float (fl.ofBits (ofBytes (bytes.take 8))))
    else if tag.toNat = 'b'.toNat then
      match bytes with
      | [] => .error "corrupted bool value"
      | b :: _ => .ok (.bool (b.toNat == 1))
    else if tag.toNat = 's'.toNat then
      match uint16At bytes 0 with
      | none => .error "corrupted string header"
      | some n =>
        if bytes.length < 2+n then .error "corrupted string bytes" else .ok (.string (text (slice bytes 2 (2+n))))
    else .error ("unsupported binary tag: "++(Char.ofNat tag.toNat).toString)

def loadRaw (raw : List UInt8) (i : Nat) : Except String (Value fl.F) :=
  match uint16At raw 16 with
  | none => .error "tuple too short"
  | some colCount =>
    if colCount ≤ i then .error "column index out of range"
    else
      match uint16At raw (18+2*i), if i+1 < colCount then uint16At raw (18+2*(i+1)) else some (raw.length%2^16) with
      | some valOffset, some nextOffset =>
        if raw.length < valOffset ∨ raw.length < nextOffset ∨ nextOffset < valOffset then
          .error "corrupted tuple column offsets"
        else loadTagged fl text (slice raw valOffset nextOffset)
      | _, _ => .error "tuple header truncated"

def executeVMRaw (code : List (OpCode fl.F)) (raw : List UInt8) : Except Failure Bool :=
  executeBool (loadRaw fl text raw) code
end

def ofBinary : BinaryOp → Option (OpCode fl.F)
  | .add => some (.arith .add)
  | .sub => some (.arith .sub)
  | .mul => some (.arith .mul)
  | .div => some (.arith .div)
  | op => op.prune.map .compare

def ofLiteral : VaultDB.Sql.Value → Option (OpCode fl.F)
  | .int n => some (.pushInt n)
  | .float r => (fl.parse r).map .pushFloat
  | .text s => some (.pushString s)
  | .bool b => some (.pushBool b)
  | _ => none

/-- Columns are looked up by their name alone. -/
def compileNode (toLower : String → String) (schema : TableSchema) : Expr → Except String (List (OpCode fl.F))
  | .value v =>
    match ofLiteral fl v with
    | some op => .ok [op]
    | none => .error "unsupported value type"
  | .columnRef _ name =>
    match schema.columns.findIdx? fun col => toLower col.name == toLower name with
    | some i => .ok [.loadColumn i]
    | none => .error "column not found"
  | .binary op l r =>
    (compileNode toLower schema l).bind fun cl => (compileNode toLower schema r).bind fun cr =>
      match ofBinary fl op with
      | some o => .ok (cl++(cr++[o]))
      | none => .error ("unsupported binary operator: "++op.text)
  | .and l r =>
    (compileNode toLower schema l).bind fun cl => (compileNode toLower schema r).bind fun cr =>
      .ok (cl++(cr++[.and]))
  | .or l r =>
    (compileNode toLower schema l).bind fun cl => (compileNode toLower schema r).bind fun cr => .ok (cl++(cr++[.or]))
  | .not e => (compileNode toLower schema e).bind fun c => .ok (c++[.not])
  | _ => .error "unsupported expression type for compilation"

def compile (toLower : String → String) (schema : TableSchema) : Option Expr → Except String (List (OpCode fl.F))
  | none => .ok [.pushBool true]
  | some e => compileNode fl toLower schema e
end

section
variable {fl : Float64} (load : Nat → Except String (Value fl.F)) (toLower : String → String) (schema : TableSchema)
  {e : Expr} {op : OpCode fl.F} {code : List (OpCode fl.F)} {l r : Expr} {n : Nat}
def apply (op : BinaryOp) (a b : Value fl.F) : Except String (Value fl.F) :=
  match op with
  | .add => arith fl .add a b
  | .sub => arith fl .sub a b
  | .mul => arith fl .mul a b
  | .div => arith fl .div a b
  | op =>
    match op.prune with
    | some o => (compare fl o a b).map .bool
    | none => .error ("unsupported binary operator: "++op.text)

def leaf : Expr → Except String (Value fl.F)
  | .value (.int n) => .ok (.int n)
  | .value (.float r) =>
    match fl.parse r with
    | some x => .ok (.float x)
    | none => .error "unsupported value type"
  | .value (.text s) => .ok (.string s)
  | .value (.bool b) => .ok (.bool b)
  | .columnRef _ name =>
    match schema.columns.findIdx? fun col => toLower col.name == toLower name with
    | some i => load i
    | none => .error "column not found"
  | _ => .error "unsupported expression type for compilation"

def eval : Expr → Except String (Value fl.F)
  | .binary op l r => (eval l).bind fun a => (eval r).bind fun b => apply op a b
  | .and l r => (eval l).bind fun a => (eval r).bind fun b => logical fl (· && ·) a b
  | .or l r => (eval l).bind fun a => (eval r).bind fun b => logical fl (· || ·) a b
  | .not e => (eval e).bind (negate fl)
  | e => leaf load toLower schema e

/-- The height the stack would reach, over its present one, up to the first error. -/
def height : Expr → Nat
  | .binary _ l r | .and l r | .or l r =>
    match eval load toLower schema l with
    | .ok _ => max (height l) (height r+1)
    | .error _ => height l
  | .not e => height e
  | e =>
    match leaf load toLower schema e with
    | .ok _ => 1
    | .error _ => 0

def lift {α : Type} : Except String α → Except Failure α
  | .ok a => .ok a
  | .error e => .error (.error e)

def evalAt (n : Nat) (e : Expr) : Except Failure (Value fl.F) :=
  if height load toLower schema e+n ≤ stackSize then lift (eval load toLower schema e) else .error .fault

def Computes (code : List (OpCode fl.F)) (e : Expr) : Prop :=
  ∀ (rest : List (OpCode fl.F)) (stack : List (Value fl.F)), stack.length ≤ stackSize → run load (code++rest) stack =
      (evalAt load toLower schema stack.length e).bind fun v => run load rest (v :: stack)

variable {load toLower schema}
theorem height_pos : ∀ {e : Expr} {v : Value fl.F}, eval load toLower schema e = .ok v → 1 ≤
    height load toLower schema e
  | .not e, v, h => by
    simp only [eval] at h
    cases he : eval load toLower schema e with
    | error m => simp [he,Except.bind] at h
    | ok a => simpa only [height] using height_pos he
  | .binary _ l r, v, h | .and l r, v, h | .or l r, v, h => by
    simp only [eval] at h
    cases hl : eval load toLower schema l with
    | error m => simp [hl,Except.bind] at h
    | ok a =>
      simp only [height,hl]
      omega
  | .value _, v, h | .columnRef _ _, v, h | .inList _ _ _, v, h | .between _ _ _ _, v, h | .functionCall _ _, v, h
  | .aggregate _ _ _, v, h | .cast _ _, v, h | .paramRef _, v, h | .other _, v, h => by
    simp only [eval] at h
    simp [height,h]

variable {f : Value fl.F → Value fl.F → Except String (Value fl.F)} {o : OpCode fl.F}
  {load' : Nat → Except String (Value fl.F)}
theorem evalAt_binary (heval : eval load toLower schema e =
      (eval load toLower schema l).bind fun a => (eval load toLower schema r).bind fun b => f a b)
    (hok : ∀ v, eval load toLower schema l = .ok v → height load toLower schema e =
      max (height load toLower schema l) (height load toLower schema r+1))
    (herr : ∀ m, eval load toLower schema l = .error m → height load toLower schema e = height load toLower schema l)
    (n : Nat) : evalAt load toLower schema n e = (evalAt load toLower schema n l).bind fun a =>
      (evalAt load toLower schema (n+1) r).bind fun b => lift (f a b) := by
  unfold evalAt
  rw [heval]
  cases hl : eval load toLower schema l with
  | error m =>
    rw [herr m hl]
    split <;> rfl
  | ok a =>
    rw [hok a hl]
    simp only [Except.bind,lift]
    by_cases hleft : height load toLower schema l+n ≤ stackSize
    · rw [if_pos hleft]
      by_cases hright : height load toLower schema r+(n+1) ≤ stackSize
      · rw [if_pos hright,if_pos (by omega)]
        cases eval load toLower schema r <;> rfl
      · rw [if_neg hright,if_neg (by omega)]
    · rw [if_neg hleft,if_neg (by omega)]

theorem evalAt_not (e : Expr) (n : Nat) :
    evalAt load toLower schema n (.not e) = (evalAt load toLower schema n e).bind fun a => lift (negate fl a) := by
  have hh : height load toLower schema (.not e) = height load toLower schema e := by simp only [height]
  unfold evalAt
  rw [hh,eval]
  by_cases h : height load toLower schema e+n ≤ stackSize
  · rw [if_pos h,if_pos h]
    cases eval load toLower schema e <;> rfl
  · rw [if_neg h,if_neg h]
    rfl

theorem evalAt_apply (op : BinaryOp) (l r : Expr) (n : Nat) :
    evalAt load toLower schema n (.binary op l r) = (evalAt load toLower schema n l).bind fun a =>
      (evalAt load toLower schema (n+1) r).bind fun b => lift (apply op a b) :=
  evalAt_binary (by simp only [eval]) (fun v h => by simp only [height,h]) (fun m h => by simp only [height,h]) n

theorem evalAt_and (l r : Expr) (n : Nat) :
    evalAt load toLower schema n (.and l r) = (evalAt load toLower schema n l).bind fun a =>
      (evalAt load toLower schema (n+1) r).bind fun b => lift (logical fl (· && ·) a b) :=
  evalAt_binary (by simp only [eval]) (fun v h => by simp only [height,h]) (fun m h => by simp only [height,h]) n

theorem evalAt_or (l r : Expr) (n : Nat) :
    evalAt load toLower schema n (.or l r) = (evalAt load toLower schema n l).bind fun a =>
      (evalAt load toLower schema (n+1) r).bind fun b => lift (logical fl (· || ·) a b) :=
  evalAt_binary (by simp only [eval]) (fun v h => by simp only [height,h]) (fun m h => by simp only [height,h]) n

theorem run_cons (hop : op ≠ .ret) (ops : List (OpCode fl.F)) (stack : List (Value fl.F)) :
    run load (op :: ops) stack = (step load op stack).bind (run load ops) := by
  cases op <;> first | rfl | exact absurd rfl hop

theorem evalAt_length {v : Value fl.F} (h : evalAt load toLower schema n e = .ok v) : n < stackSize := by
  unfold evalAt at h
  split at h
  · next hn =>
    cases he : eval load toLower schema e with
    | error m => simp [he,lift] at h
    | ok a =>
      have := height_pos he
      omega
  · cases h

theorem computes_leaf (hop : op ≠ .ret)
    (hstep : ∀ stack, step load op stack = (lift (leaf load toLower schema e)).bind fun v => push v stack)
    (heval : eval load toLower schema e = leaf load toLower schema e)
    (hheight : height load toLower schema e = if (leaf load toLower schema e).isOk then 1 else 0) :
    Computes load toLower schema [op] e := by
  intro rest stack hlen
  rw [singleton_append,run_cons hop,hstep,evalAt,heval,hheight]
  cases leaf load toLower schema e with
  | error m => simp [lift,Except.bind,Except.isOk,Except.toBool,hlen]
  | ok v =>
    by_cases h : stack.length < stackSize
    · simp [lift,Except.bind,Except.isOk,Except.toBool,push,h,show 1+stack.length ≤ stackSize by omega]
    · simp [lift,Except.bind,Except.isOk,Except.toBool,push,h,show ¬ 1+stack.length ≤ stackSize by omega]

theorem computes_binary {cl cr : List (OpCode fl.F)} (hl : Computes load toLower schema cl l)
    (hr : Computes load toLower schema cr r) (hop : op ≠ .ret)
    (hstep : ∀ stack, step load op stack = binaryStep f stack)
    (hevalAt : ∀ n, evalAt load toLower schema n e = (evalAt load toLower schema n l).bind fun a =>
      (evalAt load toLower schema (n+1) r).bind fun b => lift (f a b)) :
    Computes load toLower schema (cl++(cr++[op])) e := by
  intro rest stack hlen
  rw [append_assoc,hl _ _ hlen,hevalAt]
  cases ha : evalAt load toLower schema stack.length l with
  | error x => rfl
  | ok a =>
    have hlt := evalAt_length ha
    simp only [Except.bind]
    rw [append_assoc,hr _ _ (by rw [length_cons]; omega),length_cons]
    cases hb : evalAt load toLower schema (stack.length+1) r with
    | error x => rfl
    | ok b =>
      simp only [Except.bind,singleton_append]
      rw [run_cons hop,hstep]
      simp only [binaryStep]
      cases f a b with
      | error x => rfl
      | ok v => simp [push,hlt,lift,Except.bind]

theorem computes_not {c : List (OpCode fl.F)} (h : Computes load toLower schema c e) :
    Computes load toLower schema (c++[.not]) (.not e) := by
  intro rest stack hlen
  rw [append_assoc,h _ _ hlen,evalAt_not]
  cases ha : evalAt load toLower schema stack.length e with
  | error x => rfl
  | ok a =>
    have hlt := evalAt_length ha
    simp only [Except.bind,singleton_append]
    rw [run_cons (by simp)]
    simp only [step,unaryStep]
    cases negate fl a with
    | error x => rfl
    | ok v => simp [push,hlt,lift,Except.bind]

theorem step_ofBinary {op : BinaryOp} (h : ofBinary fl op = some o) :
    o ≠ .ret ∧ ∀ stack, step load o stack = binaryStep (apply op) stack := by
  cases op <;> simp [ofBinary,BinaryOp.prune] at h <;> subst h <;> exact ⟨by simp,fun stack => rfl⟩

theorem step_ofLiteral {v : VaultDB.Sql.Value} (h : ofLiteral fl v = some o) :
    o ≠ .ret ∧ ∃ w, leaf load toLower schema (.value v) = .ok w ∧ ∀ stack, step load o stack = push w stack := by
  cases v with
  | int n =>
    cases h
    exact ⟨by simp,_,rfl,fun _ => rfl⟩
  | text s =>
    cases h
    exact ⟨by simp,_,rfl,fun _ => rfl⟩
  | bool b =>
    cases h
    exact ⟨by simp,_,rfl,fun _ => rfl⟩
  | float r =>
    simp only [ofLiteral] at h
    obtain ⟨x,hx,rfl⟩ := map_eq_some_iff.1 h
    exact ⟨by simp,.float x,by simp [leaf,hx],fun _ => rfl⟩
  | null => simp [ofLiteral] at h
  | object r => simp [ofLiteral] at h

theorem compileNode_ok : ∀ {e : Expr} {code : List (OpCode fl.F)}, compileNode fl toLower schema e = .ok code →
    .ret ∉ code ∧ Computes load toLower schema code e
  | .value v, code, h => by
    simp only [compileNode] at h
    cases ho : ofLiteral fl v with
    | none => simp [ho] at h
    | some o =>
      obtain rfl : [o] = code := by simpa [ho] using h
      obtain ⟨hret,w,hw,hstep⟩ := @step_ofLiteral fl load toLower schema o v ho
      refine ⟨by simpa using hret.symm,computes_leaf hret ?_ (by simp only [eval]) ?_⟩
      · intro stack
        rw [hstep,hw]
        rfl
      · simp [height,hw,Except.isOk,Except.toBool]
  | .columnRef table name, code, h => by
    simp only [compileNode] at h
    cases hi : schema.columns.findIdx? fun col => toLower col.name == toLower name with
    | none => simp [hi] at h
    | some i =>
      obtain rfl : [OpCode.loadColumn i] = code := by simpa [hi] using h
      refine ⟨by simp,computes_leaf (by simp) ?_ (by simp only [eval]) ?_⟩
      · intro stack
        simp only [step,leaf,hi]
        cases load i <;> rfl
      · simp only [height,leaf,hi]
        cases load i <;> rfl
  | .binary op l r, code, h => by
    simp only [compileNode] at h
    obtain ⟨cl,hl,h⟩ := bind_eq_ok h
    obtain ⟨cr,hr,h⟩ := bind_eq_ok h
    have ihl := compileNode_ok hl
    have ihr := compileNode_ok hr
    cases ho : ofBinary fl op with
    | none => simp [ho] at h
    | some o =>
      obtain rfl : cl++(cr++[o]) = code := by simpa [ho] using h
      obtain ⟨hret,hstep⟩ := @step_ofBinary fl load o op ho
      exact ⟨by simp [ihl.1,ihr.1,hret.symm],computes_binary ihl.2 ihr.2 hret hstep (evalAt_apply op l r)⟩
  | .and l r, code, h => by
    simp only [compileNode] at h
    obtain ⟨cl,hl,h⟩ := bind_eq_ok h
    obtain ⟨cr,hr,h⟩ := bind_eq_ok h
    have ihl := compileNode_ok hl
    have ihr := compileNode_ok hr
    cases h
    exact ⟨by simp [ihl.1,ihr.1],computes_binary ihl.2 ihr.2 (by simp) (fun _ => rfl) (evalAt_and l r)⟩
  | .or l r, code, h => by
    simp only [compileNode] at h
    obtain ⟨cl,hl,h⟩ := bind_eq_ok h
    obtain ⟨cr,hr,h⟩ := bind_eq_ok h
    have ihl := compileNode_ok hl
    have ihr := compileNode_ok hr
    cases h
    exact ⟨by simp [ihl.1,ihr.1],computes_binary ihl.2 ihr.2 (by simp) (fun _ => rfl) (evalAt_or l r)⟩
  | .not e, code, h => by
    simp only [compileNode] at h
    obtain ⟨c,hc,h⟩ := bind_eq_ok h
    have ih := compileNode_ok hc
    cases h
    exact ⟨by simp [ih.1],computes_not ih.2⟩
  | .inList _ _ _, code, h | .between _ _ _ _, code, h | .functionCall _ _, code, h | .aggregate _ _ _, code, h
  | .cast _ _, code, h | .paramRef _, code, h | .other _, code, h => by
    simp [compileNode] at h

section
variable (h : compileNode fl toLower schema e = .ok code)
include h
theorem run_compileNode : run load code [] = (evalAt load toLower schema 0 e).map fun v => [v] := by
  have hrun := (@compileNode_ok fl load toLower schema e code h).2 [] [] (Nat.zero_le _)
  rw [append_nil] at hrun
  rw [hrun,length_nil]
  cases evalAt load toLower schema 0 e <;> rfl

theorem execute_compileNode : execute load code = evalAt load toLower schema 0 e := by
  rw [execute,run_compileNode h]
  cases evalAt load toLower schema 0 e <;> rfl

theorem executeBool_compileNode : executeBool load code = (evalAt load toLower schema 0 e).map Value.boolField := by
  rw [executeBool,run_compileNode h]
  cases evalAt load toLower schema 0 e <;> rfl
end

theorem evalAt_eq_fault : evalAt load toLower schema n e = .error .fault ↔ stackSize <
    height load toLower schema e+n := by
  unfold evalAt
  split
  · next h =>
    cases eval load toLower schema e <;> simp [lift] <;> omega
  · next h => simpa using h

theorem step_congr (h : ∀ i, op = .loadColumn i → load i = load' i) (stack : List (Value fl.F)) :
    step load op stack = step load' op stack := by
  cases op with
  | loadColumn i => simp only [step,h i rfl]
  | _ => rfl

theorem run_congr (h : ∀ i, .loadColumn i ∈ code → load i = load' i) (stack : List (Value fl.F)) :
    run load code stack = run load' code stack := by
  induction code generalizing stack with
  | nil => rfl
  | cons op code ih =>
    by_cases hop : op = .ret
    · subst hop
      rfl
    · rw [run_cons hop,run_cons hop,step_congr fun i hi => h i (by simp [hi])]
      congr 1
      funext stack
      exact ih (fun i hi => h i (mem_cons_of_mem _ hi)) stack

theorem load_of_run (hret : .ret ∉ code) {stack stack' : List (Value fl.F)}
    (h : run load code stack = .ok stack') {i : Nat} (hi : .loadColumn i ∈ code) : ∃ v, load i = .ok v := by
  induction code generalizing stack with
  | nil => simp at hi
  | cons op code ih =>
    rw [run_cons (by rintro rfl; simp at hret)] at h
    obtain ⟨mid,hop,h⟩ := bind_eq_ok h
    rcases mem_cons.1 hi with rfl | hi
    · cases hv : load i with
      | error e => simp [step,hv] at hop
      | ok v => exact ⟨v,rfl⟩
    · exact ih (fun hmem => hret (mem_cons_of_mem _ hmem)) h hi

theorem ret_not_mem (h : compileNode fl toLower schema e = .ok code) : .ret ∉ code :=
  (@compileNode_ok fl (fun _ => .error "") toLower schema e code h).1
end
end Vm
end VaultDB.Sql
