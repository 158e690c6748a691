import VaultDB.Sql.VmInterp
set_option autoImplicit false

/-!
The WHERE clause of a scan, row by row and in chunks by several workers.

The workers write to places of their own and are joined in order.
-/

namespace VaultDB.Sql
open List Vm
section
variable {α : Type}
def chunksOf (size : Nat) : Nat → List α → List (List α)
  | 0, _ => []
  | fuel+1, rows => if rows = [] then [] else rows.take size :: chunksOf size fuel (rows.drop size)

def splitRows (numWorkers : Int) (rows : List α) : List (List α) :=
  chunksOf (max 1 (rows.length/(if numWorkers < 1 then 2 else numWorkers.toNat))) rows.length rows

theorem flatten_chunksOf {size fuel : Nat} {rows : List α} (hs : 0 < size) (hf : rows.length ≤ fuel) :
    (chunksOf size fuel rows).flatten = rows := by
  induction fuel generalizing rows with
  | zero => exact (length_eq_zero_iff.1 (Nat.le_zero.1 hf)).symm
  | succ fuel ih =>
    rw [chunksOf]
    split
    · rename_i hnil
      exact hnil.symm
    · rename_i hne
      have hpos := length_pos_iff.2 hne
      rw [flatten_cons,ih (by rw [length_drop]; omega),take_append_drop]
end

section
variable (ev : Evaluator) (fl : Float64) (schema : TableSchema) (ci : Option ColumnIndex) (e : Expr)
def ofFailure : Failure → Except String Bool → Except String Bool
  | .error _, r => r
  | .fault, _ => .error "index out of range"

/-- The serial loop asks the interpreter when the machine has no boolean. -/
def serialTest (row : Row) : Except String Bool :=
  match compile fl ev.toLower schema (some e) with
  | .error _ => ev.evalExpr (some e) row schema ci
  | .ok code =>
    match executeVM fl code row with
    | .ok (.bool b) => .ok b
    | .ok _ => ev.evalExpr (some e) row schema ci
    | .error f => ofFailure f (ev.evalExpr (some e) row schema ci)

/-- A worker passes over a row with an error. -/
def parallelTest (row : Row) : Except String Bool :=
  match compile fl ev.toLower schema (some e) with
  | .error _ => .ok (holds (ev.evalExpr (some e) row schema ci))
  | .ok code =>
    match code, executeVMBool fl code row with
    | [], _ => .ok (holds (ev.evalExpr (some e) row schema ci))
    | _, .ok b => .ok b
    | _, .error f => ofFailure f (.ok false)

/-- The machine has a boolean, or it has none and the interpreter refuses the row; without a program
the interpreter has a boolean. -/
def TestsAgree (row : Row) : Prop :=
  match compile fl ev.toLower schema (some e) with
  | .error _ => ∃ b, ev.evalExpr (some e) row schema ci = .ok b
  | .ok code => (∃ b, executeVM fl code row = .ok (.bool b)) ∨
      executeVM fl code row ≠ .error .fault ∧ ev.evalExpr (some e) row schema ci = .ok false

def serialFilter (rows : List Row) : Except String (List Row) := filterRows (serialTest ev fl schema ci e) rows

def parallelFilter (numWorkers : Int) (rows : List Row) : Except String (List Row) :=
  ((splitRows numWorkers rows).mapM (filterRows (parallelTest ev fl schema ci e))).map flatten
end

section
variable {ev : Evaluator} {fl : Float64} {schema : TableSchema} {ci : Option ColumnIndex} {e : Expr} {row : Row}
theorem filterRows_append {α : Type} {test : α → Except String Bool} (as bs : List α) :
    filterRows test (as++bs) = (filterRows test as).bind fun kept => (filterRows test bs).map (kept++·) := by
  induction as with
  | nil => cases h : filterRows test bs <;> simp [filterRows,h,Except.bind,Except.map]
  | cons a as ih =>
    simp only [cons_append,filterRows,ih]
    cases test a with
    | error m => rfl
    | ok b =>
      cases filterRows test as with
      | error m => rfl
      | ok kept => cases filterRows test bs <;> cases b <;> rfl

theorem mapM_filterRows {α : Type} {test : α → Except String Bool} {chunks : List (List α)} :
    (chunks.mapM (filterRows test)).map flatten = filterRows test chunks.flatten := by
  induction chunks with
  | nil => rfl
  | cons c cs ih =>
    rw [mapM_cons,flatten_cons,filterRows_append,← ih]
    cases filterRows test c with
    | error m => rfl
    | ok kept => cases cs.mapM (filterRows test) <;> rfl

theorem parallelFilter_eq (numWorkers : Int) (rows : List Row) :
    parallelFilter ev fl schema ci e numWorkers rows = filterRows (parallelTest ev fl schema ci e) rows := by
  have hflat : (splitRows numWorkers rows).flatten = rows := flatten_chunksOf (by omega) le_rfl
  rw [parallelFilter,mapM_filterRows,hflat]

theorem executeVMBool_compiled (row : Row) {code : List (OpCode fl.F)}
    (hc : compile fl ev.toLower schema (some e) = .ok code) :
    code ≠ [] ∧ executeVMBool fl code row = (executeVM fl code row).map Vm.Value.boolField := by
  have hrun := @run_compileNode fl (loadRow fl row) _ _ _ _ hc
  refine ⟨?_,?_⟩
  · rintro rfl
    cases hv : evalAt (loadRow fl row) ev.toLower schema 0 e <;> rw [hv] at hrun <;> cases hrun
  · exact (executeBool_compileNode hc).trans (congrArg _ (execute_compileNode hc).symm)

theorem tests_agree : (∃ b, serialTest ev fl schema ci e row = .ok b ∧ parallelTest ev fl schema ci e row = .ok b) ↔
    TestsAgree ev fl schema ci e row := by
  simp only [serialTest,parallelTest,TestsAgree]
  cases hc : compile fl ev.toLower schema (some e) with
  | error msg =>
    dsimp only
    cases ev.evalExpr (some e) row schema ci with
    | error m => simp
    | ok b => cases b <;> simp [holds]
  | ok code =>
    obtain ⟨hne,hbool⟩ := executeVMBool_compiled row hc
    cases code with
    | nil => exact absurd rfl hne
    | cons op code =>
      simp only [hbool]
      cases executeVM fl (op :: code) row with
      | error f => cases f <;> simp [Except.map,ofFailure,and_comm]
      | ok v => cases v <;> simp [Except.map,Vm.Value.boolField,and_comm]

/-- The compiled clause of a SELECT. -/
def vmCompile (fl : Float64) (toLower : String → String) (e : Expr) (schema : TableSchema) :
    Option (Row → VmAnswer) :=
  match compile fl toLower schema (some e) with
  | .error _ => none
  | .ok code => some fun row =>
    match executeVM fl code row with
    | .ok (.bool b) => .bool b
    | .error .fault => .panic
    | _ => .other

/-- The WHERE clause of a SELECT is tested by the loop, and by the workers, as here. -/
theorem whereTest_eq {ctx : Context} (hctx : ctx.compile = vmCompile fl ctx.ev.toLower) :
    whereTest ctx false (some e) row schema ci = serialTest ctx.ev fl schema ci e row ∧
      whereTest ctx true (some e) row schema ci = parallelTest ctx.ev fl schema ci e row := by
  simp only [whereTest,hctx,vmCompile,serialTest,parallelTest,Option.bind_some]
  cases hc : compile fl ctx.ev.toLower schema (some e) with
  | error msg => exact ⟨rfl,rfl⟩
  | ok code =>
    obtain ⟨hne,hbool⟩ := executeVMBool_compiled row hc
    cases code with
    | nil => exact absurd rfl hne
    | cons op code =>
      simp only [hbool]
      cases executeVM fl (op :: code) row with
      | error f => cases f <;> exact ⟨rfl,rfl⟩
      | ok v => cases v <;> exact ⟨rfl,rfl⟩

end

end VaultDB.Sql
