import VaultDB.Sql.Eval
import VaultDB.Lib.Bag
set_option autoImplicit false

/-!
The two ways `executeJoins` joins two tables, and the order in which it takes the tables.

An equality of two columns is joined with a hash table over texts; any other condition is evaluated
pair by pair.
-/

namespace VaultDB.Sql
open Lib VaultDB.Sql.Joined List Option
section
variable (ctx : Context)
def tryHashJoin (cond : Expr) (leftSchema rightSchema : TableSchema) (left right : List Joined) :
    Option (List Joined) :=
  (extractEquiJoinCols cond leftSchema rightSchema).map fun cols => pairRows (hashMatch cols) left right

/-- The padding comes from the row pool as it is. -/
def tryHashJoinLeft (cond : Expr) (leftSchema rightSchema : TableSchema)
    (left right : List Joined) : Option (List Joined) :=
  (extractEquiJoinCols cond leftSchema rightSchema).map fun cols =>
    leftRows (hashMatch cols) (ctx.pooledRow rightSchema.columns.length) left right

def tryHashJoinRight (cond : Expr) (leftSchema rightSchema : TableSchema)
    (left right : List Joined) : Option (List Joined) :=
  (extractEquiJoinCols cond leftSchema rightSchema).map fun cols =>
    pairRows (hashMatch cols) left right++ unmatchedRight (hashMatch cols)
      (ctx.pooledRow leftSchema.columns.length) left right

def loopMatch (ci : Option ColumnIndex) (cond : Option Expr) (combined : TableSchema) (l r : Joined) : Bool :=
  (ctx.ev.evalExpr cond (l.append r).flat combined ci).toOption == some true

def rightRows (test : Joined → Joined → Bool) (pad : Row) (left right : List Joined) : List Joined :=
  right.flatMap fun r =>
    if left.any fun l => test l r then (left.filter fun l => test l r).map fun l => l.append r
    else [(Joined.padding pad).append r]

def nestedLoop (ci : Option ColumnIndex) (join : JoinClause) (leftSchema rightSchema : TableSchema)
    (left right : List Joined) : List Joined :=
  let loop := loopMatch ctx ci join.condition (joinSchema leftSchema rightSchema)
  match join.type with
  | .cross => pairRows (fun _ _ => true) left right
  | .inner => pairRows loop left right
  | .left => leftRows loop (nullRow rightSchema.columns.length) left right
  | .right => rightRows loop (nullRow leftSchema.columns.length) left right
  | .full =>
    leftRows loop (nullRow rightSchema.columns.length) left right++
      unmatchedRight loop (nullRow leftSchema.columns.length) left right
end

section
variable {test test' : Joined → Joined → Bool} {left right : List Joined} {t : Row → Row → Bool} {n : Nat}
  {pad pad' : Row}
def FlatTest (test : Joined → Joined → Bool) : Prop := ∃ t : Row → Row → Bool, ∀ l r, test l r = t l.flat r.flat

theorem flatTest_hashMatch (cols : Nat × Nat) : FlatTest (hashMatch cols) :=
  ⟨fun l r => hashMatch cols ⟨[],l⟩ ⟨[],r⟩,fun _ _ => rfl⟩

theorem flatTest_loopMatch (ctx : Context) (ci : Option ColumnIndex) (cond : Option Expr) (combined : TableSchema) :
    FlatTest (loopMatch ctx ci cond combined) :=
  ⟨fun l r => loopMatch ctx ci cond combined ⟨[],l⟩ ⟨[],r⟩,fun _ _ => rfl⟩

theorem flat_pairRows (ht : ∀ l r, test l r = t l.flat r.flat) (left right : List Joined) :
    (pairRows test left right).map flat = (left.map flat).flatMap fun l =>
    ((right.map flat).filter (t l)).map (l++·) := by
  rw [pairRows,map_flatMap,flatMap_map]
  refine flatMap_congr fun l _ => ?_
  have htest : test l = t l.flat ∘ flat := funext (ht l)
  rw [List.filter_map,← htest,List.map_map,List.map_map]
  rfl

theorem pairRows_perm_iff (h : FlatTest test) (h' : FlatTest test') (hw : ∀ l ∈ left, l.flat.length = n) :
    ((pairRows test left right).map flat).Perm ((pairRows test' left right).map flat) ↔
      ∀ l ∈ left, ∀ r ∈ right, test l r = test' l r := by
  obtain ⟨t,ht⟩ := h
  obtain ⟨t',ht'⟩ := h'
  have hkey : ∀ u : Row → Row → Bool, ∀ l ∈ left.map flat,
    ∀ y ∈ ((right.map flat).filter (u l)).map (l++·), y.take n = l := by
    intro u l hl y hy
    obtain ⟨j,hj,rfl⟩ := mem_map.1 hl
    obtain ⟨r,-,rfl⟩ := mem_map.1 hy
    exact take_left' (hw j hj)
  rw [flat_pairRows ht,flat_pairRows ht',perm_flatMap_iff (take n) (hkey t) (hkey t')]
  have hrow : ∀ l : Row, (((right.map flat).filter (t l)).map (l++·)).Perm
      (((right.map flat).filter (t' l)).map (l++·)) ↔ ∀ r ∈ right, t l r.flat = t' l r.flat := by
    intro l
    rw [map_perm_map_iff (append_right_injective l),filter_perm_iff]
    simp
  constructor
  · intro hp l hl r hr
    rw [ht,ht']
    exact (hrow l.flat).1 (hp l.flat (mem_map_of_mem hl)) r hr
  · intro hag l hl
    obtain ⟨j,hj,rfl⟩ := mem_map.1 hl
    refine (hrow j.flat).2 fun r hr => ?_
    rw [← ht,← ht']
    exact hag j hj r hr

theorem any_congr {α : Type} {xs : List α} {p q : α → Bool} (h : ∀ x ∈ xs, p x = q x) : xs.any p = xs.any q := by
  rw [Bool.eq_iff_iff,List.any_eq_true,List.any_eq_true]
  refine exists_congr fun x => and_congr_right fun hx => ?_
  rw [h x hx]

theorem leftRows_congr (pad : Row) (h : ∀ l ∈ left, ∀ r ∈ right, test l r = test' l r) :
    leftRows test pad left right = leftRows test' pad left right := by
  refine flatMap_congr fun l hl => ?_
  rw [any_congr (h l hl),filter_congr (h l hl)]

theorem rightRows_congr (pad : Row) (h : ∀ l ∈ left, ∀ r ∈ right, test l r = test' l r) :
    rightRows test pad left right = rightRows test' pad left right := by
  refine flatMap_congr fun r hr => ?_
  have hr' : ∀ l ∈ left, test l r = test' l r := fun l hl => h l hl r hr
  rw [any_congr hr',filter_congr hr']

theorem right_perm (test : Joined → Joined → Bool) (pad : Row) (left right : List Joined) :
    (pairRows test left right++unmatchedRight test pad left right).Perm (rightRows test pad left right) := by
  have hpairs : pairRows test left right = left.flatMap fun l => right.flatMap fun r =>
      if test l r then [l.append r] else [] := by
    refine flatMap_congr fun l _ => ?_
    rw [map_filter_eq_flatMap]
  have hrest : unmatchedRight test pad left right = right.flatMap fun r =>
      if !left.any fun l => test l r then [(padding pad).append r] else [] := map_filter_eq_flatMap _ _ _
  rw [hpairs,hrest]
  refine ((flatMap_swap left right _).append_right _).trans ((flatMap_append_perm right _ _).trans ?_)
  refine List.Perm.of_eq (flatMap_congr fun r _ => ?_)
  rw [map_filter_eq_flatMap]
  cases hany : left.any fun l => test l r with
  | true => simp
  | false =>
    have hnone : ∀ l ∈ left, test l r = false := by simpa using hany
    simpa using hnone

theorem flat_leftRows (ht : ∀ l r, test l r = t l.flat r.flat) (pad : Row)
    (left right : List Joined) : (leftRows test pad left right).map flat = (left.map flat).flatMap fun l =>
        if (right.map flat).any (t l) then ((right.map flat).filter (t l)).map (l++·)
        else [l++pad] := by
  rw [leftRows,map_flatMap,flatMap_map]
  refine flatMap_congr fun l _ => ?_
  have htest : test l = t l.flat ∘ flat := funext (ht l)
  rw [List.any_map,List.filter_map,← htest]
  split
  · rw [List.map_map,List.map_map]
    rfl
  · rfl

theorem flat_rightRows (ht : ∀ l r, test l r = t l.flat r.flat) (pad : Row)
    (left right : List Joined) : (rightRows test pad left right).map flat = (right.map flat).flatMap fun r =>
        if (left.map flat).any fun l => t l r then
          ((left.map flat).filter fun l => t l r).map (·++r)
        else [pad++r] := by
  rw [rightRows,map_flatMap,flatMap_map]
  refine flatMap_congr fun r _ => ?_
  have htest : (fun l => test l r) = (fun l => t l r.flat) ∘ flat := funext fun l => ht l r
  rw [List.any_map,List.filter_map,← htest]
  split
  · rw [List.map_map,List.map_map]
    rfl
  · rfl

theorem padded_perm_iff {xs : List Row} {c : Row → Bool} {m : Row → List Row} {e e' : Row → Row} (key : Row → Row)
    (hm : ∀ x ∈ xs, ∀ y ∈ m x, key y = x) (he : ∀ x ∈ xs, key (e x) = x) (he' : ∀ x ∈ xs, key (e' x) = x) :
    (xs.flatMap fun x => if c x then m x else [e x]).Perm (xs.flatMap fun x => if c x then m x else [e' x]) ↔
      ∀ x ∈ xs, c x = false → e x = e' x := by
  have hkey : ∀ {p : Row → Row}, (∀ x ∈ xs, key (p x) = x) → ∀ x ∈ xs,
    ∀ y ∈ (if c x then m x else [p x]), key y = x := by
    intro p hp x hx y hy
    split at hy
    · exact hm x hx y hy
    · rw [mem_singleton.1 hy]
      exact hp x hx
  rw [perm_flatMap_iff key (hkey he) (hkey he')]
  refine forall₂_congr fun x _ => ?_
  cases c x <;> simp

section
variable (h : FlatTest test) (hw : ∀ l ∈ left, l.flat.length = n)
include h hw
theorem leftRows_perm_iff : ((leftRows test pad left right).map flat).Perm
    ((leftRows test pad' left right).map flat) ↔
      ((∃ l ∈ left, ∀ r ∈ right, test l r = false) → pad = pad') := by
  obtain ⟨t,ht⟩ := h
  have htake : ∀ l ∈ left.map flat, ∀ p, (l++p).take n = l := by
    intro l hl p
    obtain ⟨j,hj,rfl⟩ := mem_map.1 hl
    exact take_left' (hw j hj)
  rw [flat_leftRows ht,flat_leftRows ht,padded_perm_iff (take n) _ (htake · · pad) (htake · · pad')]
  · simp [ht]
  · intro l hl y hy
    obtain ⟨r,-,rfl⟩ := mem_map.1 hy
    exact htake l hl r

theorem rightRows_perm_iff (hp : pad.length = n) (hp' : pad'.length = n) :
    ((rightRows test pad left right).map flat).Perm ((rightRows test pad' left right).map flat) ↔
      ((∃ r ∈ right, ∀ l ∈ left, test l r = false) → pad = pad') := by
  obtain ⟨t,ht⟩ := h
  rw [flat_rightRows ht,flat_rightRows ht,padded_perm_iff (drop n) _ (fun _ _ => drop_left' hp)
    fun _ _ => drop_left' hp']
  · simp [ht]
  · intro r _ y hy
    obtain ⟨l,hl,rfl⟩ := mem_map.1 hy
    obtain ⟨j,hj,rfl⟩ := mem_map.1 (mem_of_mem_filter hl)
    exact drop_left' (hw j hj)
end
end

section
variable (base : Evaluator) (fl : Floats) (other : BinaryOp → Value → Value → Except String Value)
def SameRows (hash : Option (List Joined)) (loops : List Joined) : Prop :=
  ∃ rows, hash = some rows ∧ (rows.map Joined.flat).Perm (loops.map Joined.flat)

theorem sameRows_some (rows loops : List Joined) : SameRows (some rows) loops ↔
    (rows.map flat).Perm (loops.map flat) := by
  simp [SameRows]

def ComparesEqual (ci : Option ColumnIndex) (lc rc : Expr) (combined : TableSchema) (l r : Row) : Prop :=
  ∃ a b, base.evalTree fl other lc (l++r) combined ci = .ok a ∧
    base.evalTree fl other rc (l++r) combined ci = .ok b ∧
    compareValues fl a b .eq = .ok true

def SameKey (cols : Nat × Nat) (l r : Row) : Prop :=
  r[cols.2]?.getD .null ≠ .null ∧ valueToString (r[cols.2]?.getD .null) = valueToString (l[cols.1]?.getD .null)

theorem hashMatch_iff (cols : Nat × Nat) (l r : Joined) : hashMatch cols l r = true ↔
    SameKey cols l.flat r.flat := by
  unfold hashMatch SameKey
  cases r.flat[cols.2]? with
  | none => simp
  | some v => cases v <;> simp

variable {base fl other}
theorem loopMatch_iff {ctx : Context} (hev : ctx.ev = base.standard fl other)
    (ci : Option ColumnIndex) (lc rc : Expr)
    (combined : TableSchema) (l r : Joined) : loopMatch ctx ci (some (.binary .eq lc rc)) combined l r = true ↔
      ComparesEqual base fl other ci lc rc combined l.flat r.flat := by
  rw [loopMatch,hev,Evaluator.evalExpr_standard]
  simp only [ComparesEqual,Evaluator.evalTree,append]
  cases base.evalTree fl other lc (l.flat++r.flat) combined ci with
  | error e => simp [Except.bind,Except.toOption]
  | ok a =>
    cases base.evalTree fl other rc (l.flat++r.flat) combined ci with
    | error e => simp [Except.bind,Except.toOption]
    | ok b =>
      cases hc : compareValues fl a b .eq with
      | error e => simp [Evaluator.evalBinary,BinaryOp.isComparison,Except.bind,Except.map,Except.toOption,hc]
      | ok c => cases c <;>
          simp [Evaluator.evalBinary,BinaryOp.isComparison,Except.bind,Except.map,Except.toOption,asBool,hc]

/-- The hash joins are the nested loops exactly where equal texts mean equal columns and the pool
gives NULLs to the rows without a partner. -/
theorem hash_joins_eq_nested_loops {ctx : Context} (hev : ctx.ev = base.standard fl other)
    (hpool : ∀ n, (ctx.pooledRow n).length = n) (ci : Option ColumnIndex) (table asName : String) {lc rc : Expr}
    {leftSchema rightSchema : TableSchema} {cols : Nat × Nat}
    (hcols : extractEquiJoinCols (.binary .eq lc rc) leftSchema rightSchema = some cols) {left right : List Joined}
    (hw : ∀ l ∈ left, l.flat.length = leftSchema.columns.length) :
    (SameRows (tryHashJoin (.binary .eq lc rc) leftSchema rightSchema left right)
        (nestedLoop ctx ci ⟨.inner, table, asName, some (.binary .eq lc rc)⟩ leftSchema rightSchema left right) ∧
      SameRows (tryHashJoinLeft ctx (.binary .eq lc rc) leftSchema rightSchema left right)
        (nestedLoop ctx ci ⟨.left, table, asName, some (.binary .eq lc rc)⟩ leftSchema rightSchema left right) ∧
      SameRows (tryHashJoinRight ctx (.binary .eq lc rc) leftSchema rightSchema left right)
        (nestedLoop ctx ci ⟨.right, table, asName, some (.binary .eq lc rc)⟩ leftSchema rightSchema left right)) ↔
    (∀ l ∈ left, ∀ r ∈ right, SameKey cols l.flat r.flat ↔
        ComparesEqual base fl other ci lc rc (joinSchema leftSchema rightSchema) l.flat r.flat) ∧
      ((∃ l ∈ left, ∀ r ∈ right, ¬SameKey cols l.flat r.flat) →
        ctx.pooledRow rightSchema.columns.length = nullRow rightSchema.columns.length) ∧
      ((∃ r ∈ right, ∀ l ∈ left, ¬SameKey cols l.flat r.flat) →
        ctx.pooledRow leftSchema.columns.length = nullRow leftSchema.columns.length) := by
  have hagree : (∀ l ∈ left, ∀ r ∈ right, SameKey cols l.flat r.flat ↔
      ComparesEqual base fl other ci lc rc (joinSchema leftSchema rightSchema) l.flat r.flat) ↔
      ∀ l ∈ left, ∀ r ∈ right, hashMatch cols l r =
        loopMatch ctx ci (some (.binary .eq lc rc)) (joinSchema leftSchema rightSchema) l r := by
    refine forall₂_congr fun l _ => forall₂_congr fun r _ => ?_
    rw [Bool.eq_iff_iff,hashMatch_iff,loopMatch_iff hev]
  have hnull : (nullRow leftSchema.columns.length).length = leftSchema.columns.length := by simp [nullRow]
  simp only [tryHashJoin,tryHashJoinLeft,tryHashJoinRight,hcols,map_some,sameRows_some]
  rw [hagree,nestedLoop,pairRows_perm_iff (flatTest_hashMatch cols) (flatTest_loopMatch ..) hw]
  refine and_congr_right fun heq => and_congr ?_ ?_
  · rw [nestedLoop,← leftRows_congr _ heq,leftRows_perm_iff (flatTest_hashMatch cols) hw]
    simp only [← hashMatch_iff,Bool.not_eq_true]
  · have hright := (right_perm (hashMatch cols) (ctx.pooledRow leftSchema.columns.length) left right).map flat
    rw [hright.congr_left,nestedLoop,← rightRows_congr _ heq,
      rightRows_perm_iff (flatTest_hashMatch cols) hw (hpool _) hnull]
    simp only [← hashMatch_iff,Bool.not_eq_true]

def employeesSchema (asName : String) : TableSchema :=
  ⟨asName,[{ name := "id" },{ name := "manager_id" }],[],false,[],none⟩
def employeesRows : List Joined := [[.int 1,.int 2],[.int 2,.null]].map (Joined.ofRow "employees")
def managedBy : Expr := .binary .eq (.columnRef "m" "id") (.columnRef "e" "manager_id")

def employeesContext : Context where
  ev := plainEvaluator
  storage := .ofTables []
  dbName := "app"

/-- `employees e JOIN employees m ON m.id = e.manager_id`: both tables have both columns, so the
hash join takes `id` from the left one. -/
theorem self_join_swaps_sides : ¬SameRows
    (tryHashJoin managedBy (employeesSchema "e") (employeesSchema "m") employeesRows employeesRows)
    (nestedLoop employeesContext none ⟨.inner, "employees", "m", some managedBy⟩ (employeesSchema "e")
      (employeesSchema "m") employeesRows employeesRows) := by
  have hash : (tryHashJoin managedBy (employeesSchema "e") (employeesSchema "m") employeesRows employeesRows).map
      (map flat) = some [[.int 2,.null,.int 1,.int 2]] := by decide +kernel
  have loops : (nestedLoop employeesContext none ⟨.inner,"employees","m",some managedBy⟩ (employeesSchema "e")
      (employeesSchema "m") employeesRows employeesRows).map flat = [[.int 1,.int 2,.int 2,.null]] := by
    decide +kernel
  rintro ⟨rows,hrows,hperm⟩
  rw [hrows,map_some,some_inj] at hash
  rw [hash,loops] at hperm
  exact absurd (hperm.mem_iff.1 mem_cons_self) (by decide)

def managerOf : Expr := .binary .eq (.columnRef "e" "manager_id") (.columnRef "m" "id")

theorem managers_joined_alike :
    SameRows (tryHashJoin managerOf (employeesSchema "e") (employeesSchema "m") employeesRows employeesRows)
      (nestedLoop employeesContext none ⟨.inner, "employees", "m", some managerOf⟩ (employeesSchema "e")
        (employeesSchema "m") employeesRows employeesRows) ∧
    SameRows (tryHashJoinLeft employeesContext managerOf (employeesSchema "e") (employeesSchema "m") employeesRows
        employeesRows)
      (nestedLoop employeesContext none ⟨.left, "employees", "m", some managerOf⟩ (employeesSchema "e")
        (employeesSchema "m") employeesRows employeesRows) ∧
    SameRows (tryHashJoinRight employeesContext managerOf (employeesSchema "e") (employeesSchema "m") employeesRows
        employeesRows)
      (nestedLoop employeesContext none ⟨.right, "employees", "m", some managerOf⟩ (employeesSchema "e")
        (employeesSchema "m") employeesRows employeesRows) := by
  have hcols : extractEquiJoinCols managerOf (employeesSchema "e") (employeesSchema "m") = some (1,0) := by decide
  have hev : employeesContext.ev = plainEvaluator := rfl
  refine (hash_joins_eq_nested_loops hev (fun n => length_replicate) none "employees" "m"
    hcols (by decide)).2 ⟨?_,fun _ => rfl,fun _ => rfl⟩
  intro l hl r hr
  rw [← hashMatch_iff,← loopMatch_iff hev,← Bool.eq_iff_iff]
  revert l r
  decide +kernel
end

section
variable (ctx : Context) {joins : List JoinClause} {ci : Option ColumnIndex} {schema : TableSchema}
    {rows : List Joined}
  {out : TableSchema × List Joined}
def sizeLe : Option Nat → Option Nat → Bool
  | some m, some n => m ≤ n
  | none, some _ => false
  | _, none => true

theorem sizeLe_trans (a b c : Option Nat) (hab : sizeLe a b = true) (hbc : sizeLe b c = true) :
    sizeLe a c = true := by
  cases a with
  | none => cases b <;> cases c <;> simp_all [sizeLe]
  | some m =>
    cases b with
    | none => cases c <;> simp_all [sizeLe]
    | some n =>
      cases c with
      | none => rfl
      | some k =>
        simp only [sizeLe,decide_eq_true_eq] at *
        omega

theorem sizeLe_total (a b : Option Nat) : (sizeLe a b || sizeLe b a) = true := by
  cases a with
  | none => cases b <;> rfl
  | some m =>
    cases b with
    | none => rfl
    | some n => simp [sizeLe,Nat.le_total]

def SizesInOrder (joins : List JoinClause) : Prop :=
  joins.Pairwise fun a b => sizeLe (ctx.tableSize a.tableName) (ctx.tableSize b.tableName) = true

section
variable (hinner : ∀ j ∈ joins, j.type = .inner) (htwo : 1 < joins.length)
include hinner htwo
theorem orderJoins_eq :
    orderJoins ctx joins = joins.mergeSort fun a b => sizeLe (ctx.tableSize a.tableName)
    (ctx.tableSize b.tableName) := by
  have hall : (joins.all (fun j => j.type = .inner) && decide (1 < joins.length)) = true := by
    simpa [htwo] using hinner
  rw [orderJoins,if_pos hall]
  rfl

theorem orderJoins_eq_self : orderJoins ctx joins = joins ↔ SizesInOrder ctx joins := by
  rw [orderJoins_eq ctx hinner htwo]
  constructor
  · intro h
    rw [SizesInOrder,← h]
    exact pairwise_mergeSort (fun a b c => sizeLe_trans (ctx.tableSize a.tableName) (ctx.tableSize b.tableName) _)
      (fun a b => sizeLe_total (ctx.tableSize a.tableName) _) joins
  · exact mergeSort_of_pairwise
end

theorem orderJoins_perm (joins : List JoinClause) : (orderJoins ctx joins).Perm joins := by
  rw [orderJoins]
  split
  · exact mergeSort_perm joins _
  · exact .refl _

variable {ctx}
def joinedColumns (right : TableSchema) : List ColumnSchema :=
  right.columns.map fun col => { col with name := right.name++"."++col.name }

def joinedTable (ctx : Context) (join : JoinClause) : Option TableSchema :=
  (ctx.storage.tableSchema join.tableName).map (aliased join.asName)

def addedColumns (ctx : Context) (join : JoinClause) : List ColumnSchema :=
  match joinedTable ctx join with
  | some right => joinedColumns right
  | none => []

theorem joinSchema_of_joined {left : TableSchema} (h : left.name = joinResult) (right : TableSchema) :
    joinSchema left right = ⟨joinResult,left.columns++joinedColumns right,[],false,[],none⟩ := by
  simp [joinSchema,joinedColumns,h]

theorem joinTables_columns (hs : schema.name = joinResult) (h : joinTables ctx ci joins schema rows = .ok out) :
    out.1.columns = schema.columns++joins.flatMap (addedColumns ctx) := by
  induction joins generalizing schema rows with
  | nil =>
    cases h
    simp
  | cons join joins ih =>
    obtain ⟨right,rs,hr,-,h⟩ := joinTables_cons h
    have hcols := ih (by rfl) h
    rw [joinSchema_of_joined hs] at hcols
    simp only [hcols,flatMap_cons,addedColumns,joinedTable,hr,map_some,append_assoc]

def firstColumns (schema : TableSchema) : List ColumnSchema :=
  schema.columns.map fun col =>
    if (afterDot col.name).isNone && schema.name != joinResult then
      { col with name := schema.name++"."++col.name } else col

theorem executeJoins_columns (hj : joins ≠ []) (h : joinTables ctx ci joins schema rows = .ok out) :
    out.1.columns = firstColumns schema++joins.flatMap (addedColumns ctx) := by
  cases joins with
  | nil => exact absurd rfl hj
  | cons join joins =>
    obtain ⟨right,rs,hr,-,h⟩ := joinTables_cons h
    rw [joinTables_columns rfl h,flatMap_cons]
    simp only [addedColumns,joinedTable,hr,map_some,joinSchema,firstColumns,joinedColumns,append_assoc]

theorem qualified_inj {t t' c c' : String} (ht : '.' ∉ t.toList) (ht' : '.' ∉ t'.toList)
    (h : t++"."++c = t'++"."++c') : t = t' := by
  have hlist := String.toList_inj.2 h
  simp only [String.toList_append,append_assoc] at hlist
  exact String.toList_inj.1 (append_first_sep_inj hlist ht ht').1

/-- Joins with a table, at least one column and a name without a dot, no two with one name. -/
structure WellNamed (ctx : Context) (joins : List JoinClause) : Prop where
  columns : ∀ j ∈ joins, ∃ t, joinedTable ctx j = some t ∧ t.columns ≠ [] ∧ '.' ∉ t.name.toList
  distinct : ∀ j ∈ joins, ∀ k ∈ joins, (joinedTable ctx j).map TableSchema.name =
    (joinedTable ctx k).map TableSchema.name →
    j = k

theorem joins_eq_of_columns {all joins' : List JoinClause} (hn : WellNamed ctx all) (h : ∀ j ∈ joins, j ∈ all)
    (h' : ∀ j ∈ joins', j ∈ all) (hlen : joins.length = joins'.length)
    (hc : (joins.flatMap (addedColumns ctx)).map ColumnSchema.name =
      (joins'.flatMap (addedColumns ctx)).map ColumnSchema.name) :
    joins = joins' := by
  induction joins generalizing joins' with
  | nil => exact (eq_nil_of_length_eq_zero hlen.symm).symm
  | cons j joins ih =>
    cases joins' with
    | nil => simp at hlen
    | cons k joins' =>
      obtain ⟨t,ht,htc,htd⟩ := hn.columns j (h j mem_cons_self)
      obtain ⟨u,hu,huc,hud⟩ := hn.columns k (h' k mem_cons_self)
      -- The first column added tells the first table joined.
      have hjk : j = k := by
        obtain ⟨c,cs,hcs⟩ := exists_cons_of_ne_nil htc
        obtain ⟨d,ds,hds⟩ := exists_cons_of_ne_nil huc
        simp only [flatMap_cons,addedColumns,ht,hu,joinedColumns,hcs,hds,map_cons,cons_append,cons.injEq] at hc
        refine hn.distinct j (h j mem_cons_self) k (h' k mem_cons_self) ?_
        simp only [ht,hu,map_some,qualified_inj htd hud hc.1]
      subst hjk
      simp only [flatMap_cons,map_append,append_cancel_left_eq] at hc
      rw [ih (fun i hi => h i (mem_cons_of_mem _ hi)) (fun i hi => h' i (mem_cons_of_mem _ hi))
        (by simpa using hlen) hc]

/-- The join was made, with these columns in this order and these rows in some order. -/
def SameJoin (result : Except String (TableSchema × List Joined)) (listed : TableSchema × List Joined) : Prop :=
  ∃ out, result = .ok out ∧ out.1.columns.map ColumnSchema.name = listed.1.columns.map ColumnSchema.name ∧
    (out.2.map Joined.flat).Perm (listed.2.map Joined.flat)

/-- Inner joins give the columns and rows of the FROM clause when its tables stand in the order of
their recorded sizes, and only then if their names tell them apart. -/
theorem join_order_kept_iff {ci : Option ColumnIndex} {s : SelectStatement} {schema : TableSchema}
    {rows : List Joined}
    {listed : TableSchema × List Joined} (hinner : ∀ j ∈ s.joins, j.type = .inner) (htwo : 1 < s.joins.length)
    (hlisted : joinTables ctx ci s.joins schema rows = .ok listed) :
    (SizesInOrder ctx s.joins → SameJoin (executeJoins ctx ci s schema rows) listed) ∧
      (WellNamed ctx s.joins → SameJoin (executeJoins ctx ci s schema rows) listed → SizesInOrder ctx s.joins) := by
  have hperm := orderJoins_perm ctx s.joins
  have hne : s.joins ≠ [] := ne_nil_of_length_pos (by omega)
  refine ⟨fun horder => ?_,?_⟩
  · refine ⟨listed,?_,rfl,.refl _⟩
    rw [executeJoins,(orderJoins_eq_self ctx hinner htwo).2 horder,hlisted]
  · rintro hn ⟨out,hout,hcols,-⟩
    have hne' : orderJoins ctx s.joins ≠ [] :=
      fun he => hne (eq_nil_of_length_eq_zero (by rw [← hperm.length_eq,he]; rfl))
    rw [executeJoins_columns hne' hout,executeJoins_columns hne hlisted,map_append,map_append,
      append_cancel_left_eq] at hcols
    rw [← orderJoins_eq_self ctx hinner htwo]
    exact joins_eq_of_columns hn (fun j hj => hperm.mem_iff.1 hj) (fun j hj => hj) hperm.length_eq hcols

def oneColumn (table col : String) (rows : List Row) : TableSchema × List Row :=
  (⟨table,[{ name := col }],[],false,[],none⟩,rows)

def chainContext (sizeOfB sizeOfC : Nat) : Context where
  ev := plainEvaluator
  storage := .ofTables [oneColumn "a" "x" [[.int 1]],(⟨"b",[{ name := "x" },{ name := "y" }],[],false,[],none⟩,
    [[.int 1,.int 5]]),oneColumn "c" "z" [[.int 5]]]
  dbName := "app"
  tableSize t := if t = "b" then some sizeOfB else if t = "c" then some sizeOfC else none

def chainSelect : SelectStatement where
  tableName := "a"
  joins := [⟨.inner,"b","",some (.binary .eq (.columnRef "a" "x") (.columnRef "b" "x"))⟩,
    ⟨.inner,"c","",some (.binary .eq (.columnRef "b" "y") (.columnRef "c" "z"))⟩]

def joinOutput (result : Except String (TableSchema × List Joined)) : Option (List String × List Row) :=
  result.toOption.map fun out => (out.1.columns.map ColumnSchema.name,out.2.map Joined.flat)

theorem exists_of_joinOutput {result : Except String (TableSchema × List Joined)}
    {cols : List String} {rows : List Row} (h : joinOutput result = some (cols,rows)) :
    ∃ out, result = .ok out ∧ out.1.columns.map ColumnSchema.name = cols ∧ out.2.map flat = rows := by
  cases result with
  | error e => simp [joinOutput,Except.toOption] at h
  | ok out =>
    simp only [joinOutput,Except.toOption,map_some,some_inj,Prod.mk.injEq] at h
    exact ⟨out,rfl,h⟩

theorem orderJoins_chain : orderJoins (chainContext 100 1) chainSelect.joins = chainSelect.joins.reverse := by
  rw [orderJoins_eq _ (by simp [chainSelect]) (by decide)]
  simp [chainSelect,mergeSort,List.MergeSort.Internal.splitInTwo,chainContext,sizeLe]

/-- `c` is joined first, where its condition finds no `b.y`: the only row is lost. -/
theorem small_table_joined_too_early : ∃ listed,
    joinTables (chainContext 100 1) none chainSelect.joins (oneColumn "a" "x" []).1
    [Joined.ofRow "a" [.int 1]] = .ok listed ∧
      listed.2.map Joined.flat = [[.int 1, .int 1, .int 5, .int 5]] ∧
      ¬SameJoin (executeJoins (chainContext 100 1) none chainSelect (oneColumn "a" "x" []).1
        [Joined.ofRow "a" [.int 1]])
        listed := by
  have hlisted : joinOutput (joinTables (chainContext 100 1) none chainSelect.joins (oneColumn "a" "x" []).1
      [ofRow "a" [.int 1]]) = some (["a.x","b.x","b.y","c.z"],[[.int 1,.int 1,.int 5,.int 5]]) := by
    decide +kernel
  have hsorted : joinOutput (executeJoins (chainContext 100 1) none chainSelect (oneColumn "a" "x" []).1
      [ofRow "a" [.int 1]]) = some (["a.x","c.z","b.x","b.y"],[]) := by
    rw [executeJoins,orderJoins_chain]
    decide +kernel
  obtain ⟨listed,hl,hcols,hrows⟩ := exists_of_joinOutput hlisted
  obtain ⟨out,ho,-,hnone⟩ := exists_of_joinOutput hsorted
  refine ⟨listed,hl,hrows,?_⟩
  rintro ⟨out',ho',-,hperm⟩
  rw [ho] at ho'
  cases ho'
  rw [hnone,hrows] at hperm
  simpa using hperm.length_eq

/-- With `b` known to be the smaller one the chain is joined as it is written. -/
theorem chain_joined_in_order : ∃ listed,
    joinTables (chainContext 1 100) none chainSelect.joins (oneColumn "a" "x" []).1
    [Joined.ofRow "a" [.int 1]] = .ok listed ∧
      listed.2.map Joined.flat = [[.int 1, .int 1, .int 5, .int 5]] ∧
      SameJoin (executeJoins (chainContext 1 100) none chainSelect (oneColumn "a" "x" []).1
        [Joined.ofRow "a" [.int 1]])
        listed := by
  have hlisted : joinOutput (joinTables (chainContext 1 100) none chainSelect.joins (oneColumn "a" "x" []).1
      [ofRow "a" [.int 1]]) = some (["a.x","b.x","b.y","c.z"],[[.int 1,.int 1,.int 5,.int 5]]) := by
    decide +kernel
  obtain ⟨listed,hl,-,hrows⟩ := exists_of_joinOutput hlisted
  exact ⟨listed,hl,hrows,(join_order_kept_iff (by simp [chainSelect]) (by decide) hl).1
    (by simp [SizesInOrder,chainSelect,chainContext,sizeLe])⟩
end

section
variable {ctx : Context} {ci : Option ColumnIndex} {schema right : TableSchema}
    {rows rs : List Joined} {row : Joined}
theorem mem_leftRows (h : row ∈ rows) (test : Joined → Joined → Bool) (pad : Row) :
    ∃ r, row.append r ∈ leftRows test pad rows rs := by
  by_cases hany : rs.any (test row) = true
  · obtain ⟨r,hr,ht⟩ := any_eq_true.1 hany
    exact ⟨r,mem_flatMap.2 ⟨row,h,by rw [if_pos hany]; exact mem_map_of_mem (mem_filter.2 ⟨hr,ht⟩)⟩⟩
  · exact ⟨.padding pad,mem_flatMap.2 ⟨row,h,by rw [if_neg hany]; exact mem_singleton_self _⟩⟩

theorem joinRows_keeps {join : JoinClause} (hj : join.type = .left ∨ join.type = .full) (h : row ∈ rows) :
    ∃ r, row.append r ∈ joinRows ctx ci join schema right rows rs := by
  unfold joinRows
  rcases hj with hj | hj
  · simp only [hj]
    cases join.condition.bind fun c => extractEquiJoinCols c schema right <;> exact mem_leftRows h _ _
  · simp only [hj]
    exact (mem_leftRows h _ _).imp fun _ hr => mem_append_left _ hr

/-- LEFT and FULL joins, one after the other, lose no row of the FROM table: each is the first part
of a row that comes out, also where a condition cannot be evaluated. -/
theorem outer_joins_keep_rows {ctx : Context} {ci : Option ColumnIndex} {s : SelectStatement}
    {schema combined : TableSchema}
    {rows out : List Joined} (hj : ∀ j ∈ s.joins, j.type = .left ∨ j.type = .full)
    (h : executeJoins ctx ci s schema rows = .ok (combined,out)) {row : Joined} (hrow : row ∈ rows) :
    ∃ r, row.append r ∈ out := by
  have hj : ∀ j ∈ orderJoins ctx s.joins, j.type = .left ∨ j.type = .full := fun j h =>
    hj j ((orderJoins_perm ctx s.joins).mem_iff.1 h)
  rw [executeJoins] at h
  -- on the joins still to come; `row` is what the ones before have made of the row
  generalize orderJoins ctx s.joins = joins at hj h
  induction joins generalizing schema rows row with
  | nil =>
    cases h
    exact ⟨.padding [],by simpa [append,padding] using hrow⟩
  | cons join joins ih =>
    obtain ⟨right,rs,-,-,h⟩ := joinTables_cons h
    rw [forall_mem_cons] at hj
    obtain ⟨r,hr⟩ := joinRows_keeps hj.1 hrow
    obtain ⟨r',hr'⟩ := ih hr hj.2 h
    exact ⟨r.append r',by simpa [append] using hr'⟩

def outerSelect : SelectStatement where
  tableName := "a"
  joins := [⟨.left,"c","",some (.binary .eq (.columnRef "a" "x") (.columnRef "c" "z"))⟩,⟨.full,"b","",none⟩]

/-- No row of `c` has the value. -/
theorem outer_joins_keep_unmatched : ∃ out, executeJoins (chainContext 1 100) none outerSelect
    (oneColumn "a" "x" []).1
    [Joined.ofRow "a" [.int 1]] = .ok out ∧ ∃ r, (Joined.ofRow "a" [.int 1]).append r ∈ out.2 := by
  have hout : joinOutput (executeJoins (chainContext 1 100) none outerSelect
    (oneColumn "a" "x" []).1 [ofRow "a" [.int 1]]) =
      some (["a.x","c.z","b.x","b.y"],[[.int 1,.null,.int 1,.int 5]]) := by
    decide +kernel
  obtain ⟨out,ho,-,-⟩ := exists_of_joinOutput hout
  exact ⟨out,ho,outer_joins_keep_rows (by simp [outerSelect]) ho mem_cons_self⟩
end

end VaultDB.Sql
