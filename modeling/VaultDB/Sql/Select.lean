import VaultDB.Sql.Partition
set_option autoImplicit false

/-!
`SELECT` over stored tables, after `commands/sel`: the fast path, the general path with index lookup
and joins, partitioned tables, grouping and masking.

Derived tables, views, CTEs and window functions are not part of it.  A row keeps the stored rows it
was made of; nothing is computed from them.
-/

namespace VaultDB.Sql
open List

inductive JoinType where
  | inner | left | right | full | cross
  deriving DecidableEq, Repr

structure JoinClause where
  type : JoinType
  tableName : String
  asName : String := ""
  condition : Option Expr := none

structure SelectColumn where
  expr : Expr
  asName : String := ""

structure OrderItem where
  expr : Expr
  desc : Bool := false

inductive AsOf where
  | version (txID : Nat)
  | timestamp (ts : String)

/-- LIMIT and OFFSET after their parameters are evaluated; no columns mean `*`. -/
structure SelectStatement where
  columns : List SelectColumn := []
  tableName : String
  asName : String := ""
  joins : List JoinClause := []
  where_ : Option Expr := none
  groupBy : List Expr := []
  having : Option Expr := none
  orderBy : List OrderItem := []
  limit : Option Int := none
  limitExpr : Option Expr := none
  offset : Option Int := none
  offsetExpr : Option Expr := none
  asOf : Option AsOf := none
  distinct : Bool := false
  distinctOn : List Expr := []
  forUpdate : Bool := false
  forShare : Bool := false

structure MaskingPolicy where
  keepPrefix : Nat
  keepSuffix : Nat
  char : Char
  deriving DecidableEq, Repr

structure Result where
  columns : List String
  rows : List (List String)
  deriving DecidableEq, Repr

structure Storage where
  tableSchema : String → Option TableSchema
  readCurrentRows : String → Except String (List Row)
  readRowsAsOf : String → Nat → Except String (List Row)
  txIDAtTimestamp : String → Except String Nat
  tryIndexLookup : String → Expr → Option (List Int)
  tryIndexOnlyScan : String → Expr → List Int → Option (List Row)
  readRowsByPositions : String → List Int → Except String (List Row)
  selectForUpdateVM : String → Option Expr → Bool → Except String (List Row)
  rowHistory : String → Option Value → Except String (List (Nat × Nat × Row))

/-- What a compiled clause gives on a row: a boolean, another value or an error, or a panic of the
server. -/
inductive VmAnswer where
  | bool (b : Bool)
  | other
  | panic

/-- A foreign key of `child` with ON DELETE CASCADE. -/
structure Cascade where
  child : String
  columns : List String
  refCols : List String

structure ParallelConfig where
  enabled : Bool := false
  minRows : Nat := 0

def ParallelConfig.shouldUse (c : ParallelConfig) (numRows : Nat) (hasJoins hasOrderBy : Bool) : Bool :=
  c.enabled && c.minRows ≤ numRows && !hasJoins && !hasOrderBy

/-- The execution context: the session, the storage, and what the optimizer, the
aggregators and the transaction overlay contribute. -/
structure Context where
  ev : Evaluator
  storage : Storage
  dbName : String
  inTx : Bool := false
  snapshotTxID : Nat := 0
  maxRows : Nat := 0
  columnIndex : Option ColumnIndex := none
  hasUnmask : Bool := true
  compile : Expr → TableSchema → Option (Row → VmAnswer) := fun _ _ => none
  parallel : ParallelConfig := {}
  cascades : String → List Cascade := fun _ => []
  toInt64 : Value → Option Int := fun
    | .int n => some n
    | _ => none
  resultCache : SelectStatement → Option Result := fun _ => none
  applyTxOverlay : String → List Row → Except String (List Row) := fun _ rows => .ok rows
  tablePredicate : SelectStatement → String → Option Expr := fun _ _ => none
  whereAfter : SelectStatement → Option Expr := fun s => s.where_
  tableSize : String → Option Nat := fun _ => none
  pooledRow : Nat → Row := fun n => List.replicate n .null
  floatLt : String → String → Bool := fun _ _ => false
  compareOrdering : Value → Value → Ordering := fun _ _ => .eq
  compareResultCells : String → String → Ordering := compareText
  aggregate : Expr → List Row → TableSchema → Except String Value := fun _ _ _ => .ok .null
  havingOk : SelectStatement → List Row → TableSchema → Bool := fun _ _ _ => true
  maskingPolicy : String → Option MaskingPolicy := fun _ => none

structure Joined where
  parts : List (String × Row)
  flat : Row

namespace Joined

def ofRow (table : String) (row : Row) : Joined := ⟨[(table,row)],row⟩
def append (l r : Joined) : Joined := ⟨l.parts++r.parts,l.flat++r.flat⟩
def padding (row : Row) : Joined := ⟨[],row⟩

end Joined

def nullRow (n : Nat) : Row := List.replicate n .null

section
variable (ctx : Context)
def policiesAllow (schema : TableSchema) (ci : Option ColumnIndex) (row : Row) : List RLSPolicy → Except String Bool
  | [] => .ok false
  | p :: ps =>
    match p.usingExpr with
    | none => .ok true
    | some (.error e) => .error ("RLS policy '"++p.name++"': invalid expression: "++e)
    | some (.ok e) =>
      match ctx.ev.evalOperand e row schema ci with
      | .ok (.bool true) => .ok true
      | _ => policiesAllow schema ci row ps

def filterRowsWithRLS (schema : TableSchema) (tableName : String) (rows : List Row) : Except String (List Row) :=
  if !schema.rlsEnabled then .ok rows
  else if schema.policies.isEmpty then
    .error ("RLS is enabled on table '"++tableName++"' but no policies are defined")
  else filterRows (fun row => policiesAllow ctx schema ctx.columnIndex row schema.policies) rows

def applyPushdownFilter (s : SelectStatement) (schema : TableSchema) (rows : List Row) : Except String (List Row) :=
  if s.where_.isNone || rows.isEmpty then .ok rows
  else
    match ctx.tablePredicate s s.tableName with
    | none => .ok rows
    | some pred =>
      filterRows (fun row => ctx.ev.evalExpr (some pred) row schema
        (some (ctx.ev.buildColumnIndex schema))) rows

/-- The WHERE clause after `applyPushdownFilter`: the optimizer works on a copy of the statement
that shares the expression trees. -/
def whereLeft (s : SelectStatement) (rows : List Row) : Option Expr :=
  if s.where_.isNone || rows.isEmpty then s.where_ else ctx.whereAfter s

def pushdownIndex (s : SelectStatement) (schema : TableSchema) (rows : List Row) : Option ColumnIndex :=
  if s.where_.isNone || rows.isEmpty || (ctx.tablePredicate s s.tableName).isNone then ctx.columnIndex
  else some (ctx.ev.buildColumnIndex schema)

def resolveRows (s : SelectStatement) : Except String (List Row) :=
  match s.asOf with
  | none =>
    if 0 < ctx.snapshotTxID then ctx.storage.readRowsAsOf s.tableName ctx.snapshotTxID
    else (ctx.storage.readCurrentRows s.tableName).bind (ctx.applyTxOverlay s.tableName)
  | some (.version txID) => ctx.storage.readRowsAsOf s.tableName txID
  | some (.timestamp ts) => (ctx.storage.txIDAtTimestamp ts).bind (ctx.storage.readRowsAsOf s.tableName)

def indexRows (s : SelectStatement) : Option (List Row) :=
  if s.joins.isEmpty && s.asOf.isNone && !ctx.inTx && ctx.snapshotTxID == 0 then
    s.where_.bind fun w => (ctx.storage.tryIndexLookup s.tableName w).bind fun positions =>
      match ctx.storage.tryIndexOnlyScan s.tableName w positions with
      | some rows => some rows
      | none => (ctx.storage.readRowsByPositions s.tableName positions).toOption
  else none

def readMainRows (s : SelectStatement) : Except String (List Row) :=
  match indexRows ctx s with
  | some rows => .ok rows
  | none =>
    if s.forUpdate || s.forShare then ctx.storage.selectForUpdateVM s.tableName s.where_ s.forUpdate
    else resolveRows ctx s

def aliased (asName : String) (schema : TableSchema) : TableSchema :=
  if asName = "" then schema else { schema with name := asName }

def joinResult : String := "JOIN_RESULT"

def joinSchema (left right : TableSchema) : TableSchema where
  name := joinResult
  columns :=
    (left.columns.map fun col =>
      if (afterDot col.name).isNone && left.name != joinResult then
        { col with name := left.name++"."++col.name } else col)++
    right.columns.map fun col => { col with name := right.name++"."++col.name }

def stripTablePrefix (name : String) : String := (afterDot name).getD name
def findColumnIndex (schema : TableSchema) (name : String) : Option Nat :=
  schema.columns.findIdx? fun col => col.name == name

def extractEquiJoinCols (cond : Expr) (left right : TableSchema) : Option (Nat × Nat) :=
  match cond with
  | .binary .eq (.columnRef _ l) (.columnRef _ r) =>
    match findColumnIndex left (stripTablePrefix l), findColumnIndex right (stripTablePrefix r) with
    | some i, some j => some (i,j)
    | _, _ =>
      match findColumnIndex left (stripTablePrefix r), findColumnIndex right (stripTablePrefix l) with
      | some i, some j => some (i,j)
      | _, _ => none
  | _ => none

def hashMatch (cols : Nat × Nat) (l r : Joined) : Bool :=
  match r.flat[cols.2]? with
  | none => false
  | some .null => false
  | some v => valueToString v == valueToString (l.flat[cols.1]?.getD .null)

def pairRows (test : Joined → Joined → Bool) (left right : List Joined) : List Joined :=
  left.flatMap fun l => (right.filter (test l)).map l.append

def leftRows (test : Joined → Joined → Bool) (pad : Row) (left right : List Joined) : List Joined :=
  left.flatMap fun l =>
    if right.any (test l) then (right.filter (test l)).map l.append
    else [l.append (Joined.padding pad)]

def unmatchedRight (test : Joined → Joined → Bool) (pad : Row) (left right : List Joined) : List Joined :=
  (right.filter fun r => !left.any fun l => test l r).map (Joined.padding pad).append

def joinRows (ci : Option ColumnIndex) (join : JoinClause) (leftSchema rightSchema : TableSchema)
    (left right : List Joined) : List Joined :=
  let combined := joinSchema leftSchema rightSchema
  let hash := join.condition.bind fun c => extractEquiJoinCols c leftSchema rightSchema
  let loop := fun (l r : Joined) => (ctx.ev.evalExpr join.condition (l.append r).flat combined
    ci).toOption == some true
  let leftWidth := leftSchema.columns.length
  let rightWidth := rightSchema.columns.length
  match join.type, hash with
  | .cross, _ => pairRows (fun _ _ => true) left right
  | .inner, some cols => pairRows (hashMatch cols) left right
  | .inner, none => pairRows loop left right
  | .left, some cols => leftRows (hashMatch cols) (ctx.pooledRow rightWidth) left right
  | .left, none => leftRows loop (nullRow rightWidth) left right
  | .right, some cols =>
    pairRows (hashMatch cols) left right++unmatchedRight (hashMatch cols) (ctx.pooledRow leftWidth) left right
  | .right, none =>
    right.flatMap fun r =>
      if left.any fun l => loop l r then (left.filter fun l => loop l r).map fun l => l.append r
      else [(Joined.padding (nullRow leftWidth)).append r]
  | .full, _ => leftRows loop (nullRow rightWidth) left right++unmatchedRight loop (nullRow leftWidth) left right

def readJoined (join : JoinClause) : Except String (List Row) :=
  (ctx.storage.readCurrentRows join.tableName).bind (ctx.applyTxOverlay join.tableName)

def joinTables (ci : Option ColumnIndex) :
    List JoinClause → TableSchema → List Joined → Except String (TableSchema × List Joined)
  | [], schema, rows => .ok (schema,rows)
  | join :: joins, schema, rows =>
    match ctx.storage.tableSchema join.tableName with
    | none => .error ("joined table '"++join.tableName++"' does not exist")
    | some right =>
      match readJoined ctx join with
      | .error e => .error e
      | .ok rightRows =>
        joinTables ci joins (joinSchema schema (aliased join.asName right))
          (joinRows ctx ci join schema (aliased join.asName right) rows
            (rightRows.map (Joined.ofRow join.tableName)))

variable {ctx} in
theorem joinTables_cons {ci : Option ColumnIndex} {join : JoinClause} {joins : List JoinClause}
    {schema : TableSchema}
    {rows : List Joined} {out : TableSchema × List Joined}
    (h : joinTables ctx ci (join :: joins) schema rows = .ok out) :
    ∃ right rs, ctx.storage.tableSchema join.tableName = some right ∧ readJoined ctx join = .ok rs ∧
      joinTables ctx ci joins (joinSchema schema (aliased join.asName right)) (joinRows ctx ci join schema
        (aliased join.asName right) rows (rs.map (Joined.ofRow join.tableName))) = .ok out := by
  rw [joinTables] at h
  cases hs : ctx.storage.tableSchema join.tableName with
  | none => simp [hs] at h
  | some right =>
    cases hr : readJoined ctx join with
    | error e => simp [hs,hr] at h
    | ok rs => exact ⟨right,rs,rfl,rfl,by simpa only [hs,hr] using h⟩

/-- Inner joins are taken smallest table first; a table without statistics comes last. -/
def orderJoins (joins : List JoinClause) : List JoinClause :=
  if joins.all (fun j => j.type = .inner) && 1 < joins.length then
    joins.mergeSort fun a b =>
      match ctx.tableSize a.tableName, ctx.tableSize b.tableName with
      | some m, some n => m ≤ n
      | none, some _ => false
      | _, none => true
  else joins

def executeJoins (ci : Option ColumnIndex) (s : SelectStatement) (schema : TableSchema)
    (rows : List Joined) : Except String (TableSchema × List Joined) :=
  joinTables ctx ci (orderJoins ctx s.joins) schema rows

def SelectStatement.grouped (s : SelectStatement) : Bool :=
  !s.groupBy.isEmpty || s.columns.any (·.expr.containsAggregate) || s.having.any (·.containsAggregate)

def limitRows {α : Type} (s : SelectStatement) (rows : List α) : List α :=
  if 0 < ctx.maxRows && !s.grouped then rows.take ctx.maxRows else rows

/-- The WHERE clause of `executeSimpleSelect`: the compiled clause goes first, and the interpreter
decides where it has no boolean.  A worker of `ParallelFilter` passes over a row where neither has
one, and asks the interpreter only if the clause was not compiled. -/
def whereTest (par : Bool) (w : Option Expr) (row : Row) (schema : TableSchema) (ci : Option ColumnIndex) :
    Except String Bool :=
  let interpreted := ctx.ev.evalExpr w row schema ci
  match w.bind (ctx.compile · schema) with
  | none => if par then .ok (holds interpreted) else interpreted
  | some run =>
    match run row with
    | .bool b => .ok b
    | .other => if par then .ok false else interpreted
    | .panic => .error "index out of range"

def usesParallel (s : SelectStatement) (numRows : Nat) : Bool :=
  ctx.parallel.shouldUse numRows (!s.joins.isEmpty) (!s.orderBy.isEmpty) && s.where_.isSome

def selectedRows (s : SelectStatement) (schema : TableSchema) : Except String (TableSchema × List Joined) :=
  ((readMainRows ctx s).bind (filterRowsWithRLS ctx schema s.tableName)).bind fun visible =>
    (applyPushdownFilter ctx s schema visible).bind fun rows =>
      (executeJoins ctx (pushdownIndex ctx s schema visible) s schema
        (rows.map (Joined.ofRow s.tableName))).bind fun (combined,rows) =>
        (filterRows (fun r => whereTest ctx (usesParallel ctx s rows.length)
          (whereLeft ctx s visible) r.flat combined
          (some (ctx.ev.buildColumnIndex combined))) rows).map fun rows => (combined,limitRows ctx s rows)

def orderKeys (s : SelectStatement) (schema : TableSchema) (ci : Option ColumnIndex) (row : Row) :
    List (Option Value) :=
  s.orderBy.map fun item => (ctx.ev.evalOperand item.expr row schema ci).toOption

def orderLess : List OrderItem → List (Option Value) → List (Option Value) → Bool
  | item :: items, some a :: as, some b :: bs =>
    match ctx.compareOrdering a b with
    | .eq => orderLess items as bs
    | .lt => !item.desc
    | .gt => item.desc
  | _ :: items, _ :: as, _ :: bs => orderLess items as bs
  | _, _, _ => false

def applyOrderBy (s : SelectStatement) (schema : TableSchema) (ci : Option ColumnIndex)
    (rows : List Joined) : List Joined :=
  rows.mergeSort fun a b => !orderLess ctx s.orderBy (orderKeys ctx s schema ci b.flat)
    (orderKeys ctx s schema ci a.flat)

/-- A bound LIMIT or OFFSET; the parser leaves 0 in its place. -/
def resolveBound (literal : Option Int) (e : Option Expr) : Option Int :=
  match e.bind fun e => (ctx.ev.evalOperand e [] { name := "", columns := [] } none).toOption.bind ctx.toInt64 with
  | some n => some n
  | none => literal

def resolveLimit (s : SelectStatement) : Option Int := resolveBound ctx s.limit s.limitExpr
def resolveOffset (s : SelectStatement) : Int := (resolveBound ctx s.offset s.offsetExpr).getD 0

/-- The bounds of OFFSET and LIMIT, clipped at the end of `n` rows; the sum wraps around. -/
def pageBounds (limit : Option Int) (offset n : Int) : Int × Int :=
  (min offset n,match limit with
    | some l => min ((min offset n+l).bmod (2^64)) n
    | none => n)

def outOfRange : String := "slice bounds out of range"

def pageRows {α : Type} (limit : Option Int) (offset : Int) (rows : List α) : Except String (List α) :=
  if 0 ≤ (pageBounds limit offset rows.length).1 ∧
      (pageBounds limit offset rows.length).1 ≤ (pageBounds limit offset rows.length).2 then
    .ok ((rows.take (pageBounds limit offset rows.length).2.toNat).drop
      (pageBounds limit offset rows.length).1.toNat)
  else .error outOfRange

/-- `executePartitionedSelect` takes the numbers of the statement. -/
def partitionPage {α : Type} (limit : Option Int) (offset : Int) (rows : List α) : Except String (List α) :=
  if offset < 0 then .error outOfRange
  else
    let rest := if (rows.length : Int) < offset then [] else rows.drop offset.toNat
    match limit with
    | none => .ok rest
    | some l => if l < rest.length then if l < 0 then .error outOfRange else .ok (rest.take l.toNat) else .ok rest

def rowsFrom {α : Type} (o : Int) (l : Option Int) (rows : List α) : List α :=
  match l with
  | some l => (rows.drop o.toNat).take l.toNat
  | none => rows.drop o.toNat

def projectCell (schema : TableSchema) (ci : Option ColumnIndex) (row : Row) (col : SelectColumn) : String :=
  match ctx.ev.evalOperand col.expr row schema ci with
  | .ok v => valueToString v
  | .error _ => "ERR"

def projectRow (schema : TableSchema) (ci : Option ColumnIndex) (cols : List SelectColumn)
    (row : Row) : List String :=
  cols.map (projectCell ctx schema ci row)

def columnName (col : SelectColumn) (i : Nat) : String :=
  if col.asName ≠ "" then col.asName
  else
    match col.expr with
    | .columnRef _ name => name
    | _ => "col"++toString i

def columnNames (cols : List SelectColumn) : List String := cols.zipIdx.map fun c => columnName c.1 c.2

def dedupBy {α κ : Type} [BEq κ] (key : α → κ) : List α → List κ → List α
  | [], _ => []
  | a :: as, seen => if seen.contains (key a) then dedupBy key as seen else a :: dedupBy key as (key a :: seen)

def distinctKey (s : SelectStatement) (schema : TableSchema) (ci : Option ColumnIndex) (row : Row) : String :=
  "\x00".intercalate (s.distinctOn.map fun e => projectCell ctx schema ci row ⟨e,""⟩)

def applyDistinct (s : SelectStatement) (schema : TableSchema) (ci : Option ColumnIndex)
    (rows : List (Joined × List String)) : List (Joined × List String) :=
  if !s.distinctOn.isEmpty then dedupBy (fun x => distinctKey ctx s schema ci x.1.flat) rows []
  else if s.distinct then dedupBy Prod.snd rows []
  else rows

def maskString (val : String) (policy : MaskingPolicy) : String :=
  let runes := val.toList
  if runes.length ≤ policy.keepPrefix+policy.keepSuffix then val
  else
    String.ofList (runes.take policy.keepPrefix++
      List.replicate (runes.length-policy.keepPrefix-policy.keepSuffix) policy.char++
      runes.drop (runes.length-policy.keepSuffix))

def policyKey (db table col : String) : String := db++"."++table++"."++col

def columnPolicy (schema : TableSchema) (col : SelectColumn) : Option MaskingPolicy :=
  match col.expr with
  | .columnRef table name =>
    ctx.maskingPolicy (policyKey ctx.dbName (if table = "" then schema.name else table) name)
  | _ => none

def maskCell (schema : TableSchema) (col : SelectColumn) (cell : String) : String :=
  match columnPolicy ctx schema col with
  | some p => maskString cell p
  | none => cell

def applyMasking (schema : TableSchema) (cols : List SelectColumn) (row : List String) : List String :=
  if ctx.hasUnmask then row else (cols.zip row).map fun x => maskCell ctx schema x.1 x.2

def projectAll (s : SelectStatement) (schema : TableSchema) (cols : List SelectColumn)
    (rows : List Joined) : Except String Result :=
  let ci := some (ctx.ev.buildColumnIndex schema)
  let projected := (applyOrderBy ctx s schema ci rows).map fun r => (r,projectRow ctx schema ci cols r.flat)
  (pageRows (resolveLimit ctx s) (resolveOffset ctx s) (applyDistinct ctx s schema ci projected)).map fun rows =>
    ⟨columnNames cols,rows.map fun r => applyMasking ctx schema cols r.2⟩

def groupRows (key : Joined → Except String String) : List Joined → List (String × List Joined) →
    Except String (List (String × List Joined))
  | [], groups => .ok groups
  | r :: rs, groups =>
    match key r with
    | .error e => .error e
    | .ok k =>
      groupRows key rs (if groups.any (·.1 == k) then
        groups.map fun g => if g.1 == k then (g.1,g.2++[r]) else g else groups++[(k,[r])])

def groupCell (schema : TableSchema) (ci : Option ColumnIndex) (group : List Row)
    (col : SelectColumn) : Except String String :=
  if col.expr.containsAggregate then (ctx.aggregate col.expr group schema).map valueToString
  else
    match group with
    | [] => .ok "NULL"
    | row :: _ => (ctx.ev.evalOperand col.expr row schema ci).map valueToString

def groupedKey (names : List String) (item : OrderItem) : Option (Nat × Bool) :=
  match item.expr with
  | .columnRef _ name =>
    ((names.zipIdx.filter fun x => ctx.ev.equalFold x.1 name).getLast?).map fun x => (x.2,item.desc)
  | .value (.int n) => if 1 ≤ n && n ≤ names.length then some (n.toNat-1,item.desc) else none
  | _ => none

def groupedLess : List (Nat × Bool) → List String → List String → Bool
  | [], _, _ => false
  | (i,desc) :: keys, a, b =>
    match ctx.compareResultCells (a[i]?.getD "") (b[i]?.getD "") with
    | .eq => groupedLess keys a b
    | .lt => !desc
    | .gt => desc

def executeWithGrouping (s : SelectStatement) (schema : TableSchema) (rows : List Joined) :
    Except String Result := do
  let ci := some (ctx.ev.buildColumnIndex schema)
  let key := fun (r : Joined) =>
    (s.groupBy.mapM fun e => (ctx.ev.evalOperand e r.flat schema ci).map valueToString).map
      fun parts => "\x00".intercalate parts
  let groups ← groupRows key rows []
  let groups := if s.groupBy.isEmpty && groups.isEmpty then [("",rows)] else groups
  let kept := groups.filter fun g => ctx.havingOk s (g.2.map Joined.flat) schema
  let cells ← kept.mapM fun g => s.columns.mapM (groupCell ctx schema ci (g.2.map Joined.flat))
  let names := columnNames s.columns
  let keys := s.orderBy.filterMap (groupedKey ctx names)
  let out ← pageRows (resolveLimit ctx s) (resolveOffset ctx s)
    (cells.mergeSort fun a b => !groupedLess ctx keys b a)
  pure ⟨names,out⟩

def SelectStatement.effectiveColumns (s : SelectStatement) (schema : TableSchema) : List SelectColumn :=
  if s.columns.isEmpty then schema.columns.map fun col => ⟨.columnRef "" col.name,""⟩ else s.columns

def projectedRows (s : SelectStatement) (schema : TableSchema) (rows : List Joined) : List (List String) :=
  let ci := some (ctx.ev.buildColumnIndex schema)
  (applyOrderBy ctx s schema ci rows).map fun r => projectRow ctx schema ci (s.effectiveColumns schema) r.flat

/-- The rows of `executeDerivedTable` without grouping and window functions: DISTINCT comes after
the page. -/
def derivedRows (s : SelectStatement) (schema : TableSchema) (rows : List Joined) :
    Except String (List (List String)) :=
  let ci := some (ctx.ev.buildColumnIndex schema)
  (pageRows (resolveLimit ctx s) (resolveOffset ctx s) (applyOrderBy ctx s schema ci rows)).map fun paged =>
    let projected := paged.map fun r => projectRow ctx schema ci (s.effectiveColumns schema) r.flat
    if s.distinct then dedupBy id projected [] else projected

def finishSelect (s : SelectStatement) (schema : TableSchema) (rows : List Joined) : Except String Result :=
  if s.grouped then executeWithGrouping ctx s schema rows
  else projectAll ctx s schema (s.effectiveColumns schema) rows

def prunedTables (s : SelectStatement) (schema : TableSchema) (spec : PartitionSpec) : List String :=
  (prunePartitions ctx.ev.toLower ctx.floatLt spec schema.name s.where_).map Partition.tableName

def readPartitions : List String → Except String (List (String × Row))
  | [] => .ok []
  | part :: parts =>
    match ctx.storage.tableSchema part with
    | none => readPartitions parts
    | some _ =>
      match ctx.storage.readCurrentRows part, readPartitions parts with
      | .ok rows, .ok rest => .ok (rows.map (fun r => (part,r))++rest)
      | .error e, _ => .error e
      | .ok _, .error e => .error e

def partitionedRows (s : SelectStatement) (schema : TableSchema) (parts : List String) :
    Except String (List Joined) :=
  (readPartitions ctx parts).bind fun rows =>
    (ctx.applyTxOverlay s.tableName (rows.map Prod.snd)).bind fun rows =>
      (filterRowsWithRLS ctx schema s.tableName rows).bind fun visible =>
        (applyPushdownFilter ctx s schema visible).bind fun rows =>
          filterRows (fun r => ctx.ev.evalExpr (whereLeft ctx s visible) r.flat schema
            (some (ctx.ev.buildColumnIndex schema))) (rows.map (Joined.ofRow s.tableName))

/-- Neither grouping nor masking on this path. -/
def executePartitionedSelect (s : SelectStatement) (schema : TableSchema) (parts : List String) :
    Except String Result :=
  let ci := some (ctx.ev.buildColumnIndex schema)
  (partitionedRows ctx s schema parts).bind fun rows =>
    let out := (applyOrderBy ctx s schema ci rows).map fun r => projectRow ctx schema ci s.columns r.flat
    (partitionPage s.limit (s.offset.getD 0) out).map fun rows => ⟨columnNames s.columns,rows⟩

def executeSimpleSelect (s : SelectStatement) : Except String Result :=
  match ctx.storage.tableSchema s.tableName with
  | none => .error ("table '"++s.tableName++"' does not exist")
  | some schema =>
    match (aliased s.asName schema).partitions with
    | some spec =>
      executePartitionedSelect ctx s (aliased s.asName schema) (prunedTables ctx s (aliased s.asName schema) spec)
    | none =>
      (selectedRows ctx s (aliased s.asName schema)).bind fun (combined,rows) => finishSelect ctx s combined rows

def SelectStatement.isSimpleSelect (s : SelectStatement) : Bool :=
  s.where_.isNone && s.joins.isEmpty && s.groupBy.isEmpty && s.having.isNone && !s.distinct &&
    s.asOf.isNone && !s.columns.isEmpty && !s.columns.any (·.expr.containsAggregate)

def fastPathRows (s : SelectStatement) (schema : TableSchema) : Except String (List Joined) :=
  ((ctx.storage.readCurrentRows s.tableName).bind (filterRowsWithRLS ctx schema s.tableName)).map
    fun rows => rows.map (Joined.ofRow s.tableName)

def fastPathSelect (s : SelectStatement) : Except String Result :=
  match ctx.storage.tableSchema s.tableName with
  | none => .error ("table '"++s.tableName++"' does not exist")
  | some schema =>
    (fastPathRows ctx s (aliased s.asName schema)).bind
      (projectAll ctx s (aliased s.asName schema) s.columns)

def SelectStatement.fastPath (s : SelectStatement) : Bool := s.isSimpleSelect && !ctx.inTx && ctx.snapshotTxID == 0

def executeSelect (s : SelectStatement) : Except String Result :=
  if s.fastPath ctx then fastPathSelect ctx s
  else
    match if ctx.inTx then none else ctx.resultCache s with
    | some cached => .ok cached
    | none => executeSimpleSelect ctx s
end

section
variable {α : Type} {limit : Option Int} {offset : Int} {rows : List α}
/-- The numbers are not negative, and the sum of the clipped OFFSET and LIMIT is an `int`. -/
def PageFits (limit : Option Int) (offset : Int) (n : Nat) : Prop :=
  0 ≤ offset ∧ ∀ l ∈ limit, 0 ≤ l ∧ min offset n+l < 2^63

theorem drop_clipped (ho : 0 ≤ offset) : rows.drop (min offset rows.length).toNat = rows.drop offset.toNat := by
  rcases le_total offset rows.length with h | h
  · rw [min_eq_left h]
  · rw [min_eq_right h,Int.toNat_natCast,drop_length,drop_eq_nil_of_le (by omega)]

theorem pageRows_of_fits (h : PageFits limit offset rows.length) :
    pageRows limit offset rows = .ok (rowsFrom offset limit rows) := by
  obtain ⟨ho,hl⟩ := h
  cases limit with
  | none =>
    have hb : pageBounds none offset rows.length = (min offset rows.length,(rows.length : Int)) := rfl
    rw [pageRows,hb,if_pos (by dsimp only; omega),Int.toNat_natCast,take_length,drop_clipped ho]
    rfl
  | some l =>
    obtain ⟨hl0,hsum⟩ := hl l rfl
    have hmod : (min offset rows.length+l).bmod (2^64) = min offset rows.length+l := by
      rw [Int.bmod_def]
      omega
    have hb : pageBounds (some l) offset rows.length =
        (min offset rows.length,min (min offset rows.length+l) rows.length) := by rw [pageBounds,hmod]
    rw [pageRows,hb,if_pos (by dsimp only; omega),drop_take,drop_clipped ho]
    refine congrArg Except.ok ((take_eq_take_iff).2 ?_)
    rw [length_drop]
    omega

theorem fits_of_pageRows {page : List α} (hn : rows.length < 2^63) (hl : ∀ l ∈ limit, -2^63 ≤ l ∧ l < 2^63)
    (h : pageRows limit offset rows = .ok page) : PageFits limit offset rows.length := by
  rw [pageRows] at h
  split at h
  · next hbounds =>
    cases limit with
    | none => exact ⟨by simp only [pageBounds] at hbounds; omega,by simp⟩
    | some l =>
      simp only [pageBounds] at hbounds
      have hrange := hl l rfl
      have ho : 0 ≤ offset := by omega
      have hsum : min offset rows.length+l < 2^63 := by
        by_contra hbig
        have hmod : (min offset rows.length+l).bmod (2^64) = min offset rows.length+l-2^64 := by
          rw [Int.bmod_def]
          omega
        omega
      have hmod : (min offset rows.length+l).bmod (2^64) = min offset rows.length+l := by
        rw [Int.bmod_def]
        omega
      refine ⟨ho,fun m hm => ?_⟩
      obtain rfl : l = m := Option.some.inj hm
      exact ⟨by omega,hsum⟩
  · cases h

theorem partitionPage_iff {o : Int} {l : Option Int} : partitionPage limit offset rows = .ok (rowsFrom o l rows) ↔
    0 ≤ offset ∧ (∀ l ∈ limit, 0 ≤ l) ∧ rowsFrom offset limit rows = rowsFrom o l rows := by
  have hrest : (if (rows.length : Int) < offset then [] else rows.drop offset.toNat) = rows.drop offset.toNat := by
    split
    · next h => rw [drop_eq_nil_of_le (by omega)]
    · rfl
  simp only [partitionPage,hrest]
  by_cases ho : offset < 0
  · simp [ho]
  · cases limit with
    | none => simp [rowsFrom,not_lt.1 ho,ho]
    | some m =>
      by_cases hm : m < 0
      · have hlt : m < (rows.drop offset.toNat).length := by omega
        rw [if_neg ho]
        dsimp only
        rw [if_pos hlt,if_pos hm]
        exact iff_of_false (by simp) fun h => absurd (h.2.1 m rfl) (by omega)
      · have htake : (if m < (rows.drop offset.toNat).length then (rows.drop offset.toNat).take m.toNat
            else rows.drop offset.toNat) = (rows.drop offset.toNat).take m.toNat := by
          split
          · rfl
          · rw [take_of_length_le (by omega)]
        rw [if_neg ho,rowsFrom]
        simp only [hm,if_false,not_lt.1 ho,not_lt.1 hm,true_and,Option.mem_def,Option.some.injEq,forall_eq']
        rw [← apply_ite Except.ok,htake,Except.ok.injEq]

theorem dedupBy_of_nodup [BEq α] [LawfulBEq α] {seen : List α} (h : (seen++rows).Nodup) :
    dedupBy id rows seen = rows := by
  induction rows generalizing seen with
  | nil => rfl
  | cons a rows ih =>
    have hnew : a ∉ seen := fun hmem => (nodup_append.1 h).2.2 a hmem a mem_cons_self rfl
    rw [dedupBy,if_neg (by simpa using hnew),ih]
    exact (@perm_middle _ a seen rows).nodup_iff.1 h

theorem map_rowsFrom {β : Type} (f : α → β) : (rowsFrom offset limit rows).map f =
    rowsFrom offset limit (rows.map f) := by
  cases limit <;> simp [rowsFrom]

theorem rowsFrom_sublist : (rowsFrom offset limit rows).Sublist rows := by
  cases limit with
  | none => exact drop_sublist _ _
  | some l => exact (take_sublist _ _).trans (drop_sublist _ _)

def literalContext : Context where
  ev := ⟨id,fun
    | .value v, _, _, _ => .ok v
    | _, _, _, _ => .error "unsupported operand"⟩
  storage := ⟨fun _ => none,fun _ => .ok [],fun _ _ => .ok [],fun _ => .ok 0,fun _ _ => none,fun _ _ _ => none,
    fun _ _ => .ok [],fun _ _ _ => .ok [],fun _ _ => .ok []⟩
  dbName := "app"

def secondOnly : SelectStatement where
  tableName := "t"
  limit := some 0
  limitExpr := some (.value (.int 1))
  offset := some 1

end
end VaultDB.Sql
