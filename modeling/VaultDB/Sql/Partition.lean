import Mathlib.Algebra.Order.Ring.Nat
import VaultDB.Sql.Syntax
set_option autoImplicit false

/-!
Routing of rows to partitions and pruning by a WHERE clause, after `storage/partition.go`.

The order of floats, given by their texts, is a parameter.
-/

namespace VaultDB.Sql
open List

structure Partition where
  name : String
  tableName : String
  bound : Option Value
  deriving DecidableEq, Repr

def PartitionSpec.tables (spec : PartitionSpec) (tableName : String) : List Partition :=
  match spec.type with
  | .range => spec.partitions.map fun d => ⟨d.name,tableName++"_"++d.name,d.bound⟩
  | .hash =>
    (List.range (if spec.numParts = 0 then 1 else spec.numParts)).map fun i =>
      ⟨"p"++toString i,tableName++"_p"++toString i,none⟩

structure Date where
  year : Nat
  month : Nat
  day : Nat
  deriving DecidableEq, Repr

def daysIn (month year : Nat) : Nat :=
  if month = 2 then if year%4 = 0 ∧ (year%100 ≠ 0 ∨ year%400 = 0) then 29 else 28
  else if month = 4 ∨ month = 6 ∨ month = 9 ∨ month = 11 then 30
  else 31

def digitsToNat (cs : List Char) : Option Nat :=
  if cs.all Char.isDigit then some (cs.foldl (fun n c => 10*n+(c.toNat - '0'.toNat)) 0) else none

def parseDate (s : String) : Option Date :=
  match s.toList with
  | [y₁,y₂,y₃,y₄,'-',m₁,m₂,'-',d₁,d₂] =>
    match digitsToNat [y₁,y₂,y₃,y₄], digitsToNat [m₁,m₂], digitsToNat [d₁,d₂] with
    | some y, some m, some d =>
      if 1 ≤ m ∧ m ≤ 12 ∧ 1 ≤ d ∧ d ≤ daysIn m y then some ⟨y,m,d⟩ else none
    | _, _, _ => none
  | _ => none

inductive Comparable where
  | int (n : Int)
  | float (repr : String)
  | text (s : String)
  | date (source : String) (d : Date)
  deriving DecidableEq, Repr

def Value.printed : Value → String
  | .null => "<nil>"
  | v => valueToString v

def Value.comparable : Value → Comparable
  | .int n => .int n
  | .float r => .float r
  | .text s =>
    match parseDate s with
    | some d => .date s d
    | none => .text s
  | v => .text v.printed

/-- `%v` of a value that is compared; a date is no longer the text it came from. -/
def Comparable.printed : Comparable → String
  | .int n => toString n
  | .float r => r
  | .text s => s
  | .date s _ => s++" 00:00:00 +0000 UTC"

inductive PruneOp where
  | eq | ne | lt | gt | le | ge
  deriving DecidableEq, Repr

def BinaryOp.prune : BinaryOp → Option PruneOp
  | .eq => some .eq
  | .ne => some .ne
  | .lt => some .lt
  | .gt => some .gt
  | .le => some .le
  | .ge => some .ge
  | _ => none

def PruneOp.binary : PruneOp → BinaryOp
  | .eq => .eq
  | .ne => .ne
  | .lt => .lt
  | .gt => .gt
  | .le => .le
  | .ge => .ge

theorem BinaryOp.eq_binary_of_prune {op : BinaryOp} {o : PruneOp} (h : op.prune = some o) : op = o.binary := by
  cases op <;> simp [BinaryOp.prune] at h <;> subst h <;> rfl

structure Comparison where
  op : PruneOp
  val : Comparable
  deriving DecidableEq, Repr

def fnv32a (s : String) : Nat := s.toUTF8.toList.foldl (fun h b => ((h ^^^ b.toNat)*16777619)%2^32) 2166136261

section
variable (toLower : String → String) (floatLt : String → String → Bool) {t : String}
/-- Two values of different kinds count as equal. -/
def compareComparable : Comparable → Comparable → Ordering
  | .int a, .int b => compare a b
  | .float a, .float b => if floatLt a b then .lt else if floatLt b a then .gt else .eq
  | .text a, .text b => compareText a b
  | .date _ a, .date _ b => (compare a.year b.year).then ((compare a.month b.month).then (compare a.day b.day))
  | _, _ => .eq

def findKeyColumnIndex (spec : PartitionSpec) (schema : TableSchema) : Option Nat :=
  spec.columns.head?.bind fun key => schema.columns.findIdx? fun col => toLower col.name == toLower key

def findRangePartition (val : Value) : List Partition → Option String
  | [] => none
  | p :: parts =>
    match p.bound with
    | none => some p.tableName
    | some b =>
      if compareComparable floatLt val.comparable b.comparable = .lt then some p.tableName
      else findRangePartition val parts

def hashPartition (printed : String) (parts : List Partition) : Option Partition :=
  parts[fnv32a printed%parts.length]?

def insertRoute (schema : TableSchema) (spec : PartitionSpec) (row : Row) : Except String String :=
  match findKeyColumnIndex toLower spec schema with
  | none => .error ("partition key column '"++spec.columns.head?.getD ""++"' not found")
  | some i =>
    match row[i]? with
    | none => .error "row has fewer columns than partition key"
    | some val =>
      match spec.type with
      | .range =>
        match findRangePartition floatLt val (spec.tables schema.name) with
        | some t => .ok t
        | none => .error ("no partition found for value "++val.printed)
      | .hash =>
        match hashPartition val.printed (spec.tables schema.name) with
        | some p => .ok p.tableName
        | none => .error "index out of range"

def checkBinaryComparison (spec : PartitionSpec) (op : PruneOp) : Expr → Expr → List Comparison
  | .columnRef _ name, .value v =>
    if spec.columns.head?.any fun key => toLower name == toLower key then [⟨op,v.comparable⟩] else []
  | _, _ => []

/-- An empty list means that nothing can be said. -/
def extractComparisons (spec : PartitionSpec) : Expr → List Comparison
  | .binary op l r =>
    match op.prune with
    | some o => checkBinaryComparison toLower spec o l r
    | none => []
  | .and l r =>
    if (extractComparisons spec l).isEmpty || (extractComparisons spec r).isEmpty then []
    else extractComparisons spec l++extractComparisons spec r
  | _ => []

def rangeOverlapsComp (lower upper : Option Comparable) (c : Comparison) : Bool :=
  match c.op with
  | .eq =>
    !(upper.any fun u => compareComparable floatLt c.val u != .lt) &&
      !(lower.any fun l => compareComparable floatLt c.val l == .lt)
  | .lt => !(lower.any fun l => compareComparable floatLt l c.val != .lt)
  | .le => !(lower.any fun l => compareComparable floatLt l c.val == .gt)
  | .gt => !(upper.any fun u => compareComparable floatLt u c.val != .gt)
  | .ge => !(upper.any fun u => compareComparable floatLt u c.val != .gt)
  | .ne => true

def withLower : Option Comparable → List Partition → List (Option Comparable × Partition)
  | _, [] => []
  | lower, p :: parts => (lower,p) :: withLower (p.bound.map Value.comparable) parts

def pruneRange (comps : List Comparison) (parts : List Partition) : List Partition :=
  let kept := ((withLower none parts).filter fun x =>
    comps.all (rangeOverlapsComp floatLt x.1 (x.2.bound.map Value.comparable))).map Prod.snd
  if kept.isEmpty then parts else kept

def pruneHash (comps : List Comparison) (parts : List Partition) : List Partition :=
  match comps.find? fun c => c.op == .eq with
  | some c => (hashPartition c.val.printed parts).toList
  | none => parts

def prunePartitions (spec : PartitionSpec) (tableName : String) (where_ : Option Expr) : List Partition :=
  let parts := spec.tables tableName
  match where_ with
  | none => parts
  | some w =>
    let comps := extractComparisons toLower spec w
    if comps.isEmpty then parts
    else
      match spec.type with
      | .range => pruneRange floatLt comps parts
      | .hash => pruneHash comps parts

theorem map_snd_withLower (lower : Option Comparable) (parts : List Partition) :
    (withLower lower parts).map Prod.snd = parts := by
  induction parts generalizing lower with
  | nil => rfl
  | cons p parts ih => simp [withLower,ih]

theorem pruneRange_sublist (comps : List Comparison) (parts : List Partition) :
    (pruneRange floatLt comps parts).Sublist parts := by
  simp only [pruneRange]
  split
  · exact .refl _
  · have h := (filter_sublist (l := withLower none parts) (p := fun x => comps.all
      (rangeOverlapsComp floatLt x.1 (x.2.bound.map Value.comparable)))).map Prod.snd
    rwa [map_snd_withLower] at h

theorem pruneHash_sublist (comps : List Comparison) (parts : List Partition) :
    (pruneHash comps parts).Sublist parts := by
  unfold pruneHash hashPartition
  split
  · next c _ =>
    cases h : parts[fnv32a c.val.printed%parts.length]? with
    | none => exact nil_sublist _
    | some p => exact singleton_sublist.2 (mem_of_getElem? h)
  · exact .refl _

theorem prunePartitions_sublist (spec : PartitionSpec) (tableName : String) (where_ : Option Expr) :
    (prunePartitions toLower floatLt spec tableName where_).Sublist (spec.tables tableName) := by
  simp only [prunePartitions]
  split
  · exact .refl _
  · split
    · exact .refl _
    · split
      · exact pruneRange_sublist ..
      · exact pruneHash_sublist ..

theorem mem_findRangePartition {val : Value} {parts : List Partition}
    (h : findRangePartition floatLt val parts = some t) : t ∈ parts.map Partition.tableName := by
  induction parts with
  | nil => simp [findRangePartition] at h
  | cons p parts ih =>
    simp only [findRangePartition] at h
    split at h
    · simp_all
    · split at h
      · simp_all
      · exact mem_cons_of_mem _ (ih h)

theorem insertRoute_mem {schema : TableSchema} {spec : PartitionSpec} {row : Row}
    (h : insertRoute toLower floatLt schema spec row = .ok t) :
    t ∈ (spec.tables schema.name).map Partition.tableName := by
  unfold insertRoute at h
  split at h
  · cases h
  · split at h
    · cases h
    · split at h
      · split at h
        · next hr =>
          cases h
          exact mem_findRangePartition floatLt hr
        · cases h
      · split at h
        · next p hp =>
          cases h
          exact mem_map_of_mem (mem_of_getElem? hp)
        · cases h
end
end VaultDB.Sql
