import Mathlib.Algebra.Order.Ring.Int
import Mathlib.Tactic.Common
set_option autoImplicit false

/-!
Auto-increment counters, after `types/catalog.go`.

Between two calls the tables may change in any way; a restart forgets the counters.
-/

namespace VaultDB.Dml.AutoIncrement
open List
variable {F : Type}
inductive Cell (F : Type) where
  | null
  | int64 (v : Int)
  | float64 (f : F)
  | text (s : String)
  | other

structure Table (F : Type) where
  columns : List String
  rows : List (List (Cell F))

structure Column where
  db : String
  table : String
  name : String
  deriving DecidableEq

structure Conversions (F : Type) where
  toLower : String → String
  equalFold : String → String → Bool
  toInt64 : F → Int
  parseInt : String → Option Int

abbrev Tables (F : Type) := String → String → Except String (Table F)

structure Catalog (F : Type) where
  tables : Tables F
  counters : String → Option Int := fun _ => none

variable (L : Conversions F)
def number : Cell F → Option Int
  | .int64 v => some v
  | .float64 f => some (L.toInt64 f)
  | .text s => L.parseInt s
  | .null | .other => none

def wrap (n : Int) : Int := n.bmod (2^64)
def sequenceKey (c : Column) : String := L.toLower (c.db ++ "." ++ c.table ++ "." ++ c.name)

def readNumbers (tables : Tables F) (c : Column) : Except String (List Int) := do
  let t ← tables c.db c.table
  match t.columns.findIdx? (L.equalFold · c.name) with
  | none => .error s!"column '{c.name}' not found in table '{c.table}'"
  | some i => .ok (t.rows.filterMap fun row => row[i]?.bind (number L))

def initSequenceFromTable (tables : Tables F) (c : Column) : Except String Int := do
  let ns ← readNumbers L tables c
  .ok (ns.foldl (fun maxVal val => if maxVal < val then val else maxVal) 0)

def Catalog.setCounter (s : Catalog F) (key : String) (next : Int) : Catalog F :=
  { s with counters := fun k => if k = key then some next else s.counters k }

def Catalog.getNextAutoIncrement (s : Catalog F) (c : Column) : Except String Int × Catalog F :=
  let key := sequenceKey L c
  match s.counters key with
  | some next => (.ok next,s.setCounter key (wrap (next+1)))
  | none =>
    match initSequenceFromTable L s.tables c with
    | .error err => (.error err,s)
    | .ok maxVal => (.ok (wrap (maxVal+1)),s.setCounter key (wrap (wrap (maxVal+1)+1)))

inductive Step (F : Type) where
  | next (c : Column)
  | change (tables : Tables F)
  | restart

def Step.run (s : Catalog F) : Step F → Catalog F
  | .next c => (s.getNextAutoIncrement L c).2
  | .change tables => { s with tables := tables }
  | .restart => { s with counters := fun _ => none }

def Step.value (c : Column) (s : Catalog F) : Step F → Option Int
  | .next c' => if c' = c then (s.getNextAutoIncrement L c).1.toOption else none
  | _ => none

def values (c : Column) : List (Step F) → Catalog F → List (Int × Catalog F)
  | [], _ => []
  | a :: steps, s => (a.value L c s).toList.map (·,s)++values c steps (a.run L s)

def numbers (tables : Tables F) (c : Column) : List Int := (readNumbers L tables c).toOption.getD []

def Catalog.upcoming (s : Catalog F) (c : Column) : Int :=
  (s.counters (sequenceKey L c)).getD
    ((numbers L s.tables c).foldl (fun maxVal val => if maxVal < val then val else maxVal) 0+1)

/-- After the values `vs`: a column with a counter has only values below it, one without has a value
at least as large as each of `vs`; keys differ, and the counter does not overflow. -/
def Step.Careful (c : Column) (vs : List Int) (s : Catalog F) : Step F → Prop
  | .next c' => (sequenceKey L c' = sequenceKey L c → c' = c) ∧ (c' = c → s.upcoming L c < 2^63-1)
  | .change tables =>
    (∀ next ∈ s.counters (sequenceKey L c), ∀ n ∈ numbers L tables c, n < next) ∧
      (s.counters (sequenceKey L c) = none → ∀ v ∈ vs, ∃ n ∈ numbers L tables c, v ≤ n)
  | .restart => ∀ v ∈ vs, ∃ n ∈ numbers L s.tables c, v ≤ n

def CarefulRun (c : Column) : List Int → List (Step F) → Catalog F → Prop
  | _, [], _ => True
  | vs, a :: steps, s => a.Careful L c vs s ∧ CarefulRun c ((a.value L c s).toList++vs) steps (a.run L s)

structure Inv (c : Column) (vs : List Int) (s : Catalog F) : Prop where
  start : 0 < s.upcoming L c
  returned : ∀ v ∈ vs, v < s.upcoming L c
  present : ∀ n ∈ numbers L s.tables c, n < s.upcoming L c

section
variable {ns : List Int} {m : Int}
theorem le_foldl_max : m ≤ ns.foldl (fun maxVal val => if maxVal < val then val else maxVal) m := by
  induction ns generalizing m with
  | nil => exact Int.le_refl m
  | cons n ns ih =>
    rw [foldl_cons]
    split
    · next h => exact Int.le_trans (Int.le_of_lt h) ih
    · exact ih

theorem le_foldl_max_of_mem {n : Int} (h : n ∈ ns) :
    n ≤ ns.foldl (fun maxVal val => if maxVal < val then val else maxVal) m := by
  induction ns generalizing m with
  | nil => cases h
  | cons n' ns ih =>
    rw [foldl_cons]
    rcases mem_cons.1 h with rfl | h
    · split
      · exact le_foldl_max
      · next hle => exact Int.le_trans (Int.not_lt.1 hle) le_foldl_max
    · exact ih h
end

section
variable {L} {c : Column} {vs : List Int} {s : Catalog F} {a : Step F} {steps : List (Step F)}
theorem wrap_of_lt {n : Int} (h0 : 0 < n) (h : n < 2^63) : wrap n = n := Int.bmod_eq_of_le (by omega) (by omega)

theorem upcoming_of_none (h : s.counters (sequenceKey L c) = none) :
    s.upcoming L c = (numbers L s.tables c).foldl (fun maxVal val => if maxVal < val then val else maxVal) 0+1 := by
  rw [Catalog.upcoming,h,Option.getD_none]

theorem Inv.of_none (h : s.counters (sequenceKey L c) = none) (hvs : ∀ v ∈ vs, ∃ n ∈ numbers L s.tables c, v ≤ n) :
    Inv L c vs s := by
  have hmem : ∀ n ∈ numbers L s.tables c, n < s.upcoming L c := by
    intro n hn
    rw [upcoming_of_none h]
    exact Int.lt_add_one_of_le (le_foldl_max_of_mem hn)
  refine ⟨?_,?_,hmem⟩
  · rw [upcoming_of_none h]
    exact Int.lt_add_one_of_le le_foldl_max
  · intro v hv
    obtain ⟨n,hn,hle⟩ := hvs v hv
    exact Int.lt_of_le_of_lt hle (hmem n hn)

theorem getNextAutoIncrement_cases (h0 : 0 < s.upcoming L c) (h : s.upcoming L c < 2^63-1) :
    s.getNextAutoIncrement L c = (.ok (s.upcoming L c),s.setCounter (sequenceKey L c) (s.upcoming L c+1)) ∨
      ∃ err, s.getNextAutoIncrement L c = (.error err,s) := by
  have hwrap := wrap_of_lt (n := s.upcoming L c+1) (by omega) (by omega)
  have hwrap0 := wrap_of_lt h0 (by omega)
  cases hk : s.counters (sequenceKey L c) with
  | some next =>
    have hup : s.upcoming L c = next := by rw [Catalog.upcoming,hk,Option.getD_some]
    rw [hup] at hwrap ⊢
    left
    rw [Catalog.getNextAutoIncrement,hk]
    simp only [hwrap]
  | none =>
    rw [Catalog.getNextAutoIncrement,hk]
    cases hread : readNumbers L s.tables c with
    | error err => exact .inr ⟨err,by simp [initSequenceFromTable,hread,bind,Except.bind]⟩
    | ok ns =>
      have hup := upcoming_of_none hk
      simp only [numbers,hread,Except.toOption,Option.getD_some] at hup
      left
      simp only [initSequenceFromTable,hread,bind,Except.bind,← hup,hwrap0,hwrap]

theorem upcoming_setCounter (next : Int) : (s.setCounter (sequenceKey L c) next).upcoming L c = next := by
  simp [Catalog.upcoming,Catalog.setCounter]

theorem getNextAutoIncrement_counters {c' : Column} (h : sequenceKey L c ≠ sequenceKey L c') :
    (s.getNextAutoIncrement L c').2.tables = s.tables ∧
      (s.getNextAutoIncrement L c').2.counters (sequenceKey L c) = s.counters (sequenceKey L c) := by
  unfold Catalog.getNextAutoIncrement
  dsimp only
  split
  · exact ⟨rfl,if_neg h⟩
  · split
    · exact ⟨rfl,rfl⟩
    · exact ⟨rfl,if_neg h⟩

theorem Inv.step (h : Inv L c vs s) (ha : a.Careful L c vs s) :
    (∀ v ∈ a.value L c s, v = s.upcoming L c) ∧ Inv L c ((a.value L c s).toList++vs) (a.run L s) := by
  cases a with
  | next c' =>
    by_cases hc : c' = c
    · subst hc
      rcases getNextAutoIncrement_cases h.start (ha.2 rfl) with hok | ⟨err,herr⟩
      · simp only [Step.value,Step.run,hok,if_pos,Except.toOption]
        refine ⟨fun v hv => (Option.mem_some.1 hv).symm,⟨?_,?_,?_⟩⟩
        · rw [upcoming_setCounter]
          exact Int.add_pos_of_pos_of_nonneg h.start (by decide)
        · intro v hv
          rw [upcoming_setCounter]
          rcases mem_cons.1 hv with rfl | hv
          · exact Int.lt_succ _
          · exact Int.lt_trans (h.returned v hv) (Int.lt_succ _)
        · intro n hn
          rw [upcoming_setCounter]
          exact Int.lt_trans (h.present n hn) (Int.lt_succ _)
      · simp only [Step.value,Step.run,herr,if_pos,Except.toOption]
        exact ⟨nofun,h⟩
    · obtain ⟨htables,hcounters⟩ := getNextAutoIncrement_counters (s := s) fun hk => hc (ha.1 hk.symm)
      have hup : (s.getNextAutoIncrement L c').2.upcoming L c = s.upcoming L c := by
        rw [Catalog.upcoming,hcounters,htables,Catalog.upcoming]
      simp only [Step.value,if_neg hc,Step.run]
      refine ⟨nofun,⟨by rw [hup]; exact h.start,?_,?_⟩⟩
      · rw [hup]
        exact h.returned
      · rw [hup,htables]
        exact h.present
  | change tables =>
    refine ⟨nofun,?_⟩
    cases hk : s.counters (sequenceKey L c) with
    | none => exact Inv.of_none hk (ha.2 hk)
    | some next =>
      have hup : s.upcoming L c = next := by rw [Catalog.upcoming,hk,Option.getD_some]
      have hup' : ((Step.change tables).run L s).upcoming L c = next := by
        simp only [Step.run,Catalog.upcoming,hk,Option.getD_some]
      refine ⟨?_,?_,?_⟩
      · rw [hup',← hup]
        exact h.start
      · rw [hup',← hup]
        exact h.returned
      · rw [hup']
        exact ha.1 next hk
  | restart => exact ⟨nofun,Inv.of_none rfl ha⟩

theorem Inv.values (h : Inv L c vs s) (hrun : CarefulRun L c vs steps s) :
    (∀ p ∈ values L c steps s, (∀ v ∈ vs, v < p.1) ∧ ∀ n ∈ numbers L p.2.tables c, n < p.1) ∧
      (values L c steps s).Pairwise (·.1 < ·.1) := by
  induction steps generalizing vs s with
  | nil => exact ⟨nofun,.nil⟩
  | cons a steps ih =>
    obtain ⟨hvalue,hnext⟩ := h.step hrun.1
    obtain ⟨hall,hpair⟩ := ih hnext hrun.2
    have hrest : ∀ p ∈ AutoIncrement.values L c steps (a.run L s),
        (∀ v ∈ vs, v < p.1) ∧ ∀ n ∈ numbers L p.2.tables c, n < p.1 := fun p hp =>
      ⟨fun v hv => (hall p hp).1 v (mem_append_right _ hv),(hall p hp).2⟩
    cases hv : a.value L c s with
    | none => simpa [AutoIncrement.values,hv] using ⟨fun n t hp => hrest (n,t) hp,hpair⟩
    | some v =>
      have hup := hvalue v hv
      simp only [AutoIncrement.values,hv,Option.toList,map_cons,map_nil,singleton_append]
      refine ⟨?_,pairwise_cons.2 ⟨fun p hp => (hall p hp).1 v (by simp [hv]),hpair⟩⟩
      intro p hp
      rcases mem_cons.1 hp with rfl | hp
      · exact ⟨fun w hw => hup ▸ h.returned w hw,fun n hn => hup ▸ h.present n hn⟩
      · exact hrest p hp

/-- From a start of the server on: every value returned is none of the values then in the column,
and no two are the same. -/
theorem values_fresh {tables : Tables F} (hrun : CarefulRun L c [] steps { tables := tables }) :
    (∀ p ∈ values L c steps { tables := tables }, p.1 ∉ numbers L p.2.tables c) ∧
      ((values L c steps { tables := tables }).map Prod.fst).Nodup := by
  have hstart : Inv L c [] { tables := tables } := .of_none rfl nofun
  obtain ⟨hall,hpair⟩ := hstart.values hrun
  refine ⟨fun p hp hmem => Int.lt_irrefl _ ((hall p hp).2 _ hmem),?_⟩
  rw [List.Nodup,pairwise_map]
  exact hpair.imp Int.ne_of_lt
end

def plainConversions : Conversions Unit where
  toLower s := s
  equalFold a b := a == b
  toInt64 _ := 0
  parseInt _ := none

def ids (ns : List Int) : Tables Unit := fun _ _ => .ok ⟨["id"],ns.map fun n => [.int64 n]⟩
def idColumn : Column := ⟨"d","t","id"⟩

/-- Someone inserts the number that comes next. -/
theorem value_already_present : ∃ s, (2, s) ∈ values plainConversions idColumn
    [.next idColumn, .change (ids [1, 2]), .next idColumn] { tables := ids [] } ∧
      2 ∈ numbers plainConversions s.tables idColumn :=
  ⟨_,.tail _ (.head _),by decide⟩

theorem values_fresh_restart : ((values plainConversions idColumn
      [.next idColumn, .change (ids [1]), .restart, .next idColumn]
    { tables := ids [] }).map Prod.fst).Nodup := by
  have hcareful : CarefulRun plainConversions idColumn [] [.next idColumn,.change (ids [1]),.restart,.next idColumn]
      { tables := ids [] } :=
    ⟨⟨fun _ => rfl,fun _ => by decide⟩,⟨by simp; decide,nofun⟩,by unfold Step.Careful; decide,
      ⟨fun _ => rfl,fun _ => by decide⟩,trivial⟩
  exact (values_fresh hcareful).2

end VaultDB.Dml.AutoIncrement
