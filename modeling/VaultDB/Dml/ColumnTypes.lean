import VaultDB.Storage.Written
import VaultDB.Storage.ForUpdate
set_option autoImplicit false

/-!
`INSERT`, upsert, `UPDATE` and `MERGE` one after the other, and the types of the values they store.

`InsertRows` and `UpdateRows` normalize what they get, `UpdateRowsVM` and `UpdateRowsDirect` do not.
Expressions are given by their values; foreign keys, NOT NULL, CHECK and UNIQUE are parameters,
triggers and RETURNING are left out.
-/

namespace VaultDB.Dml
open Lib Storage Stmt List Option
variable {v : Value} {st : Store} {n : Nat}
abbrev Session (α : Type) := ExceptT String (StateT Store Option) α

namespace Session
variable {α : Type}
def call (k : TableKey) (x : Exec α) : Session α := ExceptT.mk fun st => st.call k x
def orThrow (x : Except String α) : Session α := ExceptT.mk fun st => some (x,st)

def tableSchema (k : TableKey) : Session TableSchema := ExceptT.mk fun st =>
  some (((st.table k).map fun c => Except.ok c.info.schema).getD
    (.error ("table '"++k.table++"' does not exist")),st)

def readCurrentRows (R : RowOps Value) (k : TableKey) : Session (List (List Value)) := ExceptT.mk fun st =>
  some (((st.table k).map fun c => Except.ok (c.live.filterMap fun y => R.decodeRow c.info.schema y.2)).getD
    (.error ("table '"++k.table++"' does not exist")),st)

end Session

open Session

structure Assignment where
  column : String
  value : Sql.Expr

section
variable (R : RowOps Value)
def setColumn (cols : List ColumnSchema) (name : String) (v : Value) (row : List Value) : List Value :=
  match cols.zipIdx.find? fun c => R.toLower c.1.name == R.toLower name && decide (c.2 < row.length) with
  | some c => row.set c.2 v
  | none => row

def assignColumns (eval : Assignment → Except String Value) (cols : List ColumnSchema) :
    List Assignment → List Value → Except String (List Value)
  | [], row => .ok row
  | a :: as, row =>
    match eval a with
    | .error e => .error e
    | .ok v => assignColumns eval cols as (setColumn R cols a.column v row)
end

structure Update where
  assignments : List Assignment
  evalOperand : Sql.Expr → List Value → Except String Value
  rowMatches : List Value → Except String Bool
  enforceRow : List Value → Except String Unit
  validate : List Int → List (List Value) → Except String Unit
  positions : Option (List Int)

namespace Update
variable (R : RowOps Value) (u : Update)
def matchFn (sc : TableSchema) (t : Tuple) : Except String Bool :=
  match R.decodeRow sc t.data with
  | none => .error "decode row"
  | some row => u.rowMatches row

def updateFn (sc : TableSchema) (oldRow : List Value) : Except String (List Value) :=
  match assignColumns R (fun a => (u.evalOperand a.value oldRow).mapError fun e => "column '"++a.column++"': "++e)
      sc.columns u.assignments oldRow with
  | .error e => .error e
  | .ok newRow =>
    match u.enforceRow newRow with
    | .error e => .error e
    | .ok _ => .ok newRow

def executeImmediate (k : TableKey) : Session Int := do
  let sc ← tableSchema k
  call k (updateRowsVM R k u.positions (u.matchFn R sc) (u.updateFn R sc) u.validate)

end Update

inductive ConflictAction where
  | nothing
  | update
  deriving DecidableEq, Repr

structure Upsert where
  rows : List (List Value)
  columns : List String
  action : ConflictAction
  assignments : List Assignment
  evalOperand : Sql.Expr → List Value → Except String Value

namespace Upsert
variable (R : RowOps Value) (u : Upsert)
def conflictCols (cols : List ColumnSchema) : List String :=
  if u.columns ≠ [] then u.columns
  else if (cols.filter (·.primaryKey)) ≠ [] then (cols.filter (·.primaryKey)).map ColumnSchema.name
  else cols.map ColumnSchema.name

def buildUpsertConflictKey (cols : List ColumnSchema) (row : List Value) : String :=
  "\x00".intercalate ((u.conflictCols cols).map fun name =>
    -- of columns with one name the map has the last
    match (cols.zipIdx.filter fun c => R.toLower c.1.name == R.toLower name).getLast? with
    | some c => (row[c.2]?.map Sql.valueToString).getD ""
    | none => "")

def updates (cols : List ColumnSchema) (row : List Value) : Except String (List (String × Value)) :=
  if u.assignments = [] then
    .ok (((cols.zip row).filter fun x => x.2 ≠ .null).map fun x => (x.1.name,x.2))
  else u.assignments.mapM fun a => (u.evalOperand a.value row).map fun v => (a.column,v)

def upsertRows (k : TableKey) (cols : List ColumnSchema) : List (List Value) → List (String × Nat) →
    Nat → Session Int
  | [], _, _ => pure 0
  | row :: rows, conflicts, n =>
    match conflicts.lookup (u.buildUpsertConflictKey R cols row) with
    | some i =>
      match u.action with
      | .nothing => upsertRows k cols rows conflicts n
      | .update => do
        let us ← orThrow (u.updates cols row)
        let _ ← call k (updateRows R k [(i : Int)] us)
        let m ← upsertRows k cols rows conflicts n
        pure (m+1)
    | none => do
      let _ ← call k (insertRows R k [row])
      let m ← upsertRows k cols rows ((u.buildUpsertConflictKey R cols row,n) :: conflicts) (n+1)
      pure (m+1)

def executeUpsert (k : TableKey) : Session Int := do
  let sc ← tableSchema k
  let existing ← readCurrentRows R k
  u.upsertRows R k sc.columns u.rows
    (existing.zipIdx.map fun x => (u.buildUpsertConflictKey R sc.columns x.1,x.2)).reverse existing.length

end Upsert

/-- A MERGE with its source rows: the keys of both sides if its condition is an equality of columns,
the condition, and the row inserted for a source row without a match. -/
structure Merge where
  sourceRows : List (List Value)
  hashKeys : Option ((List Value → String) × (List Value → String))
  onCondition : List Value → Except String Bool
  whenMatched : Option (List Assignment)
  whenNotMatched : Option (List Value → Except String (List Value))
  evalOperand : Sql.Expr → List Value → Except String Value

namespace Merge
variable (R : RowOps Value) (m : Merge)
def newRow (cols : List ColumnSchema) (source target : List Value) (assignments : List Assignment) :
    Except String (List Value) :=
  assignColumns R (fun a => m.evalOperand a.value (target++source)) cols assignments target

def onRows (source target : List Value) : Bool :=
  match m.onCondition (target++source) with
  | .ok b => b
  | .error _ => false

def pendingUpdates (cols : List ColumnSchema) (source : List Value) :
    List (List Value × Nat) → Except String (List (Int × List Value))
  | [] => .ok []
  | (target,i) :: targets =>
    match m.whenMatched with
    | none => pendingUpdates cols source targets
    | some assignments =>
      match m.newRow R cols source target assignments with
      | .error e => .error e
      | .ok row =>
        match pendingUpdates cols source targets with
        | .error e => .error e
        | .ok us => .ok ((i,row) :: us)

/-- `executeMergeHashJoin`: the target rows with the key of a source row; `none` when there is none
with this key. -/
def hashMatches (keys : (List Value → String) × (List Value → String)) (targets : List (List Value))
    (source : List Value) : Option (List (List Value × Nat)) :=
  let bucket := targets.zipIdx.filter fun x => keys.1 x.1 == keys.2 source
  if bucket = [] then none else some (bucket.filter fun x => m.onRows source x.1)

/-- `executeMergeNestedLoop`: the first match, at the first position with an equal row. -/
def loopMatches (targets : List (List Value)) (source : List Value) : Option (List (List Value × Nat)) :=
  match targets.find? fun target => m.onRows source target with
  | none => none
  | some target => some ((targets.findIdx? (· == target)).toList.map fun i => (target,i))

def matchesOf (targets : List (List Value)) (source : List Value) : Option (List (List Value × Nat)) :=
  match m.hashKeys with
  | some keys => m.hashMatches keys targets source
  | none => m.loopMatches targets source

def mergeRows (k : TableKey) (cols : List ColumnSchema) (targets : List (List Value)) :
    List (List Value) → Session (List (Int × List Value))
  | [] => pure []
  | source :: sources =>
    match m.matchesOf targets source with
    | some ts => do
      let us ← orThrow (m.pendingUpdates R cols source ts)
      let rest ← mergeRows k cols targets sources
      pure (us++rest)
    | none =>
      match m.whenNotMatched with
      | none => mergeRows k cols targets sources
      | some build => do
        let row ← orThrow (build source)
        let _ ← call k (insertRows R k [row])
        mergeRows k cols targets sources

def executeMerge (k : TableKey) : Session Int := do
  let targets ← readCurrentRows R k
  let sc ← tableSchema k
  let us ← m.mergeRows R k sc.columns targets m.sourceRows
  if List.isEmpty us then pure 0 else call k (updateRowsDirect R k (us.map Prod.fst) (us.map Prod.snd))

end Merge

inductive DmlStatement where
  | insert (buildRows : TableSchema → Except String (List (List Value)))
  | upsert (u : Upsert)
  | update (u : Update)
  | merge (m : Merge)

def DmlStatement.execute (R : RowOps Value) (k : TableKey) : DmlStatement → Session Int
  | .insert buildRows => do
    let sc ← tableSchema k
    let rows ← orThrow (buildRows sc)
    call k (insertRows R k rows)
  | .upsert u => u.executeUpsert R k
  | .update u => u.executeImmediate R k
  | .merge m => m.executeMerge R k

section
variable (R : RowOps Value) {row new : List Value}
def Fixed (v : Value) (col : ColumnSchema) : Prop := v = .null ∨ R.normalizeValue v col = .ok v

def WellTyped (sc : TableSchema) (row : List Value) : Prop :=
  ∀ (i : Nat) v col, row[i]? = some v → sc.columns[i]? = some col → Fixed R v col

def TypedData (sc : TableSchema) (d : List UInt8) : Prop := ∀ row, R.decodeRow sc d = some row → WellTyped R sc row

structure Settles : Prop where
  normalized : ∀ {v w col}, R.normalizeValue v col = .ok w → Fixed R w col
  stored : ∀ {sc row d row'}, R.encodeRow row = .ok d → R.decodeRow sc d = some row' →
    ∀ (i : Nat) v', row'[i]? = some v' → ∃ v, row[i]? = some v ∧ ∀ col, Fixed R v col → Fixed R v' col

variable {R} {sc : TableSchema}
theorem WellTyped.encodesIn (hR : Settles R) (h : WellTyped R sc row) :
    EncodesIn R (fun t => TypedData R sc t.data) row := by
  intro x t ht row' hrow' i v' col hv' hcol
  obtain ⟨v,hv,hfix⟩ := hR.stored (encodePageTuple_ok ht).2.1 hrow' i v' hv'
  exact hfix col (h i v col hv hcol)

theorem wellTyped_normalizeRow (hR : Settles R) {ns : List Value} {cols : List ColumnSchema}
    (h : normalizeRow R row cols n = .ok ns) : WellTyped R ⟨cols⟩ ns := by
  induction cols generalizing n ns with
  | nil =>
    cases h
    intro i v col hv
    simp at hv
  | cons c cols ih =>
    simp only [normalizeRow] at h
    split at h
    · cases h
    · next w hw =>
      split at h
      · cases h
      · next ws hws =>
        cases h
        intro i v col hv hcol
        cases i with
        | zero =>
          cases hv
          cases hcol
          exact hR.normalized hw
        | succ i => exact ih hws i v col (by simpa using hv) (by simpa using hcol)

theorem WellTyped.set (h : WellTyped R sc row) {i : Nat}
    (hv : ∀ col, sc.columns[i]? = some col → Fixed R v col) : WellTyped R sc (row.set i v) := by
  intro j w col hw hcol
  rw [List.getElem?_set] at hw
  split at hw
  · next hij =>
    subst hij
    split at hw
    · cases hw
      exact hv col hcol
    · cases hw
  · exact h j w col hw hcol

theorem wellTyped_applyUpdates (hR : Settles R) {updates : List (String × Value)}
    (hrow : WellTyped R sc row) (h : applyUpdates R sc.columns updates row = .ok new) : WellTyped R sc new := by
  induction updates generalizing row with
  | nil =>
    cases h
    exact hrow
  | cons x updates ih =>
    obtain ⟨name,val⟩ := x
    simp only [applyUpdates] at h
    split at h
    · cases h
    · next col idx hcol =>
      have hmem := (mem_filter.1 (mem_of_getLast? hcol)).1
      split at h
      · cases h
      · next v hv =>
        split at h
        · refine ih (hrow.set fun col' hcol' => ?_) h
          rw [mem_zipIdx_iff_getElem?.1 hmem] at hcol'
          cases hcol'
          exact hR.normalized hv
        · cases h

def Assigns (R : RowOps Value) (sc : TableSchema) (eval : Sql.Expr → Except String Value)
    (as : List Assignment) : Prop :=
  ∀ a ∈ as, ∀ v, eval a.value = .ok v → ∀ col ∈ sc.columns, R.toLower col.name = R.toLower a.column → Fixed R v col

theorem WellTyped.setColumn (h : WellTyped R sc row) {name : String}
    (hv : ∀ col ∈ sc.columns, R.toLower col.name = R.toLower name → Fixed R v col) :
    WellTyped R sc (setColumn R sc.columns name v row) := by
  unfold Dml.setColumn
  split
  · next c hc =>
    have hmem := mem_zipIdx_iff_getElem?.1 (mem_of_find?_eq_some hc)
    have hname := List.find?_some hc
    refine h.set fun col hcol => ?_
    rw [hmem] at hcol
    cases hcol
    refine hv _ (mem_of_getElem? hmem) ?_
    simp only [Bool.and_eq_true,beq_iff_eq] at hname
    exact hname.1
  · exact h

theorem WellTyped.assignColumns {eval : Assignment → Except String Value} {eval' : Sql.Expr → Except String Value}
    (heval : ∀ a v, eval a = .ok v → eval' a.value = .ok v) {as : List Assignment} (has : Assigns R sc eval' as)
    (hrow : WellTyped R sc row) (h : assignColumns R eval sc.columns as row = .ok new) : WellTyped R sc new := by
  induction as generalizing row with
  | nil =>
    cases h
    exact hrow
  | cons a as ih =>
    unfold Assigns at has
    rw [forall_mem_cons] at has
    simp only [Dml.assignColumns] at h
    split at h
    · cases h
    · next v hv => exact ih has.2 (hrow.setColumn (has.1 v (heval a v hv))) h
end

section
variable {R : RowOps Value} {α β : Type} {I : Store → Prop} {Q : α → Prop} {k : TableKey}
  {st' : Store} {out : Except String Int} {targets : List (List Value)} {m : Merge}
def Session.Keeps (I : Store → Prop) (x : Session α) (Q : α → Prop) : Prop :=
  ∀ st out st', I st → x.run.run st = some (out,st') → I st' ∧ ∀ a, out = .ok a → Q a

namespace Session
variable {x : Session α}
theorem keeps_pure {a : α} (h : Q a) : Session.Keeps I (pure a) Q := by
  intro st out st' hst hrun
  cases hrun
  refine ⟨hst,fun b hb => ?_⟩
  cases hb
  exact h

theorem Keeps.bind {f : α → Session β} {Q' : β → Prop} (hx : Session.Keeps I x Q)
    (hf : ∀ a, Q a → Session.Keeps I (f a) Q') : Session.Keeps I (x >>= f) Q' := by
  intro st out st' hst hrun
  rw [ExceptT.run_bind,StateT.run_bind] at hrun
  obtain ⟨⟨r,st1⟩,hr,hrun⟩ := bind_eq_some_iff.1 hrun
  obtain ⟨hst1,hq⟩ := hx st r st1 hst hr
  cases r with
  | ok a => exact hf a (hq a rfl) st1 out st' hst1 hrun
  | error e =>
    cases hrun
    refine ⟨hst1,fun b hb => ?_⟩
    cases hb

theorem keeps_orThrow {x : Except String α} (h : ∀ a, x = .ok a → Q a) : Session.Keeps I (orThrow x) Q := by
  intro st out st' hst hrun
  cases hrun
  exact ⟨hst,h⟩

end Session

variable {sc : TableKey → TableSchema}
def Typed (R : RowOps Value) (sc : TableKey → TableSchema) (st : Store) : Prop :=
  st.RowsIn sc fun k t => TypedData R (sc k) t.data

theorem keeps_tableSchema : Session.Keeps (Typed R sc) (tableSchema k) fun s => s = sc k := by
  intro st out st' hst hrun
  cases hrun
  refine ⟨hst,fun a ha => ?_⟩
  cases htab : st.table k with
  | none => simp [htab] at ha
  | some c =>
    simp only [htab,map_some,getD_some,Except.ok.injEq] at ha
    rw [← ha]
    exact (hst k c htab).1

theorem keeps_readCurrentRows :
    Session.Keeps (Typed R sc) (readCurrentRows R k) fun rows => ∀ row ∈ rows, WellTyped R (sc k) row := by
  intro st out st' hst hrun
  cases hrun
  refine ⟨hst,fun rows hrows row hrow => ?_⟩
  cases htab : st.table k with
  | none => simp [htab] at hrows
  | some c =>
    simp only [htab,map_some,getD_some,Except.ok.injEq] at hrows
    rw [← hrows] at hrow
    obtain ⟨⟨loc,d⟩,hy,hdec⟩ := mem_filterMap.1 hrow
    obtain ⟨t,ht,-,rfl⟩ := Contents.mem_live_iff.1 hy
    rw [(hst k c htab).1] at hdec
    exact (hst k c htab).2 loc t ht row hdec

section
variable (hR : Settles R)
include hR
theorem keeps_insertCall (rows : List (List Value)) :
    Session.Keeps (Typed R sc) (Session.call k (insertRows R k rows)) fun _ => True := by
  intro st out st' hst hrun
  refine ⟨(hst.call (keeps_insertRows fun row _ ns hns => ?_) hrun).2,fun _ _ => trivial⟩
  exact (wellTyped_normalizeRow hR hns).encodesIn hR

theorem keeps_updateCall (indices : List Int) (updates : List (String × Value)) :
    Session.Keeps (Typed R sc) (Session.call k (updateRows R k indices updates)) fun _ => True := by
  intro st out st' hst hrun
  refine ⟨(hst.call (keeps_updateRows (.data _) fun row new hread hnew => ?_) hrun).2,fun _ _ => trivial⟩
  obtain ⟨d,hd,hdec⟩ := hread
  exact (wellTyped_applyUpdates hR (hd row hdec) hnew).encodesIn hR

theorem keeps_directCall (indices : List Int) {newValues : List (List Value)}
    (h : ∀ row ∈ newValues, WellTyped R (sc k) row) :
    Session.Keeps (Typed R sc) (Session.call k (updateRowsDirect R k indices newValues)) fun _ => True := by
  intro st out st' hst hrun
  exact ⟨(hst.call (keeps_updateRowsDirect (.data _) fun nv hnv => (h nv hnv).encodesIn hR) hrun).2,
    fun _ _ => trivial⟩

theorem keeps_upsertRows (u : Upsert) (cols : List ColumnSchema) {rows : List (List Value)}
    {conflicts : List (String × Nat)} :
    Session.Keeps (Typed R sc) (u.upsertRows R k cols rows conflicts n) fun _ => True := by
  induction rows generalizing conflicts n with
  | nil => exact keeps_pure trivial
  | cons row rows ih =>
    rw [Upsert.upsertRows]
    split
    · split
      · exact ih
      · refine (Session.keeps_orThrow fun _ _ => trivial).bind fun us _ =>
          (keeps_updateCall hR _ us).bind fun _ _ => ?_
        exact ih.bind fun _ _ => keeps_pure trivial
    · exact (keeps_insertCall hR [row]).bind fun _ _ => ih.bind fun _ _ => keeps_pure trivial

theorem keeps_executeUpsert (u : Upsert) : Session.Keeps (Typed R sc) (u.executeUpsert R k) fun _ => True :=
  keeps_tableSchema.bind fun _ _ => keeps_readCurrentRows.bind fun _ _ => keeps_upsertRows hR u _

def RowOf (R : RowOps Value) (st : Store) (k : TableKey) (sc : TableSchema) (row : List Value) : Prop :=
  ∃ c loc t, st.table k = some c ∧ c.info.schema = sc ∧ c.tuple loc = some t ∧ R.decodeRow sc t.data = some row

/-- UPDATE and MERGE assign values of the types of their columns, for every row or pair of rows they
match. -/
def DmlStatement.Fits (R : RowOps Value) (k : TableKey) (st : Store) : DmlStatement → Prop
  | .insert _ => True
  | .upsert _ => True
  | .update u => ∀ sc row, RowOf R st k sc row → u.rowMatches row = .ok true →
      Assigns R sc (fun e => u.evalOperand e row) u.assignments
  | .merge m =>
    ∀ sc target, RowOf R st k sc target → ∀ source ∈ m.sourceRows, m.onCondition (target++source) = .ok true →
      ∀ as, m.whenMatched = some as → Assigns R sc (fun e => m.evalOperand e (target++source)) as

theorem typed_update {u : Update} (hst : Typed R sc st)
    (hfits : (DmlStatement.update u).Fits R k st) (hrun : (u.executeImmediate R k).run.run st = some (out,st')) :
    Typed R sc st' := by
  rw [Update.executeImmediate,ExceptT.run_bind,StateT.run_bind] at hrun
  obtain ⟨⟨r,st1⟩,hr,hrun⟩ := bind_eq_some_iff.1 hrun
  have hsc := (keeps_tableSchema (R := R) (k := k) st r st1 hst hr).2
  cases hr
  cases htab : ((st.table k).map fun c => Except.ok c.info.schema).getD
    (.error ("table '"++k.table++"' does not exist")) with
  | error e =>
    rw [htab] at hrun
    cases hrun
    exact hst
  | ok s =>
    rw [htab] at hrun hsc
    obtain rfl := hsc s rfl
    -- the rows it reads are those of the state it starts in
    have hread : st.RowsIn sc fun k t => TypedData R (sc k) t.data ∧
        ∃ c loc t', st.table k = some c ∧ c.tuple loc = some t' ∧ t'.data = t.data :=
      fun k c hc => ⟨(hst k c hc).1,fun loc t ht => ⟨(hst k c hc).2 loc t ht,c,loc,t,hc,ht,rfl⟩⟩
    refine Store.RowsIn.updateRowsVM ⟨⟨fun _ _ => id,fun _ => id⟩,fun _ _ => id⟩ (.data _) hread
      (fun _ _ hd => hd.1) (fun row new hmatched hnew => ?_) hrun
    obtain ⟨t,⟨htyped,c,loc,t',hc,ht',hdata⟩,hmatch,hdec⟩ := hmatched
    rw [Update.matchFn,hdec] at hmatch
    have hassign := hfits (sc k) row ⟨c,loc,t',hc,(hst k c hc).1,ht',by rw [hdata]; exact hdec⟩ hmatch
    simp only [Update.updateFn] at hnew
    split at hnew
    · cases hnew
    · next new' hnew' =>
      have hnew' := (htyped row hdec).assignColumns (fun a v hv => ?_) hassign hnew'
      · split at hnew
        · cases hnew
        · cases hnew
          exact hnew'.encodesIn hR
      · cases he : u.evalOperand a.value row with
        | error e =>
          rw [he] at hv
          cases hv
        | ok w =>
          rw [he] at hv
          exact hv
end

namespace Merge
variable {m : Merge} {s : TableSchema} {source : List Value} {ts : List (List Value × Nat)}
theorem mem_matchesOf
    (h : m.matchesOf targets source = some ts) : ∀ x ∈ ts, x.1 ∈ targets ∧
    m.onCondition (x.1++source) = .ok true := by
  have hon : ∀ target, m.onRows source target = true → m.onCondition (target++source) = .ok true := by
    intro target ht
    unfold onRows at ht
    split at ht
    · next b hb => rw [hb,ht]
    · cases ht
  unfold matchesOf at h
  split at h
  · next keys _ =>
    simp only [hashMatches] at h
    split at h
    · cases h
    · cases h
      intro x hx
      obtain ⟨hx,hmatch⟩ := mem_filter.1 hx
      obtain ⟨hx,-⟩ := mem_filter.1 hx
      exact ⟨(mem_zipIdx' hx).2 ▸ getElem_mem _,hon x.1 hmatch⟩
  · simp only [loopMatches] at h
    split at h
    · cases h
    · next target ht =>
      cases h
      intro x hx
      obtain ⟨i,-,rfl⟩ := mem_map.1 hx
      exact ⟨mem_of_find?_eq_some ht,hon target (List.find?_some ht)⟩

theorem wellTyped_pendingUpdates {us : List (Int × List Value)}
    (hts : ∀ x ∈ ts, WellTyped R s x.1 ∧ ∀ as, m.whenMatched = some as →
      Assigns R s (fun e => m.evalOperand e (x.1++source)) as)
    (h : m.pendingUpdates R s.columns source ts = .ok us) : ∀ y ∈ us, WellTyped R s y.2 := by
  induction ts generalizing us with
  | nil =>
    cases h
    simp
  | cons x ts ih =>
    rw [forall_mem_cons] at hts
    simp only [pendingUpdates] at h
    split at h
    · exact ih hts.2 h
    · next as has =>
      split at h
      · cases h
      · next row hrow =>
        split at h
        · cases h
        · next us' hus =>
          cases h
          have hrow := hts.1.1.assignColumns (fun a v hv => hv) (hts.1.2 as has) hrow
          exact forall_mem_cons.2 ⟨hrow,ih hts.2 hus⟩

end Merge

theorem keeps_mergeRows (hR : Settles R) {sources : List (List Value)}
    (htargets : ∀ target ∈ targets, WellTyped R (sc k) target)
    (hassign : ∀ target ∈ targets, ∀ source ∈ sources, m.onCondition (target++source) = .ok true →
      ∀ as, m.whenMatched = some as → Assigns R (sc k) (fun e => m.evalOperand e (target++source)) as) :
    Session.Keeps (Typed R sc) (m.mergeRows R k (sc k).columns targets sources) fun us => ∀ y ∈ us,
    WellTyped R (sc k) y.2 := by
  induction sources with
  | nil => exact keeps_pure (by simp)
  | cons source sources ih =>
    have ih := ih fun target ht source' hs => hassign target ht source' (mem_cons_of_mem _ hs)
    rw [Merge.mergeRows]
    split
    · next ts hts =>
      have hmem := Merge.mem_matchesOf hts
      refine (Session.keeps_orThrow fun us hus => Merge.wellTyped_pendingUpdates (fun x hx => ?_)
        hus).bind fun us hus => ?_
      · obtain ⟨hx,hmatch⟩ := hmem x hx
        exact ⟨htargets _ hx,hassign _ hx source mem_cons_self hmatch⟩
      · exact ih.bind fun rest hrest => keeps_pure fun y hy => (mem_append.1 hy).elim (hus y) (hrest y)
    · split
      · exact ih
      · exact (Session.keeps_orThrow fun _ _ => trivial).bind fun row _ =>
          (keeps_insertCall hR [row]).bind fun _ _ => ih

theorem typed_merge (hR : Settles R) (hst : Typed R sc st)
    (hfits : (DmlStatement.merge m).Fits R k st) (hrun : (m.executeMerge R k).run.run st = some (out,st')) :
    Typed R sc st' := by
  rw [Merge.executeMerge,ExceptT.run_bind,StateT.run_bind] at hrun
  obtain ⟨⟨r,st1⟩,hr,hrun⟩ := bind_eq_some_iff.1 hrun
  have htyped := (keeps_readCurrentRows (R := R) (k := k) st r st1 hst hr).2
  cases hr
  cases htab : st.table k with
  | none =>
    simp only [htab] at hrun
    cases hrun
    exact hst
  | some c =>
    simp only [htab,map_some,getD_some] at hrun htyped
    have htyped := htyped _ rfl
    have hdone : ∀ {x : Session Int}, Session.Keeps (Typed R sc) x (fun _ => True) → x.run.run st = some (out,st') →
        Typed R sc st' := fun hx h => (hx st out st' hst h).1
    refine hdone (keeps_tableSchema.bind fun s hs => ?_) hrun
    subst hs
    refine (keeps_mergeRows hR htyped fun target ht source hs hon => ?_).bind fun us hus => ?_
    · obtain ⟨⟨loc,d⟩,hy,hdec⟩ := mem_filterMap.1 ht
      obtain ⟨t,ht,-,rfl⟩ := Contents.mem_live_iff.1 hy
      have hsc := (hst k c htab).1
      rw [hsc] at hdec
      exact hfits (sc k) target ⟨c,loc,t,htab,hsc,ht,hdec⟩ source hs hon
    · split
      · exact keeps_pure trivial
      · refine keeps_directCall hR _ fun row hrow => ?_
        obtain ⟨y,hy,rfl⟩ := mem_map.1 hrow
        exact hus y hy

theorem typed_execute (hR : Settles R) {s : DmlStatement} (hst : Typed R sc st)
    (hfits : s.Fits R k st) (hrun : (s.execute R k).run.run st = some (out,st')) : Typed R sc st' := by
  cases s with
  | insert buildRows =>
    have hkeeps : Session.Keeps (Typed R sc) ((DmlStatement.insert buildRows).execute R k) fun _ => True :=
      keeps_tableSchema.bind fun _ _ => (Session.keeps_orThrow fun _ _ => trivial).bind
        fun rows _ => keeps_insertCall hR rows
    exact (hkeeps st out st' hst hrun).1
  | upsert u => exact (keeps_executeUpsert hR u st out st' hst hrun).1
  | update u => exact typed_update hR hst hfits hrun
  | merge m => exact typed_merge hR hst hfits hrun
end

inductive DmlRun (R : RowOps Value) (Ok : TableKey → Store → DmlStatement → Prop) (st₀ : Store) : Store → Prop where
  | start : DmlRun R Ok st₀ st₀
  | step {st st' : Store} {k : TableKey} {s : DmlStatement} {out : Except String Int} : DmlRun R Ok st₀ st → Ok k st s →
      (s.execute R k).run.run st = some (out,st') → DmlRun R Ok st₀ st'

theorem typed_run {R : RowOps Value} (hR : Settles R) {sc : TableKey → TableSchema} {st0 : Store}
    (h0 : Typed R sc st0) (h : DmlRun R (fun k st s => s.Fits R k st) st0 st) : Typed R sc st := by
  induction h with
  | start => exact h0
  | step _ hfits hrun ih => exact typed_execute hR ih hfits hrun

section
variable {fl : Sql.Float64} {C : Codec fl} {toLower : String → String} {col : ColumnSchema} {w : Value}
def VectorsStay (C : Codec fl) : Prop := ∀ {r r'}, C.asVector r = some r' → C.asVector r' = some r'

theorem normalizeText_ok (h : normalizeText v col = .ok w) : normalizeText w col = .ok w := by
  cases v with
  | text t =>
    have h' := h
    simp only [normalizeText] at h'
    split at h'
    · cases h'
    · cases h'
      exact h
  | _ => cases h

theorem normalizeValue_idem (hV : VectorsStay C) (h : normalizeValue C v col = .ok w) :
    w = .null ∨ normalizeValue C w col = .ok w := by
  unfold normalizeValue at h
  split at h
  · cases h
    exact .inl rfl
  refine .inr ?_
  unfold normalizeValue
  by_cases hint : col.type = "INT"
  · rw [if_pos hint] at h
    split at h
    · cases h
      simp [hint,toInt64]
    · cases h
  rw [if_neg hint] at h ⊢
  by_cases hfloat : col.type = "FLOAT"
  · rw [if_pos hfloat] at h
    split at h
    · cases h
      simp [hfloat,toFloat64]
    · cases h
  rw [if_neg hfloat] at h ⊢
  by_cases hbool : col.type = "BOOL"
  · rw [if_pos hbool] at h
    split at h
    · cases h
      simp [hbool]
    · cases h
  rw [if_neg hbool] at h ⊢
  by_cases htext : col.type = "TEXT" ∨ col.type = "VARCHAR" ∨ col.type = "BLOB"
  · rw [if_pos htext] at h ⊢
    rw [normalizeText_ok h]
    split
    · next hnull => rw [hnull]
    · rfl
  rw [if_neg htext] at h ⊢
  by_cases hvector : col.type = "VECTOR"
  · rw [if_pos hvector] at h
    split at h
    · split at h
      · next r' hr' =>
        cases h
        simp [hvector,hV hr']
      · cases h
    · cases h
  rw [if_neg hvector] at h ⊢
  by_cases hflexible : col.type = "FLEXIBLE"
  · rw [if_pos hflexible] at h ⊢
    cases v with
    | text s =>
      cases h
      cases hj : C.jsonObject s with
      | none => simp [hj]
      | some r => simp
    | null =>
      cases h
      simp
    | _ =>
      cases h
      rfl
  rw [if_neg hflexible] at h ⊢
  split at h
  · next hprinted =>
    cases h
    simp [hprinted,Sql.Value.printed,Sql.valueToString]
  · cases h

theorem normalizeValue_int {n : Int} (h : normalizeValue C (.int n) col = .ok (.int n)) (m : Int) :
    normalizeValue C (.int m) col = .ok (.int m) := by
  simp only [normalizeValue,reduceCtorEq,if_false,toInt64,toFloat64,normalizeText] at h ⊢
  split_ifs at h ⊢ <;> simp_all

theorem normalizeValue_float {r : String} (h : normalizeValue C (.float r) col = .ok (.float r))
    (r' : String) : normalizeValue C (.float r') col = .ok (.float r') := by
  simp only [normalizeValue,reduceCtorEq,if_false,toFloat64,normalizeText] at h ⊢
  split_ifs at h ⊢ with hint
  · cases hn : toInt64 fl (.float r) <;> simp [hn] at h
  all_goals simp_all

theorem fixed_decodeColumnValue (hC : C.Lawful) {v' : Value} {bytes : List UInt8}
    (h : encodeColumnValue C v = .ok bytes)
    (hd : decodeColumnValue C bytes = some v') (hv : v = .null ∨ normalizeValue C v col = .ok v) :
    v' = .null ∨ normalizeValue C v' col = .ok v' := by
  have hsame : Storable fl v → v' = v := fun hs => some.inj (hd.symm.trans (decode_encodeColumnValue hC hs h).1)
  cases v with
  | int n =>
    cases h
    simp only [decodeColumnValue] at hd
    rw [if_neg (by decide),if_pos trivial] at hd
    split at hd
    · cases hd
    · cases hd
      exact .inr (normalizeValue_int (hv.resolve_left (by simp)) _)
  | float r =>
    simp only [encodeColumnValue] at h
    split at h
    · cases h
      simp only [decodeColumnValue] at hd
      rw [if_neg (by decide),if_neg (by decide),if_pos trivial] at hd
      split at hd
      · cases hd
      · cases hd
        exact .inr (normalizeValue_float (hv.resolve_left (by simp)) _)
    · cases h
  | null | bool _ | text _ | object _ =>
    rw [hsame trivial]
    exact hv

theorem settles_sqlRows (hC : C.Lawful) (hV : VectorsStay C) : Settles (sqlRows C toLower) where
  normalized h := normalizeValue_idem hV h
  stored hd hrow' i v' hv' := by
    obtain ⟨v,bytes,hv,henc,hdec⟩ := getElem?_decodeTuple hd hrow' hv'
    exact ⟨v,hv,fun col hfix => fixed_decodeColumnValue hC henc hdec hfix⟩

/-- Where statements assign values of the types of their columns, every stored value is NULL or a
fixed point of `normalizeValue`. -/
theorem stored_values_normalized (hC : C.Lawful) (hV : VectorsStay C) {sc : TableKey → TableSchema} {st₀ st : Store}
    (h₀ : Typed (sqlRows C toLower) sc st₀)
    (h : DmlRun (sqlRows C toLower) (fun k st s => s.Fits (sqlRows C toLower) k st) st₀ st)
    {k : TableKey} {c : Contents}
    (hc : st.table k = some c) {loc : PageSlot} {t : Tuple} (ht : c.tuple loc = some t) {row : List Value}
    (hrow : decodeTuple C (rawTuple t.data) = some row) {i : Nat} {v : Value} {col : ColumnSchema}
    (hv : row[i]? = some v)
    (hcol : c.info.schema.columns[i]? = some col) (hnull : v ≠ .null) : normalizeValue C v col = .ok v := by
  obtain ⟨hsc,htyped⟩ := typed_run (settles_sqlRows hC hV) h₀ h k c hc
  rw [hsc] at hcol
  exact (htyped loc t ht row hrow i v col hv hcol).resolve_left hnull
end

def wideChars : List UInt8 → List Char
  | a :: b :: c :: d :: bytes => Char.ofNat (ofBytes [a,b,c,d]) :: wideChars bytes
  | _ => []

theorem wideChars_flatMap (cs : List Char) : wideChars (cs.flatMap fun c => toBytes 4 c.toNat) = cs := by
  induction cs with
  | nil => rfl
  | cons c cs ih =>
    have hc : c.toNat < 256^4 := by
      have : c.val.toNat < 2^32 := c.val.toNat_lt
      exact this
    have hbytes := ofBytes_toBytes 4 c.toNat
    rw [Nat.mod_eq_of_lt hc] at hbytes
    have hhead : wideChars (toBytes 4 c.toNat++cs.flatMap fun c => toBytes 4 c.toNat) =
        Char.ofNat (ofBytes (toBytes 4 c.toNat)) :: wideChars (cs.flatMap fun c => toBytes 4 c.toNat) := rfl
    rw [flatMap_cons,hhead,hbytes,ih,Char.ofNat_toNat]

def wideCodec : Codec Sql.Float64.single where
  utf8 s := s.toList.flatMap fun c => toBytes 4 c.toNat
  text bytes := String.ofList (wideChars bytes)
  bits _ := 0
  objectBytes _ := .error "unsupported value type for binary encoding"
  objectOf _ := none
  asVector _ := none
  jsonObject _ := none

theorem wideCodec_lawful : wideCodec.Lawful where
  text_utf8 s := by simp [wideCodec,wideChars_flatMap]
  bits_lt _ := Nat.pow_pos (by decide)
  ofBits_bits _ := rfl
  parse_print _ := rfl
  object_tag h := by cases h
  objectOf h := by cases h

def wideRows : RowOps Value := sqlRows wideCodec id

def emptyTable : Store where
  table k := if k = users then some ⟨[],⟨⟨[⟨"id","INT",0,false⟩]⟩,none,0,0,[]⟩,by decide⟩ else none
  clock := ⟨0,0⟩
  pin := none

def insertOne : DmlStatement := .insert fun _ => .ok [[.int 1]]

def setId (v : Value) : DmlStatement := .update
  { assignments := [⟨"id",.value v⟩]
    evalOperand := fun _ _ => .ok v
    rowMatches := fun _ => .ok true
    enforceRow := fun _ => .ok ()
    validate := fun _ _ => .ok ()
    positions := none }

def usersRows (st : Store) : Option (List ColumnSchema × List (Option (List Value))) :=
  (st.table users).map fun c => (c.info.schema.columns,c.live.map fun y => decodeTuple wideCodec (rawTuple y.2))

def afterBoth (s s' : DmlStatement) : Option Store :=
  ((s.execute wideRows users).run.run emptyTable).bind fun x =>
    ((s'.execute wideRows users).run.run x.2).map Prod.snd

/-- An UPDATE puts a text into the INT column. -/
theorem update_stores_text : ∃ st, DmlRun wideRows (fun _ _ _ => True) emptyTable st ∧
    usersRows st = some ([⟨"id", "INT", 0, false⟩], [some [.text "a"]]) ∧
    normalizeValue wideCodec (.text "a") ⟨"id", "INT", 0, false⟩ = .error "expected INT, got string" := by
  have hrun : (afterBoth insertOne (setId (.text "a"))).map usersRows =
      some (some ([⟨"id","INT",0,false⟩],[some [.text "a"]])) := by decide +kernel
  obtain ⟨st,hst,hrows⟩ := map_eq_some_iff.1 hrun
  obtain ⟨⟨out,st1⟩,h1,hst⟩ := bind_eq_some_iff.1 hst
  obtain ⟨⟨out',st2⟩,h2,rfl⟩ := map_eq_some_iff.1 hst
  exact ⟨st2,.step (.step .start trivial h1) trivial h2,hrows,rfl⟩

def idSchema : TableSchema := ⟨[⟨"id","INT",0,false⟩]⟩

theorem typed_emptyTable : Typed wideRows (fun _ => idSchema) emptyTable := by
  rintro k c hc
  simp only [emptyTable] at hc
  split at hc
  · cases hc
    refine ⟨rfl,fun loc t ht => ?_⟩
    simp [Contents.tuple,Contents.page] at ht
  · cases hc

/-- An UPDATE with a number. -/
theorem update_keeps_int : ∃ st, DmlRun wideRows (fun k st s => s.Fits wideRows k st) emptyTable st ∧
    usersRows st = some ([⟨"id", "INT", 0, false⟩], [some [.int 2]]) ∧
    normalizeValue wideCodec (.int 2) ⟨"id", "INT", 0, false⟩ = .ok (.int 2) := by
  have hrun : (afterBoth insertOne (setId (.int 2))).map usersRows =
      some (some ([⟨"id","INT",0,false⟩],[some [.int 2]])) := by decide +kernel
  obtain ⟨st,hst,hrows⟩ := map_eq_some_iff.1 hrun
  obtain ⟨⟨out,st1⟩,h1,hst⟩ := bind_eq_some_iff.1 hst
  obtain ⟨⟨out',st2⟩,h2,rfl⟩ := map_eq_some_iff.1 hst
  have hV : VectorsStay wideCodec := fun h => by cases h
  have hinsert : DmlRun wideRows (fun k st s => s.Fits wideRows k st) emptyTable st1 :=
    .step (k := users) (s := insertOne) .start trivial h1
  have hfits : (setId (.int 2)).Fits wideRows users st1 := by
    rintro sc row ⟨c,loc,t,hc,rfl,-,-⟩ - a ha v hv col hcol -
    rw [(typed_run (settles_sqlRows wideCodec_lawful hV) typed_emptyTable hinsert users c hc).1] at hcol
    cases hv
    rw [mem_singleton.1 hcol]
    exact .inr rfl
  have hreach := DmlRun.step hinsert hfits h2
  refine ⟨st2,hreach,hrows,?_⟩
  obtain ⟨c,hc,hres⟩ := map_eq_some_iff.1 hrows
  obtain ⟨hcols,hlive⟩ := Prod.mk.inj hres
  obtain ⟨⟨loc,d⟩,hy,hdec⟩ := map_eq_singleton_iff.1 hlive
  have hmem : (loc,d) ∈ c.live := by simp [hy]
  obtain ⟨t,ht,-,rfl⟩ := Contents.mem_live_iff.1 hmem
  exact stored_values_normalized wideCodec_lawful hV typed_emptyTable hreach hc ht hdec (i := 0) rfl
    (by rw [hcols]; rfl) (by simp)

end VaultDB.Dml
