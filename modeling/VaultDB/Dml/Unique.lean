import VaultDB.Dml.Statements
import VaultDB.Storage.PrimaryKey
set_option autoImplicit false

/-!
UNIQUE columns and unique indexes while statements run side by side.

What is checked and not stored yet is part of the invariant.
-/

namespace VaultDB.Dml
open Lib Storage Stmt Call List Option
variable {x : Nat}
inductive UniqueKey where
  | column (c : Nat)
  | index (idx : UniqueIndex)
  deriving DecidableEq, Repr

namespace UniqueKey

def position : UniqueKey → Nat
  | .column c => c
  | .index idx => idx.colIndex

def Declared (keys : TableKeys) : UniqueKey → Prop
  | .column c => c ∈ keys.columns
  | .index idx => idx ∈ keys.indexes

end UniqueKey

section
variable {V : Type} (R : RowOps V) [BEq V] (sc : TableSchema) (u : UniqueKey)
def storedValue (d : List UInt8) : Option V := (R.decodeRow sc d).bind (uniqueValue R u.position)
def storedCount (ds : List (List UInt8)) (v : V) : Nat := (ds.filterMap (storedValue R sc u)).count v
def rowCount (rows : List (List V)) (v : V) : Nat := (rows.filterMap (uniqueValue R u.position)).count v
end

structure UqWatcher (V : Type) where
  table : Option (TableKey × TableKeys) := none
  schema : Option TableSchema := none
  checked : List (List V) := []
  wrote : List (List UInt8) := []

structure Own (V : Type) where
  uq : UqWatcher V := {}
  holds : Bool := false

section
variable {V : Type} (R : RowOps V) [BEq V] (k : TableKey) (u : UniqueKey) {g : Watched (Own V)}
namespace UqWatcher

def Covers (g : UqWatcher V) (sc : TableSchema) (ds : List (List UInt8)) : Prop :=
  ∀ v, storedCount R sc u ds v ≤ rowCount R u g.checked v

def next (g : UqWatcher V) : (c : Cmd) → c.Res → UqWatcher V
  | .getInfo, info => { g with schema := some info.schema }
  | .insertTuple _ t, some _ => { g with wrote := t.data :: g.wrote }
  | .unlockTable, _ => if g.wrote.isEmpty then g else { g with checked := [] }
  | _, _ => g

def allowed (g : UqWatcher V) : Cmd → Prop
  | .insertTuple _ t => ∃ k' keys sc, g.table = some (k',keys) ∧ g.schema = some sc ∧
      (k' = k → u.Declared keys → sc = keys.schema → g.Covers R u sc (t.data :: g.wrote))
  | .clearXMax _ => g.checked = []
  | _ => True

end UqWatcher

def uqStorage : Protocol Cmd Cmd.Res (UqWatcher V) := ⟨UqWatcher.allowed R k u,UqWatcher.next⟩

def UqWatcher.pass (g : UqWatcher V) : (c : DmlCmd V) → c.Res → UqWatcher V
  | .getTableSchema k, some keys => { g with table := some (k,keys) }
  | .checkColumns rows _, .ok _ =>
    match u with
    | .column _ => { g with checked := rows }
    | .index _ => g
  | .checkColumns _ _, .error _ => { g with checked := [] }
  | .checkIndex idx row _, .ok _ => if u = .index idx then { g with checked := row :: g.checked } else g
  | .checkIndex _ _ _, .error _ => { g with checked := [] }
  | _, _ => g

def dmlProtocol : Protocol (DmlCmd V) DmlCmd.Res (Watched (Own V)) where
  allowed g
    | .storage c => rowProtocol.allowed g.row c ∧ (uqStorage R k u).allowed g.own.uq c
    | .getTableSchema _ => g.own.uq.table = none
    | .lockTables => g.own.holds = false
    | .unlockTables => g.own.holds = true
    | .checkColumns _ _ => g.own.uq.checked = []
    | .checkIndex _ _ _ => True
  next g
    | .storage c, r => g.after c r { g.own with uq := g.own.uq.next c r }
    | .lockTables, _ => { g with own := { g.own with holds := true } }
    | .unlockTables, _ => { g with own := { g.own with holds := false } }
    | c, r => { g with own := { g.own with uq := g.own.uq.pass u c r } }

variable {R k u} {α : Type} {Q : Watcher → α → Prop} {Q' : UqWatcher V → α → Prop}
theorem follows_ofProg {p : Prog Cmd Cmd.Res α} (h : Follows rowProtocol g.row p Q)
    (h' : Follows (uqStorage R k u) g.own.uq p Q') : Follows (dmlProtocol R k u) g (ofProg p)
      fun g' a => Q g'.row a ∧ Q' g'.own.uq a ∧ g'.own.holds = g.own.holds := by
  induction p generalizing g with
  | ret a => exact ⟨h,h',rfl⟩
  | step c kont ih => exact ⟨⟨h.1,h'.1⟩,fun r => ih r (h.2 r) (h'.2 r)⟩

theorem ensures_storage {x : Exec α} {E : Watcher → Prop} {E' : UqWatcher V → Prop}
    (h : Ensures rowProtocol g.row x Q E) (h' : Ensures (uqStorage R k u) g.own.uq x Q' E') :
    Ensures (dmlProtocol R k u) g (storage x) (fun g' a => Q g'.row a ∧ Q' g'.own.uq a ∧ g'.own.holds = g.own.holds)
      fun g' => E g'.row ∧ E' g'.own.uq ∧ g'.own.holds = g.own.holds :=
  Follows.mono (follows_ofProg h h') fun _ r hr => by cases r <;> exact hr

omit [BEq V] in
theorem ensures_throwing {G : Type} {P : Protocol (DmlCmd V) DmlCmd.Res G} {g : G} {x : Except String α}
    {Q : G → α → Prop} {E : G → Prop} (hq : ∀ a, x = .ok a → Q g a) (he : ∀ e, x = .error e → E g) :
    Ensures P g (orThrow x : Call V α) Q E := by
  cases x with
  | ok a => exact hq a rfl
  | error e => exact he e rfl

theorem ensures_mutateUnderTableLock {x : Call V α} (hg : g.own.holds = false)
    (h : Ensures (dmlProtocol R k u) { g with own := { g.own with holds := true } } x (fun g _ => g.own.holds = true)
      fun g => g.own.holds = true) :
    Ensures (dmlProtocol R k u) g (mutateUnderTableLock x) (fun _ _ => True) fun _ => True := by
  refine ensures_step.2 ⟨hg,fun _ => ensures_bind.2 (ensures_onError ?_)⟩
  refine h.mono (fun g' a hg' => ?_) fun g' hg' => ⟨hg',fun _ => trivial⟩
  exact ensures_step.2 ⟨hg',fun _ => trivial⟩
end

section
variable {V : Type} {R : RowOps V} [BEq V] {k : TableKey} {u : UniqueKey} {g : Watched (Own V)}
def withChecked (g : Watched (Own V)) (rows : List (List V)) : Watched (Own V) :=
  { g with own := { g.own with uq := { g.own.uq with checked := rows } } }

theorem rowCount_append (rows rows' : List (List V)) (v : V) :
    rowCount R u (rows++rows') v = rowCount R u rows v+rowCount R u rows' v := by
  simp [rowCount]

theorem rowCount_reverse (rows : List (List V)) (v : V) : rowCount R u rows.reverse v = rowCount R u rows v := by
  simp [rowCount]

theorem ensures_checkIndex (idx : UniqueIndex) (excluded : List Int) (rows : List (List V)) :
    Ensures (dmlProtocol R k u) g (rows.forM fun row => do
        let r ← Call.cmd (.checkIndex idx row excluded)
        orThrow r)
      (fun g' _ => g' = withChecked g (if u = .index idx then rows.reverse++g.own.uq.checked else g.own.uq.checked))
      fun g' => g' = withChecked g [] := by
  induction rows generalizing g with
  | nil =>
    show g = _
    split <;> rfl
  | cons row rows ih =>
    refine ensures_bind.2 (ensures_step.2 ⟨trivial,fun r => ?_⟩)
    cases r with
    | error e => exact rfl
    | ok a =>
      refine (ih (g := (dmlProtocol R k u).next g (.checkIndex idx row excluded) (.ok a))).mono
        (fun g' _ hg' => ?_) fun g' hg' => ?_
      · rw [hg']
        by_cases hu : u = .index idx
        · simp [dmlProtocol,UqWatcher.pass,withChecked,hu]
        · simp [dmlProtocol,UqWatcher.pass,withChecked,hu]
      · rw [hg']
        by_cases hu : u = .index idx
        · simp [dmlProtocol,UqWatcher.pass,withChecked,hu]
        · simp [dmlProtocol,UqWatcher.pass,withChecked,hu]

theorem ensures_checkIndexes (idxs : List UniqueIndex) (excluded : List Int) (rows : List (List V)) :
    Ensures (dmlProtocol R k u) g (idxs.forM fun idx => rows.forM fun row => do
        let r ← Call.cmd (.checkIndex idx row excluded)
        orThrow r)
      (fun g' _ => ∃ passed, g' = withChecked g passed ∧
        (∀ v, rowCount R u g.own.uq.checked v ≤ rowCount R u passed v) ∧
        ∀ idx ∈ idxs, u = .index idx → ∀ v, rowCount R u rows v ≤ rowCount R u passed v)
      fun g' => g' = withChecked g [] := by
  induction idxs generalizing g with
  | nil => exact ⟨g.own.uq.checked,rfl,fun _ => Nat.le_refl _,by simp⟩
  | cons idx idxs ih =>
    refine (ensures_checkIndex idx excluded rows).bind fun g1 _ h1 => ?_
    refine (ih (g := g1)).mono (fun g2 _ h2 => ?_) fun g2 h2 => ?_
    · obtain ⟨passed,rfl,hmono,hin⟩ := h2
      subst h1
      refine ⟨passed,rfl,fun v => ?_,fun idx' hmem hu v => ?_⟩
      · have hv := hmono v
        simp only [withChecked] at hv
        split at hv
        · rw [rowCount_append] at hv
          omega
        · exact hv
      · rcases mem_cons.1 hmem with rfl | hmem
        · have hv := hmono v
          simp only [withChecked,if_pos hu,rowCount_append,rowCount_reverse] at hv
          omega
        · exact hin idx' hmem hu v
    · rw [h2,h1]
      rfl

theorem ensures_enforceUnique (keys : TableKeys) (excluded : List Int) (rows : List (List V))
    (hg : g.own.uq.checked = []) : Ensures (dmlProtocol R k u) g (enforceUnique keys excluded rows)
      (fun g' _ => ∃ passed, g' = withChecked g passed ∧
        (u.Declared keys → ∀ v, rowCount R u rows v ≤ rowCount R u passed v))
      fun g' => g' = withChecked g [] := by
  have hcols : Ensures (dmlProtocol R k u) g (enforceColumns keys excluded rows)
      (fun g' _ => ∃ passed, g' = withChecked g passed ∧
        ∀ c ∈ keys.columns, u = .column c → ∀ v, rowCount R u rows v ≤ rowCount R u passed v)
      fun g' => g' = withChecked g [] := by
    unfold enforceColumns
    split
    · rename_i hemp
      refine ⟨g.own.uq.checked,rfl,fun c hc => ?_⟩
      simp [isEmpty_iff.1 hemp] at hc
    · refine ensures_step.2 ⟨hg,fun r => ?_⟩
      cases r with
      | error e => exact rfl
      | ok a =>
        cases u with
        | column c => exact ⟨rows,rfl,fun _ _ _ _ => Nat.le_refl _⟩
        | index idx => exact ⟨g.own.uq.checked,rfl,fun _ _ hu => by cases hu⟩
  refine hcols.bind fun g1 _ h1 => ?_
  obtain ⟨passed,rfl,hcol⟩ := h1
  refine (ensures_checkIndexes keys.indexes excluded rows).mono (fun g2 _ h2 => ?_) fun g2 h2 => h2
  obtain ⟨passed',rfl,hmono,hidx⟩ := h2
  refine ⟨passed',rfl,fun hu v => ?_⟩
  cases u with
  | column c => exact Nat.le_trans (hcol c hu rfl v) (hmono v)
  | index idx => exact hidx idx hu rfl v
end

def Faithful {V : Type} (R : RowOps V) : Prop :=
  ∀ schema row bytes, R.encodeRow row = .ok bytes → R.decodeRow schema bytes = some row

def Coerced {V : Type} (R : RowOps V) (sc : TableSchema) (row : List V) : Prop :=
  ∀ ns, normalizeRow R row sc.columns 0 = .ok ns → ns = row

section
variable {V : Type} {R : RowOps V} [BEq V] {sc : TableSchema} {u : UniqueKey} {rows : List (List V)}
theorem storedCount_append (ds ds' : List (List UInt8)) (v : V) :
    storedCount R sc u (ds++ds') v = storedCount R sc u ds v+storedCount R sc u ds' v := by
  simp [storedCount]

theorem storedCount_cons (d : List UInt8) (ds : List (List UInt8)) (v : V) :
    storedCount R sc u (d :: ds) v = storedCount R sc u [d] v+storedCount R sc u ds v :=
  storedCount_append [d] ds v

theorem storedCount_perm {ds ds' : List (List UInt8)} (h : ds.Perm ds') (v : V) :
    storedCount R sc u ds v = storedCount R sc u ds' v := (h.filterMap _).count_eq v

theorem storedValue_encode (hR : Faithful R) {row : List V} {t : Tuple} (h : encodePageTuple R x row = .ok t) :
    storedValue R sc u t.data = uniqueValue R u.position row := by
  simp [storedValue,hR sc row _ (encodePageTuple_ok h).2.1]

theorem storedCount_encodeRows (hR : Faithful R) (hc : ∀ row ∈ rows, Coerced R sc row)
    {pkIdx : Option Nat} {pkIndex : Option Index} {seen : List V} {ts : List Tuple}
    (h : encodeRows R sc pkIdx pkIndex x rows seen = .ok ts) :
    (ts.map Tuple.data).filterMap (storedValue R sc u) = rows.filterMap (uniqueValue R u.position) := by
  induction rows generalizing seen ts with
  | nil =>
    cases h
    rfl
  | cons row rows ih =>
    obtain ⟨ns,t,ts',hns,ht,-,hts,rfl⟩ := encodeRows_cons_ok h
    obtain rfl := hc row mem_cons_self ns hns
    have hrest := ih (fun row hrow => hc row (mem_cons_of_mem _ hrow)) hts
    rw [map_cons,filterMap_cons,filterMap_cons,storedValue_encode hR ht,hrest]
end

section
variable {V : Type} {R : RowOps V} [BEq V] {k : TableKey} {u : UniqueKey} {g : UqWatcher V}
  {α : Type} {rows : List (List V)} {k' : TableKey} {asked : Prop}
def UqWatcher.Prepared (R : RowOps V) (k : TableKey) (u : UniqueKey) (ds : List (List UInt8))
    (g : UqWatcher V) : Prop :=
  ∃ k' keys sc, g.table = some (k',keys) ∧ g.schema = some sc ∧
    (k' = k → u.Declared keys → sc = keys.schema → g.Covers R u sc (ds++g.wrote))

theorem uq_stores : Stores (uqStorage R k u) (UqWatcher.Prepared R k u) := by
  constructor
  · rintro g t ds ⟨k',keys,sc,htable,hschema,hcov⟩ pid
    refine ⟨⟨k',keys,sc,htable,hschema,fun hk hu hsc v => ?_⟩,
      fun slot => ⟨k',keys,sc,htable,hschema,fun hk hu hsc v => ?_⟩,k',keys,sc,htable,hschema,hcov⟩
    · have := hcov hk hu hsc v
      rw [cons_append,storedCount_cons,storedCount_append] at this
      rw [storedCount_cons]
      omega
    · have hperm : (ds++t.data :: g.wrote).Perm (t.data :: (ds++g.wrote)) := perm_middle
      have := hcov hk hu hsc v
      rw [cons_append,← storedCount_perm hperm] at this
      exact this
  · rintro g c ds hg hc
    cases c with
    | lockPage | unlockPage | fetchPage | freeSpace | allocatePage | setHOTUpdated | unpinPage | unpinPageDirty
    | logInsert | setInfo | pageCount => exact ⟨trivial,fun _ => hg⟩
    | _ => cases hc

theorem UqWatcher.Prepared.perm {ds ds' : List (List UInt8)} (h : ds.Perm ds') (hg : g.Prepared R k u ds) :
    g.Prepared R k u ds' := by
  obtain ⟨k',keys,sc,htable,hschema,hcov⟩ := hg
  refine ⟨k',keys,sc,htable,hschema,fun hk hu hsc v => ?_⟩
  rw [← storedCount_perm (h.append_right g.wrote)]
  exact hcov hk hu hsc v

theorem uq_quiet {x : Exec α} (h : Quiet x) : Ensures (uqStorage R k u) g x (fun _ _ => True) fun _ => True := by
  refine h.ensures (fun g c _ hc => ⟨?_,fun _ => trivial⟩) trivial
  cases c with
  | insertTuple | clearXMax => cases hc
  | _ => trivial

variable {keys : TableKeys} {tb : Option (TableKey × TableKeys)}
theorem uq_insertRows (hR : Faithful R)
    (htable : g.table = some (k',keys)) (hwrote : g.wrote = []) (hco : ∀ row ∈ rows, Coerced R keys.schema row)
    (hchk : u.Declared keys → ∀ v, rowCount R u rows v ≤ rowCount R u g.checked v) (k1 : TableKey) :
    Ensures (uqStorage R k u) g (insertRows R k1 rows) (fun _ _ => True) fun _ => True := by
  refine ensures_step.2 ⟨trivial,fun x => (ensures_getTable k1 trivial fun _ => rfl).bind fun g1 _ h1 => ?_⟩
  subst h1
  refine ensures_bind.2 (Ensures.mono (Q := fun _ _ => True)
    (ensures_releasing (fun _ => trivial) ?_) (fun g' _ _ => ?_)
    fun _ he => he)
  · refine ensures_step.2 ⟨trivial,fun info => ?_⟩
    refine (ensures_scanIf (Q := fun g' _ => g' = { g1 with schema := some info.schema }) _ trivial
      (fun _ _ => rfl) fun _ =>
      rfl).bind fun g' scan hg' => ?_
    subst hg'
    refine ensures_bind.2 (ensures_orThrow (fun ts hts => ?_) fun _ _ => trivial)
    refine ensures_step.2 ⟨trivial,fun count => ?_⟩
    cases count with
    | none => trivial
    | some count =>
      refine Ensures.mono (Q := fun g _ => UqWatcher.Prepared R k u [] g) (uq_stores.insertTuples ?_)
        (fun _ _ _ => trivial) fun _ he => he
      refine ⟨k',keys,info.schema,htable,rfl,fun _ hu hsc v => ?_⟩
      rw [hsc] at hts ⊢
      have hv := hchk hu v
      rw [rowCount,← storedCount_encodeRows hR hco hts] at hv
      simpa [uqStorage,UqWatcher.next,hwrote,storedCount] using hv
  · refine uq_quiet ((Quiet.cmd rfl).bind fun _ => (quiet_finish x _).bind fun _ => ?_)
    exact (Quiet.cmd rfl).bind fun _ => Quiet.pure _

structure UqWatcher.Untouched (tb : Option (TableKey × TableKeys)) (asked : Prop) (g : UqWatcher V) : Prop where
  table : g.table = tb
  checked : g.checked = []
  wrote : g.wrote = []
  schema : asked → g.schema ≠ none

theorem uq_untouched {x : Exec α} (h : Quiet x) (hg : g.Untouched tb asked) :
    Ensures (uqStorage R k u) g x (fun g' _ => g'.Untouched tb asked) fun _ => True := by
  have hall : Ensures (uqStorage R k u) g x (fun g' _ => g'.Untouched tb asked) fun g' => g'.Untouched tb asked := by
    refine h.ensures (fun g c hg hc => ?_) hg
    cases c with
    | insertTuple | clearXMax => cases hc
    | getInfo => exact ⟨trivial,fun _ => ⟨hg.table,hg.checked,hg.wrote,fun _ => by simp [uqStorage,UqWatcher.next]⟩⟩
    | unlockTable =>
      refine ⟨trivial,fun _ => ?_⟩
      simp only [uqStorage,UqWatcher.next,hg.wrote,isEmpty_nil,if_true]
      exact hg
    | _ => exact ⟨trivial,fun _ => hg⟩
  exact hall.mono (fun _ _ hq => hq) fun _ _ => trivial

theorem uq_stampPhaseVM (hg : g.Untouched tb asked) (k1 : TableKey)
    (positions : Option (List Int)) (matchFn : Tuple → Except String Bool)
    (updateFn : List V → Except String (List V)) :
    Ensures (uqStorage R k u) g (stampPhaseVM R k1 positions matchFn updateFn)
      (fun g' r => g'.Untouched tb True ∧ ∀ v ∈ r.2.2, encodePageTuple R r.1 v.newRow = .ok v.encoded)
      fun _ => True := by
  refine ensures_step.2 ⟨trivial,fun x => ensures_bind.2 ?_⟩
  refine (uq_untouched (quiet_getTableForWrite k1) hg).mono (fun g1 _ h1 => ?_) fun _ he => he
  have hbody : Ensures (uqStorage R k u) g1 (stampVM R x positions matchFn updateFn)
      (fun g' r => g'.Untouched tb True ∧ ∀ v ∈ r.2, encodePageTuple R x v.newRow = .ok v.encoded)
        fun _ => True := by
    refine ensures_step.2 ⟨trivial,fun info => ?_⟩
    have h2 : ((uqStorage R k u).next g1 .getInfo info).Untouched tb True :=
      ⟨h1.table,h1.checked,h1.wrote,fun _ => by simp [uqStorage,UqWatcher.next]⟩
    refine (uq_untouched looks_locateVM.quiet h2).bind fun g3 located h3 => ?_
    refine (uq_untouched (quiet_logDeletes _ _) h3).bind fun g4 _ h4 => ?_
    refine ensures_bind.2 (ensures_orThrow (fun vs hvs => ?_) fun _ _ => trivial)
    refine (uq_untouched (Quiet.forM (quiet_stamp x) _) h4).bind fun g5 _ h5 => ?_
    exact ⟨h5,fun v hv => ((newVersionsVM_ok hvs).2 v hv).2⟩
  refine (ensures_releasing (fun _ => trivial) hbody).bind fun g2 r h2 => ?_
  exact (uq_untouched (Quiet.cmd rfl) h2.1).bind fun g3 _ h3 => ⟨h3,h2.2⟩

theorem uq_revertPhaseVM (hg : g.checked = []) (vs : List (NewVersion V)) :
    Ensures (uqStorage R k u) g (revertPhaseVM vs) (fun _ _ => True) fun _ => True := by
  refine ensures_step.2 ⟨trivial,fun _ => ensures_bind.2 ?_⟩
  refine (ensures_forM (E := fun _ => True) (fun g : UqWatcher V => g.checked = []) hg fun loc _ g hg => ?_).mono
    (fun _ _ _ => ⟨trivial,fun _ => trivial⟩) fun _ he => he
  exact ensures_step.2 ⟨hg,fun r => by cases r <;> exact hg⟩

theorem uq_storePhaseVM (hR : Faithful R) {info : TableInfo}
    {vs : List (NewVersion V)} (htable : g.table = some (k',keys)) (hwrote : g.wrote = []) (hasked : g.schema ≠ none)
    (henc : ∀ v ∈ vs, encodePageTuple R x v.newRow = .ok v.encoded)
    (hchk : u.Declared keys → ∀ v, rowCount R u (vs.map NewVersion.newRow) v ≤ rowCount R u g.checked v) :
    Ensures (uqStorage R k u) g (storePhaseVM R x info vs) (fun _ _ => True) fun _ => True := by
  obtain ⟨sc,hsc⟩ := ne_none_iff_exists'.1 hasked
  have hprep : UqWatcher.Prepared R k u (vs.map (·.encoded.data)) g := by
    refine ⟨k',keys,sc,htable,hsc,fun _ hu _ v => ?_⟩
    have hsame : (vs.map (·.encoded.data)).filterMap (storedValue R sc u) =
        (vs.map NewVersion.newRow).filterMap (uniqueValue R u.position) := by
      rw [filterMap_map,filterMap_map]
      exact filterMap_congr fun v hv => storedValue_encode hR (henc v hv)
    have hv := hchk hu v
    rw [rowCount,← hsame] at hv
    simpa [hwrote,storedCount] using hv
  refine ensures_step.2 ⟨trivial,fun _ => ensures_bind.2 ?_⟩
  refine (ensures_releasing (fun _ => trivial) (uq_stores.replaceVersions UqWatcher.Prepared.perm
    hprep)).mono (fun g' _ _ => ?_) fun _ he => he
  exact uq_quiet ((Quiet.cmd rfl).bind fun _ => (quiet_finish x _).bind fun _ => Quiet.pure _)
end

/-- The statements whose interleavings are looked at.  `BuildRows` coerces every value to its
column. -/
inductive UniqueStatement {V : Type} [BEq V] (R : RowOps V) (k : TableKey) : Call V Int → Prop where
  | fastPathInsert (build : TableSchema → Except String (List (List V)))
      (h : ∀ sc rows, build sc = .ok rows → rows.length = 1 ∧ ∀ row ∈ rows, Coerced R sc row) :
      UniqueStatement R k (fastPathInsert R k build)
  | insertCommand (build : TableSchema → Except String (List (List V)))
      (h : ∀ sc rows, build sc = .ok rows → ∀ row ∈ rows, Coerced R sc row) :
        UniqueStatement R k (insertCommand R k build)
  | updateCommand (positions : Option (List Int)) (matchFn : Tuple → Except String Bool)
      (updateFn : List V → Except String (List V)) (validate : List Int → List (List V) → Except String Unit) :
      UniqueStatement R k (updateCommand R k positions matchFn updateFn validate)

section
variable {V : Type} {R : RowOps V} [BEq V] {k : TableKey} {u : UniqueKey} {g : Watched (Own V)}
structure Beginning (g : Watched (Own V)) : Prop where
  row : g.row = {}
  uq : g.own.uq = {}

structure Informed (g : Watched (Own V)) (k₁ : TableKey) (keys : TableKeys) (g' : Watched (Own V)) : Prop where
  row : g'.row = {}
  uq : g'.own.uq.Untouched (some (k₁,keys)) False
  holds : g'.own.holds = g.own.holds

theorem ensures_getTableSchema (hg : Beginning g) (k1 : TableKey) :
    Ensures (dmlProtocol R k u) g (getTableSchema k1) (fun g' keys => Informed g k1 keys g')
      fun g' => g'.own.holds = g.own.holds := by
  have hallow : g.own.uq.table = none := by rw [hg.uq]
  refine ensures_step.2 ⟨hallow,fun keys => ?_⟩
  cases keys with
  | none => exact rfl
  | some keys =>
    refine ⟨hg.row,⟨rfl,?_,?_,nofun⟩,rfl⟩
    · simp [dmlProtocol,UqWatcher.pass,hg.uq]
    · simp [dmlProtocol,UqWatcher.pass,hg.uq]

theorem ensures_insertChecked (hR : Faithful R) (hg : Beginning g) (k1 : TableKey)
    {build : TableSchema → Except String (List (List V))}
    (hb : ∀ sc rows, build sc = .ok rows → ∀ row ∈ rows, Coerced R sc row) :
    Ensures (dmlProtocol R k u) g (insertChecked R k1 build) (fun g' _ => g'.own.holds = g.own.holds)
      fun g' => g'.own.holds = g.own.holds := by
  refine (ensures_getTableSchema hg k1).bind fun g1 keys h1 => ?_
  refine ensures_bind.2 (ensures_throwing (fun rows hrows => ?_) fun _ _ => h1.holds)
  refine ensures_bind.2 ((ensures_enforceUnique keys [] rows h1.uq.checked).mono (fun g2 _ h2 => ?_) fun g2 h2 => ?_)
  · obtain ⟨passed,rfl,hchk⟩ := h2
    have hrow : Ensures rowProtocol (withChecked g1 passed).row (insertRows R k1 rows)
        (fun g _ => g.Done fun _ => True) fun g => g.Done fun _ => True := by
      rw [show (withChecked g1 passed).row = {} from h1.row]
      exact ensures_insertRows k1 rows _
    have htable : (withChecked g1 passed).own.uq.table = some (k1,keys) := h1.uq.table
    have hwrote : (withChecked g1 passed).own.uq.wrote = [] := h1.uq.wrote
    refine (ensures_storage hrow (uq_insertRows hR htable hwrote (hb _ rows hrows) hchk k1)).mono
      (fun _ _ h => ?_) fun _ h => ?_
    · exact h.2.2.trans h1.holds
    · exact h.2.2.trans h1.holds
  · rw [h2]
    exact h1.holds

theorem ensures_updateBody (hR : Faithful R) (hg : Beginning g) (k1 : TableKey) (positions : Option (List Int))
    (matchFn : Tuple → Except String Bool) (updateFn : List V → Except String (List V))
    (validate : List Int → List (List V) → Except String Unit) : Ensures (dmlProtocol R k u) g (do
        let keys ← getTableSchema k1
        let (txID,info,vs) ← storage (stampPhaseVM R k1 positions matchFn updateFn)
        if List.isEmpty vs then pure 0
        else do
          let indices := vs.map fun v => v.old.rowIdx
          let newRows := vs.map NewVersion.newRow
          Stmt.onError (do
            orThrow (validate indices newRows)
            enforceUniqueConstraintsOnUpdate keys indices newRows) (storage (revertPhaseVM vs))
          storage (storePhaseVM R txID info vs) : Call V Int)
      (fun g' _ => g'.own.holds = g.own.holds) fun g' => g'.own.holds = g.own.holds := by
  refine (ensures_getTableSchema hg k1).bind fun g1 keys h1 => ?_
  have hrow : Ensures rowProtocol g1.row (stampPhaseVM R k1 positions matchFn updateFn)
      (fun g r => g.Released r.1 r.2.1 r.2.2) fun g => g.Done fun _ => False := by
    rw [h1.row]
    exact ensures_stampPhaseVM k1 positions matchFn updateFn _ fun _ h => h.elim
  refine ensures_bind.2 ((ensures_storage hrow (uq_stampPhaseVM h1.uq k1 positions matchFn updateFn)).mono
    (fun g2 r h2 => ?_) fun _ he => he.2.2.trans h1.holds)
  obtain ⟨x,info,vs⟩ := r
  obtain ⟨hrel,⟨huq,henc⟩,hholds⟩ := h2
  replace hholds := hholds.trans h1.holds
  dsimp only at hrel henc ⊢
  split
  · exact hholds
  -- a failed check is followed by the reverted stamps
  have hrevert : ∀ g3 : Watched (Own V), g3 = withChecked g2 [] →
      Ensures (dmlProtocol R k u) g3 (storage (revertPhaseVM vs)) (fun g' _ => g'.own.holds = g.own.holds)
        fun g' => g'.own.holds = g.own.holds := by
    rintro g3 rfl
    refine (ensures_storage (g := withChecked g2 []) (ensures_revertPhaseVM hrel)
      (uq_revertPhaseVM rfl vs)).mono (fun _ _ h => ?_) fun _ h => ?_
    · exact h.2.2.trans hholds
    · exact h.2.2.trans hholds
  refine ensures_bind.2 (ensures_onError ?_)
  refine ensures_bind.2 (ensures_throwing (fun _ _ => ?_) fun _ _ => hrevert _ ?_)
  · refine (ensures_enforceUnique keys _ _ huq.checked).mono (fun g3 _ h3 => ?_) hrevert
    obtain ⟨passed,rfl,hchk⟩ := h3
    refine (ensures_storage (g := withChecked g2 passed) (ensures_storePhaseVM (fun _ => True) hrel)
      (uq_storePhaseVM hR huq.table huq.wrote (huq.schema trivial) henc hchk)).mono (fun _ _ h => ?_) fun _ h => ?_
    · exact h.2.2.trans hholds
    · exact h.2.2.trans hholds
  · have hsame : g2.own.uq = { g2.own.uq with checked := [] } := by
      rw [← huq.checked]
    rw [withChecked,← hsame]

theorem follows_uniqueStatement (hR : Faithful R) {k1 : TableKey} {x : Call V Int} (h : UniqueStatement R k1 x) :
    Follows (dmlProtocol R k u) { own := {} } x.toProg fun _ _ => True := by
  have hx : Ensures (dmlProtocol R k u) { own := {} } x (fun _ _ => True) fun _ => True := by
    cases h with
    | fastPathInsert build hb =>
      exact (ensures_insertChecked hR ⟨rfl,rfl⟩ k1 fun sc rows h => (hb sc rows h).2).mono (fun _ _ _ => trivial)
        fun _ _ => trivial
    | insertCommand build hb => exact ensures_mutateUnderTableLock rfl (ensures_insertChecked hR ⟨rfl,rfl⟩ k1 hb)
    | updateCommand positions matchFn updateFn validate =>
      exact ensures_mutateUnderTableLock rfl
        (ensures_updateBody hR ⟨rfl,rfl⟩ k1 positions matchFn updateFn validate)
  exact follows_bind.2 (Follows.mono hx fun _ _ _ => trivial)
end
end VaultDB.Dml
