import VaultDB.Storage.Keys
import VaultDB.Storage.Storing
set_option autoImplicit false

/-!
Primary keys.

`InsertRows` looks for the first key column of its rows under the table lock; the updates do not
look at all.
-/

namespace VaultDB.Storage
open Lib Stmt Exec List Option
variable {t : Tuple} {info : TableInfo} {loc : PageSlot} {d : List UInt8}
section
variable {V : Type} (R : RowOps V)
def pkColumn (schema : TableSchema) : Option Nat := schema.columns.findIdx? (·.primaryKey)

def pkIndexOf (info : TableInfo) : Option Index :=
  ((pkColumn info.schema).bind fun i => info.schema.columns[i]?).bind fun col =>
    info.indexes.find? fun idx => R.toLower idx.column == R.toLower col.name

def pkValue (schema : TableSchema) (data : List UInt8) : Option V :=
  (pkColumn schema).bind fun p => (R.decodeRow schema data).bind (·[p]?)
end

/-- What an `InsertRows` has looked at.  A second look at the table's state is how the updates
begin, so it tells the two kinds apart. -/
structure PkWatcher where
  info : Option TableInfo := none
  update : Bool := false
  scan : Option (List (PageSlot × Tuple)) := none
  counted : Bool := false
  wrote : List Tuple := []

section
variable {V : Type} (R : RowOps V) {g : PkWatcher} {α β : Type}
namespace PkWatcher

def Ready (g : PkWatcher) (info : TableInfo) : Prop :=
  match pkIndexOf R info with
  | some _ => g.counted = true
  | none => pkColumn info.schema ≠ none → g.scan ≠ none

def Finds (g : PkWatcher) (info : TableInfo) (v : V) : Prop :=
  match pkIndexOf R info with
  | some idx => idx.lookup (R.sprint v) = true
  | none => ∃ p slots, pkColumn info.schema = some p ∧ g.scan = some slots ∧ v ∈ existingPKs R info.schema p slots

def Checked (g : PkWatcher) (t : Tuple) : Prop :=
  ∃ info, g.info = some info ∧ g.Ready R info ∧ ∀ v, pkValue R info.schema t.data = some v →
    ¬ g.Finds R info v ∧ ∀ t' ∈ g.wrote, pkValue R info.schema t'.data ≠ some v

def next (g : PkWatcher) : (c : Cmd) → c.Res → PkWatcher
  | .getInfo, info =>
    if g.info.isNone then { g with info := some info, scan := none, counted := false } else { g with update := true }
  | .scanSlots, (slots,_) => { g with scan := some slots }
  | .pageCount, some _ => { g with counted := true }
  | .insertTuple _ t, some _ => { g with wrote := t :: g.wrote }
  | _, _ => g

def allowed (g : PkWatcher) : Cmd → Prop
  | .lockTable => g.update = true ∨ g.info = none
  | .relockTable => g.update = true
  | .clearXMax _ => g.update = true
  | .insertTuple _ t => g.update = true ∨ g.Checked R t
  | _ => True

end PkWatcher

def pkProtocol : Protocol Cmd Cmd.Res PkWatcher := ⟨PkWatcher.allowed R,PkWatcher.next⟩

variable {R}
theorem PkWatcher.update_next (h : g.update = true) (c : Cmd) (r : c.Res) : (g.next c r).update = true := by
  cases c with
  | getInfo =>
    simp only [next]
    split
    · exact h
    · rfl
  | insertTuple | pageCount => cases r <;> exact h
  | _ => exact h

theorem follows_update (h : g.update = true) (p : Prog Cmd Cmd.Res α) :
    Follows (pkProtocol R) g p fun g _ => g.update = true := by
  induction p generalizing g with
  | ret a => exact h
  | step c k ih =>
    refine ⟨?_,fun r => ih r (PkWatcher.update_next h c r)⟩
    cases c with
    | lockTable | insertTuple => exact .inl h
    | relockTable | clearXMax => exact h
    | _ => trivial

theorem ensures_update (h : g.update = true) (x : Exec α) :
    Ensures (pkProtocol R) g x (fun g _ => g.update = true) fun g => g.update = true :=
  Follows.mono (follows_update h x.run) fun _ r hg => by cases r <;> exact hg

theorem PkWatcher.update_of_asked (h : g.info ≠ none) (info : TableInfo) : (g.next .getInfo info).update = true := by
  simp only [next]
  rw [if_neg (by simpa using h)]

def LooksAgain {α : Type} (R : RowOps V) (x : Exec α) : Prop :=
  ∀ g : PkWatcher, g.info ≠ none → Ensures (pkProtocol R) g x (fun g _ => g.update = true) fun g => g.update = true

theorem LooksAgain.bind {x : Exec α} (h : LooksAgain R x) (f : α → Exec β) : LooksAgain R (x >>= f) :=
  fun g hg => (h g hg).bind fun _ _ hu => ensures_update hu _

theorem looksAgain_ensurePosDirectory : LooksAgain R ensurePosDirectory :=
  fun _ hg => ensures_step.2 ⟨trivial,fun info => ensures_update (PkWatcher.update_of_asked hg info) _⟩

theorem pk_update (k : TableKey) {body : TableInfo → Exec α} {rest : α → Exec β}
    (h : ∀ info, LooksAgain R (body info)) :
    Ensures (pkProtocol R) {} (getTableForWrite k >>= fun _ => unlockOnError (Exec.cmd .getInfo >>= body) >>= rest)
      (fun _ _ => True) fun _ => True := by
  refine (ensures_getTable k (Or.inr rfl) fun _ => rfl).bind fun g _ hg => ?_
  subst hg
  have hbody : Ensures (pkProtocol R) {} (Exec.cmd .getInfo >>= body) (fun g _ => g.update = true) fun _ => True :=
    ensures_step.2 ⟨trivial,fun info => (h info _ (by simp [pkProtocol,PkWatcher.next])).mono (fun _ _ hu => hu)
      fun _ _ => trivial⟩
  refine (ensures_releasing (fun _ => trivial) hbody).bind fun g' a hu => ?_
  exact (ensures_update hu _).mono (fun _ _ _ => trivial) fun _ _ => trivial
end

def RowOps.RoundTrips {V : Type} (R : RowOps V) : Prop :=
  ∀ schema row bytes, row.length = schema.columns.length → R.encodeRow row = .ok bytes →
    R.decodeRow schema bytes = some row

section
variable {V : Type} {R : RowOps V} {x : Nat} {seen row : List V}
theorem length_normalizeRow {cols : List ColumnSchema} {i : Nat} {ns : List V}
    (h : normalizeRow R row cols i = .ok ns) : ns.length = cols.length := by
  induction cols generalizing i ns with
  | nil =>
    cases h
    rfl
  | cons col cols ih =>
    simp only [normalizeRow] at h
    split at h
    · cases h
    · split at h
      · cases h
      · rename_i vs hvs
        cases h
        simp [ih hvs]

theorem pkValue_encodePageTuple (hR : R.RoundTrips) {schema : TableSchema}
    (hlen : row.length = schema.columns.length) (h : encodePageTuple R x row = .ok t) :
    pkValue R schema t.data = (pkColumn schema).bind fun p => row[p]? := by
  simp [pkValue,hR schema row _ hlen (encodePageTuple_ok h).2.1]

def Screened (R : RowOps V) (info : TableInfo) : List V → List (List UInt8) → Prop
  | _, [] => True
  | seen, d :: ds => (∀ v, pkValue R info.schema d = some v → v ∉ seen ∧
      ∀ idx, pkIndexOf R info = some idx → idx.lookup (R.sprint v) = false) ∧
      Screened R info ((pkValue R info.schema d).toList++seen) ds

theorem screened_encodeRows [BEq V] [LawfulBEq V] (hR : R.RoundTrips) {rows : List (List V)} {ts : List Tuple}
    (h : encodeRows R info.schema (pkColumn info.schema) (pkIndexOf R info) x rows seen = .ok ts) :
    Screened R info seen (ts.map Tuple.data) := by
  induction rows generalizing seen ts with
  | nil =>
    cases h
    trivial
  | cons row rows ih =>
    obtain ⟨ns,t,ts',hns,ht,htaken,hts,rfl⟩ := encodeRows_cons_ok h
    have hpk := pkValue_encodePageTuple hR (length_normalizeRow hns) ht
    refine ⟨fun v hv => ?_,?_⟩
    · rw [hpk] at hv
      rw [hv,any_some,Bool.or_eq_false_iff] at htaken
      refine ⟨fun hmem => ?_,fun idx hidx => ?_⟩
      · simp [hmem] at htaken
      · simpa [hidx] using htaken.1
    · rw [hpk]
      exact ih hts
end

section
variable {V : Type} {R : RowOps V} {x : Nat} {g : PkWatcher} {seen : List V}
/-- An `InsertRows` about to store these rows: `seen` has every key its check can find and
every key it has stored. -/
structure PkWatcher.Passing (R : RowOps V) (g : PkWatcher) (info : TableInfo) (seen : List V)
    (ds : List (List UInt8)) : Prop where
  asked : g.info = some info
  ready : g.Ready R info
  finds : pkIndexOf R info = none → ∀ v, g.Finds R info v → v ∈ seen
  wrote : ∀ t ∈ g.wrote, ∀ v, pkValue R info.schema t.data = some v → v ∈ seen
  screened : Screened R info seen ds

variable {ds : List (List UInt8)} {k : TableKey}
theorem PkWatcher.Passing.checked (h : g.Passing R info seen (t.data :: ds)) : g.Checked R t := by
  refine ⟨info,h.asked,h.ready,fun v hv => ⟨fun hf => ?_,fun t' ht' hv' => ?_⟩⟩
  · obtain ⟨hnew,hidx⟩ := h.screened.1 v hv
    cases hix : pkIndexOf R info with
    | none => exact hnew (h.finds hix v hf)
    | some idx =>
      rw [Finds,hix] at hf
      simp [hidx idx hix] at hf
  · exact (h.screened.1 v hv).1 (h.wrote t' ht' v hv')

theorem PkWatcher.Passing.placed (h : g.Passing R info seen (t.data :: ds)) :
    ({ g with wrote := t :: g.wrote } : PkWatcher).Passing R info
    ((pkValue R info.schema t.data).toList++seen) ds := by
  refine ⟨h.asked,h.ready,fun hix v hv => mem_append_right _ (h.finds hix v hv),fun t' ht' v hv => ?_,h.screened.2⟩
  rcases mem_cons.1 ht' with rfl | ht'
  · simp [hv]
  · exact mem_append_right _ (h.wrote t' ht' v hv)

theorem PkWatcher.Passing.counted
    (h : g.Passing R info seen ds) : ({ g with counted := true } : PkWatcher).Passing R info seen ds := by
  refine { h with ready := ?_ }
  have hr := h.ready
  unfold Ready at hr ⊢
  split
  · rfl
  · rename_i hix
    rw [hix] at hr
    exact hr

theorem pk_stores (info : TableInfo) : Stores (pkProtocol R) fun ds (g : PkWatcher) => ∃ seen,
    g.Passing R info seen ds := by
  constructor
  · rintro g t ds ⟨seen,hg⟩ pid
    exact ⟨.inr hg.checked,fun _ => ⟨_,hg.placed⟩,seen,hg⟩
  · rintro g c ds ⟨seen,hg⟩ hc
    cases c with
    | pageCount =>
      refine ⟨trivial,fun r => ⟨seen,?_⟩⟩
      cases r with
      | none => exact hg
      | some n => exact hg.counted
    | lockPage | unlockPage | fetchPage | freeSpace | allocatePage | setHOTUpdated | unpinPage | unpinPageDirty
    | logInsert | setInfo => exact ⟨trivial,fun _ => ⟨seen,hg⟩⟩
    | _ => cases hc

theorem pk_insertRows [BEq V] [LawfulBEq V] (hR : R.RoundTrips) (k : TableKey) (rows : List (List V)) :
    Ensures (pkProtocol R) {} (insertRows R k rows) (fun _ _ => True) fun _ => True := by
  refine ensures_step.2 ⟨trivial,fun x => ensures_bind.2 ?_⟩
  refine (ensures_getTable k (Or.inr rfl) fun _ => rfl).mono (fun g _ hg => ?_) fun _ h => h
  subst hg
  refine ensures_bind.2 (Ensures.mono (Q := fun g _ => g.info ≠ none) (ensures_releasing (fun _ => trivial) ?_)
    (fun g' _ hg => ?_) fun _ h => h)
  · refine ensures_step.2 ⟨trivial,fun info => ?_⟩
    refine (ensures_scanIf (Q := fun g scan => g.info = some info ∧ g.wrote = [] ∧
      (((pkColumn info.schema).isSome && (pkIndexOf R info).isNone) = true → g.scan = some (Prod.fst scan))) _ trivial
      (fun _ _ => ⟨rfl,rfl,fun _ => rfl⟩) fun hskip =>
      ⟨rfl,rfl,fun hb => nomatch hb.symm.trans hskip⟩).bind fun g scan hg => ?_
    obtain ⟨hinfo,hwrote,hslots⟩ := hg
    refine ensures_bind.2 (ensures_orThrow (fun ts hts => ?_) fun _ _ => trivial)
    refine ensures_step.2 ⟨trivial,fun count => ?_⟩
    cases count with
    | none => trivial
    | some count =>
      have hscanned : pkIndexOf R info = none → pkColumn info.schema ≠ none → g.scan = some scan.1 := by
        intro hix hpk
        refine hslots ?_
        simp [hix,isSome_iff_ne_none.2 hpk]
      have hpass : ({ g with counted := true } : PkWatcher).Passing R info
          (((pkColumn info.schema).map fun i => existingPKs R info.schema i scan.1).getD [])
          (ts.map Tuple.data++[]) := by
        rw [append_nil]
        refine ⟨hinfo,?_,fun hix v hv => ?_,?_,screened_encodeRows hR hts⟩
        · unfold PkWatcher.Ready
          split
          · rfl
          · rename_i hix
            exact fun hpk => ne_none_iff_exists'.2 ⟨_,hscanned hix hpk⟩
        · rw [PkWatcher.Finds,hix] at hv
          obtain ⟨p,slots,hp,hs,hmem⟩ := hv
          have hs' := (hscanned hix (by simp [hp])).symm.trans hs
          rw [some.inj hs',hp]
          exact hmem
        · intro t ht
          simp [hwrote] at ht
      refine ((pk_stores info).insertTuples ⟨_,hpass⟩).mono (fun g' _ hg' => ?_) fun _ h => h
      obtain ⟨seen,hseen⟩ := hg'
      simp [hseen.asked]
  · -- the rest looks at the table's state a second time
    refine ensures_step.2 ⟨trivial,fun _ => ensures_bind.2 (ensures_step.2 ⟨trivial,fun _ =>
      ensures_step.2 ⟨trivial,fun info => ?_⟩⟩)⟩
    refine (ensures_update (PkWatcher.update_of_asked hg info) _).mono (fun g'' count _ => ?_) fun _ _ => trivial
    exact ensures_step.2 ⟨trivial,fun _ => trivial⟩

inductive KeyStatement [BEq V] (R : RowOps V) (k : TableKey) : Exec Int → Prop where
  | insertRows (rows : List (List V)) : KeyStatement R k (insertRows R k rows)
  | updateRows (indices : List Int) (updates : List (String × V)) :
      KeyStatement R k (updateRows R k indices updates)
  | updateRowsDirect (indices : List Int) (newValues : List (List V)) :
      KeyStatement R k (updateRowsDirect R k indices newValues)
  | updateRowsVM (positions : Option (List Int)) (matchFn : Tuple → Except String Bool)
      (updateFn : List V → Except String (List V))
      (validateFn : List Int → List (List V) → Except String Unit) :
      KeyStatement R k (updateRowsVM R k positions matchFn updateFn validateFn)

theorem KeyStatement.row [BEq V] {x : Exec Int} (h : KeyStatement R k x) : RowStatement R k x := by
  cases h with
  | insertRows rows => exact .insertRows rows
  | updateRows indices updates => exact .updateRows indices updates
  | updateRowsDirect indices newValues => exact .updateRowsDirect indices newValues
  | updateRowsVM positions matchFn updateFn validateFn => exact .updateRowsVM positions matchFn updateFn validateFn

section
variable [BEq V] [LawfulBEq V] (hR : R.RoundTrips) {x : Exec Int} (h : KeyStatement R k x)
include hR h
theorem pk_keyStatement : Ensures (pkProtocol R) {} x (fun _ _ => True) fun _ => True := by
  cases h with
  | insertRows rows => exact pk_insertRows hR k rows
  | updateRows indices updates =>
    refine ensures_step.2 ⟨trivial,fun x => pk_update k fun info => ?_⟩
    exact (looksAgain_ensurePosDirectory.bind _).bind _
  | updateRowsDirect indices newValues =>
    refine ensures_step.2 ⟨trivial,fun x => pk_update k fun info => ?_⟩
    exact (looksAgain_ensurePosDirectory.bind _).bind _
  | updateRowsVM positions matchFn updateFn validateFn =>
    refine ensures_step.2 ⟨trivial,fun x => pk_update k fun info => ?_⟩
    exact (looksAgain_ensurePosDirectory.bind _).bind _

theorem follows_pk : Follows (pkProtocol R) {} x.toProg fun _ _ => True :=
  follows_bind.2 (Follows.mono (pk_keyStatement hR h) fun _ _ _ => trivial)
end
end

section
variable {V : Type} (R : RowOps V) (k : TableKey) (sc : TableSchema) {cf : WatchedConfig PkWatcher} {v : V}
def pkMachine [BEq V] : Machine Cmd Cmd.Res (Watched PkWatcher) TableKey Engine EnvEvent :=
  watchedMachine (pkProtocol R) {} fun k p => ∃ x, KeyStatement R k x ∧ p = x.toProg

/-- What a command on the table has to meet.  An update stores under a key it has taken away, each
once; an `InsertRows` stores a key no update has still to put back, its scan reaches and decodes
every row, and its index knows every row. Versions are stamped while live, and a stamp is taken back
once. -/
def PkCare (s : Engine) (ths : List (WatchedThread PkWatcher)) (i : Nat) (g : Watched PkWatcher) :
    (c : Cmd) → c.Res → Prop
  | .insertTuple _ t, some _ => ∀ v, pkValue R sc t.data = some v → if g.own.update = true then
        (∃ loc ∈ g.out, ∃ t₀, s.mem k loc = some t₀ ∧ pkValue R sc t₀.data = some v) ∧
          ∀ e ∈ g.row.wrote, pkValue R sc e.2.data ≠ some v
      else ∀ (j : Nat) th, ths[j]? = some th → j ≠ i → th.tag = k → ∀ loc ∈ owed th, ∀ t₀, s.mem k loc = some t₀ →
        pkValue R sc t₀.data ≠ some v
  | .scanSlots, (slots,_) => g.own.update = false → (∀ x ∈ slots, R.decodeRow sc x.2.data ≠ none) ∧
        ∀ loc t, s.mem k loc = some t → t.deletedTx = 0 → (loc,t) ∈ slots
  | .pageCount, some _ => g.own.update = false → ∀ info idx, g.own.info = some info → pkIndexOf R info = some idx →
      ∀ loc d v, s.live k loc = some d → pkValue R sc d = some v → idx.lookup (R.sprint v) = true
  | .putXMax loc _, true => s.live k loc ≠ none
  | .clearXMax loc, true => loc ∈ g.out
  | _, _ => True

def PkStep (cf : WatchedConfig PkWatcher) : Event Cmd Cmd.Res TableKey EnvEvent → Prop
  | .spawn _ _ => True
  | .env e => e ≠ .checkpoint
  | .run i k' c r => ¬ c.Failed r ∧
      (k' = k → ∀ th, cf.threads[i]? = some th → PkCare R k sc cf.state cf.threads i th.watcher c r)

structure PkOwn (s : Engine) (g : Watched PkWatcher) : Prop where
  schema : ∀ info, g.own.info = some info → info.schema = sc
  wrote : ∀ e ∈ g.row.wrote, e.2 ∈ g.own.wrote
  known : g.row.locked = true → g.own.update = false → ∀ info, g.own.info = some info → g.own.Ready R info →
    ∀ loc d v, s.live k loc = some d → pkValue R sc d = some v →
      g.own.Finds R info v ∨ ∃ e ∈ g.row.wrote, e.1 = loc ∧ e.2.data = d

structure PkInv (cf : WatchedConfig PkWatcher) : Prop where
  sane : Sane cf.state (cf.threads.map fun th => (th.tag,th.watcher.row))
  keys : KeyInv (pkValue R sc) k cf.state cf.threads
  schema : ∃ t, cf.state.tables k = some t ∧ t.info.schema = sc
  own : ∀ {i : Nat} {th}, cf.threads[i]? = some th → th.tag = k → PkOwn R k sc cf.state th.watcher

variable {R k sc}
theorem mem_existingPKs {p : Nat} {slots : List (PageSlot × Tuple)}
    (hdec : ∀ x ∈ slots, R.decodeRow sc x.2.data ≠ none)
    (hmem : (loc,t) ∈ slots) (hdel : t.deletedTx = 0)
    (hv : (R.decodeRow sc t.data).bind (·[p]?) = some v) : v ∈ existingPKs R sc p slots := by
  induction slots with
  | nil => simp at hmem
  | cons x slots ih =>
    obtain ⟨loc',t'⟩ := x
    obtain ⟨row',hrow'⟩ := ne_none_iff_exists'.1 (hdec (loc',t') mem_cons_self)
    simp only at hrow'
    simp only [existingPKs,hrow']
    rcases mem_cons.1 hmem with he | hmem
    · cases he
      rw [hrow',bind_some] at hv
      simp [Tuple.xmax,hdel,hv]
    · exact mem_append_right _ (ih (fun y hy => hdec y (mem_cons_of_mem _ hy)) hmem)

variable {s s' : Engine} {ths : List (WatchedThread PkWatcher)} {i : Nat} {g : Watched PkWatcher}
    {c : Cmd} {r : c.Res}
  {kont : c.Res → Prog Cmd Cmd.Res Unit}
theorem PkInv.keyStep (h : PkInv R k sc cf)
    (hi : cf.threads[i]? = some ⟨k,g,.step c kont⟩) (ha : (watchedProtocol (pkProtocol R)).allowed g c)
    (hok : PkCare R k sc cf.state cf.threads i g c r) : KeyStep (pkValue R sc) k cf.state cf.threads i g c r := by
  cases c with
  | insertTuple pid t =>
    cases r with
    | none => trivial
    | some slot =>
      intro v hv
      have hcare := hok v hv
      have hown := h.own hi rfl
      by_cases hup : g.own.update = true
      · rw [if_pos hup] at hcare
        obtain ⟨⟨loc,hl,t0,hm,hv0⟩,hnew⟩ := hcare
        refine ⟨fun loc' d hd hv' => ?_,fun j th hj hne htag loc' hl' t1 hm' hv' => ?_⟩
        · obtain ⟨e,he,-,rfl⟩ := h.keys.free hi rfl hl hm hd ⟨v,hv0,hv'⟩
          exact hnew e he hv'
        · exact hne (h.keys.apart hj hi htag rfl hl' hl hm' hm ⟨v,hv',hv0⟩).1
      · rw [if_neg hup] at hcare
        refine ⟨fun loc' d hd hv' => ?_,hcare⟩
        obtain ⟨info,hinfo,hready,hchk⟩ := ha.2.resolve_left hup
        have hsc := hown.schema info hinfo
        rw [hsc] at hchk
        have hlk := ((h.sane.steady.thread i k g.row (by simp [hi])).pin pid ha.1.1).1
        rcases hown.known hlk (by simpa using hup) info hinfo hready loc' d v hd hv' with hf | ⟨e,he,-,rfl⟩
        · exact (hchk v hv).1 hf
        · exact (hchk v hv).2 e.2 (hown.wrote e he) hv'
  | putXMax | clearXMax => cases r <;> exact hok
  | _ => trivial

theorem PkWatcher.wrote_next {g : Watcher} {o : PkWatcher} (ha : g.allowed c) (h : ∀ e ∈ g.wrote, e.2 ∈ o.wrote) :
    ∀ e ∈ (g.next c r).wrote, e.2 ∈ (o.next c r).wrote := by
  intro e he
  rcases Watcher.wrote_cases ha he with hold | ⟨pid,slot,heq⟩
  · cases c with
    | insertTuple =>
      cases r with
      | none => exact h e hold
      | some slot => exact mem_cons_of_mem _ (h e hold)
    | getInfo =>
      simp only [next]
      split <;> exact h e hold
    | pageCount => cases r <;> exact h e hold
    | _ => exact h e hold
  · cases heq
    exact mem_cons_self

theorem PkOwn.known_keep (h : PkOwn R k sc s g) {w : List (PageSlot × Tuple)} (hw : ∀ e ∈ g.row.wrote, e ∈ w)
    (hlive : ∀ loc d, s'.live k loc = some d → s.live k loc = some d ∨ ∃ e ∈ w, e.1 = loc ∧ e.2.data = d)
    (hlk : g.row.locked = true) (hup : g.own.update = false) (hinfo : g.own.info = some info)
    (hready : g.own.Ready R info) (hd : s'.live k loc = some d)
    (hv : pkValue R sc d = some v) : g.own.Finds R info v ∨ ∃ e ∈ w, e.1 = loc ∧ e.2.data = d := by
  rcases hlive loc d hd with hd | hnew
  · refine (h.known hlk hup info hinfo hready loc d v hd hv).imp_right ?_
    rintro ⟨e,he,heq⟩
    exact ⟨e,hw e he,heq⟩
  · exact .inr hnew

theorem pkColumn_of_value (hv : pkValue R sc d = some v) : pkColumn sc ≠ none := by
  intro hn
  simp [pkValue,hn] at hv

theorem schema_of_getInfo {r : TableInfo} (hs : s.Answers i k .getInfo r s')
    (hsc : ∃ t, s.tables k = some t ∧ t.info.schema = sc) : r.schema = sc := by
  obtain ⟨t,ht,hsc⟩ := hsc
  cases Engine.shape hs with
  | quiet hq => cases hq
  | getInfo ht' =>
    obtain rfl := some.inj (ht.symm.trans ht')
    exact hsc
  | logFail hf => exact hf.elim

theorem PkOwn.self (h : PkOwn R k sc s g) (hsane : Sane s (ths.map fun th => (th.tag,th.watcher.row)))
    (hi : ths[i]? = some ⟨k,g,.step c kont⟩)
    (ha : (watchedProtocol (pkProtocol R)).allowed g c) (hf : ¬ c.Failed r) (hs : s.Answers i k c r s')
    (hsc : ∃ t, s.tables k = some t ∧ t.info.schema = sc) (hok : PkCare R k sc s ths i g c r) :
    PkOwn R k sc s' ((watchedProtocol (pkProtocol R)).next g c r) := by
  have he := hsane.effect hs
  have hw := Watcher.wrote_next (r := r) ha.1 hf
  have hlive : g.own.update = false → ∀ loc d, s'.live k loc = some d →
      s.live k loc = some d ∨ ∃ e ∈ (g.row.next c r).wrote, e.1 = loc ∧ e.2.data = d := by
    intro hup loc d hd
    rcases hsane.live_cases (by simp [hi]) ha.1 hs hd with hd | ⟨t,rfl,hr,rfl⟩ | ⟨rfl,-⟩
    · exact .inl hd
    · cases hr
      exact .inr ⟨(loc,t),by simp [Watcher.wrote,Watcher.next],rfl,rfl⟩
    · cases (show g.own.update = true from ha.2).symm.trans hup
  refine ⟨?_,PkWatcher.wrote_next ha.1 h.wrote,?_⟩
  · intro info hinfo
    cases c with
    | getInfo =>
      simp only [watchedProtocol,pkProtocol,PkWatcher.next] at hinfo
      split at hinfo
      · cases hinfo
        exact schema_of_getInfo hs hsc
      · exact h.schema info hinfo
    | insertTuple | pageCount => cases r <;> exact h.schema info hinfo
    | _ => exact h.schema info hinfo
  · intro hlk hup info hinfo hready loc d v hd hv
    cases c with
    | getInfo =>
      simp only [watchedProtocol,pkProtocol,PkWatcher.next] at hup hinfo hready
      by_cases hn : g.own.info.isNone = true
      · rw [if_pos hn] at hinfo hready
        cases hinfo
        unfold PkWatcher.Ready at hready
        split at hready
        · cases hready
        · rw [schema_of_getInfo hs hsc] at hready
          exact absurd rfl (hready (pkColumn_of_value hv))
      · rw [if_neg hn] at hup
        cases hup
    | scanSlots =>
      obtain ⟨slots,ok⟩ := r
      cases hix : pkIndexOf R info with
      | some idx =>
        have hready' : g.own.Ready R info := by
          rw [PkWatcher.Ready,hix] at hready ⊢
          exact hready
        have hk := h.known_keep hw (hlive hup) hlk hup hinfo hready' hd hv
        rw [PkWatcher.Finds,hix] at hk ⊢
        exact hk
      | none =>
        obtain ⟨hdec,hall⟩ := hok hup
        obtain ⟨p,hp⟩ := ne_none_iff_exists'.1 (pkColumn_of_value hv)
        rw [((he.live loc).eq rfl : s'.live k loc = s.live k loc)] at hd
        obtain ⟨t,hm,hdel,rfl⟩ := Engine.live_eq_some.1 hd
        rw [pkValue,hp,bind_some] at hv
        rw [PkWatcher.Finds,hix,h.schema info hinfo]
        exact .inl ⟨p,slots,hp,rfl,mem_existingPKs hdec (hall loc t hm hdel) hdel hv⟩
    | pageCount =>
      cases r with
      | none => exact h.known_keep hw (hlive hup) hlk hup hinfo hready hd hv
      | some n =>
        cases hix : pkIndexOf R info with
        | some idx =>
          rw [((he.live loc).eq rfl : s'.live k loc = s.live k loc)] at hd
          rw [PkWatcher.Finds,hix]
          exact .inl (hok hup info idx hinfo hix loc d v hd hv)
        | none =>
          have hready' : g.own.Ready R info := by
            rw [PkWatcher.Ready,hix] at hready ⊢
            exact hready
          have hk := h.known_keep hw (hlive hup) hlk hup hinfo hready' hd hv
          rw [PkWatcher.Finds,hix] at hk ⊢
          exact hk
    | lockTable =>
      rcases ha.2 with hc | hc
      · cases hc.symm.trans hup
      · cases hc.symm.trans hinfo
    | relockTable =>
      have hc : g.own.update = true := ha.2
      cases hc.symm.trans hup
    | unlockTable => cases hlk
    | insertTuple | putXMax | clearXMax | fetchPage | allocatePage | logInsert | logDelete | logCommit =>
      cases r <;> exact h.known_keep hw (hlive hup) hlk hup hinfo hready hd hv
    | _ => exact h.known_keep hw (hlive hup) hlk hup hinfo hready hd hv

theorem PkOwn.other (h : PkOwn R k sc s g) (hlive : g.row.locked = true → ∀ loc, s'.live k loc = s.live k loc) :
    PkOwn R k sc s' g := by
  refine ⟨h.schema,h.wrote,fun hlk hup info hinfo hready loc d v hd hv => ?_⟩
  rw [hlive hlk] at hd
  exact h.known hlk hup info hinfo hready loc d v hd hv

theorem PkInv.run (h : PkInv R k sc cf) {k0 : TableKey} (hi : cf.threads[i]? = some ⟨k0,g,.step c kont⟩)
    (ha : (watchedProtocol (pkProtocol R)).allowed g c) (hs : cf.state.Answers i k0 c r s')
    (hok : PkStep R k sc cf (.run i k0 c r)) :
    PkInv R k sc ⟨s',cf.threads.set i ⟨k0,(watchedProtocol (pkProtocol R)).next g c r,kont r⟩⟩ := by
  obtain ⟨hf,hcare⟩ := hok
  have he := h.sane.effect hs
  have hkey : k0 = k → KeyStep (pkValue R sc) k cf.state cf.threads i g c r := by
    rintro rfl
    exact h.keyStep hi ha (hcare rfl _ hi)
  obtain ⟨hsane,hkeys,hschema⟩ := h.keys.engine h.sane h.schema hi ha.1 hf hs hkey (g.own.next c r) (kont r)
  refine ⟨hsane,hkeys,hschema,?_⟩
  · intro j th hj htag
    rcases thread_set_cases hj with ⟨rfl,rfl⟩ | ⟨hne,hj⟩
    · obtain rfl : k0 = k := htag
      exact (h.own hi rfl).self h.sane hi ha hf hs h.schema (hcare rfl _ hi)
    · refine (h.own hj htag).other fun hlk loc => Engine.live_congr ?_
      by_cases hk : k0 = k
      · subst hk
        have hi' := h.sane.steady.thread i k0 g.row (by simp [hi])
        have hj' := h.sane.steady.thread j k0 th.watcher.row (by simp [hj,htag])
        have hun : g.row.locked = false := by
          by_contra hl
          exact hne (hj'.lock_unique hi' hlk (by simpa using hl))
        exact he.unlockedMem hi' ha.1 hun k0 loc
      · exact he.otherMem (Ne.symm hk) loc

theorem PkInv.spawn (h : PkInv R k sc cf) (k0 : TableKey) (p : Prog Cmd Cmd.Res Unit) :
    PkInv R k sc ⟨cf.state,cf.threads++[⟨k0,{ own := {} },p⟩]⟩ := by
  refine ⟨by simpa using h.sane.spawn k0,h.keys.spawn k0 _ p,h.schema,fun {j th} hj htag => ?_⟩
  rcases thread_concat_cases hj with hj | ⟨-,rfl⟩
  · exact h.own hj htag
  · exact ⟨nofun,by simp [Watcher.wrote],nofun⟩

theorem PkInv.env (h : PkInv R k sc cf) {e : EnvEvent} (hne : e ≠ .checkpoint)
    (he : cf.state.Env e s') : PkInv R k sc ⟨s',cf.threads⟩ := by
  obtain ⟨hsane,hmem⟩ := h.sane.env hne he
  refine ⟨hsane,h.keys.env (hmem k),?_,fun hj htag => (h.own hj htag).other fun _ loc =>
    Engine.live_congr (hmem k loc)⟩
  obtain ⟨t,ht,hsc⟩ := h.schema
  obtain ⟨t',ht',hsc'⟩ := he.schema hne ht
  exact ⟨t',ht',hsc'.trans hsc⟩

def AgreeOnKey (sc : TableSchema) (row row' : List V) : Prop :=
  ∀ (c : Nat) col, sc.columns[c]? = some col → col.primaryKey = true → ∃ v, row[c]? = some v ∧ row'[c]? = some v

/-- A table with a primary key in an engine just started: in every configuration reached by steps
that meet the condition no two rows agree on the key. -/
theorem primary_key_unique [BEq V] [LawfulBEq V] (hR : R.RoundTrips) {s₀ : Engine}
    (hcold : ∀ k pid, s₀.frame k pid = none) (hsc : ∃ t, s₀.tables k = some t ∧ t.info.schema = sc)
    (hpk : pkColumn sc ≠ none)
    (h₀ : ∀ {loc loc' d d'}, s₀.live k loc = some d → s₀.live k loc' = some d' →
      SameKey (pkValue R sc) d d' → loc = loc')
    {cf : WatchedConfig PkWatcher} (h : (pkMachine R).Reach (PkStep R k sc) s₀ cf) {loc loc' : PageSlot}
    {d d' : List UInt8} {row row' : List V} (hd : cf.state.live k loc = some d)
    (hd' : cf.state.live k loc' = some d')
    (hrow : R.decodeRow sc d = some row) (hrow' : R.decodeRow sc d' = some row') (hne : loc ≠ loc') :
    ¬ AgreeOnKey sc row row' := by
  have hinv : PkInv R k sc cf := by
    have hstart : ∀ k p, (pkMachine R).start k p →
        Follows (pkMachine R).protocol (pkMachine R).fresh p fun _ _ => True := by
      rintro k' p ⟨x,hx,rfl⟩
      exact (follows_watched (follows_rowStatement hx.row) (follows_pk hR hx)).mono fun _ _ _ => trivial
    refine (Machine.Reach.keeps hstart (PkInv R k sc) ?_ ?_ ?_ ?_ h).1
    · refine ⟨⟨⟨nofun,fun k pid f hf => ?_⟩,fun k pid f hf => ?_,nofun⟩,⟨h₀,nofun,nofun,nofun,nofun⟩,hsc,nofun⟩
      · simp [hcold] at hf
      · simp [hcold] at hf
    · intro cf k' p hJ _ _
      exact hJ.spawn k' p
    · intro cf i k' g c kont r s hJ hi ha hs hok
      exact hJ.run hi ha hs hok
    · intro cf e s hJ he hok
      exact hJ.env hok he
  intro hagree
  obtain ⟨p,hp⟩ := ne_none_iff_exists'.1 hpk
  obtain ⟨hlt,hkey,-⟩ := findIdx?_eq_some_iff_getElem.1 hp
  have hcol : sc.columns[p]? = some sc.columns[p] := getElem?_eq_getElem hlt
  obtain ⟨v,hv,hv'⟩ := hagree p _ hcol hkey
  exact hne (hinv.keys.distinct hd hd' ⟨v,by simp [pkValue,hp,hrow,hv],by simp [pkValue,hp,hrow',hv']⟩)
end

def accountSchema : TableSchema := ⟨[⟨"id","INT",0,true⟩,⟨"n","INT",0,false⟩]⟩

def accountPage : Page :=
  ((Page.init.insertTuple ⟨1#64,0,[1,5]⟩).bind fun x => (x.1.insertTuple ⟨1#64,0,[2,5]⟩).map Prod.fst).getD
    Page.init

def accounts : Engine where
  tables k := if k = users then
      some ⟨⟨⟨[[some accountPage]]⟩,some accountSchema,none⟩,1,fun _ => none,⟨accountSchema,none,2,1,[]⟩,none⟩
    else none
  wal := []
  synced := 0
  walNextTxID := 2
  pageLocks _ := none
  clock := ⟨1,2⟩
  catalogTx := 1
  savedTx := 1
  catalogMutationCount := 0
  checkpoint := .idle

def setN : Exec Int := updateRows byteRows users [0] [("n",6)]
def setId : Exec Int := updateRows byteRows users [0] [("id",2)]

theorem byteRows_roundTrips : byteRows.RoundTrips := by
  intro schema row bytes _ h
  cases h
  rfl

def updateCheck (cf : WatchedConfig PkWatcher) : Event Cmd Cmd.Res TableKey EnvEvent → Bool
  | .run i _ (.insertTuple _ t) _ => (cf.threads[i]?).all fun th => th.watcher.own.update &&
      (th.watcher.out.any fun loc => (cf.state.mem users loc).any fun t₀ =>
        pkValue byteRows accountSchema t₀.data == pkValue byteRows accountSchema t.data) &&
      th.watcher.row.wrote.all fun e => pkValue byteRows accountSchema e.2.data != pkValue byteRows
        accountSchema t.data
  | .run i _ .scanSlots _ => (cf.threads[i]?).all fun th => th.watcher.own.update
  | .run i _ .pageCount _ => (cf.threads[i]?).all fun th => th.watcher.own.update
  | .run _ _ (.putXMax loc _) _ => (cf.state.live users loc).isSome
  | .run i _ (.clearXMax loc) _ => (cf.threads[i]?).all fun th => th.watcher.out.contains loc
  | .run _ _ (.logInsert _ _ _) r => Option.isSome r
  | .run _ _ (.logDelete _ _) r => Option.isSome r
  | .run _ _ (.logCommit _) r => Option.isSome r
  | .env e => e ≠ .checkpoint
  | _ => true

theorem updateCheck_sound (cf : WatchedConfig PkWatcher) (ev : Event Cmd Cmd.Res TableKey EnvEvent)
    (h : updateCheck cf ev = true) : PkStep byteRows users accountSchema cf ev := by
  cases ev with
  | spawn => trivial
  | env e =>
    have hne : e ≠ .checkpoint := by simpa [updateCheck] using h
    exact hne
  | run i k c r =>
    cases c with
    | insertTuple pid t =>
      refine ⟨id,fun _ th hth => ?_⟩
      cases r with
      | none => trivial
      | some slot =>
        intro v hv
        simp only [updateCheck,hth,Option.all_some,Bool.and_eq_true,List.any_eq_true,List.all_eq_true] at h
        obtain ⟨⟨hup,loc,hl,ht0⟩,hnew⟩ := h
        rw [if_pos hup]
        refine ⟨⟨loc,hl,?_⟩,fun e he hv' => ?_⟩
        · cases hm : cf.state.mem users loc with
          | none => simp [hm] at ht0
          | some t0 => exact ⟨t0,rfl,by simpa [hm,hv] using ht0⟩
        · have := hnew e he
          simp [hv,hv'] at this
    | scanSlots =>
      refine ⟨id,fun _ th hth => ?_⟩
      obtain ⟨slots,ok⟩ := r
      intro hup
      simp [updateCheck,hth,hup] at h
    | pageCount =>
      refine ⟨id,fun _ th hth => ?_⟩
      cases r with
      | none => trivial
      | some n =>
        intro hup
        simp [updateCheck,hth,hup] at h
    | putXMax loc x =>
      refine ⟨id,fun _ th hth => ?_⟩
      cases r with
      | false => trivial
      | true => exact isSome_iff_ne_none.1 h
    | clearXMax loc =>
      refine ⟨id,fun _ th hth => ?_⟩
      cases r with
      | false => trivial
      | true =>
        have hmem : loc ∈ th.watcher.out := by simpa [updateCheck,hth] using h
        exact hmem
    | logInsert | logDelete | logCommit => exact ⟨isSome_iff_ne_none.1 h,fun _ _ _ => trivial⟩
    | _ => exact ⟨id,fun _ _ _ => trivial⟩

theorem accounts_live (h : accounts.live users loc = some d) :
    (loc = ⟨⟨0,0⟩,0⟩ ∧ d = [1,5]) ∨ (loc = ⟨⟨0,0⟩,1⟩ ∧ d = [2,5]) := by
  have hpage : ∀ pid : PageID, accounts.page users pid =
    ([[some accountPage]][pid.segmentNo]?).bind fun seg => seg[pid.pageNo]?.join :=
    fun _ => rfl
  have hitems : ∀ n : Nat, accountPage.getTuple n = [(⟨1#64,0,[1,5]⟩ : Tuple),⟨1#64,0,[2,5]⟩][n]? := by
    intro n
    have h : accountPage.items = [.normal ⟨1#64,0,[1,5]⟩,.normal ⟨1#64,0,[2,5]⟩] := by decide +kernel
    rw [Page.getTuple,h]
    rcases n with _ | _ | n <;> rfl
  obtain ⟨⟨sg,pg⟩,slot⟩ := loc
  obtain ⟨t,hm,-,rfl⟩ := Engine.live_eq_some.1 h
  obtain ⟨p,hp,ht⟩ := bind_eq_some_iff.1 hm
  rw [hpage] at hp
  rcases sg with _ | sg
  · rcases pg with _ | pg
    · cases hp
      rw [hitems] at ht
      rcases slot with _ | _ | n
      · cases ht
        exact .inl ⟨rfl,rfl⟩
      · cases ht
        exact .inr ⟨rfl,rfl⟩
      · cases ht
    · cases hp
  · cases hp

theorem accounts_distinct {V : Type} {f : List UInt8 → Option V} (hne : f [1,5] ≠ f [2,5]) {loc' : PageSlot}
    {d' : List UInt8} (h : accounts.live users loc = some d) (h' : accounts.live users loc' = some d')
    (hsame : SameKey f d d') : loc = loc' := by
  obtain ⟨v,hv,hv'⟩ := hsame
  rcases accounts_live h with ⟨rfl,rfl⟩ | ⟨rfl,rfl⟩ <;> rcases accounts_live h' with ⟨rfl,rfl⟩ | ⟨rfl,rfl⟩
  · rfl
  · exact absurd (hv.trans hv'.symm) hne
  · exact absurd (hv'.trans hv.symm) hne
  · rfl

theorem accounts_cold (k : TableKey) (pid : PageID) : accounts.frame k pid = none := by
  unfold Engine.frame accounts
  by_cases hk : k = users <;> simp [hk]

/-- An update that leaves the key alone. -/
theorem primary_key_unique_setN : ∃ cf, (pkMachine byteRows).Reach
    (PkStep byteRows users accountSchema) accounts cf ∧
    cf.state.live users ⟨⟨0, 0⟩, 2⟩ = some [1, 6] ∧ cf.state.live users ⟨⟨0, 0⟩, 1⟩ = some [2, 5] ∧
      ¬ AgreeOnKey accountSchema [1, 6] ([2, 5] : List UInt8) := by
  have hrow : ((pkMachine byteRows).play (fun i k s c => s.exec i k c) updateCheck
      ⟨accounts,(pkMachine byteRows).starting [(users,setN.toProg)]⟩ (replicate 23 0)).map
      (fun cf => (cf.state.live users ⟨⟨0,0⟩,2⟩,cf.state.live users ⟨⟨0,0⟩,1⟩)) =
      some (some [1,6],some [2,5]) := by decide +kernel
  have hstart : ∀ x ∈ [(users,setN.toProg)], (pkMachine byteRows).start x.1 x.2 :=
    forall_mem_singleton.2 ⟨setN,.updateRows [0] [("n",6)],rfl⟩
  obtain ⟨cf,hreach,hrow⟩ := Machine.Reach.sample (fun _ _ _ _ _ => Or.inl) updateCheck_sound
    (fun _ _ _ => trivial) hstart hrow
  rw [Prod.mk.injEq] at hrow
  have hschema : ∃ t, accounts.tables users = some t ∧ t.info.schema = accountSchema := ⟨_,rfl,rfl⟩
  refine ⟨cf,hreach,hrow.1,hrow.2,primary_key_unique byteRows_roundTrips accounts_cold hschema (by decide)
    (accounts_distinct (by decide)) hreach hrow.1 hrow.2 rfl rfl (by decide)⟩

/-- `UpdateRows` gives the first row the key of the second. -/
theorem update_duplicates_key : ∃ cf, (pkMachine byteRows).Reach (fun _ _ => True) accounts cf ∧
    cf.state.live users ⟨⟨0, 0⟩, 2⟩ = some [2, 5] ∧ cf.state.live users ⟨⟨0, 0⟩, 1⟩ = some [2, 5] ∧
      AgreeOnKey accountSchema [2, 5] ([2, 5] : List UInt8) := by
  have hrow : ((pkMachine byteRows).play (fun i k s c => s.exec i k c) (fun _ _ => true)
      ⟨accounts,(pkMachine byteRows).starting [(users,setId.toProg)]⟩ (replicate 23 0)).map
      (fun cf => (cf.state.live users ⟨⟨0,0⟩,2⟩,cf.state.live users ⟨⟨0,0⟩,1⟩)) =
      some (some [2,5],some [2,5]) := by decide +kernel
  have hstart : ∀ x ∈ [(users,setId.toProg)], (pkMachine byteRows).start x.1 x.2 :=
    forall_mem_singleton.2 ⟨setId,.updateRows [0] [("id",2)],rfl⟩
  obtain ⟨cf,hreach,hrow⟩ := Machine.Reach.sample (fun _ _ _ _ _ => Or.inl) (fun _ _ _ => trivial)
    (fun _ _ _ => trivial) hstart hrow
  rw [Prod.mk.injEq] at hrow
  refine ⟨cf,hreach,hrow.1,hrow.2,fun c col hc hkey => ?_⟩
  match c with
  | 0 => exact ⟨2,rfl,rfl⟩
  | 1 => exact ⟨5,rfl,rfl⟩
  | c+2 => cases hc

end VaultDB.Storage
