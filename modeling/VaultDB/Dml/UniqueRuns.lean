import VaultDB.Dml.Unique
set_option autoImplicit false

/-!
`INSERT` and `UPDATE` running side by side on one server, and when their unique keys stay unique.
-/

namespace VaultDB.Dml
open Lib Storage List Option
variable {excluded : List Int} {d : List UInt8} {n : Nat} {idx : UniqueIndex}
section
variable {V : Type} [BEq V] (R : RowOps V) (cat : TableKey → TableKeys) (k : TableKey) (u : UniqueKey)
def dmlMachine : Machine (DmlCmd V) DmlCmd.Res (Watched (Own V)) TableKey Server ManagerEvent where
  protocol := dmlProtocol R k u
  fresh := { own := {} }
  start k p := ∃ x, UniqueStatement R k x ∧ p = x.toProg
  exec i k s c r s' := s.Answers R cat i k c r s'
  env s e s' := s.managed.Env e s'.managed ∧ s'.tableLocks = s.tableLocks
end

abbrev DmlThread (V : Type) := Party (DmlCmd V) DmlCmd.Res (Own V)
abbrev DmlConfig (V : Type) := Config (DmlCmd V) DmlCmd.Res (Watched (Own V)) TableKey Server

def checkedBy {V : Type} (th : DmlThread V) : List (List V) :=
  match th.prog with
  | .ret _ => []
  | .step _ _ => th.watcher.own.uq.checked

theorem checkedBy_subset {V : Type} (th : DmlThread V) : ∀ row ∈ checkedBy th, row ∈ th.watcher.own.uq.checked := by
  intro row hrow
  unfold checkedBy at hrow
  split at hrow
  · simp at hrow
  · exact hrow

section
variable {V : Type} [BEq V] (R : RowOps V) (k : TableKey) (sc : TableSchema) (u : UniqueKey)
def Rival (ths : List (DmlThread V)) (i : Nat) (g : Watched (Own V)) (j : Nat) (th : DmlThread V) : Prop :=
  ths[j]? = some th ∧ j ≠ i ∧ th.tag = k ∧ (g.own.holds = false ∨ th.watcher.own.holds = false)

/-- It has not checked the value and has not taken away a version with it that it may have to put
back. -/
def Unclaimed (s : Engine) (th : DmlThread V) (v : V) : Prop :=
  (∀ loc ∈ owed th, ∀ t, s.mem k loc = some t → storedValue R sc u t.data ≠ some v) ∧
    ∀ row ∈ checkedBy th, uniqueValue R u.position row ≠ some v

/-- What a command on the table has to meet.  A value is stored, or comes back with a reverted
stamp, while no other statement has checked it or taken it away.  A check reads every live row, or
finds its position in the unique index, at a position that is not excluded, and the rows of one
statement differ.  Versions are stamped while live, and a stamp is taken back once. -/
def UqCare (s : Server) (ths : List (DmlThread V)) (i : Nat) (g : Watched (Own V)) : (c : DmlCmd V) → c.Res → Prop
  | .storage (.insertTuple _ t), some _ => ∀ v, storedValue R sc u t.data = some v →
      ∀ j th, Rival k ths i g j th → Unclaimed R k sc u s.engine th v
  | .storage (.putXMax loc _), true => s.engine.live k loc ≠ none
  | .storage (.clearXMax loc), true => loc ∈ g.out ∧ ∀ t v, s.engine.mem k loc = some t →
      storedValue R sc u t.data = some v → ∀ j th, Rival k ths i g j th →
        ∀ row ∈ checkedBy th, uniqueValue R u.position row ≠ some v
  | .checkColumns _ excluded, .ok _ => (∃ c, u = .column c) → ∀ existing, s.managed.selectRows R k = some existing →
      ∀ loc d, s.engine.live k loc = some d → ∃ (n : Nat) (row : List V), (existing.map Prod.snd)[n]? = some row ∧
        R.decodeRow sc d = some row ∧ (n : Int) ∉ excluded
  | .checkIndex idx row excluded, .ok _ => u = .index idx → ∀ v, uniqueValue R u.position row = some v →
      rowCount R u g.own.uq.checked v = 0 ∧
      ∀ loc d t, s.engine.live k loc = some d → storedValue R sc u d = some v → s.engine.tables k = some t →
        ∃ pos ∈ indexLookup R t.info.indexes idx.column (R.sprint v), pos ∉ excluded
  | _, _ => True

def DmlCmd.Failed : (c : DmlCmd V) → c.Res → Prop
  | .storage c, r => c.Failed r
  | _, _ => False

def UqStep (cf : DmlConfig V) : Event (DmlCmd V) DmlCmd.Res TableKey ManagerEvent → Prop
  | .spawn _ _ => True
  | .env _ => True
  | .run i k' c r => ¬ c.Failed r ∧
      (k' = k → ∀ th, cf.threads[i]? = some th → UqCare R k sc u cf.state cf.threads i th.watcher c r)

structure UqOwn (cat : TableKey → TableKeys) (s : Engine) (th : DmlThread V) : Prop where
  table : ∀ k' keys, th.watcher.own.uq.table = some (k',keys) → k' = k ∧ keys = cat k
  schema : ∀ sc', th.watcher.own.uq.schema = some sc' → sc' = sc
  wrote : ∀ e ∈ th.watcher.row.wrote, e.2.data ∈ th.watcher.own.uq.wrote
  once : ∀ v, rowCount R u th.watcher.own.uq.checked v ≤ 1
  seen : ∀ row ∈ checkedBy th, ∀ v, uniqueValue R u.position row = some v → ∀ loc d, s.live k loc = some d →
    storedValue R sc u d = some v → ∃ e ∈ th.watcher.row.wrote, e.1 = loc ∧ e.2.data = d

structure UqInv (cat : TableKey → TableKeys) (cf : DmlConfig V) : Prop where
  sane : Sane cf.state.engine (cf.threads.map fun th => (th.tag,th.watcher.row))
  keys : KeyInv (storedValue R sc u) k cf.state.engine cf.threads
  schema : ∃ t, cf.state.engine.tables k = some t ∧ t.info.schema = sc
  locks : ∀ {i : Nat} {th}, cf.threads[i]? = some th → th.watcher.own.holds = true →
    cf.state.tableLocks th.tag = some i
  own : ∀ {i : Nat} {th}, cf.threads[i]? = some th → th.tag = k → UqOwn R k sc u cat cf.state.engine th
end

section
variable {V : Type} [BEq V] [LawfulBEq V] {R : RowOps V} {c : Nat}
  {existing rows : List (List V)} {a : Unit} {row : List V} {v : V}
theorem duplicateValue_eq_none {existing : List V} (h : duplicateValue R c existing rows = none) :
    (∀ v ∈ existing, (rows.filterMap (uniqueValue R c)).count v = 0) ∧ ∀ v,
    (rows.filterMap (uniqueValue R c)).count v ≤ 1 := by
  induction rows generalizing existing with
  | nil => simp
  | cons row rows ih =>
    simp only [duplicateValue] at h
    cases hv : uniqueValue R c row with
    | none =>
      rw [hv] at h
      rw [filterMap_cons_none hv]
      exact ih h
    | some w =>
      rw [hv] at h
      simp only at h
      split at h
      · cases h
      · rename_i hnew
        obtain ⟨hex,hone⟩ := ih h
        rw [filterMap_cons_some hv]
        have hw := hex w mem_cons_self
        refine ⟨fun v hmem => ?_,fun v => ?_⟩
        · have hne : w ≠ v := by
            rintro rfl
            simp [hmem] at hnew
          rw [count_cons_of_ne hne]
          exact hex v (mem_cons_of_mem _ hmem)
        · rw [count_cons]
          split
          · rename_i heq
            rw [← eq_of_beq heq]
            omega
          · have := hone v
            omega

omit [LawfulBEq V] in
theorem checkColumns_eq_ok {sc : TableSchema}
    {cs : List Nat} (h : checkColumns R sc existing excluded rows cs = .ok a) (hc : c ∈ cs) :
    duplicateValue R c (existingValues R c excluded existing) rows = none := by
  induction cs with
  | nil => simp at hc
  | cons c' cs ih =>
    simp only [checkColumns] at h
    split at h
    · cases h
    · rename_i hdup
      rcases mem_cons.1 hc with rfl | hc
      · exact hdup
      · exact ih h hc

omit [LawfulBEq V] in
theorem mem_existingValues
    (hn : existing[n]? = some row) (hex : (n : Int) ∉ excluded) (hv : uniqueValue R c row = some v) :
    v ∈ existingValues R c excluded existing := by
  refine mem_filterMap.2 ⟨(row,n),mem_filter.2 ⟨?_,by simpa using hex⟩,hv⟩
  exact mem_zipIdx_iff_getElem?.2 hn

omit [LawfulBEq V] in
theorem checkIndex_eq_ok {idxs : List Index}
    (h : checkIndex R idxs idx row excluded = .ok a) (hv : uniqueValue R idx.colIndex row = some v) {pos : Int}
    (hpos : pos ∈ indexLookup R idxs idx.column (R.sprint v)) : pos ∈ excluded := by
  simp only [checkIndex,hv] at h
  split at h
  · rename_i hall
    simpa using all_eq_true.1 hall pos hpos
  · cases h
end

section
variable {V : Type} [BEq V] {R : RowOps V} {cat : TableKey → TableKeys} {k : TableKey}
    {sc : TableSchema} {u : UniqueKey}
  {s s' : Server} {i : Nat} {g : Watched (Own V)} {c : Cmd} {r : c.Res}
  {k₀ : TableKey} {e e' : Engine} {cf : DmlConfig V} {c' : DmlCmd V}
  {th : DmlThread V} {rows : List (List V)} {kont : c'.Res → Prog (DmlCmd V) DmlCmd.Res Unit}
  {p : Prog (DmlCmd V) DmlCmd.Res Unit} {j : Nat} {v : V} {row : List V}
theorem Server.Answers.storage (h : s.Answers R cat i k₀ (.storage c) r s') :
    s.engine.Answers i k₀ c r s'.engine ∧ s'.tableLocks = s.tableLocks := by
  cases h with
  | inl hx =>
    obtain ⟨x,hexec,heq⟩ := map_eq_some_iff.1 hx
    cases heq
    exact ⟨.inl hexec,rfl⟩
  | inr hf =>
    cases hf with
    | storage hf => exact ⟨.inr hf,rfl⟩

theorem Sane.managed {s s' : Managed} {ws : List (TableKey × Watcher)} {e : ManagerEvent} (h : Sane s.engine ws)
    (he : s.Env e s') : Sane s'.engine ws ∧ (∀ k loc, s'.engine.mem k loc = s.engine.mem k loc) ∧
      ∀ k t, s.engine.tables k = some t → ∃ t', s'.engine.tables k = some t' ∧ t'.info.schema = t.info.schema := by
  cases he with
  | begin =>
    refine ⟨⟨⟨fun i k g hw => (h.steady.thread i k g hw).congr_eq rfl fun n hn => hn,h.steady.backed⟩,h.clean,h.ids⟩,
      fun _ _ => rfl,fun k t ht => ⟨t,ht,rfl⟩⟩
  | finish => exact ⟨h,fun _ _ => rfl,fun k t ht => ⟨t,ht,rfl⟩⟩
  | pool hne he =>
    obtain ⟨hsane,hmem⟩ := h.env hne he
    exact ⟨hsane,hmem,fun k t ht => he.schema hne ht⟩

theorem UqInv.rival (h : UqInv R k sc u cat cf) (hi : cf.threads[i]? = some ⟨k,g,p⟩) (hj : cf.threads[j]? = some th)
    (hne : j ≠ i) (htag : th.tag = k) : Rival k cf.threads i g j th := by
  refine ⟨hj,hne,htag,?_⟩
  by_contra hboth
  obtain ⟨hgi,hgj⟩ := not_or.1 hboth
  have h1 := h.locks hi (by simpa using hgi)
  have h2 := h.locks hj (by simpa using hgj)
  rw [htag] at h2
  exact hne (some.inj (h2.symm.trans h1))

theorem exists_of_rowCount [LawfulBEq V] (h : 0 < rowCount R u rows v) : ∃ row ∈ rows,
    uniqueValue R u.position row = some v :=
  mem_filterMap.1 (count_pos_iff.1 h)

theorem storedCount_pos [LawfulBEq V] {ds : List (List UInt8)} (hd : d ∈ ds)
    (hv : storedValue R sc u d = some v) : 0 < storedCount R sc u ds v :=
  count_pos_iff.2 (mem_filterMap.2 ⟨d,hd,hv⟩)

theorem UqInv.keyStep [LawfulBEq V] (h : UqInv R k sc u cat cf) (hsc : sc = (cat k).schema)
    (hu : u.Declared (cat k)) {kont : c.Res → Prog (DmlCmd V) DmlCmd.Res Unit}
    (hi : cf.threads[i]? = some ⟨k,g,.step (.storage c) kont⟩) (ha : (uqStorage R k u).allowed g.own.uq c)
    (hok : UqCare R k sc u cf.state cf.threads i g (.storage c) r) :
    KeyStep (storedValue R sc u) k cf.state.engine cf.threads i g c r := by
  cases c with
  | insertTuple pid t =>
    cases r with
    | none => trivial
    | some slot =>
      intro v hv
      have hown := h.own hi rfl
      obtain ⟨k',keys,sc',htable,hschema,hcov⟩ := ha
      obtain ⟨rfl,rfl⟩ := hown.table k' keys htable
      obtain rfl := hown.schema sc' hschema
      have hv1 := hcov rfl hu hsc v
      have hone := hown.once v
      rw [storedCount_cons] at hv1
      have hself := storedCount_pos (R := R) (u := u) (mem_singleton_self t.data) hv
      obtain ⟨row,hrow,hval⟩ := exists_of_rowCount (show 0 < rowCount R u g.own.uq.checked v by omega)
      refine ⟨fun loc d hd hd' => ?_,fun j th hj hne htag loc hl t0 hm => ?_⟩
      · obtain ⟨e,he,-,rfl⟩ := hown.seen row hrow v hval loc d hd hd'
        have hwr : 0 < storedCount R sc' u g.own.uq.wrote v := storedCount_pos (hown.wrote e he) hd'
        dsimp only at hone
        omega
      · exact (hok v hv j th (h.rival hi hj hne htag)).1 loc hl t0 hm
  | putXMax => cases r <;> exact hok
  | clearXMax =>
    cases r with
    | true => exact hok.1
    | false => trivial
  | _ => trivial

omit [BEq V] in
theorem UqWatcher.wrote_next {g : Watcher} {o : UqWatcher V} (ha : g.allowed c)
    (h : ∀ e ∈ g.wrote, e.2.data ∈ o.wrote) :
    ∀ e ∈ (g.next c r).wrote, e.2.data ∈ (o.next c r).wrote := by
  intro e he
  rcases Watcher.wrote_cases ha he with hold | ⟨pid,slot,heq⟩
  · cases c with
    | insertTuple =>
      cases r with
      | none => exact h e hold
      | some slot => exact mem_cons_of_mem _ (h e hold)
    | unlockTable =>
      simp only [next]
      split <;> exact h e hold
    | _ => exact h e hold
  · cases heq
    exact mem_cons_self

omit [BEq V] in
theorem UqWatcher.table_next (o : UqWatcher V) (c : Cmd) (r : c.Res) : (o.next c r).table = o.table := by
  cases c with
  | insertTuple => cases r <;> rfl
  | unlockTable =>
    simp only [next]
    split <;> rfl
  | _ => rfl

omit [BEq V] in
theorem UqWatcher.checked_next (o : UqWatcher V) (c : Cmd) (r : c.Res) :
    (o.next c r).checked = o.checked ∨ (o.next c r).checked = [] := by
  cases c with
  | insertTuple => cases r <;> exact .inl rfl
  | unlockTable =>
    simp only [next]
    split
    · exact .inl rfl
    · exact .inr rfl
  | _ => exact .inl rfl

theorem UqOwn.storage {ths : List (DmlThread V)} {kont : c.Res → Prog (DmlCmd V) DmlCmd.Res Unit}
    (h : UqOwn R k sc u cat e ⟨k,g,.step (.storage c) kont⟩)
    (hsane : Sane e (ths.map fun th => (th.tag,th.watcher.row))) (hi : ths[i]? = some ⟨k,g,.step (.storage c) kont⟩)
    (ha : g.row.allowed c) (hq : (uqStorage R k u).allowed g.own.uq c) (hf : ¬ c.Failed r)
    (hs : e.Answers i k c r e') (hsc : ∃ t, e.tables k = some t ∧ t.info.schema = sc) :
    UqOwn R k sc u cat e' ⟨k,g.after c r { g.own with uq := g.own.uq.next c r },kont r⟩ := by
  have hw := Watcher.wrote_next (r := r) ha hf
  refine ⟨fun k' keys htable => ?_,fun sc' hschema => ?_,UqWatcher.wrote_next ha h.wrote,fun v => ?_,?_⟩
  · rw [Watched.after,UqWatcher.table_next] at htable
    exact h.table k' keys htable
  · cases c with
    | getInfo =>
      cases hschema
      exact schema_of_getInfo hs hsc
    | insertTuple => cases r <;> exact h.schema sc' hschema
    | unlockTable =>
      simp only [Watched.after,UqWatcher.next] at hschema
      split at hschema <;> exact h.schema sc' hschema
    | _ => exact h.schema sc' hschema
  · rcases g.own.uq.checked_next c r with heq | heq
    · simpa [Watched.after,heq] using h.once v
    · simp [Watched.after,heq,rowCount]
  · intro row hrow v hv loc d hd hdv
    have hmem : row ∈ (g.own.uq.next c r).checked := checkedBy_subset _ row hrow
    have hold : row ∈ g.own.uq.checked := by
      rcases g.own.uq.checked_next c r with heq | heq
      · rwa [heq] at hmem
      · simp [heq] at hmem
    rcases hsane.live_cases (by simp [hi]) ha hs hd with hd | ⟨t,rfl,hr,rfl⟩ | ⟨rfl,-⟩
    · obtain ⟨e,he,heq⟩ := h.seen row hold v hv loc d hd hdv
      exact ⟨e,hw e he,heq⟩
    · cases hr
      exact ⟨(loc,t),by simp [Watched.after,Watcher.wrote,Watcher.next],rfl,rfl⟩
    · have hnone : g.own.uq.checked = [] := hq
      simp [hnone] at hold

theorem UqOwn.other (h : UqOwn R k sc u cat e th) (hlive : ∀ loc d, e'.live k loc = some d → e.live k loc = some d ∨
      ∀ v, storedValue R sc u d = some v → ∀ row ∈ checkedBy th, uniqueValue R u.position row ≠ some v) :
    UqOwn R k sc u cat e' th := by
  refine { h with seen := fun row hrow v hv loc d hd hdv => ?_ }
  rcases hlive loc d hd with hd | hnot
  · exact h.seen row hrow v hv loc d hd hdv
  · exact absurd hv (hnot v hdv row hrow)

theorem UqInv.others (h : UqInv R k sc u cat cf) {kont : c.Res → Prog (DmlCmd V) DmlCmd.Res Unit}
    (hi : cf.threads[i]? = some ⟨k₀,g,.step (.storage c) kont⟩) (ha : g.row.allowed c)
    (hs : cf.state.engine.Answers i k₀ c r e') (hok : k₀ = k →
      UqCare R k sc u cf.state cf.threads i g (.storage c) r)
    (hj : cf.threads[j]? = some th) (hne : j ≠ i) (htag : th.tag = k) : UqOwn R k sc u cat e' th := by
  refine (h.own hj htag).other fun loc d hd => ?_
  have he := h.sane.effect hs
  by_cases hk : k₀ = k
  swap
  · exact .inl ((Engine.live_congr (he.otherMem (Ne.symm hk) loc)).symm.trans hd)
  subst hk
  have hrival := h.rival hi hj hne htag
  rcases h.sane.live_cases (by simp [hi]) ha hs hd with hold | ⟨t,rfl,hr,rfl⟩ | ⟨rfl,hr⟩
  · exact .inl hold
  · cases hr
    exact .inr fun v hv => (hok rfl v hv j th hrival).2
  · cases hr
    refine .inr fun v hv => ?_
    -- the version with the stamp was there before, with the same data
    obtain ⟨hout,hcare⟩ := hok rfl
    have hown : loc ∈ owed (⟨k₀,g,.step (.storage (.clearXMax loc)) kont⟩ : DmlThread V) := hout
    obtain ⟨t0,hm0⟩ := ne_none_iff_exists'.1 (h.keys.stored hi rfl hown)
    obtain ⟨t,hm,-,rfl⟩ := Engine.live_eq_some.1 hd
    exact hcare t0 v hm0 (he.data_eq hm0 hm ▸ hv) j th hrival

theorem UqInv.still (h : UqInv R k sc u cat cf) (hi : cf.threads[i]? = some ⟨k₀,g,.step c' kont⟩)
    (hs : s'.engine = cf.state.engine) {o : Own V} (hself : o.holds = true → s'.tableLocks k₀ = some i)
    (hlocks : ∀ {j : Nat} {th}, j ≠ i → cf.threads[j]? = some th → th.watcher.own.holds = true →
      s'.tableLocks th.tag = cf.state.tableLocks th.tag)
    (hown : k₀ = k → UqOwn R k sc u cat cf.state.engine ⟨k₀,{ g with own := o },p⟩) :
    UqInv R k sc u cat ⟨s',cf.threads.set i ⟨k₀,{ g with own := o },p⟩⟩ := by
  have hx : cf.state.engine.Answers i k₀ .txClock cf.state.engine.clock cf.state.engine := .inl rfl
  have ha : g.row.allowed .txClock := trivial
  obtain ⟨hsane,hkeys,hsc⟩ := h.keys.engine h.sane h.schema hi ha id hx (fun _ => trivial) o p
  refine ⟨by rw [hs]; exact hsane,by rw [hs]; exact hkeys,by rw [hs]; exact hsc,fun {j th} hj hh => ?_,
    fun {j th} hj htag => ?_⟩
  · rcases thread_set_cases hj with ⟨rfl,rfl⟩ | ⟨hne,hj⟩
    · exact hself hh
    · exact (hlocks hne hj hh).trans (h.locks hj hh)
  · rw [hs]
    rcases thread_set_cases hj with ⟨rfl,rfl⟩ | ⟨-,hj⟩
    · exact hown htag
    · exact h.own hj htag

section
variable (h : UqOwn R k sc u cat e ⟨k₀,g,.step c' kont⟩)
include h
theorem UqOwn.keep (o : Own V) (htable : o.uq.table = g.own.uq.table)
    (hschema : o.uq.schema = g.own.uq.schema) (hwrote : o.uq.wrote = g.own.uq.wrote)
    (hchecked : o.uq.checked = g.own.uq.checked ∨ o.uq.checked = []) (p : Prog (DmlCmd V) DmlCmd.Res Unit) :
    UqOwn R k sc u cat e ⟨k₀,{ g with own := o },p⟩ := by
  refine ⟨fun k' keys ht => h.table k' keys (htable ▸ ht),fun sc' hs => h.schema sc' (hschema ▸ hs),?_,fun v => ?_,
    fun row hrow => ?_⟩
  · rw [hwrote]
    exact h.wrote
  · rcases hchecked with heq | heq
    · simpa [heq] using h.once v
    · simp [heq,rowCount]
  · have hmem := checkedBy_subset _ row hrow
    rcases hchecked with heq | heq
    · rw [heq] at hmem
      exact h.seen row hmem
    · simp [heq] at hmem

theorem UqOwn.columns [LawfulBEq V] (hu : u = .column n) {existing : List (List V)}
    (hdup : duplicateValue R n (existingValues R n excluded existing) rows = none)
    (hread : ∀ loc d, e.live k loc = some d → ∃ (m : Nat) (row : List V), existing[m]? = some row ∧
      R.decodeRow sc d = some row ∧ (m : Int) ∉ excluded) (p : Prog (DmlCmd V) DmlCmd.Res Unit) :
    UqOwn R k sc u cat e ⟨k₀,{ g with own := { g.own with uq := { g.own.uq with checked := rows } } },p⟩ := by
  obtain ⟨hex,hone⟩ := duplicateValue_eq_none hdup
  refine ⟨h.table,h.schema,h.wrote,fun v => ?_,fun row hrow v hv loc d hd hdv => ?_⟩
  · rw [rowCount,hu]
    exact hone v
  · have hmem : row ∈ rows := checkedBy_subset _ row hrow
    obtain ⟨m,row',hm,hdec,hnot⟩ := hread loc d hd
    rw [storedValue,hdec,bind_some,hu] at hdv
    have hzero := hex v (mem_existingValues hm hnot hdv)
    rw [hu] at hv
    have hpos := count_pos_iff.2 (mem_filterMap.2 ⟨row,hmem,hv⟩)
    simp only [UniqueKey.position] at hpos
    omega

theorem UqOwn.index [LawfulBEq V]
    (hnew : ∀ v, uniqueValue R u.position row = some v → rowCount R u g.own.uq.checked v = 0 ∧
      ∀ loc d, e.live k loc = some d → storedValue R sc u d ≠ some v) (p : Prog (DmlCmd V) DmlCmd.Res Unit) :
    UqOwn R k sc u cat e
      ⟨k₀,{ g with own := { g.own with uq := { g.own.uq with checked := row :: g.own.uq.checked } } },p⟩ := by
  refine ⟨h.table,h.schema,h.wrote,fun v => ?_,fun row' hrow v hv loc d hd hdv => ?_⟩
  · show rowCount R u (row :: g.own.uq.checked) v ≤ 1
    have hone := h.once v
    rw [rowCount]
    cases hval : uniqueValue R u.position row with
    | none =>
      rw [filterMap_cons_none hval]
      exact hone
    | some w =>
      rw [filterMap_cons_some hval,count_cons]
      split
      · rename_i heq
        have hzero := (hnew w hval).1
        rw [rowCount] at hzero
        rw [← eq_of_beq heq]
        omega
      · exact hone
  · rcases mem_cons.1 (checkedBy_subset _ row' hrow) with rfl | hmem
    · exact absurd hdv ((hnew v hv).2 loc d hd)
    · exact h.seen row' hmem v hv loc d hd hdv
end

theorem Server.Answers.schema {k' : TableKey} {r : Option TableKeys}
    (h : s.Answers R cat i k₀ (.getTableSchema k' : DmlCmd V) r s') :
    s' = s ∧ ∀ keys, r = some keys → k' = k₀ ∧ keys = cat k₀ := by
  cases h with
  | inr hf => cases hf
  | inl hx =>
    simp only [Server.exec] at hx
    split at hx
    · rename_i hk
      cases hx
      refine ⟨rfl,fun keys hkeys => ⟨hk,?_⟩⟩
      obtain ⟨-,-,rfl⟩ := map_eq_some_iff.1 hkeys
      rfl
    · cases hx

theorem Server.Answers.columns {r : Except String Unit}
    (h : s.Answers R cat i k₀ (.checkColumns rows excluded) r s') :
    s' = s ∧ ∀ a, r = .ok a → ∃ existing, s.managed.selectRows R k₀ = some existing ∧
      checkColumns R (cat k₀).schema (existing.map Prod.snd) excluded rows (cat k₀).columns = .ok a := by
  cases h with
  | inr hf =>
    cases hf
    exact ⟨rfl,nofun⟩
  | inl hx =>
    obtain ⟨existing,hsel,heq⟩ := map_eq_some_iff.1 hx
    cases heq
    exact ⟨rfl,fun a ha => ⟨existing,hsel,ha⟩⟩

theorem Server.Answers.index {r : Except String Unit}
    (h : s.Answers R cat i k₀ (.checkIndex idx row excluded) r s') :
    s' = s ∧ ∃ t, s.engine.tables k₀ = some t ∧ r = checkIndex R t.info.indexes idx row excluded := by
  cases h with
  | inr hf => cases hf
  | inl hx =>
    obtain ⟨t,ht,heq⟩ := map_eq_some_iff.1 hx
    cases heq
    exact ⟨rfl,t,ht,rfl⟩

section
variable (h : UqInv R k sc u cat cf)
include h
theorem UqInv.run [LawfulBEq V] (hsc : sc = (cat k).schema) (hu : u.Declared (cat k)) {c : DmlCmd V} {r : c.Res}
    {kont : c.Res → Prog (DmlCmd V) DmlCmd.Res Unit} (hi : cf.threads[i]? = some ⟨k₀,g,.step c kont⟩)
    (ha : (dmlProtocol R k u).allowed g c) (hs : cf.state.Answers R cat i k₀ c r s')
    (hok : UqStep R k sc u cf (.run i k₀ c r)) :
    UqInv R k sc u cat ⟨s',cf.threads.set i ⟨k₀,(dmlProtocol R k u).next g c r,kont r⟩⟩ := by
  obtain ⟨hf,hcare⟩ := hok
  replace hcare : k₀ = k → UqCare R k sc u cf.state cf.threads i g c r := fun hk => hcare hk _ hi
  have hself : g.own.holds = true → cf.state.tableLocks k₀ = some i := h.locks hi
  have hown : k₀ = k → UqOwn R k sc u cat cf.state.engine ⟨k₀,g,.step c kont⟩ := fun hk => h.own hi hk
  cases c with
  | storage c =>
    obtain ⟨hx,hlocks⟩ := hs.storage
    have hkey : k₀ = k → KeyStep (storedValue R sc u) k cf.state.engine cf.threads i g c r := by
      rintro rfl
      exact h.keyStep hsc hu hi ha.2 (hcare rfl)
    obtain ⟨hsane,hkeys,hschema⟩ :=
      h.keys.engine h.sane h.schema hi ha.1 hf hx hkey { g.own with uq := g.own.uq.next c r }
      (kont r)
    refine ⟨hsane,hkeys,hschema,fun {j th} hj hh => ?_,fun {j th} hj htag => ?_⟩
    · rw [hlocks]
      rcases thread_set_cases hj with ⟨rfl,rfl⟩ | ⟨-,hj⟩
      · exact hself hh
      · exact h.locks hj hh
    · rcases thread_set_cases hj with ⟨rfl,rfl⟩ | ⟨hne,hj⟩
      · obtain rfl : k₀ = k := htag
        exact (hown rfl).storage h.sane hi ha.1 ha.2 hf hx h.schema
      · exact h.others hi ha.1 hx hcare hj hne htag
  | getTableSchema k' =>
    obtain ⟨rfl,hkeys⟩ := hs.schema
    refine h.still (o := { g.own with uq := g.own.uq.pass u (.getTableSchema k') r }) hi rfl hself (fun _ _ _ => rfl)
      fun hk => ?_
    cases r with
    | none => exact (hown hk).keep g.own rfl rfl rfl (.inl rfl) _
    | some keys =>
      obtain ⟨rfl,rfl⟩ := hkeys keys rfl
      subst hk
      refine ⟨fun k'' keys' ht => ?_,(hown rfl).schema,(hown rfl).wrote,(hown rfl).once,fun row hrow => ?_⟩
      · cases ht
        exact ⟨rfl,rfl⟩
      · have hmem : row ∈ g.own.uq.checked := checkedBy_subset _ row hrow
        exact (hown rfl).seen row hmem
  | lockTables =>
    cases hs with
    | inr hf' => cases hf'
    | inl hx =>
      simp only [Server.exec] at hx
      split at hx
      · rename_i hfree
        cases hx
        have hengine : (cf.state.setLock k₀ (some i)).engine = cf.state.engine := rfl
        refine h.still (o := { g.own with holds := true }) hi hengine (fun _ => by simp [Server.setLock])
          (fun {j th} hne hj hh => ?_) fun hk => (hown hk).keep { g.own with holds := true } rfl rfl rfl (.inl rfl) _
        have hheld := h.locks hj hh
        by_cases htag : th.tag = k₀
        · rw [htag,hfree] at hheld
          cases hheld
        · simp [Server.setLock,htag]
      · cases hx
  | unlockTables =>
    cases hs with
    | inr hf' => cases hf'
    | inl hx =>
      cases hx
      have hengine : (cf.state.setLock k₀ none).engine = cf.state.engine := rfl
      refine h.still (o := { g.own with holds := false }) hi hengine nofun (fun {j th} hne hj hh => ?_)
        fun hk => (hown hk).keep { g.own with holds := false } rfl rfl rfl (.inl rfl) _
      have hheld := h.locks hj hh
      by_cases htag : th.tag = k₀
      · rw [htag,hself ha] at hheld
        exact absurd (some.inj hheld).symm hne
      · simp [Server.setLock,htag]
  | checkColumns rows excluded =>
    obtain ⟨rfl,hread⟩ := hs.columns
    refine h.still (o := { g.own with uq := g.own.uq.pass u (.checkColumns rows excluded) r }) hi rfl hself
      (fun _ _ _ => rfl) fun hk => ?_
    cases r with
    | error e => exact (hown hk).keep { g.own with uq := { g.own.uq with checked := [] } } rfl rfl rfl (.inr rfl) _
    | ok a =>
      cases u with
      | index idx => exact (hown hk).keep g.own rfl rfl rfl (.inl rfl) _
      | column n =>
        subst hk
        obtain ⟨existing,hsel,hchk⟩ := hread a rfl
        exact (hown rfl).columns rfl (checkColumns_eq_ok hchk hu) (hcare rfl ⟨n,rfl⟩ existing hsel) _
  | checkIndex idx row excluded =>
    obtain ⟨rfl,t,ht,hr⟩ := hs.index
    refine h.still (o := { g.own with uq := g.own.uq.pass u (.checkIndex idx row excluded) r }) hi rfl hself
      (fun _ _ _ => rfl) fun hk => ?_
    cases r with
    | error e => exact (hown hk).keep { g.own with uq := { g.own.uq with checked := [] } } rfl rfl rfl (.inr rfl) _
    | ok a =>
      by_cases hidx : u = .index idx
      · subst hk
        have hcheck := hcare rfl hidx
        have hpass : g.own.uq.pass u (.checkIndex idx row excluded) (.ok a) =
            { g.own.uq with checked := row :: g.own.uq.checked } := if_pos hidx
        rw [hpass]
        refine (hown rfl).index (fun v hv => ⟨(hcheck v hv).1,fun loc d hd hdv => ?_⟩) _
        obtain ⟨pos,hpos,hnot⟩ := (hcheck v hv).2 loc d t hd hdv ht
        rw [hidx] at hv
        exact hnot (checkIndex_eq_ok hr.symm hv hpos)
      · have hpass : g.own.uq.pass u (.checkIndex idx row excluded) (.ok a) = g.own.uq := if_neg hidx
        rw [hpass]
        exact (hown hk).keep g.own rfl rfl rfl (.inl rfl) _

theorem UqInv.spawn (k₀ : TableKey) (p : Prog (DmlCmd V) DmlCmd.Res Unit) :
    UqInv R k sc u cat ⟨cf.state,cf.threads++[⟨k₀,{ own := {} },p⟩]⟩ := by
  refine ⟨by simpa using h.sane.spawn k₀,h.keys.spawn k₀ _ p,h.schema,fun {j th} hj hh => ?_,fun {j th} hj htag => ?_⟩
  · rcases thread_concat_cases hj with hj | ⟨-,rfl⟩
    · exact h.locks hj hh
    · cases hh
  · rcases thread_concat_cases hj with hj | ⟨-,rfl⟩
    · exact h.own hj htag
    · refine ⟨nofun,nofun,by simp [Watcher.wrote],by simp [rowCount],fun row hrow => ?_⟩
      have hmem := checkedBy_subset _ row hrow
      simp at hmem

theorem UqInv.env {e : ManagerEvent}
    (he : cf.state.managed.Env e s'.managed) (hl : s'.tableLocks = cf.state.tableLocks) :
    UqInv R k sc u cat ⟨s',cf.threads⟩ := by
  obtain ⟨hsane,hmem,htables⟩ := Sane.managed h.sane he
  refine ⟨hsane,h.keys.env (hmem k),?_,fun hj hh => ?_,fun hj htag => ?_⟩
  · obtain ⟨t,ht,hsc⟩ := h.schema
    obtain ⟨t',ht',hsc'⟩ := htables k t ht
    exact ⟨t',ht',hsc'.trans hsc⟩
  · rw [hl]
    exact h.locks hj hh
  · exact (h.own hj htag).other fun loc d hd => .inl ((Engine.live_congr (hmem k loc)).symm.trans hd)
end
end

def idKeys (_ : TableKey) : TableKeys := ⟨accountSchema,[0],[]⟩
def accountServer : Server := ⟨⟨accounts,[]⟩,fun _ => none⟩

def insertThree : Call UInt8 Int := fastPathInsert byteRows users fun sc =>
  if sc.columns.length = 2 then .ok [[3,5]] else .error "insert row 0 has 2 values"

theorem insertThree_statement : UniqueStatement byteRows users insertThree := by
  refine .fastPathInsert _ fun sc rows hrows => ?_
  split at hrows
  · rename_i hlen
    cases hrows
    refine ⟨rfl,fun row hrow ns hns => ?_⟩
    obtain rfl := mem_singleton.1 hrow
    match hcols : sc.columns, hlen with
    | [a,b], _ =>
      rw [hcols] at hns
      cases hns
      rfl
  · cases hrows

def setIdTwo : Call UInt8 Int :=
  updateCommand byteRows users none (fun t => .ok (t.data == [1,5])) (fun row => .ok (row.set 0 2)) fun _ _ => .ok ()

abbrev idMachine : Machine (DmlCmd UInt8) DmlCmd.Res (Watched (Own UInt8)) TableKey Server ManagerEvent :=
  dmlMachine byteRows idKeys users (.column 0)

def storeCheck (cf : DmlConfig UInt8) : Event (DmlCmd UInt8) DmlCmd.Res TableKey ManagerEvent → Bool
  | .run i _ (.storage (.insertTuple _ _)) _ => cf.threads.length == 1 && i == 0
  | .run _ _ (.storage (.putXMax _ _)) _ => false
  | .run _ _ (.storage (.clearXMax _)) _ => false
  | .run _ _ (.storage (.logInsert _ _ _)) r => Option.isSome r
  | .run _ _ (.storage (.logDelete _ _)) r => Option.isSome r
  | .run _ _ (.storage (.logCommit _)) r => Option.isSome r
  | .run _ _ (.checkColumns _ _) _ => false
  | .run _ _ (.checkIndex _ _ _) _ => false
  | _ => true

theorem storeCheck_sound (cf : DmlConfig UInt8) (ev : Event (DmlCmd UInt8) DmlCmd.Res TableKey ManagerEvent)
    (h : storeCheck cf ev = true) : UqStep byteRows users accountSchema (.column 0) cf ev := by
  cases ev with
  | spawn | env => trivial
  | run i k c r =>
    cases c with
    | checkColumns | checkIndex => cases h
    | getTableSchema | lockTables | unlockTables => exact ⟨id,fun _ _ _ => trivial⟩
    | storage c =>
      cases c with
      | insertTuple pid t =>
        refine ⟨id,fun _ th hth => ?_⟩
        cases r with
        | none => trivial
        | some slot =>
          rintro v - j th' ⟨hj,hne,-⟩
          simp only [storeCheck,Bool.and_eq_true,beq_iff_eq] at h
          have hlt := (List.getElem?_eq_some_iff.1 hj).1
          omega
      | putXMax | clearXMax => cases h
      | logInsert | logDelete | logCommit => exact ⟨isSome_iff_ne_none.1 h,fun _ _ _ => trivial⟩
      | _ => exact ⟨id,fun _ _ _ => trivial⟩

theorem accountServer_rows : accountServer.managed.selectRows byteRows users =
    some [((⟨⟨0,0⟩,0⟩,⟨1#64,0,[1,5]⟩),[1,5]),((⟨⟨0,0⟩,1⟩,⟨1#64,0,[2,5]⟩),[2,5])] := by
  decide +kernel

theorem insertThree_checked : ∃ cf, idMachine.Reach
    (UqStep byteRows users accountSchema (.column 0)) accountServer cf ∧
    (idMachine.play (fun i k s c => s.exec byteRows idKeys i k c) storeCheck cf (List.replicate 18 0)).map
      (fun cf => (cf.state.engine.live users ⟨⟨0,0⟩,1⟩,cf.state.engine.live users ⟨⟨0,0⟩,2⟩)) =
      some (some [2,5],some [3,5]) := by
  have hspawn : idMachine.Reach (UqStep byteRows users accountSchema (.column 0)) accountServer
      ⟨accountServer,[]++idMachine.starting [(users,insertThree.toProg)]⟩ := by
    exact Machine.Reach.spawned (fun _ _ _ => trivial) .init
      (forall_mem_singleton.2 ⟨insertThree,insertThree_statement,rfl⟩)
  refine ⟨_,.step (.step hspawn
    (.run (i := 0) (t := users) (c := .getTableSchema users) (r := some (idKeys users)) (s := accountServer) rfl
      (Or.inl rfl)) ?_)
    (.run (i := 0) (t := users) (c := .checkColumns [[3,5]] []) (r := .ok ()) (s := accountServer) rfl (Or.inl ?_)) ?_,?_⟩
  · exact ⟨id,fun _ _ _ => trivial⟩
  · simp only [Server.exec,accountServer_rows]
    rfl
  · refine ⟨id,fun _ _ _ _ existing hsel loc d hd => ?_⟩
    obtain rfl := some.inj (accountServer_rows.symm.trans hsel)
    rcases accounts_live hd with ⟨-,rfl⟩ | ⟨-,rfl⟩
    · exact ⟨0,[1,5],rfl,rfl,by simp⟩
    · exact ⟨1,[2,5],rfl,rfl,by simp⟩
  · decide +kernel

end VaultDB.Dml
