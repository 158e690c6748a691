import VaultDB.Storage.Atomic
set_option autoImplicit false

/-!
What the statements read of a table and what they write into it.

As long as the answers about stored rows and the schema are right, a statement writes nothing but
rows it has built from them.
-/

namespace VaultDB.Storage
open Lib Stmt Exec List Option
variable {α : Type} {pid : PageID} {ts : List Tuple} {loc : PageSlot} {info : TableInfo} {indices : List Int}
  {Q : α → Prop} {D : Tuple → Prop}
structure Linkable (T : Tuple → Prop) : Prop where
  hotUpdated : ∀ n t, T t → T (t.setHOTUpdated n)
  hotHeapTuple : ∀ t, T t → T t.setHOTHeapTuple

structure Lasts (T : Tuple → Prop) : Prop extends Linkable T where
  xMax : ∀ x t, T t → T (t.setXMax x)

theorem Lasts.data (P : List UInt8 → Prop) : Lasts fun t => P t.data := ⟨⟨fun _ _ => id,fun _ => id⟩,fun _ _ => id⟩

def Cmd.Writes (T : Tuple → Prop) : Cmd → Prop
  | .insertTuple _ t => T t
  | .setHOTUpdated _ n => ∀ t, T t → T (t.setHOTUpdated n)
  | .putXMax _ x => ∀ t, T t → T (t.setXMax x)
  | .clearXMax _ => ∀ t, T t → T (t.setXMax 0)
  | .setInfo f => ∀ info, (f info).schema = info.schema
  | _ => True

/-- What a table with the schema `sc` and rows in `D` answers. -/
def Cmd.Tells (sc : TableSchema) (D : Tuple → Prop) : (c : Cmd) → c.Res → Prop
  | .getInfo, info => TableInfo.schema info = sc
  | .getTuple _, r => ∀ t, r = some (some t) → D t
  | .scanSlots, r => ∀ y ∈ Prod.fst r, D y.2
  | _, _ => True

def Cmd.Works (T : Tuple → Prop) : Cmd → Prop
  | .insertTuple _ t => T t
  | .setHOTUpdated _ n => ∀ t, T t → T (t.setHOTUpdated n)
  | .putXMax _ x => ∀ t, T t → T (t.setXMax x)
  | .clearXMax _ => ∀ t, T t → T (t.setXMax 0)
  | .setInfo f => ∀ info, (f info).schema = info.schema
  | .nextTxID => False
  | .lockTable => False
  | .relockTable => False
  | .unlockTable => False
  | _ => True

variable {T : Tuple → Prop} {c : Cmd} {sc : TableSchema} {x : Exec α}
theorem Cmd.Works.writes (h : c.Works T) : c.Writes T := by
  cases c with
  | insertTuple | setInfo | setHOTUpdated | putXMax | clearXMax => exact h
  | _ => trivial

def Cmd.Unseen : Cmd → Prop
  | .setInfo f => ∀ info, (f info).schema = info.schema
  | .getInfo => True
  | .syncCatalog _ => True
  | .logCommit _ => True
  | _ => False

theorem Cmd.Unseen.works (h : c.Unseen) : c.Works T := by
  cases c with
  | setInfo => exact h
  | getInfo | syncCatalog | logCommit => trivial
  | _ => exact h.elim

abbrev Keeps {α : Type} (sc : TableSchema) (D T : Tuple → Prop) (x : Exec α) (Q : α → Prop) : Prop :=
  Within (Cmd.Writes T) (Cmd.Tells sc D) x Q

abbrev Works {α : Type} (sc : TableSchema) (D T : Tuple → Prop) (x : Exec α) (Q : α → Prop) : Prop :=
  Within (Cmd.Works T) (Cmd.Tells sc D) x Q

theorem Looks.works (h : Looks D x Q) : Works sc D T x Q := by
  refine Prog.Within.mono h (fun c hc => ?_) (fun c r ha => ?_) fun _ hq => hq
  · cases c with
    | getInfo | scanSlots | getTuple | txClock => trivial
    | setInfo => exact hc
    | _ => exact hc.elim
  · cases c with
    | scanSlots | getTuple => exact ha
    | _ => trivial

theorem Works.keeps (h : Works sc D T x Q) : Keeps sc D T x Q :=
  Prog.Within.mono h (fun _ => Cmd.Works.writes) (fun _ _ ha => ha) fun _ hq => hq

section
variable {sc : TableSchema} {D T : Tuple → Prop} {x : Nat} {t : Tuple} {onLogged : PageSlot → Exec Unit}
  {dirty : Bool} {held : Option PageID}
section
variable (hl : ∀ loc, Works sc D T (onLogged loc) fun _ => True)
include hl
theorem works_insertLogged (ht : T t) : Works sc D T (insertLogged x onLogged dirty pid t) fun _ => True := by
  refine within_step ht fun slot _ => ?_
  cases slot with
  | none => exact within_step trivial fun _ _ => within_step trivial fun _ _ => within_pure trivial
  | some slot =>
    refine within_step trivial fun lsn _ => ?_
    cases lsn with
    | none => exact within_step trivial fun _ _ => within_step trivial fun _ _ => within_throw
    | some lsn =>
      refine within_bind ((hl _).mono fun _ _ => ?_)
      exact within_step trivial fun _ _ => within_step trivial fun _ _ => within_pure trivial

theorem works_placeFresh (ht : T t) : Works sc D T (placeFresh x onLogged dirty t) fun _ => True := by
  refine within_step trivial fun pid _ => ?_
  cases pid with
  | none => exact within_throw
  | some pid =>
    refine within_step trivial fun _ _ => within_bind ((works_insertLogged hl ht).mono fun loc _ => ?_)
    cases loc with
    | none => exact within_throw
    | some loc => exact within_pure trivial

theorem works_place (ht : T t) : Works sc D T (place x onLogged dirty held t) fun _ => True := by
  have hfresh : Works sc D T (placeFresh x onLogged dirty t >>= fun loc => pure (loc,true)) fun _ => True :=
    within_bind ((works_placeFresh hl ht).mono fun _ _ => within_pure trivial)
  cases held with
  | none => exact hfresh
  | some pid =>
    refine within_bind ((works_insertLogged hl ht).mono fun loc _ => ?_)
    cases loc with
    | none => exact hfresh
    | some loc => exact within_pure trivial
end

theorem works_holdLastPage (count : Nat) : Works sc D T (holdLastPage count) fun _ => True := by
  unfold holdLastPage
  split
  · exact within_pure trivial
  · refine within_step trivial fun _ _ => within_step trivial fun fetched _ => ?_
    cases fetched with
    | true => exact within_pure trivial
    | false => exact within_step trivial fun _ _ => within_throw

theorem works_insertTuples {count : Nat} (hts : ∀ t ∈ ts, T t) :
    Works sc D T (insertTuples x ts count) fun _ => True := by
  induction ts generalizing count with
  | nil => exact within_pure trivial
  | cons t ts ih =>
    rw [forall_mem_cons] at hts
    refine within_bind ((works_holdLastPage count).mono fun held _ => within_bind ?_)
    refine (works_place (fun _ => within_cmd (fun _ => rfl) fun _ _ => trivial) hts.1).mono fun placed _ => ih hts.2

theorem works_appendTuples (hts : ∀ t ∈ ts, T t) : Works sc D T (appendTuples x held ts) fun _ => True := by
  induction ts generalizing held with
  | nil =>
    cases held with
    | none => exact within_pure trivial
    | some pid => exact within_step trivial fun _ _ => within_step trivial fun _ _ => within_pure trivial
  | cons t ts ih =>
    rw [forall_mem_cons] at hts
    have hplace : Works sc D T (place x (fun _ => pure ()) true held t) fun _ => True :=
      works_place (fun _ => within_pure trivial) hts.1
    cases held with
    | none => exact within_bind (hplace.mono fun _ _ => within_bind ((ih hts.2).mono fun _ _ => within_pure trivial))
    | some pid =>
      exact within_bind (hplace.mono fun _ _ => within_bind ((ih hts.2).mono fun _ _ => within_pure trivial))

theorem works_appendTuplesLocked (hts : ∀ t ∈ ts, T t) : Works sc D T (appendTuplesLocked x ts) fun _ => True := by
  refine within_step trivial fun total _ => ?_
  cases total with
  | none => exact within_throw
  | some total => exact within_bind ((works_holdLastPage total).mono fun _ _ => works_appendTuples hts)
end

section
variable {V : Type} {R : RowOps V} {sc : TableSchema} {D T : Tuple → Prop} {x : Nat} {vs : List (NewVersion V)}
  {locs : List PageSlot} {encoded : Tuple}
section
variable (hT : Linkable T)
include hT
theorem works_hotInsertOnPage (ht : T encoded) : Works sc D T (hotInsertOnPage x loc encoded) fun r => T r.2 := by
  refine within_step trivial fun fetched _ => ?_
  cases fetched with
  | false => exact within_pure ht
  | true =>
    refine within_step trivial fun free _ => ?_
    split
    · exact within_step trivial fun _ _ => within_pure ht
    · refine within_step (hT.hotHeapTuple _ ht) fun slot _ => ?_
      cases slot with
      | none => exact within_step trivial fun _ _ => within_pure (hT.hotHeapTuple _ ht)
      | some slot =>
        refine within_step (hT.hotUpdated _) fun _ _ => within_step trivial fun lsn _ => ?_
        exact within_step trivial fun _ _ => within_pure (hT.hotHeapTuple _ ht)

theorem works_tryHOTInsert {oldRow newRow : List V}
    (ht : T encoded) : Works sc D T (tryHOTInsert R x info loc oldRow newRow encoded) fun r => T r.2 := by
  unfold tryHOTInsert
  split
  · exact within_pure ht
  · refine within_step trivial fun _ _ => within_bind ((works_hotInsertOnPage hT ht).mono fun placed hp => ?_)
    exact within_step trivial fun _ _ => within_pure hp

section
variable (hvs : ∀ v ∈ vs, T v.encoded)
include hvs
theorem works_tryHOTInserts : Works sc D T (tryHOTInserts R x info vs) fun ps => ∀ p ∈ ps, T p.2 := by
  induction vs with
  | nil => exact within_pure (by simp)
  | cons v vs ih =>
    rw [forall_mem_cons] at hvs
    refine within_bind ((works_tryHOTInsert hT hvs.1).mono fun placed hp =>
      within_bind ((ih hvs.2).mono fun rest hrest => ?_))
    exact within_pure (forall_mem_cons.2 ⟨hp,hrest⟩)

theorem works_storeVersions : Works sc D T (storeVersions R x info vs) fun _ => True := by
  refine within_bind ((works_tryHOTInserts hT hvs).mono fun placed hp => ?_)
  have hrest : ∀ t ∈ (placed.filter fun p => p.1.isNone).map Prod.snd, T t := by
    intro t ht
    obtain ⟨p,hm,rfl⟩ := mem_map.1 ht
    exact hp p (mem_filter.1 hm).1
  dsimp only
  cases hn : (placed.filter fun p => p.1.isNone).map Prod.snd with
  | nil => exact within_pure trivial
  | cons t ts =>
    rw [hn] at hrest
    exact within_bind ((works_appendTuplesLocked hrest).mono fun _ _ => within_pure trivial)

theorem works_replaceVersions {hotKeys : List Int} {guarded : Bool}
    {newIndexes : List Int → List (List V) → Int → List Index → List Index} :
    Works sc D T (replaceVersions R x info indices hotKeys vs guarded newIndexes) fun _ => True := by
  refine within_bind ((works_storeVersions hT hvs).mono fun placed _ => ?_)
  refine within_step (fun _ => rfl) fun _ _ => ?_
  dsimp only
  split
  · exact within_throw
  · split
    · exact within_pure trivial
    · exact within_cmd (fun _ => rfl) fun _ _ => trivial
end
end

variable {count : Int → Int}
theorem unseen_finish : Within Cmd.Unseen (Cmd.Tells sc D) (finish x count) fun _ => True := by
  refine within_step (fun _ => rfl) fun _ _ => within_step trivial fun info _ => ?_
  refine within_step trivial fun _ _ => within_step trivial fun lsn _ => ?_
  cases lsn with
  | none => exact within_throw
  | some lsn => exact within_pure trivial

theorem works_finish : Works sc D T (finish x count) fun _ => True :=
  Prog.Within.mono unseen_finish (fun _ => Cmd.Unseen.works) (fun _ _ ha => ha) fun _ hq => hq

theorem works_logDeletes : Works sc D T (logDeletes x locs) fun _ => True := by
  refine within_forM fun loc _ => within_step trivial fun lsn _ => ?_
  cases lsn with
  | none => exact within_throw
  | some lsn => exact within_pure trivial

theorem works_stamp (hx : ∀ t, T t → T (t.setXMax x)) : Works sc D T (stamp x loc) fun _ => True := by
  refine within_step hx fun fetched _ => ?_
  cases fetched with
  | true => exact within_pure trivial
  | false => exact within_throw

theorem works_stamps (hx : ∀ t, T t → T (t.setXMax x)) : Works sc D T (locs.forM (stamp x)) fun _ => True :=
  within_forM fun _ _ => works_stamp hx

theorem works_revertStamps (h0 : ∀ t, T t → T (t.setXMax 0)) : Works sc D T (revertStamps locs) fun _ => True :=
  within_forM fun _ _ => within_step h0 fun _ _ => within_pure trivial
end

section
variable {V : Type} {R : RowOps V} {sc : TableSchema} {D T : Tuple → Prop} {x : Nat} {k : TableKey}
  {ls : List (Located V)} {rows : List (List V)}
theorem keeps_unlockOnError {body : Exec α} (h : Keeps sc D T body Q) : Keeps sc D T (unlockOnError body) Q :=
  within_onError h (within_cmd trivial fun _ _ => trivial)

theorem keeps_getTableForWrite (k : TableKey) : Keeps sc D T (getTableForWrite k) fun _ => True := by
  refine within_step trivial fun found _ => ?_
  cases found with
  | true => exact within_pure trivial
  | false => exact within_throw

def EncodesIn (R : RowOps V) (T : Tuple → Prop) (row : List V) : Prop := ∀ x t, encodePageTuple R x row = .ok t → T t

theorem keeps_locked {β : Type} {body : Nat → Exec α} {rest : Nat → α → Exec β} {P : Nat → α → Prop} {Q : β → Prop}
    (hbody : ∀ x, Keeps sc D T (body x) (P x)) (hrest : ∀ x a, P x a → Keeps sc D T (rest x a) Q) : Keeps sc D T (do
      let x ← Exec.cmd .nextTxID
      getTableForWrite k
      let a ← unlockOnError (body x)
      Exec.cmd .unlockTable
      rest x a) Q :=
  within_step trivial fun x _ => within_bind ((keeps_getTableForWrite k).mono fun _ _ =>
    within_bind ((keeps_unlockOnError (hbody x)).mono fun a ha => within_step trivial fun _ _ => hrest x a ha))

theorem keeps_insertRows [BEq V]
    (hrows : ∀ row ∈ rows, ∀ ns, normalizeRow R row sc.columns 0 = .ok ns → EncodesIn R T ns) :
    Keeps sc D T (insertRows R k rows) fun _ => True := by
  refine keeps_locked (P := fun _ _ => True) (fun x => ?_) fun x _ _ => within_bind ?_
  · refine within_step trivial fun info hinfo => within_bind (Within.mono (T := fun _ => True) ?_ fun scan _ => ?_)
    · split
      · exact within_cmd trivial fun _ _ => trivial
      · exact within_pure trivial
    · refine within_bind (within_orThrow fun ts hts => within_step trivial fun count _ => ?_)
      cases count with
      | none => exact within_throw
      | some count =>
        have hinfo : info.schema = sc := hinfo
        rw [hinfo] at hts
        refine (works_insertTuples fun t ht => ?_).keeps
        obtain ⟨row,hrow,ns,hns,henc⟩ := (encodeRows_ok hts).2 t ht
        exact hrows row hrow ns hns _ t henc
  · refine works_finish.keeps.mono fun count _ => ?_
    exact within_step (fun _ => rfl) fun _ _ => within_pure trivial

theorem keeps_stampAndUpdate (hx : ∀ t, T t → T (t.setXMax x)) {newRow : Located V → Except String (List V)}
    (h : ∀ l ∈ ls, ∀ new, newRow l = .ok new → EncodesIn R T new) :
    Keeps sc D T (stampAndUpdate R x newRow ls) fun vs => ∀ v ∈ vs, T v.encoded := by
  induction ls with
  | nil => exact within_pure (by simp)
  | cons l ls ih =>
    rw [forall_mem_cons] at h
    refine within_bind ((works_stamp hx).keeps.mono fun _ _ => within_bind (within_orThrow fun new hnew => ?_))
    refine within_bind (within_orThrow fun t ht => within_bind ((ih h.2).mono fun vs hvs => ?_))
    exact within_pure (forall_mem_cons.2 ⟨h.1 new hnew _ t ht,hvs⟩)

theorem keeps_updateRows (hT : Lasts T) {updates : List (String × V)}
    (h : ∀ row new, Read R sc D row → applyUpdates R sc.columns updates row = .ok new → EncodesIn R T new) :
    Keeps sc D T (updateRows R k indices updates) fun _ => True := by
  refine keeps_locked (P := fun _ _ => True) (fun x => ?_) fun x _ _ => within_bind ?_
  · refine within_step trivial fun info hinfo => within_bind (looks_locateRows.works.keeps.mono fun ls hls => ?_)
    refine within_bind (works_logDeletes.keeps.mono fun _ _ => within_bind ?_)
    have hinfo : info.schema = sc := hinfo
    rw [hinfo] at hls
    refine (keeps_stampAndUpdate (hT.xMax x) fun l hl new hnew => ?_).mono fun vs hvs => ?_
    · rw [hinfo] at hnew
      exact h _ new (hls l hl) hnew
    · exact within_bind ((works_replaceVersions hT.toLinkable hvs).keeps.mono fun _ _ => within_pure trivial)
  · exact works_finish.keeps.mono fun _ _ => within_pure trivial

theorem keeps_stampDirect (hx : ∀ t, T t → T (t.setXMax x)) {newByIndex : Int → Option (List V)}
    (h : ∀ i nv, newByIndex i = some nv → EncodesIn R T nv) :
    Keeps sc D T (stampDirect R x sc newByIndex ls) fun r => ∀ y ∈ r.2, T y.2 := by
  induction ls with
  | nil => exact within_pure (by simp)
  | cons l ls ih =>
    refine within_step trivial fun old _ => ?_
    cases old with
    | none => exact within_throw
    | some old =>
      refine within_bind ((works_stamp hx).keeps.mono fun _ _ =>
        within_bind (Within.mono (T := fun new => ∀ y ∈ new, T y.2) ?_
        fun new hnew => within_bind (ih.mono fun rest hrest => ?_)))
      · cases hn : newByIndex l.rowIdx with
        | none => exact within_pure (by simp)
        | some nv =>
          exact within_bind (within_orThrow fun t ht => within_pure (forall_mem_singleton.2 (h _ nv hn _ t ht)))
      · exact within_pure fun y hy => (mem_append.1 hy).elim (hnew y) (hrest y)

theorem keeps_updateRowsDirect (hT : Lasts T) {newValues : List (List V)} (h : ∀ nv ∈ newValues, EncodesIn R T nv) :
    Keeps sc D T (updateRowsDirect R k indices newValues) fun _ => True := by
  refine keeps_locked (P := fun _ _ => True) (fun x => ?_) fun x _ _ => within_bind ?_
  · refine within_step trivial fun info hinfo => within_bind (looks_locateDirect.works.keeps.mono fun ls _ => ?_)
    refine within_bind (works_logDeletes.keeps.mono fun _ _ => within_bind ?_)
    have hinfo : info.schema = sc := hinfo
    rw [hinfo]
    refine (keeps_stampDirect (hT.xMax x) fun i nv hnv => ?_).mono fun stamped hst => ?_
    · obtain ⟨y,hy,rfl⟩ := map_eq_some_iff.1 hnv
      exact h _ (of_mem_zip (mem_reverse.1 (mem_of_find?_eq_some hy))).2
    · have hvs : ∀ v ∈ pairVersions stamped.1 stamped.2, T v.encoded := fun v hv => hst _ (mem_pairVersions hv).2
      dsimp only
      split
      · exact within_bind ((works_tryHOTInserts hT.toLinkable hvs).keeps.mono fun _ _ => within_throw)
      · exact within_bind ((works_replaceVersions hT.toLinkable hvs).keeps.mono fun _ _ => within_pure trivial)
  · exact works_finish.keeps.mono fun _ _ => within_pure trivial

section
variable {positions : Option (List Int)} {matchFn : Tuple → Except String Bool}
    {updateFn : List V → Except String (List V)}
  {vs : List (NewVersion V)}
theorem works_stampVM (hx : ∀ t, T t → T (t.setXMax x)) :
    Works sc D T (stampVM R x positions matchFn updateFn) fun r => ∀ v ∈ r.2,
    Matched R sc D matchFn v.old.row ∧ updateFn v.old.row = .ok v.newRow ∧
    encodePageTuple R x v.newRow = .ok v.encoded := by
  refine within_step trivial fun info hinfo => within_bind ?_
  have hinfo : info.schema = sc := hinfo
  rw [hinfo]
  refine looks_locateVM.works.mono fun ls hls => within_bind (works_logDeletes.mono fun _ _ => within_bind ?_)
  refine within_orThrow fun vs hvs => within_bind ((works_stamps hx).mono fun _ _ => within_pure fun v hv => ?_)
  obtain ⟨hold,hnew⟩ := newVersionsVM_ok hvs
  have hmem : v.old ∈ ls := hold ▸ mem_map_of_mem hv
  exact ⟨hls _ hmem,hnew v hv⟩

theorem keeps_stampPhaseVM (hT : Lasts T) : Keeps sc D T
    (stampPhaseVM R k positions matchFn updateFn) fun r => ∀ v ∈ r.2.2,
    Matched R sc D matchFn v.old.row ∧ updateFn v.old.row = .ok v.newRow ∧
    encodePageTuple R r.1 v.newRow = .ok v.encoded :=
  keeps_locked (fun x => (works_stampVM (hT.xMax x)).keeps) fun _ _ hr => within_pure hr

theorem keeps_revertPhaseVM (hT : Lasts T) : Keeps sc D T (revertPhaseVM vs) fun _ => True :=
  within_step trivial fun _ _ => within_bind ((works_revertStamps (hT.xMax 0)).keeps.mono fun _ _ =>
    within_cmd trivial fun _ _ => trivial)

theorem keeps_storePhaseVM (hT : Lasts T) (hvs : ∀ v ∈ vs, T v.encoded) :
    Keeps sc D T (storePhaseVM R x info vs) fun _ => True := by
  refine within_step trivial fun _ _ => within_bind ?_
  refine (keeps_unlockOnError (works_replaceVersions hT.toLinkable hvs).keeps).mono fun _ _ => ?_
  exact within_step trivial fun _ _ => within_bind (works_finish.keeps.mono fun _ _ => within_pure trivial)
end
end

section
variable {sc : TableSchema} {D : Tuple → Prop}
def Contents.RowsIn (c : Contents) (sc : TableSchema) (D : Tuple → Prop) : Prop :=
  c.info.schema = sc ∧ ∀ loc t, c.tuple loc = some t → D t

namespace Contents
variable {c c' : Contents}
theorem rowsIn_iff : c.RowsIn sc D ↔ c.info.schema = sc ∧ ∀ y ∈ c.slots, D y.2 := by simp [RowsIn,mem_slots_iff]

theorem RowsIn.modify (h : c.RowsIn sc D) {f : Tuple → Tuple} (hf : ∀ t, D t → D (f t)) :
    (c.modify loc f).RowsIn sc D := by
  rw [rowsIn_iff,info_modify,slots_modify] at *
  refine ⟨h.1,forall_mem_map.2 fun y hy => ?_⟩
  split
  · exact hf y.2 (h.2 y hy)
  · exact h.2 y hy

theorem RowsIn.change {cmd : Cmd} (h : c.RowsIn sc D) (hw : cmd.Writes D) (hc : c.Change cmd c') :
    c'.RowsIn sc D := by
  cases hc with
  | setInfo f => exact ⟨(hw c.info).trans h.1,h.2⟩
  | allocatePage hn =>
    rw [rowsIn_iff,slots_addPage] at *
    exact h
  | insertTuple hi =>
    obtain ⟨a,b,hs,hs',-⟩ := slots_insertAt hi
    rw [rowsIn_iff,hs',(info_insertAt hi).1] at *
    rw [hs] at h
    simp only [forall_mem_append,forall_mem_cons] at *
    exact ⟨h.1,h.2.1,hw,h.2.2⟩
  | setHOTUpdated | putXMax | clearXMax => exact h.modify hw

end Contents
end

section
variable {V : Type} {R : RowOps V} {sc : TableKey → TableSchema} {D T : TableKey → Tuple → Prop} {k : TableKey}
  {st st' : Store}
def Store.RowsIn (st : Store) (sc : TableKey → TableSchema) (D : TableKey → Tuple → Prop) : Prop :=
  ∀ k c, st.table k = some c → c.RowsIn (sc k) (D k)

section
variable (h : st.RowsIn sc D)
include h
theorem Store.RowsIn.set {c : Contents} (hc : c.RowsIn (sc k) (D k)) : (st.set k c).RowsIn sc D := by
  rintro k' c' hc'
  rw [Store.table_set] at hc'
  split at hc'
  · next heq =>
    cases hc'
    rw [heq]
    exact hc
  · exact h k' c' hc'

theorem Store.RowsIn.exec {r : c.Res} (hc : c.Writes (D k)) (he : st.exec k c = some (r,st')) :
    c.Tells (sc k) (D k) r ∧ st'.RowsIn sc D := by
  refine ⟨?_,?_⟩
  · cases c with
    | getInfo =>
      obtain ⟨c,htab,he⟩ := map_eq_some_iff.1 he
      cases he
      exact (h k c htab).1
    | scanSlots =>
      obtain ⟨c,htab,he⟩ := map_eq_some_iff.1 he
      cases he
      exact fun y hy => (h k c htab).2 y.1 y.2 (Contents.mem_slots_iff.1 (Contents.scanSlots_subset y hy))
    | getTuple loc =>
      obtain ⟨c,htab,he⟩ := map_eq_some_iff.1 he
      cases he
      intro t ht
      obtain ⟨p,hp,ht⟩ := map_eq_some_iff.1 ht
      exact (h k c htab).2 loc t (by simpa [Contents.tuple,hp] using ht)
    | _ => trivial
  · rcases Store.exec_cases he with ⟨htab,-⟩ | ⟨c0,c1,htab,hch,htab',-⟩
    · intro k' c' hc'
      rw [htab] at hc'
      exact h k' c' hc'
    · intro k' c' hc'
      rw [htab'] at hc'
      exact h.set ((h k c0 htab).change hc hch) k' c' hc'

theorem Store.RowsIn.mono (hd : ∀ k d, D k d → T k d) : st.RowsIn sc T :=
  fun k c hc => ⟨(h k c hc).1,fun loc t ht => hd k _ ((h k c hc).2 loc t ht)⟩

def Store.call {α : Type} (st : Store) (k : TableKey) (x : Exec α) : Option (Except String α × Store) :=
  x.run.run (Store.exec k) st

theorem Store.RowsIn.call
    (hx : Keeps (sc k) (D k) (D k) x Q) {out : Except String α} (hr : st.call k x = some (out,st')) :
    (∀ a, out = .ok a → Q a) ∧ st'.RowsIn sc D :=
  Prog.Within.run (I := fun s => s.RowsIn sc D) (fun hs hc he => hs.exec hc he) hx h hr
end

theorem Store.RowsIn.updateRowsVM (hD : Lasts (D k)) (hT : Lasts (T k)) (h : st.RowsIn sc D)
    (hd : ∀ k t, D k t → T k t) {positions : Option (List Int)} {matchFn : Tuple → Except String Bool}
    {updateFn : List V → Except String (List V)} {validateFn : List Int → List (List V) → Except String Unit}
    (hupdate : ∀ row new, Matched R (sc k) (D k) matchFn row → updateFn row = .ok new → EncodesIn R (T k) new)
    {out : Except String Int} (hr : st.call k (updateRowsVM R k positions matchFn updateFn
      validateFn) = some (out,st')) : st'.RowsIn sc T := by
  rw [updateRowsVM_eq,Store.call,ExceptT.run_bind,Prog.run_bind] at hr
  obtain ⟨⟨r,st1⟩,hr1,hr⟩ := bind_eq_some_iff.1 hr
  obtain ⟨hread,hst1⟩ := h.call (x := stampPhaseVM R k positions matchFn updateFn) (keeps_stampPhaseVM hD) hr1
  have hst1 := hst1.mono hd
  cases r with
  | error e =>
    cases hr
    exact hst1
  | ok r =>
    obtain ⟨x,info,vs⟩ := r
    have hvs : ∀ v ∈ vs, T k v.encoded := fun v hv =>
      hupdate _ _ (hread _ rfl v hv).1 (hread _ rfl v hv).2.1 _ _ (hread _ rfl v hv).2.2
    refine (hst1.call (Q := fun _ => True) ?_ hr).2
    dsimp only
    split
    · exact within_pure trivial
    · split
      · exact within_bind ((keeps_revertPhaseVM hT).mono fun _ _ => within_throw)
      · exact keeps_storePhaseVM hT hvs
end
end VaultDB.Storage
