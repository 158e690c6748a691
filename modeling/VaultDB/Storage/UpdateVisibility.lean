import VaultDB.Lib.Observed
import VaultDB.Storage.ForUpdate
import VaultDB.Storage.Written
set_option autoImplicit false

/-!
What `SelectRows` returns while one `UpdateRowsVM` is under way.

The UPDATE takes the table's lock twice, for the stamps and for the new versions, and lets go of it
in between to validate the new rows.  A reader waits while the table is locked.
-/

namespace VaultDB.Storage
open Lib Stmt Exec Contents Observed List Option
variable {st' : Store} {T : Tuple → Prop} {locked : Bool}
section
variable {V : Type} (R : RowOps V) {sees : Tuple → Bool} {schema : TableSchema} {slots : List (PageSlot × Tuple)}
  {sees' : Tuple → Bool} {rows : List (List V)} {t : Tuple}
def decodeSeen (sees : Tuple → Bool) (schema : TableSchema) : List (PageSlot × Tuple) → Option (List (List V))
  | [] => some []
  | x :: slots =>
    (R.decodeRow schema x.2.data).bind fun row =>
      (decodeSeen sees schema slots).map fun rows => if sees x.2 then row :: rows else rows

def Contents.scanRows (c : Contents) (sees : Tuple → Bool) : Option (List (List V)) :=
  if c.pageCount.isSome then decodeSeen R sees c.info.schema c.slots else none

def Store.selectRows (st : Store) (active : ActiveTxs) (k : TableKey) : Option (List (List V)) :=
  (st.table k).bind fun c => c.scanRows R (active.sees st.clock)

variable {R}
theorem decodeSeen_congr
    (h : ∀ y ∈ slots, sees y.2 = sees' y.2) : decodeSeen R sees schema slots = decodeSeen R sees' schema slots := by
  induction slots with
  | nil => rfl
  | cons y slots ih =>
    rw [forall_mem_cons] at h
    simp only [decodeSeen,h.1,ih h.2]

theorem length_decodeSeen (h : decodeSeen R sees schema slots = some rows) :
    rows.length = (slots.filter fun y => sees y.2).length := by
  induction slots generalizing rows with
  | nil =>
    cases h
    rfl
  | cons y slots ih =>
    obtain ⟨row,-,h⟩ := bind_eq_some_iff.1 h
    obtain ⟨rows',h',rfl⟩ := map_eq_some_iff.1 h
    cases hs : sees y.2 with
    | true => simp [hs,ih h']
    | false => simp [hs,ih h']

theorem isSome_decodeSeen {f : PageSlot × Tuple → PageSlot × Tuple} (hf : ∀ y, (f y).2.data = y.2.data) :
    (decodeSeen R sees schema (slots.map f)).isSome = (decodeSeen R sees' schema slots).isSome := by
  induction slots with
  | nil => rfl
  | cons y slots ih =>
    simp only [map_cons,decodeSeen,hf]
    cases R.decodeRow schema y.2.data with
    | none => rfl
    | some row => simpa using ih

theorem Managed.decodeVisible_eq {s : Managed} :
    (s.decodeVisible R schema slots).map (List.map Prod.snd) =
      decodeSeen R (s.active.sees s.engine.clock) schema slots := by
  induction slots with
  | nil => rfl
  | cons y slots ih =>
    simp only [decodeVisible,decodeSeen,Managed.visible,← ih]
    cases R.decodeRow schema y.2.data with
    | none => rfl
    | some row =>
      cases decodeVisible R s schema slots with
      | none => rfl
      | some rows =>
        by_cases hs : s.active.sees s.engine.clock y.2 = true
        · simp [hs]
        · simp [hs]

/-- The engine's `SelectRows` returns what a store with the same contents does. -/
theorem Managed.selectRows_of_shows {s : Managed} {st : Store} {k : TableKey} (h : Shows k s.engine st)
    (hopen : ∀ t, s.engine.tables k = some t → t.lockedBy = none) :
    (s.selectRows R k).map (List.map Prod.snd) = st.selectRows R s.active k := by
  cases ht : s.engine.tables k with
  | none => simp [Managed.selectRows,Store.selectRows,ht,h.of_none ht]
  | some t =>
    obtain ⟨c,hc,hholds⟩ := h.of_some ht
    simp only [Managed.selectRows,Store.selectRows,ht,hc,bind_some,hopen t ht,if_true,hholds.scanSlots,
      Contents.scanRows,Contents.scanSlots,hholds.info,← h.clock]
    cases c.pageCount with
    | none => rfl
    | some n => exact decodeVisible_eq

/-- No open transaction of the manager has the engine's counter, or the id a statement takes next,
as its id. -/
def ActiveTxs.Apart (active : ActiveTxs) (clock : Clock) : Prop :=
  active.getSnapshot clock.txCounter = none ∧ active.getSnapshot (clock.txCounter+1) = none

theorem ActiveTxs.sees_of_none {active : ActiveTxs} {clock : Clock}
    (h : active.getSnapshot clock.txCounter = none) (t : Tuple) : active.sees clock t = clock.visible t := by
  simp [ActiveTxs.sees,ActiveTxs.inSnapshot,h,Clock.visible]

theorem Clock.Dated.visible_eq {clock : Clock} (h : clock.Dated t) (hc : clock.txCounter < 2^48) :
    clock.visible t = decide (t.deletedTx = 0) := by
  have hxmax : t.xmax = t.deletedTx := Nat.mod_eq_of_lt (Nat.lt_of_le_of_lt h.deleted hc)
  have hlate : ¬clock.txCounter < t.deletedTx := Nat.not_lt.2 h.deleted
  have hxmin := h.xmin
  rw [Bool.eq_iff_iff]
  simp [Clock.visible,Clock.isCommitted,hxmax,hxmin.1,hxmin.2,hlate]

namespace Contents
variable {c : Contents} {clock : Clock} {x : Nat} {locs : List PageSlot}
variable (R) in
def liveRows (c : Contents) : Option (List (List V)) := c.scanRows R fun t => t.deletedTx = 0

theorem scanRows_sees {active : ActiveTxs} (h : ∀ y ∈ c.slots, clock.Dated y.2) (hc : clock.txCounter < 2^48)
    (hfree : active.getSnapshot clock.txCounter = none) : c.scanRows R (active.sees clock) = c.liveRows R := by
  have hsame : decodeSeen R (active.sees clock) c.info.schema c.slots =
      decodeSeen R (fun t => t.deletedTx = 0) c.info.schema c.slots :=
    decodeSeen_congr fun y hy => (active.sees_of_none hfree y.2).trans ((h y hy).visible_eq hc)
  unfold liveRows scanRows
  rw [hsame]

theorem length_liveRows (h : c.liveRows R = some rows) : rows.length = c.live.length := by
  unfold liveRows scanRows at h
  split at h
  · rw [length_decodeSeen h,live,length_map]
  · cases h

@[simp] theorem liveRows_directed : c.directed.liveRows R = c.liveRows R := rfl

theorem isSome_liveRows_stampAll (x : Nat) (locs : List PageSlot) :
    ((c.stampAll x locs).liveRows R).isSome = (c.liveRows R).isSome := by
  have hcount : (c.stampAll x locs).pageCount = c.pageCount := by simp [pageCount]
  unfold liveRows scanRows
  rw [hcount,info_stampAll,slots_stampAll]
  split
  · refine isSome_decodeSeen fun y => ?_
    split <;> rfl
  · rfl

theorem dated_stampAll (h : ∀ y ∈ c.slots, clock.Dated y.2) (hx : x ≤ clock.txCounter) :
    ∀ y ∈ (c.stampAll x locs).slots, clock.Dated y.2 := by
  rw [slots_stampAll,List.forall_mem_map]
  intro y hy
  split
  · exact Clock.Dated.lasting.stamp (h y hy) hx
  · exact h y hy

theorem length_live_stampAll (hx : x ≠ 0) {loc : PageSlot} (hm : loc ∈ locs)
    (ht : c.tuple loc = some t) (hd : t.deletedTx = 0) : (c.stampAll x locs).live.length < c.live.length := by
  rw [live_stampAll c hx,length_filter_lt_length_iff_exists]
  exact ⟨(loc,t.data),mem_live_iff.2 ⟨t,ht,hd,rfl⟩,by simpa using hm⟩

end Contents
end

structure Shared where
  store : Store
  locked : Bool
  released : Nat

def Cmd.locks : (c : Cmd) → c.Res → Bool → Bool
  | .lockTable, found, _ => found
  | .relockTable, _, _ => true
  | .unlockTable, _, _ => false
  | _, _, locked => locked

def Cmd.releases : Cmd → Nat
  | .unlockTable => 1
  | _ => 0

namespace Shared
variable {c : Cmd} {r : c.Res}
def exec (k : TableKey) (s : Shared) (c : Cmd) : Option (c.Res × Shared) :=
  (s.store.exec k c).map fun x => (x.1,⟨x.2,c.locks x.1 s.locked,s.released+c.releases⟩)

def Open (s : Shared) : Prop := s.locked = false

abbrev Reads {α : Type} (k : TableKey) (x : Exec α) (s : Shared) (os : List Shared) (out : Except String α)
    (t : Shared) : Prop :=
  Observed (exec k) Open x.run s os out t

theorem exec_store {k : TableKey} {s s' : Shared} (h : s.exec k c = some (r,s')) :
    s.store.exec k c = some (r,s'.store) ∧ s'.locked = c.locks r s.locked ∧ s'.released = s.released+c.releases := by
  obtain ⟨x,hx,he⟩ := map_eq_some_iff.1 h
  cases he
  exact ⟨hx,rfl,rfl⟩

namespace Reads
variable {α : Type} {k : TableKey} {x : Exec α} {s t : Shared} {os : List Shared} {Q : α → Store → Prop}
  {E : String → Store → Prop}
theorem ok {a : α} (h : Reads k x s os (.ok a) t) (hy : Store.Yields k s.store x Q E) : Q a t.store :=
  h.ok_of_yields (π := Shared.store) hy fun he => (exec_store he).1

theorem error {e : String} (h : Reads k x s os (.error e) t) (hy : Store.Yields k s.store x Q E) : E e t.store :=
  h.error_of_yields (π := Shared.store) hy fun he => (exec_store he).1

end Reads

section
variable {α : Type} {k : TableKey} {sc : TableKey → TableSchema} {D : TableKey → Tuple → Prop}
    {clock : Clock} {n : Nat}
  {s t : Shared} {os : List Shared} {x : Exec α} {Q : α → Prop} {out : Except String α} {f : Unit → Exec α}
structure Calm (sc : TableKey → TableSchema) (D : TableKey → Tuple → Prop) (clock : Clock) (locked : Bool) (n : Nat)
    (s : Shared) : Prop where
  rows : s.store.RowsIn sc D
  clock : s.store.clock = clock
  locked : s.locked = locked
  released : s.released = n

theorem clock_exec {st : Store} (hc : c.Works T) (h : st.exec k c = some (r,st')) : st'.clock = st.clock := by
  rcases Store.exec_cases h with ⟨-,rfl | hclock⟩ | ⟨_,_,-,-,-,hclock⟩
  · exact hc.elim
  · exact hclock
  · exact hclock

theorem Calm.exec (hs : Calm sc D clock locked n s) (hc : c.Works (D k))
    (h : s.exec k c = some (r,t)) : c.Tells (sc k) (D k) r ∧ Calm sc D clock locked n t := by
  obtain ⟨h,hlocked,hreleased⟩ := exec_store h
  have hrows := hs.rows.exec hc.writes h
  refine ⟨hrows.1,hrows.2,(clock_exec hc h).trans hs.clock,hlocked.trans ?_,hreleased.trans ?_⟩
  · rw [← hs.locked]
    cases c with
    | lockTable | relockTable | unlockTable => exact hc.elim
    | _ => rfl
  · rw [← hs.released]
    cases c with
    | unlockTable => exact hc.elim
    | _ => rfl

theorem Calm.inside (hs : Calm sc D clock true n s) (hx : Works (sc k) (D k) (D k) x Q)
    (h : Reads k x s os out t) : os = [] ∧ Calm sc D clock true n t := by
  obtain ⟨-,ht,ho⟩ := h.within hx (I := Calm sc D clock true n) (fun hs hc he => hs.exec hc he) hs
  refine ⟨eq_nil_iff_forall_not_mem.2 fun o hm => ?_,ht⟩
  have hopen : o.locked = false := h.seen o hm
  rw [(ho o hm).locked] at hopen
  cases hopen

def release (s : Shared) : Shared := ⟨s.store,false,s.released+1⟩

theorem Calm.release (hs : Calm sc D clock true n s) : Calm sc D clock false (n+1) s.release :=
  ⟨hs.rows,hs.clock,rfl,congrArg Nat.succ hs.released⟩

theorem Calm.relock (hs : Calm sc D clock false n s) : Calm sc D clock true n { s with locked := true } :=
  ⟨hs.rows,hs.clock,rfl,hs.released⟩

theorem reads_unlock_bind (h : Reads k (Exec.cmd .unlockTable >>= f) s os out t)
    (hs : s.locked = true) : ∃ os', Reads k (f ()) s.release os' out t ∧ ∀ o ∈ os, o ∈ os' := by
  obtain ⟨r,s',os',he,hr,ho⟩ := of_cmd_bind h
  cases he
  refine ⟨os',hr,fun o hm => (ho o hm).resolve_left ?_⟩
  rintro rfl
  cases hs.symm.trans (h.seen _ hm)

theorem reads_unlock {out : Except String Unit} (h : Reads k (Exec.cmd .unlockTable) s os out t)
    (hs : s.locked = true) : t = s.release ∧ ∀ o ∈ os, o = t := by
  obtain ⟨r,s',os',he,hr,ho⟩ := of_step h
  cases he
  obtain ⟨-,rfl,hos⟩ := of_ret hr
  refine ⟨rfl,fun o hm => (ho o hm).elim ?_ (hos o)⟩
  rintro rfl
  cases hs.symm.trans (h.seen _ hm)

theorem reads_relock_bind (h : Reads k (Exec.cmd .relockTable >>= f) s os out t) :
    ∃ os', Reads k (f ()) { s with locked := true } os' out t ∧ ∀ o ∈ os, o = s ∨ o ∈ os' := by
  obtain ⟨r,s',os',he,hr,ho⟩ := of_cmd_bind h
  cases he
  exact ⟨os',hr,ho⟩

theorem reads_getTableForWrite {out : Except String Unit} (h : Reads k (getTableForWrite k) s os out t)
    (htab : s.store.table k ≠ none) : out = .ok () ∧ t = { s with locked := true } ∧ ∀ o ∈ os, o = s := by
  obtain ⟨r,s',os',he,hr,ho⟩ := of_cmd_bind h
  have hfound : (s.store.table k).isSome = true := isSome_iff_ne_none.2 htab
  have hexec : s.exec k .lockTable = some (true,{ s with locked := true }) := by
    simp [Shared.exec,Store.exec,hfound,Cmd.locks,Cmd.releases]
  rw [hexec] at he
  cases he
  rw [if_pos rfl] at hr
  obtain ⟨rfl,rfl,hos⟩ := of_ret hr
  refine ⟨rfl,rfl,fun o hm => (ho o hm).elim id fun hm' => ?_⟩
  rw [hos o hm'] at hm
  cases h.seen _ hm

theorem Calm.section (hs : Calm sc D clock true n s) (hx : Works (sc k) (D k) (D k) x Q)
    (h : Reads k (unlockOnError x) s os out t) :
    (∃ a, out = .ok a ∧ Reads k x s [] out t ∧ os = [] ∧ Calm sc D clock true n t) ∨
    ∃ e s', out = .error e ∧ Reads k x s [] out s' ∧ t = s'.release ∧ (∀ o ∈ os, o = t) ∧
    Calm sc D clock false (n+1) t := by
  rcases of_onError h with ⟨os1,a,h1,rfl,ho⟩ | ⟨os1,e,s',os2,r,h1,h2,rfl,ho⟩
  · obtain ⟨rfl,ht⟩ := hs.inside hx h1
    refine .inl ⟨a,rfl,h1,eq_nil_iff_forall_not_mem.2 fun o hm => ?_,ht⟩
    obtain rfl := (ho o hm).resolve_left (by simp)
    cases ht.locked.symm.trans (h.seen _ hm)
  · obtain ⟨rfl,hs'⟩ := hs.inside hx h1
    obtain ⟨rfl,ho2⟩ := reads_unlock h2 hs'.locked
    exact .inr ⟨e,s',rfl,h1,rfl,fun o hm => ((ho o hm).resolve_left (by simp)).elim (ho2 o) id,hs'.release⟩
end
end Shared

section
open Shared
variable {V : Type} {R : RowOps V} {k : TableKey} {st : Store} {c : Contents} {positions : Option (List Int)}
  {matchFn : Tuple → Except String Bool} {updateFn : List V → Except String (List V)}
  {validateFn : List Int → List (List V) → Except String Unit} {os : List Shared} {t : Shared}
    {clock : Clock} {x : Nat}
  {sc : TableKey → TableSchema} {s : Shared} {out : Except String Int} {n : Nat} {vs : List (NewVersion V)}
  {active : ActiveTxs}
def Store.schemas (st : Store) (k : TableKey) : TableSchema := ((st.table k).map fun c => c.info.schema).getD ⟨[]⟩
def DatedIn (k : TableKey) (clock : Clock) (k' : TableKey) (t : Tuple) : Prop := k' = k → clock.Dated t

theorem linkable_datedIn : Linkable (DatedIn k clock k) where
  hotUpdated n _ h hk := Clock.Dated.lasting.hot n (h hk)
  hotHeapTuple t h hk := ⟨⟨by simpa using (h hk).xmin,(h hk).xmax⟩,(h hk).deleted⟩

theorem setXMax_datedIn (hx : x ≤ clock.txCounter) : ∀ t, DatedIn k clock k t → DatedIn k clock k (t.setXMax x) :=
  fun _ h hk => Clock.Dated.lasting.stamp (h hk) hx

theorem Shared.Calm.selectRows (hs : Calm sc (DatedIn k clock) clock locked n s) (hc : clock.txCounter < 2^48)
    (hfree : active.getSnapshot clock.txCounter = none) (htab : s.store.table k = some c) :
    s.store.selectRows R active k = c.liveRows R := by
  rw [Store.selectRows,htab,hs.clock]
  exact scanRows_sees (fun y hy => (hs.rows k c htab).2 y.1 y.2 (mem_slots_iff.1 hy) rfl) hc hfree

theorem calm_start (hdated : ∀ y ∈ c.slots, st.clock.Dated y.2) (clock : Clock) (hle : st.clock.Le clock)
    (hst : st'.table = (st.put k c none).table) (hclock : st'.clock = clock) :
    Calm (st.put k c none).schemas (DatedIn k clock) clock false 0 ⟨st',false,0⟩ := by
  refine ⟨fun k' c' htab => ⟨?_,fun loc t ht hk => ?_⟩,hclock,rfl,rfl⟩
  · rw [hst] at htab
    rw [Store.schemas,htab]
    rfl
  · subst hk
    rw [hst,Store.table_put,if_pos rfl] at htab
    cases htab
    exact Clock.Dated.lasting.mono (hdated (loc,t) (mem_slots_iff.2 ht)) hle

def Stamps (R : RowOps V) (c : Contents) (clock : Clock) (x : Nat) (positions : Option (List Int))
    (matchFn : Tuple → Except String Bool) (updateFn : List V → Except String (List V)) : Prop :=
  ∃ ls vs, matchedRows R c clock positions matchFn = .ok ls ∧ newVersionsVM R x updateFn ls = .ok vs ∧ ls ≠ []

theorem reads_stampPhaseVM (hdated : ∀ y ∈ c.slots, st.clock.Dated y.2) (hcounter : st.clock.txCounter+1 < 2^48)
    (hapart : active.Apart st.clock)
    {out : Except String (Nat × TableInfo × List (NewVersion V))}
    (h : Reads k (stampPhaseVM R k positions matchFn updateFn) ⟨st.put k c none,false,0⟩ os out t) :
    Calm (st.put k c none).schemas (DatedIn k st.tick.clock) st.tick.clock false 1 t ∧
    (∀ o ∈ os, (o.released = 0 ∧ o.store.selectRows R active k = c.liveRows R) ∨ o = t) ∧
    ((∃ ls info vs, out = .ok (st.clock.txCounter+1,info,vs) ∧
      matchedRows R c st.tick.clock positions matchFn = .ok ls ∧
        newVersionsVM R st.nextID updateFn ls = .ok vs ∧
        t.store = st.tick.put k (c.directed.stampAll st.nextID (ls.map Located.loc)) none) ∨
      (∃ e, out = .error e) ∧ (c.pageCount = none ∨ ¬Stamps R c st.tick.clock st.nextID positions matchFn updateFn) ∧
        t.store.selectRows R active k = c.liveRows R) := by
  have hle : st.clock.Le st.tick.clock := ⟨Nat.le_succ _,Nat.le_max_left _ _⟩
  have hstart : Calm _ _ _ _ _ ⟨st.put k c none,false,0⟩ :=
    calm_start hdated st.clock ⟨Nat.le_refl _,Nat.le_refl _⟩ rfl rfl
  have hticked : Calm _ _ _ _ _ ⟨st.tick.put k c none,false,0⟩ := calm_start hdated st.tick.clock hle rfl rfl
  have htab : (st.put k c none).table k = some c := by simp
  have hsel0 : (st.put k c none).selectRows R active k = c.liveRows R := hstart.selectRows (by omega) hapart.1 htab
  have hsel1 : (st.tick.put k c none).selectRows R active k = c.liveRows R :=
    hticked.selectRows hcounter hapart.2 htab
  -- the id is taken before the lock
  obtain ⟨x,s1,os1,he,h,ho1⟩ := of_cmd_bind h
  cases he
  have hseen : ∀ o ∈ os, o ∈ os1 ∨ (o.released = 0 ∧ o.store.selectRows R active k = c.liveRows R) := by
    intro o hm
    rcases ho1 o hm with rfl | hm
    · exact .inr ⟨rfl,hsel0⟩
    · exact .inl hm
  rcases of_stmt_bind h with ⟨os2,u,s2,os3,hlock,h,ho2⟩ | ⟨os2,e,hlock,-,-⟩
  case inr => cases (reads_getTableForWrite hlock (by simp)).1
  obtain ⟨-,rfl,hos2⟩ := reads_getTableForWrite hlock (by simp)
  have hbefore : ∀ o ∈ os, o ∈ os3 ∨ (o.released = 0 ∧ o.store.selectRows R active k = c.liveRows R) := by
    intro o hm
    rcases hseen o hm with hm | ho
    · rcases ho2 o hm with hm | hm
      · rw [hos2 o hm]
        exact .inr ⟨rfl,hsel1⟩
      · exact .inl hm
    · exact .inr ho
  have hworks : Works ((st.put k c none).schemas k) (DatedIn k st.tick.clock k) (DatedIn k st.tick.clock k)
      (stampVM R st.nextID positions matchFn updateFn) _ := works_stampVM (setXMax_datedIn (Nat.le_refl _))
  have hyields : Store.Yields k (st.tick.put k c none) (stampVM R st.nextID positions matchFn updateFn) _ _ :=
    yields_stampVM R (c := c) st.tick
  rcases of_stmt_bind h with ⟨os4,a,s3,os5,hstamp,h,ho3⟩ | ⟨os4,e,hstamp,rfl,ho3⟩
  · rcases hticked.relock.section hworks hstamp with ⟨a,he,hrun,rfl,hs3⟩ | ⟨e,s',he,-⟩
    case inr => cases he
    cases he
    obtain ⟨os6,h,ho4⟩ := reads_unlock_bind h hs3.locked
    obtain ⟨rfl,rfl,hos6⟩ := of_ret h
    obtain ⟨info,vs⟩ := a
    obtain ⟨ls,hls,-,hvs,hstore⟩ := Reads.ok hrun hyields
    refine ⟨hs3.release,fun o hm => (hbefore o hm).elim (fun hm => .inr ?_) .inl,
      .inl ⟨ls,info,vs,rfl,hls,hvs,hstore⟩⟩
    exact hos6 o (ho4 o ((ho3 o hm).resolve_left (by simp)))
  · rcases hticked.relock.section hworks hstamp with ⟨a,he,-⟩ | ⟨e,s',he,hrun,rfl,hos4,ht⟩
    case inl => cases he
    cases he
    obtain ⟨hstore,hnone⟩ := Reads.error hrun hyields
    refine ⟨ht,fun o hm => (hbefore o hm).elim (fun hm => .inr ((ho3 o hm).elim (hos4 o) id)) .inl,
      .inr ⟨⟨e,rfl⟩,?_,?_⟩⟩
    · refine hnone.imp_right fun hnone => ?_
      rintro ⟨ls,vs,hls,hvs,-⟩
      exact hnone ls vs hls hvs
    · rcases hstore with hstore | hstore
      · rw [ht.selectRows hcounter hapart.2 (show s'.release.store.table k =
          some c by rw [Shared.release,hstore]; simp)]
      · rw [ht.selectRows hcounter hapart.2 (show s'.release.store.table k =
          some c.directed by rw [Shared.release,hstore]; simp)]
        rfl

theorem reads_revertPhaseVM {c' : Contents} {p : Option PageID} (hs : Calm sc (DatedIn k clock) clock false 1 s)
    (hstore : s.store = st'.put k c' p) {out : Except String Unit} (h : Reads k (revertPhaseVM vs) s os out t) :
    out = .ok () ∧ Calm sc (DatedIn k clock) clock false 2 t ∧ ∀ o ∈ os, o = s ∨ o = t := by
  obtain ⟨os1,h,ho1⟩ := reads_relock_bind h
  have hyields : Store.Yields k s.store (revertStamps (vs.map fun v => v.old.loc))
    (fun _ _ => True) fun _ _ => False := by
    rw [hstore]
    exact yields_revertStamps.mono (fun _ _ _ => trivial) fun _ _ he => he
  rcases of_stmt_bind h with ⟨os2,u,s1,os3,h1,h2,ho2⟩ | ⟨os2,e,h1,-,-⟩
  · obtain ⟨rfl,hs1⟩ := hs.relock.inside (works_revertStamps (setXMax_datedIn (Nat.zero_le _))) h1
    obtain ⟨rfl,hos3⟩ := reads_unlock h2 hs1.locked
    refine ⟨?_,hs1.release,fun o hm => (ho1 o hm).imp_right fun hm => hos3 o ((ho2 o hm).resolve_left (by simp))⟩
    obtain ⟨r,s',os',he,hr,-⟩ := of_step h2
    exact (of_ret hr).1
  · exact (Reads.error h1 hyields).elim

theorem selectRows_of_unseen {c : Cmd} {r : c.Res} (hc : c.Unseen) (h : st.exec k c = some (r,st')) :
    st'.selectRows R active k = st.selectRows R active k := by
  cases c with
  | setInfo f =>
    obtain ⟨c,htab,h⟩ := map_eq_some_iff.1 h
    cases h
    have hschema : (f c.info).schema = c.info.schema := hc c.info
    simp only [Store.selectRows,Store.table_set,if_true,htab,bind_some,scanRows,hschema]
    rfl
  | getInfo =>
    obtain ⟨c,htab,h⟩ := map_eq_some_iff.1 h
    cases h
    rfl
  | syncCatalog | logCommit =>
    cases h
    rfl
  | _ => exact hc.elim

theorem reads_storePhaseVM {info : TableInfo}
    (hs : Calm sc (DatedIn k clock) clock false 1 s) (hvs : ∀ v ∈ vs, DatedIn k clock k v.encoded)
    (h : Reads k (storePhaseVM R x info vs) s os out t) : Calm sc (DatedIn k clock) clock false 2 t ∧
      ∀ o ∈ os, o = s ∨ (o.released = 2 ∧ o.store.selectRows R active k = t.store.selectRows R active k) := by
  obtain ⟨os1,h,ho1⟩ := reads_relock_bind h
  have hworks : Works (sc k) (DatedIn k clock k) (DatedIn k clock k)
    (replaceVersions R x info (vs.map fun v => v.old.rowIdx)
      (vs.map fun v => v.old.rowIdx) vs false fun idx rows _ idxs => updateIndexesOnUpdate R idx rows idxs) _ :=
    works_replaceVersions linkable_datedIn hvs
  rcases of_stmt_bind h with ⟨os2,u,s1,os3,h1,h,ho2⟩ | ⟨os2,e,h1,-,ho2⟩
  · rcases hs.relock.section hworks h1 with ⟨_,_,-,rfl,hs1⟩ | ⟨e,_,he,-⟩
    case inr => cases he
    obtain ⟨os4,h,ho3⟩ := reads_unlock_bind h hs1.locked
    -- the lock is gone; what is left only writes the catalog and the log
    have hlast : Within Cmd.Unseen (Cmd.Tells (sc k) (DatedIn k clock k)) (do
        let _ ← finish x id
        pure (vs.length : Int)) fun _ => True := within_bind (unseen_finish.mono fun _ _ => within_pure trivial)
    have hinv : ∀ {s' c r s''}, (Calm sc (DatedIn k clock) clock false 2 s' ∧
        s'.store.selectRows R active k = s1.release.store.selectRows R active k) → Cmd.Unseen c → Shared.exec k s' c = some (r,s'') →
        c.Tells (sc k) (DatedIn k clock k) r ∧ Calm sc (DatedIn k clock) clock false 2 s'' ∧
          s''.store.selectRows R active k = s1.release.store.selectRows R active k := by
      intro s' c r s'' hs' hc he
      obtain ⟨htells,hcalm⟩ := hs'.1.exec hc.works he
      exact ⟨htells,hcalm,(selectRows_of_unseen hc (exec_store he).1).trans hs'.2⟩
    obtain ⟨-,ht,hos4⟩ := h.within hlast (I := fun s' => Calm sc (DatedIn k clock) clock false 2 s' ∧
      s'.store.selectRows R active k = s1.release.store.selectRows R active k) hinv ⟨hs1.release,rfl⟩
    refine ⟨ht.1,fun o hm => (ho1 o hm).imp_right fun hm => ?_⟩
    have ho := hos4 o (ho3 o ((ho2 o hm).resolve_left (by simp)))
    exact ⟨ho.1.released,ho.2.trans ht.2.symm⟩
  · rcases hs.relock.section hworks h1 with ⟨_,he,-⟩ | ⟨_,s',_,-,rfl,hos2,ht⟩
    case inl => cases he
    refine ⟨ht,fun o hm => (ho1 o hm).imp_right fun hm => ?_⟩
    rw [(ho2 o hm).elim (hos2 o) id]
    exact ⟨ht.released,rfl⟩

/-- What a reader finds: the table before the UPDATE, the same with nothing stamped, the stamped
one, or the table after the UPDATE. -/
inductive Found (R : RowOps V) (active : ActiveTxs) (k : TableKey) (st : Store) (c : Contents)
    (positions : Option (List Int)) (matchFn : Tuple → Except String Bool)
    (updateFn : List V → Except String (List V)) (t o : Shared) : Prop where
  | before : o.released ≠ 1 → o.store.selectRows R active k = c.liveRows R → Found R active k st c positions matchFn updateFn t o
  | unstamped : c.pageCount = none ∨ ¬Stamps R c st.tick.clock (st.clock.txCounter+1) positions matchFn updateFn →
      o.store.selectRows R active k = c.liveRows R → Found R active k st c positions matchFn updateFn t o
  | stamped {ls : List (Located V)} {vs : List (NewVersion V)} : matchedRows R c st.tick.clock positions matchFn = .ok ls →
      newVersionsVM R (st.clock.txCounter+1) updateFn ls = .ok vs → ls ≠ [] → o.released = 1 →
      o.store = st.tick.put k (c.directed.stampAll (st.clock.txCounter+1) (ls.map Located.loc)) none →
      Found R active k st c positions matchFn updateFn t o
  | after : o.released ≠ 1 → o.store.selectRows R active k = t.store.selectRows R active k → Found R active k st c positions matchFn updateFn t o

section
variable (hdated : ∀ y ∈ c.slots, st.clock.Dated y.2) (hcounter : st.clock.txCounter+1 < 2^48)
  (hapart : active.Apart st.clock)
include hdated hcounter hapart
theorem reads_updateRowsVM
    (h : Reads k (updateRowsVM R k positions matchFn updateFn validateFn) ⟨st.put k c none,false,0⟩ os out t) :
    (∃ n, Calm (st.put k c none).schemas (DatedIn k st.tick.clock) st.tick.clock false n t) ∧
      ∀ o ∈ os, Found R active k st c positions matchFn updateFn t o := by
  rw [updateRowsVM_eq] at h
  rcases of_stmt_bind h with ⟨os1,a,s1,os2,h1,h,ho⟩ | ⟨os1,e,h1,-,ho⟩
  · obtain ⟨hs1,hos1,hend⟩ := reads_stampPhaseVM hdated hcounter hapart h1
    rcases hend with ⟨ls,info,vs,he,hls,hvs,hstore⟩ | ⟨⟨e,he⟩,-⟩
    case inr => cases he
    cases he
    obtain ⟨hold,hnew⟩ := newVersionsVM_ok hvs
    -- it is enough to know what is found between the phases and in the second one
    have hcases : Found R active k st c positions matchFn updateFn t s1 →
      (∀ o ∈ os2, Found R active k st c positions matchFn updateFn t o) →
        ∀ o ∈ os, Found R active k st c positions matchFn updateFn t o := by
      intro hgap hlast o hm
      rcases ho o hm with hm | hm
      · rcases hos1 o hm with ⟨hr,hsel⟩ | rfl
        · exact .before (by omega) hsel
        · exact hgap
      · exact hlast o hm
    dsimp only at h
    split at h
    · next hempty =>
      obtain ⟨-,rfl,hos2⟩ := of_ret h
      obtain rfl : vs = [] := isEmpty_iff.1 hempty
      obtain rfl : ls = [] := by simpa using hold.symm
      have hgap : Found R active k st c positions matchFn updateFn t t := by
        refine .unstamped (.inr ?_) ?_
        · rintro ⟨ls,-,hls',-,hne⟩
          rw [hls] at hls'
          cases hls'
          exact hne rfl
        · rw [hs1.selectRows hcounter hapart.2 (show t.store.table k = some c.directed by rw [hstore]; simp)]
          rfl
      exact ⟨⟨1,hs1⟩,hcases hgap fun o hm => hos2 o hm ▸ hgap⟩
    · next hempty =>
      have hne : ls ≠ [] := by
        rintro rfl
        exact hempty (by simpa using hold)
      have hgap : Found R active k st c positions matchFn updateFn t s1 := .stamped hls hvs hne hs1.released hstore
      split at h
      · rcases of_stmt_bind h with ⟨os3,u,s2,os4,h2,h,ho2⟩ | ⟨os3,e,h2,-,-⟩
        case inr => cases (reads_revertPhaseVM hs1 hstore h2).1
        obtain ⟨-,hs2,hos3⟩ := reads_revertPhaseVM hs1 hstore h2
        obtain ⟨-,rfl,hos4⟩ := of_ret h
        refine ⟨⟨2,hs2⟩,hcases hgap fun o hm => ?_⟩
        rcases (ho2 o hm).elim (hos3 o) fun hm => .inr (hos4 o hm) with rfl | rfl
        · exact hgap
        · exact .after (by rw [hs2.released]; decide) rfl
      · have hdatedNew : ∀ v ∈ vs, DatedIn k st.tick.clock k v.encoded := fun v hv _ =>
          Clock.Dated.lasting.written (writtenBy_encodePageTuple (hnew v hv).2) (Nat.le_refl _)
            (Nat.le_max_right _ _)
        obtain ⟨ht,hos2⟩ := reads_storePhaseVM hs1 hdatedNew h
        refine ⟨⟨2,ht⟩,hcases hgap fun o hm => ?_⟩
        rcases hos2 o hm with rfl | ⟨hr,hsel⟩
        · exact hgap
        · exact .after (by omega) hsel
  · obtain ⟨ht,hos1,hend⟩ := reads_stampPhaseVM hdated hcounter hapart h1
    rcases hend with ⟨ls,info,vs,he,-⟩ | ⟨-,hnone,hsel⟩
    case inl => cases he
    refine ⟨⟨1,ht⟩,fun o hm => ?_⟩
    rcases (ho o hm).elim (hos1 o) .inr with ⟨hr,hsel⟩ | rfl
    · exact .before (by omega) hsel
    · exact .unstamped hnone hsel

theorem stamped_neither (hroom : ∀ ls, matchedRows R c st.tick.clock positions matchFn = .ok ls → c.Room ls.length)
    (hsafe : VmSafe R c st.tick.clock st.nextID positions matchFn updateFn validateFn)
    {rows : List (List V)} (hrows : c.liveRows R = some rows) {ls : List (Located V)}
    (hls : matchedRows R c st.tick.clock positions matchFn = .ok ls) (hne : ls ≠ [])
    (ht : Calm (st.put k c none).schemas (DatedIn k st.tick.clock) st.tick.clock false n t)
    (h : Reads k (updateRowsVM R k positions matchFn updateFn validateFn) ⟨st.put k c none,false,0⟩ os out t) :
    let gap := c.directed.stampAll st.nextID (ls.map Located.loc)
    gap.liveRows R ≠ c.liveRows R ∧ gap.liveRows R ≠ t.store.selectRows R active k := by
  intro gap
  have hlive : ∀ l ∈ ls, ∃ t, c.tuple l.loc = some t ∧ t.deletedTx = 0 := by
    intro l hl
    obtain ⟨t,ht,hv⟩ := matchEntries_visible R hls l hl
    have hle := (hdated (l.loc,t) (mem_slots_iff.2 ht)).deleted
    exact ⟨t,ht,deletedTx_of_visibleVM hv (Nat.le_succ_of_le hle)⟩
  have hgap : gap.live.length < c.live.length := by
    obtain ⟨l,ls',rfl⟩ := exists_cons_of_ne_nil hne
    obtain ⟨t,ht,hd⟩ := hlive l mem_cons_self
    exact length_live_stampAll (c := c.directed) (Nat.succ_ne_zero _) (mem_map_of_mem mem_cons_self) ht hd
  obtain ⟨gapRows,hgapRows⟩ : ∃ gapRows, gap.liveRows R = some gapRows := by
    have := isSome_liveRows_stampAll (R := R) (c := c.directed) st.nextID (ls.map Located.loc)
    rw [liveRows_directed,hrows] at this
    exact isSome_iff_exists.1 this
  have hafter : ∀ c', t.store.table k = some c' → gap.live.length < c'.live.length →
    gap.liveRows R ≠ t.store.selectRows R active k := by
    intro c' htab hlt heq
    rw [ht.selectRows hcounter hapart.2 htab,hgapRows] at heq
    have := length_liveRows hgapRows
    have := length_liveRows heq.symm
    omega
  refine ⟨fun heq => ?_,?_⟩
  · rw [hgapRows,hrows] at heq
    cases heq
    have := length_liveRows hgapRows
    have := length_liveRows hrows
    omega
  · have hyields : Store.Yields k (st.put k c none) (updateRowsVM R k positions matchFn updateFn validateFn) _ _ :=
      yields_updateRowsVM R (fun y hy => (hdated y hy).deleted) hroom
    cases out with
    | ok n =>
      obtain ⟨ls',vs,hls',hvs,-,-,hend⟩ := Reads.ok h hyields
      rw [hls] at hls'
      cases hls'
      have hlen : vs.length = ls.length := by simpa using congrArg List.length (newVersionsVM_ok hvs).1
      have hpos : 0 < ls.length := length_pos_iff.2 hne
      rcases hend with ⟨rfl,-⟩ | ⟨-,c1,locs,g,hlocs,hext,hstore,-⟩
      · simp only [length_nil] at hlen
        omega
      · refine hafter _ (show t.store.table k = some (c1.setInfo g) by rw [hstore]; simp) ?_
        have hext : gap.Extends c1 _ := hext
        have hnew := hext.live.length_eq
        simp only [length_append,length_zip,length_map] at hnew
        show gap.live.length < c1.live.length
        omega
    | error e =>
      rcases Reads.error h hyields with ⟨⟨c',htab,hsame⟩,-⟩ | ⟨hspoiled,-⟩
      · exact hafter c' htab (by rw [hsame.live]; exact hgap)
      · exact absurd hsafe hspoiled
end

/-- A `SelectRows` during the UPDATE, with the transactions that are open then, returns what it
returns before the UPDATE or what it returns after it. -/
def OldOrNew (R : RowOps V) (k : TableKey) (st : Store) (t : Shared) (o : Shared × ActiveTxs) : Prop :=
  o.1.store.selectRows R o.2 k = st.selectRows R o.2 k ∨ o.1.store.selectRows R o.2 k = t.store.selectRows R o.2 k

section
variable (hdated : ∀ y ∈ c.slots, st.clock.Dated y.2) (hcounter : st.clock.txCounter+1 < 2^48)
  (hapart : active.Apart st.clock)
  (h : Reads k (updateRowsVM R k positions matchFn updateFn validateFn) ⟨st.put k c none,false,0⟩ os out t)
  {o : Shared} (ho : o ∈ os)
include hdated hcounter hapart h ho
theorem old_or_new (hsel : st.selectRows R active k = c.liveRows R)
    (hnone : o.released = 1 → ¬Stamps R c st.tick.clock st.nextID positions matchFn updateFn) :
    OldOrNew R k st t (o,active) := by
  rw [OldOrNew,hsel]
  cases (reads_updateRowsVM hdated hcounter hapart h).2 o ho with
  | before _ ho => exact .inl ho
  | unstamped _ ho => exact .inl ho
  | stamped hls hvs hne hr _ => exact absurd ⟨_,_,hls,hvs,hne⟩ (hnone hr)
  | after _ ho => exact .inr ho

theorem neither_old_nor_new (hsel : st.selectRows R active k = c.liveRows R) (hsome : (c.liveRows R).isSome)
    (hroom : ∀ ls, matchedRows R c st.tick.clock positions matchFn = .ok ls → c.Room ls.length)
    (hsafe : VmSafe R c st.tick.clock st.nextID positions matchFn updateFn validateFn) (hr : o.released = 1)
    (hstamps : Stamps R c st.tick.clock st.nextID positions matchFn updateFn) : ¬OldOrNew R k st t (o,active) := by
  obtain ⟨rows,hrows⟩ := isSome_iff_exists.1 hsome
  obtain ⟨⟨n,ht⟩,hfound⟩ := reads_updateRowsVM hdated hcounter hapart h
  cases hfound o ho with
  | before hr' _ => exact absurd hr hr'
  | after hr' _ => exact absurd hr hr'
  | unstamped hnone _ =>
    rcases hnone with hcount | hnone
    · simp [liveRows,scanRows,hcount] at hrows
    · exact absurd hstamps hnone
  | @stamped ls vs hls hvs hne _ hstore =>
    obtain ⟨hbefore,hafter⟩ := stamped_neither hdated hcounter hapart hroom hsafe hrows hls hne ht h
    have hticked : ∀ y ∈ c.directed.slots, st.tick.clock.Dated y.2 := fun y hy =>
      Clock.Dated.lasting.mono (hdated y hy) ⟨Nat.le_succ _,Nat.le_max_left _ _⟩
    have hgap : o.store.selectRows R active k = (c.directed.stampAll st.nextID (ls.map Located.loc)).liveRows R := by
      rw [hstore,Store.selectRows,Store.table_put,if_pos rfl]
      exact scanRows_sees (dated_stampAll hticked (Nat.le_refl _)) hcounter hapart.2
    rw [OldOrNew,hsel]
    rintro (ho | ho)
    · exact hbefore (hgap.symm.trans ho)
    · exact hafter (hgap.symm.trans ho)
end

/-- With no reader between the two sections of an UPDATE that stamps rows, every `SelectRows`
returns the rows from before the UPDATE or those from after it; a reader in between gets neither.
Each reader has the transactions that are open when it reads. -/
theorem update_visible_iff (htab : st.table k = some c) (hpin : st.pin = none)
    (hdated : ∀ y ∈ c.slots, st.clock.Dated y.2) (hcounter : st.clock.txCounter+1 < 2^48) {out : Except String Int}
    {readers : List (Shared × ActiveTxs)} (hapart : ∀ o ∈ readers, o.2.Apart st.clock)
    (h : Reads k (updateRowsVM R k positions matchFn updateFn validateFn) ⟨st, false, 0⟩
      (readers.map Prod.fst) out t) :
    ((∀ o ∈ readers, o.1.released = 1 →
        ¬Stamps R c st.tick.clock (st.clock.txCounter+1) positions matchFn updateFn) →
      ∀ o ∈ readers, OldOrNew R k st t o) ∧
    ((c.liveRows R).isSome → (∀ ls, matchedRows R c st.tick.clock positions matchFn = .ok ls → c.Room ls.length) →
      VmSafe R c st.tick.clock (st.clock.txCounter+1) positions matchFn updateFn validateFn →
      ((∀ o ∈ readers, OldOrNew R k st t o) ↔
        ∀ o ∈ readers, o.1.released = 1 →
          ¬Stamps R c st.tick.clock (st.clock.txCounter+1) positions matchFn updateFn)) := by
  have hsel : ∀ o ∈ readers, st.selectRows R o.2 k = c.liveRows R := by
    intro o hm
    rw [Store.selectRows,htab]
    exact scanRows_sees hdated (by omega) (hapart o hm).1
  rw [← Store.put_self htab hpin] at h
  have henough : (∀ o ∈ readers, o.1.released = 1 → ¬Stamps R c st.tick.clock st.nextID positions matchFn updateFn) →
      ∀ o ∈ readers, OldOrNew R k st t o := fun hnone o hm =>
    old_or_new hdated hcounter (hapart o hm) h (mem_map_of_mem hm) (hsel o hm) (hnone o hm)
  refine ⟨henough,fun hsome hroom hsafe => ⟨fun hall o hm hr hstamps => ?_,henough⟩⟩
  exact neither_old_nor_new hdated hcounter (hapart o hm) h (mem_map_of_mem hm)
    (hsel o hm) hsome hroom hsafe hr hstamps
    (hall o hm)
end

def setNine : Exec Int := updateRowsVM lengthRows users none (fun _ => .ok true) (fun _ => .ok [9]) fun _ _ => .ok ()

structure Reading where
  locked : Bool
  released : Nat
  rows : Option (List (List Nat))
  out : Except String Int
  after : Option (List (List Nat))
  deriving DecidableEq

/-- One open transaction, from whose snapshot the creator of the stored row is missing. -/
def openTx : ActiveTxs := [(7,[1])]

def readAt (n : Nat) : Option Reading :=
  (setNine.run.observe (Shared.exec users) ⟨oneUser,false,0⟩ n).map fun x =>
    ⟨x.1.locked,x.1.released,x.1.store.selectRows lengthRows openTx users,x.2.1,
      x.2.2.store.selectRows lengthRows openTx users⟩

/-- A reader between the two sections finds the table empty. -/
theorem reader_misses_row : oneUser.selectRows lengthRows openTx users = some [[2]] ∧ ∃ o t,
    Shared.Reads users setNine ⟨oneUser, false, 0⟩ [o] (.ok 1) t ∧
    o.store.selectRows lengthRows openTx users = some [] ∧
      t.store.selectRows lengthRows openTx users = some [[9]] := by
  have hread : readAt 11 = some ⟨false,1,some [],.ok 1,some [[9]]⟩ := by decide +kernel
  obtain ⟨⟨o,out,t⟩,hobs,he⟩ := map_eq_some_iff.1 hread
  simp only [Reading.mk.injEq] at he
  obtain ⟨hopen,-,ho,rfl,ht⟩ := he
  exact ⟨by decide +kernel,o,t,.of_observe hobs hopen,ho,ht⟩

/-- A reader that comes after the second section, with a transaction open. -/
theorem reader_after_update : ∃ o t, Shared.Reads users setNine ⟨oneUser, false, 0⟩ [o] (.ok 1) t ∧ o.released = 2 ∧
    OldOrNew lengthRows users oneUser t (o, openTx) := by
  have hread : readAt 23 = some ⟨false,2,some [[9]],.ok 1,some [[9]]⟩ := by decide +kernel
  obtain ⟨⟨o,out,t⟩,hobs,he⟩ := map_eq_some_iff.1 hread
  simp only [Reading.mk.injEq] at he
  obtain ⟨hopen,hr,-,rfl,-⟩ := he
  have hreads : Shared.Reads users setNine ⟨oneUser,false,0⟩ ([(o,openTx)].map Prod.fst)
    (.ok 1) t := .of_observe hobs hopen
  have hapart : ∀ o' ∈ [(o,openTx)], o'.2.Apart oneUser.clock := by
    simp only [mem_singleton,forall_eq]
    exact ⟨rfl,rfl⟩
  refine ⟨o,t,hreads,hr,(update_visible_iff rfl rfl (fun y hy => ?_) (by decide) hapart hreads).1 ?_ _ mem_cons_self⟩
  · obtain rfl : y = (⟨⟨0,0⟩,0⟩,⟨1#64,0,[0,0]⟩) := by
      refine mem_singleton.1 ?_
      convert hy
      decide +kernel
    exact ⟨⟨⟨by decide,by decide⟩,by decide⟩,by decide⟩
  · simp [hr]

end VaultDB.Storage
