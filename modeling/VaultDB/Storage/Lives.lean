import VaultDB.Storage.Crash
import VaultDB.Storage.Snapshot
set_option autoImplicit false

/-!
The ids of a server that crashes and starts again, over and over.

Recovery raises the counter above the ids it hears of in the log, but it saves the catalog with the
id it found there and truncates the log.  What the next start knows of earlier ids is the saved one.
-/

namespace VaultDB.Storage
open Wal Lib RecoveryStep RecoveryState List
variable {w : List Entry} {order : List Nat} {d : Disk} {s : RecoveryState} {steps : List RecoveryStep} {n : Nat}
def pageTx : Op → Nat
  | .pageInsert _ _ xid _ => xid
  | .pageDelete _ _ xmax => xmax
  | _ => 0

def recordIDs (e : Entry) : List Nat :=
  e.txID :: pageTx e.op :: match e.op with
    | .pageInsert _ _ _ t => [t.xmin,t.deletedTx]
    | _ => []

def UsedID (d : Disk) (w : List Entry) (n : Nat) : Prop :=
  (∃ k loc t, d.tuple k loc = some t ∧ (t.xmin = n ∨ t.deletedTx = n)) ∨ ∃ e ∈ w, n ∈ recordIDs e

def HeardID (w : List Entry) (x : Nat) : Prop :=
  x ∈ (analyzeTransactions w).committed ∨ 0 < x ∧ ∃ e ∈ w, pageTx e.op = x

theorem le_foldl_max {l : List Nat} {m : Nat} : n ≤ l.foldl max m ↔ n ≤ m ∨ ∃ x ∈ l, n ≤ x := by
  induction l generalizing m with
  | nil => simp
  | cons x l ih => simp [ih,or_assoc]

theorem le_foldl_advance {c : Clock} : n ≤ (steps.foldl advance c).txCounter ↔
      n ≤ c.txCounter ∨ ∃ e, .redo e ∈ steps ∧ 0 < pageTx e.op ∧ n ≤ pageTx e.op+1 := by
  induction steps generalizing c with
  | nil => simp
  | cons o steps ih =>
    have hstep : n ≤ (o.advance c).txCounter ↔ n ≤ c.txCounter ∨ ∃ e, o = .redo e ∧ 0 <
      pageTx e.op ∧ n ≤ pageTx e.op+1 := by
      have hadv : ∀ x, n ≤ (c.advance x).txCounter ↔ n ≤ c.txCounter ∨ 0 < x ∧ n ≤ x+1 := by
        intro x
        by_cases hx : 0 < x <;> simp [Clock.advance,Clock.ensureNextTxIDAtLeast,hx]
      rcases o with ⟨x,op⟩ | ⟨x,op⟩
      · cases op <;> simp [advance,pageTx,hadv]
      · simp [advance]
    rw [foldl_cons,ih,hstep]
    simp [or_assoc,or_and_right,exists_or,eq_comm]

theorem le_txCounter_iff (h : recoverFromWAL d w order = .ok s) :
    n ≤ s.clock.txCounter ↔ n ≤ d.catalogTx ∨ ∃ x, HeardID w x ∧ n ≤ x+1 := by
  obtain ⟨s1,hs1,rfl⟩ := recoverFromWAL_eq_ok.1 h
  have hstart : n ≤ (recoveryStart d w).clock.txCounter ↔
      n ≤ d.catalogTx ∨ ∃ x ∈ (analyzeTransactions w).committed, n ≤ x+1 := by
    simp only [recoveryStart]
    split
    · next hnone => simp [Clock.start,hnone]
    · next hsome =>
      obtain ⟨y,hy⟩ := exists_mem_of_ne_nil _ hsome
      have hmax : n ≤ maxCommitted w+1 ↔ ∃ x ∈ (analyzeTransactions w).committed, n ≤ x+1 := by
        cases n with
        | zero => simpa using ⟨y,hy⟩
        | succ n =>
          simp only [Nat.add_le_add_iff_right,maxCommitted,le_foldl_max]
          exact or_iff_right_of_imp fun hz => ⟨y,hy,by omega⟩
      simp [Clock.start,Clock.ensureNextTxIDAtLeast,hmax]
  have hpage : (∃ e, .redo e ∈ recoverySteps w order ∧ 0 < pageTx e.op ∧ n ≤ pageTx e.op+1) ↔
      ∃ x, (0 < x ∧ ∃ e ∈ w, pageTx e.op = x) ∧ n ≤ x+1 := by
    have hredo : ∀ e, .redo e ∈ recoverySteps w order ↔ e ∈ w := by
      intro e
      simp [recoverySteps,redoPhase,undoPhase]
    constructor
    · rintro ⟨e,he,hpos,hle⟩
      exact ⟨_,⟨hpos,e,(hredo e).1 he,rfl⟩,hle⟩
    · rintro ⟨_,⟨hpos,e,he,rfl⟩,hle⟩
      exact ⟨e,(hredo e).2 he,hpos,hle⟩
  show n ≤ s1.clock.txCounter ↔ _
  rw [(clock_replay hs1).1,le_foldl_advance,hstart,hpage]
  simp [HeardID,or_and_right,exists_or,or_assoc]

/-- A bound on the ids a page has or an operation writes. -/
def Page.Below (N : Nat) (p : Page) : Prop := ∀ n t, p.getTuple n = some t → t.xmin ≤ N ∧ t.deletedTx ≤ N

def PageOp.Below (N : Nat) : PageOp → Prop
  | .insert _ t => t.xmin ≤ N ∧ t.deletedTx ≤ N
  | .stamp _ x => x ≤ N

section
variable {N : Nat} {p q : Page}
theorem Page.Below.apply {op : PageOp} (hp : p.Below N) (hop : op.Below N) (h : op.apply p = .ok q) : q.Below N := by
  intro n t ht
  cases op with
  | insert slot u =>
    rw [Page.getTuple_insertTupleAt h] at ht
    split at ht
    · cases ht
      cases he : p.getTuple slot with
      | none => exact hop
      | some e =>
        simp only [insertedOver]
        split
        · exact hp slot e he
        · exact hop
    · exact hp n t ht
  | stamp slot x =>
    cases h
    rw [Page.modifyTuple_setXMax,Page.getTuple_stampWith] at ht
    obtain ⟨u,hu,rfl⟩ := Option.map_eq_some_iff.1 ht
    refine ⟨(hp n u hu).1,?_⟩
    show (if slot = n then some x else none).getD u.deletedTx ≤ N
    split
    · exact hop
    · exact (hp n u hu).2

theorem Page.Below.replayOps {ops : List PageOp} (hp : p.Below N) (hops : ∀ op ∈ ops, op.Below N)
    (h : p.replayOps ops = .ok q) : q.Below N := by
  induction ops generalizing p with
  | nil =>
    cases h
    exact hp
  | cons op ops ih =>
    obtain ⟨p1,h1,h2⟩ := replay_cons_eq_ok.1 h
    rw [forall_mem_cons] at hops
    exact ih (hp.apply hops.1 h1) hops.2 h2

theorem below_opsOn {c : TableKey × PageID} (hsteps : ∀ o ∈ steps, ∀ m ∈ recordIDs o.entry, m ≤ N) :
    ∀ op ∈ opsOn c steps, op.Below N := by
  intro op hop
  obtain ⟨o,ho,hop⟩ := mem_filterMap.1 hop
  obtain ⟨⟨c',op'⟩,hpage,hop⟩ := Option.bind_eq_some_iff.1 hop
  have hids := hsteps o ho
  simp only [Option.ite_none_right_eq_some,Option.some.injEq] at hop
  obtain ⟨-,rfl⟩ := hop
  rcases o with ⟨x,op⟩ | ⟨x,op⟩
  · cases op with
    | pageInsert k loc y t =>
      cases hpage
      exact ⟨hids _ (by simp [recordIDs,entry]),hids _ (by simp [recordIDs,entry])⟩
    | pageDelete k loc y =>
      cases hpage
      exact hids _ (by simp [recordIDs,entry,pageTx])
    | _ => cases hpage
  · cases op with
    | pageInsert k loc y t =>
      cases hpage
      exact hids _ (by simp [recordIDs,entry])
    | pageDelete k loc y =>
      cases hpage
      exact Nat.zero_le _
    | _ => cases hpage

/-- Recovery writes no id that was not in use. -/
theorem below_recover (hr : Replayable w (recoveryStart d w)) (h : recoverFromWAL d w order = .ok s)
    (hused : ∀ m, UsedID d w m → m ≤ N) {k : TableKey} {loc : PageSlot} {t : Tuple} (ht : s.tuple k loc = some t) :
    t.xmin ≤ N ∧ t.deletedTx ≤ N := by
  obtain ⟨s1,hs1,rfl⟩ := recoverFromWAL_eq_ok.1 h
  have hcover : ∀ o ∈ recoverySteps w order, o.entry ∈ w := fun o ho => entry_mem_recoverySteps ho
  obtain ⟨q,hq,ht⟩ := Option.bind_eq_some_iff.1 (show (s1.disk.page k loc.pid).bind _ = some t from ht)
  cases hp : d.page k loc.pid with
  | none =>
    rw [page_replay_none hr hcover hs1 hp] at hq
    cases hq
  | some p =>
    obtain ⟨q',hops,hq'⟩ := page_replay hr hcover hs1 hp
    rw [hq] at hq'
    cases hq'
    have hpage : p.Below N := fun n u hu =>
      have htuple : d.tuple k ⟨loc.pid,n⟩ = some u := by rw [Disk.tuple,hp]; exact hu
      ⟨hused _ (.inl ⟨k,_,u,htuple,.inl rfl⟩),hused _ (.inl ⟨k,_,u,htuple,.inr rfl⟩)⟩
    exact hpage.replayOps (below_opsOn fun o ho m hm => hused m (.inr ⟨_,hcover o ho,hm⟩)) hops _ t ht
end

section
variable {base : Base} {x₀ y₀ : Nat} {e : Engine} {ws : List (TableKey × Watcher)} (h : Durable base x₀ y₀ e ws)
include h
theorem heard_of_insert {x : Nat} {k : TableKey} {loc : PageSlot} {t : Tuple}
    (hin : ⟨x,.pageInsert k loc x t⟩ ∈ e.wal.take n) : HeardID (e.wal.take n) x :=
  .inr ⟨by have := (h.log.tx_bound (mem_of_mem_take hin)).1; simp only at this; omega,_,hin,rfl⟩

theorem heard_of_delete {x : Nat} {k : TableKey} {loc : PageSlot}
    (hin : ⟨x,.pageDelete k loc x⟩ ∈ e.wal.take n) : HeardID (e.wal.take n) x :=
  .inr ⟨by have := (h.log.tx_bound (mem_of_mem_take hin)).1; simp only at this; omega,_,hin,rfl⟩

theorem heard_of_commit {x : Nat} (hin : ⟨x,.commit⟩ ∈ e.wal.take n) : HeardID (e.wal.take n) x := by
  refine .inl ((mem_committed fun habort => ?_).2 hin)
  rcases h.log.op_cases (mem_of_mem_take habort) with ⟨_,_,_,he⟩ | ⟨_,_,he⟩ | he <;> cases he

/-- What is in use at a crash is from before this life, or recovery hears of it. -/
theorem heard_of_used (hbase : BaseOk base x₀) (hn : e.synced ≤ n) {m : Nat} (hu : UsedID e.disk (e.wal.take n) m) :
    m ≤ x₀ ∨ ∃ x, HeardID (e.wal.take n) x ∧ m ≤ x+1 := by
  have hkept : ∀ r ∈ e.wal.take e.synced, r ∈ e.wal.take n := fun r hr => (take_sublist_take_left hn).subset hr
  have hwritten : ∀ {x k loc t}, ⟨x,.pageInsert k loc x t⟩ ∈ e.wal.take n → t.WrittenBy x := fun hin =>
    (h.slots.inserted _ _ _ _ _ (mem_of_mem_take hin)).2.2
  rcases hu with ⟨k,loc,t,ht,hm⟩ | ⟨r,hr,hm⟩
  · obtain ⟨⟨t0,hsrc,-,hcreated⟩,hstamp⟩ := h.pages.logged k loc t ht
    rcases hm with rfl | rfl
    · have hxmin : t.xmin = t0.xmin := by
        rcases hcreated with hc | ⟨n,-,-,hc⟩
        · simp only [Tuple.xmin,hc]
        · rw [← Tuple.xmin_setHOTUpdated t0 n]
          simp only [Tuple.xmin,hc]
      rw [hxmin]
      rcases hsrc with hb | ⟨x,hx⟩
      · exact .inl (hbase k loc t0 hb).1
      · have hin := hkept _ hx
        exact .inr ⟨x,heard_of_insert h hin,Nat.le_succ_of_le (hwritten hin).xmin_le⟩
    · rcases hstamp with hz | ⟨t1,hb,hd⟩ | hx
      · exact .inl (by omega)
      · exact .inl (hd ▸ (hbase k loc t1 hb).2)
      · exact .inr ⟨_,heard_of_delete h (hkept _ hx),Nat.le_succ _⟩
  · rcases h.log.op_cases (mem_of_mem_take hr) with ⟨k,loc,t,he⟩ | ⟨k,loc,he⟩ | he
    · rw [he] at hr hm
      have hin := hwritten hr
      refine .inr ⟨r.txID,heard_of_insert h hr,?_⟩
      have hle := hin.xmin_le
      have hdel : t.deletedTx = 0 := hin.2
      simp only [recordIDs,pageTx,mem_cons,not_mem_nil,or_false] at hm
      omega
    · rw [he] at hr hm
      refine .inr ⟨r.txID,heard_of_delete h hr,?_⟩
      simp only [recordIDs,pageTx,mem_cons,not_mem_nil,or_false] at hm
      omega
    · rw [he] at hr hm
      refine .inr ⟨r.txID,heard_of_commit h hr,?_⟩
      simp only [recordIDs,pageTx,mem_cons,not_mem_nil,or_false] at hm
      omega
end

/-- The engine that a start with this recovery opens. -/
structure Engine.StartedFrom (e : Engine) (st : RecoveryState) : Prop extends e.Started where
  files : ∀ k loc t, e.disk.tuple k loc = some t → st.tuple k loc = some t
  clock : e.clock = st.clock
  saved : e.savedTx = st.disk.catalogTx

/-- Histories of statements, crashes and restarts.  The engine is the one the current life has
started with; a crash keeps the heap files, the saved catalog and at least what was synced of the
log. -/
inductive Lives {V : Type} [BEq V] (R : RowOps V) (Ok : Engine → RowConfig → Prop) : Engine → RowConfig → Prop where
  | boot {e : Engine} : e.Started → BaseOk e.mem e.clock.txCounter → Lives R Ok e ⟨e,[]⟩
  | step {e : Engine} {cf cf' : RowConfig} {ev : Event Cmd Cmd.Res TableKey EnvEvent} : Lives R Ok e cf →
      (rowMachine R).Step cf ev cf' → RecoverableStep e.mem cf ev → Lives R Ok e cf'
  | restart {e e' : Engine} {cf : RowConfig} {n : Nat} {order : List Nat} {st : RecoveryState} : Lives R Ok e cf →
      Ok e cf → cf.state.synced ≤ n → recoverFromWAL cf.state.disk (cf.state.wal.take n) order = .ok st →
      e'.StartedFrom st → Lives R Ok e' ⟨e',[]⟩

/-- The catalog has been saved since the last start. -/
def CatalogSaved (e : Engine) (cf : RowConfig) : Prop := e.clock.txCounter ≤ cf.state.savedTx

section
variable {V : Type} [BEq V] {R : RowOps V} {e e' : Engine} {cf cf' : RowConfig} {st : RecoveryState}
theorem used_le_counter (hstart : e.Started) (hbase : BaseOk e.mem e.clock.txCounter)
    (h : (rowMachine R).Reach (RecoverableStep e.mem) e cf) (hsaved : CatalogSaved e cf) (hn : cf.state.synced ≤ n)
    (hst : recoverFromWAL cf.state.disk (cf.state.wal.take n) order = .ok st) {m : Nat}
    (hu : UsedID cf.state.disk (cf.state.wal.take n) m) : m ≤ st.clock.txCounter := by
  have hdur := (durable_of_started h (.started hstart ⟨Nat.zero_le _,Nat.zero_le _⟩)).1
  refine (le_txCounter_iff hst).2 ((heard_of_used hdur hbase hn hu).imp_left fun hle => ?_)
  exact hle.trans hsaved

theorem Engine.StartedFrom.mem (h : e.StartedFrom st) {k : TableKey} {loc : PageSlot} {t : Tuple}
    (ht : e.mem k loc = some t) : st.tuple k loc = some t := by
  refine h.files k loc t ?_
  rw [Engine.tuple_disk]
  rwa [Engine.mem,Engine.page_of_no_frame (h.cold k loc.pid)] at ht

theorem Lives.reach (h : Lives R CatalogSaved e cf) :
    e.Started ∧ BaseOk e.mem e.clock.txCounter ∧ (rowMachine R).Reach (RecoverableStep e.mem) e cf := by
  induction h with
  | boot hstart hbase => exact ⟨hstart,hbase,.init⟩
  | step _ hs hok ih => exact ⟨ih.1,ih.2.1,.step ih.2.2 hs hok⟩
  | @restart e e' cf n order st _ hsaved hn hst hfrom ih =>
    obtain ⟨hstart,hbase,hreach⟩ := ih
    have hdur := (durable_of_started hreach (.started hstart ⟨Nat.zero_le _,Nat.zero_le _⟩)).1
    refine ⟨hfrom.toStarted,fun k loc t ht => ?_,.init⟩
    rw [hfrom.clock]
    exact below_recover (hdur.replayable n) hst
      (fun m hu => used_le_counter hstart hbase hreach hsaved hn hst hu) (hfrom.mem ht)

end

/-- A server with the one table `users`, started after a recovery. -/
def restarted (st : RecoveryState) : Engine :=
  { emptyUsers with
    tables := fun k => (emptyUsers.tables k).bind fun t => (st.disk.dir k).map fun dir => { t with dir := dir }
    clock := st.clock
    catalogTx := st.disk.catalogTx
    savedTx := st.disk.catalogTx }

theorem tables_restarted {st : RecoveryState} {k : TableKey} {t : Table} (h : (restarted st).tables k = some t) :
    k = users ∧ st.disk.dir users = some t.dir ∧ t.frames = fun _ => none := by
  obtain ⟨t0,h0,h⟩ := Option.bind_eq_some_iff.1 h
  obtain ⟨dir,hdir,rfl⟩ := Option.map_eq_some_iff.1 h
  simp only [emptyUsers] at h0
  split at h0
  · next hk =>
    cases h0
    exact ⟨hk,hk ▸ hdir,rfl⟩
  · cases h0

theorem startedFrom_restarted {st : RecoveryState}
    (hschema : ∀ dir, st.disk.dir users = some dir → dir.schema ≠ none)
    (hcounter : st.clock.txCounter < 2^48) : (restarted st).StartedFrom st := by
  refine ⟨⟨fun k pid => ?_,rfl,rfl,fun k t ht => ?_,hcounter⟩,fun k loc t ht => ?_,rfl,rfl⟩
  · cases ht : (restarted st).tables k with
    | none => simp [Engine.frame,ht]
    | some t => simp [Engine.frame,ht,(tables_restarted ht).2.2]
  · exact hschema _ (tables_restarted ht).2.1
  · obtain ⟨p,hp,hslot⟩ := Option.bind_eq_some_iff.1 ht
    rw [Engine.page_disk] at hp
    obtain ⟨tab,htab,hread⟩ := Option.bind_eq_some_iff.1 hp
    obtain ⟨rfl,hdir,-⟩ := tables_restarted htab
    simp [RecoveryState.tuple,Disk.tuple,Disk.page,hdir,hread,hslot]

/-- A life with one INSERT, and how recovery finds the files and the log after it. -/
theorem lives_one_insert {Ok : Engine → RowConfig → Prop} : ∃ (cf : RowConfig) (st : RecoveryState),
    Lives byteRows Ok emptyUsers cf ∧ cf.state.savedTx = 0 ∧ cf.state.synced ≤ 2 ∧
      recoverFromWAL cf.state.disk (cf.state.wal.take 2) [] = .ok st ∧ st.clock.txCounter = 2 ∧
      st.disk.catalogTx = 0 ∧ (restarted st).StartedFrom st ∧
      (st.tuple users ⟨⟨0,0⟩,0⟩).map Tuple.xmin = some 1 := by
  have hplay : (Move.play insertStep ⟨emptyUsers,spawned [(users,insertSeven)]⟩ (List.replicate 17 (.step 0))).map
      (fun cf => (decide (cf.state.savedTx = 0 ∧ cf.state.synced = 0),
        (recoverFromWAL cf.state.disk (cf.state.wal.take 2) []).toOption.map fun st =>
          (decide (st.clock.txCounter = 2 ∧ st.disk.catalogTx = 0),
            (st.disk.dir users).all fun dir => dir.schema.isSome,
            (st.tuple users ⟨⟨0,0⟩,0⟩).map Tuple.xmin))) =
      some (true,some (true,true,some 1)) := by decide +kernel
  obtain ⟨cf,hcf,hplay⟩ := Option.map_eq_some_iff.1 hplay
  simp only [Prod.mk.injEq] at hplay
  obtain ⟨hstate,hrec⟩ := hplay
  obtain ⟨hsaved,hsync⟩ := of_decide_eq_true hstate
  obtain ⟨st,hst,hrec⟩ := Option.map_eq_some_iff.1 hrec
  simp only [Prod.mk.injEq] at hrec
  obtain ⟨hclock,hschema,htuple⟩ := hrec
  obtain ⟨hcounter,hcatalog⟩ := of_decide_eq_true hclock
  have hok : recoverFromWAL cf.state.disk (cf.state.wal.take 2) [] = .ok st := by
    cases hr : recoverFromWAL cf.state.disk (cf.state.wal.take 2) [] with
    | error e =>
      rw [hr] at hst
      cases hst
    | ok st' =>
      rw [hr] at hst
      cases hst
      rfl
  have hlives : ∀ {cf cf' : RowConfig}, (rowMachine byteRows).Run (RecoverableStep emptyUsers.mem) cf cf' →
      Lives byteRows Ok emptyUsers cf → Lives byteRows Ok emptyUsers cf' := by
    intro cf cf' hrun hl
    induction hrun with
    | refl => exact hl
    | step _ hs hok ih => exact .step ih hs hok
  have hbase : BaseOk emptyUsers.mem emptyUsers.clock.txCounter := fun k loc t ht => by
    rw [emptyUsers_mem] at ht
    cases ht
  refine ⟨cf,st,?_,hsaved,by omega,hok,hcounter,hcatalog,?_,htuple⟩
  · exact hlives (run_play insertStep_sound hcf)
      (.step (.boot emptyUsers_opened.started hbase) (.spawn ⟨_,insertSeven_statement,rfl⟩) trivial)
  · refine startedFrom_restarted (fun dir hdir => ?_) (by omega)
    rw [hdir] at hschema
    exact Option.isSome_iff_ne_none.1 hschema

end VaultDB.Storage
