import VaultDB.Storage.PageReplay
import VaultDB.Storage.Redo
set_option autoImplicit false

/-!
`RecoverFromWAL`: analysis, redo, and undo of the transactions without a commit in the order a Go
map is walked, which is a parameter.

The second half: a page gets the replay of its own records.
-/

namespace VaultDB.Storage
open Wal Lib List Option Disk
variable {d : Disk} {w : List Entry} {s : RecoveryState} {k : TableKey} {pid : PageID} {p : Page}
  {x : Nat} {t : TableDir} {loc : PageSlot}
inductive RecoveryStep where
  | redo (e : Entry)
  | undo (e : Entry)
  deriving DecidableEq, Repr

variable {steps : List RecoveryStep} {o : RecoveryStep}
namespace RecoveryState

def redoEntry (s : RecoveryState) (e : Entry) : Except RecoveryError RecoveryState :=
  match e.op with
  | .pageInsert k loc xid data => s.redoInsert k loc xid data
  | .pageDelete k loc xmax => s.redoDelete k loc xmax
  | .schemaWrite k schema => s.redoSchemaWrite k schema
  | .truncateTable k => .ok (s.redoTruncateTable k)
  | _ => .ok s

def undoEntry (s : RecoveryState) (e : Entry) : Except RecoveryError RecoveryState :=
  match e.op with
  | .pageInsert k loc _ _ => s.undoInsert k loc e.txID
  | .pageDelete k loc _ => s.undoDelete k loc
  | _ => .ok s

def runStep (s : RecoveryState) : RecoveryStep → Except RecoveryError RecoveryState
  | .redo e => s.redoEntry e
  | .undo e => s.undoEntry e

end RecoveryState

def redoPhase (w : List Entry) : List RecoveryStep := w.map .redo

def undoPhase (w : List Entry) (order : List Nat) : List RecoveryStep :=
  order.flatMap fun xid => (w.filter (·.txID = xid)).map .undo

def recoverySteps (w : List Entry) (order : List Nat) : List RecoveryStep := redoPhase w++undoPhase w order

namespace Disk

def removeLeftovers (d : Disk) : Disk := { d with vacuumDir := fun _ => none, rewriteDir := fun _ => none }
def openTables (d : Disk) (k : TableKey) : Bool := (d.dir k).any TableDir.canOpen

end Disk

def maxCommitted (w : List Entry) : Nat := (analyzeTransactions w).committed.foldl max 0

def recoveryStart (d : Disk) (w : List Entry) : RecoveryState where
  disk := d.removeLeftovers
  opened := d.openTables
  clock :=
    if (analyzeTransactions w).committed = [] then .start d.catalogTx
    else (Clock.start d.catalogTx).ensureNextTxIDAtLeast (maxCommitted w+1)

def recoverFromWAL (d : Disk) (w : List Entry) (order : List Nat) : Except RecoveryError RecoveryState :=
  match replay RecoveryState.runStep (recoverySteps w order) (recoveryStart d w) with
  | .ok s => .ok { s with opened := fun k => s.opened k || s.disk.openTables k }
  | .error e => .error e

def UndoOrder (w : List Entry) (order : List Nat) : Prop := order.Perm (analyzeTransactions w).inProgress

def RecoveryState.currentRow (s : RecoveryState) (k : TableKey) (loc : PageSlot) : Option (List UInt8) :=
  if s.opened k then ((s.tuple k loc).filter s.clock.visible).map Tuple.data else none

theorem recoverFromWAL_eq_ok {order : List Nat} : recoverFromWAL d w order = .ok s ↔
      ∃ s1, replay RecoveryState.runStep (recoverySteps w order) (recoveryStart d w) = .ok s1 ∧
        s = { s1 with opened := fun k => s1.opened k || s1.disk.openTables k } := by
  unfold recoverFromWAL
  cases replay RecoveryState.runStep (recoverySteps w order) (recoveryStart d w) with
  | ok s1 => simp [eq_comm]
  | error e => simp

namespace RecoveryStep
variable {c : Clock}
def entry : RecoveryStep → Entry
  | .redo e => e
  | .undo e => e

def pageOp : RecoveryStep → Option ((TableKey × PageID) × PageOp)
  | .redo ⟨_,.pageInsert k loc _ data⟩ => some ((k,loc.pid),.insert loc.slot data)
  | .redo ⟨_,.pageDelete k loc xmax⟩ => some ((k,loc.pid),.stamp loc.slot xmax)
  | .undo ⟨xid,.pageInsert k loc _ _⟩ => some ((k,loc.pid),.stamp loc.slot xid)
  | .undo ⟨_,.pageDelete k loc _⟩ => some ((k,loc.pid),.stamp loc.slot 0)
  | _ => none

def opsOn (c : TableKey × PageID) (steps : List RecoveryStep) : List PageOp :=
  steps.filterMap fun o => o.pageOp.bind fun x => if x.1 = c then some x.2 else none

def advance (c : Clock) : RecoveryStep → Clock
  | .redo ⟨_,.pageInsert _ _ xid _⟩ => c.advance xid
  | .redo ⟨_,.pageDelete _ _ xmax⟩ => c.advance xmax
  | _ => c

theorem advance_synced (h : c.Synced) (o : RecoveryStep) : (o.advance c).Synced := by
  unfold advance
  split
  · exact h.advance _
  · exact h.advance _
  · exact h

theorem le_advance (c : Clock) (o : RecoveryStep) : c.txCounter ≤ (o.advance c).txCounter := by
  unfold advance
  split
  · exact c.le_advance _
  · exact c.le_advance _
  · exact Nat.le_refl _

theorem foldl_advance (h : c.Synced) (steps : List RecoveryStep) :
    (steps.foldl advance c).Synced ∧ c.txCounter ≤ (steps.foldl advance c).txCounter := by
  induction steps generalizing c with
  | nil => exact ⟨h,Nat.le_refl _⟩
  | cons o steps ih =>
    obtain ⟨hs,hle⟩ := ih (advance_synced h o)
    exact ⟨hs,Nat.le_trans (le_advance c o) hle⟩

theorem lt_foldl_advance (h : c.Synced) {op : Op} (hx : 0 < x) (hin : .redo ⟨x,op⟩ ∈ steps)
    (hop : (∃ k loc t, op = .pageInsert k loc x t) ∨ ∃ k loc, op = .pageDelete k loc x) :
    x < (steps.foldl advance c).txCounter := by
  induction steps generalizing c with
  | nil => cases hin
  | cons o steps ih =>
    rcases mem_cons.1 hin with rfl | hin
    · refine Nat.lt_of_lt_of_le ?_ (foldl_advance (advance_synced h _) steps).2
      have hadv : x < (c.advance x).txCounter := by
        simp only [Clock.advance,hx,if_true,Clock.ensureNextTxIDAtLeast]
        omega
      rcases hop with ⟨k,loc,t,rfl⟩ | ⟨k,loc,rfl⟩
      · exact hadv
      · exact hadv
    · exact ih (advance_synced h o) hin

end RecoveryStep

open RecoveryStep

theorem recoveryStart_clock (d : Disk) (w : List Entry) :
    (recoveryStart d w).clock.Synced ∧ d.catalogTx ≤ (recoveryStart d w).clock.txCounter := by
  have hs := Clock.synced_start d.catalogTx
  simp only [recoveryStart]
  split
  · exact ⟨hs,Nat.le_refl _⟩
  · exact ⟨hs.ensure _,Clock.le_ensure (.start d.catalogTx) _⟩

namespace RecoveryState

theorem table?_of_opened (h : s.opened k = true) : s.table? k = s.disk.dir k := by simp [table?,h]

theorem writePage_of_page (ht : s.disk.dir k = some t) (hr : t.heap.readPage pid = some p) (q : Page) :
    s.writePage k t.heap pid q = .ok { s with disk := s.disk.setPage k pid q } := by
  obtain ⟨h,hw⟩ := HeapFile.writePage_eq_some (q := q) hr
  simp [writePage,hw,setHeap,setPage_eq ht hw]

section
variable (ho : s.opened k = true) (hp : s.disk.page k loc.pid = some p)
include ho hp
theorem redoInsert_eq (xid : Nat) (data : Tuple) : s.redoInsert k loc xid data =
    match p.insertTupleAt loc.slot data with
      | .ok q => .ok { s.advanceClock xid with disk := s.disk.setPage k loc.pid q }
      | .error e => .error (.page e) := by
  obtain ⟨t,ht,hr⟩ := exists_of_page hp
  simp only [redoInsert,table?_advanceClock,table?_of_opened ho,ht,redoPage,hr]
  cases p.insertTupleAt loc.slot data with
  | error e => rfl
  | ok q => exact writePage_of_page (s := s.advanceClock xid) ht hr q

theorem stampXMax_eq (x : Nat) : s.stampXMax k loc x =
      .ok { s with disk := s.disk.setPage k loc.pid (p.modifyTuple loc.slot (·.setXMax x)) } := by
  obtain ⟨t,ht,hr⟩ := exists_of_page hp
  simp only [stampXMax,table?_of_opened ho,ht,hr]
  cases hg : p.getTuple loc.slot with
  | none =>
    -- an empty slot is left alone, which is what writing the page back unchanged would do
    rw [Page.modifyTuple_eq_self (by simp [hg]),setPage_self hp]
  | some e => exact writePage_of_page ht hr _
end

theorem runStep_eq {op : PageOp} (ho : o.pageOp = some ((k,pid),op)) (hk : s.opened k = true)
    (hp : s.disk.page k pid = some p) : s.runStep o = match op.apply p with
      | .ok q => .ok { s with clock := o.advance s.clock, disk := s.disk.setPage k pid q }
      | .error e => .error (.page e) := by
  unfold pageOp at ho
  split at ho <;> cases ho
  · exact redoInsert_eq hk hp _ _
  · exact stampXMax_eq (s := s.advanceClock _) hk hp _
  · exact stampXMax_eq hk hp _
  · exact stampXMax_eq hk hp _

end RecoveryState

/-- Every page the records name can be read and belongs to an open table, every schema has a
directory to go to, and no table is truncated. -/
structure Replayable (w : List Entry) (s : RecoveryState) : Prop where
  page : ∀ e ∈ w, ∀ k loc, e.op.slot? = some (k,loc) →
    s.opened k = true ∧ ∃ p, s.disk.page k loc.pid = some p
  schema : ∀ e ∈ w, ∀ k schema, e.op = .schemaWrite k schema → s.disk.dir k ≠ none
  noTruncate : ∀ e ∈ w, ∀ k, e.op ≠ .truncateTable k

namespace RecoveryStep

def schemaOp : RecoveryStep → Option (TableKey × TableSchema)
  | .redo ⟨_,.schemaWrite k schema⟩ => some (k,schema)
  | _ => none

theorem slot?_of_pageOp {op : PageOp}
    (h : o.pageOp = some ((k,pid),op)) : ∃ loc, o.entry.op.slot? = some (k,loc) ∧ loc.pid = pid := by
  unfold pageOp at h
  split at h <;> cases h <;> exact ⟨_,rfl,rfl⟩

theorem advance_of_pageOp_none (h : o.pageOp = none) (c : Clock) : o.advance c = c := by
  rcases o with ⟨x,op⟩ | ⟨x,op⟩
  · cases op with
    | pageInsert | pageDelete => cases h
    | _ => rfl
  · rfl

end RecoveryStep

namespace RecoveryState
variable {s' : RecoveryState}
theorem runStep_cases (hr : Replayable w s) (ho : o.entry ∈ w) :
    (∃ k pid op p, o.pageOp = some ((k,pid),op) ∧ o.schemaOp = none ∧ s.opened k = true ∧
      s.disk.page k pid = some p) ∨
    (∃ k schema t, o.pageOp = none ∧ o.schemaOp = some (k,schema) ∧ s.disk.dir k = some t ∧
      s.runStep o = .ok { s with disk := s.disk.setDir k (some { t with schema := some schema }) }) ∨
    (o.pageOp = none ∧ o.schemaOp = none ∧ s.runStep o = .ok s) := by
  cases hp : o.pageOp with
  | some x =>
    obtain ⟨⟨k,pid⟩,op⟩ := x
    obtain ⟨loc,hloc,rfl⟩ := slot?_of_pageOp hp
    obtain ⟨hopen,p,hpage⟩ := hr.page o.entry ho k loc hloc
    refine .inl ⟨k,loc.pid,op,p,rfl,?_,hopen,hpage⟩
    unfold pageOp at hp
    split at hp <;> first | rfl | cases hp
  | none =>
    refine .inr ?_
    cases hs : o.schemaOp with
    | some x =>
      obtain ⟨k,schema⟩ := x
      unfold schemaOp at hs
      split at hs
      · cases hs
        obtain ⟨t,ht⟩ := ne_none_iff_exists'.1 (hr.schema _ ho k schema rfl)
        exact .inl ⟨k,schema,t,rfl,rfl,ht,by simp [runStep,redoEntry,redoSchemaWrite,ht]⟩
      · cases hs
    | none =>
      refine .inr ⟨rfl,rfl,?_⟩
      rcases o with ⟨x,op⟩ | ⟨x,op⟩
      · cases op with
        | pageInsert | pageDelete => cases hp
        | schemaWrite => cases hs
        | truncateTable k => exact absurd rfl (hr.noTruncate _ ho k)
        | _ => rfl
      · cases op with
        | pageInsert | pageDelete => cases hp
        | _ => rfl

section
variable (ht : d.dir k = some t) (schema : TableSchema) (k' : TableKey)
include ht schema k'
@[simp] theorem page_setDir_schema (pid : PageID) :
    (d.setDir k (some { t with schema := some schema })).page k' pid = d.page k' pid := by
  by_cases hk : k' = k
  · subst hk; simp [Disk.page,ht]
  · simp [Disk.page,hk]

theorem frame_setDir_schema : (d.setDir k (some { t with schema := some schema })).frame k' =
      if k = k' then (d.frame k').map fun f => (f.1,some schema,f.2.2) else d.frame k' := by
  by_cases hk : k = k'
  · subst hk; simp [Disk.frame,ht]
  · simp [Disk.frame,Ne.symm hk,hk]
end

structure StepEffect (s : RecoveryState) (o : RecoveryStep) (s' : RecoveryState) : Prop where
  opened : s'.opened = s.opened
  catalogTx : s'.disk.catalogTx = s.disk.catalogTx
  clock : s'.clock = o.advance s.clock
  page : ∀ k pid op, o.pageOp = some ((k,pid),op) → ∃ p q, s.disk.page k pid = some p ∧
    op.apply p = .ok q ∧ s'.disk.page k pid = some q
  otherPage : ∀ k pid, (o.pageOp.map Prod.fst) ≠ some (k,pid) → s'.disk.page k pid = s.disk.page k pid
  frame : ∀ k schema, o.schemaOp = some (k,schema) →
    s'.disk.frame k = (s.disk.frame k).map fun f => (f.1,some schema,f.2.2)
  otherFrame : ∀ k, (o.schemaOp.map Prod.fst) ≠ some k → s'.disk.frame k = s.disk.frame k

theorem runStep_effect (hr : Replayable w s) (ho : o.entry ∈ w) (h : s.runStep o = .ok s') : StepEffect s o s' := by
  rcases runStep_cases hr ho with ⟨k,pid,op,p,hp,hs,hk,hpage⟩ | ⟨k,schema,t,hp,hs,ht,he⟩ |
    ⟨hp,hs,he⟩
  · rw [runStep_eq hp hk hpage] at h
    cases ha : op.apply p with
    | error e => simp [ha] at h
    | ok q =>
      simp only [ha,Except.ok.injEq] at h
      subst h
      constructor
      · rfl
      · exact catalogTx_setPage _ _ _ _
      · rfl
      · intro k' pid' op' hop
        cases hp.symm.trans hop
        exact ⟨p,q,hpage,ha,by simp [page_setPage hpage]⟩
      · intro k' pid' hne
        simp only [hp,map_some,ne_eq,some.injEq] at hne
        rw [page_setPage hpage,if_neg hne]
      · intro k' schema hsc
        simp [hs] at hsc
      · intro k' _
        exact frame_setPage hpage q k'
  · rw [he] at h
    cases h
    constructor
    · rfl
    · rfl
    · exact (advance_of_pageOp_none hp _).symm
    · intro k' pid' op' hop
      simp [hp] at hop
    · intro k' pid' _
      exact page_setDir_schema ht schema k' pid'
    · intro k' schema' hsc
      cases hs.symm.trans hsc
      rw [frame_setDir_schema ht,if_pos rfl]
    · intro k' hne
      simp only [hs,map_some,ne_eq,some.injEq] at hne
      rw [frame_setDir_schema ht,if_neg hne]
  · rw [he] at h
    cases h
    exact ⟨rfl,rfl,(advance_of_pageOp_none hp _).symm,by simp [hp],fun _ _ _ => rfl,by simp [hs],fun _ _ => rfl⟩

theorem dir_ne_none_iff_frame : d.dir k ≠ none ↔ d.frame k ≠ none := by simp [Disk.frame]

theorem replayable_runStep (hr : Replayable w s) (ho : o.entry ∈ w) (h : s.runStep o = .ok s') :
    Replayable w s' := by
  have he := runStep_effect hr ho h
  constructor
  · intro e hew k loc hloc
    obtain ⟨hk,p,hp⟩ := hr.page e hew k loc hloc
    refine ⟨by rw [he.opened]; exact hk,?_⟩
    by_cases hc : o.pageOp.map Prod.fst = some (k,loc.pid)
    · obtain ⟨⟨c,op⟩,hop,rfl⟩ := map_eq_some_iff.1 hc
      obtain ⟨_,q,-,-,hq⟩ := he.page k loc.pid op hop
      exact ⟨q,hq⟩
    · exact ⟨p,by rw [he.otherPage k loc.pid hc]; exact hp⟩
  · intro e hew k schema hsc
    have hd := dir_ne_none_iff_frame.1 (hr.schema e hew k schema hsc)
    rw [dir_ne_none_iff_frame]
    by_cases hc : o.schemaOp.map Prod.fst = some k
    · obtain ⟨⟨c,sc⟩,hop,rfl⟩ := map_eq_some_iff.1 hc
      rw [he.frame _ _ hop]
      simpa using hd
    · rwa [he.otherFrame k hc]
  · exact hr.noTruncate

def pageCells (w : List Entry) : Keyed RecoveryState (TableKey × PageID)
    (Option Page) RecoveryStep RecoveryError where
  run := RecoveryState.runStep
  view s c := s.disk.page c.1 c.2
  key o := o.pageOp.map Prod.fst
  step x o :=
    match x, o.pageOp with
    | some p, some (_,op) =>
      match op.apply p with
      | .ok q => .ok (some q)
      | .error e => .error (.page e)
    | x, _ => .ok x
  Good := Replayable w
  Covered o := o.entry ∈ w
  good_run _ _ _ hg ho h := replayable_runStep hg ho h
  view_key s o s' c hg ho hk h := by
    obtain ⟨⟨c,op⟩,hop,rfl⟩ := Option.map_eq_some_iff.1 hk
    obtain ⟨p,q,hp,ha,hq⟩ := (runStep_effect hg ho h).page c.1 c.2 op hop
    simp [hp,hop,ha,hq]
  view_other s o s' c hg ho hk h := (runStep_effect hg ho h).otherPage c.1 c.2 hk

theorem progress_pageCells (w : List Entry) : (pageCells w).Progress := by
  intro s o hg ho h
  rcases runStep_cases hg ho with ⟨k,pid,op,p,hp,-,hk,hpage⟩ | ⟨_,_,_,-,-,-,he⟩ | ⟨-,-,he⟩
  · obtain ⟨x,hx⟩ := h (k,pid) (by simp [pageCells,hp])
    show ∃ s', s.runStep o = .ok s'
    rw [runStep_eq hp hk hpage]
    cases ha : op.apply p with
    | ok q => exact ⟨_,rfl⟩
    | error e => simp [pageCells,hp,hpage,ha] at hx
  · exact ⟨_,he⟩
  · exact ⟨_,he⟩

theorem replay_pageCells {c : TableKey × PageID} {x : Option Page} :
    replay (pageCells w).step ((pageCells w).ofCell c steps) (some p) = .ok x ↔
      ∃ q, p.replayOps (opsOn c steps) = .ok q ∧ x = some q := by
  induction steps generalizing p with
  | nil => simp [Keyed.ofCell,opsOn,Page.replayOps,eq_comm]
  | cons o steps ih =>
    cases ho : o.pageOp with
    | none =>
      have hf : (pageCells w).ofCell c (o :: steps) = (pageCells w).ofCell c steps := by
        simp [Keyed.ofCell,pageCells,ho]
      have hops : opsOn c (o :: steps) = opsOn c steps := by simp [opsOn,ho]
      rw [hf,hops,ih]
    | some y =>
      obtain ⟨c',op⟩ := y
      by_cases hc : c' = c
      · have hf : (pageCells w).ofCell c (o :: steps) = o :: (pageCells w).ofCell c steps := by
          simp [Keyed.ofCell,pageCells,ho,hc]
        have hops : opsOn c (o :: steps) = op :: opsOn c steps := by simp [opsOn,ho,hc]
        rw [hf,hops,replay_cons_eq_ok,Page.replayOps]
        simp only [replay_cons_eq_ok]
        cases ha : op.apply p with
        | error e => simp [pageCells,ho,ha]
        | ok p1 =>
          have hstep : (pageCells w).step (some p) o = .ok (some p1) := by simp [pageCells,ho,ha]
          simp only [hstep,Except.ok.injEq,exists_eq_left']
          exact ih
      · have hf : (pageCells w).ofCell c (o :: steps) = (pageCells w).ofCell c steps := by
          simp [Keyed.ofCell,pageCells,ho,hc]
        have hops : opsOn c (o :: steps) = opsOn c steps := by simp [opsOn,ho,hc]
        rw [hf,hops,ih]

section
variable (hr : Replayable w s) (hc : ∀ o ∈ steps, o.entry ∈ w)
include hr hc
theorem page_replay (h : replay runStep steps s = .ok s') (hp : s.disk.page k pid = some p) :
    ∃ q, p.replayOps (opsOn (k,pid) steps) = .ok q ∧ s'.disk.page k pid = some q := by
  have hv := (pageCells w).replay_view hc hr h (k,pid)
  have hview : (pageCells w).view s (k,pid) = some p := hp
  rw [hview] at hv
  exact replay_pageCells.1 hv

theorem ofCell_eq_nil (hp : s.disk.page k pid = none) : (pageCells w).ofCell (k,pid) steps = [] := by
  refine filter_eq_nil_iff.2 fun o ho hk => ?_
  obtain ⟨⟨c',op⟩,hop,rfl⟩ := map_eq_some_iff.1 (of_decide_eq_true hk)
  obtain ⟨loc,hloc,hpid⟩ := slot?_of_pageOp hop
  obtain ⟨-,p,hp'⟩ := hr.page o.entry (hc o ho) _ loc hloc
  rw [hpid,hp] at hp'
  cases hp'

theorem replay_runStep_total (h : ∀ k pid p, s.disk.page k pid = some p → ∃ q,
      p.replayOps (opsOn (k,pid) steps) = .ok q) :
    ∃ s', replay runStep steps s = .ok s' := by
  refine (pageCells w).replay_total (progress_pageCells w) hc hr fun c => ?_
  cases hp : s.disk.page c.1 c.2 with
  | some p =>
    obtain ⟨q,hq⟩ := h c.1 c.2 p hp
    exact ⟨some q,by
      have hview : (pageCells w).view s c = some p := hp
      rw [hview]
      exact replay_pageCells.2 ⟨q,hq,rfl⟩⟩
  | none => exact ⟨_,by rw [ofCell_eq_nil hr hc hp]; rfl⟩

theorem page_replay_none (h : replay runStep steps s = .ok s')
    (hp : s.disk.page k pid = none) : s'.disk.page k pid = none := by
  have hnil := ofCell_eq_nil hr hc hp
  have hv := (pageCells w).replay_view hc hr h (k,pid)
  rw [hnil] at hv
  exact (Except.ok.inj hv).symm.trans hp
end

def lastSchema (k : TableKey) : List RecoveryStep → Option TableSchema
  | [] => none
  | o :: steps => (lastSchema k steps).or (o.schemaOp.bind fun x => if x.1 = k then some x.2 else none)

theorem lastSchema_append (k : TableKey) (xs ys : List RecoveryStep) :
    lastSchema k (xs++ys) = (lastSchema k ys).or (lastSchema k xs) := by
  induction xs with
  | nil => simp [lastSchema]
  | cons o xs ih => simp [lastSchema,ih,Option.or_assoc]

theorem frame_replay (hr : Replayable w s) (hc : ∀ o ∈ steps, o.entry ∈ w) (h : replay runStep steps s = .ok s')
    (k : TableKey) : s'.disk.frame k = (s.disk.frame k).map fun f => (f.1,(lastSchema k steps).or f.2.1,f.2.2) := by
  induction steps generalizing s with
  | nil =>
    obtain rfl := Except.ok.inj h
    cases s.disk.frame k <;> simp [lastSchema]
  | cons o steps ih =>
    obtain ⟨s1,h1,h2⟩ := replay_cons_eq_ok.1 h
    have ho := hc o mem_cons_self
    have he := runStep_effect hr ho h1
    rw [ih (replayable_runStep hr ho h1) (fun o ho => hc o (mem_cons_of_mem _ ho)) h2]
    by_cases hk : o.schemaOp.map Prod.fst = some k
    · obtain ⟨⟨k',schema⟩,hop,rfl⟩ := map_eq_some_iff.1 hk
      rw [he.frame _ _ hop]
      cases s.disk.frame k' with
      | none => rfl
      | some f => simp [lastSchema,hop]
    · have hnone : (o.schemaOp.bind fun x => if x.1 = k then some x.2 else none) = none := by
        cases hop : o.schemaOp with
        | none => rfl
        | some x =>
          have hx : x.1 ≠ k := by simpa [hop] using hk
          simp [hx]
      rw [he.otherFrame k hk,lastSchema,hnone,or_none]

theorem writePage_ok {h : HeapFile} (hw : s.writePage k h pid p = .ok s') : ∃ h', s' = s.setHeap k h' := by
  unfold writePage at hw
  split at hw
  · cases hw
    exact ⟨_,rfl⟩
  · cases hw

theorem stampXMax_ok (h : s.stampXMax k loc x = .ok s') : s' = s ∨ ∃ h', s' = s.setHeap k h' := by
  unfold stampXMax at h
  split at h
  · cases h
    exact .inl rfl
  · split at h
    · cases h
    · split at h
      · cases h
        exact .inl rfl
      · exact .inr (writePage_ok h)

theorem redoInsert_ok {t : Tuple} (h : s.redoInsert k loc x t = .ok s') :
    s' = s.advanceClock x ∨ ∃ h', s' = (s.advanceClock x).setHeap k h' := by
  simp only [redoInsert] at h
  split at h
  · cases h
    exact .inl rfl
  · split at h
    · cases h
    · split at h
      · cases h
      · exact .inr (writePage_ok h)

theorem clock_runStep (h : s.runStep o = .ok s') :
    s'.clock = o.advance s.clock ∧ s'.opened = s.opened ∧ s'.disk.catalogTx = s.disk.catalogTx := by
  rcases o with ⟨x,op⟩ | ⟨x,op⟩
  · cases op with
    | pageInsert k loc xid t =>
      rcases redoInsert_ok h with rfl | ⟨_,rfl⟩ <;> exact ⟨rfl,rfl,rfl⟩
    | pageDelete k loc xmax =>
      rcases stampXMax_ok (s := s.advanceClock xmax) h with rfl | ⟨_,rfl⟩ <;> exact ⟨rfl,rfl,rfl⟩
    | schemaWrite k schema =>
      simp only [runStep,redoEntry,redoSchemaWrite] at h
      split at h
      · cases h
      · cases h
        exact ⟨rfl,rfl,rfl⟩
    | truncateTable k =>
      simp only [runStep,redoEntry,redoTruncateTable] at h
      split at h <;> cases h <;> exact ⟨rfl,rfl,rfl⟩
    | _ => cases h; exact ⟨rfl,rfl,rfl⟩
  · cases op with
    | pageInsert | pageDelete => rcases stampXMax_ok h with rfl | ⟨_,rfl⟩ <;> exact ⟨rfl,rfl,rfl⟩
    | _ => cases h; exact ⟨rfl,rfl,rfl⟩

theorem clock_replay (h : replay runStep steps s = .ok s') : s'.clock =
    steps.foldl advance s.clock ∧ s'.opened = s.opened ∧
      s'.disk.catalogTx = s.disk.catalogTx := by
  induction steps generalizing s with
  | nil => cases h; exact ⟨rfl,rfl,rfl⟩
  | cons o steps ih =>
    obtain ⟨s1,h1,h2⟩ := replay_cons_eq_ok.1 h
    obtain ⟨hclock1,hopen1,hcat1⟩ := clock_runStep h1
    obtain ⟨hclock,hopen,hcat⟩ := ih h2
    exact ⟨by rw [hclock,hclock1]; rfl,hopen.trans hopen1,hcat.trans hcat1⟩

end RecoveryState
end VaultDB.Storage
