import VaultDB.Storage.Recovery
set_option autoImplicit false

/-!
A crash while `RecoverFromWAL` runs, and the recovery of the next start.

The pages the interrupted run had written may each be at any point of it.  The second run ends with
the same tables as long as no rolled-back transaction has its abort record in the log, which would
keep it from being undone again.
-/

namespace VaultDB.Wal
open List
variable {w : List Entry} {e : Entry} {extra : List Entry}
def HasPageRecord (w : List Entry) (x : Nat) : Prop := ∃ e ∈ w, e.txID = x ∧ e.op.slot? ≠ none

inductive Trailing (w : List Entry) : Entry → Prop where
  | abort {x : Nat} : x ∈ (analyzeTransactions w).inProgress → ¬ HasPageRecord w x →
      Trailing w ⟨x,.abort⟩
  | checkpoint {x lsn : Nat} : ¬ HasPageRecord w x → Trailing w ⟨x,.checkpoint lsn⟩

theorem Trailing.slot? (h : Trailing w e) : e.op.slot? = none := by cases h <;> rfl
theorem Trailing.not_hasPageRecord (h : Trailing w e) : ¬ HasPageRecord w e.txID := by cases h <;> assumption

theorem committed_trailing (h : ∀ e ∈ extra, Trailing w e) :
    (analyzeTransactions (w++extra)).committed = (analyzeTransactions w).committed := by
  induction extra using List.reverseRecOn with
  | nil => simp
  | append_singleton extra e ih =>
    have ih := ih fun e he => h e (by simp [he])
    rw [← append_assoc,analyzeTransactions_concat]
    cases h e (by simp) with
    | abort hx _ =>
      simp only [analyzeEntry,ih,filter_eq_self,decide_eq_true_eq]
      rintro y hy rfl
      exact not_committed_of_inProgress hx hy
    | checkpoint _ =>
      simp only [analyzeEntry]
      split
      · exact ih
      · exact ih

theorem inProgress_trailing (h : ∀ e ∈ extra, Trailing w e) {x : Nat} (hx : HasPageRecord w x) :
    x ∈ (analyzeTransactions (w++extra)).inProgress ↔ x ∈ (analyzeTransactions w).inProgress := by
  induction extra using List.reverseRecOn with
  | nil => simp
  | append_singleton extra e ih =>
    have ih := ih fun e he => h e (by simp [he])
    have hne : e.txID ≠ x := fun heq => (h e (by simp)).not_hasPageRecord (heq ▸ hx)
    have hop : ∀ op, e ≠ ⟨x,op⟩ := fun op heq => hne (by rw [heq])
    rw [← append_assoc,analyzeTransactions_concat,inProgress_analyzeEntry _ (hop _),ih]
    simp [hop,hne]

end VaultDB.Wal

namespace VaultDB.Storage
open Wal Lib RecoveryStep RecoveryState List
variable {k : TableKey} {w extra : List Entry} {order order' : List Nat} {d d' : Disk} {s : RecoveryState}
  {steps : List RecoveryStep} {n v : Nat} {c : TableKey × PageID} {pid : PageID} {xid : Nat} {o : RecoveryStep}
def WellLogged (w : List Entry) : Prop :=
  w.Pairwise fun a b => ∀ k loc xid t, b.op = .pageInsert k loc xid t → a.op.slot? ≠ some (k,loc)

def NoUndoConflict (w : List Entry) : Prop :=
  ∀ e ∈ w, ∀ e' ∈ w, e.txID ∈ (analyzeTransactions w).inProgress → e'.txID ∈ (analyzeTransactions w).inProgress →
    ∀ k loc xid t, e.op = .pageInsert k loc xid t → e'.op.slot? = some (k,loc) → e'.txID = e.txID

def undoOps (c : TableKey × PageID) (w : List Entry) (xid : Nat) : List PageOp :=
  RecoveryStep.opsOn c ((w.filter (·.txID = xid)).map .undo)

namespace RecoveryStep

theorem opsOn_append (c : TableKey × PageID) (xs ys : List RecoveryStep) :
    opsOn c (xs++ys) = opsOn c xs++opsOn c ys := by simp [opsOn]

theorem opsOn_undoPhase (c : TableKey × PageID) (w : List Entry) (order : List Nat) :
    opsOn c (undoPhase w order) = order.flatMap (undoOps c w) := by
  induction order with
  | nil => rfl
  | cons x order ih =>
    rw [undoPhase,flatMap_cons,opsOn_append,flatMap_cons,← ih]
    rfl

theorem isInsert_undo (h : ∀ o ∈ steps, ∃ e, o = .undo e) : ∀ op ∈ opsOn c steps, op.isInsert = false := by
  intro op hop
  obtain ⟨o,ho,hx⟩ := mem_filterMap.1 hop
  obtain ⟨⟨c',op'⟩,hpo,hif⟩ := Option.bind_eq_some_iff.1 hx
  obtain ⟨e,rfl⟩ := h o ho
  have hop' : op' = op := by
    simp only at hif
    split at hif
    · exact Option.some.inj hif
    · cases hif
  subst hop'
  unfold pageOp at hpo
  split at hpo <;> cases hpo <;> first | rfl | (rename_i h; cases h)

end RecoveryStep

theorem mem_undoOps_iff : .stamp n v ∈ undoOps (k,pid) w xid ↔
    (v = xid ∧ ∃ y t, ⟨xid,.pageInsert k ⟨pid,n⟩ y t⟩ ∈ w) ∨
        (v = 0 ∧ ∃ y, ⟨xid,.pageDelete k ⟨pid,n⟩ y⟩ ∈ w) := by
  simp only [undoOps,opsOn,filterMap_map,mem_filterMap,mem_filter,
    Function.comp_apply,decide_eq_true_eq,Option.bind_eq_some_iff,Option.ite_none_right_eq_some,Option.some.injEq]
  constructor
  · rintro ⟨⟨x,op⟩,⟨he,rfl⟩,⟨c,op'⟩,hp,rfl,rfl⟩
    cases op with
    | pageInsert k' loc y t =>
      cases hp
      exact .inl ⟨rfl,y,t,he⟩
    | pageDelete k' loc y =>
      cases hp
      exact .inr ⟨rfl,y,he⟩
    | _ => cases hp
  · rintro (⟨rfl,y,t,he⟩ | ⟨rfl,y,he⟩)
    · exact ⟨_,⟨he,rfl⟩,_,rfl,rfl,rfl⟩
    · exact ⟨_,⟨he,rfl⟩,_,rfl,rfl,rfl⟩

theorem mem_undoOps (h : .stamp n v ∈ undoOps (k,pid) w xid) : ∃ e ∈ w, e.txID = xid ∧ e.op.slot? =
    some (k,⟨pid,n⟩) ∧
      (v = 0 ∨ ∃ xi t, e.op = .pageInsert k ⟨pid,n⟩ xi t) := by
  rcases mem_undoOps_iff.1 h with ⟨-,y,t,he⟩ | ⟨rfl,y,he⟩
  · exact ⟨_,he,rfl,rfl,.inr ⟨y,t,rfl⟩⟩
  · exact ⟨_,he,rfl,rfl,.inl rfl⟩

theorem lastStamp_undoOps_agree (hn : NoUndoConflict w) {x y u : Nat} (hx : x ∈ (analyzeTransactions w).inProgress)
    (hy : y ∈ (analyzeTransactions w).inProgress) (hu : PageOp.lastStamp n (undoOps c w x) = some u)
    (hv : PageOp.lastStamp n (undoOps c w y) = some v) : u = v := by
  by_cases hxy : x = y
  · subst hxy
    exact Option.some.inj (hu.symm.trans hv)
  · -- neither has filled the slot, so both only clear the stamp of a delete
    obtain ⟨e,he,rfl,hes,heu⟩ := mem_undoOps (PageOp.mem_of_lastStamp hu)
    obtain ⟨e',he',rfl,hes',hev⟩ := mem_undoOps (PageOp.mem_of_lastStamp hv)
    rcases heu with rfl | ⟨xi,t,hins⟩
    · rcases hev with rfl | ⟨xi,t,hins⟩
      · rfl
      · exact absurd (hn e' he' e he hy hx _ _ xi t hins hes) hxy
    · exact absurd (hn e he e' he' hx hy _ _ xi t hins hes').symm hxy

theorem undoOps_trailing (h : ∀ e ∈ extra, Trailing w e)
    (c : TableKey × PageID) (x : Nat) : undoOps c (w++extra) x = undoOps c w x := by
  have hnil : opsOn c ((extra.filter (·.txID = x)).map .undo) = [] := by
    refine filterMap_eq_nil_iff.2 fun o ho => ?_
    obtain ⟨e,he,rfl⟩ := mem_map.1 ho
    cases h e (mem_filter.1 he).1 <;> rfl
  rw [undoOps,filter_append,map_append,opsOn_append,hnil,append_nil]
  rfl

theorem lastStamp_undo_eq (hn : NoUndoConflict w)
    (hextra : ∀ e ∈ extra, Trailing w e) (ho : UndoOrder w order) (ho' : UndoOrder (w++extra) order')
    (c : TableKey × PageID) (n : Nat) : PageOp.lastStamp n (opsOn c (undoPhase (w++extra) order')) =
      PageOp.lastStamp n (opsOn c (undoPhase w order)) := by
  rw [opsOn_undoPhase,opsOn_undoPhase]
  have hfun : undoOps c (w++extra) = undoOps c w := funext (undoOps_trailing hextra c)
  rw [hfun]
  have hmem : ∀ x, PageOp.lastStamp n (undoOps c w x) ≠ none →
    (x ∈ order' ↔ x ∈ (analyzeTransactions w).inProgress) := by
    intro x hx
    obtain ⟨v,hv⟩ := Option.ne_none_iff_exists'.1 hx
    obtain ⟨e,he,htx,hs,-⟩ := mem_undoOps (PageOp.mem_of_lastStamp hv)
    rw [ho'.mem_iff,inProgress_trailing hextra ⟨e,he,htx,by simp [hs]⟩]
  by_cases hex : ∃ x ∈ (analyzeTransactions w).inProgress, PageOp.lastStamp n (undoOps c w x) ≠ none
  · obtain ⟨x,hx,hne⟩ := hex
    obtain ⟨u,hu⟩ := Option.ne_none_iff_exists'.1 hne
    rw [PageOp.lastStamp_flatMap (u := u) (l := order'),PageOp.lastStamp_flatMap (u := u)]
    · exact fun y hy v hv => (lastStamp_undoOps_agree hn hx (ho.mem_iff.1 hy) hu hv).symm
    · exact ⟨x,ho.mem_iff.2 hx,hne⟩
    · intro y hy v hv
      exact (lastStamp_undoOps_agree hn hx ((hmem y (by simp [hv])).1 hy) hu hv).symm
    · exact ⟨x,(hmem x hne).2 hx,hne⟩
  · have hnone : ∀ x ∈ (analyzeTransactions w).inProgress, PageOp.lastStamp n (undoOps c w x) = none :=
      fun x hx => by_contra fun hne => hex ⟨x,hx,hne⟩
    rw [PageOp.lastStamp_eq_none.2,PageOp.lastStamp_eq_none.2]
    · intro v hv
      obtain ⟨x,hx,hm⟩ := mem_flatMap.1 hv
      exact PageOp.lastStamp_eq_none.1 (hnone x (ho.mem_iff.1 hx)) v hm
    · intro v hv
      obtain ⟨x,hx,hm⟩ := mem_flatMap.1 hv
      by_cases hne : PageOp.lastStamp n (undoOps c w x) = none
      · exact PageOp.lastStamp_eq_none.1 hne v hm
      · exact hne (hnone x ((hmem x hne).1 hx))

theorem wellLogged_opsOn (hw : WellLogged w) (c : TableKey × PageID) :
    PageOp.WellLogged (opsOn c (redoPhase w)) := by
  rw [PageOp.WellLogged,opsOn,redoPhase,filterMap_map,pairwise_filterMap]
  refine hw.imp fun {a b} hab opa ha opb hb hins hslot => ?_
  simp only [Function.comp_apply,Option.bind_eq_some_iff] at ha hb
  obtain ⟨⟨ca,opa'⟩,hpa,ha⟩ := ha
  obtain ⟨⟨cb,opb'⟩,hpb,hb⟩ := hb
  simp only [Option.ite_none_right_eq_some,Option.some.injEq] at ha hb
  obtain ⟨rfl,rfl⟩ := ha
  obtain ⟨rfl,rfl⟩ := hb
  obtain ⟨xb,b⟩ := b
  cases b with
  | pageInsert k loc xid t =>
    obtain ⟨rfl,rfl⟩ := Prod.mk.inj (Option.some.inj hpb)
    obtain ⟨loca,hloca,hpid⟩ := slot?_of_pageOp hpa
    refine hab k loc xid t rfl (hloca.trans ?_)
    have hs : loca.slot = loc.slot := by
      obtain ⟨xa,a⟩ := a
      cases a with
      | pageInsert | pageDelete =>
        obtain ⟨-,rfl⟩ := Prod.mk.inj (Option.some.inj hpa)
        obtain ⟨-,rfl⟩ := Prod.mk.inj (Option.some.inj hloca)
        exact hslot
      | _ => cases hpa
    cases loca; cases loc
    simp_all
  | pageDelete k loc xmax =>
    obtain ⟨-,rfl⟩ := Prod.mk.inj (Option.some.inj hpb)
    cases hins
  | _ => cases hpb

theorem entry_mem_recoverySteps (h : o ∈ recoverySteps w order) : o.entry ∈ w := by
  rcases mem_append.1 h with h | h
  · obtain ⟨e,he,rfl⟩ := mem_map.1 h
    exact he
  · obtain ⟨x,-,hx⟩ := mem_flatMap.1 h
    obtain ⟨e,he,rfl⟩ := mem_map.1 hx
    exact (mem_filter.1 he).1

theorem undoPhase_undo (h : o ∈ undoPhase w order) : ∃ e, o = .undo e := by
  obtain ⟨x,-,hx⟩ := mem_flatMap.1 h
  obtain ⟨e,-,rfl⟩ := mem_map.1 hx
  exact ⟨e,rfl⟩

theorem opsOn_redoPhase_trailing (h : ∀ e ∈ extra, Trailing w e) (c : TableKey × PageID) :
    opsOn c (redoPhase (w++extra)) = opsOn c (redoPhase w) := by
  have hnil : opsOn c (redoPhase extra) = [] := by
    refine filterMap_eq_nil_iff.2 fun o ho => ?_
    obtain ⟨e,he,rfl⟩ := mem_map.1 ho
    cases h e he <;> rfl
  rw [redoPhase,map_append,opsOn_append]
  exact (congrArg _ hnil).trans (append_nil _)

theorem opsOn_take (c : TableKey × PageID) (steps : List RecoveryStep) (j : Nat) :
    ∃ i, opsOn c (steps.take j) = (opsOn c steps).take i :=
  ⟨_,prefix_iff_eq_take.1 (( take_prefix j steps).filterMap _)⟩

/-- The disk a crash in the middle of a recovery leaves: every page is at some point of the run,
and so are every schema file and heap size. -/
structure Interrupted (d : Disk) (w : List Entry) (order : List Nat) (d' : Disk) : Prop where
  page : ∀ k pid, ∃ j s, replay RecoveryState.runStep ((recoverySteps w order).take j)
    (recoveryStart d w) = .ok s ∧ d'.page k pid = s.disk.page k pid
  frame : ∀ k, ∃ j s, replay RecoveryState.runStep ((recoverySteps w order).take j)
    (recoveryStart d w) = .ok s ∧ d'.frame k = s.disk.frame k
  catalogTx : d'.catalogTx = d.catalogTx

theorem page_restart (hr : Replayable w (recoveryStart d w)) (hw : WellLogged w)
    (hn : NoUndoConflict w) (hextra : ∀ e ∈ extra, Trailing w e) (ho : UndoOrder w order)
    (ho' : UndoOrder (w++extra) order') (hs : replay runStep (recoverySteps w order) (recoveryStart d w) = .ok s)
    (hd : Interrupted d w order d') (k : TableKey) (pid : PageID) : match d'.page k pid with
    | some r =>
      ∃ q, r.replayOps (opsOn (k,pid) (recoverySteps (w++extra) order')) = .ok q ∧ s.disk.page k pid = some q
    | none => s.disk.page k pid = none := by
  obtain ⟨j,sj,hj,hpage⟩ := hd.page k pid
  have hcov : ∀ o ∈ recoverySteps w order, o.entry ∈ w := fun o ho => entry_mem_recoverySteps ho
  have hcovj : ∀ o ∈ (recoverySteps w order).take j, o.entry ∈ w := fun o ho => hcov o (mem_of_mem_take ho)
  cases hp : (recoveryStart d w).disk.page k pid with
  | none =>
    rw [hpage,page_replay_none hr hcovj hj hp]
    exact page_replay_none hr hcov hs hp
  | some p =>
    obtain ⟨r,hrep,hr'⟩ := page_replay hr hcovj hj hp
    obtain ⟨q,hq,hq'⟩ := page_replay hr hcov hs hp
    obtain ⟨i,hi⟩ := opsOn_take (k,pid) (recoverySteps w order) j
    rw [hi] at hrep
    rw [hpage,hr']
    refine ⟨q,?_,hq'⟩
    rw [recoverySteps,opsOn_append] at hq hrep
    rw [recoverySteps,opsOn_append,opsOn_redoPhase_trailing hextra]
    exact Page.replayOps_restart_append (wellLogged_opsOn hw _)
      (isInsert_undo fun _ => undoPhase_undo)
      (isInsert_undo fun _ => undoPhase_undo)
      (fun n => lastStamp_undo_eq hn hextra ho ho' (k,pid) n) hq i hrep

theorem openTables_eq_frame (d : Disk) (k : TableKey) :
    d.openTables k = (d.frame k).any fun f => !f.1.isEmpty && f.2.1.isSome := by
  cases hd : d.dir k with
  | none => simp [Disk.openTables,Disk.frame,hd]
  | some t => cases hs : t.heap.segments <;> simp [Disk.openTables,Disk.frame,hd,TableDir.canOpen,HeapFile.shape,hs]

theorem openTables_mono {schema : Option TableSchema}
    (h : d'.frame k = (d.frame k).map fun f => (f.1,schema.or f.2.1,f.2.2))
    (ho : d.openTables k = true) : d'.openTables k = true := by
  rw [openTables_eq_frame] at ho ⊢
  rw [h]
  cases hf : d.frame k with
  | none => simp [hf] at ho
  | some f => cases schema <;> simp_all

theorem lastSchema_none_take (h : lastSchema k steps = none) (j : Nat) : lastSchema k (steps.take j) = none := by
  induction steps generalizing j with
  | nil => simp [lastSchema]
  | cons o steps ih =>
    cases j with
    | zero => rfl
    | succ j =>
      simp only [lastSchema,Option.or_eq_none_iff] at h
      simp [lastSchema,ih h.1 j,h.2]

theorem lastSchema_eq_none (h : ∀ o ∈ steps, o.schemaOp = none) : lastSchema k steps = none := by
  induction steps with
  | nil => rfl
  | cons o steps ih => simp [lastSchema,h o mem_cons_self,ih fun o ho => h o (mem_cons_of_mem _ ho)]

theorem recoverySteps_trailing (h : ∀ e ∈ extra, Trailing w e) (order : List Nat) :
    (∀ k, lastSchema k (recoverySteps (w++extra) order) = lastSchema k (redoPhase w)) ∧
    ∀ c, (recoverySteps (w++extra) order).foldl advance c = (redoPhase w).foldl advance c := by
  have hextra : ∀ o ∈ redoPhase extra, o.schemaOp = none ∧ ∀ c, o.advance c = c := by
    intro o ho
    obtain ⟨e,he,rfl⟩ := mem_map.1 ho
    cases h e he <;> exact ⟨rfl,fun _ => rfl⟩
  have hundo : ∀ o ∈ undoPhase (w++extra) order, o.schemaOp = none ∧ ∀ c, o.advance c = c := by
    intro o ho
    obtain ⟨e,rfl⟩ := undoPhase_undo ho
    exact ⟨rfl,fun _ => rfl⟩
  have hsplit : recoverySteps (w++extra) order = redoPhase w++(redoPhase extra++undoPhase (w++extra) order) := by
    simp [recoverySteps,redoPhase]
  have hrest : ∀ o ∈ redoPhase extra++undoPhase (w++extra) order, o.schemaOp = none ∧ ∀ c, o.advance c = c := by
    intro o ho
    rcases mem_append.1 ho with ho | ho
    · exact hextra o ho
    · exact hundo o ho
  rw [hsplit]
  refine ⟨fun k => ?_,fun c => ?_⟩
  · rw [lastSchema_append,lastSchema_eq_none fun o ho => (hrest o ho).1,Option.none_or]
  · rw [foldl_append]
    generalize (redoPhase w).foldl advance c = c'
    generalize redoPhase extra++undoPhase (w++extra) order = steps at hrest
    induction steps with
    | nil => rfl
    | cons o steps ih =>
      rw [foldl_cons,(hrest o mem_cons_self).2]
      exact ih fun o ho => hrest o (mem_cons_of_mem _ ho)

section
variable (hr : Replayable w (recoveryStart d w))
include hr
theorem frame_interrupted (hd : Interrupted d w order d') (k : TableKey) : ∃ j, d'.frame k = (d.frame k).map fun f =>
      (f.1,(lastSchema k ((recoverySteps w order).take j)).or f.2.1,f.2.2) := by
  obtain ⟨j,sj,hj,hf⟩ := hd.frame k
  refine ⟨j,?_⟩
  rw [hf]
  exact frame_replay hr
    (fun o ho => entry_mem_recoverySteps (mem_of_mem_take ho)) hj k

theorem replayable_interrupted (hextra : ∀ e ∈ extra, Trailing w e)
    (hd : Interrupted d w order d') : Replayable (w++extra) (recoveryStart d' (w++extra)) := by
  constructor
  · intro e he k loc hloc
    rcases mem_append.1 he with he | he
    · obtain ⟨hopen,p,hp⟩ := hr.page e he k loc hloc
      obtain ⟨i,hf⟩ := frame_interrupted hr hd k
      refine ⟨openTables_mono hf hopen,?_⟩
      obtain ⟨j,sj,hj,hpage⟩ := hd.page k loc.pid
      obtain ⟨q,-,hq⟩ := page_replay hr
        (fun o ho => entry_mem_recoverySteps (mem_of_mem_take ho)) hj hp
      exact ⟨q,hpage.trans hq⟩
    · rw [(hextra e he).slot?] at hloc
      cases hloc
  · intro e he k schema hsc
    rcases mem_append.1 he with he | he
    · obtain ⟨j,hf⟩ := frame_interrupted hr hd k
      have hne := dir_ne_none_iff_frame.1 (hr.schema e he k schema hsc)
      refine dir_ne_none_iff_frame.2 ?_
      show d'.frame k ≠ none
      rw [hf]
      exact fun hmap => hne (Option.map_eq_none_iff.1 hmap)
    · cases hextra e he <;> cases hsc
  · intro e he k ht
    rcases mem_append.1 he with he | he
    · exact hr.noTruncate e he k ht
    · cases hextra e he <;> cases ht

theorem recoverFromWAL_restart (hw : WellLogged w)
    (hn : NoUndoConflict w) (hextra : ∀ e ∈ extra, Trailing w e) (ho : UndoOrder w order)
    (ho' : UndoOrder (w++extra) order') (hs : recoverFromWAL d w order = .ok s) (hd : Interrupted d w order d') :
    ∃ s', recoverFromWAL d' (w++extra) order' = .ok s' ∧ (∀ k, s'.disk.dir k = s.disk.dir k) ∧
      s'.opened = s.opened ∧ s'.clock = s.clock := by
  obtain ⟨s1,hs1,rfl⟩ := recoverFromWAL_eq_ok.1 hs
  have hr' := replayable_interrupted hr hextra hd
  have hcov : ∀ o ∈ recoverySteps w order, o.entry ∈ w := fun o ho => entry_mem_recoverySteps ho
  have hcov' : ∀ o ∈ recoverySteps (w++extra) order', o.entry ∈ w++extra := fun o ho => entry_mem_recoverySteps ho
  have hpages := page_restart hr hw hn hextra ho ho' hs1 hd
  obtain ⟨s2,hs2⟩ := replay_runStep_total hr' hcov' fun k pid p hp => by
    have hp' : d'.page k pid = some p := hp
    have := hpages k pid
    rw [hp'] at this
    obtain ⟨q,hq,-⟩ := this
    exact ⟨q,hq⟩
  have hpage : ∀ k pid, s2.disk.page k pid = s1.disk.page k pid := by
    intro k pid
    have := hpages k pid
    cases hp : d'.page k pid with
    | none =>
      rw [hp] at this
      rw [this]
      exact page_replay_none hr' hcov' hs2 hp
    | some p =>
      rw [hp] at this
      obtain ⟨q,hq,hq1⟩ := this
      obtain ⟨q',hq',hq2⟩ := page_replay hr' hcov' hs2 hp
      rw [hq2,hq1,Except.ok.inj (hq'.symm.trans hq)]
  obtain ⟨hschema',hclock'⟩ := recoverySteps_trailing hextra order'
  have hnil : ∀ e ∈ ([] : List Entry), Trailing w e := by simp
  obtain ⟨hschema,hclock⟩ := recoverySteps_trailing hnil order
  rw [append_nil] at hschema hclock
  have hframe : ∀ k, s2.disk.frame k = s1.disk.frame k := by
    intro k
    obtain ⟨j,hj⟩ := frame_interrupted hr hd k
    rw [frame_replay hr' hcov' hs2 k,frame_replay hr hcov hs1 k,hschema',hschema]
    show (d'.frame k).map _ = (d.frame k).map _
    rw [hj,Option.map_map]
    congr 1
    funext f
    simp only [Function.comp_apply]
    cases hl : lastSchema k (redoPhase w) with
    | some schema => simp
    | none =>
      rw [lastSchema_none_take (by rw [hschema,hl])]
      rfl
  have hdir : ∀ k, s2.disk.dir k = s1.disk.dir k := fun k => Disk.dir_ext (hframe k) (hpage k)
  obtain ⟨hc1,ho1,-⟩ := clock_replay hs1
  obtain ⟨hc2,ho2,-⟩ := clock_replay hs2
  refine ⟨_,recoverFromWAL_eq_ok.2 ⟨s2,hs2,rfl⟩,hdir,?_,?_⟩
  · funext k
    have hopen : s2.disk.openTables k = s1.disk.openTables k := by simp [Disk.openTables,hdir]
    have h1 : s1.opened k = true → s1.disk.openTables k = true := by
      rw [ho1]
      exact openTables_mono (frame_replay hr hcov hs1 k)
    have h2 : s2.opened k = true → s1.disk.openTables k = true := by
      rw [ho2,← hopen]
      exact openTables_mono (frame_replay hr' hcov' hs2 k)
    simp only [hopen]
    cases hk : s1.disk.openTables k with
    | true => simp
    | false =>
      have h₁' : s1.opened k = false := by simpa [hk] using h1
      have h₂' : s2.opened k = false := by simpa [hk] using h2
      rw [h₁',h₂']
  · show s2.clock = s1.clock
    rw [hc2,hc1,hclock',hclock]
    simp only [recoveryStart,maxCommitted,committed_trailing hextra,hd.catalogTx]
end

/-- A crash of a recovery that the next start repairs: before a transaction with page records has
its abort record in the log, or behind the truncation of the log when the saved catalog covers every
transaction id. -/
inductive SafeCrash (d : Disk) (w : List Entry) (order : List Nat) : Disk → List Entry → Prop where
  | running {d' : Disk} {extra : List Entry} : Interrupted d w order d' →
      (∀ e ∈ extra, Trailing w e) → SafeCrash d w order d' (w++extra)
  | truncated {s : RecoveryState} : recoverFromWAL d w order = .ok s →
      (∀ k loc t, s.tuple k loc = some t → t.xmin ≤ d.catalogTx ∧ t.xmax ≤ d.catalogTx) →
      SafeCrash d w order s.disk []

theorem currentRow_congr {s' : RecoveryState} (hd : ∀ k, s'.disk.dir k = s.disk.dir k)
    (ho : s'.opened = s.opened) (hc : s'.clock = s.clock) (k : TableKey) (loc : PageSlot) :
    s'.currentRow k loc = s.currentRow k loc := by
  simp [currentRow,tuple,Disk.tuple,Disk.page,hd,ho,hc]

theorem restart_truncated (hr : Replayable w (recoveryStart d w)) (hs : recoverFromWAL d w order = .ok s)
    (hcat : ∀ k loc t, s.tuple k loc = some t → t.xmin ≤ d.catalogTx ∧ t.xmax ≤ d.catalogTx)
    (ho' : UndoOrder [] order') :
    ∃ s', recoverFromWAL s.disk [] order' = .ok s' ∧ ∀ k loc, s'.currentRow k loc = s.currentRow k loc := by
  obtain ⟨s1,hs1,rfl⟩ := recoverFromWAL_eq_ok.1 hs
  have hnil : order' = [] := List.Perm.eq_nil ho'
  subst hnil
  refine ⟨_,recoverFromWAL_eq_ok.2 ⟨recoveryStart s1.disk [],rfl,rfl⟩,fun k loc => ?_⟩
  have hcov : ∀ o ∈ recoverySteps w order, o.entry ∈ w := fun o ho => entry_mem_recoverySteps ho
  obtain ⟨hclock,hopened,hcatalog⟩ := clock_replay hs1
  have hcatalog : s1.disk.catalogTx = d.catalogTx := hcatalog
  obtain ⟨hsync,hle⟩ := recoveryStart_clock d w
  obtain ⟨hsync1,hle1⟩ := foldl_advance hsync (recoverySteps w order)
  rw [← hclock] at hsync1 hle1
  obtain ⟨hsync2,hle2⟩ := recoveryStart_clock s1.disk []
  rw [hcatalog] at hle2
  have hopen : s1.opened k = true → s1.disk.openTables k = true := by
    rw [hopened]
    exact openTables_mono (frame_replay hr hcov hs1 k)
  have hopen' : (s1.opened k || s1.disk.openTables k) = s1.disk.openTables k := by
    cases hk : s1.opened k with
    | false => rfl
    | true => rw [hopen hk]; rfl
  have htuple : ∀ t, s1.tuple k loc = some t → (recoveryStart s1.disk []).clock.visible t = s1.clock.visible t := by
    intro t ht
    obtain ⟨hmin,hmax⟩ := hcat k loc t ht
    rw [Bool.eq_iff_iff,Clock.visible_iff hsync1,Clock.visible_iff hsync2]
    omega
  show (if s1.disk.openTables k || s1.disk.openTables k then
      ((s1.tuple k loc).filter (recoveryStart s1.disk []).clock.visible).map Tuple.data else none) =
    if s1.opened k || s1.disk.openTables k then
      ((s1.tuple k loc).filter s1.clock.visible).map Tuple.data else none
  rw [hopen',Bool.or_self]
  cases ht : s1.tuple k loc with
  | none => rfl
  | some t => rw [Option.filter_some,Option.filter_some,htuple t ht]

/-- A crash while recovery runs is repaired by the next start: it shows the rows that one
uninterrupted recovery would have shown. -/
theorem recovery_restartable {d : Disk} {w : List Entry} {order : List Nat} {s : RecoveryState}
    (hr : Replayable w (recoveryStart d w)) (hw : WellLogged w) (hn : NoUndoConflict w)
    (ho : UndoOrder w order) (hs : recoverFromWAL d w order = .ok s) {d' : Disk} {w' : List Entry}
    (hcrash : SafeCrash d w order d' w') {order' : List Nat} (ho' : UndoOrder w' order') :
    ∃ s', recoverFromWAL d' w' order' = .ok s' ∧ ∀ k loc, s'.currentRow k loc = s.currentRow k loc := by
  cases hcrash with
  | running hd hextra =>
    obtain ⟨s',hs',hdir,hopen,hclock⟩ := recoverFromWAL_restart hr hw hn hextra ho ho' hs hd
    exact ⟨s',hs',currentRow_congr hdir hopen hclock⟩
  | truncated hs0 hcat =>
    obtain rfl := Except.ok.inj (hs0.symm.trans hs)
    exact restart_truncated hr hs hcat ho'

def restartDisk : Disk := (RecoveryState.ofHeap ⟨[[some Page.init]]⟩).disk

def restartLog : List Entry :=
  [⟨1,.pageInsert ⟨"app","users"⟩ ⟨⟨0,0⟩,0⟩ 1 ⟨1#64,0,[1,0]⟩⟩,⟨1,.commit⟩,
    ⟨2,.pageDelete ⟨"app","users"⟩ ⟨⟨0,0⟩,0⟩ 2⟩]

/-- The page as the first pass leaves it. -/
def redoneDisk : Disk :=
  match replay runStep ((recoverySteps restartLog [2]).take 3) (recoveryStart restartDisk restartLog) with
  | .ok s => s.disk
  | .error _ => restartDisk

/-- The crash comes after the first pass, with the stamp of transaction 2 on the flushed page and
before its abort record. -/
theorem recovery_restartable_after_redo :
    (redoneDisk.tuple ⟨"app","users"⟩ ⟨⟨0,0⟩,0⟩).map Tuple.xmax = some 2 ∧
    ∃ s s', recoverFromWAL restartDisk restartLog [2] = .ok s ∧
      recoverFromWAL redoneDisk restartLog [2] = .ok s' ∧ s.currentRow ⟨"app","users"⟩ ⟨⟨0,0⟩,0⟩ = some [1,0] ∧
      ∀ k loc, s'.currentRow k loc = s.currentRow k loc := by
  have hr : Replayable restartLog (recoveryStart restartDisk restartLog) := by
    constructor
    · intro e he k loc hloc
      simp only [restartLog,mem_cons,not_mem_nil,or_false] at he
      rcases he with rfl | rfl | rfl
      · cases hloc
        exact ⟨by decide,Page.init,by decide⟩
      · cases hloc
      · cases hloc
        exact ⟨by decide,Page.init,by decide⟩
    · intro e he k schema hsc
      simp only [restartLog,mem_cons,not_mem_nil,or_false] at he
      rcases he with rfl | rfl | rfl <;> cases hsc
    · intro e he k ht
      simp only [restartLog,mem_cons,not_mem_nil,or_false] at he
      rcases he with rfl | rfl | rfl <;> cases ht
  have hw : WellLogged restartLog := by simp [WellLogged,restartLog]
  have hn : NoUndoConflict restartLog := by
    intro e he e' he' hx hx' k loc xid t hins hs
    simp only [restartLog,mem_cons,not_mem_nil,or_false] at he
    rcases he with rfl | rfl | rfl
    · exact absurd hx (by decide)
    · cases hins
    · cases hins
  have ho : UndoOrder restartLog [2] := List.Perm.refl _
  obtain ⟨s,hs,hone⟩ : ∃ s, recoverFromWAL restartDisk restartLog [2] = .ok s ∧
    s.currentRow ⟨"app","users"⟩ ⟨⟨0,0⟩,0⟩ = some [1,0] := ⟨_,rfl,by decide⟩
  have hd : Interrupted restartDisk restartLog [2] redoneDisk :=
    ⟨fun k pid => ⟨3,_,rfl,rfl⟩,fun k => ⟨3,_,rfl,rfl⟩,rfl⟩
  have hcrash : SafeCrash restartDisk restartLog [2] redoneDisk (restartLog++[]) := .running hd (by simp)
  rw [append_nil] at hcrash
  obtain ⟨s',hs',hrow⟩ := recovery_restartable hr hw hn ho hs hcrash ho
  exact ⟨by decide,s,s',hs,hs',hone,hrow⟩

/-- The crash comes after both passes and the abort record of transaction 2: the first recovery had
kept the row, the next one deletes it for good. -/
theorem restart_loses_row :
    UndoOrder restartLog [2] ∧ UndoOrder (restartLog++[⟨2, .abort⟩]) [] ∧
    ∃ s s', recoverFromWAL restartDisk restartLog [2] = .ok s ∧
      recoverFromWAL s.disk (restartLog++[⟨2, .abort⟩]) [] = .ok s' ∧
      s.currentRow ⟨"app", "users"⟩ ⟨⟨0, 0⟩, 0⟩ = some [1, 0] ∧
      s'.currentRow ⟨"app", "users"⟩ ⟨⟨0, 0⟩, 0⟩ = none :=
  ⟨List.Perm.refl _,List.Perm.refl _,_,_,rfl,rfl,by decide,by decide⟩

end VaultDB.Storage
