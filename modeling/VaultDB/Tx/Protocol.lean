import VaultDB.Tx.Session
set_option autoImplicit false

/-!
What a session promises: which commands it issues when.

Whatever the answers are, a session changes the table of a locked statement only under its commit
lock, bumps its version before it lets go of it, and reports a transaction as applied only after it
has found every recorded version unchanged under the locks.
-/

namespace VaultDB.Tx
open Lib List Option

inductive TraceEvent where
  | begin
  | finish
  | read (k : String)
  | record (k : String)
  | change (k : String)
  | applied (ks : List String)
  deriving DecidableEq, Repr

abbrev Trace := List (Nat × TraceEvent)

structure State where
  versions : String → Nat := fun _ => 0
  locks : String → Option Nat := fun _ => none
  trace : Trace := []

namespace State

def log (s : State) (i : Nat) (e : TraceEvent) : State := { s with trace := s.trace++[(i,e)] }
def setLock (s : State) (k : String) (l : Option Nat) : State :=
  { s with locks := fun k' => if k' = k then l else s.locks k' }
def bump (s : State) (k : String) : State :=
  { s with versions := fun k' => if k' = k then s.versions k+1 else s.versions k' }

def answer (s : State) (i : Nat) : (c : Cmd) → c.Res → Option State
  | .begin, _ => some (s.log i .begin)
  | .finish, _ => some (s.log i .finish)
  | .read k, _ => some (s.log i (.read k))
  | .tableVersion k, v => if v = s.versions k then some (s.log i (.record k)) else none
  | .currentVersion k, v => if v = s.versions k then some s else none
  | .lock k, _ => if s.locks k = none then some (s.setLock k (some i)) else none
  | .unlock k, _ => if s.locks k = some i then some (s.setLock k none) else none
  | .bumpTableVersion k, _ => some (s.bump k)
  | .mutate _ k, o => some (if o.changed then s.log i (.change k) else s)
  | .applied ks, _ => some (s.log i (.applied ks))
  | .hasCycle, _ => some s
  | .readOps, _ => some s
  | .walCommit, _ => some s

end State

structure Watcher where
  snaps : List (String × Nat) := []
  held : List String := []
  dirty : List String := []
  verified : List String := []

namespace Watcher

def allowed (w : Watcher) : Cmd → Prop
  | .tableVersion k => ∀ v, (k,v) ∉ w.snaps
  | .unlock k => k ∉ w.dirty
  | .mutate .immediate k => k ∈ w.held
  | .applied ks => ∀ k ∈ ks, k ∈ w.verified
  | _ => True

def next (w : Watcher) : (c : Cmd) → c.Res → Watcher
  | .begin, _ => { w with snaps := [], verified := [] }
  | .finish, _ => { w with snaps := [], verified := [] }
  | .tableVersion k, v => { w with snaps := w.snaps++[(k,v)] }
  | .currentVersion k, v =>
    if k ∈ w.held ∧ (k,v) ∈ w.snaps then { w with verified := k :: w.verified } else w
  | .lock k, _ => { w with held := k :: w.held }
  | .unlock k, _ => { w with held := w.held.filter (· ≠ k), verified := w.verified.filter (· ≠ k) }
  | .bumpTableVersion k, _ => { w with dirty := w.dirty.filter (· ≠ k) }
  | .mutate via k, o =>
    if o.ok then { w with dirty := if via = .immediate ∧ o.changed then k :: w.dirty else w.dirty }
    else { w with dirty := [] }
  | _, _ => w

end Watcher

def occProtocol : Protocol Cmd Cmd.Res Watcher := ⟨Watcher.allowed,Watcher.next⟩

def occMachine (triggers : OpType → String → List Dml) : Machine Cmd Cmd.Res Watcher Unit State Empty where
  protocol := occProtocol
  fresh := {}
  start _ p := ∃ stmts, p = runStatements triggers none stmts
  exec i _ s c r s' := s.answer i c r = some s'
  env _ e _ := e.elim

abbrev OccConfig := Config Cmd Cmd.Res Watcher Unit State

section
variable {α : Type} {via : Via} {m : Mutation}
/-- The watcher knows the versions of the session's transaction, nothing is left to bump, and
every buffered operation has its table among the snapshots. -/
structure Quiet (w : Watcher) (s : Session) : Prop where
  dirty : w.dirty = []
  covered : ∀ tx, s = some tx → ∀ op ∈ tx.ops, tx.hasSnapshot op.mutation.table = true
  snaps : ∀ tx, s = some tx → ∀ x ∈ tx.snapshots, x ∈ w.snaps
  recorded : ∀ tx, s = some tx → ∀ k v, (k,v) ∈ w.snaps → tx.hasSnapshot k = true

structure Fixed (w w' : Watcher) : Prop where
  held : w'.held = w.held
  verified : w'.verified = w.verified

theorem Fixed.trans {w w1 w2 : Watcher} (h : Fixed w w1) (h' : Fixed w1 w2) : Fixed w w2 :=
  ⟨h'.held.trans h.held,h'.verified.trans h.verified⟩

abbrev Runs {α : Type} (w : Watcher) (p : P α) (Q : Watcher → α → Prop) : Prop := Follows occProtocol w p Q

theorem runs_issue {w : Watcher} {c : Cmd} {f : c.Res → P α} {Q : Watcher → α → Prop} :
    Runs w (issue c >>= f) Q ↔ w.allowed c ∧ ∀ r, Runs (w.next c r) (f r) Q := Iff.rfl

variable {w : Watcher} {tx : Transaction} {s : Session}
theorem Quiet.of_eq {w' : Watcher} (h : Quiet w s) (hd : w'.dirty = []) (hs : w'.snaps = w.snaps) : Quiet w' s :=
  ⟨hd,h.covered,by rw [hs]; exact h.snaps,by rw [hs]; exact h.recorded⟩

theorem hasSnapshot_append (k k' : String) (v : Nat) :
    ({ tx with snapshots := tx.snapshots++[(k,v)] } : Transaction).hasSnapshot k' =
    (tx.hasSnapshot k' || k == k') := by
  simp [Transaction.hasSnapshot]

theorem runs_recordAccess (h : Quiet w (some tx)) (k : String) :
    Runs w (recordAccess tx k) fun w' tx' => (Quiet w' (some tx') ∧ Fixed w w') ∧ tx'.ops = tx.ops ∧
      tx'.hasSnapshot k = true := by
  unfold recordAccess
  split
  · exact ⟨⟨h,rfl,rfl⟩,rfl,‹_›⟩
  · rename_i hk
    refine ⟨fun v hv => hk (h.recorded tx rfl k v hv),fun v => ⟨⟨⟨h.dirty,?_,?_,?_⟩,rfl,rfl⟩,rfl,?_⟩⟩
    · rintro _ ⟨⟩ op hop
      rw [hasSnapshot_append,h.covered tx rfl op hop,Bool.true_or]
    · rintro _ ⟨⟩ x hx
      rcases mem_append.1 hx with hx | hx
      · exact mem_append_left _ (h.snaps tx rfl x hx)
      · exact mem_append_right _ hx
    · rintro _ ⟨⟩ k' v' hx
      rw [hasSnapshot_append]
      rcases mem_append.1 hx with hx | hx
      · rw [h.recorded tx rfl k' v' hx,Bool.true_or]
      · cases mem_singleton.1 hx
        simp
    · rw [hasSnapshot_append,beq_self_eq_true,Bool.or_true]

theorem runs_addOp (h : Quiet w (some tx)) (op : PendingOp) :
    Runs w (addOp tx op) fun w' tx' => (Quiet w' (some tx') ∧ Fixed w w') ∧ op ∈ tx'.ops := by
  refine follows_bind.2 ((runs_recordAccess h _).mono fun w' tx' hq => ?_)
  refine ⟨⟨⟨hq.1.1.dirty,?_,?_,?_⟩,hq.1.2⟩,by simp⟩
  · rintro _ ⟨⟩ op' hop
    rcases mem_append.1 hop with hop | hop
    · exact hq.1.1.covered tx' rfl op' hop
    · rw [mem_singleton.1 hop]
      exact hq.2.2
  · rintro _ ⟨⟩
    exact hq.1.1.snaps tx' rfl
  · rintro _ ⟨⟩
    exact hq.1.1.recorded tx' rfl

theorem runs_readTables (h : Quiet w (some tx)) (ks : List String) :
    Runs w (readTables tx ks) fun w' tx' => Quiet w' (some tx') ∧ Fixed w w' := by
  induction ks generalizing w tx with
  | nil => exact ⟨h,rfl,rfl⟩
  | cons k ks ih =>
    refine runs_issue.2 ⟨trivial,fun _ => follows_bind.2 ((runs_recordAccess h k).mono fun w1 tx1 h1 => ?_)⟩
    exact (ih h1.1.1).mono fun w2 tx2 h2 => ⟨h2.1,h1.1.2.trans h2.2⟩

def SameTx (s s' : Session) : Prop := s.isSome = s'.isSome

theorem runs_readInTx (h : Quiet w s) (ks : List String) :
    Runs w (readInTx s ks) fun w' s' => Quiet w' s' ∧ Fixed w w' ∧ SameTx s s' := by
  cases s with
  | none => exact ⟨h,⟨rfl,rfl⟩,rfl⟩
  | some tx => exact follows_bind.2 ((runs_readTables h ks).mono fun w' tx' h' => ⟨h'.1,h'.2,rfl⟩)

theorem runs_storageCalls {table : String} (hvia : via = .immediate → table ∈ w.held) (calls : List String) :
    Runs w (storageCalls via table calls) fun w' ok => Fixed w w' ∧ w'.snaps = w.snaps ∧
      (∀ k ∈ w'.dirty, k ∈ w.dirty ∨ (via = .immediate ∧ k = table)) ∧ (ok = false → w'.dirty = []) := by
  induction calls generalizing w with
  | nil => exact ⟨⟨rfl,rfl⟩,rfl,fun k hk => .inl hk,nofun⟩
  | cons k calls ih =>
    refine runs_issue.2 ⟨?_,fun o => ?_⟩
    · split
      · rename_i hk
        cases via with
        | immediate => exact hk ▸ hvia rfl
        | _ => trivial
      · trivial
    · cases ho : o.ok with
      | false =>
        simp only [Watcher.next,ho,Bool.false_eq_true,if_false]
        exact ⟨⟨rfl,rfl⟩,rfl,by simp,fun _ => rfl⟩
      | true =>
        simp only [Watcher.next,ho,if_true]
        refine Follows.mono (ih hvia) fun w' ok h' => ⟨⟨h'.1.held,h'.1.verified⟩,h'.2.1,fun k' hk' => ?_,h'.2.2.2⟩
        rcases h'.2.2.1 k' hk' with hk' | hk'
        · by_cases hk : k = table
          · rw [if_pos hk] at hk'
            split at hk'
            · rename_i hc
              rcases mem_cons.1 hk' with rfl | hk'
              · exact .inr ⟨hc.1,hk⟩
              · exact .inl hk'
            · exact .inl hk'
          · rw [if_neg hk] at hk'
            exact .inl hk'
        · exact .inr hk'

theorem runs_executeInner (hvia : via = .immediate → m.table ∈ w.held)
    (h : Quiet w s) : Runs w (executeInner via m) fun w' _ => Quiet w' s ∧ Fixed w w' := by
  refine follows_bind.2 ((runs_storageCalls hvia m.calls).mono fun w1 ok h1 => ?_)
  cases ok with
  | false => exact ⟨h.of_eq (h1.2.2.2 rfl) h1.2.1,h1.1⟩
  | true =>
    refine runs_issue.2 ⟨trivial,fun _ => ⟨h.of_eq ?_ h1.2.1,h1.1.held,h1.1.verified⟩⟩
    simp only [Watcher.next,filter_eq_nil_iff,decide_eq_true_eq,not_not]
    intro k hk
    rcases h1.2.2.1 k hk with hk | hk
    · simp [h.dirty] at hk
    · exact hk.2

theorem runs_executeUnguarded (hvia : via ≠ .immediate) (h : Quiet w s) :
    Runs w (executeInner via m) fun w' _ => Quiet w' s ∧ Fixed w w' :=
  runs_executeInner (fun hc => (hvia hc).elim) h

theorem runs_mutateUnderTableLock {k : String} {fn : P α} {Q : α → Session} (h : Quiet w s)
    (hfn : ∀ w', Quiet w' s → k ∈ w'.held → Runs w' fn fun w'' r => Quiet w'' (Q r)) :
    Runs w (mutateUnderTableLock false k fn) fun w' r => Quiet w' (Q r) := by
  refine runs_issue.2 ⟨trivial,fun _ => follows_bind.2 ?_⟩
  refine (hfn { w with held := k :: w.held } (h.of_eq h.dirty rfl) mem_cons_self).mono fun w1 r h1 => ?_
  refine runs_issue.2 ⟨?_,fun _ => h1.of_eq h1.dirty rfl⟩
  simp [Watcher.allowed,h1.dirty]

theorem runs_lockTables (ks : List String) : Runs w (lockTables ks) fun w' _ =>
    (∀ k, k ∈ w.held ∨ k ∈ ks → k ∈ w'.held) ∧
      w'.snaps = w.snaps ∧ w'.dirty = w.dirty := by
  induction ks generalizing w with
  | nil => exact ⟨by simp,rfl,rfl⟩
  | cons k ks ih =>
    refine runs_issue.2 ⟨trivial,fun _ => ih.mono fun w' _ h' => ⟨fun k' hk' => h'.1 k' ?_,h'.2⟩⟩
    simp only [Watcher.next,mem_cons] at hk' ⊢
    tauto

theorem runs_unlockTables (hd : w.dirty = []) (ks : List String) :
    Runs w (unlockTables ks) fun w' _ => w'.snaps = w.snaps ∧ w'.dirty = [] := by
  induction ks generalizing w with
  | nil => exact ⟨rfl,hd⟩
  | cons k ks ih =>
    refine runs_issue.2 ⟨?_,fun _ => ih hd⟩
    simp [Watcher.allowed,hd]

theorem runs_versionsUnchanged {tables : List (String × Nat)} (h : ∀ x ∈ tables, x ∈ w.snaps ∧ x.1 ∈ w.held) :
    Runs w (versionsUnchanged tables) fun w' same => w'.held = w.held ∧ w'.snaps = w.snaps ∧
      w'.dirty = w.dirty ∧ (∀ k ∈ w.verified, k ∈ w'.verified) ∧
      (same = true → ∀ x ∈ tables, x.1 ∈ w'.verified) := by
  induction tables generalizing w with
  | nil => exact ⟨rfl,rfl,rfl,fun _ h => h,by simp⟩
  | cons x tables ih =>
    obtain ⟨k,v⟩ := x
    have hx := h (k,v) mem_cons_self
    have hrest : ∀ x ∈ tables, x ∈ w.snaps ∧ x.1 ∈ w.held := fun y hy => h y (mem_cons_of_mem _ hy)
    refine runs_issue.2 ⟨trivial,fun current => ?_⟩
    have hnext : (w.next (.currentVersion k) current).held = w.held ∧
      (w.next (.currentVersion k) current).snaps = w.snaps ∧
        (w.next (.currentVersion k) current).dirty = w.dirty ∧
        ∀ k' ∈ w.verified, k' ∈ (w.next (.currentVersion k) current).verified := by
      simp only [Watcher.next]
      split
      · exact ⟨rfl,rfl,rfl,fun k' hk' => mem_cons_of_mem _ hk'⟩
      · exact ⟨rfl,rfl,rfl,fun _ h => h⟩
    split
    · rename_i hv
      have hver : k ∈ (w.next (.currentVersion k) current).verified := by
        rw [hv]
        simp [Watcher.next,hx.2,hx.1]
      rw [← hnext.1,← hnext.2.1] at hrest
      refine (ih hrest).mono fun w' same h' => ?_
      refine ⟨h'.1.trans hnext.1,h'.2.1.trans hnext.2.1,h'.2.2.1.trans hnext.2.2.1,
        fun k' hk' => h'.2.2.2.1 k' (hnext.2.2.2 k' hk'),fun hs y hy => ?_⟩
      rcases mem_cons.1 hy with rfl | hy
      · exact h'.2.2.2.1 _ hver
      · exact h'.2.2.2.2 hs y hy
    · exact ⟨hnext.1,hnext.2.1,hnext.2.2.1,hnext.2.2.2,nofun⟩

theorem mem_sorted {x : String × Nat} : x ∈ tx.sorted ↔ x ∈ tx.snapshots := by
  unfold Transaction.sorted
  exact mem_insertionSort _

theorem runs_managerCommit {applyFn : List PendingOp → P (Nat × Bool)} (h : Quiet w (some tx))
    (happly : ∀ w', Quiet w' (some tx) → (∀ op ∈ tx.ops, op.mutation.table ∈ w'.held) →
      Runs w' (applyFn tx.ops) fun w'' _ => w''.dirty = [] ∧ Fixed w' w'') :
    Runs w (managerCommit tx applyFn) fun w' r => w'.dirty = [] ∧ (r = .refused → Quiet w' (some tx)) := by
  refine runs_issue.2 ⟨trivial,fun cycle => ?_⟩
  cases cycle with
  | true => exact ⟨h.dirty,fun _ => h⟩
  | false =>
    refine follows_bind.2 ((runs_lockTables _).mono fun w1 _ h1 => ?_)
    have hq1 : Quiet w1 (some tx) := h.of_eq (h1.2.2.trans h.dirty) h1.2.1
    have hlocked : ∀ x ∈ tx.sorted, x ∈ w1.snaps ∧ x.1 ∈ w1.held := fun x hx =>
      ⟨hq1.snaps tx rfl x (mem_sorted.1 hx),h1.1 x.1 (.inr (mem_map_of_mem hx))⟩
    refine follows_bind.2 ((runs_versionsUnchanged hlocked).mono fun w2 same h2 => ?_)
    have hq2 : Quiet w2 (some tx) := hq1.of_eq (h2.2.2.1.trans hq1.dirty) h2.2.1
    have hrefused : Runs w2 (unlockTables (tx.sorted.map (·.1)).reverse >>= fun _ => pure Committed.refused)
        fun w' r => w'.dirty = [] ∧ (r = .refused → Quiet w' (some tx)) :=
      follows_bind.2 ((runs_unlockTables hq2.dirty _).mono fun w3 _ h3 => ⟨h3.2,fun _ => hq2.of_eq h3.2 h3.1⟩)
    cases same with
    | false => exact hrefused
    | true =>
      refine follows_bind.2 (show Runs w2 (issue .readOps) _ from ⟨trivial,fun readable => ?_⟩)
      cases readable with
      | false => exact hrefused
      | true =>
        have hheld : ∀ op ∈ tx.ops, op.mutation.table ∈ w2.held := by
          intro op hop
          obtain ⟨x,hx,hk⟩ := any_eq_true.1 (h.covered tx rfl op hop)
          rw [h2.1,← beq_iff_eq.1 hk]
          exact (hlocked x (mem_sorted.2 hx)).2
        refine follows_bind.2 ((happly w2 hq2 hheld).mono fun w3 r h3 => ?_)
        obtain ⟨n,ok⟩ := r
        have hend : ∀ n ok, Runs w3 (unlockTables (tx.sorted.map (·.1)).reverse >>= fun _ =>
          pure (Committed.tried n ok))
            fun w' r => w'.dirty = [] ∧ (r = .refused → Quiet w' (some tx)) := fun n ok =>
          follows_bind.2 ((runs_unlockTables h3.1 _).mono fun w4 _ h4 => ⟨h4.2,nofun⟩)
        cases ok with
        | false => exact hend n false
        | true =>
          refine runs_issue.2 ⟨?_,fun _ => hend n true⟩
          intro k hk
          obtain ⟨x,hx,rfl⟩ := mem_map.1 hk
          rw [h3.2.verified]
          exact h2.2.2.2.2 rfl x hx

theorem quiet_none (h : w.dirty = []) : Quiet w none := ⟨h,nofun,nofun,nofun⟩

theorem quiet_begin (hd : w.dirty = []) : Quiet (w.next .begin ()) (some {}) := by
  refine ⟨hd,?_,?_,?_⟩
  · rintro _ ⟨⟩ op hop
    simp at hop
  · rintro _ ⟨⟩ x hx
    simp at hx
  · rintro _ ⟨⟩ k v hx
    simp [Watcher.next] at hx

section
variable {fire : OpType → Session → String → P Session} {op : PendingOp}
def Free (w : Watcher) (p : P Session) : Prop := Runs w p fun w' s' => Quiet w' s'
def Applying (w : Watcher) (s : Session) (p : P Session) : Prop :=
  Runs w p fun w' s' => Quiet w' s' ∧ Fixed w w' ∧ SameTx s s'

theorem runs_executeImmediate (hfire : ∀ e s k w, Quiet w s → Free w (fire e s k)) (h : Quiet w s)
    (op : PendingOp) : Runs w (executeImmediate fire false s op) fun w' r => Quiet w' r.2 := by
  refine runs_mutateUnderTableLock h fun w1 h1 hk => ?_
  refine follows_bind.2 ((runs_executeInner (fun _ => hk) h1).mono fun w2 ok h2 => ?_)
  split
  · exact follows_bind.2 (Follows.mono (hfire _ _ _ w2 h2.1) fun w3 s' h3 => h3)
  · exact h2.1

theorem applying_executeImmediate (hfire : ∀ e tx k w, Quiet w (some tx) → Applying w (some tx) (fire e (some tx) k))
    (h : Quiet w (some tx)) (hk : op.mutation.table ∈ w.held) :
    Runs w (executeImmediate fire true (some tx) op) fun w' r =>
      Quiet w' r.2 ∧ Fixed w w' ∧ SameTx (some tx) r.2 := by
  show Runs w (executeInner .immediate op.mutation >>= _) _
  refine follows_bind.2 ((runs_executeInner (fun _ => hk) h).mono fun w1 ok h1 => ?_)
  split
  · refine follows_bind.2 (Follows.mono (hfire _ _ _ w1 h1.1) fun w2 s' h2 => ?_)
    exact ⟨h2.1,h1.2.trans h2.2.1,h2.2.2⟩
  · exact ⟨h1.1,h1.2,rfl⟩

theorem free_truncateImmediate (hd : w.dirty = []) (op : PendingOp) :
    Runs w (truncateImmediate op) fun w' _ => Quiet w' none := by
  refine runs_issue.2 ⟨trivial,fun _ => follows_bind.2 ?_⟩
  refine (runs_addOp (quiet_begin hd) op).mono fun w1 tx1 h1 => follows_bind.2 ?_
  refine (runs_managerCommit h1.1.1 fun w2 h2 hheld => ?_).mono fun w3 r h3 => ⟨trivial,fun _ => quiet_none h3.1⟩
  refine follows_bind.2 ((runs_executeInner (fun _ => hheld op h1.2) h2).mono fun w3 ok h3 => ?_)
  exact ⟨h3.1.dirty,h3.2⟩

theorem runs_unguarded (hvia : via ≠ .immediate) (h : Quiet w s) (table : String) (calls : List String) :
    Runs w (storageCalls via table calls) fun w' _ => Quiet w' s ∧ Fixed w w' := by
  refine (runs_storageCalls (fun hc => (hvia hc).elim) calls).mono fun w' _ h' => ⟨h.of_eq ?_ h'.2.1,h'.1⟩
  refine eq_nil_iff_forall_not_mem.2 fun k hk => ?_
  rcases h'.2.2.1 k hk with hk | hk
  · simp [h.dirty] at hk
  · exact hvia hk.1

theorem runs_ddl (h : Quiet w s) (inCommitApply : Bool) (k : String) (rows : Nat) (buffered : Bool) :
    Applying w s (executeDml fire inCommitApply s (.ddl k rows buffered)) := by
  refine follows_bind.2 ((runs_unguarded (by decide) h _ _).mono fun w1 ok h1 => ?_)
  cases s with
  | none => exact ⟨h1.1,h1.2,rfl⟩
  | some tx =>
    cases buffered with
    | false => exact ⟨h1.1,h1.2,rfl⟩
    | true =>
      refine follows_bind.2 ((runs_addOp h1.1 _).mono fun w2 tx2 h2 => ?_)
      exact ⟨h2.1.1,h1.2.trans h2.1.2,rfl⟩

theorem runs_buffer (h : Quiet w (some tx)) (op : PendingOp) :
    Applying w (some tx) (addOp tx op >>= fun tx => pure (some tx)) :=
  follows_bind.2 ((runs_addOp h op).mono fun _ _ h1 => ⟨h1.1.1,h1.1.2,rfl⟩)

theorem free_executeDml (hfire : ∀ e s k w, Quiet w s → Free w (fire e s k)) (h : Quiet w s) (d : Dml) :
    Free w (executeDml fire false s d) := by
  have himm : ∀ op, Quiet w none → Free w (executeImmediate fire false none op >>= fun r => pure r.2) :=
    fun op h => follows_bind.2 ((runs_executeImmediate hfire h op).mono fun _ _ h1 => h1)
  have hbuf : ∀ {tx} op, Quiet w (some tx) → Free w (addOp tx op >>= fun tx => pure (some tx)) :=
    fun op h => (runs_buffer h op).mono fun _ _ h1 => h1.1
  have hread : ∀ {tx} op, Quiet w (some tx) →
      Free w (issue (.read op.mutation.table) >>= fun _ => addOp tx op >>= fun tx => pure (some tx)) :=
    fun op h => runs_issue.2 ⟨trivial,fun _ => hbuf op h⟩
  cases d with
  | select ks => exact (runs_readInTx h ks).mono fun _ _ h1 => h1.1
  | insert single op =>
    cases s with
    | some tx => exact hbuf op h
    | none =>
      cases single with
      | false => exact himm op h
      | true =>
        refine follows_bind.2 ((runs_executeUnguarded (by decide) h).mono fun w1 ok h1 => ?_)
        split
        · exact hfire _ _ _ w1 h1.1
        · exact h1.1
  | update op | delete op =>
    cases s with
    | none => exact himm op h
    | some tx => exact hread op h
  | truncate op =>
    cases s with
    | some tx => exact hbuf op h
    | none => exact follows_bind.2 ((free_truncateImmediate h.dirty op).mono fun _ _ h1 => h1)
  | merge m sources =>
    refine runs_mutateUnderTableLock h fun w1 h1 hk => ?_
    refine follows_bind.2 ((runs_readInTx h1 _).mono fun w2 s2 h2 => ?_)
    refine follows_bind.2 ((runs_executeInner (fun _ => ?_) h2.1).mono fun w3 ok h3 => h3.1)
    rw [h2.2.1.held]
    exact hk
  | copyFrom k rows => exact follows_bind.2 ((runs_executeUnguarded (by decide) h).mono fun _ _ h1 => h1.1)
  | ddl k rows buffered => exact (runs_ddl h false k rows buffered).mono fun _ _ h1 => h1.1

theorem applying_executeDml (h : Quiet w (some tx)) (d : Dml) : Applying w (some tx)
    (executeDml fire true (some tx) d) := by
  cases d with
  | select ks => exact runs_readInTx h ks
  | insert single op => exact runs_buffer h op
  | update op => exact runs_issue.2 ⟨trivial,fun _ => runs_buffer h op⟩
  | delete op => exact runs_issue.2 ⟨trivial,fun _ => runs_buffer h op⟩
  | truncate op => exact runs_buffer h op
  | merge m sources =>
    refine follows_bind.2 ((runs_readInTx h _).mono fun w1 s1 h1 => ?_)
    exact follows_bind.2 ((runs_executeUnguarded (by decide) h1.1).mono fun w2 ok h2 =>
      ⟨h2.1,h1.2.1.trans h2.2,h1.2.2⟩)
  | copyFrom k rows =>
    exact follows_bind.2 ((runs_executeUnguarded (by decide) h).mono fun _ _ h1 => ⟨h1.1,h1.2,rfl⟩)
  | ddl k rows buffered => exact runs_ddl h true k rows buffered

section
variable (hfire : ∀ e tx k w, Quiet w (some tx) → Applying w (some tx) (fire e (some tx) k))
include hfire
theorem applying_applyOp (h : Quiet w (some tx)) (hk : op.mutation.table ∈ w.held) :
    Runs w (applyOp fire (some tx) op) fun w' r => Quiet w' r.2 ∧ Fixed w w' ∧ SameTx (some tx) r.2 := by
  unfold applyOp
  split
  · exact follows_bind.2 ((runs_unguarded (by decide) h _ _).mono fun _ _ h1 => ⟨h1.1,h1.2,rfl⟩)
  · exact ⟨h,⟨rfl,rfl⟩,rfl⟩
  · exact applying_executeImmediate hfire h hk

theorem runs_applyOps
    {ops : List PendingOp} (h : Quiet w (some tx)) (hk : ∀ op ∈ ops, op.mutation.table ∈ w.held) (n : Nat) :
    Runs w (applyOps fire (some tx) n ops) fun w' _ => w'.dirty = [] ∧ Fixed w w' := by
  induction ops generalizing w tx n with
  | nil => exact ⟨h.dirty,rfl,rfl⟩
  | cons op ops ih =>
    refine follows_bind.2 ((applying_applyOp hfire h (hk op mem_cons_self)).mono fun w1 r h1 => ?_)
    obtain ⟨ok,s1⟩ := r
    cases ok with
    | false => exact ⟨h1.1.dirty,h1.2.1⟩
    | true =>
      obtain ⟨tx1,rfl⟩ := isSome_iff_exists.1 h1.2.2.symm
      refine Follows.mono (ih h1.1 (fun op hop => ?_) (n+1)) fun w2 _ h2 => ⟨h2.1,h1.2.1.trans h2.2⟩
      rw [h1.2.1.held]
      exact hk op (mem_cons_of_mem _ hop)
end
end

section
variable (triggers : OpType → String → List Dml)
theorem free_fireTriggers (depth : Nat) (e : OpType) (s : Session) (k : String) (w : Watcher) (h : Quiet w s) :
    Free w (fireTriggers triggers false depth e s k) := by
  induction depth generalizing e s k w with
  | zero => exact h
  | succ depth ih =>
    rw [fireTriggers]
    generalize triggers e k = ds
    induction ds generalizing s w with
    | nil => exact h
    | cons d ds ihds => exact follows_bind.2 (Follows.mono (free_executeDml ih h d) fun w1 s1 h1 => ihds s1 w1 h1)

theorem applying_fireTriggers (depth : Nat) (e : OpType) (tx : Transaction) (k : String) (w : Watcher)
    (h : Quiet w (some tx)) : Applying w (some tx) (fireTriggers triggers true depth e (some tx) k) := by
  cases depth with
  | zero => exact ⟨h,⟨rfl,rfl⟩,rfl⟩
  | succ depth =>
    rw [fireTriggers]
    generalize triggers e k = ds
    induction ds generalizing tx w with
    | nil => exact ⟨h,⟨rfl,rfl⟩,rfl⟩
    | cons d ds ihds =>
      refine follows_bind.2 (Follows.mono (applying_executeDml h d) fun w1 s1 h1 => ?_)
      obtain ⟨tx1,rfl⟩ := isSome_iff_exists.1 h1.2.2.symm
      exact Follows.mono (ihds tx1 w1 h1.1) fun w2 s2 h2 => ⟨h2.1,h1.2.1.trans h2.2.1,h2.2.2⟩

theorem runs_undoOps (hd : w.dirty = []) (ops : List PendingOp) : Runs w (undoOps ops) fun w' _ =>
    w'.dirty = [] := by
  induction ops generalizing w with
  | nil => exact hd
  | cons op ops ih =>
    refine follows_bind.2 ((runs_unguarded (by decide) (quiet_none hd) _ _).mono fun w1 ok h1 => ?_)
    split
    · exact ih h1.1.dirty
    · exact h1.1.dirty

theorem free_commitCommand (h : Quiet w (some tx)) : Free w (commitCommand triggers tx) := by
  refine runs_issue.2 ⟨trivial,fun readable => ?_⟩
  cases readable with
  | false => exact h
  | true =>
    refine follows_bind.2 (Follows.mono (runs_managerCommit h fun w1 h1 hk =>
      runs_applyOps (applying_fireTriggers triggers _) h1 hk 0) fun w2 r h2 => ?_)
    cases r with
    | refused => exact h2.2 rfl
    | tried n ok =>
      have hundo : ∀ ops, Free w2 (undoAppliedOps ops >>= fun _ => issue .finish >>= fun _ =>
        pure none) := fun ops =>
        follows_bind.2 ((runs_undoOps h2.1 _).mono fun _ _ h3 => ⟨trivial,fun _ => quiet_none h3⟩)
      cases ok with
      | false => exact hundo _
      | true =>
        refine runs_issue.2 ⟨trivial,fun written => ?_⟩
        cases written with
        | true => exact ⟨trivial,fun _ => quiet_none h2.1⟩
        | false => exact hundo tx.ops

theorem free_executeStatement (h : Quiet w s) (stmt : Statement) : Free w (executeStatement triggers s stmt) := by
  cases stmt with
  | begin =>
    cases s with
    | some tx => exact h
    | none => exact runs_issue.2 ⟨trivial,fun _ => quiet_begin h.dirty⟩
  | dml d => exact free_executeDml (free_fireTriggers triggers _) h d
  | rollbackToSavepoint n =>
    cases s with
    | none => exact quiet_none h.dirty
    | some tx =>
      refine ⟨h.dirty,?_,?_,?_⟩
      · rintro _ ⟨⟩ op hop
        exact h.covered tx rfl op (mem_of_mem_take hop)
      · rintro _ ⟨⟩
        exact h.snaps tx rfl
      · rintro _ ⟨⟩
        exact h.recorded tx rfl
  | commit =>
    cases s with
    | none => exact h
    | some tx => exact free_commitCommand triggers h
  | rollback =>
    cases s with
    | none => exact h
    | some tx => exact runs_issue.2 ⟨trivial,fun _ => quiet_none h.dirty⟩

theorem follows_runStatements (h : Quiet w s) (stmts : List Statement) :
    Runs w (runStatements triggers s stmts) fun _ _ => True := by
  induction stmts generalizing w s with
  | nil => trivial
  | cons stmt stmts ih =>
    exact follows_bind.2 (Follows.mono (free_executeStatement triggers h stmt) fun _ _ h1 => ih h1)
end
end
end VaultDB.Tx
