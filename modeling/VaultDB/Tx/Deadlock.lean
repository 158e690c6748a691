import Mathlib.Data.Finset.Max
import Mathlib.Data.String.Basic
import VaultDB.Tx.Conflict
set_option autoImplicit false

/-!
Commit locks and deadlock.

`Commit` takes its locks in the order of the keys.  A statement of its own keeps the lock
of its table while the triggers run, whose statements take locks as well.
-/

namespace VaultDB.Tx
open Lib List Option
variable {c : Cmd} {k : String} {cf : OccConfig} {r : c.Res} {k' : String}
def lockWanted : P Unit → Option String
  | .step (.lock k) _ => some k
  | _ => none

def Waits (cf : OccConfig) (i : Nat) (k : String) : Prop :=
  (cf.threads[i]?.bind fun th => lockWanted th.prog) = some k

def Deadlocked (cf : OccConfig) : Prop :=
  ∃ is : List Nat, is ≠ [] ∧ ∀ i ∈ is, ∃ k, Waits cf i k ∧ ∃ j ∈ is, cf.state.locks k = some j

def Dml.locks : Dml → Option String
  | .insert single op => if single then none else some op.mutation.table
  | .update op => some op.mutation.table
  | .delete op => some op.mutation.table
  | .truncate op => some op.mutation.table
  | .merge m _ => some m.table
  | _ => none

/-- The statements of a trigger take locks of later tables only; a single-row INSERT, which takes
none, may also be into the table of the trigger. -/
def Ordered (triggers : OpType → String → List Dml) : Prop :=
  ∀ e k, ∀ d ∈ triggers e k, (∀ k', d.locks = some k' → k < k') ∧ ∀ op, d = .insert true op → k ≤ op.mutation.table

def lockProtocol : Protocol Cmd Cmd.Res Watcher := ⟨fun w c => ∀ k, c = .lock k → ∀ k' ∈ w.held, k' < k,Watcher.next⟩

/-- While locks within the bound are held, a program keeps to the order and gives its own locks
back. -/
def Fit {α : Type} (b : String → Prop) (p : P α) (Q : α → Prop) : Prop :=
  ∀ w : Watcher, (∀ k ∈ w.held, b k) → Follows lockProtocol w p fun w' a => w'.held = w.held ∧ Q a

def Cmd.plain : Cmd → Bool
  | .lock _ => false
  | .unlock _ => false
  | _ => true

theorem held_next {w : Watcher} (hc : c.plain = true) (r : c.Res) : (w.next c r).held = w.held := by
  cases c with
  | lock k => cases hc
  | unlock k => cases hc
  | currentVersion k =>
    simp only [Watcher.next]
    split <;> rfl
  | mutate via k =>
    simp only [Watcher.next]
    split <;> rfl
  | _ => rfl

theorem locks_answer {s s' : State} {i : Nat} (hc : c.plain = true) (h : s.answer i c r = some s') :
    s'.locks = s.locks := by
  cases c with
  | lock k => cases hc
  | unlock k => cases hc
  | tableVersion k =>
    obtain ⟨-,⟨⟩⟩ := ite_none_right_eq_some.1 h
    rfl
  | currentVersion k =>
    obtain ⟨-,⟨⟩⟩ := ite_none_right_eq_some.1 h
    rfl
  | mutate via k =>
    cases h
    split <;> rfl
  | _ =>
    cases h
    rfl

section
variable {α β : Type} {b : String → Prop} {p : P α} {f : α → P β} {Q : α → Prop} {Q' : β → Prop}
  {w : Watcher} {ks : List String} {g : c.Res → P β}
theorem fit_pure {a : α} (h : Q a) : Fit b (pure a) Q := fun _ _ => ⟨rfl,h⟩

theorem fit_bind (hp : Fit b p Q) (hf : ∀ a, Q a → Fit b (f a) Q') : Fit b (p >>= f) Q' := by
  intro w hw
  refine follows_bind.2 ((hp w hw).mono fun w' a h => ?_)
  refine Follows.mono (hf a h.2 w' (by rwa [h.1])) fun w'' a' h' => ⟨h'.1.trans h.1,h'.2⟩

theorem fit_issue (hc : c.plain = true) : Fit b (issue c) fun _ => True := by
  refine fun _ _ => ⟨fun k hk => ?_,fun r => ⟨held_next hc r,trivial⟩⟩
  rw [hk] at hc
  cases hc

theorem fit_step (hc : c.plain = true) (hg : ∀ r, Fit b (g r) Q') :
    Fit b (issue c >>= g) Q' := fit_bind (fit_issue hc) fun r _ => hg r

theorem follows_issue {T : Watcher → β → Prop} : Follows lockProtocol w (issue c >>= g) T ↔
      (∀ k, c = .lock k → ∀ k' ∈ w.held, k' < k) ∧ ∀ r, Follows lockProtocol (w.next c r) (g r) T := Iff.rfl

theorem Fit.mono {Q1 : α → Prop} (h : Fit b p Q) (hq : ∀ a, Q a → Q1 a) : Fit b p Q1 :=
  fun w hw => (h w hw).mono fun _ a ha => ⟨ha.1,hq a ha.2⟩

theorem filter_ne_cons (h : ∀ k' ∈ ks, k' < k) : (k :: ks).filter (· ≠ k) = ks := by
  rw [filter_cons_of_neg (by simp),filter_eq_self]
  intro k' hk'
  simpa using (h k' hk').ne

theorem fit_mutateUnderTableLock (hk : ∀ k', b k' → k' < k) (h : Fit (· ≤ k) p Q) :
    Fit b (mutateUnderTableLock false k p) Q := by
  intro w hw
  have hbelow : ∀ k' ∈ w.held, k' < k := fun k' hk' => hk k' (hw k' hk')
  have hheld : ∀ k' ∈ k :: w.held, k' ≤ k := forall_mem_cons.2 ⟨le_refl k,fun k' hk' => (hbelow k' hk').le⟩
  refine follows_issue.2 ⟨fun k1 hk1 => by cases hk1; exact hbelow,fun _ => follows_bind.2 ?_⟩
  refine Follows.mono (h { w with held := k :: w.held } hheld) fun w1 a h1 => ?_
  refine follows_issue.2 ⟨fun k1 hk1 => (by cases hk1),fun _ => ⟨?_,h1.2⟩⟩
  show w1.held.filter (· ≠ k) = w.held
  rw [h1.1]
  exact filter_ne_cons hbelow

theorem follows_lockTables (hs : ks.Pairwise (· < ·)) (hw : ∀ k ∈ ks, ∀ k' ∈ w.held, k' < k) :
    Follows lockProtocol w (lockTables ks) fun w' _ => w'.held = ks.reverse++w.held := by
  induction ks generalizing w with
  | nil => rfl
  | cons k ks ih =>
    rw [forall_mem_cons] at hw
    rw [pairwise_cons] at hs
    refine follows_issue.2 ⟨fun k1 hk1 => by cases hk1; exact hw.1,fun _ => ?_⟩
    refine Follows.mono (ih hs.2 fun k1 hk1 => ?_) fun w' _ h' => ?_
    · exact forall_mem_cons.2 ⟨hs.1 k1 hk1,hw.2 k1 hk1⟩
    · rw [h',reverse_cons,append_assoc]
      rfl

theorem follows_unlockTables {rest : List String} (hs : ks.Pairwise (· > ·))
    (hr : ∀ k ∈ ks, ∀ k' ∈ rest, k' < k) (hw : w.held = ks++rest) :
    Follows lockProtocol w (unlockTables ks) fun w' _ => w'.held = rest := by
  induction ks generalizing w with
  | nil => exact hw
  | cons k ks ih =>
    rw [pairwise_cons] at hs
    rw [forall_mem_cons] at hr
    refine follows_issue.2 ⟨fun k1 hk1 => (by cases hk1),fun _ => ih hs.2 hr.2 ?_⟩
    show w.held.filter (· ≠ k) = ks++rest
    rw [hw]
    exact filter_ne_cons fun k' hk' => (mem_append.1 hk').elim (hs.1 k') (hr.1 k')
end

section
variable {b : String → Prop} {tx : Transaction} {s : Session}
def Tidy (s : Session) : Prop := ∀ tx ∈ s, (tx.snapshots.map Prod.fst).Nodup

theorem fit_recordAccess (h : Tidy (some tx)) (k : String) : Fit b (recordAccess tx k) fun tx' =>
    Tidy (some tx') := by
  unfold recordAccess
  split
  · exact fit_pure h
  · rename_i hk
    refine fit_step rfl fun v => fit_pure ?_
    rintro _ ⟨⟩
    rw [map_append,nodup_append]
    refine ⟨h tx rfl,by simp,fun k1 hk1 k2 hk2 heq => ?_⟩
    obtain ⟨x,hx,rfl⟩ := mem_map.1 hk1
    refine hk (any_eq_true.2 ⟨x,hx,?_⟩)
    simpa [heq] using hk2

theorem fit_addOp (h : Tidy (some tx)) (op : PendingOp) : Fit b (addOp tx op) fun tx' => Tidy (some tx') := by
  refine fit_bind (fit_recordAccess h _) fun tx1 h1 => fit_pure ?_
  rintro _ ⟨⟩
  exact h1 tx1 rfl

theorem fit_readTables (h : Tidy (some tx)) (ks : List String) : Fit b (readTables tx ks) fun tx' =>
    Tidy (some tx') := by
  induction ks generalizing tx with
  | nil => exact fit_pure h
  | cons k ks ih => refine fit_step rfl fun _ => fit_bind (fit_recordAccess h k) fun tx1 h1 => ih h1

def Stays (s s' : Session) : Prop := Tidy s' ∧ (s.isSome → s'.isSome)

theorem fit_readInTx (h : Tidy s) (ks : List String) : Fit b (readInTx s ks) (Stays s) := by
  cases s with
  | none => exact fit_pure ⟨h,id⟩
  | some tx => exact fit_bind (fit_readTables h ks) fun tx1 h1 => fit_pure ⟨h1,fun _ => rfl⟩

theorem fit_buffer (h : Tidy (some tx)) (op : PendingOp) :
    Fit b (addOp tx op >>= fun tx => pure (some tx)) (Stays (some tx)) :=
  fit_bind (fit_addOp h op) fun _ h1 => fit_pure ⟨h1,fun _ => rfl⟩

theorem fit_storageCalls (via : Via) (table : String) (calls : List String) :
    Fit b (storageCalls via table calls) fun _ => True := by
  induction calls with
  | nil => exact fit_pure trivial
  | cons k calls ih =>
    refine fit_step rfl fun o => ?_
    split
    · exact ih
    · exact fit_pure trivial

theorem fit_executeInner (via : Via) (m : Mutation) : Fit b (executeInner via m) fun _ => True := by
  refine fit_bind (fit_storageCalls _ _ _) fun ok _ => ?_
  split
  · exact fit_step rfl fun _ => fit_pure trivial
  · exact fit_pure trivial

theorem fit_versionsUnchanged (tables : List (String × Nat)) : Fit b (versionsUnchanged tables) fun _ => True := by
  induction tables with
  | nil => exact fit_pure trivial
  | cons x tables ih =>
    refine fit_step rfl fun current => ?_
    split
    · exact ih
    · exact fit_pure trivial

theorem sorted_pairwise (h : Tidy (some tx)) : (tx.sorted.map Prod.fst).Pairwise (· < ·) := by
  have hperm : tx.sorted.Perm tx.snapshots := perm_insertionSort _ _
  have hle : (tx.sorted.map Prod.fst).Pairwise (· ≤ ·) :=
    pairwise_map.2 (pairwise_insertionSort (fun a b : String × Nat => a.1 ≤ b.1) tx.snapshots)
  have hne : (tx.sorted.map Prod.fst).Nodup := (hperm.map Prod.fst).nodup_iff.2 (h tx rfl)
  exact hle.imp₂ (fun _ _ => lt_of_le_of_ne) hne

theorem fit_managerCommit {applyFn : List PendingOp → P (Nat × Bool)} (h : Tidy (some tx))
    (hb : ∀ x ∈ tx.snapshots, ∀ k', b k' → k' < x.1) (hfn : Fit (fun _ => True) (applyFn tx.ops) fun _ => True) :
    Fit b (managerCommit tx applyFn) fun _ => True := by
  refine fit_step rfl fun cycle => ?_
  split
  · exact fit_pure trivial
  intro w hw
  have hsorted := sorted_pairwise h
  have habove : ∀ k ∈ tx.sorted.map Prod.fst, ∀ k' ∈ w.held, k' < k := by
    intro k hk k' hk'
    obtain ⟨x,hx,rfl⟩ := mem_map.1 hk
    exact hb x (mem_sorted.1 hx) k' (hw k' hk')
  refine follows_bind.2 ((follows_lockTables hsorted habove).mono fun w1 _ h1 => ?_)
  -- whatever happens under the locks, they are all given back in the end
  have hend : ∀ {w2 : Watcher} (r : Committed), w2.held = w1.held →
      Follows lockProtocol w2 (unlockTables (tx.sorted.map (·.1)).reverse >>= fun _ => pure r)
        fun w' _ => w'.held = w.held ∧ True := by
    intro w2 r h2
    refine follows_bind.2 ((follows_unlockTables ?_ ?_ (h2.trans h1)).mono fun _ _ h3 => ⟨h3,trivial⟩)
    · exact pairwise_reverse.2 hsorted
    · exact fun k hk => habove k (mem_reverse.1 hk)
  refine follows_bind.2 ((fit_versionsUnchanged _ w1 fun _ _ => trivial).mono fun w2 same h2 => ?_)
  cases same with
  | false => exact hend .refused h2.1
  | true =>
    refine follows_issue.2 ⟨fun k1 hk1 => (by cases hk1),fun readable => ?_⟩
    cases readable with
    | false => exact hend .refused h2.1
    | true =>
      refine follows_bind.2 ((hfn w2 fun _ _ => trivial).mono fun w3 r h3 => ?_)
      obtain ⟨n,ok⟩ := r
      have hheld := h3.1.trans h2.1
      cases ok with
      | false => exact hend (.tried n false) hheld
      | true => exact follows_issue.2 ⟨fun k1 hk1 => (by cases hk1),fun _ => hend (.tried n true) hheld⟩

section
variable {fire : OpType → Session → String → P Session} {op : PendingOp} {inCommitApply : Bool} {d : Dml}
theorem fit_executeImmediate (hfire : ∀ e s k, Tidy s → Fit (· ≤ k) (fire e s k) (Stays s)) (hs : Tidy s)
    (hb : ∀ k', b k' → k' < op.mutation.table) : Fit b (executeImmediate fire false s op) fun r => Stays s r.2 := by
  refine fit_mutateUnderTableLock hb (fit_bind (fit_executeInner _ _) fun ok _ => ?_)
  split
  · exact fit_bind (hfire _ _ _ hs) fun _ h1 => fit_pure h1
  · exact fit_pure ⟨hs,id⟩

theorem tidy_none : Tidy none := nofun

theorem tidy_begin : Tidy (some {}) := by
  rintro _ ⟨⟩
  exact nodup_nil

theorem fit_truncateImmediate (hb : ∀ k', b k' → k' < op.mutation.table) :
    Fit b (truncateImmediate op) fun _ => True := by
  refine fit_step rfl fun _ => ?_
  have hadd : addOp {} op = issue (.tableVersion op.mutation.table) >>= fun v =>
      pure { snapshots := [(op.mutation.table,v)], ops := [op] } := rfl
  rw [hadd]
  refine fit_bind (Q := fun tx => ∃ v, tx.snapshots = [(op.mutation.table,v)])
    (fit_step rfl fun v => fit_pure ⟨v,rfl⟩) fun tx htx => ?_
  obtain ⟨v,hv⟩ := htx
  have htidy : Tidy (some tx) := by
    rintro _ ⟨⟩
    simp [hv]
  refine fit_bind (fit_managerCommit htidy (fun x hx => ?_) ?_) fun _ _ => fit_issue rfl
  · rw [hv,mem_singleton] at hx
    rw [hx]
    exact hb
  · exact fit_bind (fit_executeInner _ _) fun _ _ => fit_pure trivial

theorem fit_ddl (h : Tidy s) (inCommitApply : Bool) (k : String) (rows : Nat) (buffered : Bool) :
    Fit b (executeDml fire inCommitApply s (.ddl k rows buffered)) (Stays s) := by
  refine fit_bind (fit_storageCalls _ _ _) fun ok _ => ?_
  cases s with
  | none => exact fit_pure ⟨h,id⟩
  | some tx =>
    cases buffered with
    | false => exact fit_pure ⟨h,id⟩
    | true => exact fit_buffer h _

theorem fit_merge {m : Mutation} {sources : List String} (h : Tidy s)
    (hm : inCommitApply = false → ∀ k', b k' → k' < m.table) :
    Fit b (executeDml fire inCommitApply s (.merge m sources)) (Stays s) := by
  have hbody : ∀ {b' : String → Prop} (via : Via), Fit b' (readInTx s (m.table :: sources) >>= fun s =>
      executeInner via m >>= fun _ => pure s) (Stays s) := fun via =>
    fit_bind (fit_readInTx h _) fun _ h1 => fit_bind (fit_executeInner _ _) fun _ _ => fit_pure h1
  cases inCommitApply with
  | true => exact hbody _
  | false => exact fit_mutateUnderTableLock (hm rfl) (hbody _)

theorem fit_inTx (h : Tidy (some tx))
    (hm : inCommitApply = false → ∀ m sources, d = .merge m sources → ∀ k', b k' → k' < m.table) :
    Fit b (executeDml fire inCommitApply (some tx) d) (Stays (some tx)) := by
  cases d with
  | select ks => exact fit_readInTx h ks
  | insert single op => exact fit_buffer h op
  | update op => exact fit_step rfl fun _ => fit_buffer h op
  | delete op => exact fit_step rfl fun _ => fit_buffer h op
  | truncate op => exact fit_buffer h op
  | merge m sources => exact fit_merge h fun hc => hm hc m sources rfl
  | copyFrom k rows => exact fit_bind (fit_executeInner _ _) fun _ _ => fit_pure ⟨h,id⟩
  | ddl k rows buffered => exact fit_ddl h inCommitApply k rows buffered

theorem fit_executeDml (hfire : ∀ e s k, Tidy s → Fit (· ≤ k) (fire e s k) (Stays s)) (hs : Tidy s)
    (hl : ∀ k, d.locks = some k → ∀ k', b k' → k' < k)
    (hi : ∀ op, d = .insert true op → ∀ k', b k' → k' ≤ op.mutation.table) :
    Fit b (executeDml fire false s d) (Stays s) := by
  have himm : ∀ op : PendingOp, (∀ k', b k' → k' < op.mutation.table) →
      Fit b (executeImmediate fire false none op >>= fun r => pure r.2) (Stays none) := fun op hb =>
    fit_bind (fit_executeImmediate hfire tidy_none hb) fun _ h1 => fit_pure h1
  cases s with
  | some tx => exact fit_inTx hs fun _ m sources hd => hl _ (by rw [hd]; rfl)
  | none =>
    cases d with
    | select ks => exact fit_readInTx hs ks
    | insert single op =>
      cases single with
      | false => exact himm op (hl _ rfl)
      | true =>
        refine fit_bind (fit_executeInner _ _) fun ok _ => ?_
        split
        · exact fun w hw => hfire _ _ _ hs w fun k hk => hi op rfl k (hw k hk)
        · exact fit_pure ⟨hs,id⟩
    | update op => exact himm op (hl _ rfl)
    | delete op => exact himm op (hl _ rfl)
    | truncate op => exact fit_bind (fit_truncateImmediate (hl _ rfl)) fun _ _ => fit_pure ⟨hs,id⟩
    | merge m sources => exact fit_merge hs fun _ => hl _ rfl
    | copyFrom k rows => exact fit_bind (fit_executeInner _ _) fun _ _ => fit_pure ⟨hs,id⟩
    | ddl k rows buffered => exact fit_ddl hs false k rows buffered
end

section
variable {triggers : OpType → String → List Dml}
theorem Stays.trans {s1 s2 : Session} (h : Stays s s1) (h' : Stays s1 s2) : Stays s s2 :=
  ⟨h'.1,fun hs => h'.2 (h.2 hs)⟩

theorem fit_fireTriggers (ho : Ordered triggers) (depth : Nat) (e : OpType) (s : Session)
    (k : String) (hs : Tidy s) :
    Fit (· ≤ k) (fireTriggers triggers false depth e s k) (Stays s) := by
  induction depth generalizing e s k with
  | zero => exact fit_pure ⟨hs,id⟩
  | succ depth ih =>
    rw [fireTriggers]
    have hds := ho e k
    generalize triggers e k = ds at hds
    induction ds generalizing s with
    | nil => exact fit_pure ⟨hs,id⟩
    | cons d ds ihds =>
      rw [forall_mem_cons] at hds
      refine fit_bind (fit_executeDml ih hs (fun k1 hk1 k' hk' => ?_) fun op hop k' hk' => ?_) fun s1 h1 => ?_
      · exact lt_of_le_of_lt hk' (hds.1.1 k1 hk1)
      · exact le_trans hk' (hds.1.2 op hop)
      · exact (ihds s1 h1.1 hds.2).mono fun _ h2 => h1.trans h2

theorem fit_fireApplying (depth : Nat) (e : OpType) (k : String) (hs : Tidy s) (hopen : s.isSome) :
    Fit b (fireTriggers triggers true depth e s k) (Stays s) := by
  cases depth with
  | zero => exact fit_pure ⟨hs,id⟩
  | succ depth =>
    rw [fireTriggers]
    generalize triggers e k = ds
    induction ds generalizing s with
    | nil => exact fit_pure ⟨hs,id⟩
    | cons d ds ihds =>
      obtain ⟨tx,rfl⟩ := isSome_iff_exists.1 hopen
      exact fit_bind (fit_inTx hs (by simp)) fun s1 h1 => (ihds h1.1 (h1.2 rfl)).mono fun _ h2 => h1.trans h2

theorem fit_applyOps (hs : Tidy s) (hopen : s.isSome) (n depth : Nat) (ops : List PendingOp) :
    Fit b (applyOps (fireTriggers triggers true depth) s n ops) fun _ => True := by
  induction ops generalizing s n with
  | nil => exact fit_pure trivial
  | cons op ops ih =>
    have happly : Fit b (applyOp (fireTriggers triggers true depth) s op) fun r => Stays s r.2 := by
      unfold applyOp
      split
      · exact fit_bind (fit_storageCalls _ _ _) fun _ _ => fit_pure ⟨hs,id⟩
      · exact fit_pure ⟨hs,id⟩
      · refine fit_bind (fit_executeInner _ _) fun ok _ => ?_
        split
        · exact fit_bind (fit_fireApplying _ _ _ hs hopen) fun _ h1 => fit_pure h1
        · exact fit_pure ⟨hs,id⟩
    refine fit_bind happly fun r h1 => ?_
    obtain ⟨ok,s1⟩ := r
    dsimp only
    split
    · exact ih h1.1 (h1.2 hopen) (n+1)
    · exact fit_pure trivial

theorem fit_undoOps (ops : List PendingOp) : Fit b (undoOps ops) fun _ => True := by
  induction ops with
  | nil => exact fit_pure trivial
  | cons op ops ih =>
    refine fit_bind (fit_storageCalls _ _ _) fun ok _ => ?_
    split
    · exact ih
    · exact fit_pure trivial

def Unlocked : String → Prop := fun _ => False

theorem fit_commitCommand (h : Tidy (some tx)) : Fit Unlocked (commitCommand triggers tx) Tidy := by
  refine fit_step rfl fun readable => ?_
  split
  · refine fit_bind (fit_managerCommit h (fun _ _ _ hk => hk.elim) (fit_applyOps h rfl _ _ _)) fun r _ => ?_
    have hundo : ∀ ops, Fit Unlocked (undoAppliedOps ops >>= fun _ => issue .finish >>= fun _ => pure none) Tidy :=
      fun ops => fit_bind (fit_undoOps _) fun _ _ => fit_step rfl fun _ => fit_pure tidy_none
    cases r with
    | refused => exact fit_pure h
    | tried n ok =>
      cases ok with
      | false => exact hundo _
      | true =>
        refine fit_step rfl fun written => ?_
        cases written with
        | true => exact fit_step rfl fun _ => fit_pure tidy_none
        | false => exact hundo tx.ops
  · exact fit_pure h

theorem fit_executeStatement (ho : Ordered triggers) (hs : Tidy s) (stmt : Statement) :
    Fit Unlocked (executeStatement triggers s stmt) Tidy := by
  cases stmt with
  | begin =>
    cases s with
    | some tx => exact fit_pure hs
    | none => exact fit_step rfl fun _ => fit_pure tidy_begin
  | dml d =>
    exact (fit_executeDml (fit_fireTriggers ho _) hs (fun _ _ _ hk => hk.elim) fun _ _ _ hk => hk.elim).mono
      fun _ h1 => h1.1
  | rollbackToSavepoint n =>
    refine fit_pure ?_
    rintro _ htx
    obtain ⟨tx,rfl,rfl⟩ := map_eq_some_iff.1 htx
    exact hs tx rfl
  | commit =>
    cases s with
    | none => exact fit_pure hs
    | some tx => exact fit_commitCommand hs
  | rollback =>
    cases s with
    | none => exact fit_pure hs
    | some tx => exact fit_step rfl fun _ => fit_pure tidy_none

theorem fit_runStatements (ho : Ordered triggers) (hs : Tidy s) (stmts : List Statement) :
    Fit Unlocked (runStatements triggers s stmts) fun _ => True := by
  induction stmts generalizing s with
  | nil => exact fit_pure trivial
  | cons stmt stmts ih => exact fit_bind (fit_executeStatement ho hs stmt) fun _ h1 => ih h1
end
end

section
variable {ws : List (Unit × Watcher)} {i : Nat} {w : Watcher} {s s' : State}
def Known (s : State) (W : Nat → Option Watcher) : Prop := ∀ k i, s.locks k = some i → Holds W i k

theorem Known.run (h : Known s (watcherAt ws)) (hi : ws[i]? = some ((),w))
    (hex : s.answer i c r = some s') : Known s' (watcherAt (ws.set i ((),w.next c r))) := by
  rw [watcherAt_set hi]
  have hplain : c.plain = true → Known s' (setWatcher (watcherAt ws) i (w.next c r)) := by
    intro hc k j hj
    rw [locks_answer hc hex] at hj
    exact (holds_kept (watcherAt_eq hi) (held_next hc r)).2 (h k j hj)
  cases c with
  | lock k =>
    obtain ⟨-,⟨⟩⟩ := ite_none_right_eq_some.1 hex
    intro k' j hj
    simp only [State.setLock] at hj
    split at hj
    · rename_i hk
      cases hj
      rw [holds_self,hk]
      exact mem_cons_self
    · by_cases hji : j = i
      · obtain ⟨v,hv,hm⟩ := h k' j hj
        rw [hji,watcherAt_eq hi] at hv
        cases hv
        rw [hji,holds_self]
        exact mem_cons_of_mem _ hm
      · exact (holds_ne hji).2 (h k' j hj)
  | unlock k =>
    obtain ⟨-,⟨⟩⟩ := ite_none_right_eq_some.1 hex
    intro k' j hj
    simp only [State.setLock] at hj
    split at hj
    · cases hj
    · rename_i hk
      by_cases hji : j = i
      · obtain ⟨v,hv,hm⟩ := h k' j hj
        rw [hji,watcherAt_eq hi] at hv
        cases hv
        rw [hji,holds_self]
        exact mem_filter.2 ⟨hm,by simpa using hk⟩
      · exact (holds_ne hji).2 (h k' j hj)
  | _ => exact hplain rfl

theorem Known.spawn (h : Known s (watcherAt ws)) : Known s (watcherAt (ws++[((),({} : Watcher))])) := by
  rw [watcherAt_append]
  intro k i hi
  have hk := h k i hi
  have hne : i ≠ ws.length := by
    rintro rfl
    obtain ⟨v,hv,-⟩ := hk
    simp [watcherAt] at hv
  exact (holds_ne hne).2 hk

theorem held_lt (h : cf.Obeys lockProtocol fun _ => True) (hw : Waits cf i k)
    (hh : Holds (watcherAt cf.watchers) i k') : k' < k := by
  obtain ⟨th,hth,hwant⟩ := bind_eq_some_iff.1 hw
  obtain ⟨v,hv,hk'⟩ := hh
  have hwatch : v = th.watcher := by simpa [watcherAt,Config.watchers,hth] using hv.symm
  have hf := h th (mem_of_getElem? hth)
  cases hp : th.prog with
  | ret a => simp [hp,lockWanted] at hwant
  | step c f =>
    obtain rfl : c = .lock k := by
      rw [hp] at hwant
      cases c <;> simp_all [lockWanted]
    rw [hp] at hf
    exact hf.1 k rfl k' (hwatch ▸ hk')

theorem not_deadlocked (h : Known cf.state (watcherAt cf.watchers))
    (ho : cf.Obeys lockProtocol fun _ => True) : ¬ Deadlocked cf := by
  rintro ⟨is,hne,hall⟩
  choose! want hwant using hall
  -- the session that waits for the last of the keys waits for one that waits for a later one
  obtain ⟨m,hm,hmax⟩ := Finset.exists_max_image is.toFinset want (toFinset_nonempty_iff is |>.2 hne)
  obtain ⟨hwaits,j,hj,hlock⟩ := hwant m (mem_toFinset.1 hm)
  have hlt : want m < want j := held_lt ho (hwant j hj).1 (h _ _ hlock)
  exact absurd (hmax j (mem_toFinset.2 hj)) (not_le.2 hlt)
end

/-- Where the triggers follow the order of the keys, no state that sessions reach is a deadlock. -/
theorem no_deadlock {triggers : OpType → String → List Dml} (ho : Ordered triggers) {s₀ : State}
    (hlocks : ∀ k, s₀.locks k = none) {cf : OccConfig} (h : (occMachine triggers).Reach (fun _ _ => True) s₀ cf) :
    ¬ Deadlocked cf := by
  have hstart : ∀ t p, (occMachine triggers).start t p →
      Follows lockProtocol (occMachine triggers).fresh p fun _ _ => True := by
    rintro _ p ⟨stmts,rfl⟩
    exact (fit_runStatements ho tidy_none stmts {} (by simp)).mono fun _ _ _ => trivial
  have hinit : Known s₀ (watcherAt []) := by
    intro k i hk
    rw [hlocks] at hk
    cases hk
  obtain ⟨hknown,hobeys⟩ := Machine.Reach.inv hstart (fun s ws => Known s (watcherAt ws)) hinit
    (fun _ _ _ hJ _ _ => hJ.spawn) (fun _ _ _ _ _ _ _ hJ hi _ hex _ => hJ.run hi hex) (fun _ e => e.elim)
    (h.restrict lockProtocol.allowed)
  exact not_deadlocked hknown hobeys

def updateOf (k : String) : Dml := .update ⟨.update,⟨k,[k],true⟩,1⟩

def updateTrigger (k k' : String) : OpType → String → List Dml :=
  fun e table => if e = .update ∧ table = k then [updateOf k'] else []

theorem ordered_updateTrigger (h : k < k') : Ordered (updateTrigger k k') := by
  intro e table d hd
  unfold updateTrigger at hd
  split at hd
  · rename_i he
    obtain rfl := mem_singleton.1 hd
    refine ⟨fun k1 hk1 => ?_,fun op hop => by cases hop⟩
    obtain rfl : k' = k1 := some.inj hk1
    rw [he.2]
    exact h
  · cases hd

def started (triggers : OpType → String → List Dml) (ss : List (List Statement)) : OccConfig :=
  ⟨{},(occMachine triggers).starting (ss.map fun stmts => ((),runStatements triggers none stmts))⟩

theorem reach_started {triggers : OpType → String → List Dml} (ss : List (List Statement)) {is : List Nat}
    (h : (occMachine triggers).play (fun i _ s c => s.proceed i c) (fun _ _ => true)
      (started triggers ss) is = some cf) : (occMachine triggers).Reach (fun _ _ => True) {} cf := by
  refine reach_proceed (fun _ _ _ => trivial) (Machine.Reach.spawned (fun _ _ _ => trivial) .init fun x hx => ?_) h
  obtain ⟨stmts,-,rfl⟩ := mem_map.1 hx
  exact ⟨stmts,rfl⟩

/-- A trigger that updates its own table waits for the lock of the statement that fired it. -/
theorem trigger_waits_for_itself : ∃ cf,
    (occMachine (updateTrigger "app/t" "app/t")).Reach (fun _ _ => True) {} cf ∧ Deadlocked cf := by
  have hplay : ((occMachine (updateTrigger "app/t" "app/t")).play (fun i _ s c => s.proceed i c) (fun _ _ => true)
      (started (updateTrigger "app/t" "app/t") [[.dml (updateOf "app/t")]]) [0,0,0]).map
        (fun cf => (cf.threads[0]?.bind fun th => lockWanted th.prog,cf.state.locks "app/t")) =
      some (some "app/t",some 0) := by
    decide +kernel
  obtain ⟨cf,hcf,h⟩ := map_eq_some_iff.1 hplay
  obtain ⟨hwait,hlock⟩ := Prod.mk.inj h
  refine ⟨cf,reach_started _ hcf,[0],by simp,fun i hi => ?_⟩
  rw [mem_singleton.1 hi]
  exact ⟨"app/t",hwait,0,by simp,hlock⟩

/-- A trigger on "app/a" updates "app/b" while a transaction that has changed both commits. -/
theorem no_deadlock_in_order : ∃ cf, (occMachine (updateTrigger "app/a" "app/b")).Reach (fun _ _ => True) {} cf ∧
      Waits cf 1 "app/a" ∧ cf.state.locks "app/a" = some 0 ∧ ¬ Deadlocked cf := by
  have hplay : ((occMachine (updateTrigger "app/a" "app/b")).play (fun i _ s c => s.proceed i c) (fun _ _ => true)
      (started (updateTrigger "app/a" "app/b") [[.dml (updateOf "app/a")],
        [.begin,.dml (updateOf "app/b"),.dml (updateOf "app/a"),.commit]]) [0,0,0,1,1,1,1,1,1,1]).map
        (fun cf => (cf.threads[1]?.bind fun th => lockWanted th.prog,cf.state.locks "app/a")) =
      some (some "app/a",some 0) := by
    decide +kernel
  obtain ⟨cf,hcf,h⟩ := map_eq_some_iff.1 hplay
  obtain ⟨hwait,hlock⟩ := Prod.mk.inj h
  have hreach := reach_started _ hcf
  exact ⟨cf,hreach,hwait,hlock,no_deadlock (ordered_updateTrigger (by decide)) (fun _ => rfl) hreach⟩

end VaultDB.Tx
