import VaultDB.Storage.Crash
import VaultDB.Storage.Snapshot
set_option autoImplicit false

/-!
A crash while a transaction is being applied.

`CommitCommand` runs the pending operations one after another, and every engine call among them is a
statement with an id and a commit record of its own.
-/

namespace VaultDB.Storage
open Wal Lib List Option
variable {base : Base} {cf cf' : RowConfig} {ev : Event Cmd Cmd.Res TableKey EnvEvent}
def AllOrNone (w : List Entry) (xs : List Nat) : Prop := (∀ x ∈ xs, ⟨x,.commit⟩ ∈ w) ∨ ∀ x ∈ xs, ⟨x,.commit⟩ ∉ w

theorem Engine.Shape.wal_cases {i : Nat} {k : TableKey} {s s' : Engine} {c : Cmd} {r : c.Res}
    (h : s.Shape i k c r s') : s'.wal = s.wal ∨ ∃ e, s'.wal = s.wal++[e] := by
  cases h with
  | syncCatalog => exact .inl (s.syncCatalog_eq _).2.1
  | logFail _ hs =>
    rcases hs with rfl | ⟨x,op,rfl⟩
    · exact .inl rfl
    · exact .inr ⟨_,rfl⟩
  | logInsert | logDelete | logCommit => exact .inr ⟨_,rfl⟩
  | _ => exact .inl rfl

theorem wal_step {V : Type} [BEq V] {R : RowOps V}
    (hs : (rowMachine R).Step cf ev cf') (hok : RecoverableStep base cf ev) :
    cf'.state.wal = cf.state.wal ∨ ∃ e, cf'.state.wal = cf.state.wal++[e] := by
  cases hs with
  | spawn => exact .inl rfl
  | run _ he => exact (Engine.shape he).wal_cases
  | env he =>
    refine .inl (Engine.Env.wal he ?_)
    rintro rfl
    exact hok

/-- Engine calls one after another; the answer to a call is whether it has succeeded. -/
abbrev Calls := Prog (TableKey × Exec Int) fun _ => Bool

section
variable {Op : Type} (perform undo : Op → Calls Bool)
/-- How many operations were applied, and whether all were. -/
def applyOps (n : Nat) : List Op → Calls (Nat × Bool)
  | [] => pure (n,true)
  | op :: ops => do
    if ← perform op then applyOps (n+1) ops else pure (n,false)

def undoLast : List Op → Calls Bool
  | [] => pure true
  | op :: ops => do
    if ← undo op then undoLast ops else pure false

def undoAppliedOps (ops : List Op) : Calls Bool := undoLast undo ops.reverse

/-- What `CommitCommand` asks of the engine; `logged` is whether `AppendCommitSync` can write its
record, which carries the id of the transaction manager and nothing recovery connects with the
calls. -/
def commitCommand (logged : Bool) (ops : List Op) : Calls Bool := do
  let (applied,ok) ← applyOps perform 0 ops
  if ok && logged then
    pure true
  else
    let _ ← undoAppliedOps undo (if ok then ops else ops.take applied)
    pure false

def AtMostOneCall {α : Type} : Calls α → Prop
  | .ret _ => True
  | .step _ f => ∀ r, ∃ a, f r = .ret a

/-- No pending operation, or one that makes no second engine call (by a cascade or a trigger). -/
def Single (ops : List Op) : Prop := ops = [] ∨ ∃ op, ops = [op] ∧ AtMostOneCall (perform op)

/-- With one operation there is nothing to undo. -/
theorem commitCommand_singleton (op : Op) : commitCommand perform undo true [op] = perform op := by
  show ((perform op).bind _).bind _ = _
  rw [Prog.bind_bind]
  refine (congrArg (perform op).bind (funext fun ok => ?_)).trans (Prog.bind_ret _)
  cases ok with
  | true => rfl
  | false => rfl

theorem atMostOneCall_commitCommand {ops : List Op} (h : Single perform ops) :
    AtMostOneCall (commitCommand perform undo true ops) := by
  rcases h with rfl | ⟨op,rfl,h⟩
  · trivial
  · rw [commitCommand_singleton]
    exact h
end

section
variable {V : Type} [BEq V] (R : RowOps V) (base : Base)
/-- A COMMIT in the machine, among other statements: each call starts a statement, and the next one
waits until that has returned.  The list has the threads of the calls. -/
inductive Applying {α : Type} : Calls α → RowConfig → List Nat → RowConfig → Prop where
  | ret {a : α} {cf cf' : RowConfig} : (rowMachine R).Run (RecoverableStep base) cf cf' → Applying (.ret a) cf [] cf'
  | call {k : TableKey} {x : Exec Int} {f : Bool → Calls α} {r : Bool} {cf cf1 cf2 cf' : RowConfig}
      {th : Thread Cmd Cmd.Res Watcher TableKey} {is : List Nat} : (rowMachine R).Run (RecoverableStep base) cf cf1 →
      RowStatement R k x →
      (rowMachine R).Run (RecoverableStep base) ⟨cf1.state,cf1.threads++[⟨k,{},x.toProg⟩]⟩ cf2 →
      cf2.threads[cf1.threads.length]? = some th → th.prog = .ret () → Applying (f r) cf2 is cf' →
      Applying (.step (k,x) f) cf (cf1.threads.length :: is) cf'
end

/-- The ids of the calls that have changed rows. -/
def RowConfig.changes (cf : RowConfig) (is : List Nat) : List Nat :=
  is.filterMap fun i => ((cf.watchers[i]?).bind fun x => x.2.tx).filter fun x => ⟨x,.commit⟩ ∈ cf.state.wal

section
variable {V : Type} [BEq V] {R : RowOps V} {s₀ : Engine} {cf₀ : RowConfig}
theorem length_threads_step (hs : (rowMachine R).Step cf ev cf') : cf.threads.length ≤ cf'.threads.length := by
  cases hs with
  | spawn => simp
  | run => simp
  | env => exact le_refl _

theorem length_threads_run (h : (rowMachine R).Run (RecoverableStep base) cf cf') :
    cf.threads.length ≤ cf'.threads.length := by
  induction h with
  | refl => exact le_refl _
  | step _ hs _ ih => exact ih.trans (length_threads_step hs)

namespace Applying
variable {α : Type} {p : Calls α} {is : List Nat}
theorem run (h : Applying R base p cf is cf') : (rowMachine R).Run (RecoverableStep base) cf cf' := by
  induction h with
  | ret h => exact h
  | call h1 hx h2 _ _ _ ih => exact ((Machine.Run.step h1 (.spawn ⟨_,hx,rfl⟩) trivial).trans h2).trans ih

theorem threads (h : Applying R base p cf is cf') : (∀ i ∈ is, cf.threads.length ≤ i) ∧ is.Nodup := by
  induction h with
  | ret => simp
  | call h1 _ h2 _ _ _ ih =>
    have hle := length_threads_run h1
    have hlt := length_threads_run h2
    simp only [length_append,length_singleton] at hlt
    refine ⟨fun i hi => ?_,nodup_cons.2 ⟨fun hmem => ?_,ih.2⟩⟩
    · rcases mem_cons.1 hi with rfl | hi
      · exact hle
      · have := ih.1 i hi
        omega
    · have := ih.1 _ hmem
      omega

theorem length_le_one (h : Applying R base p cf is cf') (hp : AtMostOneCall p) : is.length ≤ 1 := by
  cases h with
  | ret => simp
  | @call _ _ f r _ _ _ _ _ is _ _ _ _ _ h =>
    obtain ⟨a,ha⟩ := hp r
    rw [ha] at h
    cases h
    simp

end Applying

theorem tx_step (hobeys : cf.Obeys rowProtocol fun g => g.Done fun _ => False)
    (hs : (rowMachine R).Step cf ev cf') {j : Nat} {k : TableKey} {g : Watcher} {x : Nat}
    (hj : cf.watchers[j]? = some (k,g)) (hx : g.tx = some x) :
    ∃ g', cf'.watchers[j]? = some (k,g') ∧ g'.tx = some x := by
  cases hs with
  | spawn =>
    refine ⟨g,?_,hx⟩
    rw [Config.watchers] at hj
    rw [Config.watchers,map_append,getElem?_append_left (List.getElem?_eq_some_iff.1 hj).1]
    exact hj
  | @run i t g' c f r s hi he =>
    have hset : (⟨s,cf.threads.set i ⟨t,rowProtocol.next g' c r,f r⟩⟩ : RowConfig).watchers =
        cf.watchers.set i (t,g'.next c r) := by
      simp only [Config.watchers,map_set]
      rfl
    have hi' : cf.watchers[i]? = some (t,g') := by simp [Config.watchers,hi]
    have hallowed : g'.allowed c := (hobeys _ (mem_of_getElem? hi)).1
    show ∃ g'', (⟨s,cf.threads.set i ⟨t,rowProtocol.next g' c r,f r⟩⟩ : RowConfig).watchers[j]? = some (k,g'') ∧ _
    rw [hset]
    by_cases hij : i = j
    · subst hij
      rw [hi'] at hj
      cases hj
      refine ⟨g.next c r,by rw [getElem?_set_self (List.getElem?_eq_some_iff.1 hi').1],?_⟩
      rcases (Engine.shape he).clock g with ⟨htx,-⟩ | ⟨rfl,-,-⟩
      · rw [htx,hx]
      · rw [show g.tx = none from hallowed] at hx
        cases hx
    · exact ⟨g,by rw [getElem?_set_ne hij]; exact hj,hx⟩
  | env => exact ⟨g,hj,hx⟩

theorem tx_run (h : (rowMachine R).Reach (RecoverableStep s₀.mem) s₀ cf)
    (hrun : (rowMachine R).Run (RecoverableStep s₀.mem) cf cf') {j : Nat} {k : TableKey} {g : Watcher} {x : Nat}
    (hj : cf.watchers[j]? = some (k,g)) (hx : g.tx = some x) :
    ∃ g', cf'.watchers[j]? = some (k,g') ∧ g'.tx = some x := by
  induction hrun with
  | refl => exact ⟨g,hj,hx⟩
  | step hr hs _ ih =>
    obtain ⟨g',hj',hx'⟩ := ih
    have hobeys := (Machine.Reach.inv follows_started (fun _ _ => True) trivial (fun _ _ _ _ _ _ => trivial)
      (fun _ _ _ _ _ _ _ _ _ _ _ _ => trivial) (fun _ _ _ _ _ _ => trivial) (h.run hr)).2
    exact tx_step hobeys hs hj' hx'

theorem commit_step (hs : (rowMachine R).Step cf ev cf') (hok : RecoverableStep base cf ev) {x y : Nat} (hxy : x ≠ y)
    (hx : ⟨x,.commit⟩ ∈ cf'.state.wal) (hy : ⟨y,.commit⟩ ∈ cf'.state.wal) :
    ⟨x,.commit⟩ ∈ cf.state.wal ∨ ⟨y,.commit⟩ ∈ cf.state.wal := by
  rcases wal_step hs hok with hw | ⟨e,hw⟩
  · rw [hw] at hx
    exact .inl hx
  · rw [hw] at hx hy
    rcases mem_append.1 hx with hx | hx
    · exact .inl hx
    · rcases mem_append.1 hy with hy | hy
      · exact .inr hy
      · rw [mem_singleton] at hx hy
        rw [← hx] at hy
        exact absurd (congrArg Entry.txID hy).symm hxy

theorem mem_changes {is : List Nat} {x : Nat} : x ∈ cf.changes is ↔
    ∃ i ∈ is, (∃ k g, cf.watchers[i]? = some (k,g) ∧ g.tx = some x) ∧ ⟨x,.commit⟩ ∈ cf.state.wal := by
  simp [RowConfig.changes,mem_filterMap,Option.filter_eq_some_iff,Option.bind_eq_some_iff]

section
variable (h₀ : s₀.Opened) (h : (rowMachine R).Reach (RecoverableStep s₀.mem) s₀ cf₀) {α : Type} {p : Calls α}
  {is : List Nat} (happly : Applying R s₀.mem p cf₀ is cf)
include h₀ h happly
theorem not_committed_before {x : Nat} (hx : x ∈ cf.changes is) : ⟨x,.commit⟩ ∉ cf₀.state.wal := by
  obtain ⟨i,hi,⟨k,g,hg,htx⟩,-⟩ := mem_changes.1 hx
  intro hmem
  -- its writer was there before the COMMIT, and would have the same id
  obtain ⟨j,k',g',hj,hwrote⟩ := (durable_of_reach h₀ h).1.log.own _ hmem
  obtain ⟨g'',hj',htx'⟩ := tx_run h happly.run hj hwrote.tx
  have hij := (durable_of_reach h₀ (h.run happly.run)).1.log.unique i j _ _ _ _ x hg hj' htx htx'
  have hlt : j < cf₀.threads.length := by
    simpa [Config.watchers] using (List.getElem?_eq_some_iff.1 hj).1
  have := happly.threads.1 i hi
  omega

theorem nodup_changes : (cf.changes is).Nodup := by
  refine happly.threads.2.filterMap fun i j x hi hj => ?_
  simp only [Option.mem_def,Option.filter_eq_some_iff,Option.bind_eq_some_iff] at hi hj
  obtain ⟨⟨⟨k,g⟩,hg,htx⟩,-⟩ := hi
  obtain ⟨⟨⟨k',g'⟩,hg',htx'⟩,-⟩ := hj
  exact (durable_of_reach h₀ (h.run happly.run)).1.log.unique i j _ _ _ _ x hg hg' htx htx'

theorem exists_split {x y : Nat} (hx : x ∈ cf.changes is) (hy : y ∈ cf.changes is) (hxy : x ≠ y) :
    ∃ cf', (rowMachine R).Run (RecoverableStep s₀.mem) cf₀ cf' ∧ (rowMachine R).Run (RecoverableStep s₀.mem) cf' cf ∧
      ¬AllOrNone cf'.state.wal (cf.changes is) := by
  -- the last moment at which only one of the two commit records is there
  obtain ⟨cf',h1,h2,hsplit⟩ := happly.run.between
    (p := fun cf => ⟨x,.commit⟩ ∈ cf.state.wal) (q := fun cf => ⟨y,.commit⟩ ∈ cf.state.wal)
    (fun cf ev cf' hs hok => commit_step hs hok hxy) (not_committed_before h₀ h happly hx)
    (mem_changes.1 hx).choose_spec.2.2 (mem_changes.1 hy).choose_spec.2.2
  refine ⟨cf',h1,h2,?_⟩
  rintro (hcrash | hcrash)
  · rcases hsplit with hsplit | hsplit
    · exact hsplit.2 (hcrash y hy)
    · exact hsplit.2 (hcrash x hx)
  · rcases hsplit with hsplit | hsplit
    · exact hcrash x hx hsplit.1
    · exact hcrash y hy hsplit.1
end

theorem allOrNone_of_length_le_one {xs : List Nat} (h : xs.length ≤ 1) (w : List Entry) : AllOrNone w xs := by
  match xs, h with
  | [], _ => exact .inr (by simp)
  | [x], _ =>
    by_cases hx : ⟨x,.commit⟩ ∈ w
    · exact .inl (by simpa using hx)
    · exact .inr (by simpa using hx)

end

theorem prog_of_returned {th : Thread Cmd Cmd.Res Watcher TableKey} (h : returned th = true) :
    th.prog = .ret () := by
  unfold returned at h
  split at h
  · next hp => exact hp
  · cases h

def insertEight : Exec Int := insertRows byteRows users [[8]]

theorem insertEight_statement : RowStatement byteRows users insertEight := by
  unfold insertEight
  exact .insertRows [[8]]

/-- An operation that is one engine call. -/
def oneCall (x : Exec Int) : Calls Bool := .step (users,x) .ret

end VaultDB.Storage
