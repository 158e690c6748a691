import VaultDB.Storage.Protocol
set_option autoImplicit false

/-!
Row statements side by side, while the log is synced, the buffer pool writes and evicts pages and
the checkpointer takes its steps.
-/

namespace VaultDB.Storage
open Wal Lib
namespace HeapFile

def mapPages (h : HeapFile) (f : PageID → Option Page → Option Page) : HeapFile :=
  ⟨h.segments.mapIdx fun s seg => seg.mapIdx fun p old => f ⟨s,p⟩ old⟩

end HeapFile

namespace Table

def writeFrame (t : Table) (pid : PageID) (f : Frame) : Table :=
  (t.setHeap ((t.dir.heap.writePage pid f.page).getD t.dir.heap)).setFrame pid
    (some { f with dirty := false, lastModifiedLSN := 0 })

def flushes (maxLSN : Nat) (f : Frame) : Bool := f.dirty && f.lastModifiedLSN ≤ maxLSN

def flushFrame (maxLSN : Nat) (f : Frame) : Frame :=
  if flushes maxLSN f then { f with dirty := false, lastModifiedLSN := 0 } else f

def flushedPage (maxLSN : Nat) (f : Option Frame) (old : Option Page) : Option Page :=
  match f with
  | some f => if flushes maxLSN f then some f.page else old
  | none => old

def flushDirtyPagesUpToLSN (t : Table) (maxLSN : Nat) : Table :=
  { t.setHeap (t.dir.heap.mapPages fun pid old => flushedPage maxLSN (t.frames pid) old) with
    frames := fun pid => (t.frames pid).map (flushFrame maxLSN) }

end Table

namespace Engine

def checkpointStep (s : Engine) : Engine :=
  match s.checkpoint with
  | .idle => { s with synced := s.wal.length, checkpoint := .walFlushed s.walNextTxID }
  | .walFlushed lsn => { s with
      synced := s.wal.length
      tables := fun k => (s.tables k).map fun t => t.flushDirtyPagesUpToLSN lsn
      checkpoint := .pagesFlushed }
  | .pagesFlushed => { s with
      wal := s.wal++[⟨s.walNextTxID+1,.checkpoint s.walNextTxID⟩]
      synced := s.wal.length+1
      walNextTxID := s.walNextTxID+1
      checkpoint := .recordWritten }
  | .recordWritten => { s with savedTx := s.catalogTx, catalogMutationCount := 0, checkpoint := .catalogSaved }
  | .catalogSaved => { s with wal := [], synced := 0, checkpoint := .idle }

end Engine

inductive EnvEvent where
  | sync (n : Nat)
  | flushPage (k : TableKey) (pid : PageID)
  | evict (k : TableKey) (pid : PageID)
  | checkpoint
  deriving DecidableEq, Repr

/-- What can happen without any statement.  A dirty page is evicted only after a sync of the
log. -/
inductive Engine.Env (s : Engine) : EnvEvent → Engine → Prop where
  | sync {n : Nat} : s.synced ≤ n → n ≤ s.wal.length → Env s (.sync n) { s with synced := n }
  | flushPage {k : TableKey} {pid : PageID} {t : Table} {f : Frame} : s.tables k = some t →
      t.frames pid = some f → f.dirty = true → Env s (.flushPage k pid) (s.setTable k (t.writeFrame pid f))
  | evictClean {k : TableKey} {pid : PageID} {t : Table} {f : Frame} : s.tables k = some t →
      t.frames pid = some f → f.pins = [] → f.dirty = false →
      Env s (.evict k pid) (s.setTable k (t.setFrame pid none))
  | evictDirty {k : TableKey} {pid : PageID} {t : Table} {f : Frame} : s.tables k = some t →
      t.frames pid = some f → f.pins = [] → f.dirty = true →
      Env s (.evict k pid)
        { s.setTable k ((t.writeFrame pid f).setFrame pid none) with synced := s.wal.length }
  | checkpoint : Env s .checkpoint s.checkpointStep

inductive RowStatement {V : Type} [BEq V] (R : RowOps V) (k : TableKey) : Exec Int → Prop where
  | insertRows (rows : List (List V)) : RowStatement R k (insertRows R k rows)
  | updateRows (indices : List Int) (updates : List (String × V)) :
      RowStatement R k (updateRows R k indices updates)
  | updateRowsDirect (indices : List Int) (newValues : List (List V)) :
      RowStatement R k (updateRowsDirect R k indices newValues)
  | updateRowsVM (positions : Option (List Int)) (matchFn : Tuple → Except String Bool)
      (updateFn : List V → Except String (List V))
      (validateFn : List Int → List (List V) → Except String Unit) :
      RowStatement R k (updateRowsVM R k positions matchFn updateFn validateFn)
  | deleteRows (indices : List Int) : RowStatement R k (deleteRows R k indices)
  | deleteRowsVM (positions : Option (List Int)) (predicate : Tuple → Except String Bool)
      (preDelete : List Int → List (List V) → Except String Unit) :
      RowStatement R k (deleteRowsVM R k positions predicate preDelete)

def Exec.toProg {α : Type} (x : Exec α) : Prog Cmd Cmd.Res Unit := x.run >>= fun _ => pure ()

def rowMachine {V : Type} [BEq V] (R : RowOps V) : Machine Cmd Cmd.Res Watcher TableKey Engine EnvEvent where
  protocol := rowProtocol
  fresh := {}
  start k p := ∃ x, RowStatement R k x ∧ p = x.toProg
  exec i k s c r s' := s.Answers i k c r s'
  env s e s' := s.Env e s'

abbrev RowConfig := Config Cmd Cmd.Res Watcher TableKey Engine

theorem follows_rowStatement {V : Type} [BEq V] {R : RowOps V} {k : TableKey} {x : Exec Int}
    (h : RowStatement R k x) :
    Follows rowProtocol {} x.toProg fun g _ => g.Done fun _ => False := by
  have hx : Stmt.Ensures rowProtocol {} x (fun g _ => g.Done fun _ => False) fun g => g.Done fun _ => False := by
    cases h with
    | insertRows rows => exact ensures_insertRows k rows _
    | updateRows indices updates => exact ensures_mutateRows k indices _ _ fun _ h => h.elim
    | updateRowsDirect indices newValues => exact ensures_updateRowsDirect k indices _ _ fun _ h => h.elim
    | updateRowsVM positions matchFn updateFn validateFn =>
      exact ensures_updateRowsVM k positions _ _ _ _ (fun _ h => h.elim) fun _ h => h.elim
    | deleteRows indices => exact ensures_mutateRows k indices _ _ fun _ h => h.elim
    | deleteRowsVM positions predicate preDelete => exact ensures_deleteRowsVM k positions _ _ _ fun _ h => h.elim
  refine follows_bind.2 (Follows.mono hx fun g r hr => ?_)
  cases r with
  | ok a => exact hr
  | error e => exact hr

theorem follows_started {V : Type} [BEq V] {R : RowOps V} (k : TableKey) (p : Prog Cmd Cmd.Res Unit) :
    (∃ x, RowStatement R k x ∧ p = x.toProg) → Follows rowProtocol {} p fun g _ => g.Done fun _ => False := by
  rintro ⟨x,hx,rfl⟩
  exact follows_rowStatement hx

inductive Move where
  | step (i : Nat)
  | flush (k : TableKey) (pid : PageID)
  | sync
  | checkpoint
  deriving DecidableEq, Repr

namespace Move

def event (cf : RowConfig) : Move → Option (Event Cmd Cmd.Res TableKey EnvEvent × RowConfig)
  | .step i =>
    match cf.threads[i]? with
    | some ⟨k,g,.step c p⟩ =>
      (cf.state.exec i k c).map fun x => (.run i k c x.1,⟨x.2,cf.threads.set i ⟨k,g.next c x.1,p x.1⟩⟩)
    | _ => none
  | .flush k pid => (cf.state.tables k).bind fun t => (t.frames pid).bind fun f =>
    if f.dirty then some (.env (.flushPage k pid),⟨cf.state.setTable k (t.writeFrame pid f),cf.threads⟩) else none
  | .sync =>
    if cf.state.synced ≤ cf.state.wal.length then
      some (.env (.sync cf.state.wal.length),⟨{ cf.state with synced := cf.state.wal.length },cf.threads⟩)
    else none
  | .checkpoint => some (.env .checkpoint,⟨cf.state.checkpointStep,cf.threads⟩)

def play (check : RowConfig → Event Cmd Cmd.Res TableKey EnvEvent → Bool) (cf : RowConfig) :
    List Move → Option RowConfig
  | [] => some cf
  | m :: ms => (m.event cf).bind fun x => if check cf x.1 then play check x.2 ms else none

end Move

def spawned (ss : List (TableKey × Exec Int)) : List (Thread Cmd Cmd.Res Watcher TableKey) :=
  ss.map fun x => ⟨x.1,{},x.2.toProg⟩

section
variable {V : Type} [BEq V] {R : RowOps V} {Ok : RowConfig → Event Cmd Cmd.Res TableKey EnvEvent → Prop}
  {s₀ : Engine} {cf cf' : RowConfig} {check : RowConfig → Event Cmd Cmd.Res TableKey EnvEvent →
    Bool} {ms : List Move}
  {ss : List (TableKey × Exec Int)}
theorem reach_spawned (hok : ∀ cf k p, Ok cf (.spawn k p))
    (h : ∀ x ∈ ss, RowStatement R x.1 x.2) : (rowMachine R).Reach Ok s₀ ⟨s₀,spawned ss⟩ := by
  have hall : ∀ x ∈ ss.map fun x => (x.1,x.2.toProg), (rowMachine R).start x.1 x.2 := by
    intro x hx
    obtain ⟨y,hy,rfl⟩ := List.mem_map.1 hx
    exact ⟨y.2,h y hy,rfl⟩
  have hthreads : spawned ss = []++(rowMachine R).starting (ss.map fun x => (x.1,x.2.toProg)) := by
    simp [spawned,Machine.starting,rowMachine]
  rw [hthreads]
  exact Machine.Reach.spawned hok .init hall

theorem Move.event_step {m : Move} {ev : Event Cmd Cmd.Res TableKey EnvEvent}
    (h : m.event cf = some (ev,cf')) : (rowMachine R).Step cf ev cf' := by
  cases m with
  | step i =>
    simp only [event] at h
    split at h
    · rename_i k g c p hth
      obtain ⟨x,hx,he⟩ := Option.map_eq_some_iff.1 h
      cases he
      exact .run hth (.inl hx)
    · cases h
  | flush k pid =>
    obtain ⟨t,ht,h⟩ := Option.bind_eq_some_iff.1 h
    obtain ⟨f,hf,h⟩ := Option.bind_eq_some_iff.1 h
    split at h
    · cases h
      exact .env (.flushPage ht hf ‹_›)
    · cases h
  | sync =>
    simp only [event] at h
    split at h
    · cases h
      exact .env (.sync ‹_› (Nat.le_refl _))
    · cases h
  | checkpoint =>
    cases h
    exact .env .checkpoint

section
variable (hok : ∀ cf ev, check cf ev = true → Ok cf ev)
include hok
theorem run_play (hp : Move.play check cf ms = some cf') : (rowMachine R).Run Ok cf cf' := by
  induction ms generalizing cf with
  | nil =>
    cases hp
    exact .refl
  | cons m ms ih =>
    obtain ⟨⟨ev,cf1⟩,he,hp⟩ := Option.bind_eq_some_iff.1 hp
    simp only at hp
    split at hp
    · rename_i hc
      exact Machine.Run.trans (.step .refl (Move.event_step he) (hok _ _ hc)) (ih hp)
    · cases hp

theorem reach_play (h : (rowMachine R).Reach Ok s₀ cf) (hp : Move.play check cf ms = some cf') :
    (rowMachine R).Reach Ok s₀ cf' := h.run (run_play hok hp)

theorem reach_sample (hspawn : ∀ cf k p, Ok cf (.spawn k p))
    (hss : ∀ x ∈ ss, RowStatement R x.1 x.2) {α : Type} {f : RowConfig → α} {a : α}
    (h : (Move.play check ⟨s₀,spawned ss⟩ ms).map f = some a) : ∃ cf, (rowMachine R).Reach Ok s₀ cf ∧ f cf = a := by
  obtain ⟨cf,hcf,hf⟩ := Option.map_eq_some_iff.1 h
  exact ⟨cf,reach_play hok (reach_spawned hspawn hss) hcf,hf⟩
end
end

def byteRows : RowOps UInt8 where
  null := 0
  normalizeValue v _ := .ok v
  encodeRow row := .ok row
  decodeRow _ bytes := some bytes
  deepEqual a b := a == b
  sprint v := toString v.toNat
  toLower s := s

def users : TableKey := ⟨"app","users"⟩

def emptyUsers : Engine where
  tables k := if k = users then
      some ⟨⟨HeapFile.create,some ⟨[⟨"id","INT",0,false⟩]⟩,none⟩,1,fun _ => none,
        ⟨⟨[⟨"id","INT",0,false⟩]⟩,none,0,0,[]⟩,none⟩
    else none
  wal := []
  synced := 0
  walNextTxID := 1
  pageLocks _ := none
  clock := ⟨0,0⟩
  catalogTx := 0
  savedTx := 0
  catalogMutationCount := 0
  checkpoint := .idle

end VaultDB.Storage
