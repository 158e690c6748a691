import VaultDB.Storage.Contents
set_option autoImplicit false

/-!
The files of one table as recovery finds them, and what it leaves of a table that it cannot open or
that the log does not mention.
-/

namespace VaultDB.Storage
open Wal Lib List Option

def Engine.append (s : Engine) (op : Op) : Engine :=
  { s with wal := s.wal++[⟨s.walNextTxID+1,op⟩], walNextTxID := s.walNextTxID+1 }

namespace Page

def tuples (p : Page) : List Tuple := p.items.filterMap Item.tuple?

theorem tuples_insertTuple {p q : Page} {t : Tuple} {slot : Nat} (h : p.insertTuple t = some (q,slot)) :
    q.tuples = p.tuples++[t] := by
  unfold insertTuple at h
  split at h
  · cases h
    simp [tuples,Item.tuple?]
  · cases h

end Page

def Contents.tuples (c : Contents) : List Tuple := c.pages.flatMap Page.tuples

def TableDir.tuples (d : TableDir) : Option (List Tuple) :=
  d.heap.pageCount.bind fun n =>
    ((List.range n).mapM fun g => d.heap.readPage (pageIDAt g)).map fun ps => ps.flatMap Page.tuples

def visibleRows (clock : Clock) (ts : List Tuple) : List (List UInt8) := (ts.filter clock.visible).map Tuple.data

theorem length_mapM {α β : Type} {f : α → Option β} {xs : List α} {ys : List β} (h : xs.mapM f = some ys) :
    ys.length = xs.length := by
  induction xs generalizing ys with
  | nil => simp_all
  | cons x xs ih =>
    simp only [mapM_cons,bind_eq_bind,bind_eq_some_iff] at h
    obtain ⟨y,-,zs,hzs,hy⟩ := h
    cases hy
    simp [ih hzs]

theorem mapM_range' {α : Type} {f : Nat → Option α} {ys : List α} {m : Nat}
    (h : ∀ n y, ys[n]? = some y → f (m+n) = some y) : (List.range' m ys.length).mapM f = some ys := by
  induction ys generalizing m with
  | nil => rfl
  | cons y ys ih =>
    have hy : f m = some y := h 0 y rfl
    have hys := ih (m := m+1) fun n z hz => by
      have := h (n+1) z hz
      rwa [Nat.add_comm n,← Nat.add_assoc] at this
    simp [List.range'_succ,hy,hys]

namespace RecoveryStep

def heap? (o : RecoveryStep) : Option TableKey :=
  match o.entry.op with
  | .pageInsert k _ _ _ | .pageDelete k _ _ | .truncateTable k => some k
  | _ => none

end RecoveryStep

namespace RecoveryState
variable {s s' : RecoveryState} {k : TableKey}
theorem stampXMax_changes {loc : PageSlot} {x : Nat} (h : s.stampXMax k loc x = .ok s') :
    s' = s ∨ ∃ d hf, s.table? k = some d ∧ s' = s.setHeap k hf := by
  unfold stampXMax at h
  split at h
  · exact .inl (Except.ok.inj h).symm
  · split at h
    · cases h
    · split at h
      · exact .inl (Except.ok.inj h).symm
      · obtain ⟨hf,-,rfl⟩ := writePage_eq_ok h
        exact .inr ⟨_,hf,‹_›,rfl⟩

inductive Changes (s : RecoveryState) (o : RecoveryStep) (s' : RecoveryState) : Prop where
  | none : o.schemaOp = none → s'.disk = s.disk → Changes s o s'
  | heap {k : TableKey} {d : TableDir} (h : HeapFile) : o.schemaOp = none → o.heap? = some k →
      s.table? k = some d → s'.disk = s.disk.setHeap k h → Changes s o s'
  | schema {k : TableKey} {schema : TableSchema} {d : TableDir} : o.schemaOp = some (k,schema) →
      s.disk.dir k = some d →
      s'.disk = s.disk.setDir k (some { d with schema := some schema }) → Changes s o s'

theorem runStep_changes {o : RecoveryStep} (h : s.runStep o = .ok s') :
    s'.clock = o.advance s.clock ∧ s'.opened = s.opened ∧ s.Changes o s' := by
  rcases o with ⟨x,op⟩ | ⟨x,op⟩
  · cases op with
    | pageInsert k loc xid data =>
      rcases redoInsert_cases h with ⟨-,rfl⟩ | ⟨d,hf,pid,pg,pg',h',ht,-,-,-,rfl⟩
      · exact ⟨rfl,rfl,.none rfl rfl⟩
      · exact ⟨rfl,rfl,.heap h' rfl rfl ht rfl⟩
    | pageDelete k loc xmax =>
      rcases stampXMax_changes h with rfl | ⟨d,h',ht,rfl⟩
      · exact ⟨rfl,rfl,.none rfl rfl⟩
      · exact ⟨rfl,rfl,.heap h' rfl rfl ht rfl⟩
    | schemaWrite k schema =>
      simp only [runStep,redoEntry,redoSchemaWrite] at h
      split at h
      · cases h
      · cases h
        exact ⟨rfl,rfl,.schema rfl ‹_› rfl⟩
    | truncateTable k =>
      simp only [runStep,redoEntry,redoTruncateTable] at h
      split at h
      · cases h
        exact ⟨rfl,rfl,.none rfl rfl⟩
      · cases h
        exact ⟨rfl,rfl,.heap _ rfl rfl ‹_› rfl⟩
    | _ =>
      cases h
      exact ⟨rfl,rfl,.none rfl rfl⟩
  · cases op with
    | pageInsert | pageDelete =>
      rcases stampXMax_changes h with rfl | ⟨d,h',ht,rfl⟩
      · exact ⟨rfl,rfl,.none rfl rfl⟩
      · exact ⟨rfl,rfl,.heap h' rfl rfl ht rfl⟩
    | _ =>
      cases h
      exact ⟨rfl,rfl,.none rfl rfl⟩

/-- A table that is not open, or whose pages no record names, only gets its schema. -/
theorem dir_replay {steps : List RecoveryStep}
    (hk : s.opened k = false ∨ ∀ o ∈ steps, o.heap? ≠ some k)
    (h : replay runStep steps s = .ok s') : s'.opened = s.opened ∧
      s'.disk.dir k = (s.disk.dir k).map fun d => { d with schema := (lastSchema k steps).or d.schema } := by
  induction steps generalizing s with
  | nil =>
    cases h
    simp [lastSchema]
  | cons o steps ih =>
    obtain ⟨s1,h1,h2⟩ := replay_cons_eq_ok.1 h
    obtain ⟨-,hopen,hc⟩ := runStep_changes h1
    obtain ⟨ho,hdir⟩ := ih (by rw [hopen]; exact hk.imp_right fun hk o ho => hk o (mem_cons_of_mem _ ho)) h2
    refine ⟨ho.trans hopen,?_⟩
    rw [hdir]
    cases hc with
    | none hop hd => simp [hd,lastSchema,hop]
    | @heap k' d h' hop hname ht hd =>
      have hne : k ≠ k' := by
        rintro rfl
        rcases hk with hk | hk
        · simp [table?,hk] at ht
        · exact hk o mem_cons_self hname
      simp [hd,Disk.dir_setHeap,hne,lastSchema,hop]
    | @schema k' schema d hop hd' hd =>
      by_cases hkk : k' = k
      · subst hkk
        simp [hd,lastSchema,hop,hd']
      · simp [hd,lastSchema,hop,hkk,Ne.symm hkk]

theorem lastSchema_recoverySteps (k : TableKey) (w : List Entry) (order : List Nat) :
    lastSchema k (recoverySteps w order) = lastSchema k (redoPhase w) := by
  have hundo : ∀ es : List Entry, lastSchema k (es.map .undo) = none := by
    intro es
    induction es with
    | nil => rfl
    | cons e es ih => simp [lastSchema,ih,RecoveryStep.schemaOp]
  have hall : lastSchema k (undoPhase w order) = none := by
    induction order with
    | nil => rfl
    | cons x order ih =>
      rw [undoPhase,flatMap_cons,lastSchema_append,hundo]
      simpa [undoPhase] using ih
  rw [recoverySteps,lastSchema_append,hall,none_or]

theorem recover_closed {d : Disk} {w : List Entry} {order : List Nat} {st : RecoveryState} {k : TableKey}
    (hk : d.openTables k = false) (h : recoverFromWAL d w order = .ok st) :
    st.disk.dir k = ((d.dir k).map fun t => { t with schema := (lastSchema k (redoPhase w)).or t.schema }) ∧
      st.opened k = st.disk.openTables k := by
  obtain ⟨s1,hrun,rfl⟩ := recoverFromWAL_eq_ok.1 h
  have hclosed : (recoveryStart d w).opened k = false := hk
  obtain ⟨hopen,hdir⟩ := dir_replay (.inl hclosed) hrun
  refine ⟨?_,?_⟩
  · rw [hdir,lastSchema_recoverySteps]
    rfl
  · simp [hopen,hclosed]

end RecoveryState
end VaultDB.Storage
