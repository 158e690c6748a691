import Mathlib.Data.List.Induction
import VaultDB.Storage.Disk
set_option autoImplicit false

/-!
The write-ahead log (`wal`) and the analysis pass of recovery.  Full-page images are left out:
nothing writes them.
-/

namespace VaultDB.Wal
open Storage List
variable {x : Nat}
inductive Op where
  | pageInsert (k : TableKey) (loc : PageSlot) (xid : Nat) (data : Tuple)
  | pageDelete (k : TableKey) (loc : PageSlot) (xmax : Nat)
  | vacuumBegin (k : TableKey)
  | vacuumCommit (k : TableKey)
  | abort
  | commit
  | schemaWrite (k : TableKey) (schema : TableSchema)
  | rewriteBegin (k : TableKey)
  | rewriteCommit (k : TableKey)
  | truncateTable (k : TableKey)
  | checkpoint (lsn : Nat)
  deriving DecidableEq, Repr

structure Entry where
  txID : Nat
  op : Op
  deriving DecidableEq, Repr

def Op.slot? : Op → Option (TableKey × PageSlot)
  | .pageInsert k loc _ _ => some (k,loc)
  | .pageDelete k loc _ => some (k,loc)
  | _ => none

structure Analysis where
  committed : List Nat
  inProgress : List Nat
  deriving DecidableEq, Repr

def analyzeEntry (a : Analysis) (e : Entry) : Analysis :=
  match e.op with
  | .commit => ⟨a.committed.insert e.txID,a.inProgress.filter (· ≠ e.txID)⟩
  | .abort => ⟨a.committed.filter (· ≠ e.txID),a.inProgress.filter (· ≠ e.txID)⟩
  | _ =>
    if e.txID ≠ 0 ∧ e.txID ∉ a.committed then { a with inProgress := a.inProgress.insert e.txID } else a

def analyzeTransactions (w : List Entry) : Analysis := w.foldl analyzeEntry ⟨[],[]⟩

variable {w : List Entry}
theorem analyzeTransactions_concat (w : List Entry) (e : Entry) :
    analyzeTransactions (w++[e]) = analyzeEntry (analyzeTransactions w) e := by
  simp [analyzeTransactions]

theorem committed_analyzeEntry (a : Analysis) {e : Entry} (h : e ≠ ⟨x,.abort⟩) :
    x ∈ (analyzeEntry a e).committed ↔ x ∈ a.committed ∨ e = ⟨x,.commit⟩ := by
  obtain ⟨y,op⟩ := e
  cases op with
  | commit => simp [analyzeEntry,or_comm,eq_comm]
  | abort =>
    have hne : x ≠ y := fun hxy => h (by rw [hxy])
    simp [analyzeEntry,hne]
  | _ => simp only [analyzeEntry]; split <;> simp

theorem inProgress_analyzeEntry (a : Analysis) {e : Entry} (h : e ≠ ⟨x,.abort⟩) :
    x ∈ (analyzeEntry a e).inProgress ↔ e ≠ ⟨x,.commit⟩ ∧
    (x ∈ a.inProgress ∨ (e.txID = x ∧ x ≠ 0 ∧ x ∉ a.committed)) := by
  obtain ⟨y,op⟩ := e
  cases op with
  | commit =>
    by_cases hxy : y = x
    · simp [analyzeEntry,hxy]
    · simp [analyzeEntry,hxy,Ne.symm hxy]
  | abort =>
    have hne : y ≠ x := fun hxy => h (by rw [hxy])
    simp [analyzeEntry,hne,Ne.symm hne]
  | _ =>
    simp only [analyzeEntry]
    by_cases hxy : y = x
    · subst hxy
      split <;> simp_all
    · split <;> simp [hxy,Ne.symm hxy]

theorem mem_committed (h : ⟨x,.abort⟩ ∉ w) : x ∈ (analyzeTransactions w).committed ↔ ⟨x,.commit⟩ ∈ w := by
  induction w using List.reverseRecOn with
  | nil => simp [analyzeTransactions]
  | append_singleton w e ih =>
    simp only [mem_append,mem_singleton,not_or] at h
    rw [analyzeTransactions_concat,committed_analyzeEntry _ (Ne.symm h.2),ih h.1]
    simp [eq_comm]

theorem mem_inProgress (h : ⟨x,.abort⟩ ∉ w) : x ∈ (analyzeTransactions w).inProgress ↔
      x ≠ 0 ∧ (∃ e ∈ w, e.txID = x) ∧ ⟨x,.commit⟩ ∉ w := by
  induction w using List.reverseRecOn with
  | nil => simp [analyzeTransactions]
  | append_singleton w e ih =>
    simp only [mem_append,mem_singleton,not_or] at h
    rw [analyzeTransactions_concat,inProgress_analyzeEntry _ (Ne.symm h.2),ih h.1,mem_committed h.1]
    simp only [mem_append,mem_singleton,not_or]
    constructor
    · rintro ⟨hne,⟨h0,⟨e',he',hx⟩,hc⟩ | ⟨hx,h0,hc⟩⟩
      · exact ⟨h0,⟨e',.inl he',hx⟩,hc,Ne.symm hne⟩
      · exact ⟨h0,⟨e,.inr rfl,hx⟩,hc,Ne.symm hne⟩
    · rintro ⟨h0,⟨e',he' | rfl,hx⟩,hc,hne⟩
      · exact ⟨Ne.symm hne,.inl ⟨h0,⟨e',he',hx⟩,hc⟩⟩
      · exact ⟨Ne.symm hne,.inr ⟨hx,h0,hc⟩⟩

theorem not_committed_of_inProgress
    (h : x ∈ (analyzeTransactions w).inProgress) : x ∉ (analyzeTransactions w).committed := by
  induction w using List.reverseRecOn with
  | nil => simp [analyzeTransactions] at h
  | append_singleton w e ih =>
    rw [analyzeTransactions_concat] at h ⊢
    by_cases he : e = ⟨x,.abort⟩
    · subst he
      simp [analyzeEntry] at h
    · rw [inProgress_analyzeEntry _ he] at h
      rw [committed_analyzeEntry _ he]
      rintro (hc | hc)
      · rcases h.2 with hp | ⟨-,-,hn⟩
        · exact ih hp hc
        · exact hn hc
      · exact h.1 hc

end VaultDB.Wal
