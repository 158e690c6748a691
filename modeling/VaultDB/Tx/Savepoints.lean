import Mathlib.Data.List.TakeWhile
import VaultDB.Tx.Session
set_option autoImplicit false

/-!
Savepoints of a transaction.

The buffered operations are the list `ReadOps` returns, in memory or from the spill file.
-/

namespace VaultDB.Tx
open List Function

inductive BufferCall (Op : Type) where
  | addOp (op : Op)
  | savepoint (name : String)
  | releaseSavepoint (name : String)
  | rollbackToSavepoint (name : String)

variable {Op : Type} {c : BufferCall Op}
structure Buffer (Op : Type) where
  ops : List Op := []
  opCounter : Nat := 0
  savepoints : String → Option Nat := fun _ => none
  /-- The newest name stands first. -/
  savepointOrder : List String := []

namespace Buffer

def savepoint (t : Buffer Op) (name : String) : Buffer Op :=
  { t with
    savepoints := update t.savepoints name (some t.opCounter)
    -- A name that is active keeps its place.
    savepointOrder := if (t.savepoints name).isSome then t.savepointOrder else name :: t.savepointOrder }

def releaseSavepoint (t : Buffer Op) (name : String) : Buffer Op :=
  if (t.savepoints name).isSome then
    { t with savepoints := update t.savepoints name none, savepointOrder := t.savepointOrder.erase name }
  else t

def rollbackToSavepoint (t : Buffer Op) (name : String) : Except String (Buffer Op) :=
  match t.savepoints name with
  | none => .error ("savepoint \""++name++"\" does not exist")
  | some n =>
    let n := min n t.ops.length
    let t := { t with ops := t.ops.take n, opCounter := n }
    .ok (if name ∈ t.savepointOrder then
        { t with
          savepoints := fun m => if m ∈ t.savepointOrder.takeWhile (· != name) then none else t.savepoints m
          savepointOrder := t.savepointOrder.dropWhile (· != name) }
      else t)

def step (t : Buffer Op) : BufferCall Op → Buffer Op
  | .addOp op => { t with ops := t.ops++[op], opCounter := t.opCounter+1 }
  | .savepoint name => t.savepoint name
  | .releaseSavepoint name => t.releaseSavepoint name
  | .rollbackToSavepoint name => (t.rollbackToSavepoint name).toOption.getD t

end Buffer

/-- What SQL says: the active savepoints, last established first, each with the operations there
were at that moment. -/
structure SqlBuffer (Op : Type) where
  ops : List Op := []
  active : List (String × List Op) := []

namespace SqlBuffer

def step (s : SqlBuffer Op) : BufferCall Op → SqlBuffer Op
  | .addOp op => { s with ops := s.ops++[op] }
  | .savepoint name => { s with active := (name,s.ops) :: s.active.filter (·.1 != name) }
  | .releaseSavepoint name => { s with active := s.active.filter (·.1 != name) }
  | .rollbackToSavepoint name =>
    match s.active.dropWhile (·.1 != name) with
    | [] => s
    | (m,ops) :: earlier => ⟨ops,(m,ops) :: earlier⟩

/-- SAVEPOINT takes a name that is not active, or that of the newest savepoint. -/
def Fresh (s : SqlBuffer Op) : BufferCall Op → Prop
  | .savepoint name => name ∉ s.active.tail.map Prod.fst
  | _ => True

def FreshRun : SqlBuffer Op → List (BufferCall Op) → Prop
  | _, [] => True
  | s, c :: cs => s.Fresh c ∧ FreshRun (s.step c) cs

end SqlBuffer

structure Buffer.Shows (t : Buffer Op) (s : SqlBuffer Op) : Prop where
  ops : t.ops = s.ops
  counter : t.opCounter = s.ops.length
  order : t.savepointOrder = s.active.map Prod.fst
  position : ∀ p ∈ s.active, t.savepoints p.1 = some p.2.length
  others : ∀ name, name ∉ s.active.map Prod.fst → t.savepoints name = none
  nodup : (s.active.map Prod.fst).Nodup
  earlier : ∀ p ∈ s.active, p.2 <+: s.ops
  nested : s.active.Pairwise fun p q => q.2 <+: p.2

namespace Buffer.Shows
variable {t : Buffer Op} {s : SqlBuffer Op} (h : t.Shows s) {name : String}
include h
theorem isSome_iff : (t.savepoints name).isSome ↔ name ∈ s.active.map Prod.fst := by
  constructor
  · intro hs
    by_contra hn
    simp [h.others name hn] at hs
  · intro hm
    obtain ⟨p,hp,rfl⟩ := mem_map.1 hm
    simp [h.position p hp]

theorem push (hn : name ∉ s.active.map Prod.fst) :
    Buffer.Shows { t with savepoints := update t.savepoints name (some t.opCounter)
                          savepointOrder := name :: t.savepointOrder }
      { s with active := (name,s.ops) :: s.active } where
  __ := h
  order := congrArg (name :: ·) h.order
  position := by
    intro p hp
    rcases mem_cons.1 hp with rfl | hp
    · simp [h.counter]
    · exact (update_of_ne (fun e : p.1 = name => hn (e ▸ mem_map_of_mem hp)) _ _).trans (h.position p hp)
  others := by
    intro m hm
    simp only [map_cons,mem_cons,not_or] at hm
    exact (update_of_ne hm.1 _ _).trans (h.others m hm.2)
  nodup := nodup_cons.2 ⟨hn,h.nodup⟩
  earlier := by
    intro p hp
    rcases mem_cons.1 hp with rfl | hp
    · exact prefix_rfl
    · exact h.earlier p hp
  nested := pairwise_cons.2 ⟨h.earlier,h.nested⟩

theorem release (name : String) :
    Buffer.Shows
      { t with savepoints := update t.savepoints name none, savepointOrder := t.savepointOrder.erase name }
      { s with active := s.active.filter (·.1 != name) } where
  __ := h
  order := by
    rw [h.order,h.nodup.erase_eq_filter,filter_map]
    rfl
  position := by
    intro p hp
    obtain ⟨hp,hne⟩ := mem_filter.1 hp
    exact (update_of_ne (by simpa using hne) _ _).trans (h.position p hp)
  others := by
    intro m hm
    by_cases he : m = name
    · simp [he]
    · refine (update_of_ne he _ _).trans (h.others m fun hm' => hm ?_)
      obtain ⟨p,hp,rfl⟩ := mem_map.1 hm'
      exact mem_map_of_mem (mem_filter.2 ⟨hp,by simpa using he⟩)
  nodup := h.nodup.sublist (filter_sublist.map _)
  earlier p hp := h.earlier p (mem_filter.1 hp).1
  nested := h.nested.sublist filter_sublist

theorem rollback {p : String × List Op} {rest : List (String × List Op)}
    (hd : s.active.dropWhile (·.1 != name) = p :: rest) :
    ∃ t', t.rollbackToSavepoint name = .ok t' ∧ t'.Shows ⟨p.2,p :: rest⟩ := by
  obtain ⟨m,ops⟩ := p
  obtain rfl : m = name := by
    have hhead := head_dropWhile_not (fun q : String × List Op => q.1 != name) (l := s.active) (by simp [hd])
    simpa [hd] using hhead
  obtain ⟨later,hlater⟩ : ∃ later, later = s.active.takeWhile (·.1 != m) := ⟨_,rfl⟩
  have hs : s.active = later++(m,ops) :: rest := by rw [hlater,← hd,takeWhile_append_dropWhile]
  have hl : ∀ m' ∈ later.map Prod.fst, (m' != m) = true := by
    intro m' hm
    obtain ⟨q,hq,rfl⟩ := mem_map.1 hm
    rw [hlater] at hq
    exact mem_takeWhile_imp (p := fun q : String × List Op => q.1 != m) hq
  have hmem : (m,ops) ∈ s.active := by simp [hs]
  have hpre := h.earlier _ hmem
  have hlen : min ops.length t.ops.length = ops.length := by
    rw [h.ops]
    exact min_eq_left hpre.length_le
  have hmap : s.active.map Prod.fst = later.map Prod.fst++m :: rest.map Prod.fst := by simp [hs]
  have htake : t.savepointOrder.takeWhile (· != m) = later.map Prod.fst := by
    rw [h.order,hmap,takeWhile_append_of_pos hl]
    simp
  have hdrop : t.savepointOrder.dropWhile (· != m) = m :: rest.map Prod.fst := by
    rw [h.order,hmap,dropWhile_append_of_pos hl]
    simp
  have hnd : (later.map Prod.fst++m :: rest.map Prod.fst).Nodup := hmap ▸ h.nodup
  have hnest := (pairwise_append.1 (hs ▸ h.nested)).2.1
  refine ⟨_,by rw [rollbackToSavepoint,h.position _ hmem],?_⟩
  rw [if_pos (by simp [h.order,hmap])]
  simp only [htake,hdrop,hlen]
  refine ⟨?_,rfl,rfl,?_,?_,hnd.of_append_right,?_,hnest⟩
  · rw [h.ops,← prefix_iff_eq_take.1 hpre]
  · intro p hp
    have hnot : p.1 ∉ later.map Prod.fst := fun hm =>
      disjoint_of_nodup_append hnd hm (by simpa using mem_map_of_mem (f := Prod.fst) hp)
    exact (if_neg hnot).trans (h.position p (hs ▸ mem_append_right _ hp))
  · intro m' hm
    by_cases hnot : m' ∈ later.map Prod.fst
    · exact if_pos hnot
    · exact (if_neg hnot).trans (h.others m' (by rw [hmap,mem_append]; exact not_or.2 ⟨hnot,hm⟩))
  · intro p hp
    rcases mem_cons.1 hp with rfl | hp
    · exact prefix_rfl
    · exact rel_of_pairwise_cons hnest hp

theorem step (hf : s.Fresh c) : (t.step c).Shows (s.step c) := by
  cases c with
  | addOp op =>
    exact { h with
      ops := congrArg (·++[op]) h.ops
      counter := by simp [Buffer.step,SqlBuffer.step,h.counter]
      earlier := fun p hp => (h.earlier p hp).trans (prefix_append _ _) }
  | savepoint name =>
    -- The name is taken away first, which changes nothing unless it is the newest one.
    have hnot : name ∉ (s.active.filter (·.1 != name)).map Prod.fst := by simp
    have hpush := (h.release name).push hnot
    simp only [update_idem] at hpush
    have hord : (t.savepoint name).savepointOrder = name :: t.savepointOrder.erase name := by
      simp only [Buffer.savepoint,h.isSome_iff,h.order]
      cases ha : s.active with
      | nil => rfl
      | cons p rest =>
        simp only [SqlBuffer.Fresh,ha,tail_cons] at hf
        by_cases hp : p.1 = name
        · simp [hp]
        · have hn : name ∉ map Prod.fst (p :: rest) := by simpa using ⟨Ne.symm hp,by simpa using hf⟩
          rw [if_neg hn,erase_of_not_mem hn]
    rw [← hord] at hpush
    exact hpush
  | releaseSavepoint name =>
    simp only [Buffer.step,Buffer.releaseSavepoint]
    split
    · exact h.release name
    · rename_i hn
      rw [h.isSome_iff] at hn
      have hs : s.step (.releaseSavepoint name) = s := by
        have : s.active.filter (·.1 != name) = s.active := filter_eq_self.2 fun p hp => by
          simpa using fun e : p.1 = name => hn (e ▸ mem_map_of_mem hp)
        simp only [SqlBuffer.step,this]
      rw [hs]
      exact h
  | rollbackToSavepoint name =>
    simp only [Buffer.step,SqlBuffer.step]
    cases hd : s.active.dropWhile (·.1 != name) with
    | nil =>
      have hn : name ∉ s.active.map Prod.fst := by
        simpa only [dropWhile_eq_nil_iff,bne_iff_ne,mem_map,not_exists,not_and] using hd
      rw [rollbackToSavepoint,h.others name hn]
      exact h
    | cons p rest =>
      obtain ⟨t',ht,hshow⟩ := h.rollback hd
      rw [ht]
      exact hshow

end Buffer.Shows

theorem Buffer.Shows.run {t : Buffer Op} {s : SqlBuffer Op} (h : t.Shows s) {cs : List (BufferCall Op)}
    (hf : s.FreshRun cs) : (cs.foldl Buffer.step t).Shows (cs.foldl SqlBuffer.step s) := by
  induction cs generalizing t s with
  | nil => exact h
  | cons c cs ih => exact ih (h.step hf.1) hf.2

theorem savepoints_follow_sql (cs : List (BufferCall Op)) (hf : SqlBuffer.FreshRun {} cs) :
    Buffer.Shows (cs.foldl Buffer.step {}) (cs.foldl SqlBuffer.step {}) :=
  Buffer.Shows.run ⟨rfl,rfl,rfl,by simp,fun _ _ => rfl,by simp,by simp,by simp⟩ hf

def savepointCalls : List (BufferCall Nat) :=
  [.addOp 1,.savepoint "a",.addOp 2,.savepoint "b",.addOp 3,.rollbackToSavepoint "a"]

theorem savepoints_a_b : SqlBuffer.FreshRun {} savepointCalls ∧
    Buffer.Shows (savepointCalls.foldl Buffer.step {}) ⟨[1],[("a",[1])]⟩ := by
  have hf : SqlBuffer.FreshRun {} savepointCalls := by
    simp [savepointCalls,SqlBuffer.FreshRun,SqlBuffer.Fresh,SqlBuffer.step]
  exact ⟨hf,savepoints_follow_sql savepointCalls hf⟩

theorem savepoint_again_loses_b :
    let cs : List (BufferCall Nat) := [.savepoint "a",.savepoint "b",.savepoint "a",.rollbackToSavepoint "a"]
    (cs.foldl SqlBuffer.step {}).active.map Prod.fst = ["a","b"] ∧
      (cs.foldl Buffer.step {}).savepointOrder = ["a"] ∧ (cs.foldl Buffer.step {}).savepoints "b" = none := by
  decide

end VaultDB.Tx
