import Mathlib.Data.List.Perm.Basic
import Mathlib.Logic.Relation
set_option autoImplicit false

/-!
The wait-for graph of `storage/deadlock.go`.

A graph is the list of its edges in the order they were added; those of one waiter are its entry in
`wfg`.
-/

namespace VaultDB.Storage.DeadlockDetector
open List Relation

abbrev Graph := List (Nat × Nat)
def holders (g : Graph) (waiter : Nat) : List Nat := (g.filter fun e => e.1 = waiter).map Prod.snd

structure Marks where
  visited : List Nat
  stack : List Nat

section
variable (g : Graph)
def visit (dfs : Nat → Marks → Option (Bool × Marks)) : List Nat → Marks → Option (Bool × Marks)
  | [], m => some (false,m)
  | w :: ws, m =>
    if w ∉ m.visited then
      match dfs w m with
      | some (false,m') => visit dfs ws m'
      | r => r
    else if w ∈ m.stack then some (true,m)
    else visit dfs ws m

/-- `none` when more than so many calls are nested. -/
def dfs : Nat → Nat → Marks → Option (Bool × Marks)
  | 0, _, _ => none
  | n+1, node, m =>
    match visit (dfs n) (holders g node) ⟨node :: m.visited,node :: m.stack⟩ with
    | some (false,m') => some (false,{ m' with stack := m'.stack.erase node })
    | r => r

def detectCycle (n start : Nat) : Option Bool := (dfs g n start ⟨[],[]⟩).map Prod.fst
end

inductive Call where
  | addEdge (waiter holder : Nat)
  | removeEdge (waiter holder : Nat)
  | removeNode (tx : Nat)

def Call.run (g : Graph) : Call → Graph
  | .addEdge w h => g++[(w,h)]
  | .removeEdge w h => g.erase (w,h)
  | .removeNode tx => g.filter fun e => e.1 ≠ tx ∧ e.2 ≠ tx

section
variable {g : Graph}
def Waits (g : Graph) (v w : Nat) : Prop := (v,w) ∈ g
def Deadlocked (g : Graph) (v : Nat) : Prop := ∃ c, ReflTransGen (Waits g) v c ∧ TransGen (Waits g) c c

/-- Nodes that `dfs` has left, the last one first: each waits only for nodes left before it. -/
def Left (g : Graph) : List Nat → Prop
  | [] => True
  | v :: vs => (∀ w, Waits g v w → w ∈ vs) ∧ Left g vs

theorem mem_holders {v w : Nat} : w ∈ holders g v ↔ Waits g v w := by simp [holders,Waits]

variable {vs : List Nat}
theorem Left.reach {v w : Nat} (h : Left g vs) (hv : v ∈ vs) (hw : ReflTransGen (Waits g) v w) : w ∈ vs := by
  induction hw with
  | refl => exact hv
  | tail _ hbc ih =>
    clear hv
    induction vs with
    | nil => cases ih
    | cons x vs ihvs =>
      rcases mem_cons.1 ih with rfl | ih
      · exact mem_cons_of_mem _ (h.1 _ hbc)
      · exact mem_cons_of_mem _ (ihvs h.2 ih)

theorem Left.not_cycle {c : Nat} (h : Left g vs) (hc : c ∈ vs) : ¬TransGen (Waits g) c c := by
  induction vs with
  | nil => cases hc
  | cons x vs ih =>
    intro hcc
    by_cases hold : c ∈ vs
    · exact ih h.2 hold hcc
    obtain rfl : c = x := by simpa [hold] using hc
    obtain ⟨w,hw,hwc⟩ := TransGen.head'_iff.1 hcc
    exact hold (h.2.reach (h.1 w hw) hwc)

section
variable (g : Graph) (nodes : List Nat)
structure Good (m : Marks) (vs : List Nat) : Prop where
  left : Left g vs
  nodup : m.visited.Nodup
  nodes : m.visited ⊆ nodes
  visited : ∀ x, x ∈ m.visited ↔ x ∈ vs ∨ x ∈ m.stack

/-- A call for the nodes `ws`, for which `v` waits, has found a cycle, or has left them all. -/
def Ends (v : Nat) (ws : List Nat) (m : Marks) (vs : List Nat) (r : Option (Bool × Marks)) : Prop :=
  (∃ m', r = some (true,m') ∧ Deadlocked g v) ∨ ∃ m' vs', r = some (false,m') ∧
    Good g nodes m' vs' ∧ vs ⊆ vs' ∧ ws ⊆ vs' ∧
    m'.stack = m.stack ∧ m.visited.length ≤ m'.visited.length

def Searches (n : Nat) (f : Nat → Marks → Option (Bool × Marks)) : Prop :=
  ∀ w m vs, Good g nodes m vs → w ∉ m.visited → w ∈ nodes → (∀ x ∈ m.stack, ReflTransGen (Waits g) x w) →
    nodes.length < n+m.visited.length → Ends g nodes w [w] m vs (f w m)
end

variable {nodes : List Nat} {n v : Nat}
theorem visit_ends {f : Nat → Marks → Option (Bool × Marks)} (hf : Searches g nodes n f) {ws : List Nat} {m : Marks}
    (hg : Good g nodes m vs) (hws : ∀ w ∈ ws, Waits g v w ∧ w ∈ nodes)
    (hv : ∀ x ∈ m.stack, ReflTransGen (Waits g) x v) (hn : nodes.length < n+m.visited.length) :
    Ends g nodes v ws m vs (visit f ws m) := by
  induction ws generalizing m vs with
  | nil => exact .inr ⟨m,vs,rfl,hg,fun _ => id,nil_subset vs,rfl,Nat.le_refl _⟩
  | cons w ws ih =>
    obtain ⟨⟨hw,hnw⟩,hws⟩ := forall_mem_cons.1 hws
    rw [visit]
    by_cases hvis : w ∈ m.visited
    · rw [if_neg (not_not.2 hvis)]
      by_cases hst : w ∈ m.stack
      · rw [if_pos hst]
        -- the nodes on the stack wait for `v`
        exact .inl ⟨m,rfl,w,.single hw,.tail' (hv w hst) hw⟩
      · rw [if_neg hst]
        rcases ih hg hws hv hn with he | ⟨m',vs',hr,hg',hsub,hws',hrest⟩
        · exact .inl he
        · have hleft := ((hg.visited w).1 hvis).resolve_right hst
          exact .inr ⟨m',vs',hr,hg',hsub,cons_subset.2 ⟨hsub hleft,hws'⟩,hrest⟩
    · rw [if_pos hvis]
      rcases hf w m vs hg hvis hnw (fun x hx => (hv x hx).tail hw) hn with
        ⟨m',hr,c,hwc,hcc⟩ | ⟨m₁,vs₁,hr,hg₁,hsub₁,hw₁,hst₁,hlen₁⟩
      · rw [hr]
        exact .inl ⟨m',rfl,c,.head hw hwc,hcc⟩
      · rw [hr]
        rcases ih hg₁ hws (hst₁ ▸ hv) (by omega) with he | ⟨m',vs',hr,hg',hsub,hws',hst,hlen⟩
        · exact .inl he
        · refine .inr ⟨m',vs',hr,hg',fun x hx => hsub (hsub₁ hx),?_,hst.trans hst₁,by omega⟩
          exact cons_subset.2 ⟨hsub (hw₁ mem_cons_self),hws'⟩

theorem searches_dfs (hnodes : ∀ {v w}, Waits g v w → w ∈ nodes) (n : Nat) : Searches g nodes n (dfs g n) := by
  induction n with
  | zero =>
    intro w m vs hg hw hnw _ hn
    have hle := (subperm_of_subset (nodup_cons.2 ⟨hw,hg.nodup⟩) (cons_subset.2 ⟨hnw,hg.nodes⟩)).length_le
    rw [length_cons] at hle
    omega
  | succ n ih =>
    intro w m vs hg hw hnw hst hn
    have hg' : Good g nodes ⟨w :: m.visited,w :: m.stack⟩ vs := by
      refine ⟨hg.left,nodup_cons.2 ⟨hw,hg.nodup⟩,cons_subset.2 ⟨hnw,hg.nodes⟩,fun x => ?_⟩
      simp only [mem_cons,hg.visited x]
      exact or_left_comm
    have hws : ∀ u ∈ holders g w, Waits g w u ∧ u ∈ nodes := fun u hu => ⟨mem_holders.1 hu,hnodes (mem_holders.1 hu)⟩
    rw [dfs]
    rcases visit_ends ih hg' hws (forall_mem_cons.2 ⟨.refl,hst⟩) (by rw [length_cons]; omega) with
      ⟨m',hr,he⟩ | ⟨m',vs',hr,hg'',hsub,hws,hst',hlen⟩
    · rw [hr]
      exact .inl ⟨m',rfl,he⟩
    · rw [hr]
      have hst'' : m'.stack.erase w = m.stack := by rw [hst',erase_cons_head]
      refine .inr ⟨_,w :: vs',rfl,⟨⟨fun u hu => hws (mem_holders.2 hu),hg''.left⟩,hg''.nodup,hg''.nodes,fun x => ?_⟩,
        fun x hx => mem_cons_of_mem w (hsub hx),by simp,hst'',Nat.le_of_succ_le hlen⟩
      rw [hst'',hg''.visited x,hst',mem_cons,mem_cons]
      exact or_left_comm.trans or_assoc.symm
end

/-- How often the waiter is recorded as waiting for the holder after one more call. -/
def Call.tally (waiter holder n : Nat) : Call → Nat
  | .addEdge w h => if w = waiter ∧ h = holder then n+1 else n
  | .removeEdge w h => if w = waiter ∧ h = holder then n-1 else n
  | .removeNode tx => if tx = waiter ∨ tx = holder then 0 else n

theorem Call.count_run (g : Graph) (c : Call) (w h : Nat) : (c.run g).count (w,h) = c.tally w h (g.count (w,h)) := by
  cases c with
  | addEdge w' h' => by_cases heq : w' = w ∧ h' = h <;> simp [run,tally,count_append,heq]
  | removeEdge w' h' =>
    by_cases heq : w' = w ∧ h' = h
    · simp [run,tally,heq]
    · rw [run,tally,if_neg heq,count_erase_of_ne (by simpa [eq_comm] using heq)]
  | removeNode tx =>
    by_cases heq : tx = w ∨ tx = h
    · rw [run,tally,if_pos heq,count_eq_zero]
      rcases heq with rfl | rfl <;> simp
    · rw [not_or] at heq
      rw [run,tally,if_neg (by simp [heq]),count_filter (by simp [Ne.symm heq.1,Ne.symm heq.2])]

/-- A transaction waits for another one if more edges between them were added than removed since the
last time one of them was taken out. -/
theorem waits_iff_tally (calls : List Call) (w h : Nat) :
    Waits (calls.foldl Call.run []) w h ↔ 0 < calls.foldl (Call.tally w h) 0 := by
  have hcount : ∀ (calls : List Call) (g : Graph),
      (calls.foldl Call.run g).count (w,h) = calls.foldl (Call.tally w h) (g.count (w,h)) := by
    intro calls
    induction calls with
    | nil => exact fun _ => rfl
    | cons c calls ih =>
      intro g
      rw [foldl_cons,foldl_cons,ih,c.count_run]
  rw [Waits,← count_pos_iff,hcount,count_nil]

/-- After any calls `AddEdge` comes to an end, and tells whether a cycle can be reached from the
waiter. -/
theorem addEdge_iff_deadlock (calls : List Call) (waiter holder : Nat) :
    let g := (Call.addEdge waiter holder).run (calls.foldl Call.run [])
    ∃ n₀, ∀ n ≥ n₀, ∃ found, detectCycle g n waiter = some found ∧ (found = true ↔ Deadlocked g waiter) := by
  intro g
  refine ⟨(waiter :: g.map Prod.snd).length+1,fun n hn => ?_⟩
  have hs : Searches g (waiter :: g.map Prod.snd) n (dfs g n) :=
    searches_dfs (fun hw => mem_cons_of_mem _ (mem_map_of_mem hw)) n
  rcases hs waiter ⟨[],[]⟩ [] ⟨trivial,nodup_nil,nil_subset _,by simp⟩ not_mem_nil mem_cons_self (by simp) hn with
    ⟨m,hr,he⟩ | ⟨m,vs,hr,hg,-,hw,-⟩
  · exact ⟨true,by rw [detectCycle,hr]; rfl,fun _ => he,fun _ => rfl⟩
  · refine ⟨false,by rw [detectCycle,hr]; rfl,fun h => absurd h (by decide),fun ⟨c,hc,hcc⟩ => ?_⟩
    exact absurd hcc (hg.left.not_cycle (hg.left.reach (hw mem_cons_self) hc))

end VaultDB.Storage.DeadlockDetector
