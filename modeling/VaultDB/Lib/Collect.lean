import Mathlib.Tactic.Common
set_option autoImplicit false

/-!
A loop that takes items from a state until there is none, as a list.
-/

namespace VaultDB.Lib
section
variable {σ α : Type} (next : σ → Option (α × σ))
def collect : Nat → σ → List (α × σ)
  | 0, _ => []
  | fuel+1, s =>
    match next s with
    | none => []
    | some (a,s') => (a,s') :: collect fuel s'

def behind (s : σ) (items : List (α × σ)) : σ := items.foldl (fun _ x => x.2) s
@[simp] theorem behind_nil (s : σ) : behind s ([] : List (α × σ)) = s := rfl
@[simp] theorem behind_cons (s : σ) (x : α × σ) (items : List (α × σ)) : behind s (x :: items) =
    behind x.2 items := rfl

variable {next} in
theorem collect_of_none {s : σ} (hs : next s = none) (fuel : Nat) : collect next fuel s = [] := by
  cases fuel <;> simp [collect,hs]

section
variable {next} (size : σ → Nat) (hnext : ∀ {s a s'}, next s = some (a,s') → size s' < size s)
include hnext
theorem collect_fuel {n : Nat} {s : σ} (hn : size s ≤ n) {f g : Nat} (hf : size s ≤ f) (hg : size s ≤ g) :
    collect next f s = collect next g s := by
  induction n generalizing s f g with
  | zero =>
    cases hs : next s with
    | none => rw [collect_of_none hs,collect_of_none hs]
    | some x =>
      have := hnext hs
      omega
  | succ n ih =>
    cases hs : next s with
    | none => rw [collect_of_none hs,collect_of_none hs]
    | some x =>
      obtain ⟨a,s'⟩ := x
      have hlt := hnext hs
      obtain ⟨f,rfl⟩ : ∃ f', f = f'+1 := ⟨f-1,by omega⟩
      obtain ⟨g,rfl⟩ : ∃ g', g = g'+1 := ⟨g-1,by omega⟩
      have hrest : collect next f s' = collect next g s' := ih (by omega) (by omega) (by omega)
      simp only [collect,hs,hrest]

theorem collect_of_some {s s' : σ} {a : α} (hs : next s = some (a,s')) :
    collect next (size s) s = (a,s') :: collect next (size s') s' := by
  have hlt := hnext hs
  have hrest : collect next (size s-1) s' = collect next (size s') s' :=
    collect_fuel size hnext (Nat.le_refl _) (by omega) (Nat.le_refl _)
  rw [show size s = (size s-1)+1 by omega,collect,hs]
  exact congrArg _ hrest

theorem next_behind_collect (s : σ) : next (behind s (collect next (size s) s)) = none := by
  generalize hn : size s = n
  induction n using Nat.strongRecOn generalizing s with
  | ind n ih =>
    subst hn
    cases hs : next s with
    | none => rw [collect_of_none hs,behind_nil,hs]
    | some x =>
      obtain ⟨a,s'⟩ := x
      rw [collect_of_some size hnext hs,behind_cons]
      exact ih _ (hnext hs) s' rfl
end
end
end VaultDB.Lib
