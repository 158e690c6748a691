import Mathlib.Data.List.Basic
set_option autoImplicit false

/-!
A cache of bounded size that forgets what was used least recently.
-/

namespace VaultDB
open List

structure Lru (κ ν : Type) where
  entries : List (κ × ν) := []
  maxSize : Nat
  pos : 0 < maxSize

namespace Lru
variable {κ ν : Type} {c : Lru κ ν} {P Q : κ → ν → Prop}
def All (P : κ → ν → Prop) (c : Lru κ ν) : Prop := ∀ e ∈ c.entries, P e.1 e.2
def drop (c : Lru κ ν) (p : κ × ν → Bool) : Lru κ ν := { c with entries := c.entries.filter fun e => !p e }
theorem All.mono (h : c.All P) (hpq : ∀ k v, P k v → Q k v) : c.All Q := fun e he => hpq _ _ (h e he)

theorem All.drop (h : c.All P) {p : κ × ν → Bool} (hpq : ∀ k v, P k v → p (k,v) = false → Q k v) :
    (c.drop p).All Q := by
  intro x hx
  have hmem := mem_filter.1 hx
  exact hpq x.1 x.2 (h x hmem.1) (by simpa using hmem.2)

variable [DecidableEq κ]
def get (c : Lru κ ν) (key : κ) : Option ν × Lru κ ν :=
  match c.entries.find? fun e => e.1 = key with
  | none => (none,c)
  | some e => (some e.2,{ c with entries := e :: c.entries.filter fun x => x.1 ≠ key })

def put (c : Lru κ ν) (key : κ) (v : ν) : Lru κ ν :=
  if c.entries.any fun e => e.1 = key then
    { c with entries := (key,v) :: c.entries.filter fun x => x.1 ≠ key }
  else { c with entries := (key,v) :: c.entries.take (c.maxSize-1) }

theorem All.get (h : c.All P) (key : κ) : (c.get key).2.All P := by
  unfold Lru.get
  cases hf : c.entries.find? fun e => e.1 = key with
  | none => exact h
  | some e =>
    intro x hx
    rcases mem_cons.1 hx with rfl | hx
    · exact h x (mem_of_find?_eq_some hf)
    · exact h x (mem_of_mem_filter hx)

theorem All.found (h : c.All P) {key : κ} {v : ν} (hv : (c.get key).1 = some v) : P key v := by
  unfold Lru.get at hv
  cases hf : c.entries.find? fun e => e.1 = key with
  | none => simp [hf] at hv
  | some e =>
    have hkey : e.1 = key := by simpa using List.find?_some hf
    have hval : e.2 = v := by simpa [hf] using hv
    rw [← hkey,← hval]
    exact h e (mem_of_find?_eq_some hf)

theorem All.put (h : c.All P) {key : κ} {v : ν} (hv : P key v) : (c.put key v).All P := by
  intro x hx
  unfold Lru.put at hx
  split at hx
  · rcases mem_cons.1 hx with rfl | hx
    · exact hv
    · exact h x (mem_of_mem_filter hx)
  · rcases mem_cons.1 hx with rfl | hx
    · exact hv
    · exact h x (mem_of_mem_take hx)

end Lru
end VaultDB
