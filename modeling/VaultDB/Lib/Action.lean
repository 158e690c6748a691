import Mathlib.Tactic.Common
set_option autoImplicit false

/-!
Operations on a state that may fail and then keep what they did, with rules of pre- and
postconditions for them.
-/

namespace VaultDB.Lib

def Action (ε σ α : Type) := σ → Except ε α × σ

namespace Action
variable {ε σ α β : Type} {m : Action ε σ α}
def bind (m : Action ε σ α) (f : α → Action ε σ β) : Action ε σ β := fun s =>
  match m s with
  | (.ok a,t) => f a t
  | (.error e,t) => (.error e,t)

instance : Monad (Action ε σ) where
  pure a := fun s => (.ok a,s)
  bind := Action.bind

def fail (e : ε) : Action ε σ α := fun s => (.error e,s)
def get : Action ε σ σ := fun s => (.ok s,s)
def modify (f : σ → σ) : Action ε σ Unit := fun s => (.ok (),f s)
def ofExcept (x : Except ε α) : Action ε σ α := fun s => (x,s)
def mapError (f : ε → ε) (m : Action ε σ α) : Action ε σ α := fun s => ((m s).1.mapError f,(m s).2)

/-- From a state with `P` the operation ends in one with `Q`, or fails in one with `E`. -/
def Spec (P : σ → Prop) (m : Action ε σ α) (Q : α → σ → Prop) (E : σ → Prop) : Prop :=
  ∀ s, P s → (∀ a, (m s).1 = .ok a → Q a (m s).2) ∧ ∀ e, (m s).1 = .error e → E (m s).2

variable {P : σ → Prop} {Q : α → σ → Prop} {R : β → σ → Prop} {E : σ → Prop}
theorem Spec.pure {a : α} (h : ∀ s, P s → Q a s) : Spec P (Pure.pure a : Action ε σ α) Q E := by
  intro s hs
  refine ⟨?_,fun e he => by cases he⟩
  rintro b hb
  cases hb
  exact h s hs

theorem Spec.fail {e : ε} (h : ∀ s, P s → E s) : Spec P (Action.fail e) Q E := by
  intro s hs
  exact ⟨fun a ha => (by cases ha),fun e' _ => h s hs⟩

theorem Spec.get : Spec P (Action.get : Action ε σ σ) (fun a s => a = s ∧ P s) E := by
  intro s hs
  refine ⟨?_,fun e he => by cases he⟩
  rintro a ha
  cases ha
  exact ⟨rfl,hs⟩

theorem Spec.modify {f : σ → σ} {Q : Unit → σ → Prop} (h : ∀ s, P s → Q () (f s)) :
    Spec P (Action.modify f : Action ε σ Unit) Q E := by
  intro s hs
  exact ⟨fun _ _ => h s hs,fun e he => by cases he⟩

theorem Spec.ofExcept {x : Except ε α} (hok : ∀ a s, x = .ok a → P s → Q a s) (herr : ∀ s, P s → E s) :
    Spec P (Action.ofExcept x) Q E := by
  intro s hs
  exact ⟨fun a ha => hok a s ha hs,fun _ _ => herr s hs⟩

theorem Spec.mapError {f : ε → ε} (h : Spec P m Q E) : Spec P (m.mapError f) Q E := by
  intro s hs
  obtain ⟨hok,herr⟩ := h s hs
  rcases hm : (m s).1 with e | a
  · refine ⟨fun a ha => ?_,fun _ _ => herr e hm⟩
    simp [Action.mapError,hm,Except.mapError] at ha
  · refine ⟨fun b hb => ?_,fun e he => ?_⟩
    · have hb : a = b := by simpa [Action.mapError,hm,Except.mapError] using hb
      exact hb ▸ hok a hm
    · simp [Action.mapError,hm,Except.mapError] at he

theorem Spec.bind {f : α → Action ε σ β} (hm : Spec P m Q E) (hf : ∀ a, Spec (Q a) (f a) R E) :
    Spec P (m >>= f) R E := by
  intro s hs
  obtain ⟨hok,herr⟩ := hm s hs
  change (∀ b, (Action.bind m f s).1 = .ok b → R b (Action.bind m f s).2) ∧
    ∀ e, (Action.bind m f s).1 = .error e → E (Action.bind m f s).2
  rw [Action.bind]
  rcases h : m s with ⟨e | a,t⟩ <;> rw [h] at hok herr
  · exact ⟨fun b hb => (by cases hb),fun _ _ => herr e rfl⟩
  · exact hf a t (hok a rfl)

theorem Spec.read {f : σ → Action ε σ β} (h : ∀ s, P s → Spec (· = s) (f s) R E) : Spec P (Action.get >>= f) R E :=
  fun s hs => h s hs s rfl

theorem Spec.weaken {P' : σ → Prop} {Q' : α → σ → Prop} (h : Spec P m Q E) (hP : ∀ s, P' s → P s)
    (hQ : ∀ a s, Q a s → Q' a s) : Spec P' m Q' E := by
  intro s hs
  obtain ⟨hok,herr⟩ := h s (hP s hs)
  exact ⟨fun a ha => hQ a _ (hok a ha),herr⟩

theorem Spec.pre {p : Prop} (h : p → Spec P m Q E) : Spec (fun s => p ∧ P s) m Q E := fun s hs => h hs.1 s hs.2

theorem Spec.final {I : σ → Prop} (h : Spec P m (fun _ => I) I) {s : σ} (hs : P s) : I (m s).2 := by
  obtain ⟨hok,herr⟩ := h s hs
  rcases hm : (m s).1 with e | a
  · exact herr e hm
  · exact hok a hm

end Action
end VaultDB.Lib
