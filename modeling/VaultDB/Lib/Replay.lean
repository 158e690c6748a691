import Mathlib.Data.List.Basic
import Mathlib.Tactic.Common
set_option autoImplicit false

/-!
Replaying a log: a fallible step over a list of records, and the case where every record acts on one
cell of a keyed store.
-/

namespace VaultDB.Lib
open List

def replay {S ο ε : Type} (run : S → ο → Except ε S) : List ο → S → Except ε S
  | [], s => .ok s
  | o :: os, s =>
    match run s o with
    | .ok s' => replay run os s'
    | .error e => .error e

section
variable {S ο ε : Type} {run : S → ο → Except ε S} {s s' : S}
@[simp] theorem replay_nil (s : S) : replay run [] s = .ok s := rfl

theorem replay_cons_eq_ok {o : ο} {os : List ο} :
    replay run (o :: os) s = .ok s' ↔ ∃ s1, run s o = .ok s1 ∧ replay run os s1 = .ok s' := by
  simp only [replay]
  cases run s o with
  | ok s1 => simp
  | error e => simp

theorem replay_append_eq_ok {xs ys : List ο} :
    replay run (xs++ys) s = .ok s' ↔ ∃ s1, replay run xs s = .ok s1 ∧ replay run ys s1 = .ok s' := by
  induction xs generalizing s with
  | nil => simp
  | cons x xs ih =>
    simp only [cons_append,replay_cons_eq_ok,ih]
    constructor
    · rintro ⟨s1,h1,s2,h2,h3⟩
      exact ⟨s2,⟨s1,h1,h2⟩,h3⟩
    · rintro ⟨s2,⟨s1,h1,h2⟩,h3⟩
      exact ⟨s1,h1,s2,h2,h3⟩
end

structure Keyed (S κ σ ο ε : Type) where
  run : S → ο → Except ε S
  view : S → κ → σ
  key : ο → Option κ
  step : σ → ο → Except ε σ
  Good : S → Prop
  Covered : ο → Prop
  good_run : ∀ s o s', Good s → Covered o → run s o = .ok s' → Good s'
  view_key : ∀ s o s' c, Good s → Covered o → key o = some c → run s o = .ok s' →
    step (view s c) o = .ok (view s' c)
  view_other : ∀ s o s' c, Good s → Covered o → key o ≠ some c → run s o = .ok s' →
    view s' c = view s c

namespace Keyed
variable {S κ σ ο ε : Type} {os : List ο}
variable [DecidableEq κ]
def ofCell (K : Keyed S κ σ ο ε) (c : κ) (os : List ο) : List ο := os.filter fun o => K.key o = some c

theorem replay_view (K : Keyed S κ σ ο ε) {s s' : S} (hc : ∀ o ∈ os, K.Covered o)
    (hg : K.Good s) (h : replay K.run os s = .ok s') (c : κ) :
    replay K.step (K.ofCell c os) (K.view s c) = .ok (K.view s' c) := by
  induction os generalizing s with
  | nil => cases h; rfl
  | cons o os ih =>
    obtain ⟨s1,h1,h2⟩ := replay_cons_eq_ok.1 h
    have ho := hc o mem_cons_self
    have hrest := ih (fun o ho => hc o (mem_cons_of_mem _ ho)) (K.good_run s o s1 hg ho h1) h2
    by_cases hk : K.key o = some c
    · rw [ofCell,filter_cons_of_pos (by simpa using hk),replay_cons_eq_ok]
      exact ⟨_,K.view_key s o s1 c hg ho hk h1,hrest⟩
    · rw [ofCell,filter_cons_of_neg (by simpa using hk)]
      rwa [K.view_other s o s1 c hg ho hk h1] at hrest

def Progress (K : Keyed S κ σ ο ε) : Prop := ∀ s o, K.Good s → K.Covered o →
  (∀ c, K.key o = some c → ∃ x, K.step (K.view s c) o = .ok x) → ∃ s', K.run s o = .ok s'

theorem replay_total (K : Keyed S κ σ ο ε) (hprog : K.Progress) {s : S}
    (hc : ∀ o ∈ os, K.Covered o) (hg : K.Good s) (h : ∀ c, ∃ x, replay K.step (K.ofCell c os) (K.view s c) = .ok x) :
    ∃ s', replay K.run os s = .ok s' := by
  induction os generalizing s with
  | nil => exact ⟨s,rfl⟩
  | cons o os ih =>
    have ho := hc o mem_cons_self
    obtain ⟨s1,h1⟩ := hprog s o hg ho fun c hk => by
      obtain ⟨x,hx⟩ := h c
      rw [ofCell,filter_cons_of_pos (by simpa using hk),replay_cons_eq_ok] at hx
      obtain ⟨y,hy,-⟩ := hx
      exact ⟨y,hy⟩
    have hg1 := K.good_run s o s1 hg ho h1
    obtain ⟨s',h'⟩ := ih (fun o ho => hc o (mem_cons_of_mem _ ho)) hg1 fun c => by
      obtain ⟨x,hx⟩ := h c
      refine ⟨x,?_⟩
      by_cases hk : K.key o = some c
      · rw [ofCell,filter_cons_of_pos (by simpa using hk),replay_cons_eq_ok] at hx
        obtain ⟨y,hy,hx⟩ := hx
        have hv := K.view_key s o s1 c hg ho hk h1
        rw [hy] at hv
        rwa [← Except.ok.inj hv]
      · rw [ofCell,filter_cons_of_neg (by simpa using hk)] at hx
        rwa [K.view_other s o s1 c hg ho hk h1]
    exact ⟨s',replay_cons_eq_ok.2 ⟨s1,h1,h'⟩⟩

end Keyed
end VaultDB.Lib
