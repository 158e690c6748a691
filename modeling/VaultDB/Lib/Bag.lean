import Mathlib.Data.List.Perm.Basic
import Mathlib.Data.List.Count
import Mathlib.Data.Multiset.Bind
set_option autoImplicit false

/-!
Lists up to the order of their elements, where they are put together row by row.
-/

namespace VaultDB.Lib
open List
variable {α β γ : Type} {p q : α → Bool} {l : List α}
theorem perm_flatMap_iff [DecidableEq α] [DecidableEq γ] {xs : List α} {f g : α → List γ} (key : γ → α)
    (hf : ∀ x ∈ xs, ∀ y ∈ f x, key y = x) (hg : ∀ x ∈ xs, ∀ y ∈ g x, key y = x) :
    (xs.flatMap f).Perm (xs.flatMap g) ↔ ∀ x ∈ xs, (f x).Perm (g x) := by
  have hcount : ∀ {h : α → List γ}, (∀ x ∈ xs, ∀ y ∈ h x, key y = x) → ∀ y,
      (xs.flatMap h).count y = xs.count (key y)*(h (key y)).count y := by
    intro h hh y
    clear hf hg
    induction xs with
    | nil => simp
    | cons x xs ih =>
      rw [flatMap_cons,count_append,ih fun x hx => hh x (mem_cons_of_mem _ hx),count_cons]
      by_cases hx : x = key y
      · subst hx
        simp [Nat.add_mul,Nat.add_comm]
      · have hzero : (h x).count y = 0 := by
          refine count_eq_zero.2 fun hy => hx ?_
          exact (hh x mem_cons_self y hy).symm
        simp [hx,hzero]
  constructor
  · intro hp x hx
    refine perm_iff_count.2 fun y => ?_
    by_cases hy : key y = x
    · have := perm_iff_count.1 hp y
      rw [hcount hf,hcount hg,hy] at this
      exact Nat.eq_of_mul_eq_mul_left (count_pos_iff.2 hx) this
    · rw [count_eq_zero.2 fun hm => hy (hf x hx y hm),count_eq_zero.2 fun hm => hy (hg x hx y hm)]
  · exact List.Perm.flatMap_left xs

theorem filter_perm_iff [DecidableEq β] {ys : List β} {p q : β → Bool} :
    (ys.filter p).Perm (ys.filter q) ↔ ∀ y ∈ ys, p y = q y := by
  constructor
  · intro h y hy
    have hmem := h.mem_iff (a := y)
    simp only [mem_filter,hy,true_and] at hmem
    exact Bool.eq_iff_iff.2 hmem
  · intro h
    rw [filter_congr h]

theorem flatMap_swap (xs : List α) (ys : List β) (f : α → β → List γ) :
    (xs.flatMap fun x => ys.flatMap fun y => f x y).Perm (ys.flatMap fun y => xs.flatMap fun x => f x y) := by
  induction xs with
  | nil => simp
  | cons x xs ih =>
    simp only [flatMap_cons]
    exact (List.Perm.append_left _ ih).trans (flatMap_append_perm ys _ _)

theorem map_filter_eq_flatMap (ys : List β) (p : β → Bool) (f : β → γ) :
    (ys.filter p).map f = ys.flatMap fun y => if p y then [f y] else [] := by
  induction ys with
  | nil => rfl
  | cons y ys ih =>
    cases hp : p y with
    | false => simp [hp,ih]
    | true => simp [hp,ih]

theorem perm_map_filter_iff {f : α → β} :
    ((l.filter fun x => p x && q x).map f).Perm ((l.filter q).map f) ↔ ∀ x ∈ l, q x = true → p x = true := by
  constructor
  · intro h x hx hq
    have hlen := h.length_eq
    rw [length_map,length_map] at hlen
    have hsub : (l.filter fun x => p x && q x).Sublist (l.filter q) :=
      monotone_filter_right l fun x hx => by simp_all
    have hmem : x ∈ l.filter fun x => p x && q x := by
      rw [hsub.eq_of_length hlen]
      exact mem_filter.2 ⟨hx,hq⟩
    simp_all
  · intro h
    rw [filter_congr fun x hx => ?_]
    cases hq : q x with
    | false => simp
    | true => simp [h x hx hq]

theorem filter_or_perm (l : List α) (h : ∀ x ∈ l, ¬(p x = true ∧ q x = true)) :
    (l.filter p++l.filter q).Perm (l.filter fun x => p x || q x) := by
  induction l with
  | nil => simp
  | cons x l ih =>
    have ih := ih fun y hy => h y (mem_cons_of_mem x hy)
    have hx := h x mem_cons_self
    cases hp : p x with
    | true =>
      have hq : q x = false := by simp_all
      simpa [hp,hq] using ih
    | false =>
      cases hq : q x with
      | true =>
        simp only [hp,hq,filter_cons,Bool.or_true,Bool.false_eq_true,if_false,if_true]
        exact perm_middle.trans (ih.cons x)
      | false => simpa [hp,hq] using ih

theorem flatMap_bins_perm {κ : Type} [DecidableEq κ] (key : α → κ) (f : α → β) (l : List α)
    {ts : List κ} (h : ts.Nodup) :
    (ts.flatMap fun t => (l.filter fun x => key x = t).map f).Perm ((l.filter fun x => key x ∈ ts).map f) := by
  induction ts with
  | nil => simp
  | cons t ts ih =>
    rw [nodup_cons] at h
    have hdis : ∀ x ∈ l, ¬(decide (key x = t) = true ∧ decide (key x ∈ ts) = true) := by
      rintro x - ⟨h1,h2⟩
      simp only [decide_eq_true_eq] at h1 h2
      exact h.1 (h1 ▸ h2)
    rw [flatMap_cons]
    refine ((ih h.2).append_left _).trans ?_
    rw [← map_append]
    refine ((filter_or_perm l hdis).trans (.of_eq ?_)).map f
    refine filter_congr fun x _ => ?_
    simp [mem_cons]

end VaultDB.Lib
