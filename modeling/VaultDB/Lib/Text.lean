import Mathlib.Data.String.Basic
import Mathlib.Tactic.Common
set_option autoImplicit false

/-!
Texts in the order of their characters.  Strings are compared byte by byte, and in UTF-8 this
is the order of the code points.
-/

namespace VaultDB

def charsLt : List Char → List Char → Bool
  | _, [] => false
  | [], _ :: _ => true
  | c :: cs, d :: ds => decide (c.toNat < d.toNat) || (c == d && charsLt cs ds)

def textLt (a b : String) : Bool := charsLt a.toList b.toList

def compareText (a b : String) : Ordering :=
  if textLt a b then .lt else if a == b then .eq else .gt

theorem charsLt_iff {as bs : List Char} : charsLt as bs = true ↔ as < bs := by
  fun_induction charsLt as bs with
  | case1 as => simp
  | case2 => simp
  | case3 c cs d ds ih =>
    simp only [Bool.or_eq_true,decide_eq_true_eq,Bool.and_eq_true,beq_iff_eq,ih,List.cons_lt_cons_iff]
    rfl

variable {a b : String}
theorem textLt_iff : textLt a b = true ↔ a < b := charsLt_iff.trans String.lt_iff_toList_lt.symm

theorem compareText_eq : compareText = compare := by
  funext a b
  simp only [compareText,textLt_iff,beq_iff_eq]
  exact (LinearOrder.compare_eq_compareOfLessAndEq a b).symm

instance : Std.TransCmp compareText := compareText_eq ▸ inferInstanceAs (Std.TransOrd String)

section
variable {α : Type} [DecidableEq α] {sep : α} {as bs xs ys : List α} (h : as++sep :: xs = bs++sep :: ys)
include h
theorem append_sep_inj (hc : as.count sep = bs.count sep) : as = bs ∧ xs = ys := by
  induction as generalizing bs with
  | nil =>
    cases bs with
    | nil => exact ⟨rfl,(List.cons.inj h).2⟩
    | cons b bs =>
      obtain ⟨rfl,-⟩ := List.cons.inj h
      simp at hc
  | cons a as ih =>
    cases bs with
    | nil =>
      obtain ⟨rfl,-⟩ := List.cons.inj h
      simp at hc
    | cons b bs =>
      obtain ⟨rfl,htail⟩ := List.cons.inj h
      obtain ⟨rfl,hxs⟩ := ih htail (by simpa [List.count_cons] using hc)
      exact ⟨rfl,hxs⟩

theorem append_first_sep_inj (ha : sep ∉ as) (hb : sep ∉ bs) : as = bs ∧ xs = ys :=
  append_sep_inj h (by rw [List.count_eq_zero_of_not_mem ha,List.count_eq_zero_of_not_mem hb])
end

theorem flatMap_separated_inj {α : Type} [DecidableEq α] {sep : α} {xs ys : List (List α)} (hx : ∀ x ∈ xs, sep ∉ x)
    (hy : ∀ y ∈ ys, sep ∉ y) (h : xs.flatMap (·++[sep]) = ys.flatMap (·++[sep])) : xs = ys := by
  induction xs generalizing ys with
  | nil =>
    cases ys with
    | nil => rfl
    | cons y ys => simp at h
  | cons x xs ih =>
    cases ys with
    | nil => simp at h
    | cons y ys =>
      rw [List.forall_mem_cons] at hx hy
      simp only [List.flatMap_cons,List.append_assoc,List.singleton_append] at h
      obtain ⟨rfl,hrest⟩ := append_first_sep_inj h hx.1 hy.1
      rw [ih hx.2 hy.2 hrest]

theorem not_mem_toDigits {c : Char} (hc : c.isDigit = false) (n : Nat) : c ∉ Nat.toDigits 10 n := by
  intro h
  simp [Nat.isDigit_of_mem_toDigits (by decide) (by decide) h] at hc

theorem toDigits_inj : Function.Injective (Nat.toDigits 10) := by
  intro n m h
  rw [← Nat.ofDigitChars_toDigits (b := 10) (n := n) (by decide) (by decide),h,
    Nat.ofDigitChars_toDigits (by decide) (by decide)]

end VaultDB
