import VaultDB.Sql.Syntax
import Mathlib.Data.List.DropRight
set_option autoImplicit false

/-!
The keys of composite indexes, after `index/composite.go`.
-/

namespace VaultDB.Sql.CompositeIndex
open List

/-- `unicode.IsSpace`, `unicode.ToLower` and the text of a float in the format `'f'`. -/
structure Chars where
  isSpace : Char → Bool
  toLower : Char → Char
  fixed : String → String
  space : isSpace ' ' = true

section
variable (L : Chars)
def trimSpace (s : List Char) : List Char := (s.dropWhile L.isSpace).rdropWhile L.isSpace
def pad (s : String) : List Char := replicate (20-(s.toList.dropWhile (· == '-')).length) ' '++s.toList
def bit (b : Bool) : List Char := [if b then '1' else '0']
def strip (s : List Char) : List Char := trimSpace L ((trimSpace L s).dropWhile (· == '-'))

mutual

/-- `none` when more than so many calls are nested. -/
def formatAny : Nat → Value → Option (List Char)
  | 0, _ => none
  | n+1, v => (formatAnyRaw n v).map fun s => if strip L s = [] then ['0'] else strip L s

def formatAnyRaw : Nat → Value → Option (List Char)
  | 0, _ => none
  | _+1, .text s => some s.toList
  | _+1, .int i => some (toString i).toList
  | _+1, .bool b => some (bit b)
  | n+1, v => (formatAny n v).map (strip L)
end

def formatValue (n : Nat) : Value → Option (List Char)
  | .text s => some s.toList
  | .int i => some (pad (toString i))
  | .float r => some (pad (L.fixed r))
  | .bool b => some (bit b)
  | v => (formatAny L n v).map (strip L)

def formatIndexValue (n : Nat) : Value → Option (List Char)
  | .null => some []
  | v => (formatValue L n v).map fun s => (trimSpace L s).map L.toLower

def join : List (List Char) → List Char
  | [] => []
  | [s] => s
  | s :: t :: parts => s++ '\x00' :: join (t :: parts)

def compositeKey (n : Nat) (colIndex : List Nat) (values : Row) : Option (List Char) :=
  (colIndex.mapM fun ci => (values[ci]?).elim (some []) (formatIndexValue L n)).map join

def printed : Value → List Char
  | .text s => s.toList
  | .int i => (toString i).toList
  | .float r => (L.fixed r).toList
  | .bool b => bit b
  | _ => []

/-- How a value looks: its text without blanks at the ends and without case; NULL and a column the
row does not have look like the empty text. -/
def look (v : Option Value) : List Char := (trimSpace L (printed L (v.getD .null))).map L.toLower

def Scalars (cols : List Nat) (r : Row) : Prop := ∀ ci ∈ cols, ∀ s, r[ci]? ≠ some (.object s)

variable {L} {v v' : Value} {n : Nat} {cols : List Nat} {r r' : Row}
theorem trimSpace_pad (s : String) : trimSpace L (pad s) = trimSpace L s.toList := by
  rw [trimSpace,pad,dropWhile_append_of_pos]
  · rfl
  · intro c hc
    rw [(mem_replicate.1 hc).2]
    exact L.space

theorem formatIndexValue_scalar (h : ∀ s, v ≠ .object s) : formatIndexValue L n v = some (look L (some v)) := by
  cases v with
  | null => rfl
  | object s => exact absurd rfl (h s)
  | text | bool => rfl
  | int | float =>
    simp only [formatIndexValue,formatValue,look,printed,Option.map_some,trimSpace_pad,Option.getD_some]

theorem formatAny_object (s : String) (n : Nat) :
    formatAny L n (.object s) = none ∧ formatAnyRaw L n (.object s) = none := by
  induction n with
  | zero => exact ⟨rfl,rfl⟩
  | succ n ih => simp [formatAny,formatAnyRaw,ih]

theorem formatIndexValue_object (s : String) : formatIndexValue L n (.object s) = none := by
  simp [formatIndexValue,formatValue,(formatAny_object s n).1]

theorem compositeKey_scalars (h : Scalars cols r) :
    compositeKey L n cols r = some (join (cols.map fun ci => look L r[ci]?)) := by
  refine congrArg (Option.map join) (?_ : _ = some _)
  induction cols with
  | nil => rfl
  | cons ci cols ih =>
    obtain ⟨hv,h⟩ := forall_mem_cons.1 h
    have hpart : (r[ci]?).elim (some []) (formatIndexValue L n) = some (look L r[ci]?) := by
      cases hr : r[ci]? with
      | none => rfl
      | some v => exact formatIndexValue_scalar fun s hs => hv s (hr.trans (congrArg some hs))
    simp [mapM_cons,hpart,ih h]

theorem scalars_of_compositeKey {k : List Char} (h : compositeKey L n cols r = some k) : Scalars cols r := by
  intro ci hci s hs
  obtain ⟨parts,hparts,-⟩ := Option.map_eq_some_iff.1 h
  clear h
  induction cols generalizing parts with
  | nil => exact absurd hci not_mem_nil
  | cons c cols ih =>
    simp only [mapM_cons,Option.pure_def,Option.bind_eq_bind,Option.bind_eq_some_iff] at hparts
    obtain ⟨part,hpart,rest,hrest,-⟩ := hparts
    rcases mem_cons.1 hci with rfl | hci
    · rw [hs,Option.elim_some,formatIndexValue_object] at hpart
      cases hpart
    · exact ih hci rest hrest

theorem join_inj {ps qs : List (List Char)} (hlen : ps.length = qs.length) (hp : ∀ s ∈ ps, '\x00' ∉ s)
    (hq : ∀ s ∈ qs, '\x00' ∉ s) (h : join ps = join qs) : ps = qs := by
  fun_induction join ps generalizing qs with
  | case1 => exact (length_eq_zero_iff.1 hlen.symm).symm
  | case2 s =>
    obtain ⟨t,rfl⟩ := length_eq_one_iff.1 hlen.symm
    exact congrArg ([·]) h
  | case3 s t parts ih =>
    match qs, hlen with
    | s' :: t' :: parts', hlen =>
      rw [forall_mem_cons] at hp hq
      obtain ⟨rfl,htail⟩ := append_first_sep_inj h hp.1 hq.1
      rw [ih (by simpa using hlen) hp.2 hq.2 htail]

end

def ascii : Chars := ⟨(· == ' '),Char.toLower,id,rfl⟩

end VaultDB.Sql.CompositeIndex
