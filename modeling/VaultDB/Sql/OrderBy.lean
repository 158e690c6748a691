import VaultDB.Sql.Joins
set_option autoImplicit false

/-!
ORDER BY.

`CompareOrdering` orders NULL with values of one kind, and the sort is right on keys for which it is
an order.
-/

namespace VaultDB.Sql
open Std Value Floats List
namespace Floats
variable (fl : Floats)
def number (r : String) : Option fl.F := (fl.parse r).filter fun x => !fl.isNaN x

structure Ranked where
  rank : fl.F → Int
  eq_iff : ∀ x y, fl.isNaN x = false → fl.isNaN y = false → (fl.eq x y = true ↔ rank x = rank y)
  lt_iff : ∀ x y, fl.isNaN x = false → fl.isNaN y = false → (fl.lt x y = true ↔ rank x < rank y)

theorem isNaN_of_number {fl : Floats} {r : String} {x : fl.F} (h : fl.number r = some x) : fl.isNaN x = false := by
  simpa using (Option.filter_eq_some_iff.1 h).2

end Floats

section
variable (fl : Floats)
/-- The fast path for numbers is that of two integers; on others it compares what `ToFloat` returns.
-/
def compareOrdering : Value → Value → Ordering
  | .null, .null => .eq
  | .null, _ => .lt
  | _, .null => .gt
  | .int m, .int n => compare m n
  | a, b =>
    match fl.toFloat a, fl.toFloat b, a, b with
    | some x, some y, _, _ => if fl.lt x y then .lt else if fl.lt y x then .gt else .eq
    | _, _, .text s, .text t => compareText s t
    | _, _, .bool p, .bool q => compare p q
    | _, _, _, _ => .eq

inductive OrderKind where
  | int
  | bool
  | text
  | number

def OrderKind.Holds : OrderKind → Value → Prop
  | _, .null => True
  | .int, .int _ => True
  | .bool, .bool _ => True
  | .text, .text s => fl.parse s = none
  | .number, .text s => (fl.number s).isSome = true
  | .number, .float s => (fl.number s).isSome = true
  | _, _ => False

variable {fl} (hr : fl.Ranked)
def numberKey (s : String) : Nat × Int × String := (fl.number s).elim (1,0,s) fun x => (1,hr.rank x,"")

def sortKey : Value → Nat × Int × String
  | .int n => (1,n,"")
  | .bool b => (1,b.toNat,"")
  | .text s | .float s => numberKey hr s
  | _ => (0,0,"")

def keyOrder (a b : Value) : Ordering :=
  compareLex (compareOn fun k => k.1) (compareLex (compareOn fun k => k.2.1) fun k l => compareText k.2.2 l.2.2)
    (sortKey hr a) (sortKey hr b)

theorem transCmp_on {α β : Type} {cmp : β → β → Ordering} [TransCmp cmp] (f : α → β) :
    TransCmp fun a b => cmp (f a) (f b) where
  eq_swap := OrientedCmp.eq_swap
  isLE_trans := TransCmp.isLE_trans

instance : TransCmp (keyOrder hr) := by
  have htext : TransCmp fun k l : Nat × Int × String => compareText k.2.2 l.2.2 := transCmp_on _
  exact transCmp_on (sortKey hr)

theorem compare_bool : ∀ p q : Bool, compare p q = compare (p.toNat : Int) q.toNat := by decide

theorem OrderKind.number_cases {v : Value} (h : OrderKind.number.Holds fl v) : v = .null ∨
    ∃ x, fl.toFloat v = some x ∧ fl.isNaN x = false ∧ sortKey hr v = (1,hr.rank x,"") ∧ ∀ n, v ≠ .int n := by
  cases v with
  | null => exact .inl rfl
  | text s | float s =>
    obtain ⟨x,hx⟩ := Option.isSome_iff_exists.1 h
    have hparse := (Option.filter_eq_some_iff.1 hx).1
    refine .inr ⟨x,?_,isNaN_of_number hx,by simp [sortKey,numberKey,hx],by simp⟩
    first | exact hparse | exact hx
  | _ => exact h.elim

theorem compareOrdering_number {a b : Value} (ha : OrderKind.number.Holds fl a) (hb : OrderKind.number.Holds fl b) :
    compareOrdering fl a b = keyOrder hr a b := by
  have hempty : compareText "" "" = .eq := by decide
  rcases OrderKind.number_cases hr ha with rfl | ⟨x,hx,hnx,hka,hia⟩
  · rcases OrderKind.number_cases hr hb with rfl | ⟨y,hy,hny,hkb,-⟩
    · simp [compareOrdering,keyOrder,sortKey,compareLex,compareOn,hempty]
    · rw [keyOrder,hkb]
      cases b <;> first | rfl | simp [sortKey] at hkb
  · rcases OrderKind.number_cases hr hb with rfl | ⟨y,hy,hny,hkb,-⟩
    · rw [keyOrder,hka]
      cases a <;> first | rfl | simp [sortKey] at hka
    · have hna : a ≠ .null := by rintro rfl; cases hka
      have hnb : b ≠ .null := by rintro rfl; cases hkb
      have hxy := hr.lt_iff x y hnx hny
      have hyx := hr.lt_iff y x hny hnx
      have hlt : compareOrdering fl a b = if fl.lt x y then .lt else if fl.lt y x then .gt else .eq := by
        cases a <;> cases b <;> simp_all [compareOrdering,OrderKind.Holds]
      rw [hlt,keyOrder,hka,hkb]
      simp only [hxy,hyx,compareLex,compareOn,hempty,compare,compareOfLessAndEq]
      grind

theorem compareOrdering_eq {k : OrderKind} {a b : Value} (ha : k.Holds fl a) (hb : k.Holds fl b) :
    compareOrdering fl a b = keyOrder hr a b := by
  have hempty : compareText "" "" = .eq := by decide
  have hless : compare 0 1 = .lt := rfl
  have hgreater : compare 1 0 = .gt := rfl
  have hnone : ∀ {s}, fl.parse s = none → fl.number s = none := fun h => by simp [number,h]
  cases k with
  | number => exact compareOrdering_number hr ha hb
  | _ =>
    cases a <;> cases b <;> simp only [OrderKind.Holds] at ha hb <;>
      simp_all [compareOrdering,keyOrder,sortKey,numberKey,compareLex,compareOn,toFloat,toFloatFast,compare_bool]
end

theorem pairwise_sort {α : Type} {cmp : α → α → Ordering} (_ : TransCmp cmp) {less : α → α → Bool} {l : List α}
    (h : ∀ a ∈ l, ∀ b ∈ l, less a b = (cmp a b).isLT) :
    (l.mergeSort fun a b => !less b a).Pairwise fun a b => less b a = false := by
  have hswap : ∀ a b, cmp b a = (cmp a b).swap := fun a b => OrientedCmp.eq_swap
  have hle : ∀ a ∈ l, ∀ b ∈ l, (!less b a) = (cmp a b).isLE := by
    intro a ha b hb
    rw [h b hb a ha,hswap]
    cases cmp a b <;> rfl
  have hsort : (l.mergeSort fun a b => !less b a).map id = (l.map id).mergeSort fun a b =>
    (cmp a b).isLE := map_mergeSort hle
  rw [map_id,map_id] at hsort
  have hsorted : (l.mergeSort fun a b => (cmp a b).isLE).Pairwise fun a b => (cmp a b).isLE = true := by
    refine pairwise_mergeSort (fun a b c => TransCmp.isLE_trans) (fun a b => ?_) l
    rw [hswap a b]
    cases cmp a b <;> rfl
  rw [← hsort] at hsorted
  refine hsorted.imp_of_mem fun {a b} ha hb hab => ?_
  rw [← hle a (mem_mergeSort.1 ha) b (mem_mergeSort.1 hb)] at hab
  simpa using hab

section
variable {fl : Floats} (hr : fl.Ranked) {α : Type} (key : OrderItem → α → Value)
def rowOrder : List OrderItem → α → α → Ordering
  | [] => fun _ _ => .eq
  | item :: items => compareLex (if item.desc then fun a b => keyOrder hr (key item b) (key item a)
      else fun a b => keyOrder hr (key item a) (key item b)) (rowOrder items)

theorem transCmp_rowOrder (items : List OrderItem) : TransCmp (rowOrder hr key items) := by
  induction items with
  | nil => exact { eq_swap := rfl, isLE_trans := fun _ _ => rfl }
  | cons item items ih =>
    rw [rowOrder]
    split
    · have := @transCmp_on _ _ (fun a b => keyOrder hr b a) TransCmp.opposite (key item)
      infer_instance
    · have := @transCmp_on _ _ (keyOrder hr) _ (key item)
      infer_instance

variable {hr key}
theorem orderLess_eq {ctx : Context} (hctx : ctx.compareOrdering = compareOrdering fl)
    {items : List OrderItem} {a b : α}
    (h : ∀ item ∈ items, ∃ k : OrderKind, k.Holds fl (key item a) ∧ k.Holds fl (key item b)) :
    orderLess ctx items (items.map fun item => some (key item a)) (items.map fun item => some (key item b)) =
      (rowOrder hr key items a b).isLT := by
  induction items with
  | nil => rfl
  | cons item items ih =>
    rw [forall_mem_cons] at h
    obtain ⟨⟨k,hka,hkb⟩,h⟩ := h
    have hswap : keyOrder hr (key item b) (key item a) =
      (keyOrder hr (key item a) (key item b)).swap := OrientedCmp.eq_swap
    simp only [map_cons,orderLess,hctx,compareOrdering_eq hr hka hkb,ih h,rowOrder,compareLex]
    cases item.desc <;> cases ho : keyOrder hr (key item a) (key item b) <;> simp [ho,hswap]

def itemKey (ctx : Context) (schema : TableSchema) (ci : Option ColumnIndex) (item : OrderItem)
    (row : Joined) : Value :=
  (ctx.ev.evalOperand item.expr row.flat schema ci).toOption.getD .null

end

def wholeRanked : Floats.whole.Ranked where
  rank := id
  eq_iff (x y : Int) _ _ := by
    change (x == y) = true ↔ x = y
    exact beq_iff_eq
  lt_iff (x y : Int) _ _ := by
    change decide (x < y) = true ↔ x < y
    exact decide_eq_true_iff

def nineAndTen : Floats :=
  { Floats.whole with parse := fun s =>
    if s = "9" then some (9 : Int) else if s = "10" then some (10 : Int) else none }

def keySchema : TableSchema := ⟨"m",[{ name := "k" }],[],false,[],none⟩
def byKey : SelectStatement := { tableName := "m", orderBy := [⟨.columnRef "" "k",true⟩] }
def keyContext : Context := { employeesContext with compareOrdering := compareOrdering nineAndTen }
def nineAndTenRanked : nineAndTen.Ranked := ⟨id,wholeRanked.eq_iff,wholeRanked.lt_iff⟩

end VaultDB.Sql
