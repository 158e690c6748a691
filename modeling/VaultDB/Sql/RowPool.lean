import VaultDB.Sql.Joins
set_option autoImplicit false

/-!
The pool of rows that outer joins take their padding from, after `storage/pool.go`.

A pooled row is a slice of length zero over an array that keeps what was last written, so the model
keeps the arrays. `sync.Pool` may hand out any of them or a new one, and forget any at any time.
-/

namespace VaultDB.Sql
open List Option

inductive RowUse where
  | hashPad | loopPad | group
  deriving DecidableEq, Repr

structure InUse where
  use : RowUse
  len : Nat
  row : Row
  deriving DecidableEq, Repr

structure RowPool where
  free : List Row := []
  inUse : List InUse := []
  deriving DecidableEq, Repr

def getRow (pooled : Option Row) : Row := pooled.getD (nullRow 16)

def getRowWithLen (n : Nat) (pooled : Option Row) : Row :=
  if (getRow pooled).length < n then nullRow n else getRow pooled

inductive PoolStep where
  | take (use : RowUse) (n : Nat) (choice : Option Nat)
  | write (j i : Nat) (v : Value)
  | put (j : Nat)
  | leave (j : Nat)
  | collect (i : Nat)
  deriving DecidableEq, Repr

namespace RowPool
variable (p : RowPool)
def chosen (choice : Option Nat) : Option Row := choice.bind fun i => p.free[i]?
def putRow (r : Row) : List Row := if 256 < r.length then p.free else r :: p.free

def taken (use : RowUse) (n : Nat) (choice : Option Nat) : InUse :=
  let r := getRowWithLen n (p.chosen choice)
  ⟨use,n,if use = .loopPad then nullRow n++r.drop n else r⟩

def step : PoolStep → RowPool
  | .take use n choice =>
    { free := match choice with
        | some i => p.free.eraseIdx i
        | none => p.free
      inUse := p.taken use n choice :: p.inUse }
  | .write j i v =>
    { p with inUse := p.inUse.modify j fun u =>
        if u.use = .group ∧ i < u.len then { u with row := u.row.set i v } else u }
  | .put j =>
    match p.inUse[j]? with
    | some u => ⟨p.putRow u.row,p.inUse.eraseIdx j⟩
    | none => p
  | .leave j => { p with inUse := p.inUse.eraseIdx j }
  | .collect i => { p with free := p.free.eraseIdx i }

def run (steps : List PoolStep) : RowPool := steps.foldl step p

/-- A grouped query gives a row back only if all its values are NULL. -/
def Clean : PoolStep → Prop
  | .put j => ∀ u, p.inUse[j]? = some u → u.use = .group → ∀ v ∈ u.row.take u.len, v = .null
  | _ => True

def CleanRun : RowPool → List PoolStep → Prop
  | _, [] => True
  | p, s :: steps => p.Clean s ∧ CleanRun (p.step s) steps

structure Blank (p : RowPool) : Prop where
  free : ∀ r ∈ p.free, ∀ v ∈ r, v = .null
  pads : ∀ u ∈ p.inUse, u.use ≠ .group → ∀ v ∈ u.row, v = .null
  rest : ∀ u ∈ p.inUse, ∀ v ∈ u.row.drop u.len, v = .null

variable {p}
theorem mem_nullRow {n : Nat} {v : Value} (h : v ∈ nullRow n) : v = .null := eq_of_mem_replicate h

theorem Blank.getRowWithLen (h : p.Blank) (n : Nat) (choice : Option Nat) :
    ∀ v ∈ getRowWithLen n (p.chosen choice), v = .null := by
  intro v hv
  unfold Sql.getRowWithLen getRow at hv
  cases hc : p.chosen choice with
  | none =>
    simp only [hc,getD_none] at hv
    split at hv <;> exact mem_nullRow hv
  | some r =>
    simp only [hc,getD_some] at hv
    split at hv
    · exact mem_nullRow hv
    · obtain ⟨i,-,hi⟩ := bind_eq_some_iff.1 hc
      exact h.free r (mem_of_getElem? hi) v hv

theorem Blank.taken (h : p.Blank) (use : RowUse) (n : Nat) (choice : Option Nat) :
    ∀ v ∈ (p.taken use n choice).row, v = .null := by
  intro v hv
  simp only [RowPool.taken] at hv
  split at hv
  · rcases mem_append.1 hv with hv | hv
    · exact mem_nullRow hv
    · exact h.getRowWithLen n choice v (mem_of_mem_drop hv)
  · exact h.getRowWithLen n choice v hv

theorem drop_set_of_lt {r : Row} {i n : Nat} (h : i < n) (v : Value) : (r.set i v).drop n = r.drop n := by
  rw [drop_set,if_pos h]

theorem Blank.put (h : p.Blank) {j : Nat} (hc : p.Clean (.put j)) : (p.step (.put j)).Blank := by
  cases hu : p.inUse[j]? with
  | none => simpa only [step,hu] using h
  | some u =>
    have hmem := mem_of_getElem? hu
    have hrow : ∀ v ∈ u.row, v = .null := by
      by_cases hg : u.use = .group
      · intro v hv
        rw [← take_append_drop u.len u.row] at hv
        rcases mem_append.1 hv with hv | hv
        · exact hc u hu hg v hv
        · exact h.rest u hmem v hv
      · exact h.pads u hmem hg
    simp only [step,hu]
    refine ⟨fun r hr => ?_,fun w hw => h.pads w (mem_of_mem_eraseIdx hw), fun w hw =>
      h.rest w (mem_of_mem_eraseIdx hw)⟩
    unfold putRow at hr
    split at hr
    · exact h.free r hr
    · rcases mem_cons.1 hr with rfl | hr
      · exact hrow
      · exact h.free r hr

theorem Blank.step (h : p.Blank) {s : PoolStep} (hc : p.Clean s) : (p.step s).Blank := by
  cases s with
  | take use n choice =>
    refine ⟨?_,fun u hu hg => ?_,fun u hu v hv => ?_⟩
    · cases choice with
      | none => exact h.free
      | some i => exact fun r hr => h.free r (mem_of_mem_eraseIdx hr)
    · rcases mem_cons.1 hu with rfl | hu
      · exact h.taken use n choice
      · exact h.pads u hu hg
    · rcases mem_cons.1 hu with rfl | hu
      · exact h.taken use n choice v (mem_of_mem_drop hv)
      · exact h.rest u hu v hv
  | write j i v =>
    have hold : ∀ u ∈ p.inUse.modify j fun u =>
        if u.use = .group ∧ i < u.len then { u with row := u.row.set i v } else u,
        ∃ u' ∈ p.inUse, u.use = u'.use ∧ (u.use ≠ .group → u.row = u'.row) ∧ u.row.drop u.len =
          u'.row.drop u'.len := by
      intro u hu
      obtain ⟨k,hk⟩ := mem_iff_getElem?.1 hu
      rw [getElem?_modify] at hk
      obtain ⟨u',hu',hm⟩ := map_eq_some_iff.1 hk
      refine ⟨u',mem_of_getElem? hu',?_⟩
      subst hm
      by_cases hjk : j = k
      · by_cases hg : u'.use = .group ∧ i < u'.len
        · simp [hjk,hg,drop_set_of_lt hg.2]
        · simp [hjk,hg]
      · simp [hjk]
    refine ⟨h.free,fun u hu hg => ?_,fun u hu => ?_⟩
    · obtain ⟨u',hu',huse,hrow,-⟩ := hold u hu
      rw [hrow hg]
      exact h.pads u' hu' (huse ▸ hg)
    · obtain ⟨u',hu',-,-,hdrop⟩ := hold u hu
      rw [hdrop]
      exact h.rest u' hu'
  | put j => exact h.put hc
  | leave j =>
    exact ⟨h.free,fun u hu => h.pads u (mem_of_mem_eraseIdx hu),fun u hu => h.rest u (mem_of_mem_eraseIdx hu)⟩
  | collect i => exact ⟨fun r hr => h.free r (mem_of_mem_eraseIdx hr),h.pads,h.rest⟩

theorem Blank.run (h : p.Blank) {steps : List PoolStep} (hc : CleanRun p steps) : (p.run steps).Blank := by
  induction steps generalizing p with
  | nil => exact h
  | cons s steps ih => exact ih (h.step hc.1) hc.2

def padding (p : RowPool) (choice : Option Nat) (n : Nat) : Row := (Sql.getRowWithLen n (p.chosen choice)).take n

theorem length_padding (p : RowPool) (choice : Option Nat) (n : Nat) : (p.padding choice n).length = n := by
  have hlen : n ≤ (Sql.getRowWithLen n (p.chosen choice)).length := by
    unfold Sql.getRowWithLen
    split
    · simp [nullRow]
    · omega
  simp [padding,hlen]

theorem Blank.padding (h : p.Blank) (choice : Option Nat) (n : Nat) : p.padding choice n = nullRow n := by
  refine eq_replicate_iff.2 ⟨length_padding p choice n,fun v hv => ?_⟩
  exact h.getRowWithLen n choice v (mem_of_mem_take hv)

def groupSteps (choice : Option Nat) (values : Row) : List PoolStep :=
  .take .group values.length choice :: (values.zipIdx.map fun x => .write 0 x.2 x.1)++[.put 0]

end RowPool

section
variable {cols : Nat × Nat} {left right : List Joined}
structure LeftPadded (cols : Nat × Nat) (n : Nat) (left right out : List Joined) : Prop where
  rows : ∀ row ∈ out, (∃ l ∈ left, ∃ r ∈ right, hashMatch cols l r = true ∧ row = l.append r) ∨
    ∃ l ∈ left, (∀ r ∈ right, hashMatch cols l r = false) ∧ row.flat = l.flat++nullRow n
  padded : ∀ l ∈ left, (∀ r ∈ right, hashMatch cols l r = false) → ∃ row ∈ out, row.flat = l.flat++nullRow n

structure RightPadded (cols : Nat × Nat) (n : Nat) (left right out : List Joined) : Prop where
  rows : ∀ row ∈ out, (∃ l ∈ left, ∃ r ∈ right, hashMatch cols l r = true ∧ row = l.append r) ∨
    ∃ r ∈ right, (∀ l ∈ left, hashMatch cols l r = false) ∧ row.flat = nullRow n++r.flat
  padded : ∀ r ∈ right, (∀ l ∈ left, hashMatch cols l r = false) → ∃ row ∈ out, row.flat = nullRow n++r.flat

theorem mem_pairRows {test : Joined → Joined → Bool} {row : Joined} :
    row ∈ pairRows test left right ↔ ∃ l ∈ left, ∃ r ∈ right, test l r = true ∧ row = l.append r := by
  simp only [pairRows,List.mem_flatMap,List.mem_map,List.mem_filter]
  constructor
  · rintro ⟨l,hl,r,⟨hr,ht⟩,rfl⟩
    exact ⟨l,hl,r,hr,ht,rfl⟩
  · rintro ⟨l,hl,r,hr,ht,rfl⟩
    exact ⟨l,hl,r,⟨hr,ht⟩,rfl⟩

theorem leftRows_padded (n : Nat) : LeftPadded cols n left right
    (leftRows (hashMatch cols) (nullRow n) left right) := by
  have hany : ∀ l, right.any (hashMatch cols l) = false ↔ ∀ r ∈ right, hashMatch cols l r = false := by simp
  constructor
  · intro row hrow
    obtain ⟨l,hl,hrow⟩ := mem_flatMap.1 hrow
    cases ha : right.any (hashMatch cols l) with
    | true =>
      simp only [ha,if_true,List.mem_map,List.mem_filter] at hrow
      obtain ⟨r,⟨hr,ht⟩,rfl⟩ := hrow
      exact .inl ⟨l,hl,r,hr,ht,rfl⟩
    | false =>
      simp only [ha,Bool.false_eq_true,if_false,mem_singleton] at hrow
      subst hrow
      exact .inr ⟨l,hl,(hany l).1 ha,rfl⟩
  · intro l hl hnone
    refine ⟨l.append (.padding (nullRow n)),mem_flatMap.2 ⟨l,hl,?_⟩,rfl⟩
    simp [(hany l).2 hnone]

theorem rightRows_padded (n : Nat) : RightPadded cols n left right (pairRows (hashMatch cols) left right++
    unmatchedRight (hashMatch cols) (nullRow n) left right) := by
  have hmem : ∀ row, row ∈ unmatchedRight (hashMatch cols) (nullRow n) left right ↔
      ∃ r ∈ right, (∀ l ∈ left, hashMatch cols l r = false) ∧ row = (Joined.padding (nullRow n)).append r := by
    intro row
    simp only [unmatchedRight,List.mem_map,List.mem_filter,Bool.not_eq_true',List.any_eq_false,Bool.not_eq_true]
    constructor
    · rintro ⟨r,⟨hr,hn⟩,rfl⟩
      exact ⟨r,hr,hn,rfl⟩
    · rintro ⟨r,hr,hn,rfl⟩
      exact ⟨r,⟨hr,hn⟩,rfl⟩
  constructor
  · intro row hrow
    rcases mem_append.1 hrow with hrow | hrow
    · exact .inl (mem_pairRows.1 hrow)
    · obtain ⟨r,hr,hn,rfl⟩ := (hmem row).1 hrow
      exact .inr ⟨r,hr,hn,rfl⟩
  · intro r hr hn
    exact ⟨_,mem_append_right _ ((hmem _).2 ⟨r,hr,hn,rfl⟩),rfl⟩

/-- After any queries that have given back only rows of NULLs, whichever array the pool hands
out, the hash joins pad with NULLs. -/
theorem outer_hash_joins_pad_null {steps : List PoolStep} (hclean : RowPool.CleanRun {} steps) (choice : Option Nat)
    {ctx : Context} (hpool : ctx.pooledRow = (RowPool.run {} steps).padding choice) {cond : Expr}
    {leftSchema rightSchema : TableSchema} (hcols : extractEquiJoinCols cond leftSchema rightSchema = some cols) :
    (∃ out, tryHashJoinLeft ctx cond leftSchema rightSchema left right = some out ∧
      LeftPadded cols rightSchema.columns.length left right out) ∧
    ∃ out, tryHashJoinRight ctx cond leftSchema rightSchema left right = some out ∧
      RightPadded cols leftSchema.columns.length left right out := by
  have hblank : (RowPool.run {} steps).Blank := RowPool.Blank.run ⟨by simp,by simp,by simp⟩ hclean
  have hnull : ∀ n, ctx.pooledRow n = nullRow n := fun n => by rw [hpool,hblank.padding]
  simp only [tryHashJoinLeft,tryHashJoinRight,hcols,map_some,hnull]
  exact ⟨⟨_,rfl,leftRows_padded _⟩,⟨_,rfl,rightRows_padded _⟩⟩

def afterCount : List PoolStep := RowPool.groupSteps none [.text "sales",.int 3]

def accountsContext (steps : List PoolStep) : Context where
  ev := plainEvaluator
  storage := .ofTables []
  dbName := "app"
  pooledRow := (RowPool.run {} steps).padding (some 0)

def accountsSchema : TableSchema := ⟨"accounts",[{ name := "id" }],[],false,[],none⟩
def loginsSchema : TableSchema := ⟨"logins",[{ name := "account" },{ name := "at" }],[],false,[],none⟩
def hasLogin : Expr := .binary .eq (.columnRef "accounts" "id") (.columnRef "logins" "account")

/-- An account without logins shows the count of the query before. -/
theorem left_join_shows_old_group : (tryHashJoinLeft (accountsContext afterCount) hasLogin
      accountsSchema loginsSchema
      [Joined.ofRow "accounts" [.int 7]] []).map (List.map Joined.flat) = some [[.int 7, .text "sales", .int 3]] := by
  decide +kernel

/-- Another LEFT JOIN in between does no harm. -/
theorem left_join_after_left_join :
    (∃ out, tryHashJoinLeft (accountsContext [.take .hashPad 2 none, .put 0]) hasLogin accountsSchema loginsSchema
        [Joined.ofRow "accounts" [.int 7]] [] = some out ∧
      LeftPadded (0, 0) 2 [Joined.ofRow "accounts" [.int 7]] [] out) ∧
    ∃ out, tryHashJoinRight (accountsContext [.take .hashPad 2 none, .put 0]) hasLogin accountsSchema loginsSchema
        [Joined.ofRow "accounts" [.int 7]] [] = some out ∧
      RightPadded (0, 0) 1 [Joined.ofRow "accounts" [.int 7]] [] out := by
  have hcols : extractEquiJoinCols hasLogin accountsSchema loginsSchema = some (0,0) := by decide
  have hclean : RowPool.CleanRun {} [.take .hashPad 2 none,.put 0] := by
    refine ⟨trivial,fun u hu hg => ?_,trivial⟩
    cases hu
    cases hg
  exact outer_hash_joins_pad_null hclean (some 0) rfl hcols
end
end VaultDB.Sql
