import VaultDB.Sql.VmInterp
set_option autoImplicit false

/-!
Window functions that look at a position of a partition, after `window.go`.

A partition is the list of its rows in window order, and `none` is a panic of the server.
-/

namespace VaultDB.Sql

def toInt64 (fl : Float64) : Value → Option Int
  | .int n => some n
  | .float r => ((fl.parse r).filter fun x => !fl.outOfRange x).map fl.trunc
  | _ => none

section
variable (fl : Float64) (ev : Expr → Row → Option Value) (args : List Expr) (part : List Row) (pos : Nat)
def intArg (i : Nat) : Int := (((part.head?.bind fun row => args[i]?.bind (ev · row))).bind (toInt64 fl)).getD 1

def argAt (i : Int) : Option Value :=
  match args with
  | [] => some .null
  | x :: _ => if i < 0 then none else part[i.toNat]?.map fun row => (ev x row).getD .null

def ntile : Option Int :=
  let n := intArg fl ev args part 0
  if n ≤ 0 then some 0
  else
    let bucketSize := (part.length : Int)/n
    if bucketSize = 0 then none
    else some (if bucketSize*n ≤ pos then n else pos/bucketSize+1)

def outside : Option Value := if 2 ≤ args.length then some .null else argAt ev args part 0

def lag : Option Value :=
  let prevPos := Vm.wrap64 (pos-intArg fl ev args part 1)
  if prevPos < 0 then outside ev args part else argAt ev args part prevPos

def lead : Option Value :=
  let nextPos := Vm.wrap64 (pos+intArg fl ev args part 1)
  if part.length ≤ nextPos then outside ev args part else argAt ev args part nextPos
end

def bucketStart (total n j : Nat) : Nat := j*(total/n)+min j (total%n)

def valueAt (ev : Expr → Row → Option Value) (x : Expr) (part : List Row) (i : Int) : Value :=
  if i < 0 then .null else (part[i.toNat]?.bind (ev x)).getD .null

section
variable {fl : Float64} {ev : Expr → Row → Option Value} {x k : Expr} {part : List Row} {pos : Nat} {n i : Int}
theorem wrap64_of_lt (hl : -2^63 ≤ n) (hu : n < 2^63) : Vm.wrap64 n = n := by
  rw [Vm.wrap64,Int.bmod_def]
  omega

theorem argAt_of_mem (h0 : 0 ≤ i) (hi : i < part.length) : argAt ev [x,k] part i = some (valueAt ev x part i) := by
  have hi' : i.toNat < part.length := by omega
  simp [argAt,valueAt,not_lt.2 h0,List.getElem?_eq_getElem hi']

theorem valueAt_outside (h : i < 0 ∨ part.length ≤ i) : valueAt ev x part i = .null := by
  by_cases h0 : i < 0
  · exact if_pos h0
  · have hi : part.length ≤ i.toNat := by omega
    simp [valueAt,h0,List.getElem?_eq_none hi]

theorem ntile_of_dvd {c : Nat} (hn : intArg fl ev [k] part 0 = c) (hc : 0 < c)
    (hd : c ∣ part.length) (hpos : pos < part.length) :
    ∃ j, ntile fl ev [k] part pos = some ((j+1 : Nat) : Int) ∧ bucketStart part.length c j ≤ pos ∧
      pos < bucketStart part.length c (j+1) := by
  obtain ⟨q,hq⟩ := hd
  have hq0 : 0 < q := Nat.pos_of_ne_zero fun h => by
    rw [h,mul_zero] at hq
    omega
  have hdiv : part.length/c = q := by rw [hq,Nat.mul_div_cancel_left q hc]
  have hmod : part.length%c = 0 := by rw [hq,Nat.mul_mod_right]
  refine ⟨pos/q,?_,?_⟩
  · have hsize : (part.length : Int)/c = q := by exact_mod_cast hdiv
    have hin : ¬(q : Int)*c ≤ pos := by
      rw [mul_comm]
      exact_mod_cast not_le.2 (hq ▸ hpos)
    simp only [ntile,hn,hsize]
    rw [if_neg (by omega),if_neg (by omega),if_neg hin]
    simp
  · simp only [bucketStart,hdiv,hmod,Nat.min_zero,Nat.add_zero]
    exact ⟨Nat.div_mul_le_self pos q,(Nat.div_lt_iff_lt_mul hq0).1 (Nat.lt_succ_self _)⟩

theorem argAt_outside (h : i < 0 ∨ part.length ≤ i) : argAt ev [x,k] part i = none := by
  by_cases h0 : i < 0
  · exact if_pos h0
  · have hi : part.length ≤ i.toNat := by omega
    simp [argAt,h0,List.getElem?_eq_none hi]

/-- With buckets of two sizes the first row behind the smaller size is still in the first bucket. -/
theorem dvd_of_ntile {c : Nat} (hn : intArg fl ev [k] part 0 = c) (hc : 0 < c) (hlen : 0 < part.length)
    (h : ∀ i < part.length, ∃ j, ntile fl ev [k] part i = some ((j+1 : Nat) : Int) ∧
      bucketStart part.length c j ≤ i ∧ i < bucketStart part.length c (j+1)) : c ∣ part.length := by
  by_contra hd
  have hmod : 0 < part.length%c := Nat.pos_of_ne_zero fun h => hd (Nat.dvd_of_mod_eq_zero h)
  have hc2 : 2 ≤ c := by
    rcases Nat.lt_or_ge c 2 with hlt | hge
    · obtain rfl : c = 1 := by omega
      exact absurd (one_dvd _) hd
    · exact hge
  have hdiv := Nat.div_add_mod part.length c
  have hsize : (part.length : Int)/c = (part.length/c : Nat) := by simp
  by_cases hq : part.length/c = 0
  · obtain ⟨j,hj,-⟩ := h 0 hlen
    simp only [ntile,hn,hsize,hq] at hj
    rw [if_neg (by omega),if_pos (by simp)] at hj
    cases hj
  · have hmul : part.length/c*2 ≤ part.length/c*c := Nat.mul_le_mul_left _ hc2
    have hlt : part.length/c < part.length := by
      rw [mul_comm] at hdiv
      omega
    obtain ⟨j,hj,hstart,-⟩ := h _ hlt
    have hin : ¬((part.length/c : Nat) : Int)*c ≤ (part.length/c : Nat) := by
      have : ¬part.length/c*c ≤ part.length/c := by omega
      exact_mod_cast this
    simp only [ntile,hn,hsize] at hj
    rw [if_neg (by omega),if_neg (by exact_mod_cast hq),if_neg hin,Int.ediv_self (by exact_mod_cast hq)] at hj
    obtain rfl : j = 1 := by
      have := Option.some.inj hj
      omega
    simp only [bucketStart] at hstart
    omega

theorem lag_eq_iff (hk : intArg fl ev [x,k] part 1 = n) (hl : -2^63 ≤ n) (hu : n < 2^63) (hpos : pos < part.length)
    (hlen : part.length < 2^63) : lag fl ev [x,k] part pos = some (valueAt ev x part (pos-n)) ↔
      pos-n < part.length ∨ 2^63 ≤ pos-n := by
  simp only [lag,hk]
  by_cases hwrap : pos-n < 2^63
  · rw [wrap64_of_lt (by omega) hwrap]
    split
    · next h0 => simpa [outside,valueAt_outside (.inl h0)] using .inl (by omega)
    · next h0 =>
      by_cases hi : pos-n < part.length
      · simp [argAt_of_mem (not_lt.1 h0) hi,hi]
      · rw [argAt_outside (.inr (not_lt.1 hi))]
        simpa using ⟨by omega,by omega⟩
  · have hneg : Vm.wrap64 (pos-n) < 0 := by
      rw [Vm.wrap64,Int.bmod_def]
      omega
    rw [if_pos hneg,valueAt_outside (.inr (by omega))]
    simpa [outside] using .inr (by omega)

theorem lead_eq_iff (hk : intArg fl ev [x,k] part 1 = n) (hl : -2^63 ≤ n) (hu : n < 2^63) (hpos : pos < part.length)
    (hlen : part.length < 2^63) : lead fl ev [x,k] part pos = some (valueAt ev x part (pos+n)) ↔
      0 ≤ pos+n ∧ pos+n < 2^63 := by
  simp only [lead,hk]
  by_cases hwrap : pos+n < 2^63
  · rw [wrap64_of_lt (by omega) hwrap]
    split
    · next hout => simpa [outside,valueAt_outside (.inr hout)] using ⟨by omega,by omega⟩
    · next hin =>
      by_cases h0 : 0 ≤ pos+n
      · rw [argAt_of_mem h0 (not_le.1 hin)]
        exact iff_of_true rfl ⟨h0,hwrap⟩
      · rw [argAt_outside (.inl (not_le.1 h0))]
        simpa using fun h => absurd h h0
  · have hneg : Vm.wrap64 (pos+n) < 0 := by
      rw [Vm.wrap64,Int.bmod_def]
      omega
    rw [if_neg (by omega),argAt_outside (.inl hneg)]
    simpa using fun _ => not_lt.1 hwrap

/-- The argument is `n`: NTILE needs buckets of one size, LAG and LEAD a row that is not beyond the
end they do not check; otherwise one of the rows gets another value or the server panics. -/
theorem positional_iff (hpos : pos < part.length) (hlen : part.length < 2^63)
    (hn : (part.head?.bind (ev k)).bind (toInt64 fl) = some n) (hl : -2^63 ≤ n) (hu : n < 2^63) :
    (∀ c : Nat, n = c → 0 < c → ((∀ i < part.length, ∃ j, ntile fl ev [k] part i = some ((j+1 : Nat) : Int) ∧
      bucketStart part.length c j ≤ i ∧ i < bucketStart part.length c (j+1)) ↔ c ∣ part.length)) ∧
    (lag fl ev [x,k] part pos = some (valueAt ev x part (pos-n)) ↔ pos-n < part.length ∨ 2^63 ≤ pos-n) ∧
    (lead fl ev [x,k] part pos = some (valueAt ev x part (pos+n)) ↔ 0 ≤ pos+n ∧ pos+n < 2^63) := by
  have harg : intArg fl ev [x,k] part 1 = n := congrArg (Option.getD · 1) hn
  refine ⟨fun c hc hc0 => ?_,lag_eq_iff harg hl hu hpos hlen,lead_eq_iff harg hl hu hpos hlen⟩
  have hfirst : intArg fl ev [k] part 0 = c := (congrArg (Option.getD · 1) hn).trans hc
  exact ⟨dvd_of_ntile hfirst hc0 (by omega),fun hd i hi => ntile_of_dvd hfirst hc0 hd hi⟩
end

def literalOrFirst : Expr → Row → Option Value
  | .value v, _ => some v
  | _, row => row.head?

def partitionOf (xs : List Int) : List Row := xs.map fun n => [.int n]

theorem positional_four : let part := partitionOf [5,6,7,8]
    let two : Expr := .value (.int 2)
    (part.head?.bind (literalOrFirst two)).bind (toInt64 Float64.single) = some 2 ∧
    lag Float64.single literalOrFirst [.columnRef "" "x",two] part 3 = some (.int 6) ∧
    lead Float64.single literalOrFirst [.columnRef "" "x",two] part 3 = some .null := by
  have hn : ((partitionOf [5,6,7,8]).head?.bind (literalOrFirst (.value (.int 2)))).bind
    (toInt64 Float64.single) = some 2 := rfl
  have hpos : 3 < (partitionOf [5,6,7,8]).length := by decide
  have h := positional_iff (x := .columnRef "" "x") hpos (by decide) hn (by decide) (by decide)
  exact ⟨hn,h.2.1.2 (by decide),h.2.2.2 (by decide)⟩

/-- Three rows in five buckets and in two, and offsets that lead out of the partition on the side
that is not checked. -/
theorem positional_faults : let part := partitionOf [5,6,7]
    let run (f : Float64 → (Expr → Row → Option Value) → List Expr → List Row → Nat → Option Value)
        (n : Int) (pos : Nat) :=
      f Float64.single literalOrFirst [.columnRef "" "x",.value (.int n)] part pos
    let tile (n : Int) (pos : Nat) := ntile Float64.single literalOrFirst [.value (.int n)] part pos
    tile 5 0 = none ∧ [0,1,2].map (tile 2) = [some 1,some 2,some 2] ∧ run lag (-3) 0 = none ∧
      run lead (-1) 0 = none := by
  decide

end VaultDB.Sql
