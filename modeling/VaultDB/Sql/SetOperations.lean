import VaultDB.Sql.Cte
set_option autoImplicit false

/-!
The parser of UNION, EXCEPT and INTERSECT.

A SELECT between two operators is one token here, with what `parseSelect` makes of its text: the
statement, up to the operator after it, or an error.
-/

namespace VaultDB.Sql
open List

inductive SetToken where
  | union
  | intersect
  | except
  | all
  | select (parsed : Except String SelectStatement)
  | other (literal : String)

/-- "expected SELECT after set operator" with the token found there, if any, or the error of
`parseSelect`; `fuel` is no error of the parser. -/
inductive SetError where
  | expectedSelect (found : Option SetToken)
  | select (message : String)
  | fuel

def setOperator : List SetToken → Option (SetOp × List SetToken)
  | .union :: .all :: ts => some (.unionAll,ts)
  | .union :: ts => some (.union,ts)
  | .intersect :: ts => some (.intersect,ts)
  | .except :: ts => some (.except,ts)
  | _ => none

def atIntersect : List SetToken → Bool
  | .intersect :: _ => true
  | _ => false

def parseSetOperation : Nat → ReadStatement → List SetToken → Except SetError (ReadStatement × List SetToken)
  | 0, _, _ => .error .fuel
  | n+1, left, ts =>
    match setOperator ts with
    | none => .ok (left,ts)
    | some (_,.select (.error e) :: _) => .error (.select e)
    | some (op,.select (.ok s) :: ts) =>
      -- the comparison is with the whole operator, so UNION ALL is not one of the two
      if (op = .union ∨ op = .except) ∧ atIntersect ts = true then
        match parseSetOperation n (.select s) ts with
        | .error e => .error e
        | .ok (right,ts) => parseSetOperation n (.setOperation op left right) ts
      else parseSetOperation n (.setOperation op left (.select s)) ts
    | some (_,ts) => .error (.expectedSelect ts.head?)

abbrev SetChain := List (SetOp × SelectStatement)

def SetOp.tokens : SetOp → List SetToken
  | .union => [.union]
  | .unionAll => [.union,.all]
  | .intersect => [.intersect]
  | .except => [.except]

def SetChain.tokens (chain : SetChain) : List SetToken :=
  chain.flatMap fun x => x.1.tokens++[.select (.ok x.2)]

def closeLeft : Option (SetOp × ReadStatement) → ReadStatement → ReadStatement
  | none, term => term
  | some (op,left), term => .setOperation op left term

def sqlTree : Option (SetOp × ReadStatement) → ReadStatement → SetChain → ReadStatement
  | before, term, [] => closeLeft before term
  | before, term, (.intersect,s) :: chain => sqlTree before (.setOperation .intersect term (.select s)) chain
  | before, term, (op,s) :: chain => sqlTree (some (op,closeLeft before term)) (.select s) chain

/-- INTERSECT comes first, or it is all that is left after a UNION or EXCEPT. -/
def SetChain.Regular : SetChain → Prop
  | [] => True
  | (op,_) :: chain => (∀ s rest, chain = (.intersect,s) :: rest → op ≠ .intersect →
      op ≠ .unionAll ∧ ∀ x ∈ chain, x.1 = .intersect) ∧ Regular chain

def SetChain.atIntersect : SetChain → Bool
  | (.intersect,_) :: _ => true
  | _ => false

/-- The tree the parser builds: after UNION and EXCEPT an INTERSECT takes all that is left. -/
def parsedTree : ReadStatement → SetChain → ReadStatement
  | left, [] => left
  | left, (op,s) :: chain =>
    if (op = .union ∨ op = .except) ∧ SetChain.atIntersect chain = true then
      .setOperation op left (parsedTree (.select s) chain)
    else parsedTree (.setOperation op left (.select s)) chain

def ReadStatement.loose : ReadStatement → Bool
  | .select _ => false
  | .setOperation op _ _ => op != .intersect

/-- INTERSECT binds tighter than the others, and right operands have no operator of the same
precedence. -/
def ReadStatement.Tight : ReadStatement → Prop
  | .select _ => True
  | .setOperation op left right => right.loose = false ∧ (op = .intersect → left.loose = false) ∧
      left.Tight ∧ right.Tight

section
variable {chain : SetChain} {more : List SetToken} {left : ReadStatement} {op : SetOp}
    {s : SelectStatement} {n : Nat}
theorem atIntersect_iff : chain.atIntersect = true ↔ ∃ s rest, chain = (.intersect,s) :: rest := by
  cases chain with
  | nil => simp [SetChain.atIntersect]
  | cons x chain =>
    obtain ⟨op,s⟩ := x
    cases op <;> simp [SetChain.atIntersect]

theorem sqlTree_intersects (h : ∀ x ∈ chain, x.1 = .intersect) (before : Option (SetOp × ReadStatement))
    (term : ReadStatement) : sqlTree before term chain = closeLeft before (sqlTree none term chain) := by
  induction chain generalizing term with
  | nil => rfl
  | cons x chain ih =>
    obtain ⟨op,s⟩ := x
    rw [forall_mem_cons] at h
    obtain rfl : op = .intersect := h.1
    exact ih h.2 _

theorem sqlTree_loose (hop : op ≠ .intersect) (hchain : chain.atIntersect ≠ true) :
    sqlTree none left ((op,s) :: chain) = sqlTree none (.setOperation op left (.select s)) chain := by
  rw [ne_eq,atIntersect_iff] at hchain
  cases op with
  | intersect => exact absurd rfl hop
  | _ =>
    cases chain with
    | nil => rfl
    | cons x chain =>
      obtain ⟨op',s'⟩ := x
      cases op' with
      | intersect => exact absurd ⟨s',chain,rfl⟩ hchain
      | _ => rfl

theorem tokens_cons :
    SetChain.tokens ((op,s) :: chain)++more = op.tokens++.select (.ok s) :: (chain.tokens++more) := by
  simp [SetChain.tokens]

theorem setOperator_tokens (op : SetOp) (t : Except String SelectStatement) (ts : List SetToken) :
    setOperator (op.tokens++.select t :: ts) = some (op,.select t :: ts) := by
  cases op <;> rfl

theorem atIntersect_tokens (hmore : setOperator more = none) :
    atIntersect (chain.tokens++more) = chain.atIntersect := by
  cases chain with
  | nil =>
    cases more with
    | nil => rfl
    | cons t more => cases t <;> simp [SetChain.tokens,atIntersect,setOperator,SetChain.atIntersect] at hmore ⊢
  | cons x chain =>
    obtain ⟨op,s⟩ := x
    rw [tokens_cons]
    cases op <;> rfl

theorem parseSetOperation_tokens (hmore : setOperator more = none) (hn : chain.length < n) :
    parseSetOperation n left (chain.tokens++more) = .ok (parsedTree left chain, more) := by
  -- on the rest of the chain; `left` is all that was read
  induction chain generalizing n left with
  | nil =>
    obtain ⟨n,rfl⟩ := Nat.exists_eq_add_of_lt hn
    simp [parseSetOperation,SetChain.tokens,hmore,parsedTree]
  | cons x chain ih =>
    obtain ⟨op,s⟩ := x
    obtain ⟨n,rfl⟩ : ∃ m, n = m+1 := ⟨n-1,by omega⟩
    have hlen : chain.length < n := by simpa using hn
    rw [parseSetOperation,tokens_cons,setOperator_tokens]
    dsimp only
    rw [atIntersect_tokens hmore,parsedTree]
    split
    · obtain ⟨n,rfl⟩ : ∃ m, n = m+1 := ⟨n-1,by omega⟩
      rw [ih hlen]
      simp [parseSetOperation,hmore]
    · exact ih hlen

theorem parsedTree_regular (h : chain.Regular) : parsedTree left chain = sqlTree none left chain := by
  induction chain generalizing left with
  | nil => rfl
  | cons x chain ih =>
    obtain ⟨op,s⟩ := x
    obtain ⟨hfirst,hrest⟩ := h
    rw [parsedTree]
    split
    · next hright =>
      obtain ⟨s',rest,rfl⟩ := atIntersect_iff.1 hright.2
      have hop : op ≠ .intersect := by rcases hright.1 with rfl | rfl <;> decide
      rw [ih hrest]
      cases op with
      | intersect => exact absurd rfl hop
      | _ => exact (sqlTree_intersects (hfirst s' rest rfl hop).2 (some (_,left)) (.select s)).symm
    · next hright =>
      rw [ih hrest]
      by_cases hop : op = .intersect
      · subst hop
        rfl
      · refine (sqlTree_loose hop fun hat => hright ⟨?_,hat⟩).symm
        obtain ⟨s',rest,hchain⟩ := atIntersect_iff.1 hat
        have hall := (hfirst s' rest hchain hop).1
        cases op <;> simp at hop hall ⊢

theorem sqlTree_tight {before : Option (SetOp × ReadStatement)} {term : ReadStatement} (hterm : term.Tight)
    (hloose : term.loose = false) (hbefore : ∀ x ∈ before, x.1 ≠ .intersect ∧ x.2.Tight) :
    (sqlTree before term chain).Tight := by
  have hclose : ∀ {before term}, ReadStatement.Tight term → term.loose = false →
      (∀ x ∈ before, x.1 ≠ SetOp.intersect ∧ x.2.Tight) → (closeLeft before term).Tight := by
    intro before term hterm hloose hbefore
    cases before with
    | none => exact hterm
    | some x => exact ⟨hloose,fun h => absurd h (hbefore x rfl).1,(hbefore x rfl).2,hterm⟩
  induction chain generalizing before term with
  | nil => exact hclose hterm hloose hbefore
  | cons x chain ih =>
    obtain ⟨op,s⟩ := x
    cases op with
    | intersect => exact ih ⟨rfl,fun _ => hloose,hterm,trivial⟩ rfl hbefore
    | _ =>
      refine ih trivial rfl fun x hx => ?_
      obtain rfl := Option.some.inj hx
      exact ⟨by simp,hclose hterm hloose hbefore⟩

theorem tight_of_parsedTree (h : (parsedTree left chain).Tight) : left.Tight := by
  induction chain generalizing left with
  | nil => exact h
  | cons x chain ih =>
    rw [parsedTree] at h
    split at h
    · exact h.2.2.1
    · exact (ih h).2.2.1

/-- A looser operator that was read or is still to come stays at the root: an INTERSECT above it
would not be tight. -/
theorem parsedTree_loose (h : (parsedTree left chain).Tight)
    (hloose : left.loose = true ∨ ∃ x ∈ chain, x.1 ≠ .intersect) : (parsedTree left chain).loose = true := by
  induction chain generalizing left with
  | nil => exact hloose.resolve_right (by simp)
  | cons x chain ih =>
    obtain ⟨op,s⟩ := x
    rw [parsedTree] at h ⊢
    split at h
    · next hright => rw [if_pos hright]; rcases hright.1 with rfl | rfl <;> rfl
    · next hright =>
      rw [if_neg hright]
      refine ih h ?_
      have htight := tight_of_parsedTree h
      by_cases hop : op = .intersect
      · have hleft : left.loose = false := htight.2.1 hop
        obtain ⟨x,hx,hne⟩ := hloose.resolve_left (by simp [hleft])
        exact .inr ⟨x,(mem_cons.1 hx).resolve_left fun h => hne (h ▸ hop),hne⟩
      · exact .inl (by simpa [ReadStatement.loose] using hop)

theorem regular_of_tight (h : (parsedTree left chain).Tight) : chain.Regular := by
  induction chain generalizing left with
  | nil => trivial
  | cons x chain ih =>
    obtain ⟨op,s⟩ := x
    rw [parsedTree] at h
    split at h
    · next hright =>
      refine ⟨fun s' rest _ _ => ⟨by rcases hright.1 with rfl | rfl <;> decide,fun x hx => ?_⟩,ih h.2.2.2⟩
      by_contra hne
      have hroot := parsedTree_loose h.2.2.2 (.inr ⟨x,hx,hne⟩)
      exact Bool.false_ne_true (h.1.symm.trans hroot)
    · next hright =>
      refine ⟨fun s' rest hchain hop => ?_,ih h⟩
      -- an INTERSECT right after a looser operator the parser does not look behind: UNION ALL
      subst hchain
      rw [parsedTree,if_neg (by simp)] at h
      have hinner := (tight_of_parsedTree h).2.1 rfl
      simp [ReadStatement.loose,hop] at hinner

/-- Any number of SELECTs, up to a token that is no set operator: the condition is exact. -/
theorem parseSetOperation_iff_regular {first : SelectStatement} (hmore : setOperator more = none)
    (hn : chain.length < n) : parseSetOperation n (.select first) (chain.tokens++more) =
      .ok (sqlTree none (.select first) chain, more) ↔ chain.Regular := by
  rw [parseSetOperation_tokens hmore hn]
  refine ⟨fun h => ?_,fun h => by rw [parsedTree_regular h]⟩
  have htight : (parsedTree (.select first) chain).Tight := by
    rw [(Prod.mk.inj (Except.ok.inj h)).1]
    exact sqlTree_tight trivial rfl (by simp)
  exact regular_of_tight htight
end

def letter (table : String) : SelectStatement := { tableName := table }
def threeMore : SetChain := [(.union,letter "B"),(.except,letter "C"),(.intersect,letter "D")]

theorem parseSetOperation_four : threeMore.Regular ∧
    parseSetOperation 4 (.select (letter "A")) (threeMore.tokens++[]) =
      .ok (sqlTree none (.select (letter "A")) threeMore, []) := by
  have hregular : threeMore.Regular := by simp [threeMore,SetChain.Regular]
  exact ⟨hregular,(parseSetOperation_iff_regular rfl (by simp [threeMore])).2 hregular⟩

/-- `A EXCEPT B INTERSECT C UNION D` is read as `A EXCEPT ((B INTERSECT C) UNION D)`, and `A UNION
ALL B INTERSECT C` as `(A UNION ALL B) INTERSECT C`. -/
theorem parseSetOperation_regroups : (∃ t, parseSetOperation 9 (.select (letter "A"))
        (SetChain.tokens [(.except, letter "B"), (.intersect, letter "C"), (.union, letter "D")]) = .ok (t, []) ∧
      t ≠ sqlTree none (.select (letter "A")) [(.except, letter "B"), (.intersect, letter "C"), (.union, letter "D")]) ∧
    ∃ t, parseSetOperation 9 (.select (letter "A"))
        (SetChain.tokens [(.unionAll, letter "B"), (.intersect, letter "C")]) = .ok (t, []) ∧
      t ≠ sqlTree none (.select (letter "A")) [(.unionAll, letter "B"), (.intersect, letter "C")] := by
  refine ⟨⟨_,rfl,?_⟩,_,rfl,?_⟩
  · simp [sqlTree,closeLeft]
  · simp [sqlTree,closeLeft]

def ReadStatement.tokens : ReadStatement → List SetToken
  | .select s => [.select (.ok s)]
  | .setOperation op left right => left.tokens++op.tokens++right.tokens

theorem setOperator_some {op : SetOp} {ts rest : List SetToken}
    (h : setOperator ts = some (op,rest)) : ts = op.tokens++rest := by
  unfold setOperator at h
  split at h <;> cases h <;> rfl

theorem ReadStatement.tokens_pos (t : ReadStatement) : 0 < t.tokens.length := by
  induction t with
  | select => exact Nat.one_pos
  | setOperation op left right ihl _ =>
    simp only [tokens,length_append]
    omega

/-- The parser comes to an end on any tokens and fails only where a SELECT is missing or
`parseSelect` fails.  What it accepts reads as the tokens it has taken, up to one that is no set
operator. -/
theorem parseSetOperation_keeps (n : Nat) (left : ReadStatement) (ts : List SetToken) (hn : ts.length < n) :
    (∃ found, parseSetOperation n left ts = .error (.expectedSelect found)) ∨
      (∃ message, .select (.error message) ∈ ts ∧ parseSetOperation n left ts = .error (.select message)) ∨
      ∃ tree rest, parseSetOperation n left ts = .ok (tree,rest) ∧ tree.tokens++rest = left.tokens++ts ∧
        setOperator rest = none := by
  induction n generalizing left ts with
  | zero => exact absurd hn (Nat.not_lt_zero _)
  | succ n ih =>
    rw [parseSetOperation]
    split
    · next hop => exact .inr (.inr ⟨left,ts,rfl,rfl,hop⟩)
    · next e ts' hop =>
      rw [setOperator_some hop]
      exact .inr (.inl ⟨e,by simp,rfl⟩)
    · next op s ts' hop =>
      rw [setOperator_some hop] at hn ⊢
      have hn' : ts'.length < n := by
        simp only [length_append,length_cons] at hn
        omega
      have hmem : ∀ t ∈ ts', t ∈ op.tokens++.select (.ok s) :: ts' := fun t ht => by simp [ht]
      split
      · rcases ih (.select s) ts' hn' with ⟨found,h⟩ | ⟨e,he,h⟩ | ⟨right,rest,h,hkeep,-⟩
        · rw [h]
          exact .inl ⟨found,rfl⟩
        · rw [h]
          exact .inr (.inl ⟨e,hmem _ he,rfl⟩)
        · rw [h]
          dsimp only
          have hlen : rest.length < n := by
            have := congrArg length hkeep
            have := right.tokens_pos
            simp only [length_append,ReadStatement.tokens,length_cons,length_nil] at *
            omega
          have hrest : ∀ t ∈ rest, t ∈ .select (.ok s) :: ts' := fun t ht =>
            (show right.tokens++rest = .select (.ok s) :: ts' from hkeep) ▸ mem_append_right _ ht
          rcases ih (.setOperation op left right) rest hlen with h | ⟨e,he,h⟩ | ⟨tree,more,h,htree,hend⟩
          · exact .inl h
          · exact .inr (.inl ⟨e,mem_append_right _ (hrest _ he),h⟩)
          · exact .inr (.inr ⟨tree,more,h,by simpa [ReadStatement.tokens,hkeep] using htree,hend⟩)
      · rcases ih (.setOperation op left (.select s)) ts' hn' with h | ⟨e,he,h⟩ | ⟨tree,more,h,htree,hend⟩
        · exact .inl h
        · exact .inr (.inl ⟨e,hmem _ he,h⟩)
        · exact .inr (.inr ⟨tree,more,h,by simpa [ReadStatement.tokens] using htree,hend⟩)
    · exact .inl ⟨_,rfl⟩

theorem parseSetOperation_keeps_four :
    ∃ tree rest, parseSetOperation 9 (.select (letter "A")) threeMore.tokens = .ok (tree,rest) ∧
      tree.tokens++rest = .select (.ok (letter "A")) :: threeMore.tokens := by
  rcases parseSetOperation_keeps 9 (.select (letter "A")) threeMore.tokens (by decide) with
    ⟨found,h⟩ | ⟨e,-,h⟩ | ⟨tree,rest,h,hkeep,-⟩
  · cases h
  · cases h
  · exact ⟨tree,rest,h,hkeep⟩

end VaultDB.Sql
