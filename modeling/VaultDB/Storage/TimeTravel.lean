import Mathlib.Logic.Relation
import VaultDB.Storage.Written
set_option autoImplicit false

/-!
`ReadRowsAsOf`: the rows as they were when a statement had ended.

Nothing is taken off a page, so the versions of that time are still there.  What can be lost is
their deletion stamp, since a statement stamps whatever the position directory names.
-/

namespace VaultDB.Storage
open Lib Relation List Option

/-- The test of `readRows` when no transaction is open. -/
def Clock.visibleAsOf (c : Clock) (txID : Nat) (t : Tuple) : Bool :=
  (t.xmin == txID || (t.xmin ≤ txID && c.isCommitted t.xmin)) && (t.xmax == 0 || txID < t.xmax)

def Tuple.AsOf (n : Nat) (t : Tuple) : Prop := t.xmin ≤ n ∧ (t.xmax = 0 ∨ n < t.xmax)
instance (n : Nat) (t : Tuple) : Decidable (t.AsOf n) := inferInstanceAs (Decidable (_ ∧ _))

theorem Clock.visibleAsOf_iff {c : Clock} {n : Nat} (h : n < c.mgrCounter) (t : Tuple) :
    c.visibleAsOf n t = true ↔ t.AsOf n := by
  simp only [visibleAsOf,isCommitted,Tuple.AsOf,Bool.and_eq_true,Bool.or_eq_true,beq_iff_eq,decide_eq_true_eq]
  omega

section
variable {V : Type} (R : RowOps V)
def Store.readRows (st : Store) (k : TableKey) (asOf : Nat) : Option (List (List V)) :=
  let txID := if asOf = 0 then st.clock.txCounter else asOf
  (st.table k).bind fun c =>
    if c.scanSlots.2 && c.scanSlots.1.all (fun y => (R.decodeRow c.info.schema y.2.data).isSome) then
      some ((c.scanSlots.1.filter fun y => st.clock.visibleAsOf txID y.2).filterMap fun y =>
        R.decodeRow c.info.schema y.2.data)
    else none

def Store.readCurrentRows (st : Store) (k : TableKey) : Option (List (List V)) := st.readRows R k 0
def Store.readRowsAsOf (st : Store) (k : TableKey) (txID : Nat) : Option (List (List V)) := st.readRows R k txID
end

namespace Contents
variable {c c' : Contents} {n x : Nat}
def asOf (c : Contents) (n : Nat) : List (List UInt8) := (c.slots.filter fun y => y.2.AsOf n).map fun y => y.2.data

theorem asOf_modify {loc : PageSlot} {f : Tuple → Tuple}
    (h : ∀ t, c.tuple loc = some t → ((f t).AsOf n ↔ t.AsOf n) ∧ (f t).data = t.data) :
    (c.modify loc f).asOf n = c.asOf n := by
  have hy : ∀ y ∈ c.slots, y.1 = loc → ((f y.2).AsOf n ↔ y.2.AsOf n) ∧ (f y.2).data = y.2.data := by
    rintro y hy rfl
    exact h y.2 (mem_slots_iff.1 hy)
  rw [asOf,slots_modify,List.filter_map,List.map_map,asOf]
  have hfilter := filter_congr (l := c.slots) (p := (fun y => decide (y.2.AsOf n)) ∘
    fun y => if y.1 = loc then (y.1,f y.2) else y) (q := fun y => decide (y.2.AsOf n)) fun y hm => by
      by_cases hl : y.1 = loc <;> simp [hl,hy y hm]
  rw [hfilter]
  refine map_congr_left fun y hm => ?_
  by_cases hl : y.1 = loc
  · simp [hl,(hy y (mem_filter.1 hm).1 hl).2]
  · simp [hl]

def Spares (c : Contents) (x : Nat) : Cmd → Prop
  | .setInfo f => ∀ info, (f info).schema = info.schema
  | .insertTuple _ t => t.xmin = x
  | .putXMax loc y => y = x ∧ ∀ t, c.tuple loc = some t → t.deletedTx = 0 ∨ t.deletedTx = x
  | .clearXMax loc => ∀ t, c.tuple loc = some t → t.deletedTx = 0
  | _ => True

theorem asOf_change {cmd : Cmd} (hn : n < x) (hx : x < 2^48) (hs : c.Spares x cmd) (h : c.Change cmd c') :
    c'.asOf n = c.asOf n ∧ c'.info.schema = c.info.schema := by
  cases h with
  | setInfo f => exact ⟨rfl,hs _⟩
  | allocatePage hp => exact ⟨by rw [asOf,slots_addPage]; rfl,rfl⟩
  | @insertTuple pid t _ loc hi =>
    obtain ⟨a,b,ha,hb,-⟩ := slots_insertAt hi
    have hnot : ¬t.AsOf n := fun h => absurd h.1 (by rw [show t.xmin = x from hs]; omega)
    exact ⟨by simp [asOf,ha,hb,hnot],by rw [(info_insertAt hi).1]⟩
  | setHOTUpdated loc m => exact ⟨asOf_modify fun t _ => ⟨by simp [Tuple.AsOf,Tuple.xmax],rfl⟩,by simp⟩
  | putXMax loc y =>
    obtain ⟨rfl,hs⟩ := hs
    refine ⟨asOf_modify fun t ht => ⟨?_,rfl⟩,by simp⟩
    have hy : y % 281474976710656 = y := Nat.mod_eq_of_lt hx
    rcases hs t ht with h0 | h0 <;> simp [Tuple.AsOf,Tuple.xmax,h0,hy,hn]
  | clearXMax loc => exact ⟨asOf_modify fun t ht => ⟨by simp [Tuple.AsOf,Tuple.xmax,hs t ht],rfl⟩,by simp⟩

end Contents

namespace Store
variable {V : Type} [BEq V] {R : RowOps V} {st st' : Store} {k : TableKey} {n : Nat} {st₁ st₂ : Store}
def stamped (st : Store) (k : TableKey) (loc : PageSlot) (own : Nat) : Bool :=
  (st.table k).any fun c => (c.tuple loc).any fun t => t.deletedTx != 0 && t.deletedTx != own

def restamps (st : Store) (k : TableKey) : Cmd → Bool
  | .putXMax loc x => st.stamped k loc x
  | .clearXMax loc => st.stamped k loc 0
  | _ => false

def execOnce (k : TableKey) (st : Store) (c : Cmd) : Option (c.Res × Store) :=
  if st.restamps k c then none else st.exec k c

/-- A statement has run, alone and without an error.  Its id is below 2^48, and no version it stamps
had been deleted before. -/
def Ran (R : RowOps V) (st st' : Store) : Prop :=
  st.clock.txCounter+1 < 2^48 ∧ ∃ k x m, RowStatement R k x ∧ x.run.run (execOnce k) st = some (.ok m,st')

structure Past (n : Nat) (st st' : Store) : Prop where
  clock : n ≤ st'.clock.txCounter ∧ st'.clock.txCounter < st'.clock.mgrCounter
  table : ∀ k c, st.table k = some c → ∃ c', st'.table k = some c' ∧ c'.asOf n = c.asOf n ∧
    c'.info.schema = c.info.schema

theorem Past.exec {st0 : Store} {g : Watcher} {c : Cmd} {r : c.Res} {x : Nat} (h : Past n st0 st)
    (hg : g.tx = some x)
    (hn : n < x) (hx : x < 2^48) (ha : g.allowed c) (he : st.execOnce k c = some (r,st')) :
    Past n st0 st' ∧ (g.next c r).tx = some x ∧ st'.clock = st.clock := by
  unfold execOnce at he
  split at he
  · cases he
  · next hr =>
    have htx : (g.next c r).tx = some x := by
      cases c with
      | nextTxID => exact absurd (hg.symm.trans ha) (by simp)
      | fetchPage | allocatePage | insertTuple | putXMax | clearXMax | logInsert | logDelete | logCommit => cases r <;> exact hg
      | _ => exact hg
    rcases exec_cases he with ⟨htab,rfl | hclock⟩ | ⟨c0,c1,htab,hch,htab',hclock⟩
    · exact absurd (hg.symm.trans ha) (by simp)
    · exact ⟨⟨by rw [hclock]; exact h.clock,by rw [htab]; exact h.table⟩,htx,hclock⟩
    · have hs : c0.Spares x c := by
        cases hch with
        | setInfo f => exact ha
        | insertTuple =>
          obtain ⟨y,hy,ht⟩ := ha.2.2.2.2
          obtain rfl := some.inj (hg.symm.trans hy)
          exact ht.xmin_mod.trans (Nat.mod_eq_of_lt hx)
        | putXMax loc y =>
          obtain rfl := some.inj (ha.1.symm.trans hg)
          exact ⟨rfl,fun t ht => by simpa [restamps,stamped,htab,ht,or_iff_not_imp_left] using hr⟩
        | clearXMax loc => exact fun t ht => by simpa [restamps,stamped,htab,ht] using hr
        | _ => trivial
      refine ⟨⟨by rw [hclock]; exact h.clock,fun k' c hc => ?_⟩,htx,hclock⟩
      obtain ⟨c',hc',hrows,hsch⟩ := h.table k' c hc
      rw [htab',table_set]
      split
      · next hk =>
        subst hk
        obtain rfl := some.inj (htab.symm.trans hc')
        obtain ⟨h1,h2⟩ := Contents.asOf_change hn hx hs hch
        exact ⟨c1,rfl,h1.trans hrows,h2.trans hsch⟩
      · exact ⟨c',hc',hrows,hsch⟩

theorem Ran.past (h : st.Ran R st') (hn : n ≤ st.clock.txCounter) :
    Past n st st' ∧ st'.clock.txCounter = st.clock.txCounter+1 := by
  obtain ⟨hx,k,x,m,hstmt,hrun⟩ := h
  have hf := follows_rowStatement hstmt
  have hrun' : x.toProg.run (execOnce k) st = some ((),st') := by
    rw [Exec.toProg,Prog.run_bind,hrun]
    rfl
  obtain ⟨kont,hk⟩ : ∃ kont, x.toProg = .step .nextTxID kont := by cases hstmt <;> exact ⟨_,rfl⟩
  rw [hk] at hf hrun'
  have hstart : Past n st ⟨st.table,⟨st.clock.txCounter+1,max st.clock.mgrCounter (st.clock.txCounter+2)⟩,st.pin⟩ :=
    ⟨⟨by dsimp; omega,by dsimp; omega⟩,fun k c hc => ⟨c,hc,rfl,rfl⟩⟩
  obtain ⟨g,hpast,-,hclock⟩ := (hf.2 (st.clock.txCounter+1)).run
    (I := fun g s => Past n st s ∧ g.tx = some (st.clock.txCounter+1) ∧ s.clock.txCounter = st.clock.txCounter+1)
    (fun {g s c r s'} hI ha he => by
      obtain ⟨hp,htx,hc⟩ := hI.1.exec hI.2.1 (by omega) hx ha he
      exact ⟨hp,htx,by rw [hc,hI.2.2]⟩)
    ⟨hstart,rfl,rfl⟩ hrun'
  exact ⟨hpast,hclock⟩

theorem Past.trans (h : Past n st st₁) (h' : Past n st₁ st₂) : Past n st st₂ := by
  refine ⟨h'.clock,fun k c hc => ?_⟩
  obtain ⟨c1,hc1,hrows1,hsch1⟩ := h.table k c hc
  obtain ⟨c2,hc2,hrows2,hsch2⟩ := h'.table k c1 hc1
  exact ⟨c2,hc2,hrows2.trans hrows1,hsch2.trans hsch1⟩

theorem Past.run (h : Past n st st₁) (hr : ReflTransGen (Ran R) st₁ st₂) : Past n st st₂ := by
  induction hr with
  | refl => exact h
  | tail _ hlast ih => exact ih.trans (hlast.past ih.clock.1).1

omit [BEq V] in
theorem readRows_eq {c : Contents} {m m' : Nat} (hc : st.table k = some c)
    (hm : m = if n = 0 then st.clock.txCounter else n) (hlt : m < st.clock.mgrCounter) {rows : List (List V)}
    (hn : st.readRows R k m' = some rows) :
    st.readRows R k n = some ((c.asOf m).filterMap (R.decodeRow c.info.schema)) := by
  -- A scan that ends without an error has gone over all pages.
  have hscan : c.scanSlots.2 = true → c.scanSlots.1 = c.slots := by
    unfold Contents.scanSlots
    split <;> simp
  have hvis : (fun y : PageSlot × Tuple => st.clock.visibleAsOf m y.2) = fun y => decide (y.2.AsOf m) := by
    funext y
    rw [Bool.eq_iff_iff,Clock.visibleAsOf_iff hlt,decide_eq_true_iff]
  simp only [readRows,hc,bind_some] at hn ⊢
  split at hn
  · next hok =>
    rw [if_pos hok,← hm,hvis,hscan (Bool.and_eq_true_iff.1 hok).1,Contents.asOf,filterMap_map]
    rfl
  · cases hn

/-- What `SelectRows` returns after a statement is what `ReadRowsAsOf` returns for its id from then
on, as long as the table can be read at all. -/
theorem time_travel {st₀ st₁ st₂ : Store} {rows : List (List V)} (h : st₀.Ran R st₁)
    (hs : st₁.readCurrentRows R k = some rows) (hlater : ReflTransGen (Ran R) st₁ st₂) :
    st₂.readRowsAsOf R k (st₀.clock.txCounter+1) = (st₂.readCurrentRows R k).map fun _ => rows := by
  obtain ⟨hp,hid⟩ := h.past le_rfl
  rw [← hid]
  have hnow : Past st₁.clock.txCounter st₁ st₁ := ⟨⟨le_rfl,hp.clock.2⟩,fun k c hc => ⟨c,hc,rfl,rfl⟩⟩
  have hpast := hnow.run hlater
  cases hc : st₁.table k with
  | none => simp [readCurrentRows,readRows,hc] at hs
  | some c =>
    obtain ⟨c',hc',hrows,hsch⟩ := hpast.table k c hc
    rw [readCurrentRows,readRows_eq (n := 0) hc rfl hp.clock.2 hs] at hs
    cases hsel : st₂.readCurrentRows R k with
    | none =>
      simp only [readCurrentRows,readRowsAsOf,readRows,hc',bind_some] at hsel ⊢
      split at hsel
      · cases hsel
      · next hno => rw [if_neg hno]; rfl
    | some rows' =>
      rw [readRowsAsOf,readRows_eq hc' (if_neg (by omega)).symm (by have := hpast.clock; omega) hsel,hrows,hsch]
      exact hs

end Store

/-- The row is deleted, and its version is stamped a second time. -/
theorem deleted_row_comes_back : (((deleteRows lengthRows users [0]).run.run (Store.exec users)
      oneUser).bind fun r =>
      ((deleteRows lengthRows users [0]).run.run (Store.exec users) r.2).map fun r' =>
        ([r.1, r'.1], [r.2.readCurrentRows lengthRows users,
          r'.2.readRowsAsOf lengthRows users (oneUser.clock.txCounter+1)])) =
      some ([.ok 1, .ok 1], [some [], some [[2]]]) := by
  decide +kernel

/-- The row is updated and then deleted. -/
theorem time_travel_before_delete :
    ∃ st₁ st₂ : Store, oneUser.Ran lengthRows st₁ ∧ st₁.Ran lengthRows st₂ ∧
    st₁.readCurrentRows lengthRows users = some [[9]] ∧
      st₂.readRowsAsOf lengthRows users (oneUser.clock.txCounter+1) =
      (st₂.readCurrentRows lengthRows users).map fun _ => [[9]] := by
  have hrun : (((updateRows lengthRows users [0] [("id",9)]).run.run (Store.execOnce users) oneUser).bind fun r =>
      ((deleteRows lengthRows users [0]).run.run (Store.execOnce users) r.2).map fun r' =>
        (r.1,r.2.readCurrentRows lengthRows users,r.2.clock.txCounter,r'.1)) = some (.ok 1,some [[9]],2,.ok 1) := by
    decide +kernel
  obtain ⟨⟨_,st₁⟩,hup,hmap⟩ := bind_eq_some_iff.1 hrun
  obtain ⟨⟨_,st₂⟩,hdel,heq⟩ := map_eq_some_iff.1 hmap
  simp only [Prod.mk.injEq] at heq
  obtain ⟨rfl,hsel,hclock,rfl⟩ := heq
  have h1 : oneUser.Ran lengthRows st₁ := ⟨by decide,_,_,_,.updateRows ..,hup⟩
  have h2 : st₁.Ran lengthRows st₂ := ⟨by rw [hclock]; decide,_,_,_,.deleteRows ..,hdel⟩
  exact ⟨st₁,st₂,h1,h2,hsel,Store.time_travel h1 hsel (.single h2)⟩

end VaultDB.Storage
