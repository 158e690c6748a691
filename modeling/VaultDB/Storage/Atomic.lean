import VaultDB.Storage.Outcomes
set_option autoImplicit false

/-!
Statements that fail, run alone on an engine without I/O errors: which of them leave the table as it
was.
-/

namespace VaultDB.Storage
open Lib Stmt Exec Store Contents List Option

inductive Mutation (V : Type) where
  | insertRows (rows : List (List V))
  | updateRows (indices : List Int) (updates : List (String × V))
  | updateRowsDirect (indices : List Int) (newValues : List (List V))
  | updateRowsVM (positions : Option (List Int)) (matchFn : Tuple → Except String Bool)
      (updateFn : List V → Except String (List V)) (validateFn : List Int → List (List V) → Except String Unit)

namespace Mutation
variable {V : Type} [BEq V] (R : RowOps V)
def call (k : TableKey) : Mutation V → Exec Int
  | .insertRows rows => Storage.insertRows R k rows
  | .updateRows indices updates => Storage.updateRows R k indices updates
  | .updateRowsDirect indices newValues => Storage.updateRowsDirect R k indices newValues
  | .updateRowsVM positions matchFn updateFn validateFn =>
    Storage.updateRowsVM R k positions matchFn updateFn validateFn

def Safe (c : Contents) (clock : Clock) : Mutation V → Prop
  | .insertRows rows =>
    ∀ ts, encodedRows R c (clock.txCounter+1) rows = .ok ts → (∀ t ∈ ts, t.Fits) ∨ ∀ t ∈ ts.head?, ¬t.Fits
  | .updateRows indices updates =>
    ∃ vs, newVersionsVM R (clock.txCounter+1) (applyUpdates R c.info.schema.columns updates)
      (locatedRows R c indices) = .ok vs ∧ ∀ v ∈ vs, v.encoded.Fits
  | .updateRowsDirect indices newValues => (locatedDirect c indices : List (Located V)) = [] ∨
      DirectSafe R c (clock.txCounter+1) indices newValues ∧
        indices.length ≤ (locatedDirect c indices : List (Located V)).length
  | .updateRowsVM positions matchFn updateFn validateFn =>
      VmSafe R c ⟨clock.txCounter+1,max clock.mgrCounter (clock.txCounter+2)⟩ (clock.txCounter+1) positions matchFn
        updateFn validateFn

def HasRoom (c : Contents) (clock : Clock) : Mutation V → Prop
  | .insertRows rows => c.Room rows.length
  | .updateRows indices _ => c.Room (locatedRows R c indices).length
  | .updateRowsDirect indices _ => c.Room (locatedDirect c indices : List (Located V)).length
  | .updateRowsVM positions matchFn _ _ => ∀ ls, matchedRows R c
      ⟨clock.txCounter+1,max clock.mgrCounter (clock.txCounter+2)⟩ positions matchFn = .ok ls → c.Room ls.length

def InRange (c : Contents) : Mutation V → Prop
  | .updateRowsDirect indices _ => ∀ i ∈ indices, (dirAt c.directory i).isSome
  | _ => True

end Mutation

def Atomic (k : TableKey) (st : Store) (x : Exec Int) : Prop :=
  Yields k st x (fun _ _ => True) fun _ st' => ∀ c, st.table k = some c → ∃ c', st'.table k = some c' ∧ c.Same c'

section
variable {V : Type} [BEq V] {R : RowOps V} {k : TableKey} {st : Store} {c : Contents} {x : Exec Int} {P : Prop}
theorem same_of_live_ne {st' : Store} (h : ∃ c', st'.table k = some c' ∧ c'.live ≠ c.live) :
    ¬∃ c', st'.table k = some c' ∧ c.Same c' := by
  rintro ⟨c',hc',hsame⟩
  obtain ⟨c'',hc'',hne⟩ := h
  rw [hc'] at hc''
  cases hc''
  exact hne hsame.live

theorem atomic_of_yields (htab : st.table k = some c)
    (h : Yields k st x (fun _ _ => True) fun _ st' => (∃ c', st'.table k = some c' ∧ c.Same c') ∨
      ¬P) (hP : P) : Atomic k st x := by
  refine h.mono (fun _ _ _ => trivial) fun _ st' he c' hc' => ?_
  rw [htab] at hc'
  cases hc'
  exact he.resolve_right fun hne => hne hP

theorem of_atomic (htab : st.table k = some c)
    (h : Yields k st x (fun _ _ => P) fun _ st' => P ∨ ¬∃ c', st'.table k = some c' ∧ c.Same c')
    (ha : Atomic k st x) : P := by
  obtain ⟨out,st',-,hout⟩ := (h.and ha).of_run
  cases out with
  | ok n => exact hout.1
  | error e => exact hout.1.resolve_right fun hne => hne (hout.2 c htab)

theorem yields_insertRows_outcome {rows : List (List V)} (hroom : c.Room rows.length) :
    Yields k (st.put k c none) ((Mutation.insertRows rows).call R k)
      (fun _ _ => (Mutation.insertRows rows).Safe R c st.clock)
      fun _ st' => (∃ c', st'.table k = some c' ∧ c.Same c') ∧ (Mutation.insertRows rows).Safe R c st.clock ∨
        ¬(Mutation.insertRows rows).Safe R c st.clock ∧ ∃ c', st'.table k = some c' ∧ c'.live ≠ c.live := by
  refine (yields_insertRows R).mono (fun _ st' hq => ?_) fun e st' he => ?_
  · obtain ⟨-,ts,c1,locs,f,hts,hlen,hstored,-⟩ := hq
    intro ts' hts'
    rw [hts] at hts'
    cases hts'
    have := hstored.fits
    rw [take_of_length_le (by omega)] at this
    exact .inl this
  · rcases he with ⟨herr,rfl⟩ | ⟨-,hn⟩ | ⟨ts,c1,locs,p,hts,hstop,rfl⟩
    · refine .inl ⟨⟨c,by simp,rfl,rfl,rfl⟩,fun ts hts => ?_⟩
      rw [herr] at hts
      cases hts
    · exact absurd hn hroom.pageCount
    · obtain ⟨hlen,hrows⟩ := encodeRows_ok hts
      have hdead : ∀ t ∈ ts, t.deletedTx = 0 := by
        intro t ht
        obtain ⟨-,-,ns,-,henc⟩ := hrows t ht
        exact (encodePageTuple_ok henc).1
      obtain ⟨t,pages,ht,hpages,hreason⟩ := hstop.next
      have hlt := (List.getElem?_eq_some_iff.1 ht).1
      have hbig : ¬t.Fits := by
        cases hreason with
        | full hfull =>
          unfold Contents.Room at hroom
          have : maxPages = 8589934592 := by decide
          omega
        | large h => exact h
      cases locs with
      | nil =>
        have hslots : c1.slots = c.slots := by simpa using hstop.slots
        have hinfo : c1.info = c.info := by
          rw [hstop.info]
          cases c.info
          simp [notePositions]
        refine .inl ⟨⟨c1,by simp,?_,?_,by rw [hinfo]⟩,fun ts' hts' => .inr ?_⟩
        · rw [live,hslots,live]
        · rw [directory,hslots,hinfo,directory]
        · rw [hts] at hts'
          cases hts'
          rw [head?_eq_getElem?]
          rintro t' ht'
          have : some t = some t' := ht.symm.trans ht'
          cases this
          exact hbig
      | cons loc locs =>
        refine .inr ⟨fun hsafe => ?_,c1,by simp,fun heq => ?_⟩
        · rcases hsafe ts hts with hall | hnone
          · exact hbig (hall t (mem_of_getElem? ht))
          · obtain ⟨t0,ts,rfl⟩ := exists_cons_of_ne_nil (ne_nil_of_length_pos (by omega : 0 < ts.length))
            exact hnone t0 rfl (hstop.fits t0 (by simp))
        · -- the tuples that were stored are live
          have hlive : (c1.live).length = c.live.length+((loc :: locs).zip ts).length := by
            have hnew : ((loc :: locs).zip ts).filter (fun y => y.2.deletedTx = 0) = (loc :: locs).zip ts :=
              filter_eq_self.2 fun y hy => by simpa using hdead y.2 (of_mem_zip hy).2
            rw [live,hstop.slots,filter_append,map_append,hnew,length_append,length_map,live]
            simp
          rw [heq,length_zip] at hlive
          rw [length_cons] at hlive hlt
          omega
end

section
variable {V : Type} {R : RowOps V} {k : TableKey} {c : Contents} {indices : List Int} {l : Located V}
theorem page_ne_none_of_tuple {loc : PageSlot} {t : Tuple} (h : c.tuple loc = some t) : c.page loc.pid ≠ none := by
  intro hnone
  simp [tuple,hnone] at h

theorem length_locatedDirect (h : ∀ i ∈ indices, (dirAt c.directory i).isSome) :
    (locatedDirect c indices : List (Located V)).length = indices.length := by
  unfold locatedDirect
  rw [if_pos (by simpa using h),length_map,entriesAt]
  induction indices with
  | nil => rfl
  | cons i indices ih =>
    rw [forall_mem_cons] at h
    obtain ⟨loc,hloc⟩ := isSome_iff_exists.1 h.1
    simp [hloc,ih h.2]

theorem live_ne_of_spoiled {x : Nat} (hx : x ≠ 0) {ls : List (Located V)} {st' : Store}
    (h : Spoiled k c.directed x (ls.map Located.loc) st') (hne : ls ≠ [])
    (hlive : ∀ l ∈ ls, ∃ t, c.tuple l.loc = some t ∧ t.deletedTx = 0) : ∃ c', st'.table k =
    some c' ∧ c'.live ≠ c.live := by
  refine h.live_ne hx (by simpa using hne) fun loc hloc => ?_
  obtain ⟨l,hl,rfl⟩ := mem_map.1 hloc
  exact hlive l hl
end

section
variable {V : Type} [BEq V] {R : RowOps V} {k : TableKey} {st : Store} {c : Contents}
theorem yields_mutation (m : Mutation V) (hdated : ∀ y ∈ c.slots, y.2.deletedTx ≤ st.clock.txCounter)
    (haddr : ∀ loc ∈ c.directory, c.page loc.pid ≠ none) (hroom : m.HasRoom R c st.clock) :
    Yields k (st.put k c none) (m.call R k) (fun _ _ => m.InRange c → m.Safe R c st.clock)
      fun _ st' => (∃ c', st'.table k = some c' ∧ c.Same c') ∧ m.Safe R c st.clock ∨
        ¬m.Safe R c st.clock ∧ (c.Directed → ∃ c', st'.table k = some c' ∧ c'.live ≠ c.live) := by
  cases m with
  | insertRows rows =>
    refine (yields_insertRows_outcome hroom).mono (fun _ _ hq _ => hq) fun _ st' he => ?_
    exact he.imp_right fun h => ⟨h.1,fun _ => h.2⟩
  | updateRows indices updates =>
    refine (yields_updateRows R (forall_locatedRows haddr fun ht _ => page_ne_none_of_tuple ht)
      hroom).mono (fun _ _ hq _ => hq) fun _ st' he => ?_
    obtain ⟨hbad,hne,hspoiled⟩ := he
    refine .inr ⟨?_,fun hdir => live_ne_of_spoiled (Nat.succ_ne_zero _) hspoiled hne
      (forall_locatedRows hdir fun ht hd => ⟨_,ht,hd⟩)⟩
    rintro ⟨vs,hvs,hfits⟩
    obtain ⟨v,hv,hbig⟩ := hbad vs hvs
    exact hbig (hfits v hv)
  | updateRowsDirect indices newValues =>
    refine (yields_updateRowsDirect R (forall_locatedDirect haddr fun ht _ =>
      page_ne_none_of_tuple ht) hroom).mono (fun _ _ hq hin => ?_)
      fun _ st' he => ?_
    · exact .inr ⟨hq,Nat.le_of_eq (length_locatedDirect hin).symm⟩
    · rcases he with ⟨hnil,hsame⟩ | ⟨hbad,hne,hspoiled⟩
      · exact .inl ⟨hsame,.inl hnil⟩
      · refine .inr ⟨?_,fun hdir => live_ne_of_spoiled (Nat.succ_ne_zero _) hspoiled hne
          (forall_locatedDirect hdir fun ht hd => ⟨_,ht,hd⟩)⟩
        rintro (hnil | ⟨hsafe,hle⟩)
        · exact hne hnil
        · have := hbad hsafe
          omega
  | updateRowsVM positions matchFn updateFn validateFn =>
    refine (yields_updateRowsVM R hdated hroom).mono (fun _ _ hq _ => ?_) fun _ st' he => ?_
    · obtain ⟨ls,vs,hls,hvs,-,hfits,-⟩ := hq
      intro ls' vs' hls' hvs' _
      have := hls.symm.trans hls'
      cases this
      have := hvs.symm.trans hvs'
      cases this
      exact hfits
    · refine he.imp_right fun ⟨hbad,ls,hls,hne,hspoiled⟩ =>
        ⟨hbad,fun _ => live_ne_of_spoiled (Nat.succ_ne_zero _) hspoiled hne ?_⟩
      intro l hl
      obtain ⟨t,ht,hv⟩ := matchEntries_visible R hls l hl
      exact ⟨t,ht,deletedTx_of_visibleVM hv (Nat.le_succ_of_le (hdated (l.loc,t) (mem_slots_iff.2 ht)))⟩

/-- A statement that is safe is atomic; in a table with a right directory only those are. -/
theorem statement_atomic_iff (m : Mutation V) (htab : st.table k = some c) (hpin : st.pin = none)
    (hdated : ∀ y ∈ c.slots, y.2.deletedTx ≤ st.clock.txCounter) (haddr : ∀ loc ∈ c.directory, c.page loc.pid ≠ none)
    (hroom : m.HasRoom R c st.clock) : (m.Safe R c st.clock → Atomic k st (m.call R k)) ∧
      (c.Directed → m.InRange c → (Atomic k st (m.call R k) ↔ m.Safe R c st.clock)) := by
  have hyields := yields_mutation (k := k) (R := R) m hdated haddr hroom
  rw [put_self htab hpin] at hyields
  have hsafe : m.Safe R c st.clock → Atomic k st (m.call R k) :=
    atomic_of_yields htab (hyields.mono (fun _ _ _ => trivial) fun _ _ he => he.imp And.left And.left)
  refine ⟨hsafe,fun hdir hin => ⟨of_atomic htab ?_,hsafe⟩⟩
  refine hyields.mono (fun _ _ hq => hq hin) fun _ st' he => ?_
  rcases he with ⟨-,h⟩ | ⟨-,hlive⟩
  · exact .inl h
  · exact .inr (same_of_live_ne (hlive hdir))
end

def lengthRows : RowOps Nat where
  null := 0
  normalizeValue v _ := .ok v
  encodeRow row := .ok (row.flatMap fun n => List.replicate n 0)
  decodeRow _ bytes := some [bytes.length]
  deepEqual a b := a == b
  sprint v := toString v
  toLower s := s

def oneUser : Store where
  table k := if k = users then
      some ⟨[((Page.init.insertTuple ⟨1#64,0,[0,0]⟩).map Prod.fst).getD Page.init],
        ⟨⟨[⟨"id","INT",0,false⟩]⟩,none,1,1,[]⟩,by decide⟩
    else none
  clock := ⟨1,2⟩
  pin := none

def Mutation.outcome (m : Mutation Nat) (st : Store) :
    Option (Except String Int × Option (List (PageSlot × List UInt8))) :=
  ((m.call lengthRows users).run.run (Store.exec users) st).map fun r => (r.1,(r.2.table users).map Contents.live)

/-- An UPDATE of a column that does not exist loses the row, and an INSERT whose second row has no
room on a page keeps its first one. -/
theorem statements_fail_halfway : ((oneUser.table users).map Contents.live = some [(⟨⟨0, 0⟩, 0⟩, [0, 0])]) ∧
      (Mutation.updateRows [0] [("age", 9)]).outcome oneUser = some (.error "column 'age' does not exist", some []) ∧
      (Mutation.insertRows [[1], [16384]]).outcome oneUser =
        some (.error "tuple too large to fit on a page (16400 bytes > 8160 usable)",
          some [(⟨⟨0, 0⟩, 0⟩, [0, 0]), (⟨⟨0, 0⟩, 1⟩, [0])]) := by
  exact ⟨by decide +kernel,by decide +kernel,by decide +kernel⟩

/-- An UPDATE whose new row the validation refuses. -/
def refused : Mutation Nat :=
  .updateRowsVM none (fun _ => .ok true) (fun row => .ok (row.map (·+1))) fun _ _ =>
    .error "check constraint violated"

theorem refused_atomic : Atomic users oneUser (refused.call lengthRows users) ∧
    refused.outcome oneUser = some (.error "check constraint violated", some [(⟨⟨0, 0⟩, 0⟩, [0, 0])]) := by
  refine ⟨(statement_atomic_iff refused rfl rfl (by decide +kernel) (by decide +kernel) ?_).1 ?_,by decide +kernel⟩
  · rintro ls ⟨⟩
    unfold Contents.Room
    decide +kernel
  · intro ls vs hls hvs hvalid
    cases hvalid

end VaultDB.Storage
