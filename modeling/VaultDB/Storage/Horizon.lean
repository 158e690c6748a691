import VaultDB.Storage.Vacuum
set_option autoImplicit false

/-!
What VACUUM takes away from the readers.

Deletions are stamped from the engine's counter and compared with an id of the manager's.
-/

namespace VaultDB.Storage
open Wal Lib List Option

def ActiveTxs.oldestActiveXID (a : ActiveTxs) (counter : Nat) : Nat := (a.map Prod.fst).foldl min counter

theorem le_foldl_min {n counter : Nat} {ids : List Nat} : n ≤ ids.foldl min counter ↔ n ≤ counter ∧
    ∀ x ∈ ids, n ≤ x := by
  induction ids generalizing counter with
  | nil => simp
  | cons y ids ih => simp [ih,and_assoc]

structure Reader where
  txID : Nat
  snapshot : List Nat

def Reader.created (r : Reader) (clock : Clock) (t : Tuple) : Bool :=
  t.xmin == r.txID || (t.xmin ≤ r.txID && clock.isCommitted t.xmin && !r.snapshot.contains t.xmin)

def Reader.sees (r : Reader) (clock : Clock) (t : Tuple) : Bool :=
  r.created clock t && (t.xmax == 0 || r.txID < t.xmax || r.snapshot.contains t.xmax)

namespace Managed
variable {s s' : Managed}
def reader (s : Managed) : Reader :=
  ⟨s.engine.clock.txCounter,(s.active.getSnapshot s.engine.clock.txCounter).getD []⟩

theorem sees_reader (s : Managed) (t : Tuple) : s.reader.sees s.engine.clock t = s.visible t := by
  simp only [Reader.sees,Reader.created,reader,visible,ActiveTxs.sees,ActiveTxs.inSnapshot]
  cases s.active.getSnapshot s.engine.clock.txCounter <;> rfl

theorem reader_mem_active {x : Nat} (h : x ∈ s.reader.snapshot) : (s.reader.txID,s.reader.snapshot) ∈ s.active := by
  cases hs : s.active.getSnapshot s.engine.clock.txCounter with
  | none => simp [reader,hs] at h
  | some snapshot =>
    obtain ⟨l1,l2,hl,-⟩ := lookup_eq_some_iff.1 hs
    simp only [reader,hs,getD_some]
    simp [hl]

def oldestActiveXID (s : Managed) : Nat := s.active.oldestActiveXID s.engine.clock.mgrCounter

inductive Later (s : Managed) : Managed → Prop where
  | now : Later s s
  | begin {s' : Managed} : Later s s' → Later s s'.begin
  | finish {s' : Managed} (txID : Nat) : Later s s' → Later s (s'.finish txID)
  | nextTxID {s' : Managed} : Later s s' → Later s { s' with engine := s'.engine.nextTxID }

theorem Later.active (h : Later s s') : s.engine.clock.Le s'.engine.clock ∧ ∀ a ∈ s'.active, a ∈ s.active ∨
    s.engine.clock.mgrCounter < a.1 ∧ ∀ x ∈ a.2, s.engine.clock.mgrCounter < x ∨ ∃ b ∈ s.active, b.1 = x := by
  induction h with
  | now => exact ⟨⟨Nat.le_refl _,Nat.le_refl _⟩,fun a ha => .inl ha⟩
  | begin _ ih =>
    refine ⟨⟨ih.1.1,Nat.le_succ_of_le ih.1.2⟩,fun a ha => ?_⟩
    rcases mem_append.1 ha with ha | ha
    · exact ih.2 a ha
    · rw [mem_singleton.1 ha]
      refine .inr ⟨Nat.lt_succ_of_le ih.1.2,fun x hx => ?_⟩
      obtain ⟨b,hb,rfl⟩ := mem_map.1 hx
      exact (ih.2 b hb).symm.imp And.left fun hb => ⟨b,hb,rfl⟩
  | finish txID _ ih => exact ⟨ih.1,fun a ha => ih.2 a (mem_filter.1 ha).1⟩
  | nextTxID _ ih => exact ⟨⟨Nat.le_succ_of_le ih.1.1,Nat.le_trans ih.1.2 (Nat.le_max_left _ _)⟩,ih.2⟩

/-- Those who may read the table with the transactions there are: each open transaction with its
snapshot, and whoever reads it later. -/
inductive Reads (s : Managed) : Reader → Clock → Prop where
  | open {a : Nat × List Nat} : a ∈ s.active → Reads s ⟨a.1,a.2⟩ s.engine.clock
  | later {s' : Managed} : Later s s' → Reads s s'.reader s'.engine.clock

/-- An open transaction that found the version's creator ended has, in its snapshot, the id of a
transaction that ended since, and the version is stamped with the same number. -/
def Mistaken (s : Managed) (t : Tuple) : Prop :=
  t.xmax ≠ 0 ∧ (∀ b ∈ s.active, t.xmax < b.1) ∧ ∃ a ∈ s.active, t.xmax ∈ a.2 ∧
    (t.xmin = a.1 ∨ t.xmin ≤ a.1 ∧ t.xmin ∉ a.2)

variable {t : Tuple}
structure Stamped (s : Managed) (t : Tuple) : Prop where
  issued : s.engine.clock.Issued t
  deleted : t.deletedTx < 2^48 ∧ t.deletedTx < s.engine.clock.mgrCounter

theorem Stamped.isDead_iff (h : s.Stamped t) : isDead s.engine.clock s.oldestActiveXID t = true ↔
    t.xmax ≠ 0 ∧ ∀ b ∈ s.active, t.xmax < b.1 := by
  have hx : t.xmax = t.deletedTx := Nat.mod_eq_of_lt h.deleted.1
  simp only [isDead,Clock.isCommitted,hx,Bool.and_eq_true,bne_iff_ne,ne_eq,decide_eq_true_eq,h.deleted.2,and_true]
  refine and_congr_right fun _ => ⟨fun hlt b hb => ?_,fun hb => ?_⟩
  · exact Nat.lt_of_lt_of_le hlt ((le_foldl_min.1 (Nat.le_refl _)).2 b.1 (mem_map_of_mem hb))
  · refine le_foldl_min.2 ⟨h.deleted.2,fun x hx => ?_⟩
    obtain ⟨b,hb',rfl⟩ := mem_map.1 hx
    exact hb b hb'

theorem Stamped.created_iff (h : s.Stamped t) {clock : Clock} (hc : s.engine.clock.Le clock) (r : Reader) :
    r.created clock t = true ↔ t.xmin = r.txID ∨ t.xmin ≤ r.txID ∧ t.xmin ∉ r.snapshot := by
  have hcom : t.xmin < clock.mgrCounter := Nat.lt_of_lt_of_le h.issued.xmin.2 hc.2
  simp [Reader.created,Clock.isCommitted,hcom]

theorem Stamped.seen_iff (h : s.Stamped t) (hd : isDead s.engine.clock s.oldestActiveXID t = true) :
    (∃ r clock, s.Reads r clock ∧ r.sees clock t = true) ↔ s.Mistaken t := by
  obtain ⟨hx,hold⟩ := h.isDead_iff.1 hd
  have hsees : ∀ {clock : Clock} (r : Reader), s.engine.clock.Le clock → ¬r.txID < t.xmax → (r.sees clock t = true ↔
      (t.xmin = r.txID ∨ t.xmin ≤ r.txID ∧ t.xmin ∉ r.snapshot) ∧ t.xmax ∈ r.snapshot) := by
    intro clock r hc hlt
    rw [Reader.sees,Bool.and_eq_true,h.created_iff hc]
    simp [hx,hlt]
  constructor
  · rintro ⟨r,clock,hr,hs⟩
    cases hr with
    | @«open» a ha =>
      obtain ⟨hmin,hmem⟩ := (hsees ⟨a.1,a.2⟩ ⟨Nat.le_refl _,Nat.le_refl _⟩ (Nat.lt_asymm (hold a ha))).1 hs
      exact ⟨hx,hold,a,ha,hmem,hmin⟩
    | @later s' hl =>
      obtain ⟨hle,hactive⟩ := hl.active
      have hlt : ¬s'.reader.txID < t.xmax := Nat.not_lt.2 (Nat.le_trans h.issued.xmax hle.1)
      obtain ⟨hmin,hmem⟩ := (hsees s'.reader hle hlt).1 hs
      rcases hactive _ (reader_mem_active hmem) with ha | ⟨-,hyoung⟩
      · exact ⟨hx,hold,_,ha,hmem,hmin⟩
      · rcases hyoung _ hmem with hlate | ⟨b,hb,he⟩
        · have := h.deleted.2
          have hmod : t.xmax ≤ t.deletedTx := Nat.mod_le _ _
          omega
        · exact absurd (hold b hb) (by omega)
  · rintro ⟨-,-,a,ha,hmem,hmin⟩
    refine ⟨⟨a.1,a.2⟩,_,.open ha,?_⟩
    exact (hsees ⟨a.1,a.2⟩ ⟨Nat.le_refl _,Nat.le_refl _⟩ (Nat.lt_asymm (hold a ha))).2 ⟨hmin,hmem⟩

end Managed

/-- After a VACUUM that ends well every reader sees the versions it would have seen exactly if no
stored version is one an open transaction sees by mistake. -/
theorem vacuum_keeps_visible_iff {s : Managed} {k : TableKey} {t : Table} {c : Contents}
    (ht : s.engine.tables k = some t)
    (hholds : t.Holds c) (hcached : t.Cached) (hstamped : ∀ u ∈ c.tuples, s.Stamped u) {e : Engine}
    {shadow : HeapFile}
    (hrun : VacuumRun k (isDead s.engine.clock s.oldestActiveXID) ⟨s.engine, .start⟩ ⟨e, .saved shadow⟩) :
    (∃ ts, (TableDir.bare shadow).tuples = some ts ∧ ts.Sublist c.tuples ∧
      ∀ r clock, s.Reads r clock → ts.filter (r.sees clock) = c.tuples.filter (r.sees clock)) ↔
      ∀ u ∈ c.tuples, ¬s.Mistaken u := by
  have hstart : VacuumInv k (isDead s.engine.clock s.oldestActiveXID) t c ⟨s.engine,.start⟩ :=
    ⟨trivial,t,ht,hholds,hcached,rfl,rfl,nofun⟩
  have hcopied : Copied (isDead s.engine.clock s.oldestActiveXID) c.pages shadow := (hrun.inv hstart).phase
  have hts : (TableDir.bare shadow).tuples = some
    (c.tuples.filter fun u => !isDead s.engine.clock s.oldestActiveXID u) :=
    hcopied.tuples none none
  have hsame : ∀ r clock, ((c.tuples.filter fun u =>
    !isDead s.engine.clock s.oldestActiveXID u).filter (r.sees clock) =
      c.tuples.filter (Reader.sees r clock)) ↔ ∀ u ∈ c.tuples, isDead s.engine.clock s.oldestActiveXID u = true → ¬r.sees clock u = true := by
    intro r clock
    rw [List.filter_filter]
    constructor
    · intro h u hu hd hs
      have hmem : u ∈ c.tuples.filter (r.sees clock) := mem_filter.2 ⟨hu,hs⟩
      rw [← h] at hmem
      simp [hd] at hmem
    · intro h
      refine filter_congr fun u hu => ?_
      cases hd : isDead s.engine.clock s.oldestActiveXID u with
      | false => simp
      | true => simpa using h u hu hd
  constructor
  · rintro ⟨ts,hts',-,hall⟩ u hu hm
    obtain rfl := some.inj (hts.symm.trans hts')
    have hd := (hstamped u hu).isDead_iff.2 ⟨hm.1,hm.2.1⟩
    obtain ⟨r,clock,hr,hs⟩ := ((hstamped u hu).seen_iff hd).2 hm
    exact (hsame r clock).1 (hall r clock hr) u hu hd hs
  · intro hall
    refine ⟨_,hts,filter_sublist,fun r clock hr => (hsame r clock).2 fun u hu hd hs => ?_⟩
    exact hall u hu (((hstamped u hu).seen_iff hd).1 ⟨r,clock,hr,hs⟩)

def pageOf (ts : List Tuple) : Page := (Page.init.refill ts).getD Page.init

def onePage (ts : List Tuple) (clock : Clock) (active : ActiveTxs) : Managed where
  engine := { storedUsers with
    tables := fun k => if k = users then
        some ⟨⟨⟨[[some (pageOf ts)]]⟩,some ⟨[]⟩,none⟩,1,fun _ => none,⟨⟨[]⟩,none,1,1,[]⟩,none⟩ else none
    clock := clock }
  active := active

theorem onePage_vacuum {ts kept : List Tuple} {clock : Clock} {active : ActiveTxs} {dead : Tuple → Bool}
    (h : (pageOf ts).rebuilt dead = some (pageOf kept)) :
    ∃ e, VacuumRun users dead ⟨(onePage ts clock active).engine,.start⟩ ⟨e,.saved ⟨[[some (pageOf kept)]]⟩⟩ := by
  have hclean : ∀ k pid f, ((onePage ts clock active).engine.append (.vacuumBegin users)).frame k pid = some f →
      f.dirty = false := by
    intro k pid f hf
    by_cases hk : k = users <;> simp [Engine.frame,Engine.append,onePage,hk] at hf
  have hstart : VacuumRun users dead ⟨(onePage ts clock active).engine,.start⟩ ⟨_,.start⟩ := .refl
  have hpage := (((hstart.step .logBegin).step .create).step (.flushed hclean)).step
    (.copyPage (n := 1) rfl (by decide) rfl h rfl)
  exact ⟨_,(((hpage.step (.logCommit rfl)).step .removeAll).step .rename).step .saveCatalog⟩

def updatedRow : Managed := onePage [⟨1#64,2,[7]⟩,⟨2#64,0,[8]⟩] ⟨2,4⟩ [(4,[])]

/-- VACUUM removes the old version of a row, which nobody misses. -/
theorem vacuum_keeps_visible : ∃ e shadow ts,
    VacuumRun users (isDead updatedRow.engine.clock updatedRow.oldestActiveXID)
    ⟨updatedRow.engine, .start⟩ ⟨e, .saved shadow⟩ ∧
      (TableDir.bare shadow).tuples = some ts ∧ ts.Sublist [⟨1#64, 2, [7]⟩, ⟨2#64, 0, [8]⟩] ∧
        ∀ r clock, updatedRow.Reads r clock →
          ts.filter (r.sees clock) = [⟨1#64, 2, [7]⟩, ⟨2#64, 0, [8]⟩].filter (r.sees clock) := by
  obtain ⟨e,hrun⟩ : ∃ e, VacuumRun users (isDead updatedRow.engine.clock updatedRow.oldestActiveXID)
      ⟨updatedRow.engine,.start⟩ ⟨e,.saved ⟨[[some (pageOf [⟨2#64,0,[8]⟩])]]⟩⟩ := onePage_vacuum rfl
  have hsingle : ∀ t, updatedRow.engine.tables users = some t →
      t.Holds ⟨[pageOf [⟨1#64,2,[7]⟩,⟨2#64,0,[8]⟩]],t.info,storedContents.few⟩ ∧ t.Cached := by
    intro t ht
    cases ht
    exact Table.holds_single rfl rfl rfl rfl
  obtain ⟨ts,h⟩ := (vacuum_keeps_visible_iff rfl (hsingle _ rfl).1 (hsingle _ rfl).2
    (forall_mem_cons.2 ⟨⟨⟨by decide,by decide⟩,by decide⟩,
      forall_mem_singleton.2 ⟨⟨by decide,by decide⟩,by decide⟩⟩) hrun).2 (by
    rintro u - ⟨-,-,a,ha,hmem,-⟩
    cases mem_singleton.1 ha
    simp at hmem)
  exact ⟨e,_,ts,hrun,h⟩

def deletedRow : Managed := onePage [⟨1#64,3,[7]⟩] ⟨3,4⟩ [(4,[3])]

/-- Transaction 4 sees the row, and VACUUM removes it. -/
theorem vacuum_removes_visible : ∃ e shadow,
    VacuumRun users (isDead deletedRow.engine.clock deletedRow.oldestActiveXID)
    ⟨deletedRow.engine, .start⟩ ⟨e, .saved shadow⟩ ∧
      deletedRow.Reads ⟨4, [3]⟩ deletedRow.engine.clock ∧
      Reader.sees ⟨4, [3]⟩ deletedRow.engine.clock ⟨1#64, 3, [7]⟩ = true ∧
      (TableDir.bare shadow).tuples = some [] := by
  obtain ⟨e,hrun⟩ : ∃ e, VacuumRun users (isDead deletedRow.engine.clock deletedRow.oldestActiveXID)
      ⟨deletedRow.engine,.start⟩ ⟨e,.saved ⟨[[some (pageOf [])]]⟩⟩ := onePage_vacuum rfl
  have hopen : (4,[3]) ∈ deletedRow.active := mem_singleton.2 rfl
  exact ⟨e,_,hrun,.open hopen,by decide,rfl⟩

end VaultDB.Storage
