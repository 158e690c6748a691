import VaultDB.Storage.Statements
set_option autoImplicit false

/-!
What every row statement keeps to, whatever the engine answers: pages are changed only under the
table lock, a tuple is inserted into a locked and pinned page and logged before the page is let go,
a row is stamped after its delete record, and the commit record comes last.
-/

namespace VaultDB.Storage
open Lib List Option
variable {ts : List Tuple} {info : TableInfo} {locs : List PageSlot} {good : TableSchema → Prop}
  {schema : TableSchema} {α : Type} {loc : PageSlot} {is : List Int} {matchFn : Tuple → Except String Bool}
  {body : Exec α} {positions : Option (List Int)} {t : Tuple}
structure Watcher where
  tx : Option Nat := none
  locked : Bool := false
  pageLock : Option PageID := none
  pin : Option PageID := none
  changed : Bool := false
  /-- The tuple it has put on a page and not logged yet. -/
  pend : Option (PageSlot × Tuple) := none
  /-- The rows it has written delete records for, and those whose stamp is set. -/
  logged : List PageSlot := []
  del : List PageSlot := []
  ins : List (PageSlot × Tuple) := []
  lsn : Nat := 0
  committed : Bool := false
  schema : Option TableSchema := none
  /-- A page, the log or the pool has failed it. -/
  faulty : Bool := false
  deriving DecidableEq

def Tuple.WrittenBy (t : Tuple) (x : Nat) : Prop :=
  (t.createdTx = BitVec.ofNat 64 x ∨ t.createdTx = BitVec.ofNat 64 x ||| hotHeapTupleFlag) ∧ t.deletedTx = 0

variable {g' g₁ g₂ g₃ : Watcher} {x : Nat}
theorem Tuple.WrittenBy.xmin_mod (h : t.WrittenBy x) : t.xmin = x%2^48 := by
  have hof : (⟨BitVec.ofNat 64 x,t.deletedTx,t.data⟩ : Tuple).xmin = x%2^48 := Tuple.xmin_ofNat _ _ _
  rcases h.1 with hc | hc
  · rw [Tuple.xmin,hc]
    exact hof
  · rw [← Tuple.xmin_setHOTHeapTuple] at hof
    rw [Tuple.xmin,hc]
    exact hof

namespace Watcher

def allowed (g : Watcher) : Cmd → Prop
  | .nextTxID => g.tx = none
  | .lockTable => g.locked = false ∧ g.pageLock = none ∧ g.pin = none
  | .relockTable => g.locked = false ∧ g.pageLock = none ∧ g.pin = none
  | .unlockTable => g.locked = true ∧ g.pageLock = none ∧ g.pin = none
  | .setInfo f => ∀ info, (f info).schema = info.schema
  | .lockPage _ => g.locked = true ∧ g.pageLock = none
  | .unlockPage pid => g.pageLock = some pid ∧ g.pend = none
  | .fetchPage _ => g.locked = true ∧ g.pin = none
  | .allocatePage => g.locked = true ∧ g.pin = none ∧ g.pageLock = none
  | .insertTuple pid t => g.pin = some pid ∧ g.pageLock = some pid ∧ g.pend = none ∧
      g.committed = false ∧ ∃ x, g.tx = some x ∧ t.WrittenBy x
  | .setHOTUpdated loc n => loc ∈ g.del ∧ ∃ t, g.pend = some (⟨loc.pid,n⟩,t)
  | .unpinPage pid dirty => g.pin = some pid ∧ g.pend = none ∧ (g.changed = true → dirty = true)
  | .unpinPageDirty pid lsn => g.pin = some pid ∧ g.pend = none ∧ (lsn = 0 ∨ lsn = g.lsn)
  | .putXMax loc x => g.tx = some x ∧ g.locked = true ∧ loc ∈ g.logged ∧ g.committed = false ∧
      g.pin = none ∧ g.pend = none ∧ g.ins = []
  | .clearXMax loc =>
    g.locked = true ∧ loc ∈ g.logged ∧ g.committed = false ∧ g.pin = none ∧ g.pend = none ∧ g.ins = []
  | .logInsert x loc t => g.tx = some x ∧ g.pend = some (loc,t)
  | .logDelete x _ => g.tx = some x ∧ g.locked = true ∧ g.committed = false ∧ g.pend = none ∧ g.ins = [] ∧ g.del = []
  | .logCommit x => g.tx = some x ∧ g.committed = false ∧ g.pend = none ∧ ∀ loc ∈ g.logged, loc ∈ g.del
  | .syncCatalog x => g.tx = some x
  | _ => True

def next (g : Watcher) : (c : Cmd) → c.Res → Watcher
  | .nextTxID, x => { g with tx := some x }
  | .lockTable, r => { g with locked := r }
  | .relockTable, _ => { g with locked := true }
  | .unlockTable, _ => { g with locked := false }
  | .lockPage pid, _ => { g with pageLock := some pid }
  | .unlockPage _, _ => { g with pageLock := none }
  | .getInfo, info => { g with schema := g.schema.or (some info.schema) }
  | .scanSlots, (_,ok) => { g with faulty := g.faulty || !ok }
  | .pageCount, r => { g with faulty := g.faulty || r.isNone }
  | .getTuple _, r => { g with faulty := g.faulty || r.isNone }
  | .fetchPage pid, true => { g with pin := some pid, changed := false }
  | .fetchPage _, false => { g with faulty := true }
  | .allocatePage, some pid => { g with pin := some pid, changed := false }
  | .allocatePage, none => { g with faulty := true }
  | .insertTuple pid t, some slot => { g with pend := some (⟨pid,slot⟩,t), changed := true }
  | .unpinPage _ _, _ => { g with pin := none }
  | .unpinPageDirty _ _, _ => { g with pin := none }
  | .putXMax loc _, true => { g with del := loc :: g.del }
  | .putXMax _ _, false => { g with faulty := true }
  | .clearXMax loc, true => { g with del := g.del.filter (· ≠ loc) }
  | .clearXMax _, false => { g with faulty := true }
  | .logInsert _ loc t, some lsn => { g with pend := none, ins := (loc,t) :: g.ins, lsn := lsn }
  | .logInsert _ _ _, none => { g with pend := none, changed := false, faulty := true }
  | .logDelete _ loc, some _ => { g with logged := loc :: g.logged }
  | .logDelete _ _, none => { g with faulty := true }
  | .logCommit _, some _ => { g with committed := true }
  | .logCommit _, none => { g with faulty := true }
  | _, _ => g

end Watcher

def rowProtocol : Protocol Cmd Cmd.Res Watcher := ⟨Watcher.allowed,Watcher.next⟩

open Stmt Exec
namespace Watcher

structure Ready (x : Nat) (g : Watcher) : Prop where
  tx : g.tx = some x
  locked : g.locked = true
  pageLock : g.pageLock = none
  pin : g.pin = none
  pend : g.pend = none
  committed : g.committed = false

structure Kept (g g' : Watcher) : Prop where
  tx : g'.tx = g.tx
  locked : g'.locked = g.locked
  pageLock : g'.pageLock = g.pageLock
  pin : g'.pin = g.pin
  pend : g'.pend = g.pend
  logged : g'.logged = g.logged
  del : g'.del = g.del
  committed : g'.committed = g.committed
  schema : g'.schema = g.schema

theorem Kept.refl (g : Watcher) : Kept g g := ⟨rfl,rfl,rfl,rfl,rfl,rfl,rfl,rfl,rfl⟩

theorem Kept.trans (h : Kept g₁ g₂) (h' : Kept g₂ g₃) : Kept g₁ g₃ :=
  ⟨h'.tx.trans h.tx,h'.locked.trans h.locked,h'.pageLock.trans h.pageLock,h'.pin.trans h.pin,
    h'.pend.trans h.pend,h'.logged.trans h.logged,h'.del.trans h.del,h'.committed.trans h.committed,
    h'.schema.trans h.schema⟩

theorem Ready.of_kept {g : Watcher} (hr : Ready x g) (h : Kept g g') : Ready x g' :=
  ⟨h.tx.trans hr.tx,h.locked.trans hr.locked,h.pageLock.trans hr.pageLock,h.pin.trans hr.pin,
    h.pend.trans hr.pend,h.committed.trans hr.committed⟩

end Watcher

open Watcher

theorem ensures_kept {g : Watcher} (hk : Kept g g')
    (h : Ensures rowProtocol g' body (fun g'' _ => Kept g' g'') (Kept g')) :
    Ensures rowProtocol g' body (fun g'' _ => Kept g g'') (Kept g) :=
  h.mono (fun _ _ h => hk.trans h) fun _ h => hk.trans h

def Harmless (f : PageSlot → Exec Unit) : Prop :=
  ∀ loc g, Ensures rowProtocol g (f loc) (fun g' _ => g' = g) fun _ => False
theorem harmless_pure : Harmless fun _ => pure () := fun _ _ => rfl

theorem harmless_setInfo {f : PageSlot → TableInfo → TableInfo}
    (h : ∀ loc info, (f loc info).schema = info.schema) : Harmless fun loc => cmd (.setInfo (f loc)) :=
  fun loc _ => ⟨h loc,fun _ => rfl⟩

section
variable {x : Nat} {g : Watcher} {onLogged : PageSlot → Exec Unit} {dirtyWhenFull : Bool} {t : Tuple}
  {held : Option PageID} {count : Nat}
section
variable (hl : Harmless onLogged)
include hl
theorem ensures_insertLogged {pid : PageID} (hg : Ready x g) (ht : t.WrittenBy x) :
    Ensures rowProtocol { g with pageLock := some pid, pin := some pid, changed := false }
      (insertLogged x onLogged dirtyWhenFull pid t) (fun g' _ => Kept g g') (Kept g) := by
  refine ensures_step.2 ⟨⟨rfl,rfl,hg.pend,hg.committed,x,hg.tx,ht⟩,fun slot => ?_⟩
  cases slot with
  | none =>
    refine ensures_step.2 ⟨⟨rfl,hg.pend⟩,fun _ => ensures_step.2 ⟨⟨rfl,hg.pend,fun h => by cases h⟩,fun _ => ?_⟩⟩
    exact ⟨rfl,rfl,hg.pageLock.symm,hg.pin.symm,rfl,rfl,rfl,rfl,rfl⟩
  | some slot =>
    refine ensures_step.2 ⟨⟨hg.tx,rfl⟩,fun lsn => ?_⟩
    cases lsn with
    | none =>
      refine ensures_step.2 ⟨⟨rfl,rfl,fun h => by cases h⟩,fun _ => ensures_step.2 ⟨⟨rfl,rfl⟩,fun _ => ?_⟩⟩
      exact ⟨rfl,rfl,hg.pageLock.symm,hg.pin.symm,hg.pend.symm,rfl,rfl,rfl,rfl⟩
    | some lsn =>
      refine ensures_bind.2 ((hl _ _).mono ?_ fun _ h => h.elim)
      rintro g' - rfl
      refine ensures_step.2 ⟨⟨rfl,rfl,.inr rfl⟩,fun _ => ensures_step.2 ⟨⟨rfl,rfl⟩,fun _ => ?_⟩⟩
      exact ⟨rfl,rfl,hg.pageLock.symm,hg.pin.symm,hg.pend.symm,rfl,rfl,rfl,rfl⟩

theorem ensures_placeFresh (hg : Ready x g) (ht : t.WrittenBy x) :
    Ensures rowProtocol g (placeFresh x onLogged dirtyWhenFull t) (fun g' _ => Kept g g')
      (Kept g) := by
  refine ensures_step.2 ⟨⟨hg.locked,hg.pin,hg.pageLock⟩,fun pid => ?_⟩
  cases pid with
  | none => exact ⟨rfl,rfl,rfl,rfl,rfl,rfl,rfl,rfl,rfl⟩
  | some pid =>
    refine ensures_step.2 ⟨⟨hg.locked,hg.pageLock⟩,fun _ => ensures_bind.2 ?_⟩
    refine (ensures_insertLogged hl hg ht).mono (fun g' loc hk => ?_) fun _ hk => hk
    cases loc with
    | none => exact hk
    | some loc => exact hk

def Watcher.holding (g : Watcher) : Option PageID → Watcher
  | none => g
  | some pid => { g with pageLock := some pid, pin := some pid, changed := false }

theorem ensures_place (hg : Ready x g) (ht : t.WrittenBy x) :
    Ensures rowProtocol (g.holding held) (place x onLogged dirtyWhenFull held t) (fun g' _ => Kept g g')
      (Kept g) := by
  cases held with
  | none => exact (ensures_placeFresh hl hg ht).bind fun _ _ hk => hk
  | some pid =>
    refine (ensures_insertLogged hl hg ht).bind fun g' loc hk => ?_
    cases loc with
    | some loc => exact hk
    | none => exact ensures_bind.2 (ensures_kept hk (ensures_placeFresh hl (hg.of_kept hk) ht))
end

section
variable (hg : Ready x g)
include hg
theorem ensures_holdLastPage : Ensures rowProtocol g (holdLastPage count)
    (fun g' held => g' = g.holding held) (Kept g) := by
  unfold holdLastPage
  split
  · rfl
  · refine ensures_step.2 ⟨⟨hg.locked,hg.pageLock⟩,fun _ =>
      ensures_step.2 ⟨⟨hg.locked,hg.pin⟩,fun fetched => ?_⟩⟩
    cases fetched with
    | true => rfl
    | false =>
      refine ensures_step.2 ⟨⟨rfl,hg.pend⟩,fun _ => ?_⟩
      exact ⟨rfl,rfl,hg.pageLock.symm,rfl,rfl,rfl,rfl,rfl,rfl⟩

section
variable (hts : ∀ t ∈ ts, t.WrittenBy x)
include hts
theorem ensures_insertTuples : Ensures rowProtocol g (insertTuples x ts count) (fun g' _ => Kept g g') (Kept g) := by
  induction ts generalizing g count with
  | nil => exact .refl g
  | cons t ts ih =>
    refine (ensures_holdLastPage hg).bind fun g' held hh => ?_
    subst hh
    have hh : Harmless fun loc => cmd (.setInfo fun info =>
        { info with posDirectory := info.posDirectory.map (·++[loc]) }) := harmless_setInfo fun _ _ => rfl
    refine (ensures_place hh hg (hts t mem_cons_self)).bind
      fun g' placed hk => ?_
    exact ensures_kept hk (ih (hg.of_kept hk) fun t ht => hts t (mem_cons_of_mem _ ht))

theorem ensures_appendTuples :
    Ensures rowProtocol (g.holding held) (appendTuples x held ts) (fun g' _ => Kept g g') (Kept g) := by
  induction ts generalizing g held with
  | nil =>
    cases held with
    | none => exact .refl g
    | some pid =>
      refine ensures_step.2 ⟨⟨rfl,hg.pend⟩,fun _ => ensures_step.2 ⟨⟨rfl,hg.pend,fun _ => rfl⟩,fun _ => ?_⟩⟩
      exact ⟨rfl,rfl,hg.pageLock.symm,hg.pin.symm,rfl,rfl,rfl,rfl,rfl⟩
  | cons t ts ih =>
    rw [appendTuples_cons]
    refine (ensures_place harmless_pure hg (hts t mem_cons_self)).bind
      fun g' placed hk => ?_
    have hrest := @ih g' none (hg.of_kept hk) fun t ht => hts t (mem_cons_of_mem _ ht)
    exact ensures_bind.2 (ensures_kept hk hrest)

theorem ensures_appendTuplesLocked : Ensures rowProtocol g (appendTuplesLocked x ts)
    (fun g' _ => Kept g g') (Kept g) := by
  refine ensures_step.2 ⟨trivial,fun total => ?_⟩
  have hk : Kept g (rowProtocol.next g .pageCount total) := ⟨rfl,rfl,rfl,rfl,rfl,rfl,rfl,rfl,rfl⟩
  cases total with
  | none => exact hk
  | some total =>
    have hg' := hg.of_kept hk
    refine ensures_bind.2 ((ensures_holdLastPage hg').mono (fun g' held hh => ?_) fun _ h => hk.trans h)
    subst hh
    exact (ensures_appendTuples hg' hts).mono (fun _ _ h => hk.trans h) fun _ h => hk.trans h
end
end
end

theorem Tuple.WrittenBy.setHOTHeapTuple (h : t.WrittenBy x) : t.setHOTHeapTuple.WrittenBy x := by
  refine ⟨.inr ?_,h.2⟩
  rcases h.1 with h | h
  · rw [Tuple.setHOTHeapTuple,h]
  · rw [Tuple.setHOTHeapTuple,h,BitVec.or_assoc,BitVec.or_self]

section
variable {V : Type} {R : RowOps V} {x : Nat} {row : List V} {t : Tuple}
theorem encodePageTuple_ok (h : encodePageTuple R x row = .ok t) :
    t.deletedTx = 0 ∧ R.encodeRow row = .ok t.data ∧ t.createdTx = BitVec.ofNat 64 x := by
  unfold encodePageTuple at h
  cases hr : R.encodeRow row with
  | error e => simp [hr,Except.map] at h
  | ok bytes =>
    simp only [hr,Except.map,Except.ok.injEq] at h
    subst h
    exact ⟨rfl,rfl,rfl⟩

theorem writtenBy_encodePageTuple (h : encodePageTuple R x row = .ok t) : t.WrittenBy x :=
  ⟨.inl (encodePageTuple_ok h).2.2,(encodePageTuple_ok h).1⟩

theorem newVersionsVM_ok {f : List V → Except String (List V)} {ls : List (Located V)} {vs : List (NewVersion V)}
    (h : newVersionsVM R x f ls = .ok vs) : vs.map NewVersion.old = ls ∧
      ∀ v ∈ vs, f v.old.row = .ok v.newRow ∧ encodePageTuple R x v.newRow = .ok v.encoded := by
  induction ls generalizing vs with
  | nil =>
    cases h
    simp
  | cons l ls ih =>
    simp only [newVersionsVM] at h
    split at h
    · cases h
    · next row hrow =>
      split at h
      · cases h
      · next t ht =>
        split at h
        · cases h
        · next vs' hvs =>
          cases h
          exact ⟨by simp [(ih hvs).1],forall_mem_cons.2 ⟨⟨hrow,ht⟩,(ih hvs).2⟩⟩

variable [BEq V] {pkIdx : Option Nat} {pkIndex : Option Index} {rows : List (List V)} {seen : List V}
theorem encodeRows_cons_ok (h : encodeRows R schema pkIdx pkIndex x (row :: rows) seen = .ok ts) :
    ∃ ns t ts', normalizeRow R row schema.columns 0 = .ok ns ∧ encodePageTuple R x ns = .ok t ∧
      ((pkIdx.bind fun i => ns[i]?).any fun v => (pkIndex.any fun idx => idx.lookup (R.sprint v)) ||
        seen.contains v) = false ∧
      encodeRows R schema pkIdx pkIndex x rows ((pkIdx.bind fun i => ns[i]?).toList++seen) =
      .ok ts' ∧ ts = t :: ts' := by
  simp only [encodeRows] at h
  split at h
  · cases h
  · next ns hns =>
    split at h
    · cases h
    · next hnew =>
      split at h
      · cases h
      · next t ht =>
        split at h
        · cases h
        · next ts' hts =>
          cases h
          exact ⟨ns,t,ts',hns,ht,by simpa using hnew,hts,rfl⟩

theorem encodeRows_ok (h : encodeRows R schema pkIdx pkIndex x rows seen = .ok ts) : ts.length = rows.length ∧
    ∀ t ∈ ts, ∃ row ∈ rows, ∃ ns, normalizeRow R row schema.columns 0 = .ok ns ∧ encodePageTuple R x ns = .ok t := by
  induction rows generalizing seen ts with
  | nil =>
    cases h
    simp
  | cons row rows ih =>
    obtain ⟨ns,t,ts',hns,ht,-,hts,rfl⟩ := encodeRows_cons_ok h
    obtain ⟨hlen,hall⟩ := ih hts
    refine ⟨by simp [hlen],forall_mem_cons.2 ⟨⟨row,mem_cons_self,ns,hns,ht⟩,fun t ht => ?_⟩⟩
    obtain ⟨row',hmem,hrow'⟩ := hall t ht
    exact ⟨row',mem_cons_of_mem _ hmem,hrow'⟩
end

section
variable {V : Type} {R : RowOps V} {x : Nat} {g : Watcher} {vs : List (NewVersion V)} {encoded : Tuple}
section
variable (hg : Ready x g)
include hg
theorem ensures_hotInsertOnPage (hl : loc ∈ g.del) (ht : encoded.WrittenBy x) :
    Ensures rowProtocol { g with pageLock := some loc.pid } (hotInsertOnPage x loc encoded)
      (fun g' p => Kept { g with pageLock := some loc.pid } g' ∧ p.2.WrittenBy x) fun _ => False := by
  have hpin := hg.pin.symm
  have hpend := hg.pend.symm
  refine ensures_step.2 ⟨⟨hg.locked,hg.pin⟩,fun fetched => ?_⟩
  cases fetched with
  | false => exact ⟨⟨rfl,rfl,rfl,rfl,rfl,rfl,rfl,rfl,rfl⟩,ht⟩
  | true =>
    refine ensures_step.2 ⟨trivial,fun free => ?_⟩
    split
    · refine ensures_step.2 ⟨⟨rfl,hg.pend,fun h => by cases h⟩,fun _ => ?_⟩
      exact ⟨⟨rfl,rfl,rfl,hpin,rfl,rfl,rfl,rfl,rfl⟩,ht⟩
    · have hht := ht.setHOTHeapTuple
      refine ensures_step.2 ⟨⟨rfl,rfl,hg.pend,hg.committed,x,hg.tx,hht⟩,fun slot => ?_⟩
      cases slot with
      | none =>
        refine ensures_step.2 ⟨⟨rfl,hg.pend,fun h => by cases h⟩,fun _ => ?_⟩
        exact ⟨⟨rfl,rfl,rfl,hpin,rfl,rfl,rfl,rfl,rfl⟩,hht⟩
      | some slot =>
        refine ensures_step.2 ⟨⟨hl,_,rfl⟩,fun _ => ensures_step.2 ⟨⟨hg.tx,rfl⟩,fun lsn => ?_⟩⟩
        cases lsn with
        | none =>
          refine ensures_step.2 ⟨⟨rfl,rfl,.inl rfl⟩,fun _ => ?_⟩
          exact ⟨⟨rfl,rfl,rfl,hpin,hpend,rfl,rfl,rfl,rfl⟩,hht⟩
        | some lsn =>
          refine ensures_step.2 ⟨⟨rfl,rfl,.inr rfl⟩,fun _ => ?_⟩
          exact ⟨⟨rfl,rfl,rfl,hpin,hpend,rfl,rfl,rfl,rfl⟩,hht⟩

theorem ensures_tryHOTInsert {oldRow newRow : List V} (hl : loc ∈ g.del) (ht : encoded.WrittenBy x) :
    Ensures rowProtocol g (tryHOTInsert R x info loc oldRow newRow encoded)
      (fun g' p => Kept g g' ∧ p.2.WrittenBy x) fun _ => False := by
  unfold tryHOTInsert
  split
  · exact ⟨.refl g,ht⟩
  · refine ensures_step.2 ⟨⟨hg.locked,hg.pageLock⟩,fun _ => ensures_bind.2 ?_⟩
    refine (ensures_hotInsertOnPage hg hl ht).mono (fun g' p hp => ?_) fun _ h => h
    obtain ⟨hk,hw⟩ := hp
    refine ensures_step.2 ⟨⟨hk.pageLock,hk.pend.trans hg.pend⟩,fun _ => ⟨?_,hw⟩⟩
    exact { hk with pageLock := hg.pageLock.symm }

section
variable (hl : ∀ v ∈ vs, v.old.loc ∈ g.del) (ht : ∀ v ∈ vs, v.encoded.WrittenBy x)
include hl ht
theorem ensures_tryHOTInserts : Ensures rowProtocol g (tryHOTInserts R x info vs)
      (fun g' ps => Kept g g' ∧ ∀ p ∈ ps, p.2.WrittenBy x) fun _ => False := by
  induction vs generalizing g with
  | nil => exact ⟨.refl g,by simp⟩
  | cons v vs ih =>
    refine (ensures_tryHOTInsert hg (hl v mem_cons_self)
      (ht v mem_cons_self)).bind fun g' p hp => ?_
    obtain ⟨hk,hw⟩ := hp
    have hdel : ∀ v ∈ vs, v.old.loc ∈ g'.del := fun v hv => by
      rw [hk.del]
      exact hl v (mem_cons_of_mem _ hv)
    refine (ih (hg.of_kept hk) hdel fun v hv => ht v (mem_cons_of_mem _ hv)).bind
      fun g'' ps hps => ⟨hk.trans hps.1,fun p hp => ?_⟩
    rcases mem_cons.1 hp with rfl | hp
    · exact hw
    · exact hps.2 p hp

theorem ensures_storeVersions : Ensures rowProtocol g (storeVersions R x info vs)
    (fun g' _ => Kept g g') (Kept g) := by
  refine ensures_bind.2 ((ensures_tryHOTInserts hg hl ht).mono (fun g' ps hps => ?_) fun _ h => h.elim)
  obtain ⟨hk,hw⟩ := hps
  have hnon : ∀ t ∈ (ps.filter fun p => p.1.isNone).map Prod.snd, t.WrittenBy x := by
    intro t ht
    obtain ⟨p,hp,rfl⟩ := mem_map.1 ht
    exact hw p (mem_filter.1 hp).1
  dsimp only
  split
  · exact hk
  · rename_i t ts heq
    rw [heq] at hnon
    exact ensures_bind.2 (ensures_kept hk (ensures_appendTuplesLocked (hg.of_kept hk) hnon))

theorem ensures_replaceVersions {hotKeys : List Int} {guarded : Bool}
    {newIndexes : List Int → List (List V) → Int → List Index → List Index} :
    Ensures rowProtocol g (replaceVersions R x info is hotKeys vs guarded newIndexes)
      (fun g' _ => Kept g g') (Kept g) := by
  refine (ensures_storeVersions hg hl ht).bind fun g' placed hk => ?_
  refine ensures_step.2 ⟨fun _ => rfl,fun _ => ?_⟩
  dsimp only
  split
  · exact hk
  · split
    · exact hk
    · exact ⟨fun _ => rfl,fun _ => hk⟩
end
end
end

section
variable {x : Nat} {o : Option TableSchema} {g : Watcher}
structure Watcher.Logged (x : Nat) (o : Option TableSchema) (locs : List PageSlot) (g : Watcher) :
    Prop where
  ready : Ready x g
  schema : g.schema = o
  ins : g.ins = []
  logged : ∀ loc, loc ∈ g.logged ↔ loc ∈ locs

/-- Unless something failed it, a statement that is `good` for its table's schema has set the
stamps of all its delete records. -/
def Watcher.StampsSet (good : TableSchema → Prop) (g : Watcher) : Prop :=
  (∀ schema, g.schema = some schema → good schema) → g.faulty = true ∨ ∀ loc ∈ g.logged, loc ∈ g.del

structure Watcher.Halted (good : TableSchema → Prop) (x : Nat) (g : Watcher) : Prop where
  ready : Ready x g
  stamped : StampsSet good g

theorem ensures_logDeletes {done : List PageSlot} (hg : Logged x o done g) (hdel : g.del = []) :
    Ensures rowProtocol g (logDeletes x locs)
      (fun g' _ => Logged x o (locs++done) g' ∧ g'.del = []) (Halted good x) := by
  induction locs generalizing g done with
  | nil => exact ⟨hg,hdel⟩
  | cons loc locs ih =>
    have hr := hg.ready
    refine ensures_bind.2 (ensures_step.2 ⟨⟨hr.tx,hr.locked,hr.committed,hr.pend,hg.ins,hdel⟩,fun lsn => ?_⟩)
    cases lsn with
    | none => exact ⟨{ hr with },fun _ => .inl rfl⟩
    | some lsn =>
      have hg' : Logged x o (loc :: done) { g with logged := loc :: g.logged } :=
        ⟨{ hr with },hg.schema,hg.ins,fun l => by simp [hg.logged]⟩
      refine (ih hg' hdel).mono (fun g'' _ h => ⟨⟨h.1.ready,h.1.schema,h.1.ins,fun l => ?_⟩,h.2⟩) fun _ h => h
      rw [h.1.logged]
      simp only [mem_append,mem_cons]
      tauto

theorem ensures_stamp (hg : Logged x o locs g) (hl : loc ∈ locs) : Ensures rowProtocol g (stamp x loc)
      (fun g' _ => Logged x o locs g' ∧ g'.del = loc :: g.del) (Halted good x) := by
  have hr := hg.ready
  refine ensures_step.2 ⟨⟨hr.tx,hr.locked,(hg.logged loc).2 hl,hr.committed,hr.pin,hr.pend,hg.ins⟩,fun ok => ?_⟩
  cases ok with
  | true => exact ⟨{ hg with ready := { hr with } },rfl⟩
  | false => exact ⟨{ hr with },fun _ => .inl rfl⟩

theorem ensures_stamps {todo : List PageSlot} (hg : Logged x o locs g) (hl : ∀ loc ∈ todo, loc ∈ locs) :
    Ensures rowProtocol g (todo.forM (stamp x))
      (fun g' _ => Logged x o locs g' ∧ (∀ loc ∈ todo, loc ∈ g'.del) ∧ ∀ loc ∈ g.del, loc ∈ g'.del)
      (Halted good x) := by
  induction todo generalizing g with
  | nil => exact ⟨hg,by simp,fun _ h => h⟩
  | cons loc todo ih =>
    refine (ensures_stamp hg (hl loc mem_cons_self)).bind fun g' _ h => ?_
    refine (ih h.1 fun l hl' => hl l (mem_cons_of_mem _ hl')).mono (fun g'' _ h' => ?_) fun _ h => h
    have hmem : ∀ l ∈ loc :: g.del, l ∈ g''.del := fun l hl => h'.2.2 l (by rw [h.2]; exact hl)
    refine ⟨h'.1,fun l hl => ?_,fun l hl => hmem l (mem_cons_of_mem _ hl)⟩
    rcases mem_cons.1 hl with rfl | hl
    · exact hmem l mem_cons_self
    · exact h'.2.1 l hl
end

section
variable {V : Type} {R : RowOps V} {g : Watcher} {D : Tuple → Prop} {entries : List (Int × PageSlot)} {G : Type}
def Watcher.Seen (g g' : Watcher) : Prop :=
  ∃ b schema, g' = { g with faulty := b, schema := schema } ∧ ∀ s, g.schema = some s → schema = some s

theorem Watcher.seen_faulty (g : Watcher) (b : Bool) : Seen g { g with faulty := b } := ⟨b,g.schema,rfl,fun _ h => h⟩

theorem Watcher.seen_getInfo (g : Watcher) (info : TableInfo) : Seen g (g.next .getInfo info) :=
  ⟨g.faulty,_,rfl,fun s h => by simp [h]⟩

theorem Watcher.Seen.trans (h : Seen g₁ g₂) (h' : Seen g₂ g₃) : Seen g₁ g₃ := by
  obtain ⟨_,o,rfl,ho⟩ := h
  obtain ⟨b,o',rfl,ho'⟩ := h'
  exact ⟨b,o',rfl,fun s hs => ho' s (ho s hs)⟩

theorem ensures_orThrow {P : Protocol Cmd Cmd.Res G} {g : G} {x : Except String α} {Q : G → α → Prop}
    {E : G → Prop} (hq : ∀ a, x = .ok a → Q g a) (he : ∀ e, x = .error e → E g) : Ensures P g (orThrow x) Q E := by
  cases x with
  | ok a => exact hq a rfl
  | error e => exact he e rfl

theorem ensures_scanIf {P : Protocol Cmd Cmd.Res G} {g : G} {Q : G → List (PageSlot × Tuple) × Bool → Prop}
    {E : G → Prop} (b : Bool) (ha : P.allowed g .scanSlots) (hscan : b = true → ∀ r, Q (P.next g .scanSlots r) r)
    (hskip : b = false → Q g ([],true)) :
    Ensures P g (if b then cmd .scanSlots else pure ([],true) : Exec (List (PageSlot × Tuple) × Bool)) Q E := by
  cases b with
  | true => exact ⟨ha,hscan rfl⟩
  | false => exact hskip rfl

def Decoded (R : RowOps V) (schema : TableSchema) (ls : List (Located V)) : Prop :=
  ∀ l ∈ ls, ∃ data, R.decodeRow schema data = some l.row

def Cmd.Looks : Cmd → Prop
  | .getInfo => True
  | .scanSlots => True
  | .getTuple _ => True
  | .txClock => True
  | .setInfo f => ∀ info, (f info).schema = info.schema
  | _ => False

def Cmd.Shows (D : Tuple → Prop) : (c : Cmd) → c.Res → Prop
  | .getTuple _, r => ∀ t, r = some (some t) → D t
  | .scanSlots, r => ∀ y ∈ Prod.fst r, D y.2
  | _, _ => True

abbrev Looks {α : Type} (D : Tuple → Prop) (x : Exec α) (Q : α → Prop) : Prop := Within Cmd.Looks (Cmd.Shows D) x Q

variable {Q : α → Prop}
theorem within_orThrow {S : Cmd → Prop} {A : (c : Cmd) → c.Res → Prop} {y : Except String α}
    (h : ∀ a, y = .ok a → Q a) : Within S A (orThrow y) Q := by
  cases y with
  | ok a => exact within_pure (h a rfl)
  | error e => exact within_throw

theorem looks_ensurePosDirectory : Looks D ensurePosDirectory fun _ => True := by
  refine within_step trivial fun info _ => ?_
  cases info.posDirectory with
  | some dir => exact within_pure trivial
  | none =>
    refine within_step trivial fun scan _ => ?_
    obtain ⟨slots,ok⟩ := scan
    cases ok with
    | true => exact within_step (fun _ => rfl) fun _ _ => within_pure trivial
    | false => exact within_pure trivial

def Read (R : RowOps V) (sc : TableSchema) (D : Tuple → Prop) (row : List V) : Prop :=
  ∃ t : Tuple, D t ∧ R.decodeRow sc t.data = some row

theorem read_locateScan {slots : List (PageSlot × Tuple)} {pos : Int} {wanted : List Int} (h : ∀ y ∈ slots, D y.2) :
    ∀ l ∈ locateScan (fun t => R.decodeRow schema t.data) slots pos wanted, Read R schema D l.row := by
  induction slots generalizing pos wanted with
  | nil => simp [locateScan]
  | cons y slots ih =>
    rw [forall_mem_cons] at h
    simp only [locateScan]
    split
    · exact ih h.2
    · split
      · split
        · simp
        · next row hrow =>
          refine forall_mem_cons.2 ⟨⟨_,h.1,hrow⟩,?_⟩
          split
          · simp
          · exact ih h.2
      · split
        · simp
        · exact ih h.2

theorem looks_readLocated : Looks D (readLocated R schema entries) fun ls => ∀ l ∈ ls, Read R schema D l.row := by
  induction entries with
  | nil => exact within_pure (by simp)
  | cons e entries ih =>
    refine within_step trivial fun r hr => within_bind (ih.mono fun rest hrest => ?_)
    split
    · next row hrow =>
      obtain ⟨t,ht,hrow⟩ := bind_eq_some_iff.1 hrow
      exact within_pure (forall_mem_cons.2 ⟨⟨_,hr t (join_eq_some_iff.1 ht),hrow⟩,hrest⟩)
    · exact within_pure hrest

theorem looks_locateRows : Looks D (locateRows R info is) fun ls => ∀ l ∈ ls, Read R info.schema D l.row := by
  refine within_bind (looks_ensurePosDirectory.mono fun dir _ => ?_)
  cases dir with
  | none => exact within_pure (by simp)
  | some dir =>
    dsimp only
    split
    · exact looks_readLocated
    · exact within_step trivial fun scan hscan => within_pure (read_locateScan hscan)

theorem looks_locateDirect : Looks D (locateDirect is : Exec (List (Located V))) fun _ => True := by
  refine within_bind (looks_ensurePosDirectory.mono fun dir _ => ?_)
  cases dir with
  | none => exact within_pure trivial
  | some dir =>
    dsimp only
    split
    · exact within_pure trivial
    · refine within_step trivial fun scan _ => ?_
      split
      · exact within_pure trivial
      · exact within_throw

def Matched (R : RowOps V) (sc : TableSchema) (D : Tuple → Prop) (matchFn : Tuple → Except String Bool)
    (row : List V) : Prop :=
  ∃ t : Tuple, D t ∧ matchFn t = .ok true ∧ R.decodeRow sc t.data = some row

theorem looks_matchRows {clock : Clock} :
    Looks D (matchRows R schema clock matchFn entries) fun ls => ∀ l ∈ ls, Matched R schema D matchFn l.row := by
  induction entries with
  | nil => exact within_pure (by simp)
  | cons e entries ih =>
    refine within_step trivial fun r hr => ?_
    cases r with
    | none => exact within_throw
    | some r =>
      cases r with
      | none => exact ih
      | some t =>
        dsimp only
        split
        · refine within_bind (within_orThrow fun ok hok => within_bind (ih.mono fun rest hrest => ?_))
          cases ok with
          | false => exact within_pure hrest
          | true =>
            cases hrow : R.decodeRow schema t.data with
            | none => exact within_pure hrest
            | some row => exact within_pure (forall_mem_cons.2 ⟨⟨t,hr t rfl,hok,hrow⟩,hrest⟩)
        · exact ih

theorem looks_locateVM : Looks D (locateVM R schema positions matchFn) fun ls =>
    ∀ l ∈ ls, Matched R schema D matchFn l.row := by
  refine within_bind (looks_ensurePosDirectory.mono fun dir _ => ?_)
  cases dir with
  | none => exact within_throw
  | some dir => exact within_step trivial fun clock _ => looks_matchRows

theorem Looks.seen (h : Looks (fun _ => True) body Q) :
    Ensures rowProtocol g body (fun g' a => Seen g g' ∧ Q a) (Seen g) := by
  refine Within.ensures h (fun g' c hs hc => ?_) (seen_faulty g g.faulty)
  cases c with
  | getInfo => exact ⟨trivial,fun info => ⟨trivial,hs.trans (seen_getInfo g' info)⟩⟩
  | scanSlots => exact ⟨trivial,fun _ => ⟨fun _ _ => trivial,hs.trans (seen_faulty _ _)⟩⟩
  | getTuple => exact ⟨trivial,fun _ => ⟨fun _ _ => trivial,hs.trans (seen_faulty _ _)⟩⟩
  | txClock => exact ⟨trivial,fun _ => ⟨trivial,hs⟩⟩
  | setInfo => exact ⟨hc,fun _ => ⟨trivial,hs⟩⟩
  | _ => exact hc.elim
end

namespace Watcher
variable {x : Nat} {g : Watcher}
structure Begun (x : Nat) (g : Watcher) : Prop where
  logged : Logged x g.schema [] g
  del : g.del = []

structure Stamped (x : Nat) (g : Watcher) : Prop where
  ready : Ready x g
  stamped : ∀ loc ∈ g.logged, loc ∈ g.del

structure Done (good : TableSchema → Prop) (g : Watcher) : Prop where
  locked : g.locked = false
  pageLock : g.pageLock = none
  pin : g.pin = none
  pend : g.pend = none
  stamped : StampsSet good g

theorem Begun.seen (h : Begun x g) (hs : Seen g g') : Begun x g' := by
  obtain ⟨b,o,rfl,-⟩ := hs
  obtain ⟨⟨⟨h1,h2,h3,h4,h5,h6⟩,-,h7,h₈⟩,h₉⟩ := h
  exact ⟨⟨⟨h1,h2,h3,h4,h5,h6⟩,rfl,h7,h₈⟩,h₉⟩

theorem Begun.halted (h : Begun x g) (good : TableSchema → Prop) : Halted good x g :=
  ⟨h.logged.ready,fun _ => .inr fun loc hl => absurd ((h.logged.logged loc).1 hl) (by simp)⟩

theorem Stamped.kept (h : Stamped x g) (hk : Kept g g') : Stamped x g' :=
  ⟨h.ready.of_kept hk,by rw [hk.logged,hk.del]; exact h.stamped⟩

theorem Stamped.halted (h : Stamped x g) (good : TableSchema → Prop) : Halted good x g :=
  ⟨h.ready,fun _ => .inr h.stamped⟩

theorem Stamped.ensures (hst : Stamped x g)
    (h : Ensures rowProtocol g body (fun g' _ => Kept g g') (Kept g)) :
    Ensures rowProtocol g body (fun g' _ => Stamped x g') (Halted good x) :=
  h.mono (fun _ _ hk => hst.kept hk) fun _ hk => (hst.kept hk).halted good

end Watcher

section
variable {V : Type} {R : RowOps V} {x : Nat} {g : Watcher} {ls : List (Located V)} {vs : List (NewVersion V)}
  {o : Option TableSchema} {updateFn : List V → Except String (List V)} {k : TableKey} {β : Type}
theorem ensures_getTableForWrite : Ensures rowProtocol { tx := some x } (getTableForWrite k)
      (fun g' _ => Begun x g' ∧ g'.schema = none) (Done good) := by
  refine ensures_step.2 ⟨⟨rfl,rfl,rfl⟩,fun found => ?_⟩
  split
  · rename_i h
    subst h
    exact ⟨⟨⟨⟨rfl,rfl,rfl,rfl,rfl,rfl⟩,rfl,rfl,fun _ => Iff.rfl⟩,rfl⟩,rfl⟩
  · rename_i h
    have hf : found = false := by simpa using h
    subst hf
    exact ⟨rfl,rfl,rfl,rfl,fun _ => .inr fun _ h => h⟩

theorem ensures_unlockOnError {Q : Watcher → α → Prop} (h : Ensures rowProtocol g body Q (Halted good x)) :
    Ensures rowProtocol g (unlockOnError body) Q (Done good) := by
  refine ensures_onError (h.mono (fun _ _ hq => hq) fun g' hh => ?_)
  have hr := hh.ready
  exact ⟨⟨hr.locked,hr.pageLock,hr.pin⟩,fun _ => ⟨rfl,hr.pageLock,hr.pin,hr.pend,hh.stamped⟩⟩

theorem ensures_finish {count : Int → Int} (good : TableSchema → Prop) (hg : Stamped x g) :
    Ensures rowProtocol { g with locked := false } (finish x count) (fun g' _ => Done good g')
      (Done good) := by
  have hr := hg.ready
  refine ensures_step.2 ⟨fun _ => rfl,fun _ => ensures_step.2 ⟨trivial,fun info =>
    ensures_step.2 ⟨hr.tx,fun _ => ensures_step.2
      ⟨⟨hr.tx,hr.committed,hr.pend,hg.stamped⟩,fun lsn => ?_⟩⟩⟩⟩
  cases lsn with
  | none => exact ⟨rfl,hr.pageLock,hr.pin,hr.pend,fun _ => .inl rfl⟩
  | some lsn => exact ⟨rfl,hr.pageLock,hr.pin,hr.pend,fun _ => .inr hg.stamped⟩

theorem Watcher.Ready.allowed_unlock (hr : Ready x g) : rowProtocol.allowed g .unlockTable :=
  ⟨hr.locked,hr.pageLock,hr.pin⟩

theorem ensures_locked {body : Nat → Exec α} {rest : Nat → α → Exec β}
    (hbody : ∀ x g, Begun x g → g.schema = none → Ensures rowProtocol g (body x)
      (fun g' _ => Stamped x g') (Halted good x))
    (hrest : ∀ x g a, Stamped x g →
      Ensures rowProtocol { g with locked := false } (rest x a) (fun g' _ => Done good g') (Done good)) :
    Ensures rowProtocol {} (do
      let x ← Exec.cmd .nextTxID
      getTableForWrite k
      let a ← unlockOnError (body x)
      Exec.cmd .unlockTable
      rest x a) (fun g _ => Done good g) (Done good) := by
  refine ensures_step.2 ⟨rfl,fun x => ?_⟩
  refine ensures_getTableForWrite.bind fun g _ hg => ?_
  refine (ensures_unlockOnError (hbody x g hg.1 hg.2)).bind fun g' a hg' => ?_
  exact ensures_step.2 ⟨hg'.ready.allowed_unlock,fun _ => hrest x g' a hg'⟩

theorem ensures_insertRows [BEq V] (k : TableKey) (rows : List (List V)) (good : TableSchema → Prop) :
    Ensures rowProtocol {} (insertRows R k rows) (fun g _ => Done good g) (Done good) := by
  refine ensures_locked (fun x g hg _ => ?_) fun x g _ hg => ?_
  · refine ensures_step.2 ⟨trivial,fun info => ?_⟩
    have hg1 := hg.seen (seen_getInfo g info)
    refine (ensures_scanIf (Q := fun g' _ => Begun x g') _ trivial (fun _ _ => hg1.seen (seen_faulty _ _)) fun _ =>
      hg1).bind fun g' scan hg' => ?_
    refine ensures_bind.2 (ensures_orThrow (fun ts hts => ?_) fun _ _ => hg'.halted good)
    refine ensures_step.2 ⟨trivial,fun count => ?_⟩
    have hg'' : Begun x (rowProtocol.next g' .pageCount count) := hg'.seen (seen_faulty _ _)
    cases count with
    | none => exact hg''.halted good
    | some count =>
      have hst : Stamped x _ := ⟨hg''.logged.ready,fun loc hl => absurd ((hg''.logged.logged loc).1 hl) (by simp)⟩
      refine hst.ensures (ensures_insertTuples hg''.logged.ready fun t ht => ?_)
      obtain ⟨-,-,ns,-,henc⟩ := (encodeRows_ok hts).2 t ht
      exact writtenBy_encodePageTuple henc
  · refine (ensures_finish good hg).bind fun g' count hd => ?_
    exact ensures_step.2 ⟨fun _ => rfl,fun _ => hd⟩

theorem ensures_stampAndUpdate {newRow : Located V → Except String (List V)} (hg : Logged x o locs g)
    (hl : ∀ l ∈ ls, l.loc ∈ locs) (hgood : (∀ schema, o = some schema → good schema) →
      ∀ l ∈ ls, ∃ row t, newRow l = .ok row ∧ encodePageTuple R x row = .ok t) :
    Ensures rowProtocol g (stampAndUpdate R x newRow ls)
      (fun g' vs => Logged x o locs g' ∧ (∀ loc ∈ ls.map Located.loc, loc ∈ g'.del) ∧
        (∀ loc ∈ g.del, loc ∈ g'.del) ∧ (∀ v ∈ vs, v.old ∈ ls) ∧ ∀ v ∈ vs, v.encoded.WrittenBy x)
      (Halted good x) := by
  induction ls generalizing g with
  | nil => exact ⟨hg,by simp,fun _ h => h,by simp,by simp⟩
  | cons l ls ih =>
    refine (ensures_stamp hg (hl l mem_cons_self)).bind fun g' _ hg' => ?_
    have hhead : (∀ schema, g'.schema = some schema → good schema) →
        ∃ row t, newRow l = .ok row ∧ encodePageTuple R x row = .ok t :=
      fun hgd => hgood (fun sc hsc => hgd sc (hg'.1.schema.trans hsc)) l mem_cons_self
    refine ensures_bind.2 (ensures_orThrow (fun row hrow => ?_) fun e he => ?_)
    · refine ensures_bind.2 (ensures_orThrow (fun t ht => ?_) fun e he => ?_)
      · refine (ih hg'.1 (fun l hl' => hl l (mem_cons_of_mem _ hl'))
          fun hgd l hl' => hgood hgd l (mem_cons_of_mem _ hl')).bind fun g'' vs h => ?_
        obtain ⟨h1,h2,h3,h4,h5⟩ := h
        have hmem : ∀ loc ∈ l.loc :: g.del, loc ∈ g''.del := fun loc hloc => h3 loc (by rw [hg'.2]; exact hloc)
        refine ⟨h1,?_,fun loc hloc => hmem loc (mem_cons_of_mem _ hloc),?_,?_⟩
        · simp only [map_cons,mem_cons,forall_eq_or_imp]
          exact ⟨hmem _ mem_cons_self,h2⟩
        · simp only [mem_cons,forall_eq_or_imp,true_or,true_and]
          exact fun v hv => .inr (h4 v hv)
        · simp only [mem_cons,forall_eq_or_imp]
          exact ⟨writtenBy_encodePageTuple ht,h5⟩
      · refine ⟨hg'.1.ready,fun hgd => ?_⟩
        obtain ⟨row',t,hr,ht⟩ := hhead hgd
        obtain rfl := Except.ok.inj (hrow.symm.trans hr)
        cases he.symm.trans ht
    · refine ⟨hg'.1.ready,fun hgd => ?_⟩
      obtain ⟨row',t,hr,-⟩ := hhead hgd
      cases he.symm.trans hr

def AcceptsUpdates (R : RowOps V) (updates : List (String × V)) (schema : TableSchema) : Prop :=
  ∀ data row, R.decodeRow schema data = some row →
    ∃ row' bytes, applyUpdates R schema.columns updates row = .ok row' ∧ R.encodeRow row' = .ok bytes

theorem encodePageTuple_eq_ok {row : List V} {bytes : List UInt8} (h : R.encodeRow row = .ok bytes) :
    encodePageTuple R x row = .ok ⟨BitVec.ofNat 64 x,0,bytes⟩ := by simp [encodePageTuple,h,Except.map]

theorem Watcher.Begun.afterInfo (hg : Begun x g) (hs : g.schema = none)
    (h : Seen (g.next .getInfo info) g') : Begun x g' ∧ g'.schema = some info.schema := by
  refine ⟨(hg.seen (seen_getInfo g info)).seen h,?_⟩
  obtain ⟨b,o,rfl,ho⟩ := h
  exact ho _ (by simp [Watcher.next,hs])

theorem Watcher.Logged.stamped (h : Logged x o locs g) (hd : ∀ loc ∈ locs, loc ∈ g.del) : Stamped x g :=
  ⟨h.ready,fun loc hl => hd loc ((h.logged loc).1 hl)⟩

theorem ensures_located {locate : TableInfo → Exec (List (Located V))}
    {rest : TableInfo → List (Located V) → Exec β} {Q : TableInfo → List (Located V) → Prop}
    {Q' : Watcher → β → Prop}
    (hg : Begun x g) (hs : g.schema = none) (hlooks : ∀ info, Looks (fun _ => True) (locate info) (Q info))
    (hrest : ∀ info ls g', Q info ls → Logged x (some info.schema) (ls.map Located.loc) g' →
      Ensures rowProtocol g' (rest info ls) Q' (Halted good x)) :
    Ensures rowProtocol g (do
      let info ← Exec.cmd .getInfo
      let ls ← locate info
      logDeletes x (ls.map Located.loc)
      rest info ls) Q' (Halted good x) := by
  refine ensures_step.2 ⟨trivial,fun info => ensures_bind.2 ?_⟩
  refine (hlooks info).seen.mono (fun g₁ ls h1 => ?_) fun g₁ h1 => (hg.afterInfo hs h1).1.halted good
  obtain ⟨hb,hsch⟩ := hg.afterInfo hs h1.1
  refine (ensures_logDeletes hb.logged hb.del).bind fun g₂ _ h2 => ?_
  rw [append_nil,hsch] at h2
  exact hrest info ls g₂ h1.2 h2.1

theorem ensures_mutateRows (k : TableKey) (is : List Int) (updates : Option (List (String × V)))
    (good : TableSchema → Prop)
    (hgood : ∀ schema, good schema → ∀ ups, updates = some ups → AcceptsUpdates R ups schema) :
    Ensures rowProtocol {} (mutateRows R k is updates) (fun g _ => Done good g) (Done good) := by
  refine ensures_locked (fun x g hg hs => ?_) fun x g _ hg => ?_
  · refine ensures_located hg hs (fun _ => looks_locateRows) fun info located g₂ hread h2 => ?_
    cases updates with
    | none =>
      refine (ensures_stamps h2 fun _ h => h).bind fun g₃ _ h3 => ?_
      have hst : Stamped x g₃ := h3.1.stamped h3.2.1
      dsimp only
      split
      · exact hst
      · exact ensures_step.2 ⟨fun _ => rfl,fun _ => hst⟩
    | some updates =>
      refine (ensures_stampAndUpdate h2 (fun l hl => mem_map.2 ⟨l,hl,rfl⟩)
        fun hgd l hl => ?_).bind fun g₃ vs h3 => ?_
      · obtain ⟨t,-,hdata⟩ := hread l hl
        obtain ⟨row,bytes,hrow,hbytes⟩ := hgood info.schema (hgd info.schema rfl) updates rfl t.data l.row hdata
        exact ⟨row,_,hrow,encodePageTuple_eq_ok hbytes⟩
      · obtain ⟨hl3,hdel,-,hold,hw⟩ := h3
        have hst : Stamped x g₃ := hl3.stamped hdel
        have hv : ∀ v ∈ vs, v.old.loc ∈ g₃.del := fun v hv => hdel _ (mem_map.2 ⟨v.old,hold v hv,rfl⟩)
        exact ensures_bind.2 (hst.ensures (ensures_replaceVersions hst.ready hv hw))
  · exact (ensures_finish good hg).bind fun _ _ hd => hd

theorem ensures_stampDirect {newByIndex : Int → Option (List V)} (hg : Logged x o locs g)
    (hl : ∀ l ∈ ls, l.loc ∈ locs)
    (hgood : (∀ schema, o = some schema → good schema) → ∀ i nv, newByIndex i = some nv → ∃ bytes,
      R.encodeRow nv = .ok bytes) :
    Ensures rowProtocol g (stampDirect R x schema newByIndex ls)
      (fun g' r => Logged x o locs g' ∧ (∀ loc ∈ ls.map Located.loc, loc ∈ g'.del) ∧
        (∀ loc ∈ g.del, loc ∈ g'.del) ∧ r.1.map Located.loc = ls.map Located.loc ∧
        ∀ v ∈ r.2, v.2.WrittenBy x)
      (Halted good x) := by
  induction ls generalizing g with
  | nil => exact ⟨hg,by simp,fun _ h => h,rfl,by simp⟩
  | cons l ls ih =>
    have hr := hg.ready
    refine ensures_step.2 ⟨trivial,fun old => ?_⟩
    cases old with
    | none => exact ⟨{ hr with },fun _ => .inl (by simp [rowProtocol,Watcher.next])⟩
    | some old =>
      have hg0 : Logged x o locs (rowProtocol.next g (.getTuple l.loc) (some old)) :=
        { hg with ready := { hr with } }
      refine (ensures_stamp hg0 (hl l mem_cons_self)).bind fun g₁ _ h1 => ?_
      refine ensures_bind.2 (Ensures.mono (?hnew : Ensures rowProtocol g₁ _
        (fun g' new => g' = g₁ ∧ ∀ v ∈ new, v.2.WrittenBy x) (Halted good x)) (fun g₂ new h2 => ?_) fun _ h => h)
      case hnew =>
        cases hn : newByIndex l.rowIdx with
        | none => exact ⟨rfl,by simp⟩
        | some nv =>
          refine ensures_bind.2 (ensures_orThrow (fun t ht => ⟨rfl,?_⟩) fun e he => ⟨h1.1.ready,fun hgd => ?_⟩)
          · simpa using writtenBy_encodePageTuple ht
          · obtain ⟨bytes,hb⟩ := hgood (fun sc hsc => hgd sc (h1.1.schema.trans hsc)) _ _ hn
            cases he.symm.trans (encodePageTuple_eq_ok hb)
      obtain ⟨rfl,hw⟩ := h2
      refine (ih h1.1 fun l hl' => hl l (mem_cons_of_mem _ hl')).bind
        fun g₃ r h3 => ?_
      obtain ⟨h3,hall,hmono,hloc,hw'⟩ := h3
      have hmem : ∀ loc ∈ l.loc :: g.del, loc ∈ g₃.del := fun loc hloc => hmono loc (by rw [h1.2]; exact hloc)
      refine ⟨h3,?_,fun loc hl => hmem loc (mem_cons_of_mem _ hl),by simp [hloc],?_⟩
      · simp only [map_cons,mem_cons,forall_eq_or_imp]
        exact ⟨hmem _ mem_cons_self,hall⟩
      · intro v hv
        rcases mem_append.1 hv with hv | hv
        · exact hw v hv
        · exact hw' v hv

theorem mem_pairVersions {nvs : List (List V × Tuple)} {v : NewVersion V}
    (h : v ∈ pairVersions ls nvs) : v.old ∈ ls ∧ (v.newRow,v.encoded) ∈ nvs := by
  induction ls generalizing nvs with
  | nil => simp [pairVersions] at h
  | cons l ls ih =>
    cases nvs with
    | nil => simp [pairVersions] at h
    | cons nv nvs =>
      rcases mem_cons.1 h with rfl | h
      · exact ⟨mem_cons_self,mem_cons_self⟩
      · exact ⟨mem_cons_of_mem _ (ih h).1,mem_cons_of_mem _ (ih h).2⟩

theorem ensures_updateRowsDirect (k : TableKey) (is : List Int) (newValues : List (List V))
    (good : TableSchema → Prop)
    (hgood : ∀ schema, good schema → ∀ nv ∈ newValues, ∃ bytes, R.encodeRow nv = .ok bytes) :
    Ensures rowProtocol {} (updateRowsDirect R k is newValues) (fun g _ => Done good g)
      (Done good) := by
  refine ensures_locked (fun x g hg hs => ?_) fun x g _ hg => ?_
  · refine ensures_located hg hs (fun _ => looks_locateDirect) fun info located g₂ _ h2 => ?_
    refine (ensures_stampDirect h2 (fun l hl => mem_map.2 ⟨l,hl,rfl⟩)
      fun hgd i nv hnv => ?_).bind fun g₃ stamped h3 => ?_
    · obtain ⟨e,he,rfl⟩ := map_eq_some_iff.1 hnv
      have hmem : e ∈ is.zip newValues := mem_reverse.1 (mem_of_find?_eq_some he)
      exact hgood info.schema (hgd info.schema rfl) e.2 (of_mem_zip hmem).2
    · obtain ⟨hl3,hdel,-,hloc,hw⟩ := h3
      have hst : Stamped x g₃ := hl3.stamped hdel
      have hv : ∀ v ∈ pairVersions stamped.1 stamped.2, v.old.loc ∈ g₃.del := fun v hv =>
        hdel _ (hloc ▸ mem_map.2 ⟨v.old,(mem_pairVersions hv).1,rfl⟩)
      have hw' : ∀ v ∈ pairVersions stamped.1 stamped.2, v.encoded.WrittenBy x :=
        fun v hv => hw _ (mem_pairVersions hv).2
      dsimp only
      split
      · refine ensures_bind.2 ((ensures_tryHOTInserts hst.ready hv hw').mono (fun g4 _ h4 => ?_) fun _ h => h.elim)
        exact (hst.kept h4.1).halted good
      · exact ensures_bind.2 (hst.ensures (ensures_replaceVersions hst.ready hv hw'))
  · exact (ensures_finish good hg).bind fun _ _ hd => hd

def AcceptsUpdateFn (R : RowOps V) (updateFn : List V → Except String (List V)) (schema : TableSchema) : Prop :=
  ∀ data row, R.decodeRow schema data = some row → ∃ row' bytes, updateFn row = .ok row' ∧
    R.encodeRow row' = .ok bytes

theorem newVersionsVM_total (h : AcceptsUpdateFn R updateFn schema) (hd : Decoded R schema ls) (e : String) :
    newVersionsVM R x updateFn ls ≠ .error e := by
  induction ls generalizing e with
  | nil => simp [newVersionsVM]
  | cons l ls ih =>
    obtain ⟨data,hdata⟩ := hd l mem_cons_self
    obtain ⟨row',bytes,hrow,hbytes⟩ := h data l.row hdata
    simp only [newVersionsVM,hrow,encodePageTuple_eq_ok hbytes]
    split
    · rename_i he
      exact absurd he (ih (fun l hl => hd l (mem_cons_of_mem _ hl)) _)
    · simp

theorem ensures_stampVM (hg : Begun x g)
    (hs : g.schema = none) (hgood : ∀ schema, good schema → AcceptsUpdateFn R updateFn schema) :
    Ensures rowProtocol g (stampVM R x positions matchFn updateFn)
      (fun g' r => Stamped x g' ∧ g'.schema = some r.1.schema ∧ g'.ins = [] ∧
        (∀ v ∈ r.2, v.old.loc ∈ g'.logged) ∧ ∀ v ∈ r.2, v.encoded.WrittenBy x)
      (Halted good x) := by
  refine ensures_located hg hs (fun _ => looks_locateVM) fun info located g₂ hmatched h2 => ?_
  refine ensures_bind.2 (ensures_orThrow (fun vs hvs => ?_) fun e he => ⟨h2.ready,fun hgd => ?_⟩)
  · obtain ⟨hold,hnew⟩ := newVersionsVM_ok hvs
    refine (ensures_stamps h2 fun _ h => h).bind fun g₃ _ h3 => ?_
    refine ⟨h3.1.stamped h3.2.1,h3.1.schema,h3.1.ins,fun v hv => (h3.1.logged _).2 ?_,fun v hv =>
      writtenBy_encodePageTuple (hnew v hv).2⟩
    exact mem_map.2 ⟨v.old,hold ▸ mem_map.2 ⟨v,hv,rfl⟩,rfl⟩
  · refine absurd he (newVersionsVM_total (hgood info.schema (hgd info.schema h2.schema)) (fun l hl => ?_) e)
    obtain ⟨t,-,-,hrow⟩ := hmatched l hl
    exact ⟨t.data,hrow⟩

theorem ensures_revertStamps (hg : Ready x g) (hi : g.ins = []) (hl : ∀ loc ∈ locs, loc ∈ g.logged) :
    Ensures rowProtocol g (revertStamps locs) (fun g' _ => Ready x g' ∧ g'.schema = g.schema)
      fun _ => False := by
  induction locs generalizing g with
  | nil => exact ⟨hg,rfl⟩
  | cons loc locs ih =>
    refine ensures_bind.2 (ensures_step.2
      ⟨⟨hg.locked,hl loc mem_cons_self,hg.committed,hg.pin,hg.pend,hi⟩,fun ok => ?_⟩)
    have hrest : ∀ l ∈ locs, l ∈ g.logged := fun l hl' => hl l (mem_cons_of_mem _ hl')
    cases ok with
    | true => exact ih { hg with } hi hrest
    | false => exact ih { hg with } hi hrest

/-- `UpdateRowsVM` between its stamps and its new versions, without the table. -/
structure Watcher.Released (x : Nat) (info : TableInfo) (vs : List (NewVersion V)) (g : Watcher) : Prop where
  stamped : Stamped x { g with locked := true }
  unlocked : g.locked = false
  schema : g.schema = some info.schema
  ins : g.ins = []
  logged : ∀ v ∈ vs, v.old.loc ∈ g.logged
  written : ∀ v ∈ vs, v.encoded.WrittenBy x

theorem ensures_stampPhaseVM (k : TableKey) (positions : Option (List Int)) (matchFn : Tuple → Except String Bool)
    (updateFn : List V → Except String (List V)) (good : TableSchema → Prop)
    (hgood : ∀ schema, good schema → AcceptsUpdateFn R updateFn schema) :
    Ensures rowProtocol {} (stampPhaseVM R k positions matchFn updateFn) (fun g r => Released r.1 r.2.1 r.2.2 g)
      (Done good) := by
  refine ensures_step.2 ⟨rfl,fun x => ensures_bind.2 ?_⟩
  refine ensures_getTableForWrite.mono (fun g _ hg => ?_) fun _ h => h
  refine (ensures_unlockOnError (ensures_stampVM hg.1 hg.2 hgood)).bind
    fun g₁ stamped h1 => ?_
  obtain ⟨hst,hsch,hins,hlog,hw⟩ := h1
  have hr := hst.ready
  refine ensures_step.2 ⟨hr.allowed_unlock,fun _ => ?_⟩
  exact ⟨⟨{ hr with locked := rfl },hst.stamped⟩,rfl,hsch,hins,hlog,hw⟩

theorem Watcher.Released.done (h : Released x info vs g) (good : TableSchema → Prop) : Done good g :=
  ⟨h.unlocked,h.stamped.ready.pageLock,h.stamped.ready.pin,h.stamped.ready.pend,fun _ => .inr h.stamped.stamped⟩

theorem ensures_revertPhaseVM (h : Released x info vs g) :
    Ensures rowProtocol g (revertPhaseVM vs) (fun g' _ => Done (fun _ => False) g' ∧ g'.schema = some info.schema)
      fun _ => False := by
  have hr := h.stamped.ready
  refine ensures_step.2 ⟨⟨h.unlocked,hr.pageLock,hr.pin⟩,fun _ => ensures_bind.2 ?_⟩
  refine (ensures_revertStamps hr h.ins fun loc hloc => ?_).mono (fun g₂ _ h2 => ?_) fun _ h => h
  · obtain ⟨v',hv',rfl⟩ := mem_map.1 hloc
    exact h.logged v' hv'
  · obtain ⟨hr2,hs2⟩ := h2
    have hsch := hs2.trans h.schema
    refine ⟨hr2.allowed_unlock,fun _ => ⟨⟨rfl,hr2.pageLock,hr2.pin,hr2.pend,fun hgd => ?_⟩,hsch⟩⟩
    exact (hgd _ hsch).elim

theorem ensures_storePhaseVM (good : TableSchema → Prop) (h : Released x info vs g) :
    Ensures rowProtocol g (storePhaseVM R x info vs) (fun g' _ => Done good g') (Done good) := by
  have hst := h.stamped
  have hr := hst.ready
  have hdel : ∀ v ∈ vs, v.old.loc ∈ g.del := fun v hv => hst.stamped _ (h.logged v hv)
  refine ensures_step.2 ⟨⟨h.unlocked,hr.pageLock,hr.pin⟩,fun _ => ?_⟩
  refine (ensures_unlockOnError (hst.ensures (ensures_replaceVersions hr hdel h.written))).bind fun g' _ hg' => ?_
  refine ensures_step.2 ⟨hg'.ready.allowed_unlock,fun _ => ?_⟩
  exact (ensures_finish good hg').bind fun _ _ hd => hd

theorem ensures_updateRowsVM (k : TableKey) (positions : Option (List Int))
    (matchFn : Tuple → Except String Bool) (updateFn : List V → Except String (List V))
    (validateFn : List Int → List (List V) → Except String Unit) (good : TableSchema → Prop)
    (hgood : ∀ schema, good schema → AcceptsUpdateFn R updateFn schema)
    (hvalid : ∀ schema, good schema → ∀ is rows e, validateFn is rows ≠ .error e) :
    Ensures rowProtocol {} (updateRowsVM R k positions matchFn updateFn validateFn)
      (fun g _ => Done good g) (Done good) := by
  rw [updateRowsVM_eq]
  refine (ensures_stampPhaseVM k positions matchFn updateFn good hgood).bind fun g r h => ?_
  obtain ⟨x,info,vs⟩ := r
  dsimp only
  split
  · exact h.done good
  · split
    · rename_i e hval
      refine ensures_bind.2 ((ensures_revertPhaseVM h).mono (fun g' _ h' => ?_) fun _ h => h.elim)
      obtain ⟨hd,hsch⟩ := h'
      exact { hd with stamped := fun hgd => absurd hval (hvalid _ (hgd _ hsch) _ _ e) }
    · exact ensures_storePhaseVM good h

theorem schema_dropPositions (is : List Int) (info : TableInfo) : (dropPositions is info).schema = info.schema := by
  unfold dropPositions
  split <;> rfl

theorem ensures_deleteRowsVM (k : TableKey) (positions : Option (List Int)) (predicate : Tuple → Except String Bool)
    (preDelete : List Int → List (List V) → Except String Unit) (good : TableSchema → Prop)
    (hpre : ∀ schema, good schema → ∀ is rows e, preDelete is rows ≠ .error e) :
    Ensures rowProtocol {} (deleteRowsVM R k positions predicate preDelete) (fun g _ => Done good g)
      (Done good) := by
  refine ensures_locked (fun x g hg hs => ?_) fun x g located hg => ?_
  · refine ensures_located hg hs (fun _ => looks_locateVM) fun info located g₂ _ h2 => ?_
    split
    · rename_i hemp
      have hnil : located = [] := by simpa using hemp
      subst hnil
      exact h2.stamped (by simp)
    · refine ensures_bind.2 (ensures_orThrow (fun _ _ => ?_) fun e he => ⟨h2.ready,fun hgd => ?_⟩)
      · refine (ensures_stamps h2 fun _ h => h).bind fun g₃ _ h3 => ?_
        refine ensures_step.2 ⟨schema_dropPositions _,fun _ => ensures_step.2 ⟨fun _ => rfl,fun _ => ?_⟩⟩
        exact h3.1.stamped h3.2.1
      · exact absurd he (hpre info.schema (hgd info.schema h2.schema) _ _ e)
  · split
    · have hr := hg.ready
      exact ⟨rfl,hr.pageLock,hr.pin,hr.pend,fun _ => .inr hg.stamped⟩
    · exact (ensures_finish good hg).bind fun _ _ hd => hd
end
end VaultDB.Storage
