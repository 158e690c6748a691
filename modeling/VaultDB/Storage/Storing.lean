import VaultDB.Storage.Protocol
set_option autoImplicit false

/-!
What the row statements bring to life.

Only `InsertTuple` and the reverted stamps of `UpdateRowsVM` make a row live.
-/

namespace VaultDB.Storage
open Lib Stmt Exec

def Cmd.reviving : Cmd → Bool
  | .insertTuple _ _ => true
  | .clearXMax _ => true
  | _ => false

def Cmd.placing : Cmd → Bool
  | .lockPage _ => true
  | .unlockPage _ => true
  | .fetchPage _ => true
  | .freeSpace _ => true
  | .allocatePage => true
  | .setHOTUpdated _ _ => true
  | .unpinPage _ _ => true
  | .unpinPageDirty _ _ => true
  | .logInsert _ _ _ => true
  | .pageCount => true
  | .setInfo _ => true
  | _ => false

section
variable {V α β : Type} {R : RowOps V} {x : Exec α}
def Quiet (x : Exec α) : Prop :=
  Ensures (⟨fun _ c => c.reviving = false,fun _ _ _ => ()⟩ : Protocol Cmd Cmd.Res Unit) () x
    (fun _ _ => True) fun _ => True

theorem Quiet.bind {f : α → Exec β} (h : Quiet x) (hf : ∀ a, Quiet (f a)) : Quiet (x >>= f) :=
  ensures_bind.2 (Ensures.mono h (fun _ a _ => hf a) fun _ _ => trivial)

theorem Quiet.cmd {c : Cmd} (h : c.reviving = false) : Quiet (Exec.cmd c) := ⟨h,fun _ => trivial⟩
theorem Quiet.pure (a : α) : Quiet (pure a) := trivial
theorem Quiet.throw (e : String) : Quiet (throw e : Exec α) := trivial

section
variable {G : Type} {P : Protocol Cmd Cmd.Res G} {g : G}
theorem ensures_releasing {Q : G → α → Prop} (hP : ∀ g, P.allowed g .unlockTable)
    (h : Ensures P g x Q fun _ => True) : Ensures P g (unlockOnError x) Q fun _ => True :=
  ensures_onError (h.mono (fun _ _ hq => hq) fun g _ => ⟨hP g,fun _ => trivial⟩)

theorem ensures_getTable (k : TableKey) (ha : P.allowed g .lockTable) (hn : ∀ r, P.next g .lockTable r = g) :
    Ensures P g (getTableForWrite k) (fun g' _ => g' = g) fun _ => True := by
  refine ensures_step.2 ⟨ha,fun found => ?_⟩
  split
  · exact hn found
  · trivial
end

theorem Quiet.forM {ι : Type} {f : ι → Exec PUnit} (h : ∀ a, Quiet (f a)) (xs : List ι) : Quiet (xs.forM f) := by
  induction xs with
  | nil => trivial
  | cons a xs ih => exact (h a).bind fun _ => ih

theorem quiet_getTableForWrite (k : TableKey) : Quiet (getTableForWrite k) := by
  refine (Quiet.cmd rfl).bind fun found => ?_
  split
  · exact Quiet.pure _
  · exact Quiet.throw _

theorem Looks.quiet {Q : α → Prop} (h : Looks (fun _ => True) x Q) : Quiet x := by
  refine (Within.ensures (J := fun _ => True) h (fun _ c _ hc => ?_) trivial).mono
    (fun _ _ _ => trivial) fun _ h => h
  cases c with
  | getInfo | txClock | setInfo => exact ⟨rfl,fun _ => ⟨trivial,trivial⟩⟩
  | scanSlots | getTuple => exact ⟨rfl,fun _ => ⟨fun _ _ => trivial,trivial⟩⟩
  | _ => exact hc.elim

theorem quiet_logDeletes (x : Nat) (locs : List PageSlot) : Quiet (logDeletes x locs) := by
  refine Quiet.forM (fun loc => (Quiet.cmd rfl).bind fun lsn => ?_) locs
  split
  · exact Quiet.throw _
  · exact Quiet.pure _

theorem quiet_stamp (x : Nat) (loc : PageSlot) : Quiet (stamp x loc) := by
  refine (Quiet.cmd rfl).bind fun fetched => ?_
  split
  · exact Quiet.pure _
  · exact Quiet.throw _

theorem quiet_finish (x : Nat) (count : Int → Int) : Quiet (finish x count) := by
  refine (Quiet.cmd rfl).bind fun _ => (Quiet.cmd rfl).bind fun info => (Quiet.cmd rfl).bind fun _ =>
    (Quiet.cmd rfl).bind fun lsn => ?_
  split
  · exact Quiet.throw _
  · exact Quiet.pure _

variable {G : Type} {P : Protocol Cmd Cmd.Res G} {g : G}
theorem follows_quiet {J : G → Prop} (hJ : ∀ g c, J g → c.reviving = false → P.allowed g c ∧ ∀ r, J (P.next g c r))
    {p : Prog Cmd Cmd.Res α} {Q : Unit → α → Prop}
    (h : Follows (⟨fun _ c => c.reviving = false,fun _ _ _ => ()⟩ : Protocol Cmd Cmd.Res Unit) () p Q) (hg : J g) :
    Follows P g p fun g _ => J g := by
  induction p generalizing g with
  | ret a => exact hg
  | step c k ih =>
    obtain ⟨hallow,hnext⟩ := hJ g c hg h.1
    exact ⟨hallow,fun r => ih r (h.2 r) (hnext r)⟩

theorem Quiet.ensures (h : Quiet x) {J : G → Prop}
    (hJ : ∀ g c, J g → c.reviving = false → P.allowed g c ∧ ∀ r, J (P.next g c r)) (hg : J g) :
    Ensures P g x (fun g _ => J g) J :=
  Follows.mono (follows_quiet hJ h hg) fun _ r hg => by cases r <;> exact hg
end

structure Stores {G : Type} (P : Protocol Cmd Cmd.Res G) (I : List (List UInt8) → G → Prop) : Prop where
  insert : ∀ {g t ds}, I (t.data :: ds) g → ∀ pid, P.allowed g (.insertTuple pid t) ∧
    (∀ slot, I ds (P.next g (.insertTuple pid t) (some slot))) ∧ I (t.data :: ds)
      (P.next g (.insertTuple pid t) none)
  other : ∀ {g c ds}, I ds g → c.placing = true → P.allowed g c ∧ ∀ r, I ds (P.next g c r)

namespace Stores
variable {G V : Type} {P : Protocol Cmd Cmd.Res G} {I : List (List UInt8) → G → Prop} {g : G} {x : Nat}
  {onLogged : PageSlot → Exec Unit} {dirtyWhenFull : Bool} {t : Tuple} {ds : List (List UInt8)}
  {ts : List Tuple} {info : TableInfo} {vs : List (NewVersion V)}
def Passive (P : Protocol Cmd Cmd.Res G) (I : List (List UInt8) → G → Prop) (f : PageSlot → Exec Unit) : Prop :=
  ∀ loc ds g, I ds g → Ensures P g (f loc) (fun g _ => I ds g) fun _ => True

theorem passive_pure : Passive P I fun _ => pure () := fun _ _ _ hg => hg

def Tried (I : List (List UInt8) → G → Prop) (data : List UInt8) (ds : List (List UInt8)) (g : G)
    (p : Option PageSlot × Tuple) : Prop :=
  p.2.data = data ∧ I (if p.1.isSome then ds else data :: ds) g

def left (ps : List (Option PageSlot × Tuple)) : List (List UInt8) :=
  ((ps.filter fun p => p.1.isNone).map Prod.snd).map Tuple.data

section
variable (h : Stores P I)
include h
theorem cmd_bind {α : Type} {c : Cmd} {f : c.Res → Exec α} {Q : G → α → Prop}
    (hg : I ds g) (hc : c.placing = true) (hf : ∀ r g, I ds g → Ensures P g (f r) Q fun _ => True) :
    Ensures P g (Exec.cmd c >>= f) Q fun _ => True :=
  have ho := h.other hg hc
  ensures_step.2 ⟨ho.1,fun r => hf r _ (ho.2 r)⟩

theorem passive_setInfo (f : PageSlot → TableInfo → TableInfo) :
    Passive P I fun loc => Exec.cmd (.setInfo (f loc)) := fun _ _ _ hg => h.other hg rfl

section
variable (hl : Passive P I onLogged)
include hl
section
variable (hg : I (t.data :: ds) g)
include hg
theorem insertLogged {pid : PageID} : Ensures P g (insertLogged x onLogged dirtyWhenFull pid t)
      (fun g loc => I (if loc.isSome then ds else t.data :: ds) g) fun _ => True := by
  obtain ⟨ha,hsome,hnone⟩ := h.insert hg pid
  refine ensures_step.2 ⟨ha,fun slot => ?_⟩
  cases slot with
  | none => exact h.cmd_bind hnone rfl fun _ g hg => h.cmd_bind hg rfl fun _ g hg => hg
  | some slot =>
    refine h.cmd_bind (hsome slot) rfl fun lsn g hg => ?_
    cases lsn with
    | none => exact h.cmd_bind hg rfl fun _ g hg => h.cmd_bind hg rfl fun _ g hg => trivial
    | some lsn =>
      refine (hl _ ds g hg).bind fun g _ hg => ?_
      exact h.cmd_bind hg rfl fun _ g hg => h.cmd_bind hg rfl fun _ g hg => hg

theorem placeFresh : Ensures P g (placeFresh x onLogged dirtyWhenFull t) (fun g _ => I ds g) fun _ => True := by
  refine h.cmd_bind hg rfl fun pid g hg => ?_
  cases pid with
  | none => trivial
  | some pid =>
    refine h.cmd_bind hg rfl fun _ g hg => (h.insertLogged hl hg).bind fun g loc hg => ?_
    cases loc with
    | none => trivial
    | some loc => exact hg

theorem place {held : Option PageID} :
    Ensures P g (place x onLogged dirtyWhenFull held t) (fun g _ => I ds g) fun _ => True := by
  have hfresh : ∀ {g}, I (t.data :: ds) g → Ensures P g (do
      let loc ← Storage.placeFresh x onLogged dirtyWhenFull t
      pure (loc,true)) (fun g _ => I ds g) fun _ => True := fun hg =>
    (h.placeFresh hl hg).bind fun _ _ hg => hg
  cases held with
  | none => exact hfresh hg
  | some pid =>
    refine (h.insertLogged hl hg).bind fun g loc hg => ?_
    cases loc with
    | some loc => exact hg
    | none => exact hfresh hg
end
end

theorem holdLastPage {count : Nat} (hg : I ds g) : Ensures P g (holdLastPage count)
    (fun g _ => I ds g) fun _ => True := by
  unfold Storage.holdLastPage
  split
  · exact hg
  · refine h.cmd_bind hg rfl fun _ g hg => h.cmd_bind hg rfl fun fetched g hg => ?_
    split
    · exact hg
    · exact h.cmd_bind hg rfl fun _ _ _ => trivial

section
variable (hg : I (ts.map Tuple.data++ds) g)
include hg
theorem insertTuples {count : Nat} : Ensures P g (insertTuples x ts count) (fun g _ => I ds g) fun _ => True := by
  induction ts generalizing g count with
  | nil => exact hg
  | cons t ts ih =>
    refine (h.holdLastPage hg).bind fun g held hg => ?_
    refine (h.place (h.passive_setInfo _) hg).bind fun g placed hg => ?_
    exact ih hg

theorem appendTuples {held : Option PageID} : Ensures P g (appendTuples x held ts)
    (fun g _ => I ds g) fun _ => True := by
  induction ts generalizing g held with
  | nil =>
    cases held with
    | none => exact hg
    | some pid => exact h.cmd_bind hg rfl fun _ g hg => h.cmd_bind hg rfl fun _ g hg => hg
  | cons t ts ih =>
    have hbody : Storage.appendTuples x held (t :: ts) = (do
        let placed ← Storage.place x (fun _ => pure ()) true held t
        let rest ← Storage.appendTuples x none ts
        pure (placed.1 :: rest)) := by cases held <;> rfl
    rw [hbody]
    refine (h.place passive_pure hg).bind fun g placed hg => ?_
    exact (ih hg).bind fun _ _ hg => hg

theorem appendTuplesLocked : Ensures P g (appendTuplesLocked x ts) (fun g _ => I ds g) fun _ => True := by
  refine h.cmd_bind hg rfl fun total g hg => ?_
  cases total with
  | none => trivial
  | some total => exact (h.holdLastPage hg).bind fun g held hg => h.appendTuples hg
end

theorem hotInsertOnPage {loc : PageSlot} (hg : I (t.data :: ds) g) :
    Ensures P g (hotInsertOnPage x loc t) (Tried I t.data ds) fun _ => True := by
  refine h.cmd_bind hg rfl fun fetched g hg => ?_
  split
  · refine h.cmd_bind hg rfl fun free g hg => ?_
    split
    · exact h.cmd_bind hg rfl fun _ g hg => ⟨rfl,hg⟩
    · have hg' : I (t.setHOTHeapTuple.data :: ds) g := hg
      obtain ⟨ha,hsome,hnone⟩ := h.insert hg' loc.pid
      refine ensures_step.2 ⟨ha,fun slot => ?_⟩
      cases slot with
      | none => exact h.cmd_bind hnone rfl fun _ g hg => ⟨rfl,hg⟩
      | some slot =>
        refine h.cmd_bind (hsome slot) rfl fun _ g hg => h.cmd_bind hg rfl fun lsn g hg => ?_
        exact h.cmd_bind hg rfl fun _ g hg => ⟨rfl,hg⟩
  · exact ⟨rfl,hg⟩

variable {R : RowOps V}
theorem tryHOTInsert {loc : PageSlot} {oldRow newRow : List V} (hg : I (t.data :: ds) g) :
    Ensures P g (tryHOTInsert R x info loc oldRow newRow t) (Tried I t.data ds) fun _ => True := by
  unfold Storage.tryHOTInsert
  split
  · exact ⟨rfl,hg⟩
  · refine h.cmd_bind hg rfl fun _ g hg => (h.hotInsertOnPage hg).bind fun g p hp => ?_
    exact h.cmd_bind hp.2 rfl fun _ g hg => ⟨hp.1,hg⟩

section
variable (hperm : ∀ {ds ds' g}, ds.Perm ds' → I ds g → I ds' g)
include hperm
theorem tryHOTInserts (hg : I (vs.map (·.encoded.data)++ds) g) :
    Ensures P g (tryHOTInserts R x info vs) (fun g ps => I (left ps++ds) g) fun _ => True := by
  induction vs generalizing g ds with
  | nil => exact hg
  | cons v vs ih =>
    refine (h.tryHOTInsert hg).bind fun g p hp => ?_
    obtain ⟨loc,t⟩ := p
    obtain ⟨hdata,hp⟩ := hp
    simp only at hdata
    cases loc with
    | some loc => exact (ih hp).bind fun g ps hps => hps
    | none =>
      -- the version goes to the end of the list and comes back in front of the others
      have hlate : I (vs.map (·.encoded.data)++v.encoded.data :: ds) g := hperm List.perm_middle.symm hp
      refine (ih hlate).bind fun g ps hps => ?_
      have hfront : I (v.encoded.data :: (left ps++ds)) g := hperm List.perm_middle hps
      simpa [left,hdata] using hfront

theorem storeVersions (hg : I (vs.map (·.encoded.data)) g) :
    Ensures P g (storeVersions R x info vs) (fun g _ => I [] g) fun _ => True := by
  rw [← List.append_nil (vs.map _)] at hg
  refine (h.tryHOTInserts hperm hg).bind fun g ps hps => ?_
  unfold left at hps
  dsimp only
  split
  · rename_i hnil
    rw [hnil] at hps
    exact hps
  · rename_i heq
    rw [heq] at hps
    exact (h.appendTuplesLocked hps).bind fun _ _ hg => hg

theorem replaceVersions {indices hotKeys : List Int} {guarded : Bool}
    {newIndexes : List Int → List (List V) → Int → List Index → List Index} (hg : I (vs.map (·.encoded.data)) g) :
    Ensures P g (replaceVersions R x info indices hotKeys vs guarded newIndexes)
    (fun g _ => I [] g) fun _ => True := by
  refine (h.storeVersions hperm hg).bind fun g placed hg => ?_
  refine h.cmd_bind hg rfl fun _ g hg => ?_
  dsimp only
  split
  · trivial
  · split
    · exact hg
    · exact ⟨(h.other hg rfl).1,fun r => (h.other hg rfl).2 r⟩
end
end
end Stores
end VaultDB.Storage
