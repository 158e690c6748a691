import VaultDB.Storage.History
set_option autoImplicit false

/-!
What `SelectRows` returns while transactions are open.

Versions are stamped from the engine's counter and compared with ids of the transaction manager.
-/

namespace VaultDB.Storage
open Wal Lib List Option
variable {x : PageSlot × Tuple} {t : Tuple}
abbrev ActiveTxs := List (Nat × List Nat)

namespace ActiveTxs

def getSnapshot (a : ActiveTxs) (txID : Nat) : Option (List Nat) := a.lookup txID
def inSnapshot (a : ActiveTxs) (txID xid : Nat) : Bool := (a.getSnapshot txID).any (·.contains xid)

/-- The test of `readRows`; the visitor has already masked the committed flag away. -/
def sees (a : ActiveTxs) (clock : Clock) (t : Tuple) : Bool :=
  let txID := clock.txCounter
  (t.xmin == txID || (t.xmin ≤ txID && clock.isCommitted t.xmin && !a.inSnapshot txID t.xmin)) &&
    (t.xmax == 0 || txID < t.xmax || a.inSnapshot txID t.xmax)

end ActiveTxs

structure Managed where
  engine : Engine
  active : ActiveTxs

variable {s : Managed}
namespace Managed

def begin (s : Managed) : Managed where
  engine := { s.engine with clock := { s.engine.clock with mgrCounter := s.engine.clock.mgrCounter+1 } }
  active := s.active++[(s.engine.clock.mgrCounter+1,s.active.map (·.1))]

def finish (s : Managed) (txID : Nat) : Managed := { s with active := s.active.filter (·.1 != txID) }

def visible (s : Managed) (t : Tuple) : Bool := s.active.sees s.engine.clock t

section
variable {V : Type} (R : RowOps V)
def decodeVisible (s : Managed) (schema : TableSchema) : List (PageSlot × Tuple) →
    Option (List ((PageSlot × Tuple) × List V))
  | [] => some []
  | x :: slots =>
    (R.decodeRow schema x.2.data).bind fun row =>
      (decodeVisible s schema slots).map fun rows => if s.visible x.2 then (x,row) :: rows else rows

/-- `SelectRows`, each row with the version it comes from.  `none` stands for an error, and for
the wait while the table is locked. -/
def selectRows (s : Managed) (k : TableKey) : Option (List ((PageSlot × Tuple) × List V)) :=
  (s.engine.tables k).bind fun t =>
    if t.lockedBy = none then
      match t.scanSlots with
      | (slots,true) => decodeVisible R s t.info.schema slots
      | (_,false) => none
    else none
end

theorem mem_decodeVisible {V : Type} {R : RowOps V} {schema : TableSchema}
    {slots : List (PageSlot × Tuple)} {rows : List ((PageSlot × Tuple) × List V)}
    (h : decodeVisible R s schema slots = some rows) (hx : x ∈ slots) :
    (∃ row, (x,row) ∈ rows) ↔ s.visible x.2 = true := by
  have hsound : ∀ {slots rows}, decodeVisible R s schema slots = some rows → ∀ row, (x,row) ∈ rows →
    s.visible x.2 = true := by
    intro slots
    induction slots with
    | nil =>
      intro rows h row hrow
      cases h
      simp at hrow
    | cons y slots ih =>
      intro rows h row hrow
      obtain ⟨row',-,h⟩ := bind_eq_some_iff.1 h
      obtain ⟨rows',h',rfl⟩ := map_eq_some_iff.1 h
      split at hrow
      · rename_i hv
        rcases mem_cons.1 hrow with he | hrow
        · cases he
          exact hv
        · exact ih h' row hrow
      · exact ih h' row hrow
  refine ⟨fun ⟨row,hrow⟩ => hsound h row hrow,fun hv => ?_⟩
  induction slots generalizing rows with
  | nil => simp at hx
  | cons y slots ih =>
    obtain ⟨row',-,h⟩ := bind_eq_some_iff.1 h
    obtain ⟨rows',h',rfl⟩ := map_eq_some_iff.1 h
    rcases mem_cons.1 hx with rfl | hx
    · exact ⟨row',by simp [hv]⟩
    · obtain ⟨row,hrow⟩ := ih h' hx
      refine ⟨row,?_⟩
      split
      · exact mem_cons_of_mem _ hrow
      · exact hrow

end Managed

inductive ManagerEvent where
  | begin
  | finish (txID : Nat)
  | pool (e : EnvEvent)
  deriving DecidableEq, Repr

inductive Managed.Env (s : Managed) : ManagerEvent → Managed → Prop where
  | begin : Env s .begin s.begin
  | finish {txID : Nat} : Env s (.finish txID) (s.finish txID)
  | pool {e : EnvEvent} {engine : Engine} : e ≠ .checkpoint → s.engine.Env e engine →
      Env s (.pool e) { s with engine := engine }

def managedMachine {V : Type} [BEq V] (R : RowOps V) :
    Machine Cmd Cmd.Res Watcher TableKey Managed ManagerEvent where
  protocol := rowProtocol
  fresh := {}
  start k p := ∃ x, RowStatement R k x ∧ p = x.toProg
  exec i k s c r s' := s.engine.Answers i k c r s'.engine ∧ s'.active = s.active
  env s e s' := s.Env e s'

abbrev ManagedConfig := Config Cmd Cmd.Res Watcher TableKey Managed

structure Clock.Issued (c : Clock) (t : Tuple) : Prop where
  xmin : t.xmin ≤ c.txCounter ∧ t.xmin < c.mgrCounter
  xmax : t.xmax ≤ c.txCounter

def Clock.Le (c c' : Clock) : Prop := c.txCounter ≤ c'.txCounter ∧ c.mgrCounter ≤ c'.mgrCounter

theorem Clock.Issued.mono {c c' : Clock} (h : c.Issued t) (hc : c.Le c') : c'.Issued t := by
  obtain ⟨hx,hm⟩ := h
  obtain ⟨h1,h2⟩ := hc
  exact ⟨⟨by omega,by omega⟩,by omega⟩

theorem Tuple.WrittenBy.xmin_le {x : Nat} (h : t.WrittenBy x) : t.xmin ≤ x := by
  rw [h.xmin_mod]
  exact Nat.mod_le _ _

structure Lasting (P : Clock → Tuple → Prop) : Prop where
  mono : ∀ {c c' : Clock} {t : Tuple}, P c t → c.Le c' → P c' t
  written : ∀ {c : Clock} {t : Tuple} {x : Nat}, t.WrittenBy x → x ≤ c.txCounter → x < c.mgrCounter → P c t
  hot : ∀ {c : Clock} {t : Tuple} (n : Nat), P c t → P c (t.setHOTUpdated n)
  stamp : ∀ {c : Clock} {t : Tuple} {x : Nat}, P c t → x ≤ c.txCounter → P c (t.setXMax x)

theorem Clock.Issued.lasting : Lasting Clock.Issued where
  mono := Clock.Issued.mono
  written h hx hm := by
    have hmin := h.xmin_le
    exact ⟨⟨by omega,by omega⟩,by simp [Tuple.xmax,h.2]⟩
  hot n h := ⟨by simpa using h.xmin,h.xmax⟩
  stamp {c t x} h hx := by
    have hmod := Nat.mod_le x (2^48)
    exact ⟨h.xmin,by simp only [Tuple.xmax,Tuple.deletedTx_setXMax]; omega⟩

structure Aged (P : Clock → Tuple → Prop) (s : Engine) (ws : List (TableKey × Watcher)) : Prop where
  steady : Steady s ws
  tx : ∀ (i : Nat) k g x, ws[i]? = some (k,g) → g.tx = some x → x ≤ s.clock.txCounter ∧ x < s.clock.mgrCounter
  frame : ∀ k pid f, s.frame k pid = some f → ∀ n t, f.page.getTuple n = some t → P s.clock t
  disk : ∀ k pid p, s.diskPage k pid = some p → ∀ n t, p.getTuple n = some t → P s.clock t

namespace Aged
variable {P : Clock → Tuple → Prop} {s s' : Engine} {ws : List (TableKey × Watcher)} {i : Nat}
    {k : TableKey} {g : Watcher} {c : Cmd} {r : c.Res}
theorem mem (h : Aged P s ws) {loc : PageSlot} (hm : s.mem k loc = some t) : P s.clock t := by
  obtain ⟨p,hp,ht⟩ := bind_eq_some_iff.1 hm
  rw [Engine.page_eq] at hp
  cases hf : s.frame k loc.pid with
  | some f =>
    rw [hf] at hp
    cases hp
    exact h.frame k loc.pid f hf loc.slot t ht
  | none =>
    rw [hf] at hp
    exact h.disk k loc.pid p hp loc.slot t ht

theorem clock_run (hs : s.Shape i k c r s') (g : Watcher) : s.clock.Le s'.clock ∧ ∀ x, (g.next c r).tx = some x →
      g.tx = some x ∨ (x ≤ s'.clock.txCounter ∧ x < s'.clock.mgrCounter) := by
  rcases hs.clock g with ⟨htx,hclock⟩ | ⟨rfl,htx,-⟩
  · rw [htx,hclock]
    exact ⟨⟨Nat.le_refl _,Nat.le_refl _⟩,fun x hx => .inl hx⟩
  · cases hs with
    | quiet hq => cases hq
    | logFail hc _ => exact hc.elim
    | nextTxID =>
      refine ⟨⟨Nat.le_succ _,Nat.le_max_left _ _⟩,fun x hx => .inr ?_⟩
      rw [htx] at hx
      cases hx
      simp only [Engine.nextTxID]
      omega

theorem run (hP : Lasting P) (h : Aged P s ws) (hw : ws[i]? = some (k,g)) (ha : g.allowed c)
    (hs : s.Shape i k c r s') : Aged P s' (ws.set i (k,g.next c r)) := by
  obtain ⟨hle,hnew⟩ := clock_run hs g
  have hold : ∀ {t : Tuple}, P s.clock t → P s'.clock t := fun ht => hP.mono ht hle
  have htx : ∀ x, g.tx = some x → x ≤ s'.clock.txCounter ∧ x < s'.clock.mgrCounter := by
    intro x hx
    have := h.tx i k g x hw hx
    have := hle
    unfold Clock.Le at this
    omega
  have he := hs.effect (h.steady.backed k)
  have hmem : ∀ k' loc t, s'.mem k' loc = some t → P s'.clock t := by
    intro k' loc t ht
    by_cases hk : k' = k
    · subst hk
      have hslot := he.slot loc
      rw [ht] at hslot
      generalize hm : s.mem k' loc = o at hslot
      cases hslot with
      | same => exact hold (h.mem hm)
      | insert =>
        obtain ⟨x,hx,hwritten⟩ := ha.2.2.2.2
        exact hP.written hwritten (htx x hx).1 (htx x hx).2
      | hot => exact hP.hot _ (hold (h.mem hm))
      | @stamp x => exact hP.stamp (hold (h.mem hm)) (htx x ha.1).1
      | clear => exact hP.stamp (hold (h.mem hm)) (Nat.zero_le _)
    · rw [he.otherMem hk] at ht
      exact hold (h.mem ht)
  refine ⟨h.steady.run hw ha hs,fun j k' g' x hj hx => ?_,fun k' pid f hf n t ht => ?_,fun k' pid p hp n t ht => ?_⟩
  rotate_left
  · exact hmem k' ⟨pid,n⟩ t (by rw [Engine.mem,Engine.page_of_frame hf]; exact ht)
  · rcases he.diskPage k' pid with hd | ⟨-,hd,-⟩
    · exact hold (h.disk k' pid p (hd ▸ hp) n t ht)
    · rw [hd] at hp
      cases hp
      simp at ht
  rw [List.getElem?_set] at hj
  split at hj
  · rename_i hij
    subst hij
    split at hj
    · cases hj
      rcases hnew x hx with hx | hx
      · exact htx x hx
      · exact hx
    · cases hj
  · have := h.tx j k' g' x hj hx
    unfold Clock.Le at hle
    omega

theorem spawn (h : Aged P s ws) (k : TableKey) : Aged P s (ws++[(k,({} : Watcher))]) := by
  refine ⟨h.steady.spawn k,fun j k' g x hj hx => ?_,h.frame,h.disk⟩
  rcases thread_concat_cases hj with hj | ⟨-,heq⟩
  · exact h.tx j k' g x hj hx
  · cases heq
    cases hx

theorem begin (hP : Lasting P) (h : Aged P s ws) (n : Nat) :
    Aged P { s with clock := { s.clock with mgrCounter := s.clock.mgrCounter+n } } ws := by
  have hle : s.clock.Le { s.clock with mgrCounter := s.clock.mgrCounter+n } := ⟨Nat.le_refl _,Nat.le_add_right _ _⟩
  refine ⟨⟨fun i k g hw => (h.steady.thread i k g hw).congr_eq rfl fun n hn => hn,h.steady.backed⟩,
    fun i k g x hw hx => ?_,fun k pid f hf n t ht => hP.mono (h.frame k pid f hf n t ht) hle,
    fun k pid p hp n t ht => hP.mono (h.disk k pid p hp n t ht) hle⟩
  have := h.tx i k g x hw hx
  refine ⟨this.1,?_⟩
  show x < s.clock.mgrCounter+n
  omega

theorem env (h : Aged P s ws) {e : EnvEvent} (hne : e ≠ .checkpoint) (he : s.Env e s') : Aged P s' ws := by
  have hclock : s'.clock = s.clock := by
    cases he with
    | checkpoint => exact absurd rfl hne
    | _ => rfl
  have hsteady := h.steady.env hne he
  refine ⟨hsteady,by rw [hclock]; exact h.tx,?_,?_⟩
  · rw [hclock]
    intro k pid f hf n t ht
    cases he.effect h.steady.backed hne with
    | sync hs =>
      rw [hs.frame] at hf
      exact h.frame k pid f hf n t ht
    | flush hfr _ hs _ =>
      rw [hs] at hf
      split at hf
      · cases hf
        exact h.frame _ _ _ hfr n t ht
      · exact h.frame k pid f hf n t ht
    | drop _ _ _ hs _ | evict _ _ _ hs _ =>
      rw [hs] at hf
      split at hf
      · cases hf
      · exact h.frame k pid f hf n t ht
  · rw [hclock]
    intro k pid p hp n t ht
    cases he.effect h.steady.backed hne with
    | sync hs =>
      rw [hs.disk] at hp
      exact h.disk k pid p hp n t ht
    | drop _ _ _ _ hs =>
      rw [hs] at hp
      exact h.disk k pid p hp n t ht
    | flush hfr _ _ hs | evict hfr _ _ _ hs =>
      rw [hs] at hp
      split at hp
      · cases hp
        exact h.frame _ _ _ hfr n t ht
      · exact h.disk k pid p hp n t ht

end Aged

variable {cf : ManagedConfig}
theorem aged_of_reach {V : Type} [BEq V] {R : RowOps V} {P : Clock → Tuple → Prop} (hP : Lasting P) {s₀ : Managed}
    (hempty : ∀ k pid, s₀.engine.frame k pid = none)
    (hstored : ∀ k loc t, s₀.engine.mem k loc = some t → P s₀.engine.clock t)
    (h : (managedMachine R).Reach (fun _ _ => True) s₀ cf) : Aged P cf.state.engine cf.watchers := by
  have hinit : Aged P s₀.engine [] := by
    refine ⟨⟨by simp,fun k pid f hf => by simp [hempty k pid] at hf⟩,by simp,fun k pid f hf => ?_,?_⟩
    · rw [hempty] at hf
      cases hf
    · intro k pid p hp n t ht
      refine hstored k ⟨pid,n⟩ t ?_
      rw [Engine.mem,Engine.page_of_no_frame (hempty k pid),hp]
      exact ht
  refine (Machine.Reach.inv follows_started (fun s ws => Aged P s.engine ws) hinit ?_ ?_ ?_ h).1
  · intro cf k p hs _ _
    exact hs.spawn k
  · intro cf i k g c r s hs hw ha he _
    exact hs.run hP hw ha (Engine.shape he.1)
  · intro cf e s hs he _
    cases he with
    | begin => exact hs.begin hP 1
    | finish => exact hs
    | pool hne he => exact hs.env hne he

theorem Managed.visible_iff (h : s.engine.clock.Issued t) : s.visible t = true ↔
      (t.xmin = s.engine.clock.txCounter ∨ s.active.inSnapshot s.engine.clock.txCounter t.xmin = false) ∧
      (t.xmax = 0 ∨ s.active.inSnapshot s.engine.clock.txCounter t.xmax = true) := by
  have hlate : ¬ s.engine.clock.txCounter < t.xmax := Nat.not_lt.2 h.xmax
  simp [Managed.visible,ActiveTxs.sees,Clock.isCommitted,h.xmin.1,h.xmin.2,hlate]

theorem mem_scanPages {t : Table} {pids : List PageID} (h : x ∈ (t.scanPages pids).1) :
    ∃ p, t.page x.1.pid = some p ∧ p.getTuple x.1.slot = some x.2 := by
  induction pids with
  | nil => simp [Table.scanPages] at h
  | cons pid pids ih =>
    simp only [Table.scanPages] at h
    split at h
    · simp at h
    · rename_i p hp
      rcases mem_append.1 h with h | h
      · obtain ⟨slot,-,h⟩ := mem_filterMap.1 h
        obtain ⟨tup,ht,rfl⟩ := map_eq_some_iff.1 h
        exact ⟨p,hp,ht⟩
      · exact ih h

theorem mem_scanSlots {t : Table} (h : x ∈ t.scanSlots.1) : ∃ p, t.page x.1.pid = some p ∧
    p.getTuple x.1.slot = some x.2 := by
  unfold Table.scanSlots at h
  split at h
  · simp at h
  · exact mem_scanPages h

/-- At every moment of every interleaving of row statements with `Begin`, `Commit` and `Rollback`,
`SelectRows` returns a stored version exactly if its creator is not in the snapshot of an open
transaction whose id happens to be the engine's counter, and nobody outside that snapshot has
stamped it. -/
theorem selected_iff {V : Type} [BEq V] {R : RowOps V} {s₀ : Managed}
    (hempty : ∀ k pid, s₀.engine.frame k pid = none)
    (hissued : ∀ k loc t, s₀.engine.mem k loc = some t → s₀.engine.clock.Issued t) {cf : ManagedConfig}
    (h : (managedMachine R).Reach (fun _ _ => True) s₀ cf) {k : TableKey} {tab : Table}
    (htab : cf.state.engine.tables k = some tab) {rows : List ((PageSlot × Tuple) × List V)}
    (hrows : cf.state.selectRows R k = some rows) : ∀ x ∈ tab.scanSlots.1, (∃ row, (x, row) ∈ rows) ↔
      (x.2.xmin = cf.state.engine.clock.txCounter ∨
        cf.state.active.inSnapshot cf.state.engine.clock.txCounter x.2.xmin = false) ∧
      (x.2.xmax = 0 ∨ cf.state.active.inSnapshot cf.state.engine.clock.txCounter x.2.xmax = true) := by
  have hinv := aged_of_reach Clock.Issued.lasting hempty hissued h
  intro x hx
  simp only [Managed.selectRows,htab,bind_some] at hrows
  split at hrows
  · split at hrows
    · rename_i slots hscan
      rw [hscan] at hx
      obtain ⟨p,hp,ht⟩ := mem_scanSlots (by rw [hscan]; exact hx)
      rw [Managed.mem_decodeVisible hrows hx,Managed.visible_iff]
      exact hinv.mem (by rw [Engine.mem,Engine.page_eq_table htab,hp]; exact ht)
    · cases hrows
  · cases hrows

def Managed.proceed (i : Nat) (k : TableKey) (s : Managed) (c : Cmd) : Option (c.Res × Managed) :=
  (s.engine.exec i k c).map fun x => (x.1,{ s with engine := x.2 })

section
variable {V : Type} [BEq V] {R : RowOps V} {s₀ : Managed}
def Managed.played (R : RowOps V) (s : Managed) (ss : List (Exec Int)) (is : List Nat) : Option ManagedConfig :=
  (managedMachine R).play Managed.proceed (fun _ _ => true)
    ⟨s,(managedMachine R).starting (ss.map fun x => (users,x.toProg))⟩ is

theorem reach_played (h : (managedMachine R).Reach (fun _ _ => True) s₀ ⟨s,[]⟩) {ss : List (Exec Int)}
    (hss : ∀ x ∈ ss, RowStatement R users x) {is : List Nat} (hp : s.played R ss is = some cf) :
    (managedMachine R).Reach (fun _ _ => True) s₀ cf := by
  refine Machine.Reach.play (fun i k s c x hx => ?_) (fun _ _ _ => trivial)
    (Machine.Reach.spawned (fun _ _ _ => trivial) h fun x hx => ?_) hp
  · obtain ⟨y,hy,rfl⟩ := map_eq_some_iff.1 hx
    exact ⟨.inl hy,rfl⟩
  · obtain ⟨y,hy,rfl⟩ := mem_map.1 hx
    exact ⟨y,hss y hy,rfl⟩
end

def noTransactions : Managed := ⟨emptyUsers,[]⟩
def insertByte (b : UInt8) : Exec Int := insertRows byteRows users [[b]]
def twoInserts : List (Exec Int) := [insertByte 7,insertByte 8]
def inTurn (n : Nat) : List Nat := List.replicate n 0++List.replicate n 1

def returned (th : Thread Cmd Cmd.Res Watcher TableKey) : Bool :=
  match th.prog with
  | .ret _ => true
  | .step _ _ => false

theorem twoInserts_rows : ∀ x ∈ twoInserts, RowStatement byteRows users x := by
  simp only [twoInserts,forall_mem_cons]
  exact ⟨.insertRows [[7]],.insertRows [[8]],by simp⟩

def firstVersion : PageSlot × Tuple := (⟨⟨0,0⟩,0⟩,⟨1#64,0,[7]⟩)
def secondVersion : PageSlot × Tuple := (⟨⟨0,0⟩,1⟩,⟨2#64,0,[8]⟩)

theorem reach_begins : (managedMachine byteRows).Reach (fun _ _ => True) noTransactions
    ⟨noTransactions.begin.begin,[]⟩ :=
  .step (.step .init (.env .begin) trivial) (.env .begin) trivial

/-- Two transactions are open, and the second one's id is the counter after two INSERTs. -/
theorem selected_twoInserts : ∃ cf : ManagedConfig,
    (managedMachine byteRows).Reach (fun _ _ => True) noTransactions cf ∧ cf.state.active = [(1, []), (2, [1])] ∧
      ∃ tab rows, cf.state.engine.tables users = some tab ∧ cf.state.selectRows byteRows users = some rows ∧
        tab.scanSlots.1 = [firstVersion, secondVersion] ∧ ((∃ row, (firstVersion, row) ∈ rows) ↔
          (firstVersion.2.xmin = cf.state.engine.clock.txCounter ∨
            cf.state.active.inSnapshot cf.state.engine.clock.txCounter firstVersion.2.xmin = false) ∧
          (firstVersion.2.xmax = 0 ∨
            cf.state.active.inSnapshot cf.state.engine.clock.txCounter firstVersion.2.xmax = true)) := by
  have hplay : (noTransactions.begin.begin.played byteRows twoInserts (inTurn 17)).map (fun cf =>
      (decide (cf.state.active = [(1,[]),(2,[1])]),
      (cf.state.engine.tables users).map fun tab => tab.scanSlots.1,(cf.state.selectRows byteRows users).isSome)) =
      some (true,some [firstVersion,secondVersion],true) := by
    decide +kernel
  obtain ⟨cf,hcf,hres⟩ := map_eq_some_iff.1 hplay
  obtain ⟨hactive,hres⟩ := Prod.mk.inj hres
  obtain ⟨hslots,hrows⟩ := Prod.mk.inj hres
  obtain ⟨tab,htab,hscan⟩ := map_eq_some_iff.1 hslots
  obtain ⟨rows,hrows⟩ := isSome_iff_exists.1 hrows
  have hreach := reach_played reach_begins twoInserts_rows hcf
  have hissued : ∀ k loc t, noTransactions.engine.mem k loc = some t → noTransactions.engine.clock.Issued t := by
    intro k loc t ht
    rw [noTransactions,emptyUsers_mem] at ht
    cases ht
  exact ⟨cf,hreach,of_decide_eq_true hactive,tab,rows,htab,hrows,hscan,
    selected_iff emptyUsers_frame hissued hreach htab hrows firstVersion (by rw [hscan]; simp)⟩

/-- Two open transactions, then two INSERTs: the first row is gone once the counter has reached the
id of the second transaction, whose snapshot has the first one's id. -/
theorem row_disappears : ∃ cf : ManagedConfig, (managedMachine byteRows).Reach (fun _ _ => True) noTransactions cf ∧
      cf.threads.all returned = true ∧
      (cf.state.engine.tables users).map (fun tab => tab.scanSlots) = some ([firstVersion, secondVersion], true) ∧
      cf.state.selectRows byteRows users = some [(secondVersion, [8])] := by
  have hdone : (noTransactions.begin.begin.played byteRows twoInserts (inTurn 17)).map
      (fun cf => cf.threads.all returned) = some true := by decide +kernel
  have hslots : (noTransactions.begin.begin.played byteRows twoInserts (inTurn 17)).map
      (fun cf => (cf.state.engine.tables users).map fun tab => tab.scanSlots) =
      some (some ([firstVersion,secondVersion],true)) := by decide +kernel
  have hrows : (noTransactions.begin.begin.played byteRows twoInserts (inTurn 17)).map
      (fun cf => cf.state.selectRows byteRows users) = some (some [(secondVersion,[8])]) := by decide +kernel
  obtain ⟨cf,hcf,hdone⟩ := map_eq_some_iff.1 hdone
  rw [hcf] at hslots hrows
  exact ⟨cf,reach_played reach_begins twoInserts_rows hcf,hdone,some.inj hslots,some.inj hrows⟩

end VaultDB.Storage
