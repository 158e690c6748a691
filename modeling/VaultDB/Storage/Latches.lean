import VaultDB.Storage.Contents
set_option autoImplicit false

/-!
Table locks and page locks: who holds them, that nobody waits forever, and a statement alone.
-/

namespace VaultDB.Storage
open Lib List Option Table

inductive Lock where
  | table (k : TableKey)
  | page (stripe : Nat)

/-- The owner of each table lock with the stripes of the table's pages, and the owner of each
stripe. -/
structure Locks where
  table : TableKey → Option (Option Nat × (PageID → Nat))
  page : Nat → Option Nat

def Engine.locks (s : Engine) : Locks := ⟨fun k => (s.tables k).map fun t => (t.lockedBy,t.stripe),s.pageLocks⟩

def Locks.holder (x : Locks) : Lock → Option Nat
  | .table k => (x.table k).bind Prod.fst
  | .page n => x.page n

def Locks.stripe (x : Locks) (k : TableKey) (pid : PageID) : Option Nat := (x.table k).map fun y => y.2 pid

def Watcher.holds (g : Watcher) (k : TableKey) (x : Locks) : Lock → Prop
  | .table k' => k' = k ∧ g.locked = true
  | .page n => ∃ pid, g.pageLock = some pid ∧ x.stripe k pid = some n

variable {i : Nat} {k : TableKey} {s s' : Engine} {c : Cmd} {r : c.Res} {g g' : Watcher}
    {e : EnvEvent} {t t' : Table}
  {ws : List (TableKey × Watcher)} {V : Type} [BEq V] {R : RowOps V} {s₀ : Engine} {cf : RowConfig} {x x' : Locks}
/-- What a command of thread `i` does to the locks: each is kept as it is, let go of or taken. -/
structure Turn (i : Nat) (k : TableKey) (g g' : Watcher) (x x' : Locks) : Prop where
  stripe : x'.stripe = x.stripe
  lock : ∀ l, (x'.holder l = x.holder l ∧ (g.holds k x l → g'.holds k x l)) ∨ x'.holder l = none ∨
    (x'.holder l = some i ∧ g'.holds k x l)

theorem Engine.locks_setTable (ht : s.tables k = some t) (h : (t'.lockedBy,t'.stripe) = (t.lockedBy,t.stripe)) :
    (s.setTable k t').locks = s.locks := by
  simp only [locks,tables_setTable,Locks.mk.injEq]
  refine ⟨funext fun k' => ?_,rfl⟩
  split
  · rename_i hk
    rw [hk,ht,map_some,map_some,h]
  · rfl

namespace Turn

theorem same (hx : x' = x) (hl : g'.locked = g.locked) (hp : g'.pageLock = g.pageLock) : Turn i k g g' x x' := by
  subst hx
  refine ⟨rfl,fun l => .inl ⟨rfl,fun h => ?_⟩⟩
  cases l with
  | table k' => exact ⟨h.1,hl.trans h.2⟩
  | page n =>
    obtain ⟨pid,hg,hn⟩ := h
    exact ⟨pid,hp.trans hg,hn⟩

variable (ht : s.tables k = some t)
include ht
theorem setTable (h : (t'.lockedBy,t'.stripe) = (t.lockedBy,t.stripe)) (hl : g'.locked = g.locked)
    (hp : g'.pageLock = g.pageLock) : Turn i k g g' s.locks (s.setTable k t').locks :=
  .same (s.locks_setTable ht h) hl hp

theorem setLock {o : Option Nat} (hp : g'.pageLock = g.pageLock) (ho : o = none ∨ (o = some i ∧ g'.locked = true)) :
    Turn i k g g' s.locks (s.setTable k { t with lockedBy := o }).locks := by
  refine ⟨funext fun k' => funext fun pid => ?_,fun l => ?_⟩
  · simp only [Locks.stripe,Engine.locks,Engine.tables_setTable]
    split
    · rename_i hk
      rw [hk,ht]
      rfl
    · rfl
  · cases l with
    | page n =>
      refine .inl ⟨rfl,?_⟩
      rintro ⟨pid,hg,hn⟩
      exact ⟨pid,hp.trans hg,hn⟩
    | table k' =>
      simp only [Locks.holder,Engine.locks,Engine.tables_setTable]
      split
      · rename_i hk
        exact .inr (ho.imp (fun h => h) fun h => ⟨h.1,hk,h.2⟩)
      · rename_i hk
        exact .inl ⟨rfl,fun h => absurd h.1 hk⟩

theorem setPageLock {pid : PageID} {o : Option Nat} (hl : g'.locked = g.locked)
    (ho : (o = none ∧ g.pageLock = some pid) ∨ (o = some i ∧ g.pageLock = none ∧ g'.pageLock = some pid)) :
    Turn i k g g' s.locks (s.setPageLock (t.stripe pid) o).locks := by
  have hst : s.locks.stripe k pid = some (t.stripe pid) := by simp [Locks.stripe,Engine.locks,ht]
  refine ⟨rfl,fun l => ?_⟩
  cases l with
  | table k' => exact .inl ⟨rfl,fun h => ⟨h.1,hl.trans h.2⟩⟩
  | page n =>
    simp only [Locks.holder,Engine.locks,Engine.setPageLock]
    split
    · rename_i hn
      exact .inr (ho.imp (fun h => h.1) fun h => ⟨h.1,pid,h.2.2,hn ▸ hst⟩)
    · rename_i hn
      refine .inl ⟨rfl,?_⟩
      rintro ⟨pid',hg,hn'⟩
      rcases ho with ⟨-,hp⟩ | ⟨-,hp,-⟩
      · cases hp.symm.trans hg
        exact absurd (some.inj (hn'.symm.trans hst)) hn
      · simp [hp] at hg

end Turn

theorem Engine.Shape.turn (h : s.Shape i k c r s') (ha : g.allowed c) :
    Turn i k g (g.next c r) s.locks s'.locks := by
  cases h with
  | quiet hq =>
    obtain ⟨b,hb⟩ := Watcher.next_quiet hq g r
    rw [hb]
    exact .same rfl rfl rfl
  | @syncCatalog x =>
    obtain ⟨ht,-,-,hp,-⟩ := s.syncCatalog_eq x
    exact .same (by rw [locks,ht,hp,locks]) rfl rfl
  | logFail hf hs =>
    have hsame : s'.locks = s.locks := by
      rcases hs with rfl | ⟨x,op,rfl⟩
      · rfl
      · rfl
    rcases Watcher.next_failed hf g with hb | hb
    · rw [hb]
      exact .same hsame rfl rfl
    · rw [hb]
      exact .same hsame rfl rfl
  | getInfo | nextTxID | fetchFail | allocateFail | putFail | clearFail | logInsert | logDelete | logCommit =>
    exact .same rfl rfl rfl
  | noTable => exact .same rfl ha.1.symm rfl
  | lockTable ht | relockTable ht => exact .setLock ht rfl (.inr ⟨rfl,rfl⟩)
  | unlockTable ht => exact .setLock ht rfl (.inl rfl)
  | lockPage ht => exact .setPageLock ht rfl (.inr ⟨rfl,ha.2,rfl⟩)
  | unlockPage ht => exact .setPageLock ht rfl (.inl ⟨rfl,ha.1⟩)
  | setInfo ht | pageFull ht | cacheFail ht => exact .setTable ht rfl rfl rfl
  | setHOTUpdated ht | unpinPage ht | unpinPageDirty ht => exact .setTable ht rfl rfl rfl
  | fetchPage ht he =>
    obtain ⟨f,rfl,-⟩ := fetchPage_eq_some he
    exact .setTable ht rfl rfl rfl
  | allocatePage ht he =>
    obtain ⟨hf,-,⟨f,-,rfl⟩ | ⟨-,rfl⟩⟩ := allocatePage_eq_some he
    · exact .setTable ht rfl rfl rfl
    · exact .setTable ht rfl rfl rfl
  | insertTuple ht he =>
    rcases insertTuple_some he with ⟨-,h⟩ | ⟨f,p,-,-,h⟩
    · exact .setTable ht (by rw [h]) rfl rfl
    · exact .setTable ht (by rw [h]; rfl) rfl rfl
  | putXMax ht he | clearXMax ht he =>
    obtain ⟨p,f,-,-,-,-,-,rfl⟩ := putXMax_eq_some he
    exact .setTable ht rfl rfl rfl

theorem Engine.Env.locks (h : s.Env e s') : s'.locks = s.locks := by
  cases h with
  | sync => rfl
  | flushPage ht | evictClean ht | evictDirty ht => exact locks_setTable ht rfl
  | checkpoint =>
    unfold checkpointStep
    split
    · rfl
    · simp only [Engine.locks,Option.map_map]
      rfl
    · rfl
    · rfl
    · rfl

/-- Every lock is one that the watcher of its holder knows of. -/
def Held (x : Locks) (ws : List (TableKey × Watcher)) : Prop :=
  ∀ l i, x.holder l = some i → ∃ k g, ws[i]? = some (k,g) ∧ g.holds k x l

theorem Held.spawn (h : Held x ws) (k : TableKey) : Held x (ws++[(k,({} : Watcher))]) := by
  intro l i hl
  obtain ⟨k',g,hg,hh⟩ := h l i hl
  exact ⟨k',g,by rwa [getElem?_append_left (List.getElem?_eq_some_iff.1 hg).1],hh⟩

theorem Held.run (h : Held x ws) (hw : ws[i]? = some (k,g)) (hturn : Turn i k g g' x x') :
    Held x' (ws.set i (k,g')) := by
  have hself : (ws.set i (k,g'))[i]? = some (k,g') := getElem?_set_self (List.getElem?_eq_some_iff.1 hw).1
  have hst : ∀ {k g l}, Watcher.holds g k x l → g.holds k x' l := by
    intro k g l hh
    cases l with
    | table => exact hh
    | page =>
      simp only [Watcher.holds,hturn.stripe]
      exact hh
  intro l j hj
  rcases hturn.lock l with ⟨ho,hg⟩ | ho | ⟨ho,hg⟩
  · rw [ho] at hj
    obtain ⟨k1,g1,hg1,hh⟩ := h l j hj
    by_cases hji : j = i
    · subst hji
      cases hw.symm.trans hg1
      exact ⟨k,g',hself,hst (hg hh)⟩
    · exact ⟨k1,g1,by rwa [getElem?_set_ne (Ne.symm hji)],hst hh⟩
  · simp [ho] at hj
  · cases ho.symm.trans hj
    exact ⟨k,g',hself,hst hg⟩

theorem held_of_reach (h0 : ∀ l, s₀.locks.holder l = none) (h : (rowMachine R).Reach (fun _ _ => True) s₀ cf) :
    Held cf.state.locks cf.watchers ∧ cf.Obeys rowProtocol fun g => g.Done fun _ => False := by
  refine Machine.Reach.inv follows_started (fun s ws => Held s.locks ws) ?_ ?_ ?_ ?_ h
  · intro l i hl
    simp [h0 l] at hl
  · intro cf k p hs _ _
    exact hs.spawn k
  · intro cf i k g c r s hs hw ha he _
    exact hs.run hw ((Engine.shape he).turn ha)
  · intro cf e s hs he _
    rwa [Engine.Env.locks he]

theorem Watcher.Done.holds_nothing (h : g.Done fun _ => False) (l : Lock) : ¬ g.holds k x l := by
  cases l with
  | table => simp [holds,h.locked]
  | page => simp [holds,h.pageLock]

/-- A statement that has returned, with a result or with any error, holds no lock, whatever else
runs. -/
theorem returned_holds_nothing {V : Type} [BEq V] {R : RowOps V} {s₀ : Engine} (h₀ : ∀ l, s₀.locks.holder l = none)
    {cf : RowConfig} (h : (rowMachine R).Reach (fun _ _ => True) s₀ cf) {i : Nat} {k : TableKey} {g : Watcher}
    (hret : cf.threads[i]? = some ⟨k,g,.ret ()⟩) (l : Lock) : cf.state.locks.holder l ≠ some i := by
  obtain ⟨hheld,hobeys⟩ := held_of_reach h₀ h
  have hdone : g.Done fun _ => False := hobeys _ (mem_of_getElem? hret)
  intro hl
  obtain ⟨k',g',hg,hh⟩ := hheld l i hl
  simp only [Config.watchers,getElem?_map,hret,map_some,some.injEq,Prod.mk.injEq] at hg
  rw [← hg.2] at hh
  exact hdone.holds_nothing l hh

/-- The next command of thread `i` with its table. -/
def pending (cf : RowConfig) (i : Nat) : Option (TableKey × Cmd) := cf.threads[i]?.bind fun th =>
  match th.prog with
  | .ret _ => none
  | .step c _ => some (th.tag,c)

def Advances (cf : RowConfig) (i : Nat) : Prop :=
  ∃ k c, pending cf i = some (k,c) ∧ (cf.state.exec i k c).isSome = true

theorem exec_or_waits (ht : s.tables k = some t) (ha : g.allowed c) : (∃ a, s.exec i k c = some a) ∨
    ∃ l j, s.locks.holder l = some j ∧ g.pageLock = none ∧ (g.locked = true → ∃ n, l = .page n) := by
  cases c with
  | lockTable | relockTable =>
    cases hl : t.lockedBy with
    | none => exact .inl ⟨_,by simp [Engine.exec,ht,hl]; rfl⟩
    | some j => exact .inr ⟨.table k,j,by simp [Engine.locks,Locks.holder,ht,hl],ha.2.1,fun h => by simp [ha.1] at h⟩
  | lockPage pid =>
    cases hl : s.pageLocks (t.stripe pid) with
    | none => exact .inl ⟨_,by simp [Engine.exec,ht,hl]; rfl⟩
    | some j => exact .inr ⟨.page _,j,hl,ha.2,fun _ => ⟨_,rfl⟩⟩
  | _ => exact .inl (isSome_iff_exists.1 (by simp [Engine.exec,ht]))

section
variable (hobeys : cf.Obeys rowProtocol fun g => g.Done fun _ => False)
  (htables : ∀ th ∈ cf.threads, cf.state.tables th.tag ≠ none)
include hobeys htables
/-- A statement under way can go on unless it waits for a lock, and then it holds no lock of that
kind. -/
theorem advances_or_waits {p : Prog Cmd Cmd.Res Unit} (hth : cf.threads[i]? = some ⟨k,g,p⟩) (hp : p ≠ .ret ()) :
    Advances cf i ∨ ∃ l j, cf.state.locks.holder l = some j ∧ g.pageLock = none ∧
    (g.locked = true → ∃ n, l = .page n) := by
  have hmem := mem_of_getElem? hth
  obtain ⟨t,ht⟩ := ne_none_iff_exists'.1 (htables _ hmem)
  cases p with
  | ret => exact absurd rfl hp
  | step c p =>
    exact (exec_or_waits ht (hobeys _ hmem).1).imp_left fun h => ⟨k,c,by simp [pending,hth],isSome_iff_exists.2 h⟩

end

theorem emptyUsers_unlocked (l : Lock) : emptyUsers.locks.holder l = none := by
  cases l with
  | page => rfl
  | table k =>
    simp only [Engine.locks,Locks.holder,emptyUsers]
    split <;> rfl

/-- Bytes of which 0 fits no column. -/
def nonzeroRows : RowOps UInt8 :=
  { byteRows with normalizeValue := fun v _ => if v = 0 then .error "value does not fit" else .ok v }

/-- The insert has the table's lock when it finds that its value does not fit. -/
theorem returned_holds_nothing_misfit : ∃ cf cf' : RowConfig,
    (rowMachine nonzeroRows).Reach (fun _ _ => True) emptyUsers cf ∧
      cf.state.locks.holder (.table users) = some 0 ∧ (rowMachine nonzeroRows).Run (fun _ _ => True) cf cf' ∧
      (∃ g, cf'.threads[0]? = some ⟨users,g,.ret ()⟩) ∧ ∀ l, cf'.state.locks.holder l ≠ some 0 := by
  have hplay : (Move.play (fun _ _ => true) ⟨emptyUsers,spawned [(users,insertRows nonzeroRows users [[0]])]⟩
      [.step 0,.step 0]).map (fun cf => (cf.state.locks.holder (.table users),
        (Move.play (fun _ _ => true) cf [.step 0,.step 0]).map fun cf => cf.threads[0]?)) =
      some (some 0,some (some ⟨users,{ tx := some 1, schema := some ⟨[⟨"id","INT",0,false⟩]⟩ },.ret ()⟩)) := rfl
  obtain ⟨cf,hreach,hcf⟩ := reach_sample (R := nonzeroRows) (fun _ _ _ => trivial)
    (fun _ _ _ => trivial) (by simpa using .insertRows [[0]]) hplay
  obtain ⟨hheld,hrest⟩ := Prod.mk.inj hcf
  obtain ⟨cf',hcf',hret⟩ := map_eq_some_iff.1 hrest
  have hrun : (rowMachine nonzeroRows).Run (fun _ _ => True) cf cf' := run_play (fun _ _ _ => trivial) hcf'
  exact ⟨cf,cf',hreach,hheld,hrun,⟨_,hret⟩,returned_holds_nothing emptyUsers_unlocked (hreach.run hrun) hret⟩

theorem runs_alone {α : Type} {p : Prog Cmd Cmd.Res α} {Q : Watcher → α → Prop} {st st' : Store}
    {a : α} (h : Shows k s st)
    (hp : Follows rowProtocol g p Q) (hheld : Held s.locks [(k,g)]) (hk : s.tables k ≠ none)
    (ha : p.run (Store.exec k) st = some (a,st')) : ∃ s', p.run (Engine.exec 0 k) s = some (a,s') ∧
    Shows k s' st' := by
  induction p generalizing s st g with
  | ret b =>
    cases ha
    exact ⟨s,rfl,h⟩
  | step c p ih =>
    obtain ⟨t,ht⟩ := ne_none_iff_exists'.1 hk
    rcases exec_or_waits (i := 0) ht hp.1 with ⟨⟨r,s1⟩,he⟩ | ⟨l,j,hl,hno,hpage⟩
    · simp only [Prog.run] at ha ⊢
      split at ha
      · rename_i r1 st1 hst
        obtain ⟨rfl,h1⟩ := h.exec he hst
        have hturn := (Engine.shape (.inl he)).turn hp.1
        have hk1 : s1.tables k ≠ none := by
          intro hnone
          have hst := congrFun₂ hturn.stripe k ⟨0,0⟩
          simp [Locks.stripe,Engine.locks,ht,hnone] at hst
        rw [he]
        exact ih r1 h1 (hp.2 r1) (hheld.run rfl hturn) hk1 ha
      · cases ha
    -- it waits for nobody but itself, and what it holds it does not ask for
    · obtain ⟨k',g',hg,hh⟩ := hheld l j hl
      cases mem_singleton.1 (mem_of_getElem? hg)
      cases l with
      | table =>
        obtain ⟨n,hn⟩ := hpage hh.2
        cases hn
      | page =>
        obtain ⟨pid,hsome,-⟩ := hh
        simp [hno] at hsome

/-- What a row statement does on the contents of a table it does on the engine that shows them, if
no lock is held there: it comes to its end with the same result, and the engine shows the contents
it leaves. -/
theorem statement_runs_alike {V : Type} [BEq V] {R : RowOps V} {k : TableKey} {x : Exec Int}
    (hx : RowStatement R k x)
    {s : Engine} {st st' : Store} {a : Except String Int} (h : Shows k s st) (h₀ : ∀ l, s.locks.holder l = none)
    (hk : s.tables k ≠ none) (ha : x.run.run (Store.exec k) st = some (a,st')) :
    ∃ s', x.run.run (Engine.exec 0 k) s = some (a,s') ∧ Shows k s' st' := by
  have hheld : Held s.locks [(k,({} : Watcher))] := by
    intro l i hl
    simp [h₀ l] at hl
  exact runs_alone h (follows_bind.1 (follows_rowStatement hx)) hheld hk ha

def noRows : Contents := ⟨[],⟨⟨[⟨"id","INT",0,false⟩]⟩,none,0,0,[]⟩,Nat.zero_le _⟩
def noUsers : Store := ⟨fun k => if k = users then some noRows else none,⟨0,0⟩,none⟩

theorem emptyUsers_shows : Shows users emptyUsers noUsers := by
  refine ⟨fun k => ?_,rfl,nofun⟩
  simp only [emptyUsers,noUsers]
  split
  · refine .some ⟨rfl,⟨[],[],rfl,by simp,Nat.zero_le _,by decide,rfl⟩,fun pid => ?_⟩
    obtain ⟨seg,no⟩ := pid
    cases seg <;> simp [Table.page,HeapFile.create,HeapFile.readPage,Contents.page,noRows]
  · exact .none

/-- The insert of a row. -/
theorem statement_runs_alike_insert : ∃ s st, insertSeven.run.run (Store.exec users) noUsers = some (.ok 1,st) ∧
    insertSeven.run.run (Engine.exec 0 users) emptyUsers = some (.ok 1,s) ∧ Shows users s st := by
  have ha : (insertSeven.run.run (Store.exec users) noUsers).map Prod.fst = some (.ok 1) := rfl
  obtain ⟨⟨_,st⟩,ha,rfl⟩ := map_eq_some_iff.1 ha
  obtain ⟨s,hs⟩ := statement_runs_alike insertSeven_statement emptyUsers_shows emptyUsers_unlocked nofun ha
  exact ⟨s,st,ha,hs⟩

/-- The commands that change a page or let go of a changed one. -/
def Cmd.writes : Cmd → Bool
  | .allocatePage | .insertTuple _ _ | .setHOTUpdated _ _ | .unpinPage _ _ | .unpinPageDirty _ _ => true
  | .putXMax _ _ | .clearXMax _ => true
  | _ => false

theorem ThreadOk.locked_of_writes (h : ThreadOk s i k g) (ha : g.allowed c) (hc : c.writes = true) :
    g.locked = true := by
  cases c with
  | insertTuple | unpinPage | unpinPageDirty => exact (h.pin _ ha.1).1
  | setHOTUpdated =>
    obtain ⟨-,t,ht⟩ := ha
    exact (h.pin _ (h.pend _ ht).1).1
  | putXMax => exact ha.2.1
  | clearXMax | allocatePage => exact ha.1
  | _ => cases hc

/-- No two statements are ever about to write to pages of one table. -/
theorem one_writer {V : Type} [BEq V] {R : RowOps V} {s₀ : Engine}
    (h₀ : ∀ k pid, s₀.frame k pid = none) {cf : RowConfig}
    (h : (rowMachine R).Reach (fun _ ev => ev ≠ .env .checkpoint) s₀ cf) {i j : Nat} {k : TableKey} {c c' : Cmd}
    (hi : pending cf i = some (k,c)) (hj : pending cf j = some (k,c')) (hc : c.writes = true)
    (hc' : c'.writes = true) : i = j := by
  obtain ⟨hst,hobeys⟩ : Steady cf.state cf.watchers ∧ cf.Obeys rowProtocol fun g => g.Done fun _ => False := by
    refine Machine.Reach.inv follows_started Steady (Sound.start h₀ []).steady ?_ ?_ ?_ h
    · intro cf k p hs _ _
      exact hs.spawn k
    · intro cf i k g c r s hs hw ha he _
      exact hs.run hw ha (Engine.shape he)
    · intro cf e s hs he hne
      exact hs.env (fun h => hne (by rw [h])) he
  have hlocked : ∀ {i c}, pending cf i = some (k,c) → c.writes = true → ∃ g,
    ThreadOk cf.state i k g ∧ g.locked = true := by
    intro i c hp hc
    obtain ⟨⟨k',g,p⟩,hth,hp⟩ := Option.bind_eq_some_iff.1 hp
    cases p with
    | ret => cases hp
    | step c' p =>
      cases hp
      have hok := hst.thread i k' g (by simp [Config.watchers,hth])
      exact ⟨g,hok,hok.locked_of_writes (hobeys _ (mem_of_getElem? hth)).1 hc⟩
  obtain ⟨g,hg,hl⟩ := hlocked hi hc
  obtain ⟨g',hg',hl'⟩ := hlocked hj hc'
  exact hg.lock_unique hg' hl hl'

/-- The first of two inserts is about to store its row. -/
theorem one_writer_insert : ∃ cf : RowConfig,
    (rowMachine byteRows).Reach (fun _ ev => ev ≠ .env .checkpoint) emptyUsers cf ∧
    pending cf 0 = some (users,.insertTuple ⟨0,0⟩ ⟨1#64,0,[7]⟩) ∧ pending cf 1 = some (users,.lockTable) ∧
      ∀ j c, pending cf j = some (users,c) → c.writes = true → 0 = j := by
  have hrun : (Move.play (fun _ ev => !ev matches .env _)
    ⟨emptyUsers,spawned [(users,insertSeven),(users,insertSeven)]⟩
      (replicate 6 (.step 0)++[.step 1])).map (fun cf => (pending cf 0,pending cf 1)) =
        some (some (users,.insertTuple ⟨0,0⟩ ⟨1#64,0,[7]⟩),some (users,.lockTable)) := rfl
  have hok : ∀ (cf : RowConfig) (ev : Event Cmd Cmd.Res TableKey EnvEvent), (!ev matches .env _) = true →
      ev ≠ .env .checkpoint := by
    rintro _ _ h rfl
    cases h
  obtain ⟨cf,hreach,hp⟩ := reach_sample (R := byteRows) hok (fun _ _ _ => nofun)
    (by simpa using insertSeven_statement) hrun
  obtain ⟨h0,h1⟩ := Prod.mk.inj hp
  exact ⟨cf,hreach,h0,h1,fun j c hj hc => one_writer emptyUsers_frame hreach h0 hj rfl hc⟩

end VaultDB.Storage
