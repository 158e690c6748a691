import VaultDB.Storage.Views
set_option autoImplicit false

/-!
What a running statement can rely on while others run: its table lock, its page lock and
its pin stay what they are.
-/

namespace VaultDB.Storage
open Wal Lib Engine List Option Table
variable {t t' : Table} {c : Cmd} {r : c.Res} {i : Nat}
structure ThreadOk (s : Engine) (i : Nat) (k : TableKey) (g : Watcher) : Prop where
  tableLock : g.locked = true → ∃ t, s.tables k = some t ∧ t.lockedBy = some i
  pageLock : ∀ pid, g.pageLock = some pid →
    g.locked = true ∧ ∃ t, s.tables k = some t ∧ s.pageLocks (t.stripe pid) = some i
  pin : ∀ pid, g.pin = some pid → g.locked = true ∧ ∀ f, s.frame k pid = some f → i ∈ f.pins
  pend : ∀ x, g.pend = some x → g.pin = some x.1.pid ∧ g.pageLock = some x.1.pid ∧
    g.changed = true ∧ g.committed = false
  del : ∀ loc ∈ g.del, loc ∈ g.logged
  schema : ∀ sc, g.schema = some sc → ∃ t, s.tables k = some t ∧ t.info.schema = sc

/-- Every thread is what its watcher says, and the pool only caches pages that exist. -/
structure Steady (s : Engine) (ws : List (TableKey × Watcher)) : Prop where
  thread : ∀ i k g, ws[i]? = some (k,g) → ThreadOk s i k g
  backed : ∀ k pid f, s.frame k pid = some f → s.diskPage k pid ≠ none

structure Table.Alike (t t' : Table) : Prop where
  lockedBy : t'.lockedBy = t.lockedBy
  tableID : t'.tableID = t.tableID
  schema : t'.info.schema = t.info.schema

theorem Table.Alike.stripe (h : Table.Alike t t') (pid : PageID) : t'.stripe pid = t.stripe pid := by
  simp [Table.stripe,h.tableID]

theorem Table.alike_modifyFrame (t : Table) (pid : PageID) (f : Frame → Frame) :
    Table.Alike t (t.modifyFrame pid f) := ⟨rfl,rfl,rfl⟩

def Engine.KeepsTable (k : TableKey) (s s' : Engine) : Prop :=
  ∀ t, s.tables k = some t → ∃ t', s'.tables k = some t' ∧ Table.Alike t t'

variable {k : TableKey} {s s' : Engine} {g : Watcher}
theorem Engine.keepsTable_setTable (ht : s.tables k = some t)
    (h : Table.Alike t t') : KeepsTable k s (s.setTable k t') := by
  intro t0 h0
  obtain rfl := some.inj (ht.symm.trans h0)
  exact ⟨t',by simp,h⟩

theorem Engine.keepsTable_of_eq (h : s'.tables k = s.tables k) : KeepsTable k s s' :=
  fun t ht => ⟨t,h.trans ht,rfl,rfl,rfl⟩

namespace ThreadOk
variable {s s' : Engine} {i j : Nat} {k k' : TableKey} {g g' : Watcher}
theorem holdsNothing (h : ThreadOk s i k g) (hl : g.locked = false) : g.pageLock = none ∧ g.pin =
    none ∧ g.pend = none := by
  have hlock : g.pageLock = none := by
    cases hp : g.pageLock with
    | none => rfl
    | some pid => simp [(h.pageLock pid hp).1] at hl
  have hpin : g.pin = none := by
    cases hp : g.pin with
    | none => rfl
    | some pid => simp [(h.pin pid hp).1] at hl
  refine ⟨hlock,hpin,?_⟩
  cases hp : g.pend with
  | none => rfl
  | some x => simp [(h.pend x hp).1] at hpin

theorem lock_unique (hi : ThreadOk s i k g) (hj : ThreadOk s j k g') (hl : g.locked = true)
    (hl' : g'.locked = true) : i = j := by
  obtain ⟨t,ht,ho⟩ := hi.tableLock hl
  obtain ⟨t',ht',ho'⟩ := hj.tableLock hl'
  obtain rfl := some.inj (ht.symm.trans ht')
  exact some.inj (ho.symm.trans ho')

theorem congr (h : ThreadOk s i k g) (ht : Engine.KeepsTable k s s')
    (hp : ∀ n, s.pageLocks n = some i → s'.pageLocks n = some i)
    (hf : ∀ pid f', g.pin = some pid → s'.frame k pid = some f' →
      ∃ f, s.frame k pid = some f ∧ (i ∈ f.pins → i ∈ f'.pins)) : ThreadOk s' i k g where
  tableLock hl := by
    obtain ⟨t,h1,ho⟩ := h.tableLock hl
    obtain ⟨t',h2,ha⟩ := ht t h1
    exact ⟨t',h2,ha.lockedBy.trans ho⟩
  pageLock pid hpid := by
    obtain ⟨hl,t,h1,ho⟩ := h.pageLock pid hpid
    obtain ⟨t',h2,ha⟩ := ht t h1
    exact ⟨hl,t',h2,hp _ (by rw [ha.stripe]; exact ho)⟩
  pin pid hpid := by
    obtain ⟨hl,hpins⟩ := h.pin pid hpid
    refine ⟨hl,fun f' hf' => ?_⟩
    obtain ⟨f,h1,hmem⟩ := hf pid f' hpid hf'
    exact hmem (hpins f h1)
  pend := h.pend
  del := h.del
  schema sc hsc := by
    obtain ⟨t,h1,hs⟩ := h.schema sc hsc
    obtain ⟨t',h2,ha⟩ := ht t h1
    exact ⟨t',h2,ha.schema.trans hs⟩

theorem congr_eq (h : ThreadOk s i k g) (ht : s'.tables k = s.tables k)
    (hp : ∀ n, s.pageLocks n = some i → s'.pageLocks n = some i) : ThreadOk s' i k g :=
  h.congr (keepsTable_of_eq ht) hp fun pid f' _ hf => ⟨f',by simpa [frame,ht] using hf,id⟩

theorem of_unlocked (h : ThreadOk s i k g) (hl : g.locked = false)
    (hs : ∀ t, s.tables k = some t → ∃ t', s'.tables k = some t' ∧ t'.info.schema = t.info.schema) :
    ThreadOk s' i k g := by
  obtain ⟨hpl,hpin,hpend⟩ := h.holdsNothing hl
  constructor
  · simp [hl]
  · simp [hpl]
  · simp [hpin]
  · simp [hpend]
  · exact h.del
  · intro sc hsc
    obtain ⟨t,ht,rfl⟩ := h.schema sc hsc
    exact hs t ht

end ThreadOk

theorem Engine.Shape.schema
    (h : s.Shape i k c r s') (ha : g.allowed c) (t : Table) (ht : s.tables k = some t) :
    ∃ t', s'.tables k = some t' ∧ t'.info.schema = t.info.schema := by
  have hput : ∀ {t1 t2 : Table} {loc : PageSlot} {x : Nat}, t1.putXMax loc x = some t2 → t2.info = t1.info := by
    intro t1 t2 loc x he
    obtain ⟨p,f,-,-,-,-,-,rfl⟩ := putXMax_eq_some he
    rfl
  cases h with
  | quiet => exact ⟨t,ht,rfl⟩
  | syncCatalog => exact ⟨t,by rw [(s.syncCatalog_eq _).1]; exact ht,rfl⟩
  | logFail _ hs =>
    rcases hs with rfl | ⟨x,op,rfl⟩
    · exact ⟨t,ht,rfl⟩
    · exact ⟨t,ht,rfl⟩
  | nextTxID | getInfo | lockPage | unlockPage | fetchFail | allocateFail | putFail | clearFail |
    logInsert | logDelete | logCommit => exact ⟨t,ht,rfl⟩
  | noTable hn => simp [hn] at ht
  | setInfo ht' =>
    obtain rfl := some.inj (ht.symm.trans ht')
    exact ⟨_,if_pos rfl,ha _⟩
  | lockTable ht' | relockTable ht' | unlockTable ht' | cacheFail ht' | pageFull ht' =>
    obtain rfl := some.inj (ht.symm.trans ht')
    exact ⟨_,if_pos rfl,rfl⟩
  | setHOTUpdated ht' | unpinPage ht' | unpinPageDirty ht' =>
    obtain rfl := some.inj (ht.symm.trans ht')
    exact ⟨_,if_pos rfl,rfl⟩
  | fetchPage ht' he =>
    obtain rfl := some.inj (ht.symm.trans ht')
    obtain ⟨f,rfl,-⟩ := fetchPage_eq_some he
    exact ⟨_,if_pos rfl,rfl⟩
  | allocatePage ht' he =>
    obtain rfl := some.inj (ht.symm.trans ht')
    obtain ⟨hf,-,⟨f,-,rfl⟩ | ⟨-,rfl⟩⟩ := allocatePage_eq_some he
    · exact ⟨_,if_pos rfl,rfl⟩
    · exact ⟨_,if_pos rfl,rfl⟩
  | insertTuple ht' he =>
    obtain rfl := some.inj (ht.symm.trans ht')
    refine ⟨_,if_pos rfl,?_⟩
    rcases insertTuple_some he with ⟨-,h⟩ | ⟨f,p,-,-,h⟩
    · rw [h]
    · rw [h]
      rfl
  | putXMax ht' he | clearXMax ht' he =>
    obtain rfl := some.inj (ht.symm.trans ht')
    exact ⟨_,if_pos rfl,by rw [hput he]⟩

theorem Engine.Shape.unlocked
    (h : s.Shape i k c r s') (hi : ThreadOk s i k g) (ha : g.allowed c) (hl : g.locked = false) :
    (∃ t, s.tables k = some t ∧ t.lockedBy = none) ∨
    (Engine.KeepsTable k s s' ∧ ∀ pid, s'.frame k pid = s.frame k pid) := by
  obtain ⟨-,hpin,hpend⟩ := hi.holdsNothing hl
  have hsame : s'.tables k = s.tables k → Engine.KeepsTable k s s' ∧ ∀ pid, s'.frame k pid = s.frame k pid :=
    fun he => ⟨keepsTable_of_eq he,fun pid => by simp [frame,he]⟩
  cases h with
  | quiet => exact .inr (hsame rfl)
  | syncCatalog => exact .inr (hsame (by rw [(s.syncCatalog_eq _).1]))
  | logFail _ hs =>
    rcases hs with rfl | ⟨x,op,rfl⟩
    · exact .inr (hsame rfl)
    · exact .inr (hsame rfl)
  | nextTxID | getInfo | noTable | lockPage | unlockPage | fetchFail | allocateFail | putFail | clearFail |
    logInsert | logDelete | logCommit => exact .inr (hsame rfl)
  | @setInfo f t ht =>
    refine .inr ⟨keepsTable_setTable ht ⟨rfl,rfl,ha _⟩,fun pid => ?_⟩
    simp [frame,ht]
  | lockTable ht hn | relockTable ht hn => exact .inl ⟨_,ht,hn⟩
  | unlockTable | fetchPage | allocatePage | cacheFail => simp [ha.1] at hl
  | insertTuple | pageFull | unpinPage | unpinPageDirty => exact absurd ha.1 (by simp [hpin])
  | setHOTUpdated =>
    obtain ⟨-,t,ht⟩ := ha
    simp [hpend] at ht
  | putXMax => simp [ha.2.1] at hl
  | clearXMax => simp [ha.1] at hl

theorem Engine.Shape.pageLocks_other {i j : Nat}
    (h : s.Shape i k c r s') (hi : ThreadOk s i k g) (ha : g.allowed c) (hne : j ≠ i) (n : Nat)
    (hn : s.pageLocks n = some j) : s'.pageLocks n = some j := by
  rcases h.pageLocks with he | ⟨t,pid,ht,hfree,rfl,rfl⟩ | ⟨t,pid,ht,rfl,rfl⟩
  · rw [he]
    exact hn
  · by_cases hst : n = t.stripe pid
    · subst hst
      simp [hn] at hfree
    · simpa [setPageLock,hst] using hn
  · obtain ⟨-,t',ht',ho⟩ := hi.pageLock pid ha.1
    obtain rfl := some.inj (ht.symm.trans ht')
    by_cases hst : n = t.stripe pid
    · subst hst
      exact absurd (some.inj (hn.symm.trans ho)) hne
    · simpa [setPageLock,hst] using hn

theorem ThreadOk.other {i j : Nat} {k' : TableKey} {g' : Watcher}
    (hj : ThreadOk s j k' g') (hi : ThreadOk s i k g) (hne : j ≠ i) (ha : g.allowed c)
    (h : s.Shape i k c r s') : ThreadOk s' j k' g' := by
  have hpl := h.pageLocks_other hi ha hne
  by_cases hk : k' = k
  · subst hk
    by_cases hl : g'.locked = true
    · have hgl : g.locked = false := by
        by_contra hn
        exact hne (hj.lock_unique hi hl (by simpa using hn))
      rcases h.unlocked hi ha hgl with ⟨t,ht,hn⟩ | ⟨hkeep,hframe⟩
      · obtain ⟨t',ht',ho⟩ := hj.tableLock hl
        obtain rfl := some.inj (ht.symm.trans ht')
        simp [hn] at ho
      · exact hj.congr hkeep hpl fun pid f' _ hf => ⟨f',by rw [← hframe]; exact hf,id⟩
    · exact hj.of_unlocked (by simpa using hl) fun t ht => h.schema ha t ht
  · exact hj.congr_eq (h.otherTable hk) hpl

theorem Watcher.next_quiet (hc : c.quiet = true) (g : Watcher) (r : c.Res) : ∃ b, g.next c r =
    { g with faulty := b } := by
  cases c with
  | txClock | scanSlots | pageCount | getTuple | freeSpace => exact ⟨_,rfl⟩
  | _ => cases hc

theorem Watcher.next_failed (hc : c.Failed r) (g : Watcher) : g.next c r = { g with faulty := true } ∨
      g.next c r = { g with pend := none, changed := false, faulty := true } := by
  cases c with
  | logInsert =>
    cases hc
    exact .inr rfl
  | logDelete | logCommit =>
    cases hc
    exact .inl rfl
  | _ => cases hc

namespace ThreadOk
variable {s s' : Engine} {i : Nat} {k : TableKey} {g : Watcher} {pid : PageID}
section
variable (h : ThreadOk s i k g)
include h
theorem setFaulty (b : Bool) : ThreadOk s i k { g with faulty := b } := { h with }

theorem pend_none (hp : g.pin = none) : g.pend = none := by
  cases hx : g.pend with
  | none => rfl
  | some x => simp [(h.pend x hx).1] at hp

theorem setLocked (hpl : g.pageLock = none) (hp : g.pin = none) {b : Bool}
    (hl : b = true → ∃ t, s'.tables k = some t ∧ t.lockedBy = some i)
    (hs : ∀ t, s.tables k = some t → ∃ t', s'.tables k = some t' ∧ t'.info.schema = t.info.schema) :
    ThreadOk s' i k { g with locked := b } where
  tableLock := hl
  pageLock pid hpid := by simp [hpl] at hpid
  pin pid hpid := by simp [hp] at hpid
  pend x hx := by simp [h.pend_none hp] at hx
  del := h.del
  schema sc hsc := by
    obtain ⟨t,ht,rfl⟩ := h.schema sc hsc
    exact hs t ht

theorem dropPin (hp : g.pend = none) : ThreadOk s i k { g with pin := none } where
  __ := h
  pin pid hpid := by simp at hpid
  pend x hx := by simp [hp] at hx

theorem takePin (hl : g.locked = true) (hp : g.pin = none) (hf : ∀ f, s.frame k pid = some f → i ∈ f.pins) :
    ThreadOk s i k { g with pin := some pid, changed := false } where
  __ := h
  pin pid' hpid := by
    obtain rfl := some.inj hpid
    exact ⟨hl,hf⟩
  pend x hx := by simp [h.pend_none hp] at hx

section
variable (ht : s.tables k = some t)
include ht
theorem setTable (ha : Table.Alike t t') (hf : ∀ pid f', g.pin = some pid → t'.frames pid = some f' →
      ∃ f, t.frames pid = some f ∧ (i ∈ f.pins → i ∈ f'.pins)) : ThreadOk (s.setTable k t') i k g := by
  refine h.congr (keepsTable_setTable ht ha) (fun n hn => hn) fun pid f' hp hf' => ?_
  have hf'' : t'.frames pid = some f' := by simpa [frame_setTable] using hf'
  obtain ⟨f,h1,h2⟩ := hf pid f' hp hf''
  exact ⟨f,by simpa [frame,ht] using h1,h2⟩

theorem modifyFrame {m : Frame → Frame} (hm : g.pin = some pid → ∀ f, i ∈ f.pins → i ∈ (m f).pins) :
    ThreadOk (s.setTable k (t.modifyFrame pid m)) i k g := by
  refine h.setTable ht (t.alike_modifyFrame pid m) fun pid' f' hp hf' => ?_
  simp only [Table.modifyFrame,Table.frames_setFrame] at hf'
  split at hf'
  · rename_i he
    subst he
    obtain ⟨f,hf,rfl⟩ := map_eq_some_iff.1 hf'
    exact ⟨f,hf,hm hp f⟩
  · exact ⟨f',hf',id⟩

theorem afterPut {loc : PageSlot} {x : Nat}
    (hp : g.pin = none) (he : t.putXMax loc x = some t') : ThreadOk (s.setTable k t') i k g := by
  obtain ⟨p,f,-,-,-,-,-,rfl⟩ := putXMax_eq_some he
  exact h.setTable ht ⟨rfl,rfl,rfl⟩ fun pid f' hpin => by simp [hp] at hpin
end

theorem self (hb : ∀ pid f, s.frame k pid = some f → s.diskPage k pid ≠ none) (ha : g.allowed c)
    (hs : s.Shape i k c r s') : ThreadOk s' i k (g.next c r) := by
  have hschema := fun t ht => hs.schema ha t ht
  -- a page that `AllocatePage` hands out is not cached
  have hfresh : ∀ {t : Table} {hf : HeapFile} {pid : PageID}, s.tables k = some t →
      t.dir.heap.allocatePage = some (hf,pid) → t.frames pid = none := by
    intro t hf pid ht hal
    cases hfr : t.frames pid with
    | none => rfl
    | some f =>
      refine absurd ?_ (hb pid f (by simpa [frame,ht] using hfr))
      simpa [diskPage,ht] using HeapFile.readPage_nextPage (HeapFile.allocatePage_eq hal).1
  cases hs with
  | quiet hq =>
    obtain ⟨b,hb⟩ := Watcher.next_quiet hq g r
    rw [hb]
    exact h.setFaulty b
  | @syncCatalog x =>
    obtain ⟨ht,-,-,hp,-⟩ := s.syncCatalog_eq x
    exact h.congr_eq (by rw [ht]) fun n hn => by rw [hp]; exact hn
  | @getInfo t ht =>
    refine { h with schema := fun sc hsc => ?_ }
    cases hg : g.schema with
    | some sc' => exact h.schema sc (by simpa [Watcher.next,hg] using hsc)
    | none => exact ⟨t,ht,by simpa [Watcher.next,hg] using hsc⟩
  | nextTxID => exact { h with }
  | @setInfo f t ht => exact h.setTable ht ⟨rfl,rfl,ha _⟩ fun pid f' _ hf => ⟨f',hf,id⟩
  | noTable => exact h.setLocked ha.2.1 ha.2.2 (by simp) hschema
  | lockTable ht | relockTable ht => exact h.setLocked ha.2.1 ha.2.2 (fun _ => ⟨_,if_pos rfl,rfl⟩) hschema
  | unlockTable ht => exact h.setLocked ha.2.1 ha.2.2 (by simp) hschema
  | @lockPage t pid ht hn =>
    have h' : ThreadOk (s.setPageLock (t.stripe pid) (some i)) i k g := by
      refine h.congr_eq rfl fun n hlock => ?_
      by_cases hst : n = t.stripe pid <;> simp [setPageLock,hst,hlock]
    refine { h' with pageLock := fun pid' hpid => ?_, pend := fun x hx => ?_ }
    · obtain rfl := some.inj hpid
      exact ⟨ha.1,t,ht,if_pos rfl⟩
    · exact absurd (h.pend x hx).2.1 (by simp [ha.2])
  | @unlockPage t pid ht =>
    refine { h with pageLock := fun pid' hpid => ?_, pend := fun x hx => ?_ }
    · cases hpid
    · exact absurd hx (by simp [Watcher.next,ha.2])
  | @fetchPage t t' pid ht he =>
    obtain ⟨f,rfl,-,hmem,-⟩ := fetchPage_eq_some he
    have h' : ThreadOk (s.setTable k (t.setFrame pid (some f))) i k g :=
      h.setTable ht ⟨rfl,rfl,rfl⟩ fun pid f' hp => by simp [ha.2] at hp
    refine h'.takePin ha.1 ha.2 fun f' hf' => ?_
    simp only [frame_setTable,if_true,frames_setFrame,some.injEq] at hf'
    rwa [← hf']
  | fetchFail | allocateFail | putFail | clearFail => exact h.setFaulty true
  | @allocatePage t t' pid ht he =>
    obtain ⟨hf,hal,⟨f,hfr,-⟩ | ⟨-,rfl⟩⟩ := allocatePage_eq_some he
    · simp [hfresh ht hal] at hfr
    · have h' : ThreadOk (s.setTable k ((t.setHeap hf).setFrame pid (some ⟨Page.init,true,0,[i]⟩))) i k g :=
        h.setTable ht ⟨rfl,rfl,rfl⟩ fun pid f' hp => by simp [ha.2.1] at hp
      refine h'.takePin ha.1 ha.2.1 fun f' hf' => ?_
      simp only [frame_setTable,if_true,frames_setFrame,some.injEq] at hf'
      simp [← hf']
  | @cacheFail t hf pid ht hal =>
    have h' : ThreadOk (s.setTable k (t.setHeap hf)) i k g :=
      h.setTable ht ⟨rfl,rfl,rfl⟩ fun pid f' hp => by simp [ha.2.1] at hp
    refine h'.takePin ha.1 ha.2.1 fun f' hf' => ?_
    simp [frame_setTable,hfresh ht hal] at hf'
  | @insertTuple t pid tup slot ht he =>
    obtain ⟨hpin,hpl,hpend,hcom,-⟩ := ha
    have h' : ThreadOk (s.setTable k (t.insertTuple pid tup).1) i k g := by
      rcases insertTuple_some he with ⟨-,heq⟩ | ⟨f,p,hf,-,heq⟩
      · rw [heq]
        exact h.setTable ht ⟨rfl,rfl,rfl⟩ fun pid f' _ hf => ⟨f',hf,id⟩
      · rw [heq]
        refine h.setTable ht ⟨rfl,rfl,rfl⟩ fun pid' f' _ hf' => ?_
        simp only [frames_setFrame] at hf'
        split at hf'
        · rename_i hpid
          subst hpid
          obtain rfl := some.inj hf'
          exact ⟨f,hf,id⟩
        · exact ⟨f',hf',id⟩
    refine { h' with pend := fun x hx => ?_ }
    obtain rfl := some.inj hx
    exact ⟨hpin,hpl,rfl,hcom⟩
  | pageFull ht => exact h.setTable ht ⟨rfl,rfl,rfl⟩ fun pid f' _ hf => ⟨f',hf,id⟩
  | setHOTUpdated ht => exact h.modifyFrame ht fun _ f hf => hf
  | unpinPage ht | unpinPageDirty ht => exact (h.dropPin ha.2.1).modifyFrame ht fun hp => by simp at hp
  | @putXMax t t' loc x ht he =>
    have h' := h.afterPut ht ha.2.2.2.2.1 he
    refine { h' with del := fun l hl => ?_ }
    rcases mem_cons.1 hl with rfl | hl
    · exact ha.2.2.1
    · exact h'.del l hl
  | clearXMax ht he =>
    have h' := h.afterPut ht ha.2.2.2.1 he
    exact { h' with del := fun l hl => h'.del l (mem_filter.1 hl).1 }
  | logInsert => exact { h with pend := fun x hx => by simp [Watcher.next] at hx }
  | logDelete => exact { h with del := fun l hl => mem_cons_of_mem _ (h.del l hl) }
  | logCommit =>
    refine { h with pend := fun x hx => ?_ }
    exact absurd hx (by simp [Watcher.next,ha.2.2.1])
  | logFail hc hs =>
    have h' : ThreadOk s' i k g := by
      rcases hs with rfl | ⟨x,op,rfl⟩
      · exact h
      · exact h.congr_eq rfl fun n hn => hn
    rcases Watcher.next_failed hc g with he | he
    · rw [he]
      exact h'.setFaulty true
    · rw [he]
      exact { h' with pend := fun x hx => by simp at hx }
end
end ThreadOk
end VaultDB.Storage
