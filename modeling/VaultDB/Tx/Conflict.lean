import Mathlib.Data.List.Induction
import VaultDB.Tx.Protocol
set_option autoImplicit false

/-!
Optimistic concurrency control over whole runs of sessions.

What a transaction may rely on is read off the trace: the tables it has accessed, and who has
changed each since.  A change under the table's commit lock stays with the lock until the version is
bumped, so a `Commit` that finds the recorded version under the lock knows that nobody else has
changed the table.
-/

namespace VaultDB.Tx
open Lib Watcher List Option State
variable {k : String} {e : TraceEvent} {c : Cmd}
    {Ok : OccConfig → Event Cmd Cmd.Res Unit Empty → Prop} {cf : OccConfig}
  {i : Nat}
def sinceStep (i : Nat) (k : String) (acc : Option (List Nat)) (x : Nat × TraceEvent) : Option (List Nat) :=
  match x.2 with
  | .begin => if x.1 = i then none else acc
  | .finish => if x.1 = i then none else acc
  | .read k' => if x.1 = i ∧ k' = k then some (acc.getD []) else acc
  | .record k' => if x.1 = i ∧ k' = k then some (acc.getD []) else acc
  | .change k' => if k' = k then acc.map (·++[x.1]) else acc
  | .applied _ => acc

/-- The sessions that have changed a table since session `i`'s open transaction first
accessed it; `none` if it has not. -/
def since (i : Nat) (k : String) (t : Trace) : Option (List Nat) := t.foldl (sinceStep i k) none

@[simp] theorem since_append (i : Nat) (k : String) (t : Trace) (x : Nat × TraceEvent) :
    since i k (t++[x]) = sinceStep i k (since i k t) x := by
  simp [since]

def Access (k : String) (e : TraceEvent) : Prop := e = .read k ∨ e = .record k

theorem mem_since {mid : Trace} (pre : Trace) (he : Access k e)
    (hb : (i,.begin) ∉ mid) (hf : (i,.finish) ∉ mid) :
    ∃ l, since i k (pre++(i,e) :: mid) = some l ∧ ∀ j, (j,.change k) ∈ mid → j ∈ l := by
  induction mid using reverseRecOn with
  | nil =>
    refine ⟨(since i k pre).getD [],?_,by simp⟩
    rw [since_append]
    rcases he with rfl | rfl
    · simp [sinceStep]
    · simp [sinceStep]
  | append_singleton mid x ih =>
    obtain ⟨l,hl,hmem⟩ := ih (fun h => hb (mem_append_left _ h)) fun h => hf (mem_append_left _ h)
    have hsplit : pre++(i,e) :: (mid++[x]) = (pre++(i,e) :: mid)++[x] := by simp
    rw [hsplit,since_append,hl]
    obtain ⟨j,ev⟩ := x
    cases ev with
    | begin =>
      have hj : j ≠ i := fun h => hb (by simp [h])
      exact ⟨l,by simp [sinceStep,hj],by simpa using hmem⟩
    | finish =>
      have hj : j ≠ i := fun h => hf (by simp [h])
      exact ⟨l,by simp [sinceStep,hj],by simpa using hmem⟩
    | read k' => exact ⟨l,by simp [sinceStep],by simpa using hmem⟩
    | record k' => exact ⟨l,by simp [sinceStep],by simpa using hmem⟩
    | applied ks => exact ⟨l,by simp [sinceStep],by simpa using hmem⟩
    | change k' =>
      by_cases hk : k' = k
      · refine ⟨l++[j],by simp [sinceStep,hk],fun j' hj' => ?_⟩
        rcases mem_append.1 hj' with hj' | hj'
        · exact mem_append_left _ (hmem j' hj')
        · cases mem_singleton.1 hj'
          simp
      · refine ⟨l,by simp [sinceStep,hk],fun j' hj' => ?_⟩
        rcases mem_append.1 hj' with hj' | hj'
        · exact hmem j' hj'
        · cases mem_singleton.1 hj'
          exact (hk rfl).elim

/-- Every transaction that was applied had the tables of its snapshot to itself. -/
def Serial (t : Trace) : Prop :=
  ∀ i k ks e pre mid post, t = pre++(i,e) :: mid++(i,.applied ks) :: post → Access k e → k ∈ ks →
    (i,.begin) ∉ mid → (i,.finish) ∉ mid → ∀ j, (j,.change k) ∈ mid → j = i

theorem Serial.append {t : Trace} (h : Serial t) {x : Nat × TraceEvent}
    (hx : ∀ i ks, x = (i,.applied ks) → ∀ k ∈ ks, ∀ l, since i k t = some l → ∀ j ∈ l, j = i) : Serial (t++[x]) := by
  intro i k ks e pre mid post ht he hk hb hf j hj
  rcases eq_nil_or_concat post with rfl | ⟨post',y,rfl⟩
  · have ht' : t++[x] = (pre++(i,e) :: mid)++[(i,.applied ks)] := ht
    obtain ⟨rfl,hxe⟩ := append_inj' ht' rfl
    obtain ⟨l,hl,hmem⟩ := mem_since pre he hb hf
    exact hx i ks (singleton_inj.1 hxe) k hk l hl j (hmem j hj)
  · have ht' : t++[x] = (pre++(i,e) :: mid++(i,.applied ks) :: post')++[y] := by
      rw [ht]
      simp
    exact h i k ks e pre mid post' (append_inj' ht' rfl).1 he hk hb hf j hj

section
variable {j : Nat} {ws : List (Unit × Watcher)} {u : Unit}
def Unwatched (t : Trace) (j : Nat) (k : String) : Prop := ∀ i, i ≠ j → since i k t = none

/-- No other session's open transaction has accessed the table before a change session `j`
made to it. -/
def Unseen (t : Trace) (j : Nat) (k : String) : Prop := ∀ i, i ≠ j → ∀ l, since i k t = some l → j ∉ l
def watcherAt (ws : List (Unit × Watcher)) (i : Nat) : Option Watcher := ws[i]?.map (·.2)

/-- A command after which `Commit` can still rely on the versions.  A row of a table that
another open transaction has accessed is changed only by a statement that holds the table's
commit lock and bumps its version; a call fails only if its statement has changed no such row;
and no version is bumped for a change made between another transaction's first read of the
table and its `RecordAccess`. -/
def StepOk (s : State) (W : Nat → Option Watcher) (j : Nat) : (c : Cmd) → c.Res → Prop
  | .mutate via k, o =>
    (o.changed = true → (via = .immediate ∧ o.ok = true) ∨ Unwatched s.trace j k) ∧
      (o.ok = false → ∀ w, W j = some w → ∀ k' ∈ w.dirty, Unseen s.trace j k')
  | .bumpTableVersion k, _ =>
    ∀ i w, i ≠ j → W i = some w → (∀ v, (k,v) ∉ w.snaps) → ∀ l, since i k s.trace = some l → j ∉ l
  | _, _ => True

def Disciplined (cf : OccConfig) : Event Cmd Cmd.Res Unit Empty → Prop
  | .run j _ c r => StepOk cf.state (watcherAt cf.watchers) j c r
  | _ => True

def Holds (W : Nat → Option Watcher) (i : Nat) (k : String) : Prop := ∃ w, W i = some w ∧ k ∈ w.held
def Dirty (W : Nat → Option Watcher) (i : Nat) (k : String) : Prop := ∃ w, W i = some w ∧ k ∈ w.dirty
def Stands (w : Watcher) (s : State) (k : String) : Prop := (∀ v, (k,v) ∉ w.snaps) ∨ (k,s.versions k) ∈ w.snaps

structure Inv (s : State) (W : Nat → Option Watcher) : Prop where
  locks : ∀ k i, s.locks k = some i ↔ Holds W i k
  started : ∀ i k, W i = none → since i k s.trace = none
  bound : ∀ i w k v, W i = some w → (k,v) ∈ w.snaps → v ≤ s.versions k
  /-- Whoever else has changed a table whose version still stands holds its lock and has not
  bumped it yet. -/
  pending : ∀ i w k l j, W i = some w → since i k s.trace = some l → j ∈ l → j ≠ i → Stands w s k →
    s.locks k = some j ∧ Dirty W j k
  verified : ∀ i w k, W i = some w → k ∈ w.verified →
    k ∈ w.held ∧ ∀ l, since i k s.trace = some l → ∀ j ∈ l, j = i
  serial : Serial s.trace

def setWatcher (W : Nat → Option Watcher) (i : Nat) (w : Watcher) (j : Nat) : Option Watcher :=
  if j = i then some w else W j

variable {s s' : State} {W : Nat → Option Watcher} {i : Nat} {w w' : Watcher}
theorem setWatcher_cases {v : Watcher} (h : setWatcher W i w' j = some v) : (j = i ∧ v = w') ∨
    (j ≠ i ∧ W j = some v) := by
  unfold setWatcher at h
  split at h
  · exact .inl ⟨‹_›,by simpa using h.symm⟩
  · exact .inr ⟨‹_›,h⟩

@[simp] theorem setWatcher_self : setWatcher W i w' i = some w' := if_pos rfl
theorem setWatcher_ne (h : j ≠ i) : setWatcher W i w' j = W j := if_neg h

theorem setWatcher_none (h : setWatcher W i w' j = none) : j ≠ i ∧ W j = none := by
  unfold setWatcher at h
  split at h
  · cases h
  · exact ⟨‹_›,h⟩

theorem holds_self : Holds (setWatcher W i w') i k ↔ k ∈ w'.held := by simp [Holds]
theorem holds_ne (h : j ≠ i) : Holds (setWatcher W i w') j k ↔ Holds W j k := by simp [Holds,setWatcher_ne h]

theorem holds_kept (hw : W i = some w) (hheld : w'.held = w.held) : Holds (setWatcher W i w') j k ↔ Holds W j k := by
  by_cases hj : j = i
  · subst hj
    simp [Holds,hw,hheld]
  · exact holds_ne hj

theorem dirty_ne (h : j ≠ i) (hd : Dirty W j k) : Dirty (setWatcher W i w') j k := by
  obtain ⟨v,hv,hk⟩ := hd
  exact ⟨v,by rw [setWatcher_ne h,hv],hk⟩

theorem dirty_sub (hw : W i = some w) (hsub : k ∈ w.dirty → k ∈ w'.dirty)
    (hd : Dirty W j k) : Dirty (setWatcher W i w') j k := by
  by_cases hj : j = i
  · subst hj
    obtain ⟨v,hv,hk⟩ := hd
    cases hw.symm.trans hv
    exact ⟨w',setWatcher_self,hsub hk⟩
  · exact dirty_ne hj hd

theorem since_change (j i : Nat) (k k' : String) (t : Trace) :
    since j k' (t++[(i,.change k)]) = if k = k' then (since j k' t).map (·++[i]) else since j k' t := by
  rw [since_append]
  rfl

section
variable (h : Inv s W) (hw : W i = some w)
include h hw
theorem Inv.observe (hlocks : s'.locks = s.locks)
    (hversions : s'.versions = s.versions) (hheld : w'.held = w.held) (hdirty : w'.dirty = w.dirty)
    (hother : ∀ j k, j ≠ i → since j k s'.trace = since j k s.trace)
    (hbound : ∀ k v, (k,v) ∈ w'.snaps → v ≤ s.versions k)
    (hpending : ∀ k l j, since i k s'.trace = some l → j ∈ l → j ≠ i → Stands w' s k → s.locks k =
      some j ∧ Dirty W j k)
    (hverified : ∀ k ∈ w'.verified, k ∈ w.held ∧ ∀ l, since i k s'.trace = some l → ∀ j ∈ l, j = i)
    (hserial : Serial s'.trace) : Inv s' (setWatcher W i w') := by
  have hstands : ∀ v k, Stands v s' k ↔ Stands v s k := fun v k => by simp [Stands,hversions]
  refine ⟨?_,?_,?_,?_,?_,hserial⟩
  · intro k j
    rw [hlocks,h.locks,holds_kept hw hheld]
  · intro j k hj
    have hj := setWatcher_none hj
    rw [hother j k hj.1]
    exact h.started j k hj.2
  · intro j v k x hv hx
    rw [hversions]
    rcases setWatcher_cases hv with ⟨rfl,rfl⟩ | ⟨-,hv⟩
    · exact hbound k x hx
    · exact h.bound j v k x hv hx
  · intro j v k l m hv hl hm hne hs
    rw [hstands] at hs
    rw [hlocks]
    have hres : s.locks k = some m ∧ Dirty W m k := by
      rcases setWatcher_cases hv with ⟨rfl,rfl⟩ | ⟨hj,hv⟩
      · exact hpending k l m hl hm hne hs
      · rw [hother j k hj] at hl
        exact h.pending j v k l m hv hl hm hne hs
    exact ⟨hres.1,dirty_sub hw (fun hk => by rw [hdirty]; exact hk) hres.2⟩
  · intro j v k hv hk
    rcases setWatcher_cases hv with ⟨rfl,rfl⟩ | ⟨hj,hv⟩
    · rw [hheld]
      exact hverified k hk
    · rw [hother j k hj]
      exact h.verified j v k hv hk

theorem Inv.reset (he : e = .begin ∨ e = .finish) :
    Inv (s.log i e) (setWatcher W i { w with snaps := [], verified := [] }) := by
  have hself : ∀ k, since i k (s.log i e).trace = none := by
    rcases he with rfl | rfl
    · simp [log,sinceStep]
    · simp [log,sinceStep]
  refine h.observe hw rfl rfl rfl rfl ?_ (by simp) ?_ (by simp) (h.serial.append ?_)
  · intro j k hj
    rcases he with rfl | rfl
    · simp [log,sinceStep,Ne.symm hj]
    · simp [log,sinceStep,Ne.symm hj]
  · intro k l j hl
    rw [hself] at hl
    cases hl
  · rintro j ks hx
    rcases he with rfl | rfl
    · cases hx
    · cases hx

theorem Inv.access (he : Access k e)
    (hheld : w'.held = w.held) (hdirty : w'.dirty = w.dirty) (hverified : w'.verified = w.verified)
    (hbound : ∀ k v, (k,v) ∈ w'.snaps → v ≤ s.versions k)
    (hstands : ∀ k, Stands w' s k → Stands w s k) : Inv (s.log i e) (setWatcher W i w') := by
  have hself : ∀ k' l, since i k' (s.log i e).trace = some l → ∀ j ∈ l, ∃ l', since i k' s.trace =
    some l' ∧ j ∈ l' := by
    intro k' l hl j hj
    have hl' : (if k = k' then some ((since i k' s.trace).getD []) else since i k' s.trace) = some l := by
      rcases he with rfl | rfl
      · simpa [log,sinceStep] using hl
      · simpa [log,sinceStep] using hl
    cases hs : since i k' s.trace with
    | none =>
      rw [hs] at hl'
      split at hl'
      · cases hl'
        simp at hj
      · cases hl'
    | some l' =>
      rw [hs] at hl'
      have : l' = l := by
        split at hl'
        · simpa using hl'
        · simpa using hl'
      exact ⟨l',rfl,this ▸ hj⟩
  refine h.observe hw rfl rfl hheld hdirty ?_ hbound ?_ ?_ (h.serial.append ?_)
  · intro j k' hj
    rcases he with rfl | rfl
    · simp [log,sinceStep,Ne.symm hj]
    · simp [log,sinceStep,Ne.symm hj]
  · intro k' l j hl hj hne hs
    obtain ⟨l',hl',hj'⟩ := hself k' l hl j hj
    exact h.pending i w k' l' j hw hl' hj' hne (hstands k' hs)
  · intro k' hk'
    rw [hverified] at hk'
    refine ⟨(h.verified i w k' hw hk').1,fun l hl j hj => ?_⟩
    obtain ⟨l',hl',hj'⟩ := hself k' l hl j hj
    exact (h.verified i w k' hw hk').2 l' hl' j hj'
  · rintro j ks hx
    rcases he with rfl | rfl
    · cases hx
    · cases hx

theorem Inv.record (hk : ∀ v, (k,v) ∉ w.snaps) :
    Inv (s.log i (.record k)) (setWatcher W i (w.next (.tableVersion k) (s.versions k))) := by
  refine h.access hw (.inr rfl) rfl rfl rfl ?_ ?_
  · intro k' v hv
    rcases mem_append.1 hv with hv | hv
    · exact h.bound i w k' v hw hv
    · cases mem_singleton.1 hv
      exact Nat.le_refl _
  · intro k' hs
    by_cases hkk : k' = k
    · exact .inl (hkk ▸ hk)
    · simpa [Stands,Watcher.next,hkk] using hs

theorem Inv.check (k : String) : Inv s (setWatcher W i (w.next (.currentVersion k) (s.versions k))) := by
  have hsnaps : (w.next (.currentVersion k) (s.versions k)).snaps = w.snaps := by
    simp only [Watcher.next]
    split <;> rfl
  have hheld : (w.next (.currentVersion k) (s.versions k)).held = w.held := by
    simp only [Watcher.next]
    split <;> rfl
  refine h.observe hw rfl rfl hheld ?_ (fun _ _ _ => rfl) ?_ ?_ ?_ h.serial
  · simp only [Watcher.next]
    split <;> rfl
  · rw [hsnaps]
    exact fun k' v hv => h.bound i w k' v hw hv
  · intro k' l j hl hj hne hs
    refine h.pending i w k' l j hw hl hj hne ?_
    simpa [Stands,hsnaps] using hs
  · intro k' hk'
    simp only [Watcher.next] at hk'
    split at hk'
    · rename_i hc
      rcases mem_cons.1 hk' with rfl | hk'
      · refine ⟨hc.1,fun l hl j hj => ?_⟩
        -- whoever else changed it would hold the lock this session holds
        by_contra hne
        have hlock := (h.pending i w k' l j hw hl hj hne (.inr hc.2)).1
        have hmine := (h.locks k' i).2 ⟨w,hw,hc.1⟩
        rw [hmine] at hlock
        exact hne (by simpa using hlock.symm)
      · exact h.verified i w k' hw hk'
    · exact h.verified i w k' hw hk'

theorem Inv.applied {ks : List String} (hks : ∀ k ∈ ks, k ∈ w.verified) :
    Inv (s.log i (.applied ks)) (setWatcher W i w) := by
  have hsame : ∀ j k, since j k (s.log i (.applied ks)).trace = since j k s.trace := by simp [log,sinceStep]
  refine h.observe hw rfl rfl rfl rfl (fun j k _ => hsame j k) (fun k v hv => h.bound i w k v hw hv) ?_ ?_
    (h.serial.append ?_)
  · intro k l j hl
    rw [hsame] at hl
    exact h.pending i w k l j hw hl
  · intro k hk
    rw [hsame]
    exact h.verified i w k hw hk
  · rintro j ks' hx k hk
    cases hx
    exact (h.verified i w k hw (hks k hk)).2

theorem Inv.setLock {o : Option Nat} (hfree : ∀ j, s.locks k = some j → j = i ∧ k ∉ w.dirty)
    (ho : ∀ j, o = some j ↔ j = i ∧ k ∈ w'.held) (hheld : ∀ k', k' ≠ k → (k' ∈ w'.held ↔ k' ∈ w.held))
    (hsnaps : w'.snaps = w.snaps) (hdirty : w'.dirty = w.dirty)
    (hverified : ∀ k' ∈ w'.verified, k' ∈ w.verified ∧ k' ∈ w'.held) : Inv (s.setLock k o) (setWatcher W i w') := by
  refine ⟨?_,?_,?_,?_,?_,h.serial⟩
  · intro k' j
    simp only [State.setLock]
    by_cases hk : k' = k
    · subst hk
      rw [if_pos rfl,ho]
      by_cases hj : j = i
      · simp [hj,holds_self]
      · rw [holds_ne hj,← h.locks]
        exact ⟨fun hi => absurd hi.1 hj,fun hl => absurd (hfree j hl).1 hj⟩
    · rw [if_neg hk,h.locks]
      by_cases hj : j = i
      · subst hj
        rw [holds_self,hheld k' hk]
        simp [Holds,hw]
      · rw [holds_ne hj]
  · intro j k' hj
    exact h.started j k' (setWatcher_none hj).2
  · intro j v k' x hv hx
    rcases setWatcher_cases hv with ⟨rfl,rfl⟩ | ⟨-,hv⟩
    · exact h.bound j w k' x hw (hsnaps ▸ hx)
    · exact h.bound j v k' x hv hx
  · intro j v k' l m hv hl hm hne hs
    have hres : s.locks k' = some m ∧ Dirty W m k' := by
      rcases setWatcher_cases hv with ⟨rfl,rfl⟩ | ⟨-,hv⟩
      · refine h.pending j w k' l m hw hl hm hne ?_
        simpa [Stands,hsnaps,setLock] using hs
      · exact h.pending j v k' l m hv hl hm hne hs
    have hk : k' ≠ k := by
      rintro rfl
      obtain ⟨rfl,hd⟩ := hfree m hres.1
      obtain ⟨v',hv',hk'⟩ := hres.2
      rw [hw] at hv'
      cases hv'
      exact hd hk'
    refine ⟨?_,dirty_sub hw (fun hk' => by rw [hdirty]; exact hk') hres.2⟩
    simpa [State.setLock,hk] using hres.1
  · intro j v k' hv hk'
    rcases setWatcher_cases hv with ⟨rfl,rfl⟩ | ⟨-,hv⟩
    · exact ⟨(hverified k' hk').2,(h.verified j w k' hw (hverified k' hk').1).2⟩
    · exact h.verified j v k' hv hk'

theorem Inv.lock (hfree : s.locks k = none) : Inv (s.setLock k (some i))
    (setWatcher W i { w with held := k :: w.held }) := by
  refine h.setLock hw (by simp [hfree]) (fun j => by simp [eq_comm])
    (fun k' hk => by simp [hk]) rfl rfl fun k' hk' => ?_
  exact ⟨hk',mem_cons_of_mem _ (h.verified i w k' hw hk').1⟩

theorem Inv.unlock (hlock : s.locks k = some i)
    (hd : k ∉ w.dirty) : Inv (s.setLock k none) (setWatcher W i (w.next (.unlock k) ())) := by
  refine h.setLock hw (by simp [hlock,hd]) (by simp [Watcher.next])
    (fun k' hk => by simp [Watcher.next,hk]) rfl rfl fun k' hk' => ?_
  simp only [Watcher.next,mem_filter,decide_eq_true_eq] at hk' ⊢
  exact ⟨hk'.1,(h.verified i w k' hw hk'.1).1,hk'.2⟩

theorem Inv.bump (hwindow : ∀ j v, j ≠ i → W j = some v → (∀ x, (k,x) ∉ v.snaps) → ∀ l,
      since j k s.trace = some l → i ∉ l) :
    Inv (s.bump k) (setWatcher W i (w.next (.bumpTableVersion k) ())) := by
  have hle : ∀ k', s.versions k' ≤ (s.bump k).versions k' := by
    intro k'
    simp only [State.bump]
    split
    · rename_i hk
      rw [hk]
      omega
    · exact Nat.le_refl _
  refine ⟨?_,?_,?_,?_,?_,h.serial⟩
  · intro k' j
    have hheld : (w.next (.bumpTableVersion k) ()).held = w.held := rfl
    exact (h.locks k' j).trans (holds_kept hw hheld).symm
  · intro j k' hj
    exact h.started j k' (setWatcher_none hj).2
  · intro j v k' x hv hx
    rcases setWatcher_cases hv with ⟨rfl,rfl⟩ | ⟨-,hv⟩
    · exact (h.bound j w k' x hw hx).trans (hle k')
    · exact (h.bound j v k' x hv hx).trans (hle k')
  · intro j v k' l m hv hl hm hne hs
    obtain ⟨u,hu,hsnaps⟩ : ∃ u, W j = some u ∧ v.snaps = u.snaps := by
      rcases setWatcher_cases hv with ⟨rfl,rfl⟩ | ⟨-,hv⟩
      · exact ⟨w,hw,rfl⟩
      · exact ⟨v,hv,rfl⟩
    by_cases hk : k' = k
    · subst hk
      -- a recorded version no longer stands
      have hun : ∀ x, (k',x) ∉ u.snaps := by
        rcases hs with hs | hs
        · rwa [hsnaps] at hs
        · rw [hsnaps] at hs
          have := h.bound j u k' _ hu hs
          simp only [bump,if_true] at this
          omega
      have hres := h.pending j u k' l m hu hl hm hne (.inl hun)
      refine ⟨hres.1,dirty_ne ?_ hres.2⟩
      rintro rfl
      exact hwindow j u (Ne.symm hne) hu hun l hl hm
    · have hstands : Stands u s k' := by simpa [Stands,State.bump,hk,hsnaps] using hs
      have hres := h.pending j u k' l m hu hl hm hne hstands
      refine ⟨hres.1,dirty_sub hw (fun hd => ?_) hres.2⟩
      simpa [Watcher.next,hk] using hd
  · intro j v k' hv hk'
    rcases setWatcher_cases hv with ⟨rfl,rfl⟩ | ⟨-,hv⟩
    · exact h.verified j w k' hw hk'
    · exact h.verified j v k' hv hk'

theorem Inv.mutate {via : Via} {o : Outcome} (hvia : via = .immediate → k ∈ w.held)
    (hchange : o.changed = true → (via = .immediate ∧ o.ok = true) ∨ Unwatched s.trace i k)
    (hfail : o.ok = false → ∀ k' ∈ w.dirty, Unseen s.trace i k') :
    Inv (if o.changed then s.log i (.change k) else s) (setWatcher W i (w.next (.mutate via k) o)) := by
  have hs' : ∃ s', (if o.changed then s.log i (.change k) else s) = s' ∧ s'.locks = s.locks ∧
      s'.versions = s.versions ∧ Serial s'.trace ∧ ∀ j k' l', since j k' s'.trace = some l' →
        ∃ l, since j k' s.trace = some l ∧ ∀ m ∈ l', m ∈ l ∨ (m = i ∧ k' = k ∧ o.changed = true) := by
    refine ⟨_,rfl,?_⟩
    cases ho : o.changed with
    | false => exact ⟨rfl,rfl,h.serial,fun j k' l hl => ⟨l,hl,fun m hm => .inl hm⟩⟩
    | true =>
      refine ⟨rfl,rfl,h.serial.append (by rintro j ks ⟨⟩),fun j k' l' hl' => ?_⟩
      have hl' : (if k = k' then (since j k' s.trace).map (·++[i]) else since j k' s.trace) = some l' := by
        rw [← since_change]
        exact hl'
      split at hl'
      · rename_i hk
        obtain ⟨l,hl,rfl⟩ := map_eq_some_iff.1 hl'
        refine ⟨l,hl,fun m hm => ?_⟩
        rcases mem_append.1 hm with hm | hm
        · exact .inl hm
        · exact .inr ⟨mem_singleton.1 hm,hk.symm,rfl⟩
      · exact ⟨l',hl',fun m hm => .inl hm⟩
  obtain ⟨s',hse,hlocks,hversions,hserial,hsince⟩ := hs'
  rw [hse]
  have hheld : (w.next (.mutate via k) o).held = w.held := by
    simp only [Watcher.next]
    split <;> rfl
  have hsnaps : (w.next (.mutate via k) o).snaps = w.snaps := by
    simp only [Watcher.next]
    split <;> rfl
  have hverified : (w.next (.mutate via k) o).verified = w.verified := by
    simp only [Watcher.next]
    split <;> rfl
  have hold : ∀ j v, setWatcher W i (w.next (.mutate via k) o) j = some v →
      ∃ u, W j = some u ∧ v.snaps = u.snaps ∧ v.held = u.held ∧ v.verified = u.verified := by
    intro j v hv
    rcases setWatcher_cases hv with ⟨rfl,rfl⟩ | ⟨-,hv⟩
    · exact ⟨w,hw,hsnaps,hheld,hverified⟩
    · exact ⟨v,hv,rfl,rfl,rfl⟩
  -- somebody else's transaction is watching, so the call holds the lock and succeeds
  have hguarded : ∀ j l, j ≠ i → o.changed = true → since j k s.trace = some l → k ∈ w.held ∧ via =
    .immediate ∧ o.ok = true := by
    intro j l hj ho hl
    rcases hchange ho with hc | hc
    · exact ⟨hvia hc.1,hc⟩
    · rw [hc j hj] at hl
      cases hl
  refine ⟨?_,?_,?_,?_,?_,hserial⟩
  · intro k' j
    rw [hlocks]
    exact (h.locks k' j).trans (holds_kept hw hheld).symm
  · intro j k' hj
    cases hl : since j k' s'.trace with
    | none => rfl
    | some l' =>
      obtain ⟨l,hl,-⟩ := hsince j k' l' hl
      rw [h.started j k' (setWatcher_none hj).2] at hl
      cases hl
  · intro j v k' x hv hx
    obtain ⟨u,hu,hsn,-,-⟩ := hold j v hv
    rw [hsn] at hx
    rw [hversions]
    exact h.bound j u k' x hu hx
  · intro j v k' l' m hv hl' hm hne hst
    obtain ⟨u,hu,hsn,-,-⟩ := hold j v hv
    obtain ⟨l,hl,hmem⟩ := hsince j k' l' hl'
    rcases hmem m hm with hm | ⟨rfl,rfl,ho⟩
    · have hst' : Stands u s k' := by simpa [Stands,hversions,hsn] using hst
      have hres := h.pending j u k' l m hu hl hm hne hst'
      rw [hlocks]
      refine ⟨hres.1,?_⟩
      by_cases hmi : m = i
      · subst hmi
        obtain ⟨u',hu',hd⟩ := hres.2
        cases hw.symm.trans hu'
        cases hok : o.ok with
        | false => exact absurd hm (hfail hok k' hd j (Ne.symm hne) l hl)
        | true =>
          refine ⟨_,setWatcher_self,?_⟩
          simp only [Watcher.next,hok,if_true]
          split
          · exact mem_cons_of_mem _ hd
          · exact hd
      · exact dirty_ne hmi hres.2
    · obtain ⟨hk,hvi,hok⟩ := hguarded j l (Ne.symm hne) ho hl
      rw [hlocks]
      refine ⟨(h.locks k' m).2 ⟨w,hw,hk⟩,_,setWatcher_self,?_⟩
      simp [Watcher.next,hok,hvi,ho]
  · intro j v k' hv hk'
    obtain ⟨u,hu,-,hhe,hve⟩ := hold j v hv
    rw [hve] at hk'
    have hver := h.verified j u k' hu hk'
    refine ⟨by rw [hhe]; exact hver.1,fun l' hl' m hm => ?_⟩
    obtain ⟨l,hl,hmem⟩ := hsince j k' l' hl'
    rcases hmem m hm with hm | ⟨rfl,rfl,ho⟩
    · exact hver.2 l hl m hm
    · by_contra hne
      have hmine := (h.locks k' j).2 ⟨u,hu,hver.1⟩
      have hother := (h.locks k' m).2 ⟨w,hw,(hguarded j l (Ne.symm hne) ho hl).1⟩
      rw [hmine] at hother
      exact hne (by simpa using hother.symm)
end

theorem watcherAt_eq (h : ws[i]? = some (u,w)) : watcherAt ws i = some w := by simp [watcherAt,h]

theorem of_watcherAt (h : watcherAt ws i = some w) : ws[i]? = some ((),w) := by
  obtain ⟨⟨u,v⟩,hv,rfl⟩ := map_eq_some_iff.1 h
  exact hv

theorem watcherAt_set (h : ws[i]? = some (u,w)) : watcherAt (ws.set i (u,w')) = setWatcher (watcherAt ws) i w' := by
  funext j
  obtain ⟨hi,-⟩ := List.getElem?_eq_some_iff.1 h
  unfold watcherAt setWatcher
  by_cases hj : j = i
  · subst hj
    simp [hi]
  · simp [hj,getElem?_set_ne (Ne.symm hj)]

theorem watcherAt_append : watcherAt (ws++[((),({} : Watcher))]) = setWatcher (watcherAt ws) ws.length {} := by
  funext j
  unfold watcherAt setWatcher
  rcases Nat.lt_trichotomy j ws.length with hj | hj | hj
  · simp [getElem?_append_left hj,Nat.ne_of_lt hj]
  · simp [hj]
  · have hout : (ws++[((),({} : Watcher))])[j]? = none := getElem?_eq_none (by simp; omega)
    have hws : ws[j]? = none := getElem?_eq_none (by omega)
    simp [hout,hws,Nat.ne_of_gt hj]

theorem Inv.spawn {n : Nat} (h : Inv s W) (hn : W n = none) : Inv s (setWatcher W n {}) := by
  refine ⟨?_,?_,?_,?_,?_,h.serial⟩
  · intro k j
    by_cases hj : j = n
    · subst hj
      rw [holds_self,h.locks]
      simp [Holds,hn]
    · rw [holds_ne hj]
      exact h.locks k j
  · intro j k hj
    exact h.started j k (setWatcher_none hj).2
  · intro j v k x hv hx
    rcases setWatcher_cases hv with ⟨rfl,rfl⟩ | ⟨-,hv⟩
    · simp at hx
    · exact h.bound j v k x hv hx
  · intro j v k l m hv hl hm hne hs
    rcases setWatcher_cases hv with ⟨rfl,rfl⟩ | ⟨-,hv⟩
    · rw [h.started j k hn] at hl
      cases hl
    · have hres := h.pending j v k l m hv hl hm hne hs
      refine ⟨hres.1,dirty_ne ?_ hres.2⟩
      rintro rfl
      obtain ⟨u,hu,-⟩ := hres.2
      rw [hn] at hu
      cases hu
  · intro j v k hv hk
    rcases setWatcher_cases hv with ⟨rfl,rfl⟩ | ⟨-,hv⟩
    · simp at hk
    · exact h.verified j v k hv hk

theorem Inv.run {r : c.Res} (h : Inv s (watcherAt ws))
    (hi : ws[i]? = some ((),w)) (hallowed : w.allowed c) (hex : s.answer i c r = some s')
    (hok : StepOk s (watcherAt ws) i c r) : Inv s' (watcherAt (ws.set i ((),w.next c r))) := by
  rw [watcherAt_set hi]
  have hw := watcherAt_eq hi
  have hsame : Inv s (setWatcher (watcherAt ws) i w) := by
    have heq : setWatcher (watcherAt ws) i w = watcherAt ws := by
      funext j
      unfold setWatcher
      split
      · rename_i hj
        rw [hj,hw]
      · rfl
    rw [heq]
    exact h
  cases c with
  | begin =>
    cases hex
    exact h.reset hw (.inl rfl)
  | finish =>
    cases hex
    exact h.reset hw (.inr rfl)
  | read k =>
    cases hex
    exact h.access hw (.inl rfl) rfl rfl rfl (fun k v hv => h.bound i w k v hw hv) fun _ hs => hs
  | tableVersion k =>
    simp only [answer] at hex
    split at hex
    · rename_i hr
      cases hex
      rw [hr]
      exact h.record hw hallowed
    · cases hex
  | currentVersion k =>
    simp only [answer] at hex
    split at hex
    · rename_i hr
      cases hex
      rw [hr]
      exact h.check hw k
    · cases hex
  | lock k =>
    simp only [answer] at hex
    split at hex
    · rename_i hfree
      cases hex
      exact h.lock hw hfree
    · cases hex
  | unlock k =>
    simp only [answer] at hex
    split at hex
    · rename_i hlock
      cases hex
      exact h.unlock hw hlock hallowed
    · cases hex
  | bumpTableVersion k =>
    cases hex
    exact h.bump hw fun j v hj hv hun l hl => hok j v hj hv hun l hl
  | mutate via k =>
    cases hex
    refine h.mutate hw (fun hvia => ?_) hok.1 fun ho k' hk' => hok.2 ho w hw k' hk'
    subst hvia
    exact hallowed
  | applied ks =>
    cases hex
    exact h.applied hw hallowed
  | hasCycle =>
    cases hex
    exact hsame
  | readOps =>
    cases hex
    exact hsame
  | walCommit =>
    cases hex
    exact hsame
end

/-- A transaction that is applied has had every table of its snapshot to itself from its first
access on, in every run whose storage calls keep the discipline. -/
theorem commit_serial (triggers : OpType → String → List Dml) {s₀ : State} (hlocks : ∀ k, s₀.locks k = none)
    (htrace : s₀.trace = []) {cf : OccConfig} (h : (occMachine triggers).Reach Disciplined s₀ cf)
    {i : Nat} {k : String} {ks : List String} {e : TraceEvent} {pre mid post : Trace}
    (ht : cf.state.trace = pre++(i, e) :: mid++(i, .applied ks) :: post) (he : Access k e) (hk : k ∈ ks)
    (hb : (i, .begin) ∉ mid) (hf : (i, .finish) ∉ mid) : ∀ j, (j, .change k) ∈ mid → j = i := by
  have hstart : ∀ t p, (occMachine triggers).start t p →
      Follows (occMachine triggers).protocol (occMachine triggers).fresh p fun _ _ => True := by
    rintro _ p ⟨stmts,rfl⟩
    exact follows_runStatements triggers (quiet_none rfl) stmts
  have hinit : Inv s₀ (watcherAt []) := by
    refine ⟨fun k i => ?_,fun i k _ => ?_,nofun,nofun,nofun,?_⟩
    · simp [hlocks,Holds,watcherAt]
    · rw [htrace]
      rfl
    · intro i k ks e pre mid post ht
      rw [htrace] at ht
      simp at ht
  have hinv := (Machine.Reach.inv hstart (fun s ws => Inv s (watcherAt ws)) hinit ?_ ?_ ?_ h).1
  · exact hinv.serial i k ks e pre mid post ht he hk hb hf
  · intro cf _ p hJ _ _
    show Inv cf.state (watcherAt (cf.watchers++[((),({} : Watcher))]))
    rw [watcherAt_append]
    exact hJ.spawn (by simp [watcherAt])
  · intro cf i _ w c r s hJ hi hallowed hex hok
    exact hJ.run hi hallowed hex hok
  · intro cf e
    exact e.elim

def State.proceed (i : Nat) (s : State) (c : Cmd) : Option (c.Res × State) :=
  let r : c.Res := match c with
    | .tableVersion k => s.versions k
    | .currentVersion k => s.versions k
    | .mutate _ _ => ⟨true,true⟩
    | .hasCycle => false
    | .readOps => true
    | .walCommit => true
    | .begin | .finish | .read _ | .lock _ | .unlock _ | .bumpTableVersion _ | .applied _ => ()
  (s.answer i c r).map fun s' => (r,s')

theorem State.proceed_answer {s : State} {x : c.Res × State} (h : s.proceed i c = some x) :
    s.answer i c x.1 = some x.2 := by
  obtain ⟨s',hs',rfl⟩ := map_eq_some_iff.1 h
  exact hs'

def sessions (ss : List (List Statement)) : List (Thread Cmd Cmd.Res Watcher Unit) :=
  (occMachine fun _ _ => []).starting (ss.map fun stmts => ((),runStatements (fun _ _ => []) none stmts))

theorem reach_sessions (hok : ∀ cf t p, Ok cf (.spawn t p)) (s0 : State) (ss : List (List Statement)) :
    (occMachine fun _ _ => []).Reach Ok s0 ⟨s0,sessions ss⟩ := by
  refine Machine.Reach.spawned hok .init fun x hx => ?_
  obtain ⟨stmts,-,rfl⟩ := mem_map.1 hx
  exact ⟨stmts,rfl⟩

theorem reach_proceed {triggers : OpType → String → List Dml}
    {check : OccConfig → Event Cmd Cmd.Res Unit Empty → Bool} (hok : ∀ cf ev, check cf ev = true → Ok cf ev)
    {s0 : State} {is : List Nat} {cf' : OccConfig} (h : (occMachine triggers).Reach Ok s0 cf)
    (hp : (occMachine triggers).play (fun i _ s c => s.proceed i c) check cf is = some cf') :
    (occMachine triggers).Reach Ok s0 cf' := by
  refine Machine.Reach.play (fun i t s c x hx => ?_) hok h hp
  exact proceed_answer hx

def insertTx (k : String) : List Statement := [.begin,.dml (.insert true ⟨.insert,⟨k,[k],true⟩,1⟩),.commit]
def insertAlone (single : Bool) (k : String) : List Statement := [.dml (.insert single ⟨.insert,⟨k,[k],true⟩,1⟩)]

def stepCheck (cf : OccConfig) : Event Cmd Cmd.Res Unit Empty → Bool
  | .run _ _ (.mutate via _) o => via = .immediate && o.ok
  | .run j _ (.bumpTableVersion k) _ => (List.range cf.threads.length).all fun i =>
      i == j || (since i k cf.state.trace).all fun l => !l.contains j
  | _ => true

theorem disciplined_of_stepCheck {ev : Event Cmd Cmd.Res Unit Empty} (h : stepCheck cf ev = true) :
    Disciplined cf ev := by
  cases ev with
  | spawn => trivial
  | env => trivial
  | run j u c r =>
    cases c with
    | mutate via k =>
      simp only [stepCheck,Bool.and_eq_true,decide_eq_true_eq] at h
      exact ⟨fun _ => .inl h,fun ho => by simp [h.2] at ho⟩
    | bumpTableVersion k =>
      intro i w hij hw _ l hl
      simp only [stepCheck,List.all_eq_true,List.mem_range,Bool.or_eq_true,beq_iff_eq] at h
      have hi : i < cf.threads.length := by
        have := List.getElem?_eq_some_iff.1 (of_watcherAt hw)
        simpa [Config.watchers] using this.1
      have := (h i hi).resolve_left hij
      simpa [hl] using this
    | _ => trivial

/-- A transaction of one session, within which another session inserts into the table before the
first access and into another table after it. -/
theorem commit_serial_insert : ∃ cf, (occMachine fun _ _ => []).Reach Disciplined {} cf ∧
    cf.state.trace = [(0, .begin), (1, .change "app/t")]++(0, .record "app/t") ::
      [(1, .change "app/u"), (0, .change "app/t")]++(0, .applied ["app/t"]) :: [] ∧
    ∀ j, (j, .change "app/t") ∈ [(1, TraceEvent.change "app/u"), (0, .change "app/t")] → j = 0 := by
  have hplay : ((occMachine fun _ _ => []).play (fun i _ s c => s.proceed i c) stepCheck
      ⟨{},sessions [insertTx "app/t",insertAlone false "app/t"++insertAlone false "app/u"]⟩
      [0,1,1,1,1,0,0,0,1,1,1,1,0,0,0,0,0,0]).map (fun cf => cf.state.trace) =
      some ([(0,.begin),(1,.change "app/t")]++(0,.record "app/t") ::
        [(1,.change "app/u"),(0,.change "app/t")]++(0,.applied ["app/t"]) :: []) := by
    decide +kernel
  obtain ⟨cf,hcf,ht⟩ := map_eq_some_iff.1 hplay
  have hreach : (occMachine fun _ _ => []).Reach Disciplined {} cf :=
    reach_proceed (fun _ _ => disciplined_of_stepCheck) (reach_sessions (fun _ _ _ => trivial) _ _) hcf
  exact ⟨cf,hreach,ht,commit_serial _ (fun _ => rfl) rfl hreach ht (.inr rfl) (by decide) (by decide) (by decide)⟩

/-- A fast-path INSERT of another session between `Commit`'s check and the end of applying. -/
theorem fastPath_during_commit : ∃ cf, (occMachine fun _ _ => []).Reach (fun _ _ => True) {} cf ∧
    cf.state.trace = [(0, .begin), (0, .record "app/t"), (1, .change "app/t"), (0, .change "app/t"),
      (0, .applied ["app/t"]), (0, .finish)] := by
  have hplay : ((occMachine fun _ _ => []).play (fun i _ s c => s.proceed i c) (fun _ _ => true)
      ⟨{},sessions [insertTx "app/t",insertAlone true "app/t"]⟩ [0,0,0,0,0,0,0,1,0,0,0,0,0,0]).map
        (fun cf => cf.state.trace) =
      some [(0,.begin),(0,.record "app/t"),(1,.change "app/t"),(0,.change "app/t"),
        (0,.applied ["app/t"]),(0,.finish)] := by
    decide +kernel
  obtain ⟨cf,hcf,ht⟩ := map_eq_some_iff.1 hplay
  have hreach : (occMachine fun _ _ => []).Reach (fun _ _ => True) {} cf :=
    reach_proceed (fun _ _ _ => trivial) (reach_sessions (fun _ _ _ => trivial) _ _) hcf
  exact ⟨cf,hreach,ht⟩

end VaultDB.Tx
