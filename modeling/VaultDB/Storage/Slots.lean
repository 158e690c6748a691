import VaultDB.Storage.History
set_option autoImplicit false

/-!
Slots are never lost or reused: what a record names is on its page, and an insert about to be logged
has its slot to itself.
-/

namespace VaultDB.Storage
open Wal Lib Engine List Option
variable {k' : TableKey} {pid : PageID} {loc : PageSlot} {e : EnvEvent}
def Clean (s : Engine) (ws : List (TableKey × Watcher)) : Prop :=
  ∀ k pid f, s.frame k pid = some f → f.dirty = false → s.diskPage k pid = some f.page ∨
    ∃ (i : Nat) (g : Watcher), ws[i]? = some (k,g) ∧ g.pin = some pid ∧ g.changed = true

variable {g' : Watcher}
section
variable {s s' : Engine} {i : Nat} {k : TableKey} {g : Watcher} {c : Cmd} {r : c.Res}
section
variable (h : s.Effect i k c r s')
include h
theorem Engine.Effect.unlockedFrame (hi : ThreadOk s i k g) (ha : g.allowed c)
    (hl : g.locked = false) (k' : TableKey) (pid : PageID) :
    s'.frame k' pid = s.frame k' pid ∧ s'.diskPage k' pid = s.diskPage k' pid := by
  obtain ⟨-,hpin,hpend⟩ := hi.holdsNothing hl
  cases h with
  | still _ hf | absent _ _ hf | log _ _ hf | logFail _ hf => exact ⟨hf.frame k' pid,hf.disk k' pid⟩
  | fetch | allocate | clear => simp [ha.1] at hl
  | insert | unpin | unpinDirty => exact absurd ha.1 (by simp [hpin])
  | hot =>
    obtain ⟨-,t,ht⟩ := ha
    simp [hpend] at ht
  | stamp => simp [ha.2.1] at hl

theorem Engine.Effect.pinnedByOther (hi : ThreadOk s i k g) (ha : g.allowed c)
    {j : Nat} (hj : ThreadOk s j k' g') (hne : j ≠ i) (hp : g'.pin = some pid) :
    s'.frame k' pid = s.frame k' pid ∧ s'.diskPage k' pid = s.diskPage k' pid := by
  by_cases hk : k' = k
  · subst hk
    refine h.unlockedFrame hi ha ?_ k' pid
    by_contra hl
    exact hne (hj.lock_unique hi (hj.pin pid hp).1 (by simpa using hl))
  · exact h.otherFrame hk pid

theorem Engine.Effect.frame_kept (hf : s.frame k' pid ≠ none) : s'.frame k' pid ≠ none := by
  cases h with
  | still _ hs | absent _ _ hs | log _ _ hs | logFail _ hs => rwa [hs.frame]
  | fetch hs =>
    rw [hs.frame]
    split <;> simp_all
  | allocate hd hn hor hs =>
    rw [hs]
    split
    · rename_i hk
      rw [hk.1,hk.2] at hf
      exact absurd hn hf
    · exact hf
  | insert _ _ hs | hot _ hs | unpin _ hs | unpinDirty _ hs =>
    rw [hs.frame]
    split <;> simp_all
  | stamp _ _ _ _ hs | clear _ _ _ _ hs =>
    rw [hs.frame]
    split <;> simp_all

theorem Engine.Effect.mem_kept (hm : s.mem k' loc ≠ none) : s'.mem k' loc ≠ none := by
  by_cases hk : k' = k
  · subst hk
    have hs := h.slot loc
    generalize s.mem k' loc = o at hs hm
    generalize s'.mem k' loc = o' at hs
    cases hs with
    | same => exact hm
    | insert | hot | stamp | clear => simp
  · rwa [h.otherMem hk]
end

theorem Engine.EnvEffect.diskPage (h : s.EnvEffect e s') (k : TableKey) (pid : PageID) :
    s'.diskPage k pid = s.diskPage k pid ∨
      ∃ f, s.frame k pid = some f ∧ s'.diskPage k pid = some f.page ∧
        (e = .flushPage k pid ∨ f.pins = [] ∧ s'.synced = s.wal.length) := by
  cases h with
  | sync hf => exact .inl (hf.disk k pid)
  | @flush k0 pid0 f _ hfr hd hf hdisk =>
    by_cases hk : k = k0 ∧ pid = pid0
    · obtain ⟨rfl,rfl⟩ := hk
      exact .inr ⟨f,hfr,by rw [hdisk,if_pos ⟨rfl,rfl⟩],.inl rfl⟩
    · rw [hdisk,if_neg hk]
      exact .inl rfl
  | drop hfr hp hd hf hdisk => exact .inl (hdisk k pid)
  | @evict k0 pid0 f _ hfr hp hd hf hdisk _ hsync =>
    by_cases hk : k = k0 ∧ pid = pid0
    · obtain ⟨rfl,rfl⟩ := hk
      exact .inr ⟨f,hfr,by rw [hdisk,if_pos ⟨rfl,rfl⟩],.inr ⟨hp,hsync⟩⟩
    · rw [hdisk,if_neg hk]
      exact .inl rfl

theorem Engine.EnvEffect.wal (h : s.EnvEffect e s') : s'.wal = s.wal := by
  cases h with
  | sync _ hw => exact hw
  | flush _ _ _ _ hw => exact hw
  | drop _ _ _ _ _ hw | evict _ _ _ _ _ hw => exact hw

theorem Engine.EnvEffect.synced (h : s.EnvEffect e s') (hle : s.synced ≤ s.wal.length) :
    s.synced ≤ s'.synced ∧ s'.synced ≤ s.wal.length := by
  cases h with
  | sync _ _ hn hlo hhi => exact ⟨hn ▸ hlo,hn ▸ hhi⟩
  | flush _ _ _ _ _ hs => exact ⟨Nat.le_of_eq hs.symm,hs ▸ hle⟩
  | drop _ _ _ _ _ _ hs => exact ⟨Nat.le_of_eq hs.symm,hs ▸ hle⟩
  | evict _ _ _ _ _ _ hs => exact ⟨hs ▸ hle,Nat.le_of_eq hs⟩
end

theorem getElem?_set_other {ws : List (TableKey × Watcher)} {i j : Nat} {k : TableKey} {g : Watcher}
    (hij : j ≠ i) (h : ws[j]? = some (k',g')) : (ws.set i (k,g))[j]? = some (k',g') := by
  rwa [getElem?_set_ne (Ne.symm hij)]

namespace Clean
variable {s s' : Engine} {ws : List (TableKey × Watcher)} {i : Nat} {k : TableKey} {g : Watcher}
    {c : Cmd} {r : c.Res}
theorem changed_next (hf : ¬ c.Failed r) (hu : c.pinned r = none ∨ ∃ pid t, c = .insertTuple pid t)
    (hpin : g.pin ≠ none) (ha : g.allowed c) (hp : g.pin = some pid) (hc : g.changed = true) :
    (g.next c r).pin = some pid ∧ (g.next c r).changed = true := by
  cases c with
  | fetchPage => exact absurd ha.2 hpin
  | allocatePage => exact absurd ha.2.1 hpin
  | insertTuple => cases r <;> exact ⟨hp,by first | exact hc | rfl⟩
  | setHOTUpdated | unpinPage | unpinPageDirty =>
    rcases hu with hu | ⟨_,_,hu⟩
    · cases hu
    · cases hu
  | putXMax | clearXMax => cases r <;> exact ⟨hp,hc⟩
  | logInsert | logDelete | logCommit =>
    cases r with
    | none => exact absurd rfl hf
    | some lsn => exact ⟨hp,hc⟩
  | _ => exact ⟨hp,hc⟩

theorem pin_of_pinned (hi : ThreadOk s i k g) (ha : g.allowed c) (hp : c.pinned r = some pid) :
    g.pin = some pid := by
  cases c with
  | insertTuple pid' t =>
    cases r with
    | none => cases hp
    | some slot =>
      cases hp
      exact ha.1
  | setHOTUpdated loc n =>
    cases hp
    obtain ⟨-,t,ht⟩ := ha
    exact (hi.pend _ ht).1
  | unpinPage | unpinPageDirty =>
    cases hp
    exact ha.1
  | _ => cases hp

section
variable (h : Clean s ws)
include h
theorem run (hst : Steady s ws) (hw : ws[i]? = some (k,g)) (ha : g.allowed c)
    (hf : ¬ c.Failed r) (he : s.Effect i k c r s') : Clean s' (ws.set i (k,g.next c r)) := by
  have hi := hst.thread i k g hw
  have hlt := (List.getElem?_eq_some_iff.1 hw).1
  have hget : (ws.set i (k,g.next c r))[i]? = some (k,g.next c r) := by rw [getElem?_set_self hlt]
  -- a page that is as before and that the acting thread is not changing
  have hother : ∀ k' pid f, s.frame k' pid = some f → s'.diskPage k' pid = s.diskPage k' pid → f.dirty = false →
      ¬ (k' = k ∧ g.pin = some pid ∧ g.changed = true) → s'.diskPage k' pid = some f.page ∨
        ∃ (j : Nat) (g' : Watcher),
          (ws.set i (k,g.next c r))[j]? = some (k',g') ∧ g'.pin = some pid ∧ g'.changed = true := by
    intro k' pid f hfr hd hdirty hnot
    rw [hd]
    refine (h k' pid f hfr hdirty).imp_right ?_
    rintro ⟨j,g',hj,hp,hc⟩
    by_cases hij : j = i
    · rw [hij] at hj
      obtain ⟨hk,hg⟩ := Prod.mk.inj (some.inj (hw.symm.trans hj))
      exact absurd ⟨hk.symm,hg ▸ hp,hg ▸ hc⟩ hnot
    · exact ⟨j,g',getElem?_set_other hij hj,hp,hc⟩
  -- or that it goes on changing
  have hkeep : (∀ pid, g.pin = some pid → g.changed = true → (g.next c r).pin = some pid ∧
    (g.next c r).changed = true) →
      ∀ k' pid f, s.frame k' pid = some f → s'.diskPage k' pid = s.diskPage k' pid → f.dirty = false →
        s'.diskPage k' pid = some f.page ∨ ∃ (j : Nat) (g' : Watcher),
          (ws.set i (k,g.next c r))[j]? = some (k',g') ∧ g'.pin = some pid ∧ g'.changed = true := by
    intro hmark k' pid f hfr hd hdirty
    by_cases hacting : k' = k ∧ g.pin = some pid ∧ g.changed = true
    · obtain ⟨rfl,hp,hc⟩ := hacting
      exact .inr ⟨i,_,hget,hmark pid hp hc⟩
    · exact hother k' pid f hfr hd hdirty hacting
  have hmark : c.pinned r = none → ∀ pid, g.pin = some pid → g.changed = true →
      (g.next c r).pin = some pid ∧ (g.next c r).changed = true := fun hu pid hp hc =>
    changed_next hf (.inl hu) (by simp [hp]) ha hp hc
  intro k' pid f hfr hd
  cases he with
  | still hs hsf =>
    rw [hsf.frame] at hfr
    refine hkeep (fun pid hp hc => ?_) k' pid f hfr (hsf.disk k' pid) hd
    cases c with
    | insertTuple => exact changed_next hf (.inr ⟨_,_,rfl⟩) (by simp [hp]) ha hp hc
    | setHOTUpdated | unpinPage | unpinPageDirty => cases hs
    | _ => exact hmark rfl pid hp hc
  | absent hpn hn hsf =>
    rw [hsf.frame] at hfr
    refine hother k' pid f hfr (hsf.disk k' pid) hd ?_
    rintro ⟨rfl,hp,-⟩
    rw [← some.inj (hp.symm.trans (pin_of_pinned hi ha hpn)),hfr] at hn
    cases hn
  | log hc _ hsf =>
    rw [hsf.frame] at hfr
    refine hkeep (hmark ?_) k' pid f hfr (hsf.disk k' pid) hd
    cases c with
    | logInsert | logDelete | logCommit => rfl
    | _ => cases hc
  | logFail hc => exact absurd hc hf
  | fetch hfs hp hmem hold hnew =>
    rw [hfs.frame] at hfr
    split at hfr
    · rename_i hk
      obtain ⟨rfl,rfl⟩ := hk
      obtain rfl := some.inj hfr
      cases hfr0 : s.frame k' pid with
      | none =>
        rw [hfs.disk]
        exact .inl (hnew hfr0).2
      | some f1 =>
        rw [page_of_frame hfr0] at hp
        rw [← some.inj hp]
        exact hkeep (hmark rfl) k' pid f1 hfr0 (hfs.disk k' pid) ((hold f1 hfr0).1.symm.trans hd)
    · exact hkeep (hmark rfl) k' pid f hfr (hfs.disk k' pid) hd
  | allocate hd0 hn hor hfs hds =>
    rw [hfs] at hfr
    split at hfr
    · rcases hor with rfl | rfl
      · cases hfr
      · obtain rfl := some.inj hfr
        cases hd
    · rename_i hk
      exact hkeep (hmark rfl) k' pid f hfr (by rw [hds,if_neg hk]) hd
  | insert _ _ hfs =>
    rw [hfs.frame] at hfr
    split at hfr
    · rename_i hk
      obtain ⟨rfl,rfl⟩ := hk
      exact .inr ⟨i,_,hget,ha.1,rfl⟩
    · refine hkeep (fun pid hp hc => ?_) k' pid f hfr (hfs.disk k' pid) hd
      exact changed_next hf (.inr ⟨_,_,rfl⟩) (by simp [hp]) ha hp hc
  | hot _ hfs =>
    rw [hfs.frame] at hfr
    obtain ⟨-,t,ht⟩ := ha
    split at hfr
    · rename_i hk
      obtain ⟨rfl,rfl⟩ := hk
      have hpend := hi.pend _ ht
      exact .inr ⟨i,_,hget,hpend.1,hpend.2.2.1⟩
    · exact hkeep (fun pid hp hc => ⟨hp,hc⟩) k' pid f hfr (hfs.disk k' pid) hd
  | @unpin _ dirty f0 _ hfr0 hfs =>
    rw [hfs.frame] at hfr
    split at hfr
    · rename_i hk
      obtain ⟨rfl,rfl⟩ := hk
      obtain rfl := some.inj hfr
      have hd' : f0.dirty = false ∧ dirty = false := by simpa using hd
      refine hother k' pid f0 hfr0 (hfs.disk k' pid) hd'.1 ?_
      rintro ⟨-,-,hc⟩
      have := ha.2.2 hc
      simp [hd'.2] at this
    · rename_i hk
      refine hother k' pid f hfr (hfs.disk k' pid) hd ?_
      rintro ⟨rfl,hp,-⟩
      exact hk ⟨rfl,some.inj (hp.symm.trans ha.1)⟩
  | unpinDirty _ hfs =>
    rw [hfs.frame] at hfr
    split at hfr
    · obtain rfl := some.inj hfr
      cases hd
    · rename_i hk
      refine hother k' pid f hfr (hfs.disk k' pid) hd ?_
      rintro ⟨rfl,hp,-⟩
      exact hk ⟨rfl,some.inj (hp.symm.trans ha.1)⟩
  | stamp _ _ hdirty _ hfs | clear _ _ hdirty _ hfs =>
    rw [hfs.frame] at hfr
    split at hfr
    · obtain rfl := some.inj hfr
      simp [hdirty] at hd
    · exact hkeep (hmark rfl) k' pid f hfr (hfs.disk k' pid) hd

theorem page_of_unpinned (hst : Steady s ws) {f : Frame}
    (hfr : s.frame k pid = some f) (hp : f.pins = []) (hd : f.dirty = false) : s.diskPage k pid = some f.page := by
  refine (h k pid f hfr hd).resolve_right ?_
  rintro ⟨i,g,hw,hpin,-⟩
  have := ((hst.thread i k g hw).pin pid hpin).2 f hfr
  simp [hp] at this

theorem page_env (hst : Steady s ws) (he : s.EnvEffect e s') (k : TableKey)
    (pid : PageID) : s'.page k pid = s.page k pid := by
  cases he with
  | sync hf => exact hf.page k pid
  | @flush k0 pid0 f _ hfr hd hf hdisk =>
    rw [page_eq,page_eq,hf,hdisk]
    by_cases hk : k = k0 ∧ pid = pid0
    · simp [hk,hfr]
    · simp [hk]
  | @drop k0 pid0 f _ hfr hp hd hf hdisk =>
    rw [page_eq,page_eq,hf,hdisk]
    by_cases hk : k = k0 ∧ pid = pid0
    · simp [hk,hfr,h.page_of_unpinned hst hfr hp hd]
    · simp [hk]
  | @evict k0 pid0 f _ hfr hp hd hf hdisk =>
    rw [page_eq,page_eq,hf,hdisk]
    by_cases hk : k = k0 ∧ pid = pid0
    · simp [hk,hfr]
    · simp [hk]

theorem env (he : s.EnvEffect e s') : Clean s' ws := by
  intro k pid f hfr hd
  cases he with
  | sync hf =>
    rw [hf.frame] at hfr
    rw [hf.disk]
    exact h k pid f hfr hd
  | flush hfr0 hd0 hf hdisk =>
    rw [hf] at hfr
    rw [hdisk]
    split at hfr
    · rename_i hk
      obtain rfl := some.inj hfr
      exact .inl (if_pos hk)
    · rename_i hk
      rw [if_neg hk]
      exact h k pid f hfr hd
  | drop hfr0 hp hd0 hf hdisk =>
    rw [hf] at hfr
    rw [hdisk]
    split at hfr
    · cases hfr
    · exact h k pid f hfr hd
  | evict hfr0 hp hd0 hf hdisk =>
    rw [hf] at hfr
    rw [hdisk]
    split at hfr
    · cases hfr
    · rename_i hk
      rw [if_neg hk]
      exact h k pid f hfr hd

theorem spawn (k : TableKey) : Clean s (ws++[(k,({} : Watcher))]) := by
  intro k' pid f hfr hd
  refine (h k' pid f hfr hd).imp_right ?_
  rintro ⟨i,g,hw,hp⟩
  exact ⟨i,g,by rw [List.getElem?_append_left (List.getElem?_eq_some_iff.1 hw).1]; exact hw,hp⟩
end
end Clean

structure NewSlot (base : Base) (w : List Entry) (s : Engine) (k : TableKey) (g : Watcher) (loc : PageSlot)
    (t : Tuple) : Prop where
  unnamed : ∀ e ∈ w, e.op.slot? ≠ some (k,loc)
  fresh : base k loc = none
  mem : s.mem k loc = some t
  frame : s.frame k loc.pid ≠ none
  short : t.length ≤ maxTupleLength
  writer : ∃ x, g.tx = some x ∧ t.WrittenBy x

structure SlotsOk (base : Base) (w : List Entry) (s : Engine) (ws : List (TableKey × Watcher)) : Prop where
  named : ∀ e ∈ w, ∀ k loc, e.op.slot? = some (k,loc) → s.mem k loc ≠ none
  pend : ∀ (i : Nat) k g loc t, ws[i]? = some (k,g) → g.pend = some (loc,t) → NewSlot base w s k g loc t
  kept : ∀ k loc, base k loc ≠ none → s.mem k loc ≠ none
  inserted : ∀ x k loc y t, ⟨x,.pageInsert k loc y t⟩ ∈ w →
    base k loc = none ∧ t.length ≤ maxTupleLength ∧ t.WrittenBy x
  wellLogged : WellLogged w

def Engine.OnSlots (s : Engine) (k : TableKey) : (c : Cmd) → c.Res → Prop
  | .insertTuple pid _, some _ => s.frame k pid ≠ none
  | .logDelete _ loc, _ => s.mem k loc ≠ none
  | _, _ => True

namespace SlotsOk
variable {base : Base} {w : List Entry} {s s' : Engine} {ws : List (TableKey × Watcher)} {i : Nat}
  {k : TableKey} {g : Watcher} {c : Cmd} {r : c.Res}
theorem record_slot (hi : ThreadOk s i k g) (ha : g.allowed c) {e : Entry} (hc : c.record k = some e)
    (hs : e.op.slot? = some (k',loc)) : k' = k ∧ g.locked = true := by
  cases c with
  | logInsert x l t =>
    cases hc
    cases hs
    exact ⟨rfl,(hi.pin _ (hi.pend _ ha.2).1).1⟩
  | logDelete x l =>
    cases hc
    cases hs
    exact ⟨rfl,ha.2.1⟩
  | logCommit x =>
    cases hc
    cases hs
  | _ => cases hc

theorem mem_congr (hf : s'.frame k loc.pid = s.frame k loc.pid)
    (hd : s'.diskPage k loc.pid = s.diskPage k loc.pid) : s'.mem k loc = s.mem k loc := by
  rw [mem,page_eq,hf,hd,← page_eq]
  rfl

theorem newSlot_other (hi : ThreadOk s i k g) (ha : g.allowed c) (he : s.Effect i k c r s') {j : Nat}
    (hj : ThreadOk s j k' g') (hne : j ≠ i) {t : Tuple}
    (hp : g'.pend = some (loc,t)) (h : NewSlot base w s k' g' loc t) :
    NewSlot base (w++(c.record k).toList) s' k' g' loc t := by
  have hpin := (hj.pend _ hp).1
  obtain ⟨hf,hd⟩ := he.pinnedByOther hi ha hj hne hpin
  refine ⟨fun e hin hslot => ?_,h.fresh,by rw [mem_congr hf hd]; exact h.mem,by rw [hf]; exact h.frame,h.short, h.writer⟩
  rcases mem_append.1 hin with hin | hin
  · exact h.unnamed e hin hslot
  · obtain ⟨rfl,hl⟩ := record_slot hi ha (mem_toList.1 hin) hslot
    exact hne (hj.lock_unique hi (hj.pin _ hpin).1 hl)

section
variable (h : SlotsOk base w s ws)
include h
theorem newSlot_self (hr : Recorded w k g) (hi : ThreadOk s i k g)
    (hw : ws[i]? = some (k,g)) (ha : g.allowed c) (hf : ¬ c.Failed r) (hok : s.OnSlots k c r)
    (he : s.Effect i k c r s') {t : Tuple} (hp : (g.next c r).pend = some (loc,t)) :
    NewSlot base (w++(c.record k).toList) s' k (g.next c r) loc t := by
  have hcases : (g.pend = some (loc,t) ∧ c.record k = none) ∨
      (⟨c,r⟩ : (c : Cmd) × c.Res) = ⟨.insertTuple loc.pid t,some loc.slot⟩ := by
    cases c with
    | insertTuple pid tup =>
      cases r with
      | none => exact .inl ⟨hp,rfl⟩
      | some slot =>
        cases hp
        exact .inr rfl
    | logInsert =>
      cases r with
      | none => exact absurd rfl hf
      | some lsn => cases hp
    | logDelete => cases r <;> exact absurd hp (by simp [Watcher.next,ha.2.2.2.1])
    | logCommit => cases r <;> exact absurd hp (by simp [Watcher.next,ha.2.2.1])
    | fetchPage | allocatePage | putXMax | clearXMax => cases r <;> exact .inl ⟨hp,rfl⟩
    | _ => exact .inl ⟨hp,rfl⟩
  rcases hcases with ⟨hold,hc⟩ | heq
  · -- the insert was pending before, and the command leaves its tuple alone
    have hns := h.pend i k g loc t hw hold
    have hn : c ≠ .nextTxID := by
      rintro rfl
      obtain ⟨x,hx,-⟩ := hns.writer
      exact absurd (show g.tx = none from ha) (by simp [hx])
    obtain ⟨htx,-⟩ := g.next_of_record_none (r := r) hc hn
    refine ⟨by simpa [hc] using hns.unnamed,hns.fresh,?_,he.frame_kept hns.frame,hns.short,by rw [htx]; exact hns.writer⟩
    have hs := he.slot loc
    rw [hns.mem] at hs
    generalize s'.mem k loc = o at hs
    cases hs with
    | same => rfl
    | hot =>
      obtain ⟨x,-,hrec⟩ := hr.logged loc (hi.del loc ha.1)
      exact absurd rfl (hns.unnamed _ hrec)
    | stamp => exact absurd hold (by simp [ha.2.2.2.2.2.1])
    | clear => exact absurd hold (by simp [ha.2.2.2.2.1])
  · cases heq
    cases he with
    | still hst => cases hst
    | absent hpn hn =>
      cases hpn
      exact absurd hn hok
    | log hc => cases hc
    | logFail hc => exact absurd hc hf
    | @insert _ _ _ f p _ hfr hins hfs =>
      obtain ⟨hslot,-,-,hshort,-⟩ := Page.insertTuple_eq_some hins
      have hnone : s.mem k loc = none := by
        simp only [mem,page_of_frame hfr,bind_some]
        cases ht : f.page.getTuple loc.slot with
        | none => rfl
        | some t' => exact absurd (Page.getTuple_lt ht) (by omega)
      refine ⟨fun e hin hs => ?_,?_,?_,by simp [hfs.frame],hshort,ha.2.2.2.2⟩
      · exact h.named e (by simpa [Cmd.record] using hin) k _ hs hnone
      · by_contra hb
        exact h.kept k _ hb hnone
      · rw [mem,hfs.page,if_pos ⟨rfl,rfl⟩]
        simp [Page.getTuple_insertTuple hins]

theorem run (hsd : Sound base w s ws) (hw : ws[i]? = some (k,g)) (ha : g.allowed c)
    (hf : ¬ c.Failed r) (hok : s.OnSlots k c r) (he : s.Effect i k c r s') :
    SlotsOk base (w++(c.record k).toList) s' (ws.set i (k,g.next c r)) := by
  have hi := hsd.steady.thread i k g hw
  constructor
  · intro e hin k' loc hs
    refine he.mem_kept ?_
    rcases mem_append.1 hin with hin | hin
    · exact h.named e hin k' loc hs
    · have hc := mem_toList.1 hin
      cases c with
      | logInsert x l t =>
        cases hc
        cases hs
        simp [(h.pend i k g _ _ hw ha.2).mem]
      | logDelete x l =>
        cases hc
        cases hs
        exact hok
      | logCommit x =>
        cases hc
        cases hs
      | _ => cases hc
  · intro j k' g' loc t hj hp
    rcases thread_set_cases hj with ⟨-,hself⟩ | ⟨hij,hj⟩
    · obtain ⟨rfl,rfl⟩ := Prod.mk.inj hself
      exact h.newSlot_self (hsd.recorded i _ g hw) hi hw ha hf hok he hp
    · exact newSlot_other hi ha he (hsd.steady.thread j k' g' hj) hij hp (h.pend j k' g' loc t hj hp)
  · exact fun k' loc hb => he.mem_kept (h.kept k' loc hb)
  · intro x k' loc y t hin
    rcases mem_append.1 hin with hin | hin
    · exact h.inserted x k' loc y t hin
    · have hc := mem_toList.1 hin
      cases c with
      | logInsert x l t =>
        cases hc
        have hns := h.pend i k g _ _ hw ha.2
        obtain ⟨x',hx',hwr⟩ := hns.writer
        obtain rfl := some.inj (ha.1.symm.trans hx')
        exact ⟨hns.fresh,hns.short,hwr⟩
      | logDelete | logCommit => cases hc
      | _ => cases hc
  · refine pairwise_append.2 ⟨h.wellLogged,?_,fun a hain b hb k' loc xid t hop hs => ?_⟩
    · cases c.record k <;> simp
    · have hc := mem_toList.1 hb
      cases c with
      | logInsert x l t =>
        cases hc
        cases hop
        exact (h.pend i k g _ _ hw ha.2).unnamed a hain hs
      | logDelete | logCommit =>
        cases hc
        cases hop
      | _ => cases hc

theorem env (hst : Steady s ws) (hcl : Clean s ws) (he : s.EnvEffect e s') : SlotsOk base w s' ws := by
  have hmem : ∀ k loc, s'.mem k loc = s.mem k loc := fun k loc => by
    rw [mem,hcl.page_env hst he]
    rfl
  refine ⟨fun e hin k loc hs => by rw [hmem]; exact h.named e hin k loc hs,fun i k g loc t hw hp => ?_,
    fun k loc hb => by rw [hmem]; exact h.kept k loc hb,h.inserted,h.wellLogged⟩
  have hns := h.pend i k g loc t hw hp
  refine ⟨hns.unnamed,hns.fresh,by rw [hmem]; exact hns.mem,?_,hns.short,hns.writer⟩
  -- the page is pinned, so it stays in the pool
  have hi := hst.thread i k g hw
  have hpins := (hi.pin _ (hi.pend _ hp).1).2
  cases he with
  | sync hf =>
    rw [hf.frame]
    exact hns.frame
  | flush hfr hd hf =>
    rw [hf]
    split
    · simp
    · exact hns.frame
  | drop hfr hp hd hf | evict hfr hp hd hf =>
    rw [hf]
    split
    · rename_i hk
      rw [hk.1] at hpins
      have := hpins _ (hk.2 ▸ hfr)
      simp [hp] at this
    · exact hns.frame

theorem spawn (k : TableKey) : SlotsOk base w s (ws++[(k,({} : Watcher))]) := by
  refine { h with pend := fun i k' g loc t hw hp => ?_ }
  rcases thread_concat_cases hw with hw | ⟨-,heq⟩
  · exact h.pend i k' g loc t hw hp
  · cases heq
    cases hp
end

theorem start (s : Engine) : SlotsOk s.mem [] s [] := ⟨by simp,by simp,fun _ _ hb => hb,by simp,.nil⟩

end SlotsOk
end VaultDB.Storage
