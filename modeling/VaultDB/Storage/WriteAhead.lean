import VaultDB.Storage.Effects
set_option autoImplicit false

/-!
The write-ahead rule.  What is on a page was there at the start, has its record in the log or, in
memory only, is about to be logged under the page lock.
-/

namespace VaultDB.Storage
open Wal Lib Engine List Option
variable {x n : Nat} {k' : TableKey} {g' : Watcher}
  {c : Cmd} {k : TableKey} {r : c.Res} {loc : PageSlot} {t : Tuple} {i : Nat} {ws : List (TableKey × Watcher)}
theorem Watcher.next_of_record_none (g : Watcher) (hc : c.record k = none)
    (hn : c ≠ .nextTxID) : (g.next c r).tx = g.tx ∧ (g.next c r).logged = g.logged ∧
      (g.next c r).ins = g.ins ∧ (g.next c r).committed = g.committed := by
  cases c with
  | nextTxID => exact absurd rfl hn
  | logInsert | logDelete | logCommit => cases hc
  | fetchPage | allocatePage | insertTuple | putXMax | clearXMax => cases r <;> exact ⟨rfl,rfl,rfl,rfl⟩
  | _ => exact ⟨rfl,rfl,rfl,rfl⟩

structure Recorded (w : List Entry) (k : TableKey) (g : Watcher) : Prop where
  logged : ∀ loc ∈ g.logged, ∃ x, g.tx = some x ∧ ⟨x,.pageDelete k loc x⟩ ∈ w
  ins : ∀ p ∈ g.ins, ∃ x, g.tx = some x ∧ ⟨x,.pageInsert k p.1 x p.2⟩ ∈ w
  committed : g.committed = true → ∃ x, g.tx = some x ∧ ⟨x,.commit⟩ ∈ w

namespace Recorded
variable {w w' : List Entry} {k : TableKey} {g : Watcher}
theorem mono (h : Recorded w k g) (hw : ∀ e ∈ w, e ∈ w') : Recorded w' k g where
  logged loc hl := by
    obtain ⟨x,hx,he⟩ := h.logged loc hl
    exact ⟨x,hx,hw _ he⟩
  ins p hp := by
    obtain ⟨x,hx,he⟩ := h.ins p hp
    exact ⟨x,hx,hw _ he⟩
  committed hc := by
    obtain ⟨x,hx,he⟩ := h.committed hc
    exact ⟨x,hx,hw _ he⟩

theorem next (h : Recorded w k g) (ha : g.allowed c) (hf : ¬ c.Failed r)
    (hw : ∀ e ∈ w, e ∈ w') (hr : ∀ e, c.record k = some e → e ∈ w') : Recorded w' k (g.next c r) := by
  have h' := h.mono hw
  cases hc : c.record k with
  | none =>
    by_cases hn : c = .nextTxID
    · subst hn
      have hnone : g.tx = none := ha
      refine ⟨fun loc hl => ?_,fun p hp => ?_,fun hcom => ?_⟩
      · obtain ⟨x,hx,-⟩ := h.logged loc hl
        simp [hnone] at hx
      · obtain ⟨x,hx,-⟩ := h.ins p hp
        simp [hnone] at hx
      · obtain ⟨x,hx,-⟩ := h.committed hcom
        simp [hnone] at hx
    · obtain ⟨h1,h2,h3,h4⟩ := g.next_of_record_none (r := r) hc hn
      constructor
      · rw [h1,h2]
        exact h'.logged
      · rw [h1,h3]
        exact h'.ins
      · rw [h1,h4]
        exact h'.committed
  | some e =>
    have he := hr e hc
    cases c with
    | logInsert x loc t =>
      cases r with
      | none => exact absurd rfl hf
      | some lsn =>
        obtain rfl := some.inj hc
        refine ⟨h'.logged,fun p hp => ?_,h'.committed⟩
        rcases mem_cons.1 hp with rfl | hp
        · exact ⟨x,ha.1,he⟩
        · exact h'.ins p hp
    | logDelete x loc =>
      cases r with
      | none => exact absurd rfl hf
      | some lsn =>
        obtain rfl := some.inj hc
        refine ⟨fun l hl => ?_,h'.ins,h'.committed⟩
        rcases mem_cons.1 hl with rfl | hl
        · exact ⟨x,ha.1,he⟩
        · exact h'.logged l hl
    | logCommit x =>
      cases r with
      | none => exact absurd rfl hf
      | some lsn =>
        obtain rfl := some.inj hc
        exact ⟨h'.logged,h'.ins,fun _ => ⟨x,ha.1,he⟩⟩
    | _ => cases hc

end Recorded

abbrev Base := TableKey → PageSlot → Option Tuple

def Source (base : Base) (w : List Entry) (k : TableKey) (loc : PageSlot) (t : Tuple) : Prop :=
  base k loc = some t ∨ ∃ x, ⟨x,.pageInsert k loc x t⟩ ∈ w

def StampSource (base : Base) (w : List Entry) (k : TableKey) (loc : PageSlot) (x : Nat) : Prop :=
  (∃ t, base k loc = some t ∧ t.deletedTx = x) ∨ ⟨x,.pageDelete k loc x⟩ ∈ w

def Pending (ws : List (TableKey × Watcher)) (k : TableKey) (loc : PageSlot) (t : Tuple) : Prop :=
  ∃ (i : Nat) (g : Watcher), ws[i]? = some (k,g) ∧ g.pend = some (loc,t)

/-- Where everything about a stored tuple comes from: its row, its creator, the flag that an
update next to it sets, and its stamp. -/
structure Accounted (src : PageSlot → Tuple → Prop) (stamps : PageSlot → Nat → Prop) (loc : PageSlot)
    (t : Tuple) : Prop where
  version : ∃ t₀, src loc t₀ ∧ t.data = t₀.data ∧ (t.createdTx = t₀.createdTx ∨
    ∃ n t₁, src ⟨loc.pid,n⟩ t₁ ∧ t.createdTx = (t₀.setHOTUpdated n).createdTx)
  stamp : t.deletedTx = 0 ∨ stamps loc t.deletedTx

namespace Accounted
variable {src src' : PageSlot → Tuple → Prop} {stamps stamps' : PageSlot → Nat → Prop} {loc : PageSlot} {t : Tuple}
section
variable (h : Accounted src stamps loc t)
include h
theorem mono (hs : ∀ n t, src ⟨loc.pid,n⟩ t → src' ⟨loc.pid,n⟩ t)
    (hx : ∀ x, stamps loc x → stamps' loc x) : Accounted src' stamps' loc t := by
  obtain ⟨⟨t0,hsrc,hdata,hc⟩,hstamp⟩ := h
  refine ⟨⟨t0,hs loc.slot t0 hsrc,hdata,?_⟩,hstamp.imp_right (hx _)⟩
  rcases hc with hc | ⟨n,t1,h1,hc⟩
  · exact .inl hc
  · exact .inr ⟨n,t1,hs n t1 h1,hc⟩

theorem setXMax (hx : x = 0 ∨ stamps loc x) : Accounted src stamps loc (t.setXMax x) := ⟨h.version,hx⟩

theorem setHOTUpdated {t1 : Tuple} (hn : src ⟨loc.pid,n⟩ t1) : Accounted src stamps loc (t.setHOTUpdated n) := by
  obtain ⟨⟨t0,hsrc,hdata,hc⟩,hstamp⟩ := h
  refine ⟨⟨t0,hsrc,hdata,.inr ⟨n,t1,hn,?_⟩⟩,hstamp⟩
  rcases hc with hc | ⟨m,t2,-,hc⟩
  · simp [Tuple.setHOTUpdated,hc]
  · rw [← Tuple.createdTx_setHOTUpdated_setHOTUpdated t0 m n]
    simp [Tuple.setHOTUpdated,hc]
end

theorem of_src (h : src loc t) (hx : t.deletedTx = 0) : Accounted src stamps loc t := ⟨⟨t,h,rfl,.inl rfl⟩,.inl hx⟩

end Accounted

/-- Every change on the pages in the heap files has its record in the log. -/
def LoggedOnDisk (base : Base) (w : List Entry) (s : Engine) : Prop :=
  ∀ k loc t, s.disk.tuple k loc = some t → Accounted (Source base w k) (StampSource base w k) loc t

/-- The same of the cached pages, but for the inserts that are about to be logged. -/
def LoggedInMemory (base : Base) (w : List Entry) (s : Engine) (ws : List (TableKey × Watcher)) : Prop :=
  ∀ k loc t, s.mem k loc = some t → Accounted (fun l t => Source base w k l t ∨ Pending ws k l t)
    (StampSource base w k) loc t

structure Sound (base : Base) (w : List Entry) (s : Engine) (ws : List (TableKey × Watcher)) : Prop where
  steady : Steady s ws
  recorded : ∀ (i : Nat) k g, ws[i]? = some (k,g) → Recorded w k g
  memory : LoggedInMemory base w s ws
  disk : LoggedOnDisk base w s

section
variable {base : Base} {w w' : List Entry} (hw : ∀ e ∈ w, e ∈ w')
include hw
theorem Source.mono (h : Source base w k loc t) : Source base w' k loc t := h.imp_right fun ⟨x,hx⟩ => ⟨x,hw _ hx⟩
theorem StampSource.mono (h : StampSource base w k loc x) : StampSource base w' k loc x :=
  h.imp_right fun hx => hw _ hx
end

theorem pending_set {g : Watcher} (g' : Watcher) (hw : ws[i]? = some (k,g)) (h : Pending ws k' loc t) :
    Pending (ws.set i (k,g')) k' loc t ∨ (k' = k ∧ g.pend = some (loc,t)) := by
  obtain ⟨j,gj,hj,hp⟩ := h
  by_cases hij : i = j
  · subst hij
    obtain ⟨rfl,rfl⟩ := Prod.mk.inj (some.inj (hw.symm.trans hj))
    exact .inr ⟨rfl,hp⟩
  · exact .inl ⟨j,gj,by rw [getElem?_set_ne hij]; exact hj,hp⟩

theorem pending_self {g : Watcher} (hw : ws[i]? = some (k,g)) (h : g'.pend = some (loc,t)) :
    Pending (ws.set i (k,g')) k loc t := by
  have hlt := (List.getElem?_eq_some_iff.1 hw).1
  exact ⟨i,g',by rw [getElem?_set_self hlt],h⟩

theorem Engine.tuple_disk (s : Engine) (k : TableKey) (loc : PageSlot) :
    s.disk.tuple k loc = (s.diskPage k loc.pid).bind fun p => p.getTuple loc.slot := by
  rw [Disk.tuple,page_disk]

theorem Engine.Effect.disk_tuple {s s' : Engine} (he : s.Effect i k c r s') (ht : s'.disk.tuple k' loc = some t) :
    s.disk.tuple k' loc = some t := by
  rw [tuple_disk] at ht ⊢
  rcases he.diskPage k' loc.pid with hd | ⟨-,hd,-⟩
  · rwa [← hd]
  · simp [hd] at ht

namespace Sound
variable {base : Base} {w w' : List Entry} {s s' : Engine} {ws : List (TableKey × Watcher)} {i : Nat}
  {k : TableKey} {g : Watcher} {c : Cmd} {r : c.Res} {t : Tuple} {pid : PageID} {f : Frame}
theorem memory_mono (hw : ws[i]? = some (k,g)) (hwal : ∀ e ∈ w, e ∈ w')
    (hp : ∀ loc t, g.pend = some (loc,t) → g'.pend = some (loc,t) ∨ Source base w' k loc t)
    (h : Accounted (fun l t => Source base w k' l t ∨ Pending ws k' l t) (StampSource base w k') loc t) :
    Accounted (fun l t => Source base w' k' l t ∨ Pending (ws.set i (k,g')) k' l t)
      (StampSource base w' k') loc t := by
  refine h.mono (fun n t hs => ?_) fun x hx => hx.mono hwal
  rcases hs with hs | hs
  · exact .inl (hs.mono hwal)
  · rcases pending_set g' hw hs with hs | ⟨rfl,hs⟩
    · exact .inr hs
    · rcases hp _ t hs with hs | hs
      · exact .inr (pending_self hw hs)
      · exact .inl hs

theorem pend_next (ha : g.allowed c) (hf : ¬ c.Failed r) (hwal : ∀ e, c.record k = some e → e ∈ w')
    (loc : PageSlot) (t : Tuple) (hp : g.pend = some (loc,t)) :
    (g.next c r).pend = some (loc,t) ∨ Source base w' k loc t := by
  cases c with
  | insertTuple pid tup => exact absurd hp (by simp [ha.2.2.1])
  | logInsert x l tup =>
    have hl : some (l,tup) = some (loc,t) := ha.2.symm.trans hp
    obtain ⟨rfl,rfl⟩ := Prod.mk.inj (some.inj hl)
    exact .inr (.inr ⟨x,hwal _ rfl⟩)
  | logDelete | logCommit =>
    cases r with
    | none => exact absurd rfl hf
    | some lsn => exact .inl hp
  | fetchPage | allocatePage | putXMax | clearXMax => cases r <;> exact .inl hp
  | _ => exact .inl hp

theorem memory_run (h : Sound base w s ws) (hw : ws[i]? = some (k,g)) (ha : g.allowed c) (hf : ¬ c.Failed r)
    (hwal : ∀ e ∈ w, e ∈ w') (hrec : ∀ e, c.record k = some e → e ∈ w') (he : s.Effect i k c r s') :
    LoggedInMemory base w' s' (ws.set i (k,g.next c r)) := by
  have hold : ∀ {k' : TableKey} {loc : PageSlot} {t : Tuple}, s.mem k' loc = some t →
      Accounted (fun l t => Source base w' k' l t ∨ Pending (ws.set i (k,g.next c r)) k' l t)
        (StampSource base w' k') loc t :=
    fun ht => memory_mono hw hwal (pend_next ha hf hrec) (h.memory _ _ _ ht)
  intro k' loc t ht
  by_cases hk : k' = k
  · subst hk
    have hs := he.slot loc
    rw [ht] at hs
    generalize hm : s.mem k' loc = o at hs
    cases hs with
    | same => exact hold hm
    | insert =>
      obtain ⟨x,-,hw'⟩ := ha.2.2.2.2
      exact .of_src (.inr (pending_self hw rfl)) hw'.2
    | hot =>
      obtain ⟨t1,hpend⟩ := ha.2
      exact (hold hm).setHOTUpdated (.inr (pending_self hw hpend))
    | stamp =>
      obtain ⟨y,hy,hrecd⟩ := (h.recorded i k' g hw).logged loc ha.2.2.1
      obtain rfl := some.inj (ha.1.symm.trans hy)
      exact (hold hm).setXMax (.inr (.inr (hwal _ hrecd)))
    | clear => exact (hold hm).setXMax (.inl rfl)
  · rw [he.otherMem hk] at ht
    exact hold ht

theorem disk_of_same (h : LoggedOnDisk base w s) (hd : ∀ k pid, s'.diskPage k pid = s.diskPage k pid)
    (hwal : ∀ e ∈ w, e ∈ w') : LoggedOnDisk base w' s' := by
  intro k loc t ht
  rw [tuple_disk,hd,← tuple_disk] at ht
  exact (h k loc t ht).mono (fun _ _ hs => hs.mono hwal) fun _ hx => hx.mono hwal

theorem disk_run (h : Sound base w s ws) (hwal : ∀ e ∈ w, e ∈ w') (he : s.Effect i k c r s') :
    LoggedOnDisk base w' s' := by
  intro k' loc t ht
  exact (h.disk k' loc t (he.disk_tuple ht)).mono (fun _ _ hs => hs.mono hwal) fun _ hx => hx.mono hwal

theorem run (h : Sound base w s ws) (hw : ws[i]? = some (k,g)) (ha : g.allowed c) (hf : ¬ c.Failed r)
    (hs : s.Shape i k c r s') : Sound base (w++(c.record k).toList) s' (ws.set i (k,g.next c r)) := by
  have heff := hs.effect (h.steady.backed k)
  have hwal : ∀ e ∈ w, e ∈ w++(c.record k).toList := fun e he => mem_append_left _ he
  have hrec : ∀ e, c.record k = some e → e ∈ w++(c.record k).toList := fun e hc => by simp [hc]
  refine ⟨h.steady.run hw ha hs,fun j k' g' hj => ?_,h.memory_run hw ha hf hwal hrec heff,h.disk_run hwal heff⟩
  rw [getElem?_set] at hj
  split at hj
  · split at hj
    · cases hj
      exact (h.recorded i k g hw).next ha hf hwal hrec
    · cases hj
  · exact (h.recorded j k' g' hj).mono hwal

theorem page_logged (h : Sound base w s ws) (hf : s.frame k pid = some f)
    (hp : ∀ n t, ¬ Pending ws k ⟨pid,n⟩ t) (ht : f.page.getTuple n = some t) :
    Accounted (Source base w k) (StampSource base w k) ⟨pid,n⟩ t := by
  have hmem : s.mem k ⟨pid,n⟩ = some t := by simp [mem,page_of_frame hf,ht]
  refine (h.memory k ⟨pid,n⟩ t hmem).mono (fun m t' hs => ?_) fun _ hx => hx
  exact hs.resolve_right (hp m t')

theorem not_pending_of_unpinned (h : Steady s ws)
    (hf : s.frame k pid = some f) (hp : f.pins = []) (n : Nat) (t : Tuple) : ¬ Pending ws k ⟨pid,n⟩ t := by
  rintro ⟨i,g,hw,hpend⟩
  have hi := h.thread i k g hw
  have := (hi.pin pid (hi.pend _ hpend).1).2 f hf
  simp [hp] at this

theorem not_pending_of_unlocked (h : Steady s ws)
    (hl : (s.tables k).all fun t => s.pageLocks (t.stripe pid) == none) (n : Nat) (t : Tuple) :
    ¬ Pending ws k ⟨pid,n⟩ t := by
  rintro ⟨i,g,hw,hpend⟩
  have hi := h.thread i k g hw
  obtain ⟨-,tab,ht,ho⟩ := hi.pageLock pid (hi.pend _ hpend).2.1
  simp [ht,ho] at hl

theorem disk_write {p : Page} (h : LoggedOnDisk base w s)
    (hnew : ∀ n t, p.getTuple n = some t → Accounted (Source base w k) (StampSource base w k) ⟨pid,n⟩ t)
    (hd : ∀ k' pid', s'.diskPage k' pid' = if k' = k ∧ pid' = pid then some p else s.diskPage k' pid') :
    LoggedOnDisk base w s' := by
  intro k' loc t ht
  rw [tuple_disk,hd] at ht
  by_cases hk : k' = k ∧ loc.pid = pid
  · obtain ⟨rfl,rfl⟩ := hk
    simp only [true_and,if_true,bind_some] at ht
    exact hnew loc.slot t ht
  · rw [if_neg hk,← tuple_disk] at ht
    exact h k' loc t ht

theorem env (h : Sound base w s ws) {e : EnvEvent} (hne : e ≠ .checkpoint)
    (hok : ∀ k pid f, e = .flushPage k pid → s.frame k pid = some f → ∀ n t, f.page.getTuple n = some t →
      Accounted (Source base w k) (StampSource base w k) ⟨pid,n⟩ t) (he : s.Env e s') : Sound base w s' ws := by
  have hsteady := h.steady.env hne he
  have hmem : (∀ k pid, s'.page k pid = s.page k pid ∨ s'.page k pid = s.diskPage k pid) →
    LoggedInMemory base w s' ws := by
    intro hp k loc t ht
    rw [mem] at ht
    rcases hp k loc.pid with hp | hp
    · rw [hp] at ht
      exact h.memory k loc t ht
    · rw [hp,← tuple_disk] at ht
      exact (h.disk k loc t ht).mono (fun _ _ hs => .inl hs) fun _ hx => hx
  cases he.effect h.steady.backed hne with
  | sync hf =>
    exact ⟨hsteady,h.recorded,hmem fun k pid => .inl (hf.page k pid),disk_of_same h.disk hf.disk fun _ he => he⟩
  | @flush k pid f _ hfr hd hf hdisk =>
    refine ⟨hsteady,h.recorded,hmem fun k' pid' => ?_,disk_write h.disk (hok k pid f rfl hfr) hdisk⟩
    rw [page_eq,page_eq,hf,hdisk]
    by_cases hk : k' = k ∧ pid' = pid
    · simp [hk,hfr]
    · simp [hk]
  | @drop k pid f _ hfr hp hd hf hdisk =>
    refine ⟨hsteady,h.recorded,hmem fun k' pid' => ?_,disk_of_same h.disk hdisk fun _ he => he⟩
    rw [page_eq,page_eq,hf,hdisk]
    by_cases hk : k' = k ∧ pid' = pid
    · simp [hk]
    · simp [hk]
  | @evict k pid f _ hfr hp hd hf hdisk =>
    have hpend := not_pending_of_unpinned h.steady hfr hp
    refine ⟨hsteady,h.recorded,hmem fun k' pid' => ?_,
      disk_write h.disk (fun n t ht => h.page_logged hfr hpend ht) hdisk⟩
    rw [page_eq,page_eq,hf,hdisk]
    by_cases hk : k' = k ∧ pid' = pid
    · simp [hk,hfr]
    · simp [hk]

theorem spawn (h : Sound base w s ws) (k : TableKey) : Sound base w s (ws++[(k,({} : Watcher))]) := by
  refine ⟨h.steady.spawn k,fun i k' g hw => ?_,fun k' loc t ht => ?_,h.disk⟩
  · rcases thread_concat_cases hw with hw | ⟨-,heq⟩
    · exact h.recorded i k' g hw
    · cases heq
      exact ⟨by simp,by simp,by simp⟩
  · refine (h.memory k' loc t ht).mono (fun n t' hs => ?_) fun _ hx => hx
    refine hs.imp_right ?_
    rintro ⟨i,g,hw,hp⟩
    exact ⟨i,g,by rw [List.getElem?_append_left (List.getElem?_eq_some_iff.1 hw).1]; exact hw,hp⟩

theorem start (h : ∀ k pid, s.frame k pid = none) (w : List Entry) : Sound s.mem w s [] := by
  have hdisk : ∀ k loc, s.disk.tuple k loc = s.mem k loc := by
    intro k loc
    rw [tuple_disk,mem,page_of_no_frame (h k loc.pid)]
  have hacc : ∀ k loc t, s.mem k loc = some t → Accounted (Source s.mem w k)
    (StampSource s.mem w k) loc t := fun k loc t ht =>
    ⟨⟨t,.inl ht,rfl,.inl rfl⟩,.inr (.inl ⟨t,ht,rfl⟩)⟩
  refine ⟨⟨by simp,fun k pid f hf => by simp [h k pid] at hf⟩,by simp,fun k loc t ht => ?_,fun k loc t ht => ?_⟩
  · exact (hacc k loc t ht).mono (fun _ _ hs => .inl hs) fun _ hx => hx
  · exact hacc k loc t (by rw [← hdisk]; exact ht)

end Sound

/-- The steps under which the rule holds: the log takes every record, and no page is flushed
while a statement holds its lock.  (An eviction leaves pinned pages alone by itself.) -/
def LatchedFlush (cf : RowConfig) : Event Cmd Cmd.Res TableKey EnvEvent → Prop
  | .run _ _ c r => ¬ c.Failed r
  | .env (.flushPage k pid) => (cf.state.tables k).all fun t => cf.state.pageLocks (t.stripe pid) == none
  | .env .checkpoint => False
  | _ => True

/-- Every change in the heap files is in the log, at every moment of every such run. -/
theorem write_ahead {V : Type} [BEq V] {R : RowOps V} {s₀ : Engine} (h₀ : ∀ k pid, s₀.frame k pid = none)
    {cf : RowConfig} (h : (rowMachine R).Reach LatchedFlush s₀ cf) : LoggedOnDisk s₀.mem cf.state.wal cf.state := by
  refine (Machine.Reach.inv follows_started (fun s ws => Sound s₀.mem s.wal s ws) (.start h₀ _) ?_ ?_ ?_ h).1.disk
  · intro cf k p hs _ _
    exact hs.spawn k
  · intro cf i k g c r s hs hw ha he hok
    have hshape := shape he
    have := hs.run hw ha hok hshape
    rwa [← (hshape.effect (hs.steady.backed k)).wal hok] at this
  · intro cf e s hs he hok
    have hne : e ≠ .checkpoint := by
      rintro rfl
      exact hok
    rw [he.wal hne]
    refine hs.env hne ?_ he
    rintro k pid f rfl hfr n t ht
    exact hs.page_logged hfr (Sound.not_pending_of_unlocked hs.steady hok) ht

def insertSeven : Exec Int := insertRows byteRows users [[7]]

theorem insertSeven_statement : RowStatement byteRows users insertSeven := by
  unfold insertSeven
  exact .insertRows [[7]]

def latchedFlush (cf : RowConfig) : Event Cmd Cmd.Res TableKey EnvEvent → Bool
  | .run _ _ (.logInsert _ _ _) r => Option.isSome r
  | .run _ _ (.logDelete _ _) r => Option.isSome r
  | .run _ _ (.logCommit _) r => Option.isSome r
  | .env (.flushPage k pid) => (cf.state.tables k).all fun t => cf.state.pageLocks (t.stripe pid) == none
  | .env .checkpoint => false
  | _ => true

theorem latchedFlush_sound (cf : RowConfig) (ev : Event Cmd Cmd.Res TableKey EnvEvent)
    (h : latchedFlush cf ev = true) : LatchedFlush cf ev := by
  cases ev with
  | spawn => trivial
  | run i k c r =>
    cases c with
    | logInsert | logDelete | logCommit =>
      rintro rfl
      cases h
    | _ => exact id
  | env e =>
    cases e with
    | flushPage k pid => exact h
    | checkpoint => cases h
    | _ => trivial

/-- One row is inserted, its page flushed once the statement has let go of it. -/
theorem write_ahead_insert :
    ∃ cf : RowConfig, (rowMachine byteRows).Reach LatchedFlush emptyUsers cf ∧
      cf.state.disk.tuple users ⟨⟨0, 0⟩, 0⟩ = some ⟨1#64, 0, [7]⟩ ∧
      LoggedOnDisk emptyUsers.mem cf.state.wal cf.state := by
  have hrow : (Move.play latchedFlush ⟨emptyUsers,spawned [(users,insertSeven)]⟩
      (replicate 11 (.step 0)++[.flush users ⟨0,0⟩])).map
        (fun cf => cf.state.disk.tuple users ⟨⟨0,0⟩,0⟩) = some (some ⟨1#64,0,[7]⟩) := by decide
  obtain ⟨cf,hreach,hrow⟩ := reach_sample latchedFlush_sound (fun _ _ _ => trivial)
    (by simpa using insertSeven_statement) hrow
  exact ⟨cf,hreach,hrow,write_ahead emptyUsers_frame hreach⟩

/-- The flush comes between `InsertTuple` and the append: the tuple is in the heap file, and
the log is empty. -/
theorem flush_before_append :
    ∃ cf : RowConfig, (rowMachine byteRows).Reach (fun _ _ => True) emptyUsers cf ∧
      cf.state.disk.tuple users ⟨⟨0, 0⟩, 0⟩ = some ⟨1#64, 0, [7]⟩ ∧ cf.state.wal = [] ∧
      ¬ LoggedOnDisk emptyUsers.mem cf.state.wal cf.state := by
  have hrow : (Move.play (fun _ _ => true) ⟨emptyUsers,spawned [(users,insertSeven)]⟩
      (replicate 7 (.step 0)++[.flush users ⟨0,0⟩])).map
        (fun cf => (cf.state.disk.tuple users ⟨⟨0,0⟩,0⟩,cf.state.wal)) = some (some ⟨1#64,0,[7]⟩,[]) := by
    decide
  obtain ⟨cf,hreach,hrow⟩ := reach_sample (R := byteRows) (fun _ _ _ => trivial) (fun _ _ _ => trivial)
    (by simpa using insertSeven_statement) hrow
  obtain ⟨htup,hwal⟩ := Prod.mk.inj hrow
  refine ⟨cf,hreach,htup,hwal,fun hlog => ?_⟩
  obtain ⟨t0,hsrc,-⟩ := (hlog users _ _ htup).version
  rw [hwal] at hsrc
  rcases hsrc with hsrc | ⟨x,hx⟩
  · have hnone : emptyUsers.mem users ⟨⟨0,0⟩,0⟩ = none := by decide
    simp [hnone] at hsrc
  · simp at hx

end VaultDB.Storage
