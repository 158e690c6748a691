import VaultDB.Storage.Durable
set_option autoImplicit false

/-!
A crash and the recovery of the next start, which has to show the changes of the statements whose
commit record is in the log, and nothing else.
-/

namespace VaultDB.Storage
open Wal Lib RecoveryStep RecoveryState PageOp List Nat Engine
variable {c : Clock} {x : Nat} {e : Entry} {t : Tuple} {r₀ r : Option (List UInt8)} {s : Engine} {V : Type}
  {s₀ : Engine} {cf : RowConfig}
abbrev View := TableKey → PageSlot → Option (List UInt8)

def Watcher.apply (k : TableKey) (g : Watcher) (v : View) : View := fun k' loc =>
  if k' = k then
    match g.ins.find? (fun p => p.1 = loc) with
    | some p => some p.2.data
    | none => if loc ∈ g.del then none else v k' loc
  else v k' loc

def writerOf (ws : List (TableKey × Watcher)) (x : Nat) : Option (TableKey × Watcher) :=
  ws.find? fun p => p.2.tx = some x

def commitEntry (ws : List (TableKey × Watcher)) (v : View) (e : Entry) : View :=
  match e.op, writerOf ws e.txID with
  | .commit, some (k,g) => g.apply k v
  | _, _ => v

/-- The rows after the committed statements of a log, in the order of their commit records. -/
def committedView (ws : List (TableKey × Watcher)) (v₀ : View) (w : List Entry) : View := w.foldl (commitEntry ws) v₀
def DeletedIn (w : List Entry) (k : TableKey) (loc : PageSlot) : Prop :=
  ∃ x, ⟨x,.pageDelete k loc x⟩ ∈ w ∧ ⟨x,.commit⟩ ∈ w

def InsertedIn (w : List Entry) (k : TableKey) (loc : PageSlot) (t : Tuple) : Prop :=
  ∃ x, ⟨x,.pageInsert k loc x t⟩ ∈ w ∧ ⟨x,.commit⟩ ∈ w

/-- What the committed transactions of a log say about one row, which was `r₀` before. -/
structure RowIs (w : List Entry) (k : TableKey) (loc : PageSlot) (r₀ r : Option (List UInt8)) : Prop where
  deleted : DeletedIn w k loc → r = none
  inserted : ¬ DeletedIn w k loc → ∀ t, InsertedIn w k loc t → r = some t.data
  kept : ¬ DeletedIn w k loc → (∀ t, ¬ InsertedIn w k loc t) → r = r₀

variable {v : View}
  {k : TableKey} {loc : PageSlot} {w : List Entry} {g : Watcher} {ws : List (TableKey × Watcher)} {y : Nat}
theorem RowIs.unique {r' : Option (List UInt8)} (h : RowIs w k loc r₀ r) (h' : RowIs w k loc r₀ r') : r = r' := by
  by_cases hd : DeletedIn w k loc
  · rw [h.deleted hd,h'.deleted hd]
  · by_cases hi : ∃ t, InsertedIn w k loc t
    · obtain ⟨t,ht⟩ := hi
      rw [h.inserted hd t ht,h'.inserted hd t ht]
    · have hn : ∀ t, ¬ InsertedIn w k loc t := fun t ht => hi ⟨t,ht⟩
      rw [h.kept hd hn,h'.kept hd hn]

theorem RowIs.mono {w' : List Entry} (h : RowIs w k loc r₀ r) (hsub : w ⊆ w')
    (hold : ∀ {x op}, ⟨x,op⟩ ∈ w' → (op = .pageDelete k loc x ∨ ∃ t, op = .pageInsert k loc x t) → ⟨x,.commit⟩ ∈ w' →
      ⟨x,op⟩ ∈ w ∧ ⟨x,.commit⟩ ∈ w) : RowIs w' k loc r₀ r := by
  have hd : DeletedIn w' k loc ↔ DeletedIn w k loc :=
    ⟨fun ⟨x,hx,hc⟩ => ⟨x,hold hx (.inl rfl) hc⟩,fun ⟨x,hx,hc⟩ => ⟨x,hsub hx,hsub hc⟩⟩
  have hi : ∀ t, InsertedIn w' k loc t ↔ InsertedIn w k loc t := fun t =>
    ⟨fun ⟨x,hx,hc⟩ => ⟨x,hold hx (.inr ⟨t,rfl⟩) hc⟩,fun ⟨x,hx,hc⟩ => ⟨x,hsub hx,hsub hc⟩⟩
  exact ⟨fun h' => h.deleted (hd.1 h'),fun h' t ht => h.inserted (fun h'' => h' (hd.2 h'')) t ((hi t).1 ht),
    fun h' hn => h.kept (fun h'' => h' (hd.2 h'')) fun t ht => hn t ((hi t).2 ht)⟩

def Settled (ws : List (TableKey × Watcher)) : Prop :=
  ∀ (i : Nat) k g, ws[i]? = some (k,g) → g.committed = true → ∀ loc ∈ g.logged, loc ∈ g.del

theorem Settled.run (h : Settled ws) {i : Nat}
    {c : Cmd} {r : c.Res} (hw : ws[i]? = some (k,g)) (ha : g.allowed c) : Settled (ws.set i (k,g.next c r)) := by
  intro j k' g' hj
  rcases thread_set_cases hj with ⟨-,hself⟩ | ⟨-,hj⟩
  · obtain ⟨rfl,rfl⟩ := Prod.mk.inj hself
    have hold := h i _ g hw
    intro hc
    cases c with
    | logDelete x loc =>
      cases r with
      | none => exact hold hc
      | some lsn => exact absurd (show g.committed = true from hc) (by simp [ha.2.2.1])
    | putXMax loc x =>
      cases r with
      | false => exact hold hc
      | true => exact absurd (show g.committed = true from hc) (by simp [ha.2.2.2.1])
    | clearXMax loc =>
      cases r with
      | false => exact hold hc
      | true => exact absurd (show g.committed = true from hc) (by simp [ha.2.2.1])
    | logCommit x =>
      cases r with
      | none => exact hold hc
      | some lsn => exact ha.2.2.2
    | fetchPage | allocatePage | insertTuple | logInsert => cases r <;> exact hold hc
    | _ => exact hold hc
  · exact h j k' g' hj

theorem Settled.spawn (h : Settled ws) (k : TableKey) : Settled (ws++[(k,({} : Watcher))]) := by
  intro i k' g hw
  rcases thread_concat_cases hw with hw | ⟨-,heq⟩
  · exact h i k' g hw
  · cases heq
    simp

namespace LogOk
variable {x₀ n : Nat} {w : List Entry} {ws : List (TableKey × Watcher)} {i : Nat} {k : TableKey} {g : Watcher}
theorem writerOf_eq (h : LogOk x₀ n w ws) (hw : ws[i]? = some (k,g)) (hx : g.tx = some x) :
    writerOf ws x = some (k,g) := by
  have hmem : (k,g) ∈ ws := mem_of_getElem? hw
  cases hf : writerOf ws x with
  | none =>
    have := find?_eq_none.1 hf (k,g) hmem
    simp [hx] at this
  | some p =>
    obtain ⟨k',g'⟩ := p
    have hx' : g'.tx = some x := by simpa using find?_some hf
    obtain ⟨j,hj⟩ := getElem?_of_mem (mem_of_find?_eq_some hf)
    obtain rfl := h.unique i j k k' g g' x hw hj hx hx'
    rw [← hw,← hj]

theorem take_of_commit (h : LogOk x₀ n w ws) {m : Nat} (hc : ⟨x,.commit⟩ ∈ w.take m) (he : e ∈ w)
    (hx : e.txID = x) : e ∈ w.take m := by
  have hpair := h.commitLast
  rw [← take_append_drop m w] at hpair he
  rcases mem_append.1 he with he | he
  · exact he
  · exact absurd hx ((pairwise_append.1 hpair).2.2 _ hc _ he rfl)

theorem op_cases (h : LogOk x₀ n w ws) (he : e ∈ w) :
    (∃ k loc t, e = ⟨e.txID,.pageInsert k loc e.txID t⟩) ∨ (∃ k loc, e = ⟨e.txID,.pageDelete k loc e.txID⟩) ∨
      e = ⟨e.txID,.commit⟩ := by
  obtain ⟨i,k,g,-,hg⟩ := h.own e he
  cases hg with
  | insert => exact .inl ⟨_,_,_,rfl⟩
  | delete => exact .inr (.inl ⟨_,_,rfl⟩)
  | commit => exact .inr (.inr rfl)

end LogOk

theorem commitEntry_of_ne (h : e.op ≠ .commit) : commitEntry ws v e = v := by
  unfold commitEntry
  split
  · rename_i hop _
    exact absurd hop h
  · rfl

theorem commitEntry_commit (h : writerOf ws x = some (k,g)) : commitEntry ws v ⟨x,.commit⟩ = g.apply k v := by
  simp [commitEntry,h]

theorem committedView_concat (ws : List (TableKey × Watcher)) (v0 : View) (w : List Entry) (e : Entry) :
    committedView ws v0 (w++[e]) = commitEntry ws (committedView ws v0 w) e := by simp [committedView]

theorem rowIs_concat_page (hop : e.op ≠ .commit) (hnew : ⟨e.txID,.commit⟩ ∉ w) (h : RowIs w k loc r₀ r) :
    RowIs (w++[e]) k loc r₀ r := by
  have hcommit : ∀ {x : Nat}, ⟨x,.commit⟩ ∈ w++[e] → ⟨x,.commit⟩ ∈ w := by
    intro x hx
    rcases mem_append.1 hx with hx | hx
    · exact hx
    · rw [← mem_singleton.1 hx] at hop
      exact absurd rfl hop
  refine h.mono (fun _ he => mem_append_left _ he) fun he _ hc => ⟨?_,hcommit hc⟩
  rcases mem_append.1 he with he | he
  · exact he
  · rw [← mem_singleton.1 he] at hnew
    exact absurd (hcommit hc) hnew

section
variable {base : Base} {x₀ y₀ : Nat} {s : Engine} {ws : List (TableKey × Watcher)}
theorem rowIs_concat_commit (h : Durable base x₀ y₀ s ws) (hset : Settled ws) {m : Nat} {i : Nat}
    (htake : s.wal.take (m+1) = s.wal.take m++[⟨x,.commit⟩]) (hnew : ⟨x,.commit⟩ ∉ s.wal.take m)
    (hw : ws[i]? = some (k,g)) (hx : g.tx = some x) (hcom : g.committed = true) {v0 : View} {k' : TableKey}
    (hr : RowIs (s.wal.take m) k' loc (v0 k' loc) (v k' loc)) :
    RowIs (s.wal.take (m+1)) k' loc (v0 k' loc) (g.apply k v k' loc) := by
  have hcommit : ⟨x,.commit⟩ ∈ s.wal.take (m+1) := by simp [htake]
  have hrecorded := h.sound.recorded i k g hw
  have hpage : ∀ {e : Entry}, e ∈ s.wal.take (m+1) → e.op ≠ .commit → e ∈ s.wal.take m := by
    intro e he hop
    rw [htake] at he
    rcases mem_append.1 he with he | he
    · exact he
    · rw [mem_singleton.1 he] at hop
      exact absurd rfl hop
  -- the records of the statement are its own list of changes
  have hdel : ⟨x,.pageDelete k' loc x⟩ ∈ s.wal.take (m+1) ↔ k' = k ∧ loc ∈ g.del := by
    constructor
    · intro hin
      have hwr := h.log.same_writer (mem_of_mem_take hin) hw hx
      cases hwr with
      | delete _ hl => exact ⟨rfl,hset i k g hw hcom loc hl⟩
    · rintro ⟨rfl,hl⟩
      obtain ⟨y,hy,hin⟩ := hrecorded.logged loc ((h.sound.steady.thread i _ g hw).del loc hl)
      obtain rfl := Option.some.inj (hx.symm.trans hy)
      exact h.log.take_of_commit hcommit hin rfl
  have hins : ∀ t, ⟨x,.pageInsert k' loc x t⟩ ∈ s.wal.take (m+1) ↔ k' = k ∧ (loc,t) ∈ g.ins := by
    intro t
    constructor
    · intro hin
      have hwr := h.log.same_writer (mem_of_mem_take hin) hw hx
      cases hwr with
      | insert _ hl => exact ⟨rfl,hl⟩
    · rintro ⟨rfl,hl⟩
      obtain ⟨y,hy,hin⟩ := hrecorded.ins _ hl
      obtain rfl := Option.some.inj (hx.symm.trans hy)
      exact h.log.take_of_commit hcommit hin rfl
  have hother : ∀ {y : Nat}, y ≠ x → (⟨y,.commit⟩ ∈ s.wal.take (m+1) ↔ ⟨y,.commit⟩ ∈ s.wal.take m) := by
    intro y hy
    rw [htake]
    simp [hy]
  -- a row the statement has not touched
  have hsame : ¬ (k' = k ∧ loc ∈ g.del) → (∀ t, ¬ (k' = k ∧ (loc,t) ∈ g.ins)) →
      RowIs (s.wal.take (m+1)) k' loc (v0 k' loc) (v k' loc) := by
    intro hnd hni
    refine hr.mono (fun e he => by rw [htake]; exact mem_append_left _ he) fun {y op} hy hop hc => ?_
    have hne : y ≠ x := by
      rintro rfl
      rcases hop with rfl | ⟨t,rfl⟩
      · exact hnd (hdel.1 hy)
      · exact hni t ((hins t).1 hy)
    exact ⟨hpage hy (by rcases hop with rfl | ⟨t,rfl⟩ <;> simp),(hother hne).1 hc⟩
  unfold Watcher.apply
  by_cases hk : k' = k
  · rw [if_pos hk]
    cases hf : g.ins.find? (fun p => p.1 = loc) with
    | some p =>
      obtain ⟨loc',t⟩ := p
      obtain rfl : loc' = loc := by simpa using find?_some hf
      have hmem := (hins t).2 ⟨hk,mem_of_find?_eq_some hf⟩
      have hnot : ¬ DeletedIn (s.wal.take (m+1)) k' loc' := by
        rintro ⟨y,hy,-⟩
        exact hnew (h.deletes.behind m y x k' loc' t (hpage hy (by simp)) (mem_of_mem_take hmem))
      refine ⟨fun hd => absurd hd hnot,fun _ t' ht' => ?_,fun _ hn => absurd ⟨x,hmem,hcommit⟩ (hn t)⟩
      obtain ⟨y,hy,-⟩ := ht'
      rw [(h.slots.wellLogged.insert_unique (mem_of_mem_take hmem) (mem_of_mem_take hy)).2.2]
    | none =>
      have hni : ∀ t, ¬ (k' = k ∧ (loc,t) ∈ g.ins) := by
        rintro t ⟨-,hin⟩
        simpa using find?_eq_none.1 hf _ hin
      by_cases hd : loc ∈ g.del
      · have hdeleted : DeletedIn (s.wal.take (m+1)) k' loc := ⟨x,hdel.2 ⟨hk,hd⟩,hcommit⟩
        refine ⟨fun _ => by simp [hd],fun hn => absurd hdeleted hn,fun hn => absurd hdeleted hn⟩
      · simp only [hd,if_false]
        exact hsame (fun hh => hd hh.2) hni
  · rw [if_neg hk]
    exact hsame (fun hh => hk hh.1) fun _ hh => hk hh.1

theorem committedView_rowIs (h : Durable base x₀ y₀ s ws) (hset : Settled ws) (v0 : View) (k : TableKey)
    (loc : PageSlot) (m : Nat) : RowIs (s.wal.take m) k loc (v0 k loc)
    (committedView ws v0 (s.wal.take m) k loc) := by
  induction m with
  | zero =>
    refine ⟨?_,fun _ t => ?_,fun _ _ => rfl⟩
    · rintro ⟨x,hx,-⟩
      simp at hx
    · rintro ⟨x,hx,-⟩
      simp at hx
  | succ m ih =>
    rcases lt_or_ge m s.wal.length with hlt | hge
    · have htake := take_succ_eq_append_getElem hlt
      generalize he : s.wal[m] = e at htake
      have hmem : e ∈ s.wal := he ▸ getElem_mem hlt
      have hnew : ⟨e.txID,.commit⟩ ∉ s.wal.take m := by
        intro hc
        have hpair := h.log.commitLast
        rw [← take_append_drop (m+1) s.wal,htake,append_assoc] at hpair
        exact (pairwise_append.1 hpair).2.2 _ hc e (by simp) rfl rfl
      rw [htake,committedView_concat]
      by_cases hop : e.op = .commit
      · obtain ⟨i,k',g,hw,hg⟩ := h.log.own e hmem
        cases hg with
        | insert | delete => cases hop
        | commit hx hcom =>
          rw [commitEntry_commit (h.log.writerOf_eq hw hx),← htake]
          exact rowIs_concat_commit h hset htake hnew hw hx hcom ih
      · rw [commitEntry_of_ne hop]
        exact rowIs_concat_page hop hnew ih
    · rw [take_of_length_le hge] at ih
      rw [take_of_length_le (by omega)]
      exact ih
end

section
variable {base : Base} {x₀ y₀ : Nat} {s : Engine} {ws : List (TableKey × Watcher)} {n : Nat} {order : List Nat}
  {k : TableKey} {loc : PageSlot}
section
variable (h : LogOk x₀ s.clock.txCounter s.wal ws)
include h
theorem mem_order (ho : UndoOrder (s.wal.take n) order) :
    x ∈ order ↔ (∃ e ∈ s.wal.take n, e.txID = x) ∧ ⟨x,.commit⟩ ∉ s.wal.take n := by
  have habort : ⟨x,.abort⟩ ∉ s.wal.take n := by
    intro hin
    rcases h.op_cases (mem_of_mem_take hin) with ⟨_,_,_,he⟩ | ⟨_,_,he⟩ | he <;> cases he
  rw [ho.mem_iff,mem_inProgress habort]
  refine and_iff_right_of_imp ?_
  rintro ⟨⟨e,he,rfl⟩,-⟩
  have := (h.tx_bound (mem_of_mem_take he)).1
  omega

theorem delete_eq (hin : ⟨y,.pageDelete k loc x⟩ ∈ s.wal) : y = x := by
  obtain ⟨_,_,_,-,hg⟩ := h.own _ hin
  cases hg
  rfl

theorem insert_eq (hin : ⟨y,.pageInsert k loc x t⟩ ∈ s.wal) : y = x := by
  obtain ⟨_,_,_,-,hg⟩ := h.own _ hin
  cases hg
  rfl
end

theorem lastStamp_redo_delete (h : Durable base x₀ y₀ s ws) (hin : ⟨x,.pageDelete k loc x⟩ ∈ s.wal.take n) :
    lastStamp loc.slot (opsOn (k,loc.pid) (redoPhase (s.wal.take n))) = some x := by
  cases hl : lastStamp loc.slot (opsOn (k,loc.pid) (redoPhase (s.wal.take n))) with
  | none => exact absurd (mem_opsOn_stamp.2 ⟨x,hin⟩) (lastStamp_eq_none.1 hl x)
  | some y =>
    obtain ⟨z,hz⟩ := mem_opsOn_stamp.1 (mem_of_lastStamp hl)
    obtain rfl := delete_eq h.log (mem_of_mem_take hz)
    rw [h.deletes.one z x k loc (mem_of_mem_take hz) (mem_of_mem_take hin)]

theorem lastStamp_redo_none (hdel : ∀ x, ⟨x,.pageDelete k loc x⟩ ∉ s.wal.take n)
    (h : LogOk x₀ s.clock.txCounter s.wal ws) :
    lastStamp loc.slot (opsOn (k,loc.pid) (redoPhase (s.wal.take n))) = none := by
  refine lastStamp_eq_none.2 fun x hx => ?_
  obtain ⟨y,hy⟩ := mem_opsOn_stamp.1 hx
  obtain rfl := delete_eq h (mem_of_mem_take hy)
  exact hdel y hy

section
variable (h : Durable base x₀ y₀ s ws) (ho : UndoOrder (s.wal.take n) order)
include h ho
theorem lastStamp_undo_insert (hin : ⟨x,.pageInsert k loc x t⟩ ∈ s.wal.take n) (hc : ⟨x,.commit⟩ ∉ s.wal.take n) :
    lastStamp loc.slot (opsOn (k,loc.pid) (undoPhase (s.wal.take n) order)) = some x := by
  have hsub : ∀ {e : Entry}, e ∈ s.wal.take n → e ∈ s.wal := fun he => mem_of_mem_take he
  rw [opsOn_undoPhase]
  refine lastStamp_flatMap (fun z hz u hu => ?_) ⟨x,(mem_order h.log ho).2 ⟨⟨_,hin,rfl⟩,hc⟩,fun hnone => ?_⟩
  · rcases mem_undoOps_iff.1 (mem_of_lastStamp hu) with ⟨rfl,y,t',hz'⟩ | ⟨rfl,y,hz'⟩
    · exact (h.slots.wellLogged.insert_unique (hsub hin) (hsub hz')).1
    · obtain rfl := delete_eq h.log (hsub hz')
      exact absurd (h.deletes.behind n z x k loc t hz' (hsub hin)) hc
  · exact lastStamp_eq_none.1 hnone x (mem_undoOps_iff.2 (.inl ⟨rfl,x,t,hin⟩))

theorem lastStamp_undo_delete (hin : ⟨x,.pageDelete k loc x⟩ ∈ s.wal.take n) (hc : ⟨x,.commit⟩ ∉ s.wal.take n) :
    lastStamp loc.slot (opsOn (k,loc.pid) (undoPhase (s.wal.take n) order)) = some 0 := by
  rw [opsOn_undoPhase]
  refine lastStamp_flatMap (fun z hz u hu => ?_) ⟨x,(mem_order h.log ho).2 ⟨⟨_,hin,rfl⟩,hc⟩,fun hnone => ?_⟩
  · rcases mem_undoOps_iff.1 (mem_of_lastStamp hu) with ⟨rfl,y,t',hz'⟩ | ⟨hu0,-⟩
    · obtain rfl := insert_eq h.log (mem_of_mem_take hz')
      exact absurd (h.deletes.behind n x u k loc t' hin (mem_of_mem_take hz')) ((mem_order h.log ho).1 hz).2
    · exact hu0
  · exact lastStamp_eq_none.1 hnone 0 (mem_undoOps_iff.2 (.inr ⟨rfl,x,hin⟩))

theorem lastStamp_undo_none (hins : ∀ x t, ⟨x,.pageInsert k loc x t⟩ ∈ s.wal.take n → ⟨x,.commit⟩ ∈ s.wal.take n)
    (hdel : ∀ x, ⟨x,.pageDelete k loc x⟩ ∈ s.wal.take n → ⟨x,.commit⟩ ∈ s.wal.take n) :
    lastStamp loc.slot (opsOn (k,loc.pid) (undoPhase (s.wal.take n) order)) = none := by
  rw [opsOn_undoPhase]
  refine lastStamp_eq_none.2 fun v hv => ?_
  obtain ⟨z,hz,hm⟩ := mem_flatMap.1 hv
  have hnot := ((mem_order h.log ho).1 hz).2
  rcases mem_undoOps_iff.1 hm with ⟨-,y,t,hz'⟩ | ⟨-,y,hz'⟩
  · obtain rfl := insert_eq h.log (mem_of_mem_take hz')
    exact hnot (hins _ t hz')
  · obtain rfl := delete_eq h.log (mem_of_mem_take hz')
    exact hnot (hdel _ hz')

theorem lastStamp_recoverySteps (k : TableKey) (loc : PageSlot) :
    (∀ x t, ⟨x,.pageInsert k loc x t⟩ ∈ s.wal.take n → ⟨x,.commit⟩ ∉ s.wal.take n →
      lastStamp loc.slot (opsOn (k,loc.pid) (recoverySteps (s.wal.take n) order)) = some x) ∧
    (∀ x, ⟨x,.pageDelete k loc x⟩ ∈ s.wal.take n →
      lastStamp loc.slot (opsOn (k,loc.pid) (recoverySteps (s.wal.take n) order)) =
        if ⟨x,.commit⟩ ∈ s.wal.take n then some x else some 0) ∧
    ((∀ x t, ⟨x,.pageInsert k loc x t⟩ ∈ s.wal.take n → ⟨x,.commit⟩ ∈ s.wal.take n) →
      (∀ x, ⟨x,.pageDelete k loc x⟩ ∉ s.wal.take n) →
      lastStamp loc.slot (opsOn (k,loc.pid) (recoverySteps (s.wal.take n) order)) = none) := by
  simp only [recoverySteps,opsOn_append,lastStamp_append]
  refine ⟨fun x t hin hc => ?_,fun x hin => ?_,fun hins hdel => ?_⟩
  · rw [lastStamp_undo_insert h ho hin hc,Option.some_or]
  · split
    · rename_i hc
      rw [lastStamp_undo_none h ho,Option.none_or,lastStamp_redo_delete h hin]
      · exact fun y t hy => h.deletes.behind n x y k loc t hin (mem_of_mem_take hy)
      · intro y hy
        rwa [h.deletes.one y x k loc (mem_of_mem_take hy) (mem_of_mem_take hin)]
    · rename_i hc
      rw [lastStamp_undo_delete h ho hin hc,Option.some_or]
  · rw [lastStamp_undo_none h ho hins fun x hx => absurd hx (hdel x),lastStamp_redo_none hdel h.log]
    rfl
end
end

namespace Clock

theorem visible_of_live (h : c.Synced) (hx : t.xmin ≤ c.txCounter) (hd : t.deletedTx = 0) : c.visible t = true := by
  rw [visible_iff h]
  exact ⟨hx,.inl (by simp [Tuple.xmax,hd])⟩

theorem not_visible_of_deleted (h : c.Synced) (hd : 0 < t.deletedTx)
    (hx : t.deletedTx ≤ c.txCounter) (hlt : t.deletedTx < 2^48) : c.visible t = false := by
  rw [← Bool.not_eq_true,visible_iff h,Tuple.xmax,mod_eq_of_lt hlt]
  omega

end Clock

namespace Tuple

theorem WrittenBy.xmin_eq (h : t.WrittenBy x) (hx : x < 2^48) : t.xmin = x := by
  rw [h.xmin_mod]
  exact mod_eq_of_lt hx

theorem WrittenBy.isHOTUpdated_eq_false (h : t.WrittenBy x) (hx : x < 2^48) : t.isHOTUpdated = false := by
  have hbit : (BitVec.ofNat 64 x).getLsbD 48 = false := by
    rw [BitVec.getLsbD_ofNat,testBit_lt_two_pow hx]
    rfl
  rw [isHOTUpdated_eq]
  rcases h.1 with hc | hc
  · rw [hc]
    exact hbit
  · rw [hc,BitVec.getLsbD_or,hbit]
    decide

end Tuple

def baseRow (base : Base) : View := fun k loc => ((base k loc).filter fun t => t.deletedTx = 0).map Tuple.data
def BaseOk (base : Base) (y₀ : Nat) : Prop := ∀ k loc t, base k loc = some t → t.xmin ≤ y₀ ∧ t.deletedTx ≤ y₀

section
variable {base : Base} {x₀ y₀ : Nat} {s : Engine} {ws : List (TableKey × Watcher)} {n : Nat} {order : List Nat}
  {k : TableKey} {p q : Page} {loc : PageSlot} {pid : PageID}
theorem openTables_of_page (h : s.HasSchemas) (hp : s.diskPage k pid = some p) : s.disk.openTables k = true := by
  obtain ⟨t,ht,hr⟩ := Option.bind_eq_some_iff.1 hp
  have hschema := h k t ht
  have hseg : t.dir.heap.segments ≠ [] := by
    intro hnil
    simp [HeapFile.readPage,hnil] at hr
  simp [Disk.openTables,Engine.disk,ht,TableDir.canOpen,hseg,Option.isSome_iff_ne_none,hschema]

section
variable (h : Durable base x₀ y₀ s ws)
include h
theorem Durable.replayable (n : Nat) : Replayable (s.wal.take n) (recoveryStart s.disk (s.wal.take n)) := by
  constructor
  · intro e he k loc hs
    have hmem := h.slots.named e (mem_of_mem_take he) k loc hs
    have hdisk : s.diskPage k loc.pid ≠ none := by
      intro hnone
      refine hmem ?_
      rw [mem,page_eq]
      cases hf : s.frame k loc.pid with
      | none => simp [hnone]
      | some f => exact absurd hnone (h.sound.steady.backed k _ f hf)
    obtain ⟨p,hp⟩ := Option.ne_none_iff_exists'.1 hdisk
    exact ⟨openTables_of_page h.schemas hp,p,(s.page_disk k loc.pid).trans hp⟩
  · intro e he k schema hop
    rcases h.log.op_cases (mem_of_mem_take he) with ⟨_,_,_,heq⟩ | ⟨_,_,heq⟩ | heq <;>
      rw [heq] at hop <;> cases hop
  · intro e he k hop
    rcases h.log.op_cases (mem_of_mem_take he) with ⟨_,_,_,heq⟩ | ⟨_,_,heq⟩ | heq <;>
      rw [heq] at hop <;> cases hop

theorem Durable.holds (hq : s.page k pid = some q) (n : Nat) :
    q.Holds (opsOn (k,pid) (redoPhase (s.wal.take n))) := by
  have hrec : ∀ {m : Nat} {t : Tuple}, .insert m t ∈ opsOn (k,pid) (redoPhase (s.wal.take n)) →
      ∃ x, ⟨x,.pageInsert k ⟨pid,m⟩ x t⟩ ∈ s.wal := by
    intro m t hm
    obtain ⟨x,y,hin⟩ := mem_opsOn_insert.1 hm
    obtain rfl := insert_eq h.log (mem_of_mem_take hin)
    exact ⟨x,mem_of_mem_take hin⟩
  refine ⟨wellLogged_opsOn (h.slots.wellLogged.sublist (take_sublist n _)) _,fun m t hm => ?_,fun m t hm => ?_,
    fun m t hm => ?_⟩
  · obtain ⟨x,hx⟩ := hrec hm
    obtain ⟨e,he,hd⟩ := mem_of_insert h.sound h.slots hx
    exact ⟨e,by simpa [mem,hq] using he,hd⟩
  · obtain ⟨x,hx⟩ := hrec hm
    exact (h.slots.inserted x k _ x t hx).2.1
  · obtain ⟨x,hx⟩ := hrec hm
    refine (h.slots.inserted x k _ x t hx).2.2.isHOTUpdated_eq_false ?_
    have hle : x ≤ s.clock.txCounter := (h.log.tx_bound hx).2
    have := h.counter.2
    omega

theorem Durable.replayOps (n : Nat) (order : List Nat) (hp : s.diskPage k pid = some p) :
    ∃ r, p.replayOps (opsOn (k,pid) (recoverySteps (s.wal.take n) order)) = .ok r := by
  obtain ⟨q,hq⟩ : ∃ q, s.page k pid = some q := by
    rw [page_eq]
    cases s.frame k pid with
    | none => exact ⟨p,hp⟩
    | some f => exact ⟨f.page,rfl⟩
  have hroom : q.lack (opsOn (k,pid) (redoPhase (s.wal.take n))) ≤ q.freeSpace := by
    have hall := h.pages.room k pid q hq
    rw [← take_append_drop n s.wal,opsOn_redoPhase_append,Page.lack_append] at hall
    omega
  obtain ⟨r,hr⟩ := Page.replayOps_of_grows (h.pages.grown k pid p q hp hq) (h.holds hq n) hroom
  rw [recoverySteps,opsOn_append]
  exact ⟨_,replay_append_eq_ok.2 ⟨r,hr,Page.replayOps_stamps (isInsert_undo fun _ => undoPhase_undo)⟩⟩

theorem Durable.disk_base (hn : s.synced ≤ n)
    (hno : ∀ x t, ⟨x,.pageInsert k loc x t⟩ ∉ s.wal.take n) {e : Tuple} (he : s.disk.tuple k loc = some e) :
    ∃ t0, base k loc = some t0 ∧ e.data = t0.data ∧ e.xmin = t0.xmin ∧
      (e.deletedTx = t0.deletedTx ∨ ⟨e.deletedTx,.pageDelete k loc e.deletedTx⟩ ∈ s.wal.take n ∨
        e.deletedTx = 0 ∧ t0.deletedTx = 0) := by
  have hsub : ∀ {e : Entry}, e ∈ s.wal.take s.synced → e ∈ s.wal.take n :=
    fun he => (take_prefix_take_left hn).subset he
  have hacc := h.pages.logged k loc e he
  obtain ⟨t0,hsrc,hdata,hcr⟩ := hacc.version
  have hb : base k loc = some t0 := hsrc.resolve_right fun ⟨x,hx⟩ => hno x t0 (hsub hx)
  refine ⟨t0,hb,hdata,?_,?_⟩
  · rcases hcr with hcr | ⟨m,t1,-,hcr⟩
    · rw [Tuple.xmin,hcr]
      rfl
    · rw [← Tuple.xmin_setHOTUpdated t0 m,Tuple.xmin,hcr]
      rfl
  · by_cases hz : t0.deletedTx = 0
    · rcases hacc.stamp with hs | ⟨t',ht',hs⟩ | hs
      · exact .inr (.inr ⟨hs,hz⟩)
      · obtain rfl := Option.some.inj (hb.symm.trans ht')
        exact .inl hs.symm
      · exact .inr (.inl (hsub hs))
    · exact .inl (h.stamps k loc t0 e hb hz (.inr he))

structure Passed (y₀ : Nat) (w : List Entry) (c : Clock) : Prop where
  synced : c.Synced
  record : ∀ x op, ⟨x,op⟩ ∈ w → ((∃ k loc t, op = .pageInsert k loc x t) ∨ ∃ k loc, op = .pageDelete k loc x) →
    0 < x ∧ x ≤ c.txCounter ∧ x < 2^48
  start : y₀ ≤ c.txCounter ∧ y₀ < 2^48

theorem Durable.passed (n : Nat) (order : List Nat) :
    Passed y₀ (s.wal.take n) ((recoverySteps (s.wal.take n) order).foldl advance
      (recoveryStart s.disk (s.wal.take n)).clock) := by
  obtain ⟨hsync0,hle0⟩ := recoveryStart_clock s.disk (s.wal.take n)
  obtain ⟨hsync,hle⟩ := foldl_advance hsync0 (recoverySteps (s.wal.take n) order)
  obtain ⟨hlo,hhi⟩ := h.counter
  obtain ⟨hyx,hys⟩ := h.saved
  refine ⟨hsync,fun x op hin hop => ?_,?_,by omega⟩
  · obtain ⟨hx0,hxc⟩ : x₀ < x ∧ x ≤ s.clock.txCounter := h.log.tx_bound (mem_of_mem_take hin)
    have hpos : 0 < x := by omega
    have hredo : .redo ⟨x,op⟩ ∈ recoverySteps (s.wal.take n) order := mem_append_left _ (mem_map.2 ⟨_,hin,rfl⟩)
    have hlt := lt_foldl_advance hsync0 hpos hredo hop
    omega
  · have hsaved : s.savedTx ≤ (recoveryStart s.disk (s.wal.take n)).clock.txCounter := hle0
    omega
end

theorem Passed.hidden (hc : Passed y₀ w c) (hy : ⟨y,.pageDelete k loc y⟩ ∈ w)
    (hz : t.deletedTx = y) : c.visible t = false := by
  obtain ⟨hy0,hyc,hy48⟩ := hc.record y _ hy (.inr ⟨k,loc,rfl⟩)
  exact Clock.not_visible_of_deleted hc.synced (by omega) (by omega) (by omega)

section
variable (h : Durable base x₀ y₀ s ws) (hn : s.synced ≤ n) (ho : UndoOrder (s.wal.take n) order)
  (hp : s.diskPage k loc.pid = some p)
  (hq : p.replayOps (opsOn (k,loc.pid) (recoverySteps (s.wal.take n) order)) = .ok q)
include h hn ho hp hq
theorem Durable.slot_insert (hin : ⟨x,.pageInsert k loc x t⟩ ∈ s.wal.take n) :
    ∃ e, q.getTuple loc.slot = some e ∧ e.SameVersion t ∧ (⟨x,.commit⟩ ∉ s.wal.take n → e.deletedTx = x) ∧
      (∀ y, ⟨y,.pageDelete k loc y⟩ ∈ s.wal.take n → ⟨y,.commit⟩ ∈ s.wal.take n → e.deletedTx = y) ∧
      (⟨x,.commit⟩ ∈ s.wal.take n → ¬ DeletedIn (s.wal.take n) k loc → e.deletedTx = 0) := by
  have hwl : PageOp.WellLogged (opsOn (k,loc.pid) (recoverySteps (s.wal.take n) order)) := by
    rw [recoverySteps,opsOn_append]
    refine pairwise_append.2 ⟨wellLogged_opsOn (h.slots.wellLogged.sublist (take_sublist n _)) _,?_,?_⟩
    · refine pairwise_of_forall_mem_list fun a _ b hb hi => ?_
      rw [isInsert_undo (fun _ => undoPhase_undo) b hb] at hi
      cases hi
    · intro a _ b hb hi
      rw [isInsert_undo (fun _ => undoPhase_undo) b hb] at hi
      cases hi
  have hmem : .insert loc.slot t ∈ opsOn (k,loc.pid) (recoverySteps (s.wal.take n) order) := by
    rw [recoverySteps,opsOn_append]
    exact mem_append_left _ (mem_opsOn_insert.2 ⟨x,x,hin⟩)
  obtain ⟨hopen,hdel,hnone⟩ := lastStamp_recoverySteps h ho k loc
  have hget := Page.getTuple_replayOps_insert hwl hq hmem
  generalize hl : lastStamp loc.slot _ = l at hopen hdel hnone hget
  refine ⟨_,hget,Page.sameVersion_insertedOver t _,fun hc => ?_,fun y hy hc => ?_,fun hc hnd => ?_⟩
  · rw [hopen x t hin hc]
    rfl
  · rw [hdel y hy,if_pos hc]
    rfl
  · by_cases hex : ∃ y, ⟨y,.pageDelete k loc y⟩ ∈ s.wal.take n
    · obtain ⟨y,hy⟩ := hex
      rw [hdel y hy,if_neg fun hc' => hnd ⟨y,hy,hc'⟩]
      rfl
    · -- no record stamps the row: it is as the log or the disk has it
      have hno : ∀ y, ⟨y,.pageDelete k loc y⟩ ∉ s.wal.take n := fun y hy => hex ⟨y,hy⟩
      obtain ⟨hbase,-,hwr⟩ := h.slots.inserted x k loc x t (mem_of_mem_take hin)
      rw [hnone (fun y t' hy => ?_) hno]
      · show (Page.insertedOver t (p.getTuple loc.slot)).deletedTx = 0
        cases hpt : p.getTuple loc.slot with
        | none => exact hwr.2
        | some e =>
          simp only [Page.insertedOver]
          split
          · have hdisk : s.disk.tuple k loc = some e := by
              rw [tuple_disk,hp,Option.bind_some,hpt]
            rcases (h.pages.logged k loc e hdisk).stamp with hz | ⟨t',ht',-⟩ | hz
            · exact hz
            · rw [hbase] at ht'
              cases ht'
            · exact absurd ((take_prefix_take_left hn).subset hz) (hno _)
          · exact hwr.2
      · obtain ⟨rfl,-⟩ := h.slots.wellLogged.insert_unique (mem_of_mem_take hin) (mem_of_mem_take hy)
        exact hc

theorem Durable.slot_base (hno : ∀ x t, ⟨x,.pageInsert k loc x t⟩ ∉ s.wal.take n) :
    (q.getTuple loc.slot = none ∧ base k loc = none) ∨
    ∃ e t0, q.getTuple loc.slot = some e ∧ base k loc = some t0 ∧ e.data = t0.data ∧ e.xmin = t0.xmin ∧
      (∀ y, ⟨y,.pageDelete k loc y⟩ ∈ s.wal.take n → ⟨y,.commit⟩ ∈ s.wal.take n → e.deletedTx = y) ∧
      (¬ DeletedIn (s.wal.take n) k loc → e.deletedTx = t0.deletedTx) := by
  have hins : ∀ o ∈ opsOn (k,loc.pid) (recoverySteps (s.wal.take n) order), o.isInsert = true →
    o.slot ≠ loc.slot := by
    intro o hin hi hs
    rw [recoverySteps,opsOn_append] at hin
    rcases mem_append.1 hin with hin | hin
    · cases o with
      | stamp => cases hi
      | insert m t =>
        obtain ⟨x,y,hrec⟩ := mem_opsOn_insert.1 hin
        obtain rfl := insert_eq h.log (mem_of_mem_take hrec)
        obtain rfl : m = loc.slot := hs
        exact hno x t hrec
    · rw [isInsert_undo (fun _ => undoPhase_undo) o hin] at hi
      cases hi
  obtain ⟨-,hdel,hnone⟩ := lastStamp_recoverySteps h ho k loc
  rw [Page.getTuple_replayOps hins hq]
  generalize hl : lastStamp loc.slot _ = l at hdel hnone
  have hdisk : s.disk.tuple k loc = p.getTuple loc.slot := by rw [tuple_disk,hp,Option.bind_some]
  cases he0 : p.getTuple loc.slot with
  | none =>
    refine .inl ⟨rfl,?_⟩
    by_contra hb
    exact h.pages.kept k loc hb (hdisk.trans he0)
  | some e0 =>
  obtain ⟨t0,hb,hdata,hxmin,hstamp⟩ := h.disk_base hn hno (hdisk.trans he0)
  refine .inr ⟨_,t0,rfl,hb,hdata,hxmin,fun y hy hc => ?_,fun hnd => ?_⟩
  · rw [hdel y hy,if_pos hc]
    rfl
  · by_cases hex : ∃ y, ⟨y,.pageDelete k loc y⟩ ∈ s.wal.take n
    · obtain ⟨y,hy⟩ := hex
      rw [hdel y hy,if_neg fun hc' => hnd ⟨y,hy,hc'⟩]
      exact (h.deletes.live y k loc t0 (mem_of_mem_take hy) hb).symm
    · have hno' : ∀ y, ⟨y,.pageDelete k loc y⟩ ∉ s.wal.take n := fun y hy => hex ⟨y,hy⟩
      rw [hnone (fun y t hy => absurd hy (hno y t)) hno']
      rcases hstamp with hs | hs | ⟨hs,hz⟩
      · exact hs
      · exact absurd hs (hno' _)
      · exact hs.trans hz.symm

theorem Durable.row_insert (hc : Passed y₀ (s.wal.take n) c) (hin : ⟨x,.pageInsert k loc x t⟩ ∈ s.wal.take n) :
    RowIs (s.wal.take n) k loc (baseRow base k loc) (((q.getTuple loc.slot).filter c.visible).map Tuple.data) := by
  obtain ⟨e,he,hv,hopen,hdel,hlive⟩ := h.slot_insert hn ho hp hq hin
  obtain ⟨hx0,hxc,hx48⟩ := hc.record x _ hin (.inl ⟨k,loc,t,rfl⟩)
  obtain ⟨hbase,-,hwr⟩ := h.slots.inserted x k loc x t (mem_of_mem_take hin)
  have hxmin : e.xmin = x := by
    rw [Tuple.xmin,hv.1]
    exact hwr.xmin_eq hx48
  rw [he,Option.filter_some]
  refine ⟨?_,fun hnd t' ht' => ?_,fun hnd hni => ?_⟩
  · rintro ⟨y,hy,hcom⟩
    rw [hc.hidden hy (hdel y hy hcom)]
    rfl
  · obtain ⟨y,hy,hcom⟩ := ht'
    obtain ⟨rfl,-,rfl⟩ := h.slots.wellLogged.insert_unique (mem_of_mem_take hin) (mem_of_mem_take hy)
    rw [Clock.visible_of_live hc.synced (by omega) (hlive hcom hnd)]
    simp [hv.2]
  · have hz := hopen fun hcom => hni t ⟨x,hin,hcom⟩
    rw [Clock.not_visible_of_deleted hc.synced (by omega) (by omega) (by omega)]
    simp [baseRow,hbase]

theorem Durable.row_base (hb : BaseOk base y₀) (hc : Passed y₀ (s.wal.take n) c)
    (hno : ∀ x t, ⟨x,.pageInsert k loc x t⟩ ∉ s.wal.take n) :
    RowIs (s.wal.take n) k loc (baseRow base k loc) (((q.getTuple loc.slot).filter c.visible).map Tuple.data) := by
  rcases h.slot_base hn ho hp hq hno with ⟨hnone,hbase⟩ | ⟨e,t0,he,hbase,hdata,hxmin,hdel,hlive⟩
  · rw [hnone]
    exact ⟨fun _ => rfl,fun _ t ⟨x,hx,_⟩ => absurd hx (hno x t),fun _ _ => by simp [baseRow,hbase]⟩
  · obtain ⟨hx0,hd0⟩ := hb k loc t0 hbase
    obtain ⟨hyc,hy48⟩ := hc.start
    rw [he,Option.filter_some]
    refine ⟨?_,fun _ t ⟨x,hx,_⟩ => absurd hx (hno x t),fun hnd _ => ?_⟩
    · rintro ⟨y,hy,hcom⟩
      rw [hc.hidden hy (hdel y hy hcom)]
      rfl
    · have hz := hlive hnd
      by_cases hd : t0.deletedTx = 0
      · rw [Clock.visible_of_live hc.synced (by omega) (hz.trans hd)]
        simp [baseRow,hbase,hd,hdata]
      · rw [Clock.not_visible_of_deleted hc.synced (by omega) (by omega) (by omega)]
        simp [baseRow,hbase,hd]
end

theorem Durable.recover (h : Durable base x₀ y₀ s ws) (hb : BaseOk base y₀) (hn : s.synced ≤ n)
    (ho : UndoOrder (s.wal.take n) order) : ∃ st, recoverFromWAL s.disk (s.wal.take n) order = .ok st ∧
      ∀ k loc, RowIs (s.wal.take n) k loc (baseRow base k loc) (st.currentRow k loc) := by
  have hr := h.replayable n
  have hcov : ∀ o ∈ recoverySteps (s.wal.take n) order, o.entry ∈ s.wal.take n :=
    fun o ho => entry_mem_recoverySteps ho
  obtain ⟨s1,hs1⟩ := replay_runStep_total hr hcov fun k pid p hp =>
    h.replayOps n order ((s.page_disk k pid).symm.trans hp)
  refine ⟨_,recoverFromWAL_eq_ok.2 ⟨s1,hs1,rfl⟩,fun k loc => ?_⟩
  obtain ⟨hclock,hopened,-⟩ := clock_replay hs1
  have hpassed := h.passed n order
  rw [← hclock] at hpassed
  cases hp : s.diskPage k loc.pid with
  | none =>
    have hpage := page_replay_none hr hcov hs1 ((s.page_disk k loc.pid).trans hp)
    have hrow : currentRow { s1 with opened := fun k => s1.opened k || s1.disk.openTables k } k loc =
        none := by simp [currentRow,tuple,Disk.tuple,hpage]
    rw [hrow]
    refine ⟨fun _ => rfl,fun _ t ht => ?_,fun _ _ => ?_⟩
    · obtain ⟨x,hx,-⟩ := ht
      obtain ⟨-,p,hpage'⟩ := hr.page _ hx k loc rfl
      have hdisk := (s.page_disk k loc.pid).symm.trans hpage'
      rw [hp] at hdisk
      cases hdisk
    · have hbase : base k loc = none := by
        by_contra hne
        exact h.pages.kept k loc hne (by rw [tuple_disk,hp]; rfl)
      simp [baseRow,hbase]
  | some p =>
    obtain ⟨q,hq,hpage⟩ := page_replay hr hcov hs1 ((s.page_disk k loc.pid).trans hp)
    have hopen : s1.opened k = true := by
      rw [hopened]
      exact openTables_of_page h.schemas hp
    have hrow : currentRow { s1 with opened := fun k => s1.opened k || s1.disk.openTables k } k loc =
        ((q.getTuple loc.slot).filter s1.clock.visible).map Tuple.data := by
      simp [currentRow,tuple,Disk.tuple,hpage,hopen]
    rw [hrow]
    by_cases hins : ∃ x t, ⟨x,.pageInsert k loc x t⟩ ∈ s.wal.take n
    · obtain ⟨x,t,hin⟩ := hins
      exact h.row_insert hn ho hp hq hpassed hin
    · exact h.row_base hn ho hp hq hb hpassed fun x t hx => hins ⟨x,t,hx⟩
end

/-- An engine that has just been opened: nothing is cached, the log is empty, and the saved
catalog covers every id on the pages. -/
structure Engine.Opened (s : Engine) : Prop where
  cold : ∀ k pid, s.frame k pid = none
  wal : s.wal = []
  synced : s.synced = 0
  schemas : s.HasSchemas
  ids : BaseOk s.mem s.savedTx
  clock : s.clock.Synced ∧ s.savedTx ≤ s.clock.txCounter ∧ s.clock.txCounter < 2^48

def Engine.currentRow (s : Engine) : View := fun k loc => ((s.mem k loc).filter s.clock.visible).map Tuple.data

/-- The engine after a start: nothing is cached and the log is empty. -/
structure Engine.Started (s : Engine) : Prop where
  cold : ∀ k pid, s.frame k pid = none
  wal : s.wal = []
  synced : s.synced = 0
  schemas : s.HasSchemas
  counter : s.clock.txCounter < 2^48

theorem Engine.Opened.started (h : s.Opened) : s.Started := ⟨h.cold,h.wal,h.synced,h.schemas,h.clock.2.2⟩

theorem Durable.started (h : s.Started) {y₀ : Nat} (hy : y₀ ≤ s.clock.txCounter ∧ y₀ ≤ s.savedTx) :
    Durable s.mem s.clock.txCounter y₀ s [] := by
  have hwal := h.wal
  refine ⟨.start h.cold _,?_,fun k pid f hf => ?_,?_,?_,fun k loc t0 t hb hne hor => ?_,
    .start h.cold hwal h.synced,h.schemas,⟨le_refl _,h.counter⟩,hy⟩
  · rw [hwal]
    exact .start
  · rw [h.cold] at hf
    cases hf
  · rw [hwal]
    exact .start s
  · rw [hwal]
    exact ⟨by simp,by simp,by simp⟩
  · have hdisk : s.disk.tuple k loc = s.mem k loc := by
      rw [tuple_disk,mem,page_of_no_frame (h.cold k loc.pid)]
    rw [hdisk,or_self,hb] at hor
    rw [← Option.some.inj hor]

theorem Engine.Opened.currentRow_eq (h : s.Opened) : s.currentRow = baseRow s.mem := by
  funext k loc
  obtain ⟨hsync,hle,hlt⟩ := h.clock
  rw [currentRow,baseRow]
  cases ht : s.mem k loc with
  | none => rfl
  | some t =>
    obtain ⟨hmin,hmax⟩ := h.ids k loc t ht
    rw [Option.filter_some,Option.filter_some]
    by_cases hd : t.deletedTx = 0
    · rw [Clock.visible_of_live hsync (le_trans hmin hle) hd]
      simp [hd]
    · rw [Clock.not_visible_of_deleted hsync (by omega) (by omega) (by omega)]
      simp [hd]

/-- The steps after which recovery is right. -/
def RecoverableStep (base : Base) (cf : RowConfig) : Event Cmd Cmd.Res TableKey EnvEvent → Prop
  | .run _ k c r => cf.state.Recoverable k c r
  | .env (.flushPage k pid) => cf.state.Flushable base k pid
  | .env .checkpoint => False
  | _ => True

section
variable [BEq V] {R : RowOps V} (h : (rowMachine R).Reach (RecoverableStep s₀.mem) s₀ cf)
include h
theorem durable_of_started {x₀ y₀ : Nat} (h0 : Durable s₀.mem x₀ y₀ s₀ []) :
    Durable s₀.mem x₀ y₀ cf.state cf.watchers ∧ Settled cf.watchers := by
  exact (Machine.Reach.inv follows_started
    (fun s ws => Durable s₀.mem x₀ y₀ s ws ∧ Settled ws) ⟨h0,fun i k g hw => by simp at hw⟩
    (fun cf k p hs _ _ => ⟨hs.1.spawn k,hs.2.spawn k⟩)
    (fun cf i k g c r s hs hw ha he hok => ⟨hs.1.run hw ha hok (shape he),hs.2.run hw ha⟩)
    (fun cf e s hs he hok => by
      have hne : e ≠ .checkpoint := by
        rintro rfl
        exact hok
      refine ⟨hs.1.env hne ?_ he,hs.2⟩
      rintro k pid rfl
      exact hok) h).1
end

section
variable [BEq V] {R : RowOps V} (h0 : s₀.Opened) (h : (rowMachine R).Reach (RecoverableStep s₀.mem) s₀ cf)
include h0 h
theorem durable_of_reach : Durable s₀.mem s₀.clock.txCounter s₀.savedTx cf.state cf.watchers ∧ Settled cf.watchers :=
  durable_of_started h (.started h0.started ⟨h0.clock.2.1,le_refl _⟩)

theorem recover_of_reach {n : Nat} (hn : cf.state.synced ≤ n)
    {order : List Nat} (ho : UndoOrder (cf.state.wal.take n) order) :
    ∃ st, recoverFromWAL cf.state.disk (cf.state.wal.take n) order = .ok st ∧
      ∀ k loc, st.currentRow k loc = committedView cf.watchers s₀.currentRow (cf.state.wal.take n) k loc := by
  obtain ⟨hdur,hset⟩ := durable_of_reach h0 h
  obtain ⟨st,hst,hrow⟩ := hdur.recover h0.ids hn ho
  refine ⟨st,hst,fun k loc => (hrow k loc).unique ?_⟩
  have hview := committedView_rowIs hdur hset s₀.currentRow k loc n
  rwa [h0.currentRow_eq] at hview ⊢
end

/-- A crash at any point of a run of such steps: whatever pages had been written, whatever is lost
of the log behind its durable end and in whatever order undo goes, recovery shows the rows of the
statements whose commit record is in the log, applied in commit order, and nothing else. -/
theorem crash_recovery {V : Type} [BEq V] {R : RowOps V} {s₀ : Engine} (h₀ : s₀.Opened) {cf : RowConfig}
    (h : (rowMachine R).Reach (RecoverableStep s₀.mem) s₀ cf) {n : Nat} (hn : cf.state.synced ≤ n)
    {order : List Nat} (ho : UndoOrder (cf.state.wal.take n) order) :
    ∃ st, recoverFromWAL cf.state.disk (cf.state.wal.take n) order = .ok st ∧
      ∀ k loc, st.currentRow k loc = committedView cf.watchers s₀.currentRow (cf.state.wal.take n) k loc :=
  recover_of_reach h₀ h hn ho

theorem emptyUsers_opened : emptyUsers.Opened := by
  refine ⟨emptyUsers_frame,rfl,rfl,fun k t ht => ?_,fun k loc t ht => ?_,le_refl 0,le_refl 0,by decide⟩
  · simp only [emptyUsers] at ht
    split at ht
    · cases ht
      simp
    · cases ht
  · rw [emptyUsers_mem] at ht
    cases ht

def insertStep (cf : RowConfig) : Event Cmd Cmd.Res TableKey EnvEvent → Bool
  | .run _ _ .nextTxID _ => cf.state.clock.txCounter+1 < 2^48
  | .run _ k (.insertTuple pid t) r =>
    r = none || ((cf.state.frame k pid).isSome && (cf.state.page k pid).all fun p =>
      p.lack (RecoveryStep.opsOn (k,pid) (redoPhase cf.state.wal))+(t.length+itemPointerSize) ≤ p.freeSpace)
  | .run _ _ (.setHOTUpdated _ _) _ => false
  | .run _ _ (.logInsert _ _ _) r => Option.isSome r
  | .run _ _ (.logDelete _ _) _ => false
  | .run _ _ (.logCommit _) r => Option.isSome r
  | .env (.flushPage _ _) => false
  | .env .checkpoint => false
  | _ => true

theorem insertStep_sound {base : Base} (cf : RowConfig) (ev : Event Cmd Cmd.Res TableKey EnvEvent)
    (h : insertStep cf ev = true) : RecoverableStep base cf ev := by
  cases ev with
  | spawn => trivial
  | env e =>
    cases e with
    | flushPage | checkpoint => cases h
    | _ => trivial
  | run i k c r =>
    cases c with
    | setHOTUpdated | logDelete => cases h
    | nextTxID => exact ⟨id,fun _ => of_decide_eq_true h,trivial,nofun⟩
    | insertTuple pid t =>
      refine ⟨id,nofun,?_,nofun⟩
      cases r with
      | none => trivial
      | some slot =>
        have h' : (cf.state.frame k pid).isSome = true ∧ ((cf.state.page k pid).all fun p =>
            p.lack (opsOn (k,pid) (redoPhase cf.state.wal))+(t.length+itemPointerSize) ≤
              p.freeSpace) = true := by simpa [insertStep] using h
        refine ⟨Option.isSome_iff_ne_none.1 h'.1,fun p hp => ?_⟩
        simpa [hp] using h'.2
    | logInsert | logCommit =>
      refine ⟨?_,nofun,trivial,nofun⟩
      rintro rfl
      cases h
    | _ => exact ⟨id,nofun,trivial,nofun⟩

/-- One row is inserted; the crash comes before any page is written. -/
theorem crash_recovery_insert :
    ∃ cf : RowConfig, (rowMachine byteRows).Reach (RecoverableStep emptyUsers.mem) emptyUsers cf ∧
      cf.state.wal = [⟨1, .pageInsert users ⟨⟨0, 0⟩, 0⟩ 1 ⟨1#64, 0, [7]⟩⟩, ⟨1, .commit⟩] ∧
      ∃ st, recoverFromWAL cf.state.disk (cf.state.wal.take 2) [] = .ok st ∧
        ∀ k loc, st.currentRow k loc = committedView cf.watchers emptyUsers.currentRow
        (cf.state.wal.take 2) k loc := by
  have hwal : (Move.play insertStep ⟨emptyUsers,spawned [(users,insertSeven)]⟩
      (replicate 17 (.step 0))).map (fun cf => (cf.state.wal,cf.state.synced)) =
        some ([⟨1,.pageInsert users ⟨⟨0,0⟩,0⟩ 1 ⟨1#64,0,[7]⟩⟩,⟨1,.commit⟩],0) := by decide
  obtain ⟨cf,hreach,hwal⟩ := reach_sample insertStep_sound (fun _ _ _ => trivial)
    (by simpa using insertSeven_statement) hwal
  obtain ⟨hwal,hsync⟩ := Prod.mk.inj hwal
  refine ⟨cf,hreach,hwal,crash_recovery emptyUsers_opened hreach ?_ ?_⟩
  · exact le_trans (le_of_eq hsync) (zero_le 2)
  · rw [hwal,UndoOrder]
    decide

def failedUpdate : Exec Int :=
  updateRowsVM byteRows users none (fun _ => .ok true) (fun row => .ok row) (fun _ _ => .error "check failed")

def deleteFirst : Exec Int := deleteRows byteRows users [0]

/-- An insert, an update that its validation stops after the delete record, a delete of the same
row that commits: undo of the update clears the stamp of the delete, and the row is back. -/
theorem undo_revives_deleted_row :
    ∃ cf : RowConfig, (rowMachine byteRows).Reach (fun _ _ => True) emptyUsers cf ∧ cf.state.synced = 0 ∧
      UndoOrder cf.state.wal [2] ∧
      committedView cf.watchers emptyUsers.currentRow cf.state.wal users ⟨⟨0, 0⟩, 0⟩ = none ∧
      ∃ st, recoverFromWAL cf.state.disk cf.state.wal [2] = .ok st ∧
        st.currentRow users ⟨⟨0, 0⟩, 0⟩ = some [7] := by
  have hss : ∀ x ∈ [(users,insertSeven),(users,failedUpdate),(users,deleteFirst)],
    RowStatement byteRows x.1 x.2 := by
    have hupd : RowStatement byteRows users failedUpdate := by
      unfold failedUpdate
      exact .updateRowsVM _ _ _ _
    have hdel : RowStatement byteRows users deleteFirst := by
      unfold deleteFirst
      exact .deleteRows [0]
    simp [insertSeven_statement,hupd,hdel]
  have hrow : (Move.play (fun _ _ => true)
      ⟨emptyUsers,spawned [(users,insertSeven),(users,failedUpdate),(users,deleteFirst)]⟩
      (replicate 17 (.step 0)++replicate 14 (.step 1)++replicate 13 (.step 2))).map (fun cf =>
        (cf.state.synced,(analyzeTransactions cf.state.wal).inProgress,
          committedView cf.watchers emptyUsers.currentRow cf.state.wal users ⟨⟨0,0⟩,0⟩,
          (recoverFromWAL cf.state.disk cf.state.wal [2]).toOption.bind fun st =>
            st.currentRow users ⟨⟨0,0⟩,0⟩)) = some (0,[2],none,some [7]) := by decide +kernel
  obtain ⟨cf,hcf,hrow⟩ := reach_sample (fun _ _ _ => trivial) (fun _ _ _ => trivial) hss hrow
  simp only [Prod.mk.injEq] at hrow
  obtain ⟨hsync,hprog,hview,hrow⟩ := hrow
  refine ⟨cf,hcf,hsync,?_,hview,?_⟩
  · rw [UndoOrder,hprog]
  · cases hst : recoverFromWAL cf.state.disk cf.state.wal [2] with
    | ok st => exact ⟨st,rfl,by rwa [hst] at hrow⟩
    | error e =>
      rw [hst] at hrow
      cases hrow

end VaultDB.Storage
