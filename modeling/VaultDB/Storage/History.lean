import VaultDB.Storage.WriteAhead
import VaultDB.Storage.Restart
set_option autoImplicit false

/-!
The log as a history of the statements: a commit record is the last of its transaction, and a slot
is filled before anything else is said about it.
-/

namespace VaultDB.Storage
open Wal Lib List Option

theorem Engine.Shape.clock {i : Nat} {k : TableKey} {s s' : Engine} {c : Cmd} {r : c.Res}
    (h : s.Shape i k c r s') (g : Watcher) : ((g.next c r).tx = g.tx ∧ s'.clock = s.clock) ∨
      (c = .nextTxID ∧ (g.next c r).tx = some (s.clock.txCounter+1) ∧ s'.clock.txCounter = s.clock.txCounter+1) := by
  cases h with
  | quiet hq =>
    obtain ⟨b,hb⟩ := Watcher.next_quiet hq g r
    exact .inl ⟨by rw [hb],rfl⟩
  | nextTxID => exact .inr ⟨rfl,rfl,rfl⟩
  | syncCatalog => exact .inl ⟨rfl,(s.syncCatalog_eq _).2.2.2.2.1⟩
  | logFail hc hs =>
    refine .inl ⟨?_,?_⟩
    · rcases Watcher.next_failed hc g with he | he
      · rw [he]
      · rw [he]
    · rcases hs with rfl | ⟨x,op,rfl⟩
      · rfl
      · rfl
  | _ => exact .inl ⟨rfl,rfl⟩

namespace Watcher

inductive Wrote (k : TableKey) (g : Watcher) : Entry → Prop where
  | insert {x : Nat} {loc : PageSlot} {t : Tuple} : g.tx = some x → (loc,t) ∈ g.ins →
      Wrote k g ⟨x,.pageInsert k loc x t⟩
  | delete {x : Nat} {loc : PageSlot} : g.tx = some x → loc ∈ g.logged → Wrote k g ⟨x,.pageDelete k loc x⟩
  | commit {x : Nat} : g.tx = some x → g.committed = true → Wrote k g ⟨x,.commit⟩

variable {k : TableKey} {g : Watcher} {e : Entry} {c : Cmd} {r : c.Res}
theorem Wrote.tx (h : g.Wrote k e) : g.tx = some e.txID := by cases h <;> assumption

theorem Wrote.next (h : g.Wrote k e) (ha : g.allowed c) (hf : ¬ c.Failed r) : (g.next c r).Wrote k e := by
  cases hc : c.record k with
  | none =>
    have hn : c ≠ .nextTxID := by
      rintro rfl
      have hnone : g.tx = none := ha
      simp [h.tx] at hnone
    obtain ⟨h1,h2,h3,h4⟩ := g.next_of_record_none (r := r) hc hn
    cases h with
    | insert hx hm => exact .insert (h1.trans hx) (by rw [h3]; exact hm)
    | delete hx hm => exact .delete (h1.trans hx) (by rw [h2]; exact hm)
    | commit hx hm => exact .commit (h1.trans hx) (h4.trans hm)
  | some e' =>
    cases c with
    | logInsert =>
      cases r with
      | none => exact absurd rfl hf
      | some lsn =>
        cases h with
        | insert hx hm => exact .insert hx (mem_cons_of_mem _ hm)
        | delete hx hm => exact .delete hx hm
        | commit hx hm => exact .commit hx hm
    | logDelete =>
      cases r with
      | none => exact absurd rfl hf
      | some lsn =>
        cases h with
        | insert hx hm => exact .insert hx hm
        | delete hx hm => exact .delete hx (mem_cons_of_mem _ hm)
        | commit hx hm => exact .commit hx hm
    | logCommit =>
      cases r with
      | none => exact absurd rfl hf
      | some lsn =>
        cases h with
        | insert hx hm => exact .insert hx hm
        | delete hx hm => exact .delete hx hm
        | commit hx hm => exact .commit hx rfl
    | _ => cases hc

theorem wrote_record (ha : g.allowed c) (hf : ¬ c.Failed r) (hc : c.record k = some e) : (g.next c r).Wrote k e := by
  cases c with
  | logInsert x loc t =>
    cases r with
    | none => exact absurd rfl hf
    | some lsn =>
      cases hc
      exact .insert ha.1 mem_cons_self
  | logDelete x loc =>
    cases r with
    | none => exact absurd rfl hf
    | some lsn =>
      cases hc
      exact .delete ha.1 mem_cons_self
  | logCommit x =>
    cases r with
    | none => exact absurd rfl hf
    | some lsn =>
      cases hc
      exact .commit ha.1 rfl
  | _ => cases hc

theorem not_committed_of_record {s : Engine} {i : Nat} (hi : ThreadOk s i k g) (ha : g.allowed c)
    (hc : c.record k = some e) : g.tx = some e.txID ∧ g.committed = false := by
  cases c with
  | logInsert x loc t =>
    cases hc
    exact ⟨ha.1,(hi.pend _ ha.2).2.2.2⟩
  | logDelete x loc =>
    cases hc
    exact ⟨ha.1,ha.2.2.1⟩
  | logCommit x =>
    cases hc
    exact ⟨ha.1,ha.2.1⟩
  | _ => cases hc

end Watcher

/-- The log and the statements that wrote it; `x₀` is the counter at the start, `n` now. -/
structure LogOk (x₀ n : Nat) (w : List Entry) (ws : List (TableKey × Watcher)) : Prop where
  own : ∀ e ∈ w, ∃ (i : Nat) (k : TableKey) (g : Watcher), ws[i]? = some (k,g) ∧ g.Wrote k e
  bound : ∀ (i : Nat) k g x, ws[i]? = some (k,g) → g.tx = some x → x₀ < x ∧ x ≤ n
  unique : ∀ (i j : Nat) k k' g g' x, ws[i]? = some (k,g) → ws[j]? = some (k',g') → g.tx = some x →
    g'.tx = some x → i = j
  commitLast : w.Pairwise fun a b => a.op = .commit → b.txID ≠ a.txID

namespace LogOk
variable {x₀ n : Nat} {w : List Entry} {ws : List (TableKey × Watcher)} {s s' : Engine} {i : Nat}
  {k : TableKey} {g : Watcher} {c : Cmd} {r : c.Res} {e : Entry}
theorem tx_bound (h : LogOk x₀ n w ws) (he : e ∈ w) : x₀ < e.txID ∧ e.txID ≤ n := by
  obtain ⟨i,k,g,hw,hg⟩ := h.own e he
  exact h.bound i k g _ hw hg.tx

theorem same_writer (h : LogOk x₀ n w ws) (he : e ∈ w) (hw : ws[i]? = some (k,g))
    (hx : g.tx = some e.txID) : g.Wrote k e := by
  obtain ⟨j,k',g',hj,hg⟩ := h.own e he
  obtain rfl := h.unique i j k k' g g' _ hw hj hx hg.tx
  obtain ⟨rfl,rfl⟩ := Prod.mk.inj (some.inj (hw.symm.trans hj))
  exact hg

theorem start : LogOk x₀ n [] [] := ⟨by simp,by simp,by simp,.nil⟩

theorem spawn (h : LogOk x₀ n w ws) (k : TableKey) : LogOk x₀ n w (ws++[(k,({} : Watcher))]) := by
  have hnew : ∀ (j : Nat) k' g x, (ws++[(k,({} : Watcher))])[j]? = some (k',g) → g.tx = some x →
    ws[j]? = some (k',g) := by
    intro j k' g x hj hx
    rcases thread_concat_cases hj with hj | ⟨-,heq⟩
    · exact hj
    · cases heq
      cases hx
  refine ⟨fun e he => ?_,fun j k' g x hj hx => ?_,fun i j k1 k2 g1 g2 x hi hj hx hx' => ?_,h.commitLast⟩
  · obtain ⟨i,k',g,hw,hg⟩ := h.own e he
    exact ⟨i,k',g,by rw [List.getElem?_append_left (List.getElem?_eq_some_iff.1 hw).1]; exact hw,hg⟩
  · exact h.bound j k' g x (hnew j k' g x hj hx) hx
  · exact h.unique i j k1 k2 g1 g2 x (hnew i _ _ x hi hx) (hnew j _ _ x hj hx') hx hx'

theorem run (h : LogOk x₀ s.clock.txCounter w ws) (hw : ws[i]? = some (k,g)) (hi : ThreadOk s i k g)
    (hx0 : x₀ ≤ s.clock.txCounter) (ha : g.allowed c) (hf : ¬ c.Failed r) (hs : s.Shape i k c r s') :
    LogOk x₀ s'.clock.txCounter (w++(c.record k).toList) (ws.set i (k,g.next c r)) := by
  have hlt := (List.getElem?_eq_some_iff.1 hw).1
  have hget : (ws.set i (k,g.next c r))[i]? = some (k,g.next c r) := by rw [getElem?_set_self hlt]
  -- a thread after the step is an old one, or the acting one with its id as before or a new one
  have hthread : ∀ (j : Nat) k' g' x, (ws.set i (k,g.next c r))[j]? = some (k',g') → g'.tx = some x →
      (∃ g0, ws[j]? = some (k',g0) ∧ g0.tx = some x) ∨
        (j = i ∧ x = s.clock.txCounter+1 ∧ s'.clock.txCounter = s.clock.txCounter+1) := by
    intro j k' g' x hj hx
    by_cases hij : i = j
    · subst hij
      obtain ⟨rfl,rfl⟩ := Prod.mk.inj (some.inj (hget.symm.trans hj))
      rcases hs.clock g with ⟨htx,-⟩ | ⟨-,htx,hclock⟩
      · exact .inl ⟨g,hw,htx.symm.trans hx⟩
      · exact .inr ⟨rfl,some.inj (hx.symm.trans htx),hclock⟩
    · rw [getElem?_set_ne hij] at hj
      exact .inl ⟨g',hj,hx⟩
  have hmono : s.clock.txCounter ≤ s'.clock.txCounter := by
    rcases hs.clock g with ⟨-,hclock⟩ | ⟨-,-,hclock⟩
    · exact Nat.le_of_eq (by rw [hclock])
    · omega
  constructor
  · intro e he
    rcases mem_append.1 he with he | he
    · obtain ⟨j,k',g',hj,hg⟩ := h.own e he
      by_cases hij : i = j
      · subst hij
        obtain ⟨rfl,rfl⟩ := Prod.mk.inj (some.inj (hw.symm.trans hj))
        exact ⟨i,k,_,hget,hg.next ha hf⟩
      · exact ⟨j,k',g',by rw [getElem?_set_ne hij]; exact hj,hg⟩
    · exact ⟨i,k,_,hget,Watcher.wrote_record ha hf (mem_toList.1 he)⟩
  · intro j k' g' x hj hx
    rcases hthread j k' g' x hj hx with ⟨g0,hj0,hx₀'⟩ | ⟨-,rfl,hclock⟩
    · have := h.bound j k' g0 x hj0 hx₀'
      omega
    · omega
  · intro j j' k1 k2 g1 g2 x hj hj' hx hx'
    rcases hthread j k1 g1 x hj hx with ⟨g0,hj0,hx₀'⟩ | ⟨rfl,hx1,-⟩
    · rcases hthread j' k2 g2 x hj' hx' with ⟨g₀',hj₀',hx₀''⟩ | ⟨rfl,rfl,-⟩
      · exact h.unique j j' k1 k2 g0 g₀' x hj0 hj₀' hx₀' hx₀''
      · have := h.bound j k1 g0 _ hj0 hx₀'
        omega
    · rcases hthread j' k2 g2 x hj' hx' with ⟨g₀',hj₀',hx₀''⟩ | ⟨rfl,-,-⟩
      · have := h.bound j' k2 g₀' _ hj₀' hx₀''
        omega
      · rfl
  · refine pairwise_append.2 ⟨h.commitLast,?_,fun a hain b hb hcom heq => ?_⟩
    · cases c.record k <;> simp
    · obtain ⟨htx,hnot⟩ := Watcher.not_committed_of_record hi ha (mem_toList.1 hb)
      have hwr := h.same_writer hain hw (htx.trans (by rw [heq]))
      cases hwr with
      | insert => cases hcom
      | delete => cases hcom
      | commit _ hc => simp [hc] at hnot

end LogOk
end VaultDB.Storage
