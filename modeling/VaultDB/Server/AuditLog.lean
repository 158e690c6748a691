import VaultDB.Lib.Text
import Mathlib.Algebra.Order.Ring.Int
import Mathlib.Data.List.Forall2
import Mathlib.Logic.Equiv.List
set_option autoImplicit false

/-!
The audit log in a system table, after `audit/log.go` and `audit/table_log.go`.

A row stands for the entry that is read back from its JSON text.
-/

namespace VaultDB.Server
open List

abbrev Text := List Char

theorem append_last_bar_inj {as bs xs ys : Text} (h : as++ '|' :: xs = bs++ '|' :: ys)
    (hx : '|' ∉ xs) (hy : '|' ∉ ys) : as = bs ∧ xs = ys := by
  have hc := congrArg (List.count '|') h
  simp only [count_append,count_cons_self,count_eq_zero_of_not_mem hx,count_eq_zero_of_not_mem hy] at hc
  exact append_sep_inj h (by omega)

/-- What the log takes from libraries: SHA-256 in hexadecimal, RFC 3339, and what JSON makes of a
string and a time. -/
structure Formats (T : Type) where
  sha256 : Text → Text
  time : T → Text
  reread : Text → Text
  marshals : T → Bool
  sha256_bar : ∀ x, '|' ∉ sha256 x
  time_bar : ∀ t, '|' ∉ time t
  time_inj : Function.Injective time

structure Entry (T : Type) where
  id : Nat
  occurredAt : T
  actor : Text
  action : Text
  target : Text
  detail : Text
  prevHash : Text := []
  entryHash : Text := []
  deriving DecidableEq

variable {T : Type} (F : Formats T)
namespace Entry

def payload (e : Entry T) (prevHash : Text) : Text :=
  Nat.toDigits 10 e.id++ '|' :: (F.time e.occurredAt++ '|' :: (e.actor++ '|' :: (e.action++ '|' :: (e.target++ '|' ::
    (e.detail++ '|' :: prevHash)))))

def hashChain (e : Entry T) (prevHash : Text) : Text := F.sha256 (e.payload F prevHash)
def content (e : Entry T) : Nat × T × Text × Text × Text × Text :=
  (e.id,e.occurredAt,e.actor,e.action,e.target,e.detail)

def SameBars (e e' : Entry T) : Prop :=
  e.actor.count '|' = e'.actor.count '|' ∧ e.action.count '|' = e'.action.count '|' ∧
    e.target.count '|' = e'.target.count '|'

end Entry

def verifyFrom (prevHash : Text) (i : Nat) : List (Entry T) → Except (Nat × String) Nat
  | [] => .ok i
  | e :: es =>
    if e.hashChain F prevHash = e.entryHash then verifyFrom e.entryHash (i+1) es
    else .error (i,s!"chain broken at entry {e.id}: expected {String.ofList (e.hashChain F prevHash)}, got " ++
      String.ofList e.entryHash)

def verifyChain (es : List (Entry T)) : Except (Nat × String) Nat := verifyFrom F [] 0 es

def hashAfter (prevHash : Text) : List (Entry T) → Text
  | [] => prevHash
  | e :: es => hashAfter e.entryHash es

def Linked (prevHash : Text) : List (Entry T) → Prop
  | [] => True
  | e :: es => e.hashChain F prevHash = e.entryHash ∧ Linked e.entryHash es

variable {F} {es es' : List (Entry T)} {e e' : Entry T} {p p' : Text}
theorem verifyFrom_eq_ok {i n : Nat} : verifyFrom F p i es = .ok n ↔ Linked F p es ∧ n = i+es.length := by
  induction es generalizing p i with
  | nil => simp [verifyFrom,Linked,eq_comm]
  | cons e es ih =>
    rw [verifyFrom,Linked]
    split
    · next h => simp [h,ih,Nat.add_assoc,Nat.add_comm 1]
    · next h => simp [h]

theorem linked_of_verifyChain {n : Nat} (h : verifyChain F es = .ok n) : Linked F [] es := (verifyFrom_eq_ok.1 h).1

theorem linked_append {new : List (Entry T)} : Linked F p (es++new) ↔ Linked F p es ∧
    Linked F (hashAfter p es) new := by
  induction es generalizing p with
  | nil => simp [Linked,hashAfter]
  | cons e es ih => simp [Linked,hashAfter,ih,and_assoc]

theorem hashAfter_append (new : List (Entry T)) : hashAfter p (es++new) = hashAfter (hashAfter p es) new := by
  induction es generalizing p with
  | nil => rfl
  | cons e es ih => exact ih

theorem payload_inj (h : e.payload F p = e'.payload F p') (hb : e.SameBars e') (hp : '|' ∉ p) (hp' : '|' ∉ p') :
    e.content = e'.content ∧ p = p' := by
  obtain ⟨hactor,haction,htarget⟩ := hb
  obtain ⟨hid,h⟩ := append_first_sep_inj h (not_mem_toDigits rfl _) (not_mem_toDigits rfl _)
  obtain ⟨htime,h⟩ := append_first_sep_inj h (F.time_bar _) (F.time_bar _)
  obtain ⟨ha,h⟩ := append_sep_inj h hactor
  obtain ⟨hac,h⟩ := append_sep_inj h haction
  obtain ⟨ht,h⟩ := append_sep_inj h htarget
  obtain ⟨hd,rfl⟩ := append_last_bar_inj h hp hp'
  exact ⟨by rw [Entry.content,Entry.content,toDigits_inj hid,F.time_inj htime,ha,hac,ht,hd],rfl⟩

theorem content_of_hashAfter (hsha : Function.Injective F.sha256) (hb : List.Forall₂ Entry.SameBars es es')
    (h : Linked F p es) (h' : Linked F p' es') (hp : '|' ∉ p) (hp' : '|' ∉ p')
    (hlast : hashAfter p es = hashAfter p' es') :
    es.map Entry.content = es'.map Entry.content ∧ p = p' := by
  induction hb generalizing p p' with
  | nil => exact ⟨rfl,hlast⟩
  | cons hbar _ ih =>
    obtain ⟨htail,hhash⟩ := ih h.2 h'.2 (h.1 ▸ F.sha256_bar _) (h'.1 ▸ F.sha256_bar _) hlast
    rw [← h.1,← h'.1] at hhash
    obtain ⟨hcontent,hprev⟩ := payload_inj (hsha hhash) hbar hp hp'
    exact ⟨by rw [map_cons,map_cons,hcontent,htail],hprev⟩

/-- Two accepted chains with the same last hash have the same contents exactly if the separator
stands equally often in their actors, actions and targets. -/
theorem same_contents_iff (hsha : Function.Injective F.sha256) {n n' : Nat} (h : verifyChain F es = .ok n)
    (h' : verifyChain F es' = .ok n') (hlast : hashAfter [] es = hashAfter [] es') :
    es.map Entry.content = es'.map Entry.content ↔ List.Forall₂ Entry.SameBars es es' := by
  constructor
  · intro hsame
    have hall : List.Forall₂ (fun a b : Entry T => a.content = b.content) es es' :=
      List.forall₂_map_right_iff.1 (List.forall₂_map_left_iff.1 (by rw [List.forall₂_eq_eq_eq]; exact hsame))
    refine hall.imp fun a b hab => ?_
    simp only [Entry.content,Prod.mk.injEq] at hab
    obtain ⟨-,-,hactor,haction,htarget,-⟩ := hab
    exact ⟨by rw [hactor],by rw [haction],by rw [htarget]⟩
  · intro hb
    exact (content_of_hashAfter hsha hb (linked_of_verifyChain h) (linked_of_verifyChain h')
      (by simp) (by simp) hlast).1

def numberFormats : Formats Nat where
  sha256 x := Nat.toDigits 10 (Encodable.encode (x.map Char.toNat))
  time := Nat.toDigits 10
  reread x := x
  marshals _ := true
  sha256_bar _ := not_mem_toDigits rfl _
  time_bar := not_mem_toDigits rfl
  time_inj := toDigits_inj

theorem numberFormats_sha256 : Function.Injective numberFormats.sha256 := by
  intro x y h
  exact map_injective_iff.2 (fun _ _ => Char.toNat_inj.1) (Encodable.encode_injective (toDigits_inj h))

def firstEntry (actor action : String) : Entry Nat :=
  let e : Entry Nat := ⟨1,5,actor.toList,action.toList,[],[],[],[]⟩
  { e with entryHash := e.hashChain numberFormats [] }

theorem hashAfter_firstEntry (actor action : String) :
    hashAfter [] [firstEntry actor action] = (firstEntry actor action).hashChain numberFormats [] := rfl

theorem verifyChain_firstEntry (actor action : String) :
    verifyChain numberFormats [firstEntry actor action] = .ok 1 :=
  verifyFrom_eq_ok.2 ⟨⟨rfl,trivial⟩,rfl⟩

/-- A bar moves from the actor into the action. -/
theorem moved_bar_accepted : Function.Injective numberFormats.sha256 ∧
    verifyChain numberFormats [firstEntry "a|b" "c"] = .ok 1 ∧
    verifyChain numberFormats [firstEntry "a" "b|c"] = .ok 1 ∧
      hashAfter [] [firstEntry "a|b" "c"] = hashAfter [] [firstEntry "a" "b|c"] ∧
      [firstEntry "a|b" "c"].map Entry.content ≠ [firstEntry "a" "b|c"].map Entry.content := by
  have htext : (firstEntry "a|b" "c").payload numberFormats [] =
    (firstEntry "a" "b|c").payload numberFormats [] := rfl
  refine ⟨numberFormats_sha256,verifyChain_firstEntry _ _,verifyChain_firstEntry _ _,?_,?_⟩
  · rw [hashAfter_firstEntry,hashAfter_firstEntry,Entry.hashChain,htext,Entry.hashChain]
  · simp [firstEntry,Entry.content]

def secondEntry (first : Entry Nat) : Entry Nat :=
  let e : Entry Nat := ⟨2,6,"a".toList,"d".toList,[],[],first.entryHash,[]⟩
  { e with entryHash := e.hashChain numberFormats first.entryHash }

theorem hashChain_secondEntry (first : Entry Nat) :
    (secondEntry first).hashChain numberFormats first.entryHash = (secondEntry first).entryHash := rfl

def twoEntries : List (Entry Nat) := [firstEntry "a" "c",secondEntry (firstEntry "a" "c")]

theorem same_contents_iff_equal : verifyChain numberFormats twoEntries = .ok 2 ∧
    (twoEntries.map Entry.content = twoEntries.map Entry.content ↔
      List.Forall₂ Entry.SameBars twoEntries twoEntries) := by
  have hchain : verifyChain numberFormats twoEntries = .ok 2 := verifyFrom_eq_ok.2
    ⟨⟨(linked_of_verifyChain (verifyChain_firstEntry _ _)).1,hashChain_secondEntry _,trivial⟩,rfl⟩
  exact ⟨hchain,same_contents_iff numberFormats_sha256 hchain hchain rfl⟩

structure Record (T : Type) where
  id : Nat := 0
  occurredAt : Option T := none
  actor : Text
  action : Text
  target : Text
  detail : Text

structure TableLog (T : Type) where
  rows : List (Entry T) := []
  nextID : Nat := 0
  lastHash : Text := []

variable (F)
def Entry.reread (e : Entry T) : Entry T :=
  { e with
    actor := F.reread e.actor, action := F.reread e.action, target := F.reread e.target
    detail := F.reread e.detail }

namespace TableLog

def int64 (n : Nat) : Int := if n < 2^63 then n else n-2^64

def insertEntry (what : String) (t : TableLog T) (e : Entry T) : Except String Unit × TableLog T :=
  let hash := e.hashChain F t.lastHash
  if F.marshals e.occurredAt then
    if t.rows.any (·.id == e.id) then (.error (what ++
      s!"insert audit entry: duplicate primary key value: {int64 e.id}"),t)
    else (.ok (),{ t with
      rows := t.rows++[{ e with prevHash := t.lastHash, entryHash := hash }.reread F], lastHash := hash })
  else (.error "marshal audit entry: year outside of range [0,9999]",t)

def append (now : T) (r : Record T) (t : TableLog T) : Except String Unit × TableLog T :=
  let next := (t.nextID+1)%2^64
  let t := if r.id = 0 then { t with nextID := next } else t
  let id := if r.id = 0 then next else r.id
  insertEntry F "" t ⟨id,r.occurredAt.getD now,r.actor,r.action,r.target,r.detail,[],[]⟩

def reinsert : List (Entry T) → TableLog T → Except String Unit × TableLog T
  | [], t => (.ok (),t)
  | e :: es, t =>
    match insertEntry F "re-" { t with nextID := max t.nextID e.id } e with
    | (.ok (),t) => reinsert es t
    | (.error err,t) => (.error err,t)

def truncateKeepLast (n : Int) (t : TableLog T) : Except String Unit × TableLog T :=
  let kept := if 0 < n ∧ n < t.rows.length then t.rows.drop (t.rows.length-n.toNat) else if n = 0 then [] else t.rows
  reinsert F kept {}

def restart (t : TableLog T) : TableLog T := { rows := t.rows }

end TableLog

inductive AuditStep (T : Type) where
  | append (now : T) (r : Record T)
  | truncateKeepLast (n : Int)
  | restart

def AuditStep.run : AuditStep T → TableLog T → Except String Unit × TableLog T
  | .append now r, t => t.append F now r
  | .truncateKeepLast n, t => t.truncateKeepLast F n
  | .restart, t => (.ok (),t.restart)

def Entry.Stable (e : Entry T) : Prop := e.reread F = e ∧ F.marshals e.occurredAt = true

/-- The log with the ids callers gave since the table was last numbered afresh, and whether the
process was restarted with entries in the table since then. -/
structure AuditState (T : Type) where
  log : TableLog T := {}
  given : List Nat := []
  restarted : Bool := false

variable {F} in
def AuditState.after (s : AuditState T) (a : AuditStep T) (log : TableLog T) : AuditState T :=
  match a with
  | .append _ r => { s with log := log, given := if r.id = 0 then s.given else r.id :: s.given }
  | .truncateKeepLast _ => { log := log }
  | .restart => { log := log, restarted := !s.log.rows.isEmpty }

/-- An id given by the caller is new, the counter has not come to one of them or to its end, JSON
gives the strings and the time back, and nothing is appended after a restart with entries in the
table. -/
def AuditStep.Careful (s : AuditState T) : AuditStep T → Prop
  | .append now r => s.restarted = false ∧
      (if r.id = 0 then s.log.nextID+1 < 2^64 ∧ s.log.nextID+1 ∉ s.given else ∀ e ∈ s.log.rows, e.id ≠ r.id) ∧
      (⟨0,r.occurredAt.getD now,r.actor,r.action,r.target,r.detail,[],[]⟩ : Entry T).Stable F
  | .truncateKeepLast _ | .restart => True

inductive AuditReach : AuditState T → Prop where
  | init : AuditReach {}
  | step {s : AuditState T} {a : AuditStep T} : AuditReach s → a.Careful F s →
      AuditReach (s.after a (a.run F s.log).2)

structure TableLog.Sound (t : TableLog T) : Prop where
  linked : Linked F [] t.rows
  ids : (t.rows.map Entry.id).Nodup
  stable : ∀ e ∈ t.rows, e.Stable F

/-- The memory goes with the table: every id that was not given by a caller has been counted. -/
structure TableLog.Live (given : List Nat) (t : TableLog T) : Prop where
  last : t.lastHash = hashAfter [] t.rows
  counted : ∀ e ∈ t.rows, e.id ≤ t.nextID ∨ e.id ∈ given

structure AuditState.Sound (s : AuditState T) : Prop where
  table : s.log.Sound F
  live : s.restarted = false → s.log.Live s.given

variable {F} {t : TableLog T}
theorem Entry.Stable.hashes (h : e.Stable F) (id : Nat) (prev hash : Text) :
    ({ e with id := id, prevHash := prev, entryHash := hash } : Entry T).Stable F := by
  obtain ⟨id0,time,actor,action,target,detail,prev0,hash0⟩ := e
  obtain ⟨h,htime⟩ := h
  simp only [Entry.reread,Entry.mk.injEq] at h
  exact ⟨by simp [Entry.reread,h],htime⟩

theorem TableLog.Sound.insertEntry (h : t.Sound F) (hlast : t.lastHash = hashAfter [] t.rows) (what : String)
    (he : e.Stable F) (hid : ∀ x ∈ t.rows, x.id ≠ e.id) :
    ∃ t', t.insertEntry F what e = (.ok (),t') ∧ t'.Sound F ∧ t'.lastHash = hashAfter [] t'.rows ∧
      t'.nextID = t.nextID ∧ t'.rows.map Entry.id = t.rows.map Entry.id++[e.id] := by
  have hnew : (t.rows.any (·.id == e.id)) = false := by simpa using hid
  have hrow := he.hashes e.id t.lastHash (e.hashChain F t.lastHash)
  refine ⟨_,by rw [TableLog.insertEntry,if_pos he.2,if_neg (by simp [hnew])],?_,?_,?_,by simp [Entry.reread]⟩
  · rw [hrow.1]
    refine ⟨linked_append.2 ⟨h.linked,?_,trivial⟩,?_,?_⟩
    · rw [← hlast]
      rfl
    · rw [map_append,nodup_append]
      refine ⟨h.ids,by simp,?_⟩
      simpa using hid
    · intro x hx
      rcases mem_append.1 hx with hx | hx
      · exact h.stable x hx
      · rw [mem_singleton.1 hx]
        exact hrow
  · simp [hrow.1,hashAfter_append,hashAfter]
  · rfl

theorem TableLog.Live.of_ids {given : List Nat} (hlast : t.lastHash = hashAfter [] t.rows)
    (h : ∀ id ∈ t.rows.map Entry.id, id ≤ t.nextID ∨ id ∈ given) : t.Live given :=
  ⟨hlast,fun _ he => h _ (mem_map_of_mem he)⟩

/-- The rows are linked afresh, and the counter is at least their ids. -/
theorem TableLog.Sound.reinsert (h : t.Sound F) (hlive : t.Live []) (hs : ∀ e ∈ es, e.Stable F)
    (hids : (t.rows.map Entry.id++es.map Entry.id).Nodup) :
    ∃ t', TableLog.reinsert F es t = (.ok (),t') ∧ t'.Sound F ∧ t'.Live [] := by
  induction es generalizing t with
  | nil => exact ⟨t,rfl,h,hlive⟩
  | cons e es ih =>
    have h0 : ({ t with nextID := max t.nextID e.id } : TableLog T).Sound F := { h with }
    have hnew : ∀ x ∈ t.rows, x.id ≠ e.id := by
      intro x hx heq
      exact (nodup_append.1 hids).2.2 _ (mem_map_of_mem hx) _ mem_cons_self heq
    obtain ⟨t',hrun,h',hlast,hnext,hrows⟩ := h0.insertEntry hlive.last "re-" (hs e mem_cons_self) hnew
    have hlive' : t'.Live [] := .of_ids hlast fun id hid => by
      rw [hrows,mem_append,mem_singleton,mem_map] at hid
      rw [hnext]
      rcases hid with ⟨x,hx,rfl⟩ | rfl
      · exact .inl (((hlive.counted x hx).resolve_right (by simp)).trans (le_max_left _ _))
      · exact .inl (le_max_right _ _)
    obtain ⟨t'',hrest,h''⟩ := ih h' hlive' (fun x hx => hs x (mem_cons_of_mem _ hx))
      (by rw [hrows]; simpa using hids)
    exact ⟨t'',by rw [TableLog.reinsert,hrun]; exact hrest,h''⟩

theorem TableLog.Sound.truncateKeepLast (h : t.Sound F) (n : Int) :
    ∃ t', t.truncateKeepLast F n = (.ok (),t') ∧ t'.Sound F ∧ t'.Live [] := by
  have hsub : ∀ kept, kept.Sublist t.rows →
      ∃ t', TableLog.reinsert F kept {} = (.ok (),t') ∧ t'.Sound F ∧ t'.Live [] := by
    intro kept hk
    refine TableLog.Sound.reinsert ⟨trivial,by simp,by simp⟩ ⟨rfl,by simp⟩ (fun e he => h.stable e (hk.subset he)) ?_
    simpa using h.ids.sublist (hk.map Entry.id)
  refine hsub _ ?_
  split
  · exact drop_sublist _ _
  · split
    · exact nil_sublist _
    · exact .refl _

theorem AuditState.Sound.append {s : AuditState T} (h : s.Sound F) {now : T} {r : Record T}
    (ha : (AuditStep.append now r).Careful F s) :
    ∃ t', s.log.append F now r = (.ok (),t') ∧ (s.after (.append now r) t').Sound F := by
  obtain ⟨hlive,hid,hstable⟩ := ha
  have hl := h.live hlive
  by_cases hr : r.id = 0
  · rw [if_pos hr] at hid
    have hmod : (s.log.nextID+1)%2^64 = s.log.nextID+1 := Nat.mod_eq_of_lt hid.1
    have h0 : ({ s.log with nextID := s.log.nextID+1 } : TableLog T).Sound F := { h.table with }
    -- the counter has passed every id it gave out
    have hnew : ∀ x ∈ s.log.rows, x.id ≠ s.log.nextID+1 := fun x hx heq => by
      rcases hl.counted x hx with hle | hmem
      · omega
      · exact hid.2 (heq ▸ hmem)
    obtain ⟨t',hrun,h',hlast,hnext,hrows⟩ := h0.insertEntry hl.last "" (hstable.hashes (s.log.nextID+1) [] []) hnew
    refine ⟨t',by simpa only [TableLog.append,hr,hmod,if_true] using hrun,h',fun _ => .of_ids hlast fun id hin => ?_⟩
    change id ∈ t'.rows.map Entry.id at hin
    rw [hrows,mem_append,mem_singleton,mem_map] at hin
    simp only [AuditState.after,if_pos hr,hnext]
    rcases hin with ⟨x,hx,rfl⟩ | rfl
    · exact (hl.counted x hx).imp_left Nat.le_succ_of_le
    · exact .inl le_rfl
  · rw [if_neg hr] at hid
    obtain ⟨t',hrun,h',hlast,hnext,hrows⟩ := h.table.insertEntry hl.last "" (hstable.hashes r.id [] []) hid
    refine ⟨t',by simpa [TableLog.append,hr] using hrun,h',fun _ => .of_ids hlast fun id hin => ?_⟩
    change id ∈ t'.rows.map Entry.id at hin
    rw [hrows,mem_append,mem_singleton,mem_map] at hin
    simp only [AuditState.after,if_neg hr,hnext]
    rcases hin with ⟨x,hx,rfl⟩ | rfl
    · exact (hl.counted x hx).imp_right (mem_cons_of_mem _)
    · exact .inr mem_cons_self

theorem AuditState.Sound.run {s : AuditState T} (h : s.Sound F) {a : AuditStep T} (ha : a.Careful F s) :
    ∃ t', a.run F s.log = (.ok (),t') ∧ (s.after a t').Sound F := by
  cases a with
  | append now r => exact h.append ha
  | truncateKeepLast n =>
    obtain ⟨t',hrun,h',hlive⟩ := h.table.truncateKeepLast n
    exact ⟨t',hrun,h',fun _ => hlive⟩
  | restart =>
    refine ⟨s.log.restart,rfl,{ h.table with },fun hempty => ?_⟩
    have hrows : s.log.rows = [] := by simpa [AuditState.after] using hempty
    exact ⟨by simp [AuditState.after,TableLog.restart,hrows,hashAfter],
      by simp [AuditState.after,TableLog.restart,hrows]⟩

/-- In every log reached by careful steps the chain is accepted, and the next careful step succeeds.
-/
theorem audit_log_sound {s : AuditState T} (h : AuditReach F s) :
    verifyChain F s.log.rows = .ok s.log.rows.length ∧
      ∀ a : AuditStep T, a.Careful F s → (a.run F s.log).1 = .ok () := by
  have hsound : s.Sound F := by
    induction h with
    | init => exact ⟨⟨trivial,by simp,by simp⟩,fun _ => ⟨rfl,by simp⟩⟩
    | step _ ha ih =>
      obtain ⟨t',hrun,h'⟩ := ih.run ha
      rw [hrun]
      exact h'
  refine ⟨verifyFrom_eq_ok.2 ⟨hsound.table.linked,by simp⟩,fun a ha => ?_⟩
  obtain ⟨t',hrun,-⟩ := hsound.run ha
  rw [hrun]

def loginRecord : Record Nat := { actor := "a".toList, action := "LOGIN".toList, target := [], detail := [] }
def oneLogin : TableLog Nat := ((AuditStep.append 5 loginRecord).run numberFormats {}).2

/-- The first number is given out again after a restart. -/
theorem append_fails_after_restart :
    ((AuditStep.append 5 loginRecord).run numberFormats (AuditStep.restart.run numberFormats oneLogin).2).1 =
      .error "insert audit entry: duplicate primary key value: 1" := by
  rfl

def loginState : AuditState Nat := ({} : AuditState Nat).after (.append 5 loginRecord) oneLogin

/-- A login, and a second one that is given the next number. -/
theorem audit_log_sound_oneLogin : verifyChain numberFormats oneLogin.rows = .ok oneLogin.rows.length ∧
    ((AuditStep.append 6 loginRecord).run numberFormats oneLogin).1 = .ok () := by
  have h := audit_log_sound (s := loginState) (F := numberFormats)
    (.step (a := .append 5 loginRecord) .init ⟨rfl,⟨by decide,by simp⟩,rfl,rfl⟩)
  exact ⟨h.1,h.2 (.append 6 loginRecord) ⟨rfl,⟨by decide,by simp [loginState,AuditState.after,loginRecord]⟩,rfl,rfl⟩⟩

end VaultDB.Server
