import VaultDB.Storage.Slots
import VaultDB.Storage.Room
set_option autoImplicit false

/-!
What recovery relies on: the pages on disk hold nothing the durable log does not tell of, are
earlier states of the pages in memory, and keep the room a replay of their records needs.
-/

namespace VaultDB.Storage
open Wal Lib RecoveryStep Engine Page List Option
variable {n x : Nat} {t : Tuple} {loc : PageSlot} {e : EnvEvent} {s : Engine}
section
variable {w : List Entry} {k : TableKey} {pid : PageID}
theorem mem_opsOn {c : TableKey × PageID} {op : PageOp} :
    op ∈ opsOn c (redoPhase w) ↔ ∃ e ∈ w, (redo e).pageOp = some (c,op) := by
  simp only [opsOn,redoPhase,filterMap_map,mem_filterMap,Function.comp_apply,
    bind_eq_some_iff,ite_none_right_eq_some,some.injEq]
  constructor
  · rintro ⟨e,he,⟨c',op'⟩,hp,rfl,rfl⟩
    exact ⟨e,he,hp⟩
  · rintro ⟨e,he,hp⟩
    exact ⟨e,he,_,hp,rfl,rfl⟩

theorem mem_opsOn_insert : .insert n t ∈ opsOn (k,pid) (redoPhase w) ↔ ∃ x y, ⟨x,.pageInsert k ⟨pid,n⟩ y t⟩ ∈ w := by
  rw [mem_opsOn]
  constructor
  · rintro ⟨⟨x,op⟩,he,hp⟩
    cases op with
    | pageInsert k' loc y t' =>
      cases hp
      exact ⟨x,y,he⟩
    | pageDelete => cases hp
    | _ => cases hp
  · rintro ⟨x,y,he⟩
    exact ⟨_,he,rfl⟩

theorem mem_opsOn_stamp : .stamp n x ∈ opsOn (k,pid) (redoPhase w) ↔ ∃ y, ⟨y,.pageDelete k ⟨pid,n⟩ x⟩ ∈ w := by
  rw [mem_opsOn]
  constructor
  · rintro ⟨⟨y,op⟩,he,hp⟩
    cases op with
    | pageDelete k' loc x' =>
      cases hp
      exact ⟨y,he⟩
    | pageInsert => cases hp
    | _ => cases hp
  · rintro ⟨y,he⟩
    exact ⟨_,he,rfl⟩

theorem opsOn_redoPhase_append (c : TableKey × PageID) (w w' : List Entry) : opsOn c (redoPhase (w++w')) =
      opsOn c (redoPhase w)++opsOn c (redoPhase w') := by
  rw [redoPhase,map_append,opsOn_append]
  rfl

theorem WellLogged.insert_unique (h : WellLogged w) {y x' y' : Nat} {t' : Tuple}
    (hm : ⟨x,.pageInsert k loc y t⟩ ∈ w) (hm' : ⟨x',.pageInsert k loc y' t'⟩ ∈ w) : x' = x ∧ y' = y ∧ t' = t := by
  induction w with
  | nil => cases hm
  | cons e w ih =>
    obtain ⟨he,hw⟩ := pairwise_cons.1 h
    rcases mem_cons.1 hm with rfl | hm1
    · rcases mem_cons.1 hm' with heq | hm2
      · cases heq
        exact ⟨rfl,rfl,rfl⟩
      · exact absurd rfl (he _ hm2 k loc y' t' rfl)
    · rcases mem_cons.1 hm' with rfl | hm2
      · exact absurd rfl (he _ hm1 k loc y t rfl)
      · exact ih hw hm1 hm2
end

/-- A row a statement may delete: it is live, no other statement has a delete record for it in the
log, and its writer, if the log has its record, has committed. -/
structure Engine.Deletable (s : Engine) (x : Nat) (k : TableKey) (loc : PageSlot) : Prop where
  live : ∃ t, s.mem k loc = some t ∧ t.deletedTx = 0
  own : ∀ y, ⟨y,.pageDelete k loc y⟩ ∈ s.wal → y = x
  behind : ∀ y t, ⟨y,.pageInsert k loc y t⟩ ∈ s.wal → ⟨y,.commit⟩ ∈ s.wal

structure DeletesOk (base : Base) (w : List Entry) : Prop where
  one : ∀ x y k loc, ⟨x,.pageDelete k loc x⟩ ∈ w → ⟨y,.pageDelete k loc y⟩ ∈ w → x = y
  behind : ∀ n x y k loc t, ⟨x,.pageDelete k loc x⟩ ∈ w.take n → ⟨y,.pageInsert k loc y t⟩ ∈ w →
    ⟨y,.commit⟩ ∈ w.take n
  live : ∀ x k loc t, ⟨x,.pageDelete k loc x⟩ ∈ w → base k loc = some t → t.deletedTx = 0

def StampsKept (base : Base) (s : Engine) : Prop :=
  ∀ k loc t₀ t, base k loc = some t₀ → t₀.deletedTx ≠ 0 →
    s.mem k loc = some t ∨ s.disk.tuple k loc = some t → t.deletedTx = t₀.deletedTx

section
variable {base : Base} {s s' : Engine} {ws : List (TableKey × Watcher)} {i : Nat} {k : TableKey} {g : Watcher}
  {c : Cmd} {r : c.Res}
theorem take_append_cases {w w' : List Entry} {e : Entry} (h : e ∈ (w++w').take n) :
    e ∈ w.take n ∨ (e ∈ w' ∧ w.length ≤ n) := by
  rw [take_append] at h
  rcases mem_append.1 h with h | h
  · exact .inl h
  · refine .inr ⟨mem_of_mem_take h,?_⟩
    by_contra hn
    rw [Nat.sub_eq_zero_of_le (by omega),take_zero] at h
    cases h

theorem DeletesOk.run (h : DeletesOk base s.wal) (hsl : SlotsOk base s.wal s ws) (hst : StampsKept base s)
    (hw : ws[i]? = some (k,g)) (ha : g.allowed c)
    (hdel : ∀ x loc, c = .logDelete x loc → s.Deletable x k loc) : DeletesOk base (s.wal++(c.record k).toList) := by
  -- a new delete record is about a row that may be deleted
  have hnew : ∀ {x : Nat} {k' : TableKey} {loc : PageSlot},
      ⟨x,.pageDelete k' loc x⟩ ∈ (c.record k).toList → k' = k ∧ s.Deletable x k loc := by
    intro x k' loc hm
    have hc := mem_toList.1 hm
    cases c with
    | logDelete x' loc' =>
      cases hc
      exact ⟨rfl,hdel _ _ rfl⟩
    | logInsert | logCommit => cases hc
    | _ => cases hc
  constructor
  · intro x y k' loc hx hy
    rcases mem_append.1 hx with hx' | hx'
    · rcases mem_append.1 hy with hy' | hy'
      · exact h.one x y k' loc hx' hy'
      · obtain ⟨rfl,hd⟩ := hnew hy'
        exact hd.own x hx'
    · rcases mem_append.1 hy with hy' | hy'
      · obtain ⟨rfl,hd⟩ := hnew hx'
        exact (hd.own y hy').symm
      · have := (mem_toList.1 hx').symm.trans (mem_toList.1 hy')
        cases this
        rfl
  · intro n x y k' loc t hx hy
    have hsub : ∀ {e : Entry}, e ∈ s.wal.take n → e ∈ (s.wal++(c.record k).toList).take n := by
      intro e he
      rw [take_append]
      exact mem_append_left _ he
    have hall : ∀ {e : Entry}, s.wal.length ≤ n → e ∈ s.wal → e ∈ (s.wal++(c.record k).toList).take n := by
      intro e hn he
      exact hsub (by rwa [take_of_length_le hn])
    rcases mem_append.1 hy with hy' | hy'
    · rcases take_append_cases hx with hx' | ⟨hx',hn⟩
      · exact hsub (h.behind n x y k' loc t hx' hy')
      · obtain ⟨rfl,hd⟩ := hnew hx'
        exact hall hn (hd.behind y t hy')
    · -- an insert record is the first one about its slot
      have hc := mem_toList.1 hy'
      cases c with
      | logInsert x' loc' t' =>
        cases hc
        have hns := hsl.pend i k g _ _ hw ha.2
        rcases take_append_cases hx with hx | ⟨hx,-⟩
        · exact absurd rfl (hns.unnamed _ (mem_of_mem_take hx))
        · cases mem_toList.1 hx
      | logDelete | logCommit => cases hc
      | _ => cases hc
  · intro x k' loc t hx hb
    rcases mem_append.1 hx with hx | hx
    · exact h.live x k' loc t hx hb
    · obtain ⟨rfl,hd⟩ := hnew hx
      obtain ⟨t',ht',hz⟩ := hd.live
      by_contra hne
      rw [← hst k' loc t t' hb hne (.inl ht')] at hne
      exact hne hz

theorem Engine.EnvEffect.disk_tuple (he : s.EnvEffect e s') (k : TableKey) (loc : PageSlot) :
    s'.disk.tuple k loc = s.disk.tuple k loc ∨ s'.disk.tuple k loc = s.mem k loc := by
  rw [tuple_disk,tuple_disk,mem]
  rcases he.diskPage k loc.pid with hd | ⟨f,hf,hd,-⟩
  · rw [hd]
    exact .inl rfl
  · rw [hd,page_of_frame hf]
    exact .inr rfl

namespace StampsKept

theorem run (h : StampsKept base s) (hsl : SlotsOk base s.wal s ws) (hdl : DeletesOk base s.wal)
    (hrec : Recorded s.wal k g) (he : s.Effect i k c r s') (ha : g.allowed c) : StampsKept base s' := by
  intro k' loc t0 t hb hne hor
  rcases hor with hm | hd
  · -- a statement stamps only rows it has delete records for
    have hlog : ∀ loc' ∈ g.logged, k' = k → loc' ≠ loc := by
      rintro loc' hl rfl rfl
      obtain ⟨x,-,hx⟩ := hrec.logged loc' hl
      exact hne (hdl.live x k' loc' t0 hx hb)
    obtain ⟨t1,ht1⟩ := ne_none_iff_exists'.1 (hsl.kept k' loc (by simp [hb]))
    have hold := h k' loc t0 t1 hb hne (.inl ht1)
    rw [← hold]
    by_cases hk : k' = k
    · subst hk
      have hs := he.slot loc
      rw [ht1,hm] at hs
      cases hs with
      | same | hot => rfl
      | stamp => exact absurd rfl (hlog loc ha.2.2.1 rfl)
      | clear => exact absurd rfl (hlog loc ha.2.1 rfl)
    · rw [he.otherMem hk,ht1] at hm
      obtain rfl := some.inj hm
      rfl
  · exact h k' loc t0 t hb hne (.inr (he.disk_tuple hd))

theorem env (h : StampsKept base s) (hst : Steady s ws) (hcl : Clean s ws) (he : s.EnvEffect e s') :
    StampsKept base s' := by
  intro k loc t0 t hb hne hor
  refine h k loc t0 t hb hne ?_
  rcases hor with hm | hd
  · rw [mem,hcl.page_env hst he] at hm
    exact .inl hm
  · rcases he.disk_tuple k loc with hd' | hd'
    · exact .inr (hd'.symm.trans hd)
    · exact .inl (hd'.symm.trans hd)

end StampsKept

def Engine.HasRoom (s : Engine) (k : TableKey) (pid : PageID) (n : Nat) : Prop :=
  ∀ p, s.page k pid = some p → p.lack (RecoveryStep.opsOn (k,pid) (redoPhase s.wal))+n ≤ p.freeSpace

def Engine.KeepsRoom (s : Engine) (k : TableKey) : (c : Cmd) → c.Res → Prop
  | .insertTuple pid t, some _ => s.frame k pid ≠ none ∧ s.HasRoom k pid (t.length+itemPointerSize)
  | .setHOTUpdated loc _, _ => ∀ x y t, ⟨x,.pageInsert k loc y t⟩ ∈ s.wal → s.HasRoom k loc.pid t.length
  | _, _ => True

structure PagesOk (base : Base) (s : Engine) : Prop where
  synced : s.synced ≤ s.wal.length
  logged : LoggedOnDisk base (s.wal.take s.synced) s
  kept : ∀ k loc, base k loc ≠ none → s.disk.tuple k loc ≠ none
  grown : ∀ k pid p q, s.diskPage k pid = some p → s.page k pid = some q → p.Grows q
  room : ∀ k pid, s.HasRoom k pid 0

theorem mem_of_insert (hsd : Sound base s.wal s ws) (hsl : SlotsOk base s.wal s ws)
    {y : Nat} (h : ⟨x,.pageInsert k loc y t⟩ ∈ s.wal) : ∃ e, s.mem k loc = some e ∧ e.data = t.data := by
  obtain ⟨e,he⟩ := ne_none_iff_exists'.1 (hsl.named _ h k loc rfl)
  obtain ⟨t0,hsrc,hdata,-⟩ := (hsd.memory k loc e he).version
  refine ⟨e,he,hdata.trans ?_⟩
  rcases hsrc with (hb | ⟨z,hz⟩) | ⟨j,g,hj,hp⟩
  · rw [(hsl.inserted x k loc y t h).1] at hb
    cases hb
  · rw [(hsl.wellLogged.insert_unique h hz).2.2]
  · exact absurd rfl ((hsl.pend j k g loc t0 hj hp).unnamed _ h)

namespace PagesOk

theorem grown_run (h : PagesOk base s) (he : s.Effect i k c r s') (k' : TableKey) (pid : PageID) (p q : Page)
    (hd : s'.diskPage k' pid = some p) (hq : s'.page k' pid = some q) : p.Grows q := by
  rcases he.diskPage k' pid with hsame | ⟨-,hinit,hinit'⟩
  · rw [hsame] at hd
    by_cases hk : k' = k
    · subst hk
      have hpage := he.page pid
      obtain ⟨q0,hq0⟩ : ∃ q0, s.page k' pid = some q0 := by
        rw [page_eq]
        cases s.frame k' pid with
        | none => exact ⟨p,hd⟩
        | some f => exact ⟨f.page,rfl⟩
      have hgrown := h.grown k' pid p q0 hd hq0
      rw [hq0,hq] at hpage
      cases hpage with
      | same => exact hgrown
      | insert hi => exact hgrown.insertTuple hi
      | hot => exact hgrown.modifyTuple (fun t => t.keptAs_setHOTUpdated _) _
      | stamp | clear => exact hgrown.modifyTuple (fun t => t.keptAs_setXMax _) _
    · rw [he.otherPage hk] at hq
      exact h.grown k' pid p q hd hq
  · obtain rfl := some.inj (hd.symm.trans hinit)
    obtain rfl := some.inj (hq.symm.trans hinit')
    exact .refl _

theorem lack_record (hsl : SlotsOk base s.wal s ws) (hw : ws[i]? = some (k,g)) (ha : g.allowed c)
    {k' : TableKey} {pid : PageID} {p : Page} (hp : s.page k' pid = some p) :
    p.lack (opsOn (k',pid) (redoPhase (c.record k).toList)) = 0 := by
  refine lack_eq_zero fun n t hm => ?_
  obtain ⟨x,y,he⟩ := mem_opsOn_insert.1 hm
  have hc := mem_toList.1 he
  cases c with
  | logInsert x' loc t' =>
    cases hc
    have hmem := (hsl.pend i k g _ _ hw ha.2).mem
    rw [mem,hp,bind_some] at hmem
    exact missing_insert_of_sameVersion hmem (.refl t)
  | logDelete | logCommit => cases hc
  | _ => cases hc

section
variable (h : PagesOk base s) (hsl : SlotsOk base s.wal s ws) (hw : ws[i]? = some (k,g)) (ha : g.allowed c)
    (hok : s.KeepsRoom k c r) (he : s.Effect i k c r s') (hwal : s'.wal = s.wal++(c.record k).toList)
include h hsl hw ha hok he hwal
theorem room_run (k' : TableKey) (pid : PageID) : s'.HasRoom k' pid 0 := by
  intro q hq
  rw [Nat.add_zero,hwal,opsOn_redoPhase_append,lack_append]
  have hsame : s.page k' pid = some q → q.lack (opsOn (k',pid) (redoPhase s.wal))+
        q.lack (opsOn (k',pid) (redoPhase (c.record k).toList)) ≤ q.freeSpace := by
    intro hp
    rw [lack_record hsl hw ha hp]
    exact h.room k' pid q hp
  by_cases hk : k' = k
  · subst hk
    have hpage := he.page pid
    rw [hq] at hpage
    generalize hp : s.page k' pid = p at hpage
    have hnamed : ∀ n t, .insert n t ∈ opsOn (k',pid) (redoPhase s.wal) → s.mem k' ⟨pid,n⟩ ≠ none := by
      intro n t hm
      obtain ⟨x,y,hrec⟩ := mem_opsOn_insert.1 hm
      exact hsl.named _ hrec k' _ rfl
    cases hpage with
    | same => exact hsame hp
    | init =>
      rw [lack_eq_zero fun n t hm => absurd (by rw [mem,hp]; rfl) (hnamed n t hm)]
      exact Nat.zero_le _
    | @insert t slot p q hi =>
      obtain ⟨hslot,hitems,hupper,-,-⟩ := insertTuple_eq_some hi
      have hroom := hok.2 p hp
      have hlack : p.lack (opsOn (k',pid) (redoPhase s.wal)) = q.lack (opsOn (k',pid) (redoPhase s.wal)) := by
        refine lack_congr fun n t' hm => missing_congr ?_
        have hne : n ≠ slot := by
          rintro rfl
          refine hnamed n t' hm ?_
          rw [mem,hp,bind_some]
          cases ht : p.getTuple n with
          | none => rfl
          | some e => exact absurd (getTuple_lt ht) (by omega)
        rw [getTuple_insertTuple hi,if_neg hne]
      have hfree : q.freeSpace = p.freeSpace-(t.length+itemPointerSize) := by
        simp only [freeSpace,lower,nItems,hitems,hupper,length_append,length_singleton,itemPointerSize]
        omega
      show q.lack _+0 ≤ _
      rw [← hlack,hfree]
      omega
    | @hot slot n p =>
      show (p.modifyTuple slot _).lack _+0 ≤ _
      rw [freeSpace_modifyTuple]
      by_cases hins : ∃ x y t, ⟨x,.pageInsert k' ⟨pid,slot⟩ y t⟩ ∈ s.wal
      · obtain ⟨x,y,t,hrec⟩ := hins
        have hle := lack_modifyTuple_le slot (fun e => e.setHOTUpdated n) (p := p) (n := t.length)
          (wellLogged_opsOn hsl.wellLogged (k',pid)) (fun t' hm => ?_)
        · have hroom : p.lack (opsOn (k',pid) (redoPhase s.wal))+t.length ≤ p.freeSpace :=
            hok x y t hrec p hp
          omega
        · obtain ⟨x',y',hrec'⟩ := mem_opsOn_insert.1 hm
          rw [(hsl.wellLogged.insert_unique hrec hrec').2.2]
      · have hle := lack_modifyTuple_le slot (fun e => e.setHOTUpdated n) (p := p) (n := 0)
          (wellLogged_opsOn hsl.wellLogged (k',pid))
          (fun t' hm => absurd ⟨_,_,_,(mem_opsOn_insert.1 hm).choose_spec.choose_spec⟩ hins)
        have hroom := h.room k' pid p hp
        omega
    | stamp | clear =>
      rw [freeSpace_modifyTuple]
      rw [lack_congr fun s t _ => missing_modifyTuple_setXMax _ _ _ s t]
      exact h.room k' pid _ hp
  · rw [he.otherPage hk] at hq
    exact hsame hq

theorem run (hsync : s'.synced = s.synced) : PagesOk base s' := by
  have hle := h.synced
  have htake : s'.wal.take s'.synced = s.wal.take s.synced := by rw [hwal,hsync,take_append_of_le_length hle]
  refine ⟨?_,fun k' loc t ht => ?_,fun k' loc hb => ?_,h.grown_run he,h.room_run hsl hw ha hok he hwal⟩
  · rw [hwal,hsync,length_append]
    omega
  · rw [htake]
    exact h.logged k' loc t (he.disk_tuple ht)
  · have hk := h.kept k' loc hb
    rw [tuple_disk] at hk ⊢
    rcases he.diskPage k' loc.pid with hd | ⟨hnone,-,-⟩
    · rwa [hd]
    · simp [hnone] at hk
end

theorem env (h : PagesOk base s) (hsd : Sound base s.wal s ws) (hsl : SlotsOk base s.wal s ws) (hcl : Clean s ws)
    (he : s.EnvEffect e s')
    (hok : ∀ k pid f, e = .flushPage k pid → s.frame k pid = some f → ∀ n t, f.page.getTuple n = some t →
      Accounted (Source base (s.wal.take s.synced) k) (StampSource base (s.wal.take s.synced) k) ⟨pid,n⟩ t) :
    PagesOk base s' := by
  obtain ⟨hlo,hhi⟩ := he.synced h.synced
  have hsub : ∀ e ∈ s.wal.take s.synced, e ∈ s'.wal.take s'.synced := by
    intro e hin
    rw [he.wal]
    exact (take_prefix_take_left hlo).subset hin
  have hpage := hcl.page_env hsd.steady he
  refine ⟨by rw [he.wal]; exact hhi,fun k loc t ht => ?_,fun k loc hb => ?_,fun k pid p q hd hq => ?_, fun k pid q hq => ?_⟩
  · rw [tuple_disk] at ht
    rcases he.diskPage k loc.pid with hd | ⟨f,hf,hd,hor⟩
    · rw [hd,← tuple_disk] at ht
      exact (h.logged k loc t ht).mono (fun _ _ hs => hs.mono hsub) fun _ hx => hx.mono hsub
    · rw [hd] at ht
      rcases hor with rfl | ⟨hpins,hsync⟩
      · exact (hok k loc.pid f rfl hf loc.slot t ht).mono (fun _ _ hs => hs.mono hsub) fun _ hx => hx.mono hsub
      · rw [he.wal,hsync,take_length]
        exact hsd.page_logged hf (Sound.not_pending_of_unpinned hsd.steady hf hpins) ht
  · rcases he.disk_tuple k loc with hd | hd
    · rw [hd]
      exact h.kept k loc hb
    · rw [hd]
      exact hsl.kept k loc hb
  · rw [hpage] at hq
    rcases he.diskPage k pid with hd' | ⟨f,hf,hd',-⟩
    · exact h.grown k pid p q (hd'.symm.trans hd) hq
    · obtain rfl := some.inj (hd.symm.trans hd')
      rw [page_of_frame hf] at hq
      obtain rfl := some.inj hq
      exact .refl _
  · rw [hpage] at hq
    rw [he.wal]
    exact h.room k pid q hq

theorem start (hcold : ∀ k pid, s.frame k pid = none) (hwal : s.wal = []) (hsync : s.synced = 0) :
    PagesOk s.mem s := by
  have hpage : ∀ k pid, s.page k pid = s.diskPage k pid := fun k pid => page_of_no_frame (hcold k pid)
  have hmem : ∀ k loc, s.disk.tuple k loc = s.mem k loc := by
    intro k loc
    rw [tuple_disk,mem,hpage]
  refine ⟨by rw [hsync]; exact Nat.zero_le _,?_,fun k loc hb => by rwa [hmem],fun k pid p q hd hq => ?_, fun k pid p hp => ?_⟩
  · rw [hwal,take_nil]
    exact (Sound.start hcold []).disk
  · rw [hpage,hd] at hq
    obtain rfl := some.inj hq
    exact .refl _
  · rw [hwal]
    exact Nat.zero_le _

end PagesOk
end

def Engine.HasSchemas (s : Engine) : Prop := ∀ k t, s.tables k = some t → t.dir.schema ≠ none

variable {k : TableKey} {c : Cmd} {r : c.Res}
theorem Engine.HasSchemas.setTable (h : s.HasSchemas) {t t' : Table}
    (ht : s.tables k = some t) (hd : t'.dir.schema = t.dir.schema) : (s.setTable k t').HasSchemas := by
  intro k' t1 ht1
  rw [tables_setTable] at ht1
  split at ht1
  · obtain rfl := some.inj ht1
    rw [hd]
    exact h k t ht
  · exact h k' t1 ht1

theorem Engine.Shape.files {i : Nat} {s s' : Engine} (h : s.Shape i k c r s') (hs : s.HasSchemas) :
    s'.HasSchemas ∧ s'.synced = s.synced ∧ (s'.savedTx = s.savedTx ∨ c = .syncCatalog s'.savedTx) := by
  have hput : ∀ {t1 t2 : Table} {loc : PageSlot} {x : Nat}, t1.putXMax loc x = some t2 → t2.dir = t1.dir := by
    intro t1 t2 loc x he
    obtain ⟨p,f,-,-,-,-,-,rfl⟩ := Table.putXMax_eq_some he
    rfl
  cases h with
  | quiet | getInfo | nextTxID | noTable | lockPage | unlockPage => exact ⟨hs,rfl,.inl rfl⟩
  | fetchFail | allocateFail | putFail | clearFail => exact ⟨hs,rfl,.inl rfl⟩
  | logInsert | logDelete | logCommit => exact ⟨hs,rfl,.inl rfl⟩
  | @syncCatalog x =>
    obtain ⟨ht,-,hsync,-,-,-,hsaved⟩ := s.syncCatalog_eq x
    refine ⟨fun k' t hk => hs k' t (by rwa [ht] at hk),hsync,hsaved.imp_right fun he => by rw [he]⟩
  | logFail hc hor =>
    rcases hor with rfl | ⟨x,op,rfl⟩
    · exact ⟨hs,rfl,.inl rfl⟩
    · exact ⟨hs,rfl,.inl rfl⟩
  | setInfo ht | lockTable ht | relockTable ht | unlockTable ht | pageFull ht =>
    exact ⟨hs.setTable ht rfl,rfl,.inl rfl⟩
  | setHOTUpdated ht | unpinPage ht | unpinPageDirty ht => exact ⟨hs.setTable ht rfl,rfl,.inl rfl⟩
  | cacheFail ht => exact ⟨hs.setTable ht rfl,rfl,.inl rfl⟩
  | fetchPage ht he =>
    obtain ⟨f,rfl,-⟩ := Table.fetchPage_eq_some he
    exact ⟨hs.setTable ht rfl,rfl,.inl rfl⟩
  | allocatePage ht he =>
    obtain ⟨hf,-,⟨f,-,rfl⟩ | ⟨-,rfl⟩⟩ := Table.allocatePage_eq_some he
    · exact ⟨hs.setTable ht rfl,rfl,.inl rfl⟩
    · exact ⟨hs.setTable ht rfl,rfl,.inl rfl⟩
  | insertTuple ht he =>
    rcases Table.insertTuple_some he with ⟨-,heq⟩ | ⟨f,p,-,-,heq⟩
    · exact ⟨hs.setTable ht (by rw [heq]),rfl,.inl rfl⟩
    · exact ⟨hs.setTable ht (by rw [heq]; rfl),rfl,.inl rfl⟩
  | putXMax ht he | clearXMax ht he => exact ⟨hs.setTable ht (by rw [hput he]),rfl,.inl rfl⟩

theorem Engine.Env.files {s s' : Engine} (h : s.Env e s') (hne : e ≠ .checkpoint)
    (hs : s.HasSchemas) : s'.HasSchemas ∧ s'.savedTx = s.savedTx ∧ s'.clock = s.clock := by
  cases h with
  | sync => exact ⟨hs,rfl,rfl⟩
  | flushPage ht => exact ⟨hs.setTable ht rfl,rfl,rfl⟩
  | evictClean ht => exact ⟨hs.setTable ht rfl,rfl,rfl⟩
  | @evictDirty k pid t f ht =>
    have hset : (s.setTable k ((t.writeFrame pid f).setFrame pid none)).HasSchemas := hs.setTable ht rfl
    exact ⟨hset,rfl,rfl⟩
  | checkpoint => exact absurd rfl hne

/-- The log takes the record of the command, ids stay below the flag bits, the page keeps its room,
and a delete record is about a row that may be deleted. -/
structure Engine.Recoverable (s : Engine) (k : TableKey) (c : Cmd) (r : c.Res) : Prop where
  logged : ¬ c.Failed r
  counter : c = .nextTxID → s.clock.txCounter+1 < 2^48
  room : s.KeepsRoom k c r
  deletable : ∀ x loc, c = .logDelete x loc → s.Deletable x k loc

theorem Engine.Recoverable.onSlots (h : s.Recoverable k c r) : s.OnSlots k c r := by
  cases c with
  | insertTuple pid t =>
    cases r with
    | none => trivial
    | some slot => exact h.room.1
  | logDelete x loc =>
    obtain ⟨t,ht,-⟩ := (h.deletable x loc rfl).live
    rw [Engine.OnSlots,ht]
    simp
  | _ => trivial

/-- A page may be written when everything on it is from the start or from the durable log. -/
def Engine.Flushable (base : Base) (s : Engine) (k : TableKey) (pid : PageID) : Prop :=
  ∀ f, s.frame k pid = some f → ∀ n t, f.page.getTuple n = some t →
    Accounted (Source base (s.wal.take s.synced) k) (StampSource base (s.wal.take s.synced) k) ⟨pid,n⟩ t

/-- The engine as recovery needs it; `x₀` and `y₀` are the counter and the saved counter at the
start. -/
structure Durable (base : Base) (x₀ y₀ : Nat) (s : Engine) (ws : List (TableKey × Watcher)) : Prop where
  sound : Sound base s.wal s ws
  log : LogOk x₀ s.clock.txCounter s.wal ws
  clean : Clean s ws
  slots : SlotsOk base s.wal s ws
  deletes : DeletesOk base s.wal
  stamps : StampsKept base s
  pages : PagesOk base s
  schemas : s.HasSchemas
  counter : x₀ ≤ s.clock.txCounter ∧ s.clock.txCounter < 2^48
  saved : y₀ ≤ x₀ ∧ y₀ ≤ s.savedTx

namespace Durable
variable {base : Base} {x₀ y₀ : Nat} {s s' : Engine} {ws : List (TableKey × Watcher)}
section
variable (h : Durable base x₀ y₀ s ws)
include h
theorem run {i : Nat} {g : Watcher}
    (hw : ws[i]? = some (k,g)) (ha : g.allowed c) (hok : s.Recoverable k c r) (hs : s.Shape i k c r s') :
    Durable base x₀ y₀ s' (ws.set i (k,g.next c r)) := by
  have he := hs.effect (h.sound.steady.backed k)
  have hwal := he.wal hok.logged
  obtain ⟨hschemas,hsync,hsaved⟩ := hs.files h.schemas
  have hi := h.sound.steady.thread i k g hw
  constructor
  · rw [hwal]
    exact h.sound.run hw ha hok.logged hs
  · rw [hwal]
    exact h.log.run hw hi h.counter.1 ha hok.logged hs
  · exact h.clean.run h.sound.steady hw ha hok.logged he
  · rw [hwal]
    exact h.slots.run h.sound hw ha hok.logged hok.onSlots he
  · rw [hwal]
    exact h.deletes.run h.slots h.stamps hw ha hok.deletable
  · exact h.stamps.run h.slots h.deletes (h.sound.recorded i k g hw) he ha
  · exact h.pages.run h.slots hw ha hok.room he hwal hsync
  · exact hschemas
  · obtain ⟨hlo,hhi⟩ := h.counter
    rcases hs.clock g with ⟨-,hc⟩ | ⟨hn,-,hc⟩
    · rw [hc]
      exact ⟨hlo,hhi⟩
    · have := hok.counter hn
      omega
  · refine ⟨h.saved.1,?_⟩
    rcases hsaved with hsv | hsv
    · rw [hsv]
      exact h.saved.2
    · -- the catalog gets the id of a statement that started in this run
      have htx : g.tx = some s'.savedTx := by
        rw [hsv] at ha
        exact ha
      have := (h.log.bound i k g _ hw htx).1
      have := h.saved.1
      omega

theorem env (hne : e ≠ .checkpoint) (hok : ∀ k pid, e = .flushPage k pid → s.Flushable base k pid)
    (hs : s.Env e s') : Durable base x₀ y₀ s' ws := by
  have he := hs.effect h.sound.steady.backed hne
  have hwal := he.wal
  obtain ⟨hschemas,hsaved,hclock⟩ := hs.files hne h.schemas
  have hsub : ∀ e ∈ s.wal.take s.synced, e ∈ s.wal := fun e he => mem_of_mem_take he
  constructor
  · rw [hwal]
    refine h.sound.env hne (fun k pid f hk hf n t ht => ?_) hs
    exact (hok k pid hk f hf n t ht).mono (fun _ _ hs => hs.mono hsub) fun _ hx => hx.mono hsub
  · rw [hwal,hclock]
    exact h.log
  · exact h.clean.env he
  · rw [hwal]
    exact h.slots.env h.sound.steady h.clean he
  · rw [hwal]
    exact h.deletes
  · exact h.stamps.env h.sound.steady h.clean he
  · exact h.pages.env h.sound h.slots h.clean he fun k pid f hk hf => hok k pid hk f hf
  · exact hschemas
  · rw [hclock]
    exact h.counter
  · rw [hsaved]
    exact h.saved

theorem spawn (k : TableKey) : Durable base x₀ y₀ s (ws++[(k,({} : Watcher))]) :=
  ⟨h.sound.spawn k,h.log.spawn k,h.clean.spawn k,h.slots.spawn k,h.deletes,h.stamps,h.pages,
    h.schemas,h.counter,h.saved⟩
end
end Durable
end VaultDB.Storage
