import VaultDB.Storage.Contents
set_option autoImplicit false

/-!
The tuples of a table in the order of a scan, and its live rows.
-/

namespace VaultDB.Storage
open Lib Table List Option
variable {x : PageSlot × Tuple} {t : Tuple}
def PageSlot.Before (x y : PageSlot) : Prop := pageIndex x.pid < pageIndex y.pid ∨ x.pid = y.pid ∧ x.slot < y.slot

namespace Table
variable {pid : PageID} {p : Page}
theorem mem_pageSlots : x ∈ pageSlots pid p ↔ x.1.pid = pid ∧ p.getTuple x.1.slot = some x.2 := by
  simp only [pageSlots,mem_filterMap,mem_range,map_eq_some_iff]
  constructor
  · rintro ⟨n,-,t,ht,rfl⟩
    exact ⟨rfl,ht⟩
  · rintro ⟨rfl,ht⟩
    exact ⟨x.1.slot,Page.getTuple_lt ht,x.2,ht,rfl⟩

theorem pageSlots_insertTuple {q : Page} {slot : Nat}
    (h : p.insertTuple t = some (q,slot)) : pageSlots pid q = pageSlots pid p++[(⟨pid,slot⟩,t)] := by
  obtain ⟨rfl,hitems,-⟩ := Page.insertTuple_eq_some h
  have hn : q.nItems = p.nItems+1 := by simp [Page.nItems,hitems]
  have hlow : ∀ n ∈ range p.nItems, (q.getTuple n).map (fun t => (PageSlot.mk pid n,t)) =
      (p.getTuple n).map fun t => (PageSlot.mk pid n,t) := by
    intro n hn
    rw [Page.getTuple_insertTuple h,if_neg (Nat.ne_of_lt (mem_range.1 hn))]
  rw [pageSlots,hn,range_succ,filterMap_append,filterMap_congr hlow]
  simp [pageSlots,Page.getTuple_insertTuple h]

theorem pageSlots_modifyTuple (pid : PageID) (p : Page) (slot : Nat) (f : Tuple → Tuple) :
    pageSlots pid (p.modifyTuple slot f) =
      (pageSlots pid p).map fun x => if x.1 = ⟨pid,slot⟩ then (x.1,f x.2) else x := by
  rw [pageSlots,pageSlots,Page.nItems_modifyTuple,map_filterMap]
  refine filterMap_congr fun n _ => ?_
  rw [Page.getTuple_modifyTuple]
  by_cases hn : slot = n
  · subst hn
    cases p.getTuple slot <;> simp
  · have hne : ¬ n = slot := fun h => hn h.symm
    cases p.getTuple n <;> simp [hn,hne]

end Table

namespace Contents
variable {c : Contents} {pid : PageID} {p : Page} {loc : PageSlot} {c' : Contents}
theorem slots_split (h : c.page pid = some p) : ∃ a b, c.slots = a++pageSlots pid p++b ∧
    (∀ q, (c.setPage pid q).slots = a++pageSlots pid q++b) ∧
    (∀ x ∈ a, pageIndex x.1.pid < pageIndex pid) ∧ ∀ x ∈ b, pageIndex pid < pageIndex x.1.pid := by
  obtain ⟨hp,hget⟩ := page_lt h
  have hlt := (List.getElem?_eq_some_iff.1 hget).1
  have hfew := c.few
  have hpid : pageIDAt (pageIndex pid) = pid := pageIDAt_pageIndex hp (by omega)
  have hsplit : ∀ q, c.pages.set (pageIndex pid) q =
    c.pages.take (pageIndex pid)++q :: c.pages.drop (pageIndex pid+1) := by
    intro q
    rw [set_eq_take_append_cons_drop,if_pos hlt]
  have hself : c.pages.set (pageIndex pid) p = c.pages := by
    obtain ⟨hlt,hget⟩ := List.getElem?_eq_some_iff.1 hget
    rw [← hget,set_getElem_self]
  have hslots : ∀ q, (c.pages.set (pageIndex pid) q).zipIdx.flatMap (fun x => pageSlots (pageIDAt x.2) x.1) =
      (c.pages.take (pageIndex pid)).zipIdx.flatMap (fun x => pageSlots (pageIDAt x.2) x.1)++
        pageSlots pid q++((c.pages.drop (pageIndex pid+1)).zipIdx (pageIndex pid+1)).flatMap
          fun x => pageSlots (pageIDAt x.2) x.1 := by
    intro q
    rw [hsplit,zipIdx_append]
    simp [Nat.min_eq_left (Nat.le_of_lt hlt),hpid]
  refine ⟨_,_,?_,hslots,fun x hx => ?_,fun x hx => ?_⟩
  · rw [← hslots,hself]
    rfl
  · obtain ⟨y,hy,hx⟩ := mem_flatMap.1 hx
    obtain ⟨i,hi,hget⟩ := mem_iff_getElem.1 hy
    have hy2 : y.2 < pageIndex pid := by
      rw [← hget]
      simp at hi ⊢
      omega
    rw [(mem_pageSlots.1 hx).1,pageIndex_pageIDAt (by omega)]
    exact hy2
  · obtain ⟨y,hy,hx⟩ := mem_flatMap.1 hx
    obtain ⟨i,hi,hget⟩ := mem_iff_getElem.1 hy
    have hy2 : pageIndex pid < y.2 ∧ y.2 < c.pages.length := by
      rw [← hget]
      simp at hi ⊢
      omega
    rw [(mem_pageSlots.1 hx).1,pageIndex_pageIDAt (by omega)]
    exact hy2.1

theorem slots_addPage (h : c.pages.length < maxPages) : (c.addPage h).slots = c.slots := by
  simp [slots,addPage,zipIdx_append,pageSlots,Page.init,Page.nItems]

theorem mem_slots_iff : x ∈ c.slots ↔ c.tuple x.1 = some x.2 := by
  have hfew := c.few
  constructor
  · intro hx
    obtain ⟨y,hy,hx⟩ := mem_flatMap.1 hx
    obtain ⟨hpid,ht⟩ := mem_pageSlots.1 hx
    obtain ⟨i,hi,hget⟩ := mem_iff_getElem.1 hy
    have hi' : i < c.pages.length := by simpa using hi
    have hpage : c.page x.1.pid = some y.1 := by
      rw [hpid,← hget,getElem_zipIdx,Nat.zero_add,c.page_pageIDAt (by omega)]
      exact getElem?_eq_getElem hi'
    rw [tuple,hpage,bind_some,ht]
  · intro ht
    obtain ⟨p,hp,ht⟩ := bind_eq_some_iff.1 ht
    obtain ⟨a,b,hs,-⟩ := slots_split hp
    rw [hs]
    exact mem_append_left _ (mem_append_right _ (mem_pageSlots.2 ⟨rfl,ht⟩))

def modify (c : Contents) (loc : PageSlot) (f : Tuple → Tuple) : Contents :=
  match c.page loc.pid with
  | some p => c.setPage loc.pid (p.modifyTuple loc.slot f)
  | none => c

@[simp] theorem info_modify (c : Contents) (loc : PageSlot) (f : Tuple → Tuple) :
    (c.modify loc f).info = c.info := by
  unfold modify
  split <;> rfl

@[simp] theorem length_modify (c : Contents) (loc : PageSlot) (f : Tuple → Tuple) :
    (c.modify loc f).pages.length = c.pages.length := by
  unfold modify
  split
  · simp [setPage]
  · rfl

theorem slots_modify (c : Contents) (loc : PageSlot) (f : Tuple → Tuple) :
    (c.modify loc f).slots = c.slots.map fun x => if x.1 = loc then (x.1,f x.2) else x := by
  unfold modify
  cases hp : c.page loc.pid with
  | some p =>
    obtain ⟨a,b,hs,hset,ha,hb⟩ := slots_split hp
    have hsame : ∀ l : List (PageSlot × Tuple), (∀ x ∈ l, pageIndex x.1.pid ≠ pageIndex loc.pid) →
        l.map (fun x => if x.1 = loc then (x.1,f x.2) else x) = l := by
      intro l hl
      conv_rhs => rw [← map_id l]
      refine map_congr_left fun x hx => ?_
      have hne : x.1 ≠ loc := fun he => hl x hx (by rw [he])
      rw [if_neg hne,id]
    show (c.setPage loc.pid _).slots = _
    rw [hset,hs,map_append,map_append,pageSlots_modifyTuple,
      hsame a fun x hx => Nat.ne_of_lt (ha x hx),hsame b fun x hx => Nat.ne_of_gt (hb x hx)]
  | none =>
    show c.slots = _
    conv_lhs => rw [← map_id c.slots]
    refine map_congr_left fun x hx => ?_
    rw [if_neg,id]
    rintro rfl
    have := mem_slots_iff.1 hx
    rw [tuple,hp] at this
    cases this

def insertAt (c : Contents) (pid : PageID) (t : Tuple) : Option (Contents × PageSlot) :=
  (c.page pid).bind fun p => (p.insertTuple t).map fun x => (c.setPage pid x.1,⟨pid,x.2⟩)

theorem slots_insertAt (h : c.insertAt pid t = some (c',loc)) : ∃ a b,
    c.slots = a++b ∧ c'.slots = a++(loc,t) :: b ∧ loc.pid = pid ∧
    (∀ x ∈ a, pageIndex x.1.pid ≤ pageIndex pid) ∧ ∀ x ∈ b, pageIndex pid < pageIndex x.1.pid := by
  obtain ⟨p,hp,h⟩ := bind_eq_some_iff.1 h
  obtain ⟨x,hi,h⟩ := map_eq_some_iff.1 h
  obtain ⟨rfl,rfl⟩ := Prod.mk.inj h
  obtain ⟨a,b,hs,hset,ha,hb⟩ := slots_split hp
  refine ⟨a++pageSlots pid p,b,hs,?_,rfl,fun y hy => ?_,hb⟩
  · rw [hset,pageSlots_insertTuple hi]
    simp
  · rcases mem_append.1 hy with hy | hy
    · exact Nat.le_of_lt (ha y hy)
    · exact Nat.le_of_eq (congrArg pageIndex (mem_pageSlots.1 hy).1)

theorem info_insertAt (h : c.insertAt pid t = some (c',loc)) : c'.info = c.info ∧ c'.pages.length =
    c.pages.length := by
  obtain ⟨p,hp,h⟩ := bind_eq_some_iff.1 h
  obtain ⟨x,hi,h⟩ := map_eq_some_iff.1 h
  obtain ⟨rfl,rfl⟩ := Prod.mk.inj h
  exact ⟨rfl,by simp [setPage]⟩

def live (c : Contents) : List (PageSlot × List UInt8) :=
  (c.slots.filter fun x => x.2.deletedTx = 0).map fun x => (x.1,x.2.data)

theorem mem_live_iff {d : List UInt8} : (loc,d) ∈ c.live ↔ ∃ t, c.tuple loc = some t ∧ t.deletedTx =
    0 ∧ t.data = d := by
  simp only [live,List.mem_map,List.mem_filter,decide_eq_true_eq,Prod.mk.injEq]
  constructor
  · rintro ⟨x,⟨hx,hd⟩,rfl,rfl⟩
    exact ⟨x.2,mem_slots_iff.1 hx,hd,rfl⟩
  · rintro ⟨t,ht,hd,rfl⟩
    exact ⟨(loc,t),⟨mem_slots_iff.2 ht,hd⟩,rfl,rfl⟩

theorem live_setXMax (c : Contents) (loc : PageSlot) {x : Nat} (hx : x ≠ 0) :
    (c.modify loc (·.setXMax x)).live = c.live.filter fun y => y.1 ≠ loc := by
  rw [live,slots_modify,live,List.filter_map,List.filter_map,List.map_map,List.filter_filter]
  have hfilter : (c.slots.filter ((fun x => decide (x.2.deletedTx = 0)) ∘
      fun y => if y.1 = loc then (y.1,y.2.setXMax x) else y)) =
      c.slots.filter fun y => (decide (y.1 ≠ loc) && decide (y.2.deletedTx = 0)) := by
    refine filter_congr fun y _ => ?_
    by_cases hy : y.1 = loc <;> simp [hy,hx]
  rw [hfilter]
  refine map_congr_left fun y hy => ?_
  have : y.1 ≠ loc := by
    have := (mem_filter.1 hy).2
    simp only [Bool.and_eq_true,decide_eq_true_eq] at this
    exact this.1
  simp [this]

theorem live_modify (c : Contents) (loc : PageSlot) {f : Tuple → Tuple} (hd : ∀ t, (f t).deletedTx = t.deletedTx)
    (hdata : ∀ t, (f t).data = t.data) : (c.modify loc f).live = c.live := by
  rw [live,slots_modify,live,List.filter_map,List.map_map]
  have hfilter : (c.slots.filter ((fun x => decide (x.2.deletedTx = 0)) ∘
      fun y => if y.1 = loc then (y.1,f y.2) else y)) = c.slots.filter fun y => decide (y.2.deletedTx = 0) := by
    refine filter_congr fun y _ => ?_
    by_cases hy : y.1 = loc <;> simp [hy,hd]
  rw [hfilter]
  refine map_congr_left fun y _ => ?_
  by_cases hy : y.1 = loc <;> simp [hy,hdata]

theorem live_insertAt (h : c.insertAt pid t = some (c',loc)) (ht : t.deletedTx = 0) :
    ∃ a b, c.live = a++b ∧ c'.live = a++(loc,t.data) :: b ∧ loc.pid = pid ∧
    (∀ x ∈ a, pageIndex x.1.pid ≤ pageIndex pid) ∧ ∀ x ∈ b, pageIndex pid < pageIndex x.1.pid := by
  obtain ⟨a,b,hs,hs',hpid,ha,hb⟩ := slots_insertAt h
  refine ⟨_,_,by rw [live,hs,filter_append,map_append],
    by rw [live,hs',filter_append,map_append,filter_cons,if_pos (by simpa using ht),
      map_cons],hpid,fun x hx => ?_,fun x hx => ?_⟩
  · obtain ⟨y,hy,rfl⟩ := mem_map.1 hx
    exact ha y (mem_filter.1 hy).1
  · obtain ⟨y,hy,rfl⟩ := mem_map.1 hx
    exact hb y (mem_filter.1 hy).1

end Contents

inductive Contents.Change (c : Contents) : Cmd → Contents → Prop where
  | setInfo (f : TableInfo → TableInfo) : Change c (.setInfo f) { c with info := f c.info }
  | allocatePage (h : c.pages.length < maxPages) : Change c .allocatePage (c.addPage h)
  | insertTuple {pid : PageID} {t : Tuple} {c' : Contents} {loc : PageSlot} : c.insertAt pid t = some (c',loc) →
      Change c (.insertTuple pid t) c'
  | setHOTUpdated (loc : PageSlot) (n : Nat) : Change c (.setHOTUpdated loc n) (c.modify loc (·.setHOTUpdated n))
  | putXMax (loc : PageSlot) (x : Nat) : Change c (.putXMax loc x) (c.modify loc (·.setXMax x))
  | clearXMax (loc : PageSlot) : Change c (.clearXMax loc) (c.modify loc (·.setXMax 0))

namespace Store
variable {k : TableKey} {st st' : Store} {c : Cmd} {r : c.Res}
theorem exec_cases (h : st.exec k c = some (r,st')) :
    (st'.table = st.table ∧ (c = .nextTxID ∨ st'.clock = st.clock)) ∨
    ∃ c0 c1, st.table k = some c0 ∧ c0.Change c c1 ∧ st'.table = (st.set k c1).table ∧ st'.clock = st.clock := by
  cases c with
  | nextTxID =>
    cases h
    exact .inl ⟨rfl,.inl rfl⟩
  | txClock | lockTable | relockTable | unlockTable | lockPage | unlockPage | unpinPage | unpinPageDirty
    | logInsert | logDelete | logCommit | syncCatalog =>
    cases h
    exact .inl ⟨rfl,.inr rfl⟩
  | getInfo | scanSlots | pageCount | freeSpace | getTuple =>
    obtain ⟨c,-,h⟩ := map_eq_some_iff.1 h
    cases h
    exact .inl ⟨rfl,.inr rfl⟩
  | setInfo f =>
    obtain ⟨c,htab,h⟩ := map_eq_some_iff.1 h
    cases h
    exact .inr ⟨c,_,htab,.setInfo f,rfl,rfl⟩
  | fetchPage pid =>
    obtain ⟨c,-,h⟩ := map_eq_some_iff.1 h
    split at h <;> cases h <;> exact .inl ⟨rfl,.inr rfl⟩
  | allocatePage =>
    obtain ⟨c,htab,h⟩ := map_eq_some_iff.1 h
    split at h
    · cases h
      exact .inr ⟨c,_,htab,.allocatePage ‹_›,rfl,rfl⟩
    · cases h
      exact .inl ⟨rfl,.inr rfl⟩
  | insertTuple pid t =>
    obtain ⟨c,htab,h⟩ := bind_eq_some_iff.1 h
    split at h
    · obtain ⟨p,hp,h⟩ := map_eq_some_iff.1 h
      split at h
      · next q slot hq =>
        cases h
        have hat : c.insertAt pid t = some (c.setPage pid q,⟨pid,slot⟩) := by simp [Contents.insertAt,hp,hq]
        exact .inr ⟨c,_,htab,.insertTuple hat,rfl,rfl⟩
      · cases h
        exact .inl ⟨rfl,.inr rfl⟩
    · cases h
  | setHOTUpdated loc n =>
    obtain ⟨c,htab,h⟩ := bind_eq_some_iff.1 h
    split at h
    · obtain ⟨p,hp,h⟩ := map_eq_some_iff.1 h
      cases h
      exact .inr ⟨c,_,htab,.setHOTUpdated loc n,by simp [Contents.modify,hp],rfl⟩
    · cases h
  | putXMax loc x =>
    obtain ⟨c,htab,h⟩ := map_eq_some_iff.1 h
    split at h
    · next p hp =>
      cases h
      exact .inr ⟨c,_,htab,.putXMax loc x,by simp [Contents.modify,hp],rfl⟩
    · cases h
      exact .inl ⟨rfl,.inr rfl⟩
  | clearXMax loc =>
    obtain ⟨c,htab,h⟩ := map_eq_some_iff.1 h
    split at h
    · next p hp =>
      cases h
      exact .inr ⟨c,_,htab,.clearXMax loc,by simp [Contents.modify,hp],rfl⟩
    · cases h
      exact .inl ⟨rfl,.inr rfl⟩

end Store
end VaultDB.Storage
