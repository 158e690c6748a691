import VaultDB.Storage.Rows
set_option autoImplicit false

/-!
What the row statements do to the contents of a table when they run alone.
-/

namespace VaultDB.Storage
open Lib Stmt Exec List Option Contents
variable {loc : PageSlot}
namespace Contents

def setInfo (c : Contents) (f : TableInfo → TableInfo) : Contents := { c with info := f c.info }

variable (c : Contents)
section
variable (f : TableInfo → TableInfo)
include f
@[simp] theorem info_setInfo : (c.setInfo f).info = f c.info := rfl
@[simp] theorem pages_setInfo : (c.setInfo f).pages = c.pages := rfl
@[simp] theorem slots_setInfo : (c.setInfo f).slots = c.slots := rfl
end

@[simp] theorem setInfo_setInfo (f g : TableInfo → TableInfo) : (c.setInfo f).setInfo g =
    c.setInfo fun i => g (f i) := rfl

end Contents

variable {E : String → Store → Prop} {c' : Contents} {t : Tuple}
namespace Store

def put (st : Store) (k : TableKey) (c : Contents) (pin : Option PageID) : Store := { st.set k c with pin := pin }

section
variable (st : Store) (k : TableKey) (c c' : Contents) (p p' : Option PageID)
@[simp] theorem table_put (k' : TableKey) : (st.put k c p).table k' = if k' = k then some c else st.table k' := rfl
@[simp] theorem pin_put : (st.put k c p).pin = p := rfl

@[simp] theorem put_put : (st.put k c p).put k c' p' = st.put k c' p' := by
  simp only [put,set,mk.injEq,and_true]
  funext k'
  split <;> rfl

@[simp] theorem set_put : (st.put k c p).set k c' = st.put k c' p := put_put st k c c' p p

theorem put_self {st : Store} {k : TableKey} {c : Contents} (h : st.table k = some c) (hp : st.pin = none) :
    st.put k c none = st := by
  cases st with
  | mk table clock pin =>
    cases hp
    simp only [put,set,mk.injEq,and_true]
    funext k'
    split
    · rename_i hk
      rw [hk]
      exact h.symm
    · rfl
end

abbrev Yields {α : Type} (k : TableKey) (st : Store) (x : Exec α) (Q : α → Store → Prop)
    (E : String → Store → Prop) : Prop := Stmt.Yields (Store.exec k) st x Q E

section
variable {st : Store} {k : TableKey} {c : Contents} {p : Option PageID} {β : Type} {Q : β → Store → Prop}
  {E : String → Store → Prop} {pid : PageID} {x : Nat}
theorem exec_getInfo : (st.put k c p).exec k .getInfo = some (c.info,st.put k c p) := by simp [exec]

theorem exec_setInfo (f : TableInfo → TableInfo) :
    (st.put k c p).exec k (.setInfo f) = some ((),st.put k (c.setInfo f) p) := by simp [exec,setInfo]

theorem exec_scanSlots : (st.put k c p).exec k .scanSlots = some (c.scanSlots,st.put k c p) := by simp [exec]
theorem exec_pageCount : (st.put k c p).exec k .pageCount = some (c.pageCount,st.put k c p) := by simp [exec]

theorem exec_getTuple (loc : PageSlot) : (st.put k c p).exec k (.getTuple loc) =
    some ((c.page loc.pid).map fun q => q.getTuple loc.slot,st.put k c p) := by simp [exec]

theorem exec_fetchPage (h : (c.page pid).isSome) :
    (st.put k c p).exec k (.fetchPage pid) = some (true,st.put k c (some pid)) := by
  simp only [exec,table_put,if_true,map_some,if_pos h]
  rfl

theorem exec_fetchPage_none (h : c.page pid = none) :
    (st.put k c p).exec k (.fetchPage pid) = some (false,st.put k c p) := by simp [exec,h]

theorem exec_freeSpace (pid : PageID) : (st.put k c p).exec k (.freeSpace pid) =
    some (((c.page pid).getD Page.init).freeSpace,st.put k c p) := by simp [exec]

theorem exec_allocatePage (h : c.pages.length < maxPages) : (st.put k c p).exec k .allocatePage =
    some (some (pageIDAt c.pages.length),st.put k (c.addPage h) (some (pageIDAt c.pages.length))) := by
  simp only [exec,table_put,if_true,map_some,dif_pos h,set_put]
  rfl

theorem exec_allocatePage_none (h : ¬ c.pages.length < maxPages) :
    (st.put k c p).exec k .allocatePage = some (none,st.put k c p) := by simp [exec,h]

theorem exec_insertTuple (h : c.insertAt pid t = some (c',loc)) :
    (st.put k c (some pid)).exec k (.insertTuple pid t) =
      some (some loc.slot,st.put k c' (some pid)) := by
  obtain ⟨q,hq,h⟩ := bind_eq_some_iff.1 h
  obtain ⟨x,hi,h⟩ := map_eq_some_iff.1 h
  obtain ⟨rfl,rfl⟩ := Prod.mk.inj h
  simp [exec,hq,hi]

theorem exec_insertTuple_none (hp : (c.page pid).isSome) (h : c.insertAt pid t = none) :
    (st.put k c (some pid)).exec k (.insertTuple pid t) = some (none,st.put k c (some pid)) := by
  obtain ⟨q,hq⟩ := isSome_iff_exists.1 hp
  simp only [insertAt,hq,bind_some,map_eq_none_iff] at h
  simp [exec,hq,h]

theorem exec_setHOTUpdated {n : Nat} (hp : (c.page loc.pid).isSome) :
    (st.put k c (some loc.pid)).exec k (.setHOTUpdated loc n) =
      some ((),st.put k (c.modify loc (·.setHOTUpdated n)) (some loc.pid)) := by
  obtain ⟨q,hq⟩ := isSome_iff_exists.1 hp
  simp [exec,hq,Contents.modify]

theorem exec_unpinPage (pid : PageID) (d : Bool) : (st.put k c p).exec k (.unpinPage pid d) =
    some ((),st.put k c none) := rfl

theorem exec_unpinPageDirty (pid : PageID) (lsn : Nat) :
    (st.put k c p).exec k (.unpinPageDirty pid lsn) = some ((),st.put k c none) := rfl

theorem exec_putXMax (hp : (c.page loc.pid).isSome) :
    (st.put k c p).exec k (.putXMax loc x) = some (true,st.put k (c.modify loc (·.setXMax x)) p) := by
  obtain ⟨q,hq⟩ := isSome_iff_exists.1 hp
  simp [exec,hq,Contents.modify]

theorem exec_putXMax_none (hp : c.page loc.pid = none) :
    (st.put k c p).exec k (.putXMax loc x) = some (false,st.put k c p) := by simp [exec,hp]
end

theorem yields_unlockOnError {α : Type} {st : Store} {k : TableKey} {x : Exec α} {Q : α → Store → Prop}
    (h : Yields k st x Q E) : Yields k st (unlockOnError x) Q E :=
  yields_onError (h.mono (fun _ _ hq => hq) fun _ _ he => he)

theorem yields_orThrow {α : Type} {st : Store} {k : TableKey} {x : Except String α} {Q : α → Store → Prop}
    (hok : ∀ a, x = .ok a → Q a st) (herr : ∀ e, x = .error e → E e st) : Yields k st (orThrow x) Q E := by
  cases x with
  | ok a => exact hok a rfl
  | error e => exact herr e rfl

end Store

def Tuple.Fits (t : Tuple) : Prop := t.length ≤ maxTupleLength ∧ t.length+itemPointerSize ≤ Page.init.freeSpace

theorem Page.fits_of_insertTuple {p : Page} {y : Page × Nat} (h : p.insertTuple t = some y) : t.Fits := by
  unfold Page.insertTuple at h
  split at h
  · next hlen =>
    refine ⟨hlen.1,Nat.le_trans hlen.2 ?_⟩
    have htop := p.top
    simp only [Page.freeSpace,Page.lower,Page.nItems,Page.init,length_nil]
    omega
  · cases h

theorem Page.insertTuple_init : Page.init.insertTuple t = none ↔ ¬t.Fits := by simp [Page.insertTuple,Tuple.Fits]

theorem Contents.fits_of_insertAt {c : Contents} {pid : PageID} (h : c.insertAt pid t = some (c',loc)) : t.Fits := by
  obtain ⟨p,-,h⟩ := bind_eq_some_iff.1 h
  obtain ⟨y,hy,-⟩ := map_eq_some_iff.1 h
  exact Page.fits_of_insertTuple hy

inductive PlaceError (pages : Nat) (t : Tuple) : String → Prop where
  | full : maxPages ≤ pages → PlaceError pages t "allocate page"
  | large : ¬t.Fits → PlaceError pages t (tooLarge t.length)

section
open Store
variable {st : Store} {k : TableKey} {c : Contents} {x : Nat} {g : PageSlot → TableInfo → TableInfo}
  {onLogged : PageSlot → Exec Unit} {full : Bool} {pid : PageID} {t : Tuple} {ts : List Tuple}
def Notes (k : TableKey) (onLogged : PageSlot → Exec Unit) (g : PageSlot → TableInfo → TableInfo) : Prop :=
  ∀ (st : Store) (c : Contents) (p : Option PageID) (loc : PageSlot) (Q : Unit → Store → Prop) (E :
    String → Store → Prop),
    Q () (st.put k (c.setInfo (g loc)) p) → Store.Yields k (st.put k c p) (onLogged loc) Q E

theorem notes_pure : Notes k (fun _ => pure ()) fun _ => id := fun _ _ _ _ _ _ h => h

theorem notes_setInfo (g : PageSlot → TableInfo → TableInfo) : Notes k (fun loc => Exec.cmd (.setInfo (g loc))) g :=
  fun _ _ _ loc _ _ h => (yields_cmd (exec_setInfo (g loc))).2 h

theorem yields_insertLogged (hl : Notes k onLogged g) (hp : (c.page pid).isSome) :
    Yields k (st.put k c (some pid)) (insertLogged x onLogged full pid t)
      (fun loc st' => match loc with
        | some loc => ∃ c', c.insertAt pid t = some (c',loc) ∧ st' = st.put k (c'.setInfo (g loc)) none
        | none => c.insertAt pid t = none ∧ st' = st.put k c none) fun _ _ => False := by
  cases hi : c.insertAt pid t with
  | none =>
    refine (yields_step (exec_insertTuple_none hp hi)).2 ?_
    exact ⟨rfl,rfl⟩
  | some y =>
    obtain ⟨c',loc⟩ := y
    have hpid : loc = ⟨pid,loc.slot⟩ := by
      obtain ⟨-,-,-,-,hpid,-⟩ := slots_insertAt hi
      rw [← hpid]
    refine (yields_step (exec_insertTuple hi)).2 ?_
    refine (yields_step rfl).2 (yields_bind.2 (hl _ _ _ _ _ _ ?_))
    refine (yields_step (exec_unpinPageDirty pid _)).2 ((yields_step rfl).2 ?_)
    rw [← hpid]
    exact ⟨c',rfl,rfl⟩

structure Added (c c' : Contents) (g : PageSlot → TableInfo → TableInfo) (loc : PageSlot) (t : Tuple) : Prop where
  slots : c'.slots = c.slots++[(loc,t)]
  info : c'.info = g loc c.info

structure Untouched (c c' : Contents) : Prop where
  slots : c'.slots = c.slots
  info : c'.info = c.info

theorem Contents.index_lt {y : PageSlot × Tuple} (h : y ∈ c.slots) : pageIndex y.1.pid < c.pages.length := by
  obtain ⟨p,hp,-⟩ := bind_eq_some_iff.1 (mem_slots_iff.1 h)
  exact (List.getElem?_eq_some_iff.1 (page_lt hp).2).1

theorem Added.of_insertAt (h : c.insertAt (pageIDAt (c.pages.length-1)) t = some (c',loc)) :
    Added c (c'.setInfo (g loc)) g loc t ∧ c'.pages.length = c.pages.length := by
  obtain ⟨a,b,hs,hs',-,-,hb⟩ := slots_insertAt h
  obtain ⟨hinfo,hlen⟩ := info_insertAt h
  have hfew := c.few
  have hnil : b = [] := by
    refine eq_nil_iff_forall_not_mem.2 fun y hy => ?_
    have hlt := c.index_lt (y := y) (by rw [hs]; exact mem_append_right _ hy)
    have hgt := hb y hy
    rw [pageIndex_pageIDAt (by omega)] at hgt
    omega
  refine ⟨⟨?_,by simp [hinfo]⟩,hlen⟩
  rw [slots_setInfo,hs',hs,hnil,append_nil]

theorem yields_placeFresh (hl : Notes k onLogged g) (p : Option PageID) : Yields k (st.put k c p)
    (placeFresh x onLogged full t)
      (fun loc st' => ∃ c', st' = st.put k c' none ∧ Added c c' g loc t ∧ c'.pages.length =
        c.pages.length+1 ∧ t.Fits)
      fun e st' => ∃ c' p', st' = st.put k c' p' ∧ Untouched c c' ∧ PlaceError c.pages.length t e := by
  by_cases hn : c.pages.length < maxPages
  · have hpage : ((c.addPage hn).page (pageIDAt c.pages.length)).isSome := by simp [page_addPage hn]
    refine (yields_step (exec_allocatePage hn)).2 ((yields_step rfl).2 (yields_bind.2 ?_))
    refine (yields_insertLogged hl hpage).mono (fun loc st' hq => ?_) fun _ _ he => he.elim
    cases loc with
    | none =>
      have hlarge : ¬t.Fits := by
        rw [← Page.insertTuple_init]
        have := hq.1
        simpa [insertAt,page_addPage hn] using this
      exact ⟨_,_,hq.2,⟨slots_addPage hn,rfl⟩,.large hlarge⟩
    | some loc =>
      obtain ⟨c',hi,rfl⟩ := hq
      have hlast : (c.addPage hn).pages.length-1 = c.pages.length := by simp [addPage]
      obtain ⟨hadd,hlen⟩ := Added.of_insertAt (g := g) (hlast.symm ▸ hi)
      refine ⟨_,rfl,⟨?_,hadd.info⟩,?_,fits_of_insertAt hi⟩
      · rw [hadd.slots,slots_addPage]
      · simpa [addPage] using hlen
  · refine (yields_step (exec_allocatePage_none hn)).2 ?_
    exact ⟨c,p,rfl,⟨rfl,rfl⟩,.full (Nat.not_lt.1 hn)⟩

def HeldLast (c : Contents) (held : Option PageID) : Prop :=
  ∀ pid, held = some pid → 0 < c.pages.length ∧ pid = pageIDAt (c.pages.length-1)

variable {held : Option PageID}
theorem yields_place (hl : Notes k onLogged g) (hh : HeldLast c held) :
    Yields k (st.put k c held) (place x onLogged full held t)
      (fun placed st' => ∃ c', st' = st.put k c' none ∧ Added c c' g placed.1 t ∧
        c'.pages.length = (c.pages.length+if placed.2 = true then 1 else 0) ∧ t.Fits)
      fun e st' => ∃ c' p', st' = st.put k c' p' ∧ Untouched c c' ∧ PlaceError c.pages.length t e := by
  have hfresh : ∀ p, Yields k (st.put k c p) (do
      let loc ← placeFresh x onLogged full t
      pure (loc,true)) (fun placed st' => ∃ c', st' = st.put k c' none ∧ Added c c' g placed.1 t ∧
        c'.pages.length = (c.pages.length+if placed.2 = true then 1 else 0) ∧ t.Fits)
      fun e st' => ∃ c' p', st' = st.put k c' p' ∧ Untouched c c' ∧ PlaceError c.pages.length t e := by
    intro p
    refine (yields_placeFresh hl p).bind fun loc st' hq => ?_
    obtain ⟨c',rfl,hadd,hlen⟩ := hq
    exact ⟨c',rfl,hadd,hlen⟩
  cases held with
  | none => exact hfresh none
  | some pid =>
    obtain ⟨hpos,rfl⟩ := hh pid rfl
    have hfew := c.few
    have hpage : (c.page (pageIDAt (c.pages.length-1))).isSome := by
      rw [c.page_pageIDAt (by omega),getElem?_eq_getElem (by omega)]
      rfl
    refine yields_bind.2 ((yields_insertLogged hl hpage).mono (fun loc st' hq => ?_) fun _ _ he => he.elim)
    cases loc with
    | none =>
      obtain ⟨-,rfl⟩ := hq
      exact hfresh none
    | some loc =>
      obtain ⟨c',hi,rfl⟩ := hq
      obtain ⟨hadd,hlen⟩ := Added.of_insertAt (g := g) hi
      exact ⟨_,rfl,hadd,by simpa using hlen,fits_of_insertAt hi⟩

theorem yields_holdLastPage : Yields k (st.put k c none) (holdLastPage c.pages.length)
      (fun held st' => HeldLast c held ∧ st' = st.put k c held) E := by
  unfold holdLastPage
  by_cases hn : c.pages.length = 0
  · rw [if_pos hn]
    exact ⟨fun _ h => (by cases h),rfl⟩
  · have hfew := c.few
    have hpage : (c.page (pageIDAt (c.pages.length-1))).isSome := by
      rw [c.page_pageIDAt (by omega),getElem?_eq_getElem (by omega)]
      rfl
    rw [if_neg hn]
    refine (yields_step rfl).2 ((yields_step (exec_fetchPage hpage)).2 ?_)
    refine ⟨?_,rfl⟩
    rintro pid ⟨⟩
    exact ⟨by omega,rfl⟩

structure Stored (g : List PageSlot → TableInfo → TableInfo) (c c' : Contents)
    (locs : List PageSlot) (ts : List Tuple) : Prop where
  slots : c'.slots = c.slots++locs.zip ts
  info : c'.info = g locs c.info
  few : c'.pages.length ≤ c.pages.length+locs.length
  fits : ∀ t ∈ ts.take locs.length, t.Fits

structure Stopped (g : List PageSlot → TableInfo → TableInfo) (c c' : Contents)
    (locs : List PageSlot) (ts : List Tuple) (e : String) : Prop where
  slots : c'.slots = c.slots++locs.zip ts
  info : c'.info = g locs c.info
  fits : ∀ t ∈ ts.take locs.length, t.Fits
  next : ∃ t pages, ts[locs.length]? = some t ∧ pages ≤ c.pages.length+locs.length ∧ PlaceError pages t e

section
variable {g : List PageSlot → TableInfo → TableInfo} {g₁ : PageSlot → TableInfo → TableInfo} {c₁ c' : Contents}
  {locs : List PageSlot} (hadd : Added c c₁ g₁ loc t) (hinfo : g locs c₁.info = g (loc :: locs) c.info)
  (hgrow : c₁.pages.length ≤ c.pages.length+1) (hfits : t.Fits)
include hadd hinfo hgrow hfits
theorem Stored.cons (hs : Stored g c₁ c' locs ts) : Stored g c c' (loc :: locs) (t :: ts) := by
  refine ⟨by simp [hs.slots,hadd.slots],hs.info.trans hinfo,?_,by simpa [hfits] using hs.fits⟩
  have := hs.few
  rw [length_cons]
  omega

theorem Stopped.cons {e : String} (hs : Stopped g c₁ c' locs ts e) : Stopped g c c' (loc :: locs) (t :: ts) e := by
  obtain ⟨t',pages,ht',hpages,hreason⟩ := hs.next
  refine ⟨by simp [hs.slots,hadd.slots],hs.info.trans hinfo,by simpa [hfits] using hs.fits,t',pages,
    by simpa using ht',?_,hreason⟩
  rw [length_cons]
  omega
end

def notePositions (locs : List PageSlot) (info : TableInfo) : TableInfo :=
  { info with posDirectory := info.posDirectory.map (·++locs) }

theorem yields_insertTuples : Yields k (st.put k c none) (insertTuples x ts c.pages.length)
    (fun _ st' => ∃ c' locs, st' = st.put k c' none ∧ locs.length = ts.length ∧ Stored notePositions c c' locs ts)
    fun e st' => ∃ c' locs p, st' = st.put k c' p ∧ Stopped notePositions c c' locs ts e := by
  induction ts generalizing c with
  | nil => exact ⟨c,[],rfl,rfl,by simp,by cases c; simp [notePositions],by simp,by simp⟩
  | cons t ts ih =>
    refine yields_holdLastPage.bind fun held st' hq => ?_
    obtain ⟨hheld,rfl⟩ := hq
    refine yields_bind.2 ((yields_place (notes_setInfo _) hheld).mono (fun placed st' hq => ?_) fun e st' he => ?_)
    · obtain ⟨c₁,rfl,hadd,hlen,hfits⟩ := hq
      have hcount : (if placed.2 = true then c.pages.length+1 else c.pages.length) = c₁.pages.length := by
        rw [hlen]
        split <;> rfl
      have hgrow : c₁.pages.length ≤ c.pages.length+1 := by
        rw [hlen]
        split <;> omega
      have hinfo : ∀ locs, notePositions locs c₁.info = notePositions (placed.1 :: locs) c.info := by
        intro locs
        rw [hadd.info]
        simp [notePositions,Function.comp_def]
      rw [hcount]
      refine ih.mono (fun _ st' hq => ?_) fun e st' he => ?_
      · obtain ⟨c',locs,rfl,hlocs,hs⟩ := hq
        exact ⟨c',placed.1 :: locs,rfl,by simp [hlocs],hs.cons hadd (hinfo locs) hgrow hfits⟩
      · obtain ⟨c',locs,p,rfl,hs⟩ := he
        exact ⟨c',placed.1 :: locs,p,rfl,hs.cons hadd (hinfo locs) hgrow hfits⟩
    · obtain ⟨c',p',rfl,hu,hreason⟩ := he
      refine ⟨c',[],p',rfl,by simpa using hu.slots,?_,by simp,t,c.pages.length,rfl,by simp,hreason⟩
      rw [hu.info]
      cases c.info
      simp [notePositions]

theorem yields_appendTuples (hh : HeldLast c held) : Yields k (st.put k c held) (appendTuples x held ts)
    (fun locs st' => ∃ c', st' = st.put k c' none ∧ locs.length = ts.length ∧ Stored (fun _ => id) c c' locs ts)
    fun e st' => ∃ c' locs p, st' = st.put k c' p ∧ Stopped (fun _ => id) c c' locs ts e := by
  induction ts generalizing c held with
  | nil =>
    have hnil : Stored (fun _ => id) c c [] [] := ⟨by simp,rfl,by simp,by simp⟩
    cases held with
    | none => exact ⟨c,rfl,rfl,hnil⟩
    | some pid =>
      refine (yields_step rfl).2 ((yields_step (exec_unpinPage pid true)).2 ?_)
      exact ⟨c,rfl,rfl,hnil⟩
  | cons t ts ih =>
    rw [appendTuples_cons]
    refine yields_bind.2 ((yields_place notes_pure hh).mono (fun placed st' hq => ?_) fun e st' he => ?_)
    · obtain ⟨c₁,rfl,hadd,hlen,hfits⟩ := hq
      have hgrow : c₁.pages.length ≤ c.pages.length+1 := by
        rw [hlen]
        split <;> omega
      refine yields_bind.2 ((@ih c₁ none fun _ h => by cases h).mono (fun locs st' hq => ?_) fun _ st' he => ?_)
      · obtain ⟨c',rfl,hlocs,hs⟩ := hq
        exact ⟨c',rfl,by simp [hlocs],hs.cons hadd hadd.info hgrow hfits⟩
      · obtain ⟨c',locs,p,rfl,hs⟩ := he
        exact ⟨c',placed.1 :: locs,p,rfl,hs.cons hadd hadd.info hgrow hfits⟩
    · obtain ⟨c',p',rfl,hu,hreason⟩ := he
      exact ⟨c',[],p',rfl,by simpa using hu.slots,hu.info,by simp,t,c.pages.length,rfl,by simp,hreason⟩

theorem yields_appendTuplesLocked : Yields k (st.put k c none) (appendTuplesLocked x ts)
    (fun locs st' => ∃ c', st' = st.put k c' none ∧ locs.length = ts.length ∧ Stored (fun _ => id) c c' locs ts)
    fun e st' => (e = "page count" ∧ c.pageCount = none ∧ st' = st.put k c none) ∨
      ∃ c' locs p, st' = st.put k c' p ∧ Stopped (fun _ => id) c c' locs ts e := by
  refine (yields_step exec_pageCount).2 ?_
  cases hn : c.pageCount with
  | none => exact .inl ⟨rfl,rfl,rfl⟩
  | some n =>
    unfold pageCount at hn
    split at hn
    · cases hn
    · cases hn
      refine yields_holdLastPage.bind fun held st' hq => ?_
      obtain ⟨hheld,rfl⟩ := hq
      exact (yields_appendTuples hheld).mono (fun _ _ hq => hq) fun _ _ he => .inr he
end
end VaultDB.Storage
