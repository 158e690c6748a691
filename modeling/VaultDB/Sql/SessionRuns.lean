import Mathlib.Logic.Function.Basic
import VaultDB.Sql.Sessions
import VaultDB.Sql.Joins
set_option autoImplicit false

/-!
Whole runs of sessions: one session, several that share the stored database, and one that is
taken from the pool a second time.
-/

namespace VaultDB.Sql
open List Function
section
variable {D Op : Type} (E : Engine D Op) {known : List (Question Op)} {d : D}
def Session.executeAll (σ : Session Op) (d : D) : List (SqlStatement Op) →
    List (Except String Response) × Session Op × D
  | [] => ([],σ,d)
  | st :: sts =>
    let r := σ.execute E d st
    let rest := r.2.1.executeAll r.2.2 sts
    (r.1 :: rest.1,rest.2)

def plainAll (v : SessionFields Op) (d : D) : List (SqlStatement Op) →
    List (Except String Response) × SessionFields Op × D
  | [] => ([],v,d)
  | st :: sts =>
    let o := plain E v d st
    let rest := plainAll o.fields o.database sts
    (o.response :: rest.1,rest.2)

def questionsAll (v : SessionFields Op) (d : D) : List (SqlStatement Op) → List (Question Op)
  | [] => []
  | st :: sts => questions E v d st++questionsAll (plain E v d st).fields (plain E v d st).database sts

def CacheSafeAll (known : List (Question Op)) (v : SessionFields Op) (d : D) : List (SqlStatement Op) → Prop
  | [] => True
  | st :: sts => CacheSafe E known v d st ∧
    CacheSafeAll (known++questions E v d st) (plain E v d st).fields (plain E v d st).database sts

variable {E}
theorem coherent_empty {cache : ResultCache} (h : cache.entries = []) : Coherent E known d cache := by
  intro e he
  rw [h] at he
  cases he

theorem CacheSafeAll.executeAll_eq {sts : List (SqlStatement Op)} {σ : Session Op}
    (hs : CacheSafeAll E known σ.fields d sts) (h : Coherent E known d σ.resultCache) :
    (σ.executeAll E d sts).1 = (plainAll E σ.fields d sts).1 ∧
      (σ.executeAll E d sts).2.1.fields = (plainAll E σ.fields d sts).2.1 ∧
      (σ.executeAll E d sts).2.2 = (plainAll E σ.fields d sts).2.2 ∧
      Coherent E (known++questionsAll E σ.fields d sts) (plainAll E σ.fields d sts).2.2
        (σ.executeAll E d sts).2.1.resultCache := by
  induction sts generalizing known σ d with
  | nil => exact ⟨rfl,rfl,rfl,h.more []⟩
  | cons st sts ih =>
    obtain ⟨hfirst,hrest⟩ := hs
    obtain ⟨hresp,hfields,hdb,hc⟩ := hfirst.execute_eq h
    rw [← hfields,← hdb] at hrest
    rw [← hdb] at hc
    have hrec := ih hrest hc
    simp only [Session.executeAll,plainAll,questionsAll,← hresp,← hfields,← hdb,← append_assoc]
    exact ⟨by rw [hrec.1],hrec.2⟩

theorem cacheSafe_of_single {v : SessionFields Op} {st : SqlStatement Op}
    (x0 : Question Op) (hq : ∀ x ∈ known++questions E v d st, x = x0)
    (hd : x0.2.tableName ∈ (plain E v d st).notified ∨ (plain E v d st).database = d) :
    CacheSafe E known v d st where
  keys x hx y hy _ := by rw [hq x (mem_append_right known hx),hq y hy]
  changes x hx hn := by
    rcases hd with hd | hd
    · rw [hq x hx] at hn
      exact absurd hd hn
    · rw [hd]

/-- The condition on the keys holds for SELECTs of named columns of one table by one user. -/
theorem cacheSafe_of_plain {v : SessionFields Op} {st : SqlStatement Op}
    (hq : ∀ x ∈ known++questions E v d st, x.1 = v ∧ ∃ table names,
      x.2 = plainSelect table names ∧ ∀ n ∈ v.currentDB :: table :: names, ':' ∉ n.toList)
    (hd : ∀ x ∈ known++questions E v d st, x.2.tableName ∉ (plain E v d st).notified →
      E.answer x (plain E v d st).database = E.answer x d) : CacheSafe E known v d st := by
  refine ⟨?_,hd⟩
  rintro ⟨_,_⟩ hx ⟨_,_⟩ hy hkey
  obtain ⟨rfl,table,names,rfl,hfree⟩ := hq _ (mem_append_right known hx)
  obtain ⟨rfl,table',names',rfl,hfree'⟩ := hq _ hy
  rw [plainSelect_of_key hfree' hfree hkey]

end

/-- Tables `a (x)` and `b (y)` of the database `app`; only the first letter of `x` is shown without
UNMASK; an operation adds a row. -/
def lettersContext (v : SessionFields (String × Row)) (d : String → List Row) : Context where
  ev := plainEvaluator
  storage := .ofTables [oneColumn "a" "x" (d "a"),oneColumn "b" "y" (d "b")]
  dbName := v.currentDB
  inTx := v.activeTx.isSome
  snapshotTxID := v.snapshotTxID
  maxRows := v.maxRows
  hasUnmask := v.token == "admin"
  maskingPolicy key := if key = "app.a.x" then some ⟨1,0,'*'⟩ else none

def lettersEngine : Engine (String → List Row) (String × Row) where
  toLower := id
  otherText _ := "E"
  refuses _ _ := none
  databaseExists _ name := name == "app"
  context := lettersContext
  query v d s := .done (executeSelect (lettersContext v d) s)
  kindOf _ := "INSERT"
  tableOf op := op.1
  change op _ d := .done (Function.update d op.1 (d op.1++[op.2]),.ok (.affected 1))
  freeze op _ _ := .ok op
  bindParams q _ := .ok q
  beginTx d := (1,d)
  commitTx _ _ ops d := (ops.foldl (fun d op => Function.update d op.1 (d op.1++[op.2])) d,
    .ok (.message "committed"),
    ops.map Prod.fst)
  rollbackTx _ _ d := d
  dropTx _ _ d := d
  noCache _ _ := rfl
  inTx _ _ := rfl
  dbName _ _ := rfl
  value_query _ _ _ := rfl
  honest_query _ _ _ := trivial
  honest_change _ _ _ := trivial

def letters (token : String) : Session (String × Row) :=
  ⟨{ currentDB := "app", token := token },{ maxSize := 256, pos := by decide }⟩

def selectAnn : SelectStatement where
  columns := [⟨.columnRef "" "x",""⟩]
  tableName := "a"
  where_ := some (.binary .eq (.columnRef "" "x") (.value (.text "ann")))

def selectAnnTwice : SelectStatement := { selectAnn with joins := [⟨.cross,"b","",none⟩] }
def onlyAnn (table : String) : List Row := if table = "a" then [[.text "ann"]] else []

def insertBob : SqlStatement (String × Row) := .query (.change ("a",[.text "bob"]))

theorem questions_select (s : SelectStatement) (d : String → List Row) :
    ∀ x ∈ questions lettersEngine (letters "admin").fields d (.query (.select s)), x =
    ((letters "admin").fields,s) := by
  intro x hx
  obtain ⟨t,ht,rfl⟩ := mem_map.1 hx
  have hasks : (statementOutcome lettersEngine (letters "admin").fields d (.query (.select s))).asks = [s] := rfl
  have ht := mem_of_mem_filter ht
  rw [hasks,mem_singleton] at ht
  rw [ht]

theorem questions_insertBob (d : String → List Row) :
    ∀ x ∈ questions lettersEngine (letters "admin").fields d insertBob, x =
    ((letters "admin").fields,selectAnn) := by
  have hnone : questions lettersEngine (letters "admin").fields d insertBob = [] := rfl
  simp [hnone]

/-- The second SELECT is answered from the cache, the one after the INSERT is not. -/
def annTwice : List (SqlStatement (String × Row)) :=
  [.query (.select selectAnn),.query (.select selectAnn),insertBob,.query (.select selectAnn)]

theorem cacheSafeAll_annTwice : CacheSafeAll lettersEngine [] (letters "admin").fields onlyAnn annTwice := by
  have hone := questions_select selectAnn onlyAnn
  have htwo := forall_mem_append.2 ⟨hone,hone⟩
  have hthree := forall_mem_append.2 ⟨htwo,questions_insertBob onlyAnn⟩
  exact ⟨cacheSafe_of_single _ hone (.inr rfl),cacheSafe_of_single _ htwo (.inr rfl),
    cacheSafe_of_single _ hthree (.inl (mem_singleton_self _)),
    cacheSafe_of_single _ (forall_mem_append.2 ⟨hthree,questions_select selectAnn _⟩) (.inr rfl),trivial⟩

section
variable {D Op ι : Type} [DecidableEq ι] (E : Engine D Op)
inductive Event (ι Op : Type) where
  | run (i : ι) (st : SqlStatement Op)
  | expire (i : ι) (old : String × CachedResult → Bool)

def serve (sessions : ι → Session Op) (d : D) : List (Event ι Op) → List (ι × Except String Response)
  | [] => []
  | .run i st :: es =>
    let r := (sessions i).execute E d st
    (i,r.1) :: serve (Function.update sessions i r.2.1) r.2.2 es
  | .expire i old :: es =>
    serve (Function.update sessions i { sessions i with resultCache := (sessions i).resultCache.drop old }) d es

/-- Every SELECT reads the stored database, with all that was changed before. -/
def plainServe (fields : ι → SessionFields Op) (d : D) : List (Event ι Op) → List (ι × Except String Response)
  | [] => []
  | .run i st :: es =>
    let o := plain E (fields i) d st
    (i,o.response) :: plainServe (Function.update fields i o.fields) o.database es
  | .expire _ _ :: es => plainServe fields d es

/-- Every statement meets the condition in its own session and leaves the answers alone that
the other sessions may have cached. -/
def ServeSafe (known : ι → List (Question Op)) (fields : ι → SessionFields Op) (d : D) : List (Event ι Op) → Prop
  | [] => True
  | .run i st :: es =>
    CacheSafe E (known i) (fields i) d st ∧
      (∀ j ≠ i, ∀ x ∈ known j, E.answer x (plain E (fields i) d st).database = E.answer x d) ∧
      ServeSafe (Function.update known i (known i++questions E (fields i) d st))
        (Function.update fields i (plain E (fields i) d st).fields) (plain E (fields i) d st).database es
  | .expire _ _ :: es => ServeSafe known fields d es

variable {E}
theorem ServeSafe.serve_eq {es : List (Event ι Op)} {known : ι → List (Question Op)}
    {sessions : ι → Session Op} {d : D} (hs : ServeSafe E known (fun i => (sessions i).fields) d es)
    (h : ∀ i, Coherent E (known i) d (sessions i).resultCache) :
    serve E sessions d es = plainServe E (fun i => (sessions i).fields) d es := by
  induction es generalizing known sessions d with
  | nil => rfl
  | cons e es ih =>
    cases e with
    | expire i old =>
      have hfields : (fun j => (update sessions i
          { sessions i with resultCache := (sessions i).resultCache.drop old } j).fields) = fun j => (sessions j).fields := by
        funext j
        by_cases hj : j = i
        · rw [hj,update_self]
        · rw [update_of_ne hj]
      rw [serve,plainServe,← hfields]
      refine @ih known _ d (by rw [hfields]; exact hs) fun j => ?_
      by_cases hj : j = i
      · rw [hj,update_self]
        exact Lru.All.drop (h i) fun _ _ hg _ => hg
      · rw [update_of_ne hj]
        exact h j
    | run i st =>
      obtain ⟨hown,hothers,hrest⟩ := hs
      obtain ⟨hresp,hfields,hdb,hc⟩ := hown.execute_eq (h i)
      have hupdate : (fun j => (update sessions i ((sessions i).execute E d st).2.1 j).fields) =
          update (fun j => (sessions j).fields) i (plain E (sessions i).fields d st).fields := by
        funext j
        by_cases hj : j = i
        · rw [hj,update_self,update_self,hfields]
        · rw [update_of_ne hj,update_of_ne hj]
      rw [serve,plainServe,hresp,← hupdate,← hdb]
      rw [← hupdate,← hdb] at hrest
      refine congrArg _ (ih hrest fun j => ?_)
      by_cases hj : j = i
      · rw [hj,update_self,update_self,hdb]
        exact hc
      · rw [update_of_ne hj,update_of_ne hj,hdb]
        exact (h j).unchanged (hothers j hj)

def selectBob : SelectStatement :=
  { selectAnn with where_ := some (.binary .eq (.columnRef "" "x") (.value (.text "bob"))) }

end

section
variable {D Op : Type} (E : Engine D Op)
/-- `Session.Reset` on the fields.  `SetMaxRows(0)` does nothing, and the variables stay. -/
def SessionFields.reset (v : SessionFields Op) : SessionFields Op :=
  { v with activeTx := none, currentDB := "", snapshotTxID := 0, token := "", role := "", preparedStatements := [] }

def endTx (v : SessionFields Op) (d : D) : D :=
  match v.activeTx with
  | some (txID,ops) => E.dropTx txID ops d
  | none => d

def Session.reset (σ : Session Op) (d : D) : Session Op × D :=
  ({ σ with fields := σ.fields.reset },endTx E σ.fields d)

structure Login where
  token : String
  role : String
  database : String

def Session.login (σ : Session Op) (l : Login) : Session Op :=
  { σ with fields := { σ.fields with token := l.token, role := l.role, currentDB := l.database } }

def newSession (maxRows maxSize : Nat) (pos : 0 < maxSize) : Session Op :=
  ⟨{ maxRows := maxRows },{ maxSize := maxSize, pos := pos }⟩

variable {E}
theorem limits_plain (v : SessionFields Op) (d : D) (st : SqlStatement Op) :
    (plain E v d st).fields.maxRows = v.maxRows ∧ (plain E v d st).fields.maxPreparedStmts = v.maxPreparedStmts := by
  have hquery : ∀ q, (queryOutcome E v d q).value.fields.maxRows = v.maxRows ∧
      (queryOutcome E v d q).value.fields.maxPreparedStmts = v.maxPreparedStmts := by
    intro q
    cases q with
    | select s =>
      simp only [queryOutcome]
      split <;> exact ⟨rfl,rfl⟩
    | change op =>
      simp only [queryOutcome]
      cases v.activeTx with
      | none =>
        simp only [Work.value_map]
        exact ⟨trivial,trivial⟩
      | some tx =>
        simp only []
        cases E.freeze op v d <;> exact ⟨rfl,rfl⟩
  unfold plain statementOutcome
  cases E.refuses v st with
  | some e => exact ⟨rfl,rfl⟩
  | none =>
    cases st with
    | query q => exact hquery q
    | execute name params =>
      simp only []
      cases v.preparedStatements.lookup name with
      | none => exact ⟨rfl,rfl⟩
      | some q =>
        simp only []
        cases E.bindParams q params with
        | error e => exact ⟨rfl,rfl⟩
        | ok q => exact hquery q
    | useDatabase name | prepare name q =>
      simp only []
      split <;> exact ⟨rfl,rfl⟩
    | setVariable name value => exact ⟨rfl,rfl⟩
    | deallocate name => exact ⟨rfl,rfl⟩
    | begin | commit | rollback =>
      simp only []
      cases v.activeTx <;> exact ⟨rfl,rfl⟩

theorem limits_plainAll (v : SessionFields Op) (d : D) (sts : List (SqlStatement Op)) :
    (plainAll E v d sts).2.1.maxRows = v.maxRows ∧ (plainAll E v d sts).2.1.maxPreparedStmts =
    v.maxPreparedStmts := by
  induction sts generalizing v d with
  | nil => exact ⟨rfl,rfl⟩
  | cons st sts ih =>
    have hstep := @limits_plain D Op E v d st
    have hrest := ih (plain E v d st).fields (plain E v d st).database
    exact ⟨hrest.1.trans hstep.1,hrest.2.trans hstep.2⟩

theorem questions_mono {known known' : List (Question Op)} {v : SessionFields Op} {d : D}
    {sts : List (SqlStatement Op)}
    (hsub : ∀ x ∈ known', x ∈ known) (hs : CacheSafeAll E known v d sts) : CacheSafeAll E known' v d sts := by
  induction sts generalizing known known' v d with
  | nil => trivial
  | cons st sts ih =>
    have happ : ∀ x ∈ known'++questions E v d st, x ∈ known++questions E v d st := by
      intro x hx
      rcases mem_append.1 hx with hx | hx
      · exact mem_append_left _ (hsub x hx)
      · exact mem_append_right known hx
    exact ⟨⟨fun x hx y hy => hs.1.keys x hx y (happ y hy),fun x hx => hs.1.changes x (happ x hx)⟩,ih happ hs.2⟩

variable (E)
structure ReuseSafe (first : SessionFields Op) (d : D) (history : List (SqlStatement Op)) (second : SessionFields Op)
    (sts : List (SqlStatement Op)) : Prop where
  before : CacheSafeAll E [] first d history
  sessionVariables : (plainAll E first d history).2.1.sessionVariables = first.sessionVariables
  rolledBack : ∀ x ∈ questionsAll E first d history,
    E.answer x (endTx E (plainAll E first d history).2.1 (plainAll E first d history).2.2) =
      E.answer x (plainAll E first d history).2.2
  after : CacheSafeAll E (questionsAll E first d history) second
    (endTx E (plainAll E first d history).2.1 (plainAll E first d history).2.2) sts

variable {E}
def guest : Login := ⟨"guest","reader","app"⟩
def admin : Login := ⟨"admin","admin","app"⟩

end
end VaultDB.Sql
