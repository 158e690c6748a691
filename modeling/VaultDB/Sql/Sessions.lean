import VaultDB.Sql.ResultCache
set_option autoImplicit false

/-!
Sessions over one stored database.

A statement sees the fields of its session, the stored database and, through its SELECTs, the
session's result cache. The `Engine` says what the storage does; that a statement notifies the table
it names, and only on success, is the code's.
-/

namespace VaultDB.Sql
open List

inductive Query (Op : Type) where
  | select (s : SelectStatement)
  | change (op : Op)

/-- The fields of a session but its result cache.  The plan cache is written and never read, and the
user is set by no statement. -/
structure SessionFields (Op : Type) where
  currentDB : String := ""
  activeTx : Option (Nat × List Op) := none
  snapshotTxID : Nat := 0
  token : String := ""
  role : String := ""
  preparedStatements : List (String × Query Op) := []
  maxPreparedStmts : Nat := 1000
  sessionVariables : List (String × String) := [("synchronous_commit","on")]
  maxRows : Nat := 0

inductive SqlStatement (Op : Type) where
  | query (q : Query Op)
  | useDatabase (name : String)
  | setVariable (name value : String)
  | prepare (name : String) (q : Query Op)
  | execute (name : String) (params : List Value)
  | deallocate (name : String)
  | begin
  | commit
  | rollback

inductive Response where
  | rows (result : Result)
  | affected (n : Nat)
  | message (text : String)
  deriving DecidableEq

/-- How a statement ends: the answer, the session, the stored database, and the tables that
`notifyMutation` was called for. -/
structure Outcome (D Op : Type) where
  response : Except String Response
  fields : SessionFields Op
  database : D
  notified : List String := []

structure Engine (D Op : Type) where
  /-- Names in lower case, and the nodes of expressions only the evaluator knows. -/
  toLower : String → String
  otherText : Nat → String
  refuses : SessionFields Op → SqlStatement Op → Option String
  databaseExists : D → String → Bool
  context : SessionFields Op → D → Context
  query : SessionFields Op → D → SelectStatement → Work Answer
  kindOf : Op → String
  tableOf : Op → String
  change : Op → SessionFields Op → D → Work (D × Except String Response)
  freeze : Op → SessionFields Op → D → Except String Op
  bindParams : Query Op → List Value → Except String (Query Op)
  beginTx : D → Nat × D
  commitTx : SessionFields Op → Nat → List Op → D → D × Except String Response × List String
  /-- `Transaction.Rollback`, in ROLLBACK with the release of the row locks. -/
  rollbackTx : Nat → List Op → D → D
  dropTx : Nat → List Op → D → D
  noCache : ∀ v d, (context v d).resultCache = fun _ => none
  inTx : ∀ v d, (context v d).inTx = v.activeTx.isSome
  dbName : ∀ v d, (context v d).dbName = v.currentDB
  value_query : ∀ v d s, (query v d s).value = executeSelect (context v d) s
  honest_query : ∀ v d s, (query v d s).Honest (context v d)
  /-- The SELECTs of a statement that changes rows read the database before it; triggers that run a
  SELECT are left out. -/
  honest_change : ∀ op v d, (change op v d).Honest (context v d)

namespace Work

def map {β γ : Type} (f : β → γ) : Work β → Work γ
  | .done b => .done (f b)
  | .ask s inner k => .ask s inner fun a => (k a).map f

theorem value_map {β γ : Type} (f : β → γ) : ∀ w : Work β, (w.map f).value = f w.value
  | .done _ => rfl
  | .ask _ inner k => (k inner.value).value_map f

theorem honest_map {β γ : Type} {ctx : Context} (f : β → γ) : ∀ {w : Work β}, w.Honest ctx → (w.map f).Honest ctx
  | .done _, _ => trivial
  | .ask _ _ _, h => ⟨h.1,h.2.1,fun a => honest_map f (h.2.2 a)⟩

end Work

section
variable {D Op : Type} (E : Engine D Op)
def SessionFields.noDatabase (v : SessionFields Op) : Bool := v.currentDB.toList.all Char.isWhitespace
def noActiveDatabase : String := "no active database selected; use USE <database>; first"

def queryOutcome (v : SessionFields Op) (d : D) : Query Op → Work (Outcome D Op)
  | .select s =>
    if v.noDatabase then .done ⟨.error noActiveDatabase,v,d,[]⟩
    else .ask s (E.query v d s) fun a => .done ⟨a.map .rows,v,d,[]⟩
  | .change op =>
    match v.activeTx with
    | some (txID,ops) =>
      match E.freeze op v d with
      | .ok frozen =>
        .done ⟨.ok (.message ("Buffered "++E.kindOf op++" (tx "++toString txID++"). Not committed yet.")),
          { v with activeTx := some (txID,ops++[frozen]) },d,[]⟩
      | .error e => .done ⟨.error e,v,d,[]⟩
    | none => (E.change op v d).map fun r => ⟨r.2,v,r.1,if r.2.isOk then [E.tableOf op] else []⟩

def setEntry {α : Type} (name : String) (a : α) (entries : List (String × α)) : List (String × α) :=
  (name,a) :: entries.filter fun e => e.1 ≠ name

def statementOutcome (v : SessionFields Op) (d : D) (st : SqlStatement Op) : Work (Outcome D Op) :=
  match E.refuses v st with
  | some e => .done ⟨.error e,v,d,[]⟩
  | none =>
    match st with
    | .query q => queryOutcome E v d q
    | .useDatabase name =>
      if E.databaseExists d name then .done ⟨.ok (.message ("Using database '"++name++"'.")),
        { v with currentDB := name },d,[]⟩
      else .done ⟨.error ("database '"++name++"' does not exist"),v,d,[]⟩
    | .setVariable name value =>
      .done ⟨.ok (.message ("SET "++E.toLower name++" = "++E.toLower value)),
        { v with sessionVariables := setEntry (E.toLower name) (E.toLower value) v.sessionVariables },d,[]⟩
    | .prepare name q =>
      if (v.preparedStatements.lookup name).isNone && v.maxPreparedStmts ≤ v.preparedStatements.length then
        .done ⟨.error ("too many prepared statements (max "++toString v.maxPreparedStmts++")"),v,d,[]⟩
      else .done ⟨.ok (.message ("Statement '"++name++"' prepared.")),
        { v with preparedStatements := setEntry name q v.preparedStatements },d,[]⟩
    | .execute name params =>
      match v.preparedStatements.lookup name with
      | none => .done ⟨.error ("prepared statement '"++name++"' not found"),v,d,[]⟩
      | some q =>
        match E.bindParams q params with
        | .error e => .done ⟨.error e,v,d,[]⟩
        | .ok q => queryOutcome E v d q
    | .deallocate name =>
      .done ⟨.ok (.message ("Statement '"++name++"' deallocated.")),
        { v with preparedStatements := v.preparedStatements.filter fun e => e.1 ≠ name },d,[]⟩
    | .begin =>
      match v.activeTx with
      | some _ => .done ⟨.error "transaction already active; COMMIT or ROLLBACK first",v,d,[]⟩
      | none =>
        let started := E.beginTx d
        .done ⟨.ok (.message ("Transaction "++toString started.1++" started.")),
          { v with activeTx := some (started.1,[]) },started.2,[]⟩
    | .commit =>
      match v.activeTx with
      | none => .done ⟨.error "no active transaction",v,d,[]⟩
      | some (txID,ops) =>
        let ended := E.commitTx v txID ops d
        .done ⟨ended.2.1,{ v with activeTx := none },ended.1,ended.2.2⟩
    | .rollback =>
      match v.activeTx with
      | none => .done ⟨.error "no active transaction",v,d,[]⟩
      | some (txID,ops) =>
        .done ⟨.ok (.message ("Transaction rolled back ("++toString ops.length++" operations discarded).")),
          { v with activeTx := none },E.rollbackTx txID ops d,[]⟩

structure Session (Op : Type) where
  fields : SessionFields Op
  resultCache : ResultCache

def Session.execute (σ : Session Op) (d : D) (st : SqlStatement Op) : Except String Response × Session Op × D :=
  let r := (statementOutcome E σ.fields d st).run E.otherText (E.context σ.fields d) σ.resultCache
  (r.1.response,⟨r.1.fields,r.1.notified.foldl ResultCache.invalidate r.2⟩,r.1.database)

def plain (v : SessionFields Op) (d : D) (st : SqlStatement Op) : Outcome D Op := (statementOutcome E v d st).value

variable {E}
theorem honest_queryOutcome (v : SessionFields Op) (d : D) (q : Query Op) :
    (queryOutcome E v d q).Honest (E.context v d) := by
  cases q with
  | select s =>
    simp only [queryOutcome]
    split
    · trivial
    · exact ⟨E.value_query v d s,E.honest_query v d s,fun _ => trivial⟩
  | change op =>
    simp only [queryOutcome]
    cases v.activeTx with
    | none => exact Work.honest_map _ (E.honest_change op v d)
    | some tx =>
      simp only []
      cases E.freeze op v d <;> trivial

theorem honest_statementOutcome (v : SessionFields Op) (d : D) (st : SqlStatement Op) :
    (statementOutcome E v d st).Honest (E.context v d) := by
  unfold statementOutcome
  cases E.refuses v st with
  | some e => trivial
  | none =>
    cases st with
    | query q => exact honest_queryOutcome v d q
    | execute name params =>
      simp only []
      cases v.preparedStatements.lookup name with
      | none => trivial
      | some q =>
        simp only []
        cases E.bindParams q params with
        | error e => trivial
        | ok q => exact honest_queryOutcome v d q
    | useDatabase name =>
      simp only []
      split <;> trivial
    | prepare name q =>
      simp only []
      split <;> trivial
    | setVariable name value => trivial
    | deallocate name => trivial
    | begin | commit | rollback =>
      simp only []
      cases v.activeTx <;> trivial
end

section
variable {D Op : Type} (E : Engine D Op) {tables : List String}
abbrev Question (Op : Type) := SessionFields Op × SelectStatement
def Engine.key (x : Question Op) : String := resultCacheKey E.otherText x.2 x.1.currentDB
def Engine.answer (x : Question Op) (d : D) : Answer := executeSelect (E.context x.1 d) x.2

def questions (v : SessionFields Op) (d : D) (st : SqlStatement Op) : List (Question Op) :=
  ((statementOutcome E v d st).asks.filter (consulted (E.context v d))).map fun s => (v,s)

def Engine.askedAmong (known : List (Question Op)) (d : D) (f : Asked) : Prop :=
  ∃ x ∈ known, f = ⟨E.key x,x.2.tableName,E.answer x d⟩

def Coherent (known : List (Question Op)) (d : D) (cache : ResultCache) : Prop :=
  cache.All (Grounded (E.askedAmong known d))

/-- Cached SELECTs with one key have one answer, and an answer the statement changes is that of a
SELECT on a table it notifies. -/
structure CacheSafe (known : List (Question Op)) (v : SessionFields Op) (d : D) (st : SqlStatement Op) : Prop where
  keys : ∀ x ∈ questions E v d st, ∀ y ∈ known++questions E v d st, E.key y = E.key x → E.answer y d = E.answer x d
  changes : ∀ x ∈ known++questions E v d st, x.2.tableName ∉ (plain E v d st).notified →
    E.answer x (plain E v d st).database = E.answer x d

variable {E} {known : List (Question Op)} {d d' : D} {cache : ResultCache}
theorem Coherent.more (h : Coherent E known d cache) (new : List (Question Op)) :
    Coherent E (known++new) d cache := by
  refine Lru.All.mono h fun k v hg => ?_
  obtain ⟨f,⟨x,hx,hf⟩,hrest⟩ := hg
  exact ⟨f,⟨x,mem_append_left new hx,hf⟩,hrest⟩

theorem Coherent.unchanged (h : Coherent E known d cache) (hd : ∀ x ∈ known, E.answer x d' = E.answer x d) :
    Coherent E known d' cache := by
  refine Lru.All.mono h fun k v hg => ?_
  obtain ⟨f,⟨x,hx,rfl⟩,hkey,htab,hans⟩ := hg
  exact ⟨⟨E.key x,x.2.tableName,E.answer x d'⟩,⟨x,hx,rfl⟩,hkey,htab,(hd x hx).trans hans⟩

theorem mem_invalidate {e : String × CachedResult} : e ∈ (tables.foldl ResultCache.invalidate cache).entries ↔
      e ∈ cache.entries ∧ ∀ t ∈ tables, e.2.tables.contains t = false := by
  induction tables generalizing cache with
  | nil => simp
  | cons t tables ih =>
    rw [foldl_cons,ih]
    simp only [ResultCache.invalidate,Lru.drop,mem_filter,Bool.not_eq_true',forall_mem_cons]
    constructor
    · intro h
      exact ⟨h.1.1,h.1.2,h.2⟩
    · intro h
      exact ⟨⟨h.1,h.2.1⟩,h.2.2⟩

theorem Coherent.notified (h : Coherent E known d cache)
    (hd : ∀ x ∈ known, x.2.tableName ∉ tables → E.answer x d' = E.answer x d) :
    Coherent E known d' (tables.foldl ResultCache.invalidate cache) := by
  intro e he
  obtain ⟨hmem,hkept⟩ := mem_invalidate.1 he
  obtain ⟨f,⟨x,hx,rfl⟩,hkey,htab,hans⟩ := h e hmem
  have htable : x.2.tableName ∉ tables := by
    intro ht
    have hdropped := hkept _ ht
    rw [htab] at hdropped
    simp at hdropped
  exact ⟨⟨E.key x,x.2.tableName,E.answer x d'⟩,⟨x,hx,rfl⟩,hkey,htab,(hd x hx htable).trans hans⟩

theorem CacheSafe.execute_eq {σ : Session Op} {st : SqlStatement Op} (hs : CacheSafe E known σ.fields d st)
    (h : Coherent E known d σ.resultCache) : (σ.execute E d st).1 = (plain E σ.fields d st).response ∧
      (σ.execute E d st).2.1.fields = (plain E σ.fields d st).fields ∧
      (σ.execute E d st).2.2 = (plain E σ.fields d st).database ∧
      Coherent E (known++questions E σ.fields d st)
      (plain E σ.fields d st).database (σ.execute E d st).2.1.resultCache := by
  have hasked : ∀ s ∈ (statementOutcome E σ.fields d st).asks, consulted (E.context σ.fields d) s = true →
      E.askedAmong (known++questions E σ.fields d st) d (askedOf E.otherText (E.context σ.fields d) s) ∧
      ∀ f, E.askedAmong (known++questions E σ.fields d st) d f →
        f.key = resultCacheKey E.otherText s (E.context σ.fields d).dbName →
          f.answer = executeSelect (E.context σ.fields d) s := by
    intro s hs' hc
    have hmem : (σ.fields,s) ∈ questions E σ.fields d st := mem_map.2 ⟨s,mem_filter.2 ⟨hs',hc⟩,rfl⟩
    have hkey : resultCacheKey E.otherText s (E.context σ.fields d).dbName = E.key (σ.fields,s) := by
      rw [E.dbName]
      rfl
    constructor
    · exact ⟨(σ.fields,s),mem_append_right known hmem,by rw [askedOf,hkey]; rfl⟩
    · rintro f ⟨y,hy,rfl⟩ hfk
      rw [hkey] at hfk
      exact hs.keys _ hmem y hy hfk
  obtain ⟨hval,hall⟩ := (statementOutcome E σ.fields d st).run_eq (honest_statementOutcome σ.fields d st) hasked
    (h.more (questions E σ.fields d st))
  simp only [Session.execute,hval]
  exact ⟨rfl,rfl,rfl,Coherent.notified hall hs.changes⟩
end
end VaultDB.Sql
