import Mathlib.Logic.Basic
set_option autoImplicit false

/-!
Tokens and their revocation, after `auth/manager.go`, for an enabled manager with a data directory.

The keyed hash and the grants of the roles are parameters.
-/

namespace VaultDB.Server.Tokens

structure Roles where
  enabled : Bool
  roleOf : String → Option String
  grants : String → List String

def rolePermissions : List (String × List String) :=
  [("admin",["*"]),("writer",["SELECT","INSERT","UPDATE","DELETE","CREATE TABLE","DROP TABLE",
    "CREATE INDEX","DROP INDEX",
      "COPY FROM","COPY TO","CREATE VIEW","DROP VIEW","CREATE TRIGGER","DROP TRIGGER","ALTER TABLE","TRUNCATE",
      "MERGE"]),
   ("reader",["SELECT","EXPLAIN"])]

def equalFold (a b : String) : Bool := a.toUpper == b.toUpper

def Roles.getTokenRole (m : Roles) (token : String) : String :=
  if m.enabled then (m.roleOf token).getD "" else "admin"

def Roles.checkPermission (m : Roles) (token operation : String) : Bool :=
  let role := m.getTokenRole token
  !m.enabled || (m.grants role).any (fun p => p == "ALL" || equalFold p operation) ||
    match rolePermissions.lookup role with
    | none => false
    | some perms => perms.any fun p => p == "*" || equalFold p operation

structure TokenInfo where
  hash : String
  role : String

structure Manager where
  secret : String
  tokens : String → Option TokenInfo := fun _ => none
  revoked : String → Option Int := fun _ => none
  static : String → Bool := fun _ => false
  file : String → Option Int := fun _ => none

variable (hmac : String → String → String)
namespace Manager

def hashToken (m : Manager) (token : String) : String := hmac m.secret token

def register (hash role : String) (m : Manager) : Manager :=
  { m with tokens := fun h => if h = hash then some ⟨hash,role⟩ else m.tokens h }

def markStatic (hash : String) (m : Manager) : Manager := { m with static := fun h => h = hash || m.static h }
def saveRevoked (m : Manager) : Manager := { m with file := m.revoked }

def loadRevoked (m : Manager) : Manager :=
  { m with
    revoked := fun h => (m.file h).or (m.revoked h)
    tokens := fun h => if (m.file h).isSome then none else m.tokens h }

def new (secret : String) (tokens : List String) (file : String → Option Int) : Manager :=
  tokens.foldr (fun token m => (m.markStatic (hmac secret token)).register (hmac secret token) "admin")
    { secret := secret, file := file }

def addToken (token role : String) (m : Manager) : Manager :=
  (m.markStatic (m.hashToken hmac token)).register (m.hashToken hmac token) (if role = "" then "admin" else role)

def generateToken (token role : String) (m : Manager) : Manager :=
  m.register (m.hashToken hmac token) (if role = "" then "admin" else role)

def revokeToken (now : Int) (token : String) (m : Manager) : Manager :=
  let hash := m.hashToken hmac token
  saveRevoked { m with
    revoked := fun h => if h = hash then some now else m.revoked h
    tokens := fun h => if h = hash then none else m.tokens h }

/-- Times are in seconds. -/
def purgeExpiredRevokedTokens (now : Int) (m : Manager) : Manager :=
  let stale := fun h revokedAt => !m.static h && (m.tokens h).isNone && decide (24*60*60 < now-revokedAt)
  saveRevoked { m with revoked := fun h => (m.revoked h).filter fun revokedAt => !stale h revokedAt }

def restart (secret : String) (tokens : List String) (m : Manager) : Manager :=
  (new hmac secret tokens m.file).loadRevoked

def lookupValid (m : Manager) (token : String) : Option TokenInfo :=
  (m.tokens (m.hashToken hmac token)).filter fun info => (m.revoked info.hash).isNone

def validateToken (m : Manager) (token : String) : Bool := token != "" && (m.lookupValid hmac token).isSome

def roles (grants : String → List String) (m : Manager) : Roles where
  enabled := true
  roleOf token := (m.tokens (m.hashToken hmac token)).map TokenInfo.role
  grants := grants

def checkPermission (grants : String → List String) (m : Manager) (token operation : String) : Bool :=
  (m.roles hmac grants).checkPermission token operation

end Manager

inductive Step where
  | addToken (token role : String)
  | generateToken (token role : String)
  | revokeToken (now : Int) (token : String)
  | purge (now : Int)
  | restart (secret : String) (tokens : List String)

def Step.run (m : Manager) : Step → Manager
  | .addToken token role => m.addToken hmac token role
  | .generateToken token role => m.generateToken hmac token role
  | .revokeToken now token => m.revokeToken hmac now token
  | .purge now => m.purgeExpiredRevokedTokens now
  | .restart secret tokens => m.restart hmac secret tokens

def runAll (steps : List Step) (m : Manager) : Manager := steps.foldl (Step.run hmac) m

/-- The token is not registered again, except by a restart that finds its entry in the file. -/
def Step.Careful (token : String) (m : Manager) : Step → Prop
  | .addToken token' _ | .generateToken token' _ => m.hashToken hmac token' ≠ m.hashToken hmac token
  | .restart secret tokens => hmac secret token ∈ tokens.map (hmac secret) → m.file (hmac secret token) ≠ none
  | _ => True

def CarefulRun (token : String) : List Step → Manager → Prop
  | [], _ => True
  | a :: steps, m => a.Careful hmac token m ∧ CarefulRun token steps (a.run hmac m)

section
variable {hmac} {m : Manager} {token : String}
theorem new_tokens {secret : String} {tokens : List String} {file : String → Option Int} {h : String}
    (hh : h ∉ tokens.map (hmac secret)) : (Manager.new hmac secret tokens file).tokens h = none := by
  induction tokens with
  | nil => rfl
  | cons token tokens ih =>
    rw [List.map_cons,List.mem_cons,not_or] at hh
    exact (if_neg hh.1).trans (ih hh.2)

theorem new_secret_file (hmac : String → String → String) (secret : String) (tokens : List String)
    (file : String → Option Int) :
    (Manager.new hmac secret tokens file).secret = secret ∧ (Manager.new hmac secret tokens file).file = file := by
  induction tokens with
  | nil => exact ⟨rfl,rfl⟩
  | cons token tokens ih => exact ih

theorem Step.Careful.unregistered {a : Step} (ha : a.Careful hmac token m)
    (h : m.tokens (m.hashToken hmac token) = none) :
    (a.run hmac m).tokens ((a.run hmac m).hashToken hmac token) = none := by
  cases a with
  | addToken token' role => exact (if_neg (Ne.symm ha)).trans h
  | generateToken token' role => exact (if_neg (Ne.symm ha)).trans h
  | revokeToken now token' =>
    by_cases heq : m.hashToken hmac token = m.hashToken hmac token'
    · exact if_pos heq
    · exact (if_neg heq).trans h
  | purge now => exact h
  | restart secret tokens =>
    have hfile := new_secret_file hmac secret tokens m.file
    simp only [Step.run,Manager.restart,Manager.loadRevoked,Manager.hashToken,hfile]
    split
    · rfl
    · next hnone => exact new_tokens fun hmem => ha hmem (by simpa using hnone)

theorem unregistered_runAll {steps : List Step} (hrun : CarefulRun hmac token steps m)
    (h : m.tokens (m.hashToken hmac token) = none) :
    (runAll hmac steps m).tokens ((runAll hmac steps m).hashToken hmac token) = none := by
  induction steps generalizing m with
  | nil => exact h
  | cons a steps ih => exact ih hrun.2 (hrun.1.unregistered h)

/-- A token of the configuration with its entry in the table and in the file. -/
structure Entered (hmac : String → String → String) (token : String) (m : Manager) : Prop where
  static : m.static (m.hashToken hmac token) = true
  revoked : m.revoked (m.hashToken hmac token) ≠ none
  file : m.file (m.hashToken hmac token) ≠ none

/-- No call registers the token, and the server is started with this secret and this token. -/
def Step.OneSecret (hmac : String → String → String) (secret token : String) : Step → Prop
  | .addToken token' _ | .generateToken token' _ => hmac secret token' ≠ hmac secret token
  | .restart secret' tokens => secret' = secret ∧ token ∈ tokens
  | _ => True

theorem entered_revokeToken (now : Int) (h : m.static (m.hashToken hmac token) = true) :
    Entered hmac token (m.revokeToken hmac now token) :=
  ⟨h,by simp [Manager.revokeToken,Manager.saveRevoked,Manager.hashToken],
    by simp [Manager.revokeToken,Manager.saveRevoked,Manager.hashToken]⟩

theorem new_static {secret : String} {tokens : List String} {file : String → Option Int} (h : token ∈ tokens) :
    (Manager.new hmac secret tokens file).static (hmac secret token) = true := by
  induction tokens with
  | nil => cases h
  | cons token' tokens ih =>
    rcases List.mem_cons.1 h with rfl | h
    · simp [Manager.new,Manager.markStatic,Manager.register]
    · exact Bool.or_eq_true_iff.2 (.inr (ih h))

/-- The purge spares the entries of the configuration's tokens, so that the next save has them. -/
theorem Entered.run {a : Step} (h : Entered hmac token m) (ha : a.OneSecret hmac m.secret token) :
    Entered hmac token (a.run hmac m) ∧ (a.run hmac m).secret = m.secret := by
  have hrevoked := h.revoked
  unfold Manager.hashToken at hrevoked
  cases a with
  | addToken token' role => exact ⟨⟨by simp [Step.run,Manager.addToken,Manager.register,Manager.markStatic,
      Manager.hashToken,show m.static (hmac m.secret token) = true from h.static],h.revoked,h.file⟩,rfl⟩
  | generateToken token' role => exact ⟨⟨h.static,h.revoked,h.file⟩,rfl⟩
  | revokeToken now token' =>
    have hentry : (if hmac m.secret token = hmac m.secret token' then some now else m.revoked
      (hmac m.secret token)) ≠
        none := by
      split
      · simp
      · exact hrevoked
    exact ⟨⟨h.static,hentry,hentry⟩,rfl⟩
  | purge now =>
    obtain ⟨at',hat⟩ := Option.ne_none_iff_exists'.1 hrevoked
    have hstatic : m.static (hmac m.secret token) = true := h.static
    have hentry : ((m.purgeExpiredRevokedTokens now).revoked (hmac m.secret token)) ≠ none := by
      simp [Manager.purgeExpiredRevokedTokens,Manager.saveRevoked,hat,hstatic]
    exact ⟨⟨h.static,hentry,hentry⟩,rfl⟩
  | restart secret tokens =>
    obtain ⟨rfl,hmem⟩ := ha
    obtain ⟨hsecret,hfile⟩ := new_secret_file hmac m.secret tokens m.file
    have hentry : m.file (hmac m.secret token) ≠ none := h.file
    have hhash : (m.restart hmac m.secret tokens).hashToken hmac token = hmac m.secret token :=
      congrArg (hmac · token) hsecret
    refine ⟨⟨?_,?_,?_⟩,hsecret⟩ <;> simp only [Step.run,hhash]
    · exact new_static hmem
    · simpa [Manager.restart,Manager.loadRevoked,hfile] using fun h => absurd h hentry
    · simpa [Manager.restart,Manager.loadRevoked,hfile] using hentry

/-- With one secret a restart finds the entry that `RevokeToken` has saved. -/
theorem Entered.carefulRun {steps : List Step} (h : Entered hmac token m)
    (hsteps : ∀ a ∈ steps, a.OneSecret hmac m.secret token) : CarefulRun hmac token steps m := by
  induction steps generalizing m with
  | nil => trivial
  | cons a steps ih =>
    obtain ⟨ha,hsteps⟩ := List.forall_mem_cons.1 hsteps
    obtain ⟨hnext,hsecret⟩ := h.run ha
    refine ⟨?_,ih hnext (by rw [hsecret]; exact hsteps)⟩
    cases a with
    | addToken | generateToken => exact ha
    | revokeToken | purge => trivial
    | restart secret tokens =>
      obtain ⟨rfl,-⟩ := ha
      exact fun _ => h.file

theorem revoked_is_rejected (now : Int) {steps : List Step}
    (hrun : CarefulRun hmac token steps (m.revokeToken hmac now token))
    {grants : String → List String} (hgrants : grants "" = []) :
    (runAll hmac steps (m.revokeToken hmac now token)).validateToken hmac token = false ∧
      ∀ op, (runAll hmac steps (m.revokeToken hmac now token)).checkPermission hmac grants token op = false := by
  have hnone := unregistered_runAll hrun (if_pos rfl)
  generalize runAll hmac steps _ = m' at hnone ⊢
  refine ⟨by simp [Manager.validateToken,Manager.lookupValid,hnone],fun op => ?_⟩
  simp [Manager.checkPermission,Roles.checkPermission,Roles.getTokenRole,Manager.roles,hnone,
    hgrants,rolePermissions,List.lookup_cons]
end

def plain (_ token : String) : String := token
def oneToken : Manager := ({ secret := "k" } : Manager).addToken plain "t" ""

/-- A token of the configuration is registered again after the restart. -/
theorem revoked_is_registered_again :
    (runAll plain [.restart "k" [], .addToken "t" ""]
      (oneToken.revokeToken plain 0 "t")).checkPermission plain (fun _ => [])
      "t" "DROP TABLE" = true := by
  decide

theorem revoked_is_rejected_restart :
    (runAll plain [.purge 100000, .restart "k" ["t"]]
      (oneToken.revokeToken plain 0 "t")).validateToken plain "t" = false ∧
      ∀ op, (runAll plain [.purge 100000, .restart "k" ["t"]]
        (oneToken.revokeToken plain 0 "t")).checkPermission plain
        (fun _ => []) "t" op = false :=
  have hcareful : CarefulRun plain "t" [.purge 100000,.restart "k" ["t"]] (oneToken.revokeToken plain 0 "t") :=
    (entered_revokeToken 0 (by decide)).carefulRun (by simp [Step.OneSecret]; rfl)
  revoked_is_rejected 0 hcareful rfl

end VaultDB.Server.Tokens
