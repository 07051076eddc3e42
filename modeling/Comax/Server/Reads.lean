import Comax.Secret.Isolation
import Comax.Secret.Laws
import Comax.Server.Router

/-!
# The reads of secrets

The list of an environment's secrets, the read of one secret, and the diff of two
environments, each a lookup of the names in the path followed by calls of the
resolver. Their answers depend on the project in the path alone.
-/

namespace Comax.Server

open Comax.Core Comax.Store Comax.Secret

/-- `secretView` -/
structure SecretView where
  /-- `secret_id` -/
  secretID : Int
  /-- `key` -/
  key : Str
  /-- `value` -/
  value : Str
  /-- `version` -/
  version : Int
  /-- `updated_at` -/
  updatedAt : Int
  deriving DecidableEq

/-- `envDiffChanged` -/
structure EnvDiffChanged where
  /-- `key` -/
  key : Str
  /-- `lhs_version` -/
  lhsVersion : Int
  /-- `rhs_version` -/
  rhsVersion : Int
  deriving DecidableEq

/-- `envDiff` -/
structure EnvDiff where
  /-- `lhs` -/
  lhs : Str
  /-- `rhs` -/
  rhs : Str
  /-- `added` -/
  added : List Str
  /-- `removed` -/
  removed : List Str
  /-- `changed` -/
  changed : List EnvDiffChanged
  deriving DecidableEq

/-- The text of an error that wraps a `CycleError` or `ErrUnknownReference`. -/
def badReference (srv : Server) : ResolveError → Option Str
  | .cycle kind path =>
    let kind := match kind with
      | .inheritance => ascii "inheritance"
      | .reference => ascii "reference"
    some (kind ++ ascii " cycle: " ++ (ascii " -> ").intercalate path)
  | .unknownReference => some (ascii "secret: unknown reference target")
  | .unknownEnv name =>
    some (ascii "env " ++ srv.quote name ++ ascii ": secret: unknown reference target")
  | .inheritsFrom env parent cause => (badReference srv cause).map fun text =>
    ascii "env " ++ srv.quote env ++ ascii " inherits_from " ++ srv.quote parent ++ ascii ": " ++
      text
  | .reference envName keyName cause => (badReference srv cause).map fun text =>
    ascii "reference $\x7b\x7b " ++ envName ++ ascii "." ++ keyName ++ ascii " \x7d\x7d: " ++ text
  | .loadMasterKey | .loadEnv _ | .decrypt _ _ => none

/-- `resolverErrorToHTTP` -/
def resolverErrorToHTTP (srv : Server) : Fault → Response
  | .error e =>
    match srv.badReference e with
    | some msg => writeError 400 (ascii "bad_reference") msg
    | none => internal "resolve failed"
  | .outOfFuel => internal "resolve failed"

/-- A server that reads secrets: with its resolver, and the outcome of every lookup. -/
structure Reader where
  /-- The server. -/
  srv : Server
  /-- `s.resolver` -/
  resolver : Resolver
  /-- What the clock reads at a lookup, and whether the lookup fails. -/
  moment : Moment

namespace Reader

variable (rd : Reader)

/-- The lookups of the handlers above, in one state of the database. -/
def resolveEnv (p e : Str) (db : Database) : Except Response (Project × Environment) :=
  ((rd.srv.resolveEnv p e).alone rd.moment db).1

/-- A name that the handler checks itself. -/
def validateName (field : String) (value : Str) : Except Response Unit :=
  (rd.srv.validateName field value).mapError httpError

/-- `s.resolver.Resolve`, with its errors as responses. -/
def resolve (order : MapOrder) (projectID envID : Int) (db : Database) :
    Except Response Snapshot :=
  (rd.resolver.resolve db order projectID envID).mapError rd.srv.resolverErrorToHTTP

/-- `handleListSecrets` -/
def handleListSecrets (order : MapOrder) (p e : Str) (db : Database) :
    Except Response (List SecretView) := do
  let (project, env) ← rd.resolveEnv p e db
  let snap ← rd.resolve order project.id env.id db
  let views := snap.entries.map fun sec =>
    ⟨sec.2.secretID, sec.1, sec.2.value, sec.2.version, sec.2.updatedAt⟩
  return views.insertionSort fun a b => a.key ≤ b.key

/-- `handleGetSecret` -/
def handleGetSecret (order : MapOrder) (p e k : Str) (db : Database) :
    Except Response SecretView := do
  let (project, env) ← rd.resolveEnv p e db
  rd.validateName "key" k
  let snap ← rd.resolve order project.id env.id db
  match snap.lookup k with
  | none => throw (storeError .notFound)
  | some sec => return ⟨sec.secretID, k, sec.value, sec.version, sec.updatedAt⟩

/-- The keys of one snapshot that the other lacks, sorted. -/
def onlyIn (snap other : Snapshot) : List Str :=
  (snap.keys.filter fun k => (other.lookup k).isNone).insertionSort (· ≤ ·)

/-- The keys of both snapshots whose values differ, sorted. -/
def changed (lhsSnap rhsSnap : Snapshot) : List EnvDiffChanged :=
  (lhsSnap.entries.filterMap fun lhs => (rhsSnap.lookup lhs.1).bind fun rhs =>
    if rhs.value ≠ lhs.2.value then
      some ⟨lhs.1, lhs.2.version, rhs.version⟩
    else none).insertionSort fun a b => a.key ≤ b.key

/-- `handleDiffEnvs`, with the orders of its two calls of the resolver -/
def handleDiffEnvs (order order' : MapOrder) (p e against : Str) (db : Database) :
    Except Response EnvDiff := do
  let (project, env) ← rd.resolveEnv p e db
  rd.validateName "against" against
  if against = env.name then throw (badRequest (ascii "against env must differ from path env"))
  let env2 ← ((autocommitOr storeError (Tx.read fun _ => EnvRepo.byName project.id against) :
    Handler Environment).alone rd.moment db).1
  let lhsSnap ← rd.resolve order project.id env.id db
  let rhsSnap ← rd.resolve order' project.id env2.id db
  return ⟨env.name, env2.name, onlyIn lhsSnap rhsSnap, onlyIn rhsSnap lhsSnap,
    changed lhsSnap rhsSnap⟩

/-- The outcome of one lookup. -/
def find {α : Type} (f : Database → Except StoreError α) (db : Database) : Except Response α :=
  if rd.moment.fails 0 then .error (storeError .other) else (f db).mapError storeError

/-- A lookup on its own. -/
theorem alone_find {α : Type} (f : Database → Except StoreError α) (db : Database) :
    (autocommitOr storeError (Tx.read fun _ => f) : Handler α).alone rd.moment db =
      (rd.find f db, db) := by
  cases hfail : rd.moment.fails 0 with
  | false =>
    rw [alone_lookup hfail, find, hfail]
    rfl
  | true =>
    have hsingle : (autocommit (Tx.read fun _ => f) : Handler (Except StoreError α)).alone
        rd.moment db = (.ok (.error .other), db) := by
      rw [autocommit, Prog.alone_act, single, Tx.attempt]
      simp [hfail]
    rw [autocommitOr, Prog.alone_bind hsingle, find, hfail]
    rfl

/-- The lookups of the path, one after the other. -/
theorem resolveEnv_eq (p e : Str) (db : Database) : rd.resolveEnv p e db = do
    rd.validateName "project" p
    let project ← rd.find (ProjectRepo.byName p) db
    rd.validateName "env" e
    let env ← rd.find (EnvRepo.byName project.id e) db
    return (project, env) := by
  have hcheck : ∀ field value, (check (rd.srv.validateName field value)).alone rd.moment db =
      (rd.validateName field value, db) := fun field value => Prog.alone_lift _ _ _
  have hproject : (rd.srv.resolveProject p).alone rd.moment db = (do
      rd.validateName "project" p
      rd.find (ProjectRepo.byName p) db, db) := by
    rw [Server.resolveProject]
    cases hname : rd.validateName "project" p with
    | error r => exact Prog.alone_bind_error ((hcheck "project" p).trans (by rw [hname])) _
    | ok _ =>
      rw [Prog.alone_bind ((hcheck "project" p).trans (by rw [hname])), rd.alone_find]
      rfl
  rw [resolveEnv, Server.resolveEnv, Prog.alone_bind_fst hproject, bind_assoc]
  refine bind_congr fun _ => bind_congr fun project => ?_
  rw [Prog.alone_bind_fst (hcheck "env" e)]
  refine bind_congr fun _ => ?_
  rw [Prog.alone_bind_fst (rd.alone_find _ db)]
  rfl

/-- What comes after a step matters for its values only. -/
theorem bind_congr_ok {α β : Type} {m : Except Response α} {f f' : α → Except Response β}
    (h : ∀ a, m = .ok a → f a = f' a) : m >>= f = m >>= f' := by
  cases m with
  | error r => rfl
  | ok a => exact h a rfl

/-- A lookup that has found something. -/
theorem find_eq_ok {α : Type} {f : Database → Except StoreError α} {db : Database} {a : α}
    (h : rd.find f db = .ok a) : f db = .ok a := by
  rw [find] at h
  split at h
  · cases h
  · cases hf : f db with
    | error e =>
      rw [hf] at h
      cases h
    | ok b =>
      rw [hf] at h
      cases h
      rfl

/-- An environment that was found belongs to the project. -/
theorem find_env {rd : Reader} {p : Project} {db : Database} {name : Str} {env : Environment}
    (hfind : rd.find (EnvRepo.byName p.id name) db = .ok env) : InProject p db env.id := by
  obtain ⟨hmem, hrow⟩ := Table.of_find?_eq_some (found_eq_ok.mp (rd.find_eq_ok hfind))
  simp only [Bool.and_eq_true, decide_eq_true_eq] at hrow
  exact ⟨env, hmem, hrow.1, rfl⟩

section

variable {rd} {p : Project} {db db' : Database} (h : SameProject p db db')
include h

/-- The project in the path is the one that both databases agree on. -/
theorem find_project {project : Project}
    (hfind : rd.find (ProjectRepo.byName p.name) db = .ok project) : project = p := by
  obtain ⟨hmem, hname⟩ := Table.of_find?_eq_some (found_eq_ok.mp (rd.find_eq_ok hfind))
  have hname : project.name = p.name := of_decide_eq_true hname
  exact db.projects.eq_of_clash hmem h.project.1 (by simp [Row.key, Row.clash, hname])
    (by simp [Row.key, Row.clash, hname])

/-- Environments are looked up alike. -/
theorem find_env_eq (name : Str) :
    rd.find (EnvRepo.byName p.id name) db' = rd.find (EnvRepo.byName p.id name) db := by
  rw [find, find, h.byName]

/-- What the path names is found alike, and inside the project. -/
theorem resolveEnv_bind {β : Type} (e : Str) {f f' : Project × Environment → Except Response β}
    (hf : ∀ env, InProject p db env.id → f' (p, env) = f (p, env)) :
    (rd.resolveEnv p.name e db' >>= f') = (rd.resolveEnv p.name e db >>= f) := by
  have hproject : rd.find (ProjectRepo.byName p.name) db' =
      rd.find (ProjectRepo.byName p.name) db := by
    rw [find, find, h.projectByName]
  simp only [resolveEnv_eq, bind_assoc, pure_bind, hproject]
  refine bind_congr fun _ => bind_congr_ok fun project hp => bind_congr fun _ => ?_
  obtain rfl := find_project h hp
  rw [find_env_eq h]
  exact bind_congr_ok fun env henv => hf env (find_env henv)

/-- Its environments resolve alike. -/
theorem resolve_eq (order : MapOrder) {id : Int} (hin : InProject p db id) :
    rd.resolve order p.id id db' = rd.resolve order p.id id db := by
  rw [resolve, resolve, Resolver.resolve_sameProject _ h order hin]

/-- The list of secrets is the same. -/
theorem handleListSecrets_eq (order : MapOrder) (e : Str) :
    rd.handleListSecrets order p.name e db' = rd.handleListSecrets order p.name e db := by
  refine resolveEnv_bind h e fun env hin => ?_
  simp only [resolve_eq h order hin]

/-- So is a secret that is read. -/
theorem handleGetSecret_eq (order : MapOrder) (e k : Str) :
    rd.handleGetSecret order p.name e k db' = rd.handleGetSecret order p.name e k db := by
  refine resolveEnv_bind h e fun env hin => ?_
  simp only [resolve_eq h order hin]

/-- So is the diff of two environments. -/
theorem handleDiffEnvs_eq (order order' : MapOrder) (e against : Str) :
    rd.handleDiffEnvs order order' p.name e against db' =
      rd.handleDiffEnvs order order' p.name e against db := by
  unfold handleDiffEnvs
  refine resolveEnv_bind h e fun env hin => ?_
  simp only [alone_find, find_env_eq h, resolve_eq h order hin]
  refine bind_congr fun _ => ?_
  by_cases hsame : against = env.name
  · rw [if_pos hsame, if_pos hsame]
    exact bind_congr_ok fun _ hthrow => by cases hthrow
  · rw [if_neg hsame, if_neg hsame]
    refine bind_congr_ok fun env2 henv2 => ?_
    rw [resolve_eq h order' (find_env henv2)]

end

/-- What the reads of a project answer depends on nothing outside it. -/
theorem reads_sameProject (rd : Reader) {p : Project} {db db' : Database}
    (h : SameProject p db db') :
    (∀ order e, rd.handleListSecrets order p.name e db' =
      rd.handleListSecrets order p.name e db) ∧
    (∀ order e k, rd.handleGetSecret order p.name e k db' =
      rd.handleGetSecret order p.name e k db) ∧
    (∀ order order' e against, rd.handleDiffEnvs order order' p.name e against db' =
      rd.handleDiffEnvs order order' p.name e against db) :=
  ⟨handleListSecrets_eq h, handleGetSecret_eq h, handleDiffEnvs_eq h⟩

end Reader

/-- A reader over the plain cipher whose lookups succeed. -/
def plainReader : Reader := ⟨plainServer, plainResolver, .calm 0⟩

/-- The project of the shared environments. -/
def sharedProject : Project := ⟨1, ascii "app", 0, 0⟩

/-- The shared environments in their project. -/
def soleProject : Database :=
  { sharedDatabase with projects := ⟨[sharedProject], by decide⟩ }

/-- Beside a project that has an environment and a key of the same names. -/
def twoProjects : Database :=
  { soleProject with
    projects := ⟨[sharedProject, ⟨2, ascii "other", 0, 0⟩], by decide⟩
    environments := ⟨inheritingEnvs.rows ++ [⟨3, 2, ascii "P", [], 0, 0⟩], by decide⟩
    secrets := ⟨sharedDatabase.secrets.rows ++
      [{ plainSecret 3 "HOST" "elsewhere" with envID := 3 }], by decide⟩ }

/-- Both hold the same for that project. -/
theorem soleProject_sameProject : SameProject sharedProject soleProject twoProjects := by
  refine ⟨⟨List.mem_cons_self, List.mem_cons_self⟩, fun e he => ?_, fun e he hp s hs => ?_⟩
  · refine List.mem_append.trans (or_iff_left fun hlast => ?_)
    rw [List.mem_singleton.mp hlast] at he
    revert he
    decide
  · refine List.mem_append.trans (or_iff_left fun hlast => ?_)
    have hid : ∀ e ∈ soleProject.environments.rows, e.id ≠ 3 := by decide
    rw [List.mem_singleton.mp hlast] at hs
    exact hid e he hs.symm

/-- The reads of the project agree, though the other one has an environment of the same name. -/
theorem reads_soleProject :
    (plainReader.handleListSecrets .plain (ascii "app") (ascii "P") twoProjects =
      plainReader.handleListSecrets .plain (ascii "app") (ascii "P") soleProject) ∧
    (plainReader.handleGetSecret .plain (ascii "app") (ascii "P") (ascii "URL")
      twoProjects).map SecretView.value = .ok (ascii "pg://db/x") := by
  obtain ⟨hlist, hget, -⟩ := plainReader.reads_sameProject soleProject_sameProject
  refine ⟨hlist _ _, ?_⟩
  refine (congrArg _ (hget .plain (ascii "P") (ascii "URL"))).trans ?_
  decide +kernel

end Comax.Server
