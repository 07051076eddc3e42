import Comax.Server.Effects

/-!
# How the database grows

No request removes or renames a project, an environment, a secret or a token, and
the version history and the audit log only grow. So what a handler has looked up by
name, id or version stays true while other requests run.
-/

namespace Comax.Server

open Comax.Core Comax.Store

/-- What stays of a secret when it is written or soft-deleted. -/
structure SameKey (s s' : Secret) : Prop where
  id : s'.id = s.id
  envID : s'.envID = s.envID
  key : s'.key = s.key

/-- What stays of a token; a revocation stays as well. -/
structure SameToken (t t' : ServiceToken) : Prop where
  id : t'.id = t.id
  tokenHash : t'.tokenHash = t.tokenHash
  isAdmin : t'.isAdmin = t.isAdmin
  revokedAt : t.revokedAt ≠ none → t'.revokedAt = t.revokedAt

/-- What the database may have become after any number of statements. -/
structure Later (db db' : Database) : Prop where
  projects : db.projects.rows <+: db'.projects.rows
  environments : db.environments.rows <+: db'.environments.rows
  secretVersions : db.secretVersions.rows <+: db'.secretVersions.rows
  auditLog : db.auditLog.rows <+: db'.auditLog.rows
  secrets : db.secrets.Carried SameKey db'.secrets
  serviceTokens : db.serviceTokens.Carried SameToken db'.serviceTokens

/-- The environment that a path names, and its project. -/
structure Located (p e : Str) (project : Project) (env : Environment) (db : Database) : Prop where
  projectName : ProjectRepo.byName p db = .ok project
  envName : EnvRepo.byName project.id e db = .ok env

theorem SameKey.refl (s : Secret) : SameKey s s := ⟨rfl, rfl, rfl⟩

theorem SameKey.trans (a b c : Secret) (h : SameKey a b) (h' : SameKey b c) : SameKey a c :=
  ⟨h'.id.trans h.id, h'.envID.trans h.envID, h'.key.trans h.key⟩

theorem SameToken.refl (t : ServiceToken) : SameToken t t := ⟨rfl, rfl, rfl, fun _ => rfl⟩

theorem SameToken.trans (a b c : ServiceToken) (h : SameToken a b) (h' : SameToken b c) :
    SameToken a c where
  id := h'.id.trans h.id
  tokenHash := h'.tokenHash.trans h.tokenHash
  isAdmin := h'.isAdmin.trans h.isAdmin
  revokedAt hne := by
    have hb := h.revokedAt hne
    rw [← hb] at hne ⊢
    exact h'.revokedAt hne

namespace Later

theorem refl (db : Database) : Later db db where
  projects := List.prefix_refl _
  environments := List.prefix_refl _
  secretVersions := List.prefix_refl _
  auditLog := List.prefix_refl _
  secrets := Table.Carried.refl SameKey.refl _
  serviceTokens := Table.Carried.refl SameToken.refl _

theorem trans (x y z : Database) (h : Later x y) (h' : Later y z) : Later x z where
  projects := h.projects.trans h'.projects
  environments := h.environments.trans h'.environments
  secretVersions := h.secretVersions.trans h'.secretVersions
  auditLog := h.auditLog.trans h'.auditLog
  secrets := h.secrets.trans SameKey.trans h'.secrets
  serviceTokens := h.serviceTokens.trans SameToken.trans h'.serviceTokens

/-- A change of the tables that `Later` says nothing about. -/
theorem of_eq {db db' : Database} (hp : db'.projects = db.projects)
    (he : db'.environments = db.environments) (hs : db'.secrets = db.secrets)
    (hv : db'.secretVersions = db.secretVersions) (ht : db'.serviceTokens = db.serviceTokens)
    (ha : db'.auditLog = db.auditLog) : Later db db' where
  projects := by rw [hp]
  environments := by rw [he]
  secretVersions := by rw [hv]
  auditLog := by rw [ha]
  secrets := by
    rw [hs]
    exact Table.Carried.refl SameKey.refl _
  serviceTokens := by
    rw [ht]
    exact Table.Carried.refl SameToken.refl _

/-- A change of the tokens. -/
theorem of_serviceTokens {db : Database} {ts : Table ServiceToken}
    (h : db.serviceTokens.Carried SameToken ts) : Later db { db with serviceTokens := ts } :=
  { refl db with serviceTokens := h }

/-- A change of the secrets. -/
theorem of_secrets {db : Database} {ss : Table Secret} (h : db.secrets.Carried SameKey ss) :
    Later db { db with secrets := ss } :=
  { refl db with secrets := h }

/-- Every statement leads to a later database. -/
theorem statements : Statements Later where
  refl := refl
  trans := trans
  audit actor action target metadata now db e db' h := by
    obtain ⟨-, t, hins, rfl⟩ := AuditRepo.append_eq_ok h
    exact { refl db with auditLog := Table.prefix_of_insert hins }
  projectCreate name now db p db' h := by
    obtain ⟨-, t, hins, rfl⟩ := ProjectRepo.create_eq_ok h
    exact { refl db with projects := Table.prefix_of_insert hins }
  envCreate p name inheritsFrom now db e db' h := by
    obtain ⟨-, t, hins, rfl⟩ := EnvRepo.create_eq_ok h
    exact { refl db with environments := Table.prefix_of_insert hins }
  tokenBootstrap name hash now db r db' h := by
    rcases TokenRepo.bootstrapIfEmpty_eq_ok h with ⟨-, rfl⟩ | ⟨-, t, -, hins, rfl⟩
    · exact refl _
    · exact of_serviceTokens (.of_insert SameToken.refl hins)
  tokenCreate name hash isAdmin now db t db' h := by
    obtain ⟨-, ts, hins, rfl⟩ := TokenRepo.create_eq_ok h
    exact of_serviceTokens (.of_insert SameToken.refl hins)
  tokenRevoke id now db u db' h := by
    rw [TokenRepo.revoke_eq_ok h]
    apply of_serviceTokens
    apply Table.Carried.of_update SameToken.refl
    intro t ht
    simp only [Bool.and_eq_true, decide_eq_true_eq] at ht
    exact ⟨rfl, rfl, rfl, fun hne => absurd ht.2 hne⟩
  tokenTouch id now db u db' h := by
    rw [TokenRepo.touchLastUsed_eq_ok h]
    apply of_serviceTokens
    apply Table.Carried.of_update SameToken.refl
    exact fun t _ => ⟨rfl, rfl, rfl, fun _ => rfl⟩
  sessionCreate input now db s db' h := by
    obtain ⟨-, t, -, rfl⟩ := SessionRepo.create_eq_ok h
    exact of_eq rfl rfl rfl rfl rfl rfl
  sessionRevoke id now db u db' h := by
    rw [SessionRepo.revoke_eq_ok h]
    exact of_eq rfl rfl rfl rfl rfl rfl
  sessionRevokeByID id tokenID now db n db' h := by
    cases h
    exact of_eq rfl rfl rfl rfl rfl rfl
  webhookCreate p e url events ct _ now db w db' h := by
    obtain ⟨-, t, -, rfl⟩ := WebhookRepo.create_eq_ok h
    exact of_eq rfl rfl rfl rfl rfl rfl
  webhookEnable id enabled now db u db' h := by
    rw [WebhookRepo.setEnabled_eq_ok h]
    exact of_eq rfl rfl rfl rfl rfl rfl
  webhookDelete id now db u db' h := by
    rw [WebhookRepo.delete_eq_ok h]
    exact of_eq rfl rfl rfl rfl rfl rfl
  secretUpsert e key ct now db up db' h := by
    rcases SecretRepo.upsert_eq_ok h with ⟨s, -, -, -, rfl⟩ | ⟨-, -, t, hins, rfl⟩
    · apply of_secrets
      apply Table.Carried.of_update SameKey.refl
      exact fun s _ => ⟨rfl, rfl, rfl⟩
    · exact of_secrets (.of_insert SameKey.refl hins)
  secretDelete e key now db u db' h := by
    rw [(SecretRepo.delete_eq_ok h).2]
    apply of_secrets
    apply Table.Carried.of_update SameKey.refl
    exact fun s _ => ⟨rfl, rfl, rfl⟩
  versionCreate id version ct actor now db v db' h := by
    obtain ⟨-, t, hins, rfl⟩ := VersionRepo.create_eq_ok h
    exact { refl db with secretVersions := Table.prefix_of_insert hins }
  deliveryEnqueue id event payload now db d db' h := by
    obtain ⟨-, t, -, rfl⟩ := DeliveryRepo.enqueue_eq_ok h
    exact of_eq rfl rfl rfl rfl rfl rfl

/-- Every request leads to later databases. -/
theorem serve (srv : Server) (rq : Request) : (srv.serve rq).Every Later := statements.serve rq

variable {db db' : Database}

/-- A project stays under its name. -/
theorem projectByName (h : Later db db') {name : Str} {p : Project}
    (hp : ProjectRepo.byName name db = .ok p) : ProjectRepo.byName name db' = .ok p :=
  found_eq_ok.mpr (Table.find?_of_prefix h.projects (found_eq_ok.mp hp))

/-- An environment stays under its id. -/
theorem envByID (h : Later db db') {id : Int} {e : Environment} (he : EnvRepo.byID id db = .ok e) :
    EnvRepo.byID id db' = .ok e :=
  found_eq_ok.mpr (Table.find?_of_prefix h.environments (found_eq_ok.mp he))

/-- An environment stays under its name. -/
theorem envByName (h : Later db db') {projectID : Int} {name : Str} {e : Environment}
    (he : EnvRepo.byName projectID name db = .ok e) : EnvRepo.byName projectID name db' = .ok e :=
  found_eq_ok.mpr (Table.find?_of_prefix h.environments (found_eq_ok.mp he))

/-- A recorded version stays. -/
theorem byVersion (h : Later db db') {secretID version : Int} {v : SecretVersion}
    (hv : VersionRepo.byVersion secretID version db = .ok v) :
    VersionRepo.byVersion secretID version db' = .ok v :=
  VersionRepo.byVersion_eq_ok.mpr
    (Table.find?_of_prefix h.secretVersions (VersionRepo.byVersion_eq_ok.mp hv))

/-- An environment of a path stays where it is. -/
theorem located (h : Later db db') {p e : Str} {project : Project} {env : Environment}
    (hloc : Located p e project env db) : Located p e project env db' :=
  ⟨h.projectByName hloc.projectName, h.envByName hloc.envName⟩

/-- A revoked token stays revoked. -/
theorem revoked (h : Later db db') {t t' : ServiceToken} (ht : t ∈ db.serviceTokens.rows)
    (hrev : t.revokedAt ≠ none) (ht' : t' ∈ db'.serviceTokens.rows) (hid : t'.id = t.id) :
    t'.revokedAt ≠ none := by
  obtain ⟨u, hu, hsame⟩ := h.serviceTokens t ht
  have htu : t' = u := db'.serviceTokens.eq_of_id_eq ht' hu (hid.trans hsame.id.symm)
  rw [htu, hsame.revokedAt hrev]
  exact hrev

end Later

/-- What `resolveEnv` returns is located in the database it ends with. -/
theorem meets_resolveEnv {R : Database → Database → Prop} (hrefl : ∀ db, R db db) (srv : Server)
    (p e : Str) (db : Database) :
    (srv.resolveEnv p e).Meets Later R db fun pe db' => Located p e pe.1 pe.2 db' := by
  apply Prog.Meets.bind
  apply Prog.meets_lift_bind
  intro _ _
  apply meets_lookup hrefl
  intro _ db₁ project _ hproject
  apply Prog.meets_lift_bind
  intro _ _
  apply Prog.Meets.bind
  apply meets_lookup hrefl
  intro _ db₂ env hl henv
  exact ⟨hl.projectByName hproject, henv⟩

end Comax.Server
