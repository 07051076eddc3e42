import Comax.Core.Like
import Comax.Store.Schema
import Mathlib.Data.List.Sort

/-!
# The repositories

One function per repository method, with the SQL statement it issues read off as a
function of the database. A read returns its value; a write is given the clock
reading `now` the method takes and returns the database after the statement. A
statement that fails changes nothing. Inserts check the foreign keys they set and
the UNIQUE constraints of their table.
-/

namespace Comax.Store

open Comax.Core

/-- Insert into a table, with a UNIQUE violation reported as `ErrConflict`. -/
def insertRow {ρ : Type} [Row ρ] (t : Table ρ) (r : ρ) : Except StoreError (Table ρ) :=
  match t.insert r with
  | some t' => .ok t'
  | none => .error .conflict

/-- A foreign key constraint on a statement. -/
def foreignKey (holds : Bool) : Except StoreError Unit :=
  if holds then .ok () else .error .other

/-- A sequence succeeds if its first part does and the rest does with its result. -/
theorem bind_eq_ok {ε α β : Type} {m : Except ε α} {k : α → Except ε β} {b : β} :
    m >>= k = .ok b ↔ ∃ a, m = .ok a ∧ k a = .ok b := by
  cases m with
  | ok a =>
    constructor
    · exact fun h => ⟨a, rfl, h⟩
    · rintro ⟨_, ha, hk⟩
      cases ha
      exact hk
  | error e =>
    constructor
    · intro h
      cases h
    · rintro ⟨_, ha, _⟩
      cases ha

@[simp] theorem insertRow_eq_ok {ρ : Type} [Row ρ] {t t' : Table ρ} {r : ρ} :
    insertRow t r = .ok t' ↔ t.insert r = some t' := by
  unfold insertRow
  cases t.insert r <;> simp

/-- A nullable reference to a service token. -/
def Database.tokenRef (db : Database) (actorToken : Option Int) : Bool :=
  actorToken.all fun id => db.serviceTokens.rows.any fun t => t.id = id

namespace ProjectRepo

/-- `ProjectRepo.Create` -/
def create (name : Str) (now : Int) (db : Database) : Except StoreError (Project × Database) := do
  let p : Project := ⟨db.projects.nextId, name, now, now⟩
  let projects ← insertRow db.projects p
  return (p, { db with projects })

/-- What an accepted `Create` did. -/
theorem create_eq_ok {name : Str} {now : Int} {db db' : Database} {p : Project}
    (h : create name now db = .ok (p, db')) :
    p = ⟨db.projects.nextId, name, now, now⟩ ∧
      ∃ t, db.projects.insert p = some t ∧ db' = { db with projects := t } := by
  unfold create at h
  obtain ⟨t, hins, h⟩ := bind_eq_ok.mp h
  cases h
  exact ⟨rfl, t, insertRow_eq_ok.mp hins, rfl⟩

/-- `ProjectRepo.ByName` -/
def byName (name : Str) (db : Database) : Except StoreError Project :=
  found (db.projects.find? fun p => p.name = name)

end ProjectRepo

namespace EnvRepo

/-- `EnvRepo.Create` -/
def create (projectID : Int) (name inheritsFrom : Str) (now : Int) (db : Database) :
    Except StoreError (Environment × Database) := do
  foreignKey (db.projects.rows.any fun p => p.id = projectID)
  let e : Environment := ⟨db.environments.nextId, projectID, name, inheritsFrom, now, now⟩
  let environments ← insertRow db.environments e
  return (e, { db with environments })

/-- What an accepted `Create` did. -/
theorem create_eq_ok {projectID : Int} {name inheritsFrom : Str} {now : Int} {db db' : Database}
    {e : Environment} (h : create projectID name inheritsFrom now db = .ok (e, db')) :
    e = ⟨db.environments.nextId, projectID, name, inheritsFrom, now, now⟩ ∧
      ∃ t, db.environments.insert e = some t ∧ db' = { db with environments := t } := by
  unfold create at h
  obtain ⟨_, -, h⟩ := bind_eq_ok.mp h
  obtain ⟨t, hins, h⟩ := bind_eq_ok.mp h
  cases h
  exact ⟨rfl, t, insertRow_eq_ok.mp hins, rfl⟩

/-- `EnvRepo.ByID` -/
def byID (id : Int) (db : Database) : Except StoreError Environment :=
  found (db.environments.find? fun e => e.id = id)

/-- `EnvRepo.ByName` -/
def byName (projectID : Int) (name : Str) (db : Database) : Except StoreError Environment :=
  found (db.environments.find? fun e => e.projectID = projectID && e.name = name)

end EnvRepo

namespace SecretRepo

/-- What `Upsert` returns: the row after the write, and whether it was inserted. -/
structure UpsertResult where
  secret : Secret
  created : Bool

/-- The columns the conflict branch of `Upsert` sets. -/
def overwritten (ciphertext : Str) (now : Int) (s : Secret) : Secret :=
  { s with ciphertext, version := s.version + 1, updatedAt := now, deletedAt := none }

/-- `SecretRepo.Upsert`: `INSERT … ON CONFLICT(env_id, key) DO UPDATE`. -/
def upsert (envID : Int) (key ciphertext : Str) (now : Int) (db : Database) :
    Except StoreError (UpsertResult × Database) :=
  match db.secrets.find? fun s => s.envID = envID && s.key = key with
  | some s =>
    let s' := overwritten ciphertext now s
    .ok (⟨s', s'.version = 1 && s'.createdAt = now⟩, { db with
      secrets := db.secrets.update (fun r => r.envID = envID && r.key = key)
        (overwritten ciphertext now) fun _ => ⟨rfl, rfl⟩ })
  | none => do
    foreignKey (db.environments.rows.any fun e => e.id = envID)
    let s : Secret := ⟨db.secrets.nextId, envID, key, ciphertext, 1, now, now, none⟩
    let secrets ← insertRow db.secrets s
    return (⟨s, s.version = 1 && s.createdAt = now⟩, { db with secrets })

/-- What an accepted `Upsert` did: it rewrote the row of the key, or inserted one. -/
theorem upsert_eq_ok {envID : Int} {key ciphertext : Str} {now : Int} {db db' : Database}
    {up : UpsertResult} (h : upsert envID key ciphertext now db = .ok (up, db')) :
    (∃ s ∈ db.secrets.rows, (s.envID = envID ∧ s.key = key) ∧
        up.secret = overwritten ciphertext now s ∧
        db' = { db with
          secrets := db.secrets.update (fun r => r.envID = envID && r.key = key)
            (overwritten ciphertext now) fun _ => ⟨rfl, rfl⟩ }) ∨
      ((∀ s ∈ db.secrets.rows, ¬ (s.envID = envID ∧ s.key = key)) ∧
        up.secret = ⟨db.secrets.nextId, envID, key, ciphertext, 1, now, now, none⟩ ∧
        ∃ t, db.secrets.insert up.secret = some t ∧ db' = { db with secrets := t }) := by
  unfold upsert at h
  split at h
  · rename_i s hs
    cases h
    obtain ⟨hmem, hkey⟩ := Table.of_find?_eq_some hs
    exact .inl ⟨s, hmem, by simpa using hkey, rfl, rfl⟩
  · rename_i hs
    obtain ⟨_, -, h⟩ := bind_eq_ok.mp h
    obtain ⟨t, hins, h⟩ := bind_eq_ok.mp h
    cases h
    exact .inr ⟨fun s hmem hkey => List.find?_eq_none.mp hs s hmem (by simpa using hkey), rfl, t,
      insertRow_eq_ok.mp hins, rfl⟩

/-- `SecretRepo.ByKey`: the live secret of a key. -/
def byKey (envID : Int) (key : Str) (db : Database) : Except StoreError Secret :=
  found (db.secrets.find? fun s => s.envID = envID && s.key = key && s.deletedAt = none)

/-- `SecretRepo.ListByEnv`: the live secrets of an environment, ordered by key. -/
def listByEnv (envID : Int) (db : Database) : List Secret :=
  (db.secrets.rows.filter fun s => s.envID = envID && s.deletedAt = none).insertionSort
    fun a b => a.key ≤ b.key

/-- The columns `Delete` sets. -/
def softDeleted (now : Int) (s : Secret) : Secret :=
  { s with deletedAt := some now, updatedAt := now }

/-- `SecretRepo.Delete` -/
def delete (envID : Int) (key : Str) (now : Int) (db : Database) :
    Except StoreError (Unit × Database) :=
  if db.secrets.rows.any fun s => s.envID = envID && s.key = key && s.deletedAt = none then
    .ok ((), { db with
      secrets := db.secrets.update (fun s => s.envID = envID && s.key = key && s.deletedAt = none)
        (softDeleted now) fun _ => ⟨rfl, rfl⟩ })
  else .error .notFound

/-- What an accepted `Delete` did. -/
theorem delete_eq_ok {envID : Int} {key : Str} {now : Int} {db db' : Database} {u : Unit}
    (h : delete envID key now db = .ok (u, db')) :
    (∃ s ∈ db.secrets.rows, s.envID = envID ∧ s.key = key ∧ s.deletedAt = none) ∧
      db' = { db with
        secrets := db.secrets.update (fun s => s.envID = envID && s.key = key && s.deletedAt = none)
          (softDeleted now) fun _ => ⟨rfl, rfl⟩ } := by
  unfold delete at h
  split at h
  · rename_i hany
    cases h
    obtain ⟨s, hs, hkey⟩ := List.any_eq_true.mp hany
    exact ⟨⟨s, hs, by simpa [and_assoc] using hkey⟩, rfl⟩
  · cases h

end SecretRepo

namespace VersionRepo

/-- `VersionRepo.Create` -/
def create (secretID version : Int) (ciphertext : Str) (actorToken : Option Int) (now : Int)
    (db : Database) : Except StoreError (SecretVersion × Database) := do
  foreignKey (db.secrets.rows.any fun s => s.id = secretID)
  foreignKey (db.tokenRef actorToken)
  let v : SecretVersion :=
    ⟨db.secretVersions.nextId, secretID, version, ciphertext, actorToken, now⟩
  let secretVersions ← insertRow db.secretVersions v
  return (v, { db with secretVersions })

/-- What an accepted `Create` did. -/
theorem create_eq_ok {secretID version : Int} {ciphertext : Str} {actorToken : Option Int}
    {now : Int} {db db' : Database} {v : SecretVersion}
    (h : create secretID version ciphertext actorToken now db = .ok (v, db')) :
    v = ⟨db.secretVersions.nextId, secretID, version, ciphertext, actorToken, now⟩ ∧
      ∃ t, db.secretVersions.insert v = some t ∧ db' = { db with secretVersions := t } := by
  unfold create at h
  obtain ⟨_, -, h⟩ := bind_eq_ok.mp h
  obtain ⟨_, -, h⟩ := bind_eq_ok.mp h
  obtain ⟨t, hins, h⟩ := bind_eq_ok.mp h
  cases h
  exact ⟨rfl, t, insertRow_eq_ok.mp hins, rfl⟩

/-- `VersionRepo.ByVersion` -/
def byVersion (secretID version : Int) (db : Database) : Except StoreError SecretVersion :=
  match db.secretVersions.find? fun v => v.secretID = secretID && v.version = version with
  | some v => .ok v
  | none => .error .versionNotFound

/-- What `ByVersion` finds. -/
theorem byVersion_eq_ok {secretID version : Int} {db : Database} {v : SecretVersion} :
    byVersion secretID version db = .ok v ↔
      db.secretVersions.find? (fun v => v.secretID = secretID && v.version = version) = some v := by
  unfold byVersion
  cases db.secretVersions.find? fun v => v.secretID = secretID && v.version = version <;> simp

end VersionRepo

namespace TokenRepo

/-- `TokenRepo.BootstrapIfEmpty`: `none` when the table already holds a token. -/
def bootstrapIfEmpty (name tokenHash : Str) (now : Int) (db : Database) :
    Except StoreError (Option ServiceToken × Database) :=
  if db.serviceTokens.rows.length = 0 then
    let t : ServiceToken := ⟨db.serviceTokens.nextId, name, tokenHash, true, now, none, none⟩
    match db.serviceTokens.insert t with
    | some serviceTokens => .ok (some t, { db with serviceTokens })
    | none => .ok (none, db)
  else .ok (none, db)

/-- What an accepted `BootstrapIfEmpty` did. -/
theorem bootstrapIfEmpty_eq_ok {name tokenHash : Str} {now : Int} {db db' : Database}
    {r : Option ServiceToken} (h : bootstrapIfEmpty name tokenHash now db = .ok (r, db')) :
    (r = none ∧ db' = db) ∨
      (db.serviceTokens.rows = [] ∧
        ∃ t, r = some ⟨db.serviceTokens.nextId, name, tokenHash, true, now, none, none⟩ ∧
          db.serviceTokens.insert
            ⟨db.serviceTokens.nextId, name, tokenHash, true, now, none, none⟩ = some t ∧
          db' = { db with serviceTokens := t }) := by
  unfold bootstrapIfEmpty at h
  split at h
  · rename_i hempty
    dsimp only at h
    split at h
    · rename_i t hins
      cases h
      exact .inr ⟨List.length_eq_zero_iff.mp hempty, t, rfl, hins, rfl⟩
    · cases h
      exact .inl ⟨rfl, rfl⟩
  · cases h
    exact .inl ⟨rfl, rfl⟩

/-- `TokenRepo.Create` -/
def create (name tokenHash : Str) (isAdmin : Bool) (now : Int) (db : Database) :
    Except StoreError (ServiceToken × Database) := do
  let t : ServiceToken := ⟨db.serviceTokens.nextId, name, tokenHash, isAdmin, now, none, none⟩
  let serviceTokens ← insertRow db.serviceTokens t
  return (t, { db with serviceTokens })

/-- What an accepted `Create` did. -/
theorem create_eq_ok {name tokenHash : Str} {isAdmin : Bool} {now : Int} {db db' : Database}
    {t : ServiceToken} (h : create name tokenHash isAdmin now db = .ok (t, db')) :
    t = ⟨db.serviceTokens.nextId, name, tokenHash, isAdmin, now, none, none⟩ ∧
      ∃ ts, db.serviceTokens.insert t = some ts ∧ db' = { db with serviceTokens := ts } := by
  unfold create at h
  obtain ⟨ts, hins, h⟩ := bind_eq_ok.mp h
  cases h
  exact ⟨rfl, ts, insertRow_eq_ok.mp hins, rfl⟩

/-- `TokenRepo.ByHash`: the live token with this hash. -/
def byHash (tokenHash : Str) (db : Database) : Except StoreError ServiceToken :=
  found (db.serviceTokens.find? fun t => t.tokenHash = tokenHash && t.revokedAt = none)

/-- `TokenRepo.ByID`, which returns revoked tokens as well. -/
def byID (id : Int) (db : Database) : Except StoreError ServiceToken :=
  found (db.serviceTokens.find? fun t => t.id = id)

/-- `TokenRepo.Revoke` -/
def revoke (id : Int) (now : Int) (db : Database) : Except StoreError (Unit × Database) :=
  if db.serviceTokens.rows.any fun t => t.id = id && t.revokedAt = none then
    .ok ((), { db with
      serviceTokens := db.serviceTokens.update (fun t => t.id = id && t.revokedAt = none)
        (fun t => { t with revokedAt := some now }) fun _ => ⟨rfl, rfl⟩ })
  else .error .notFound

/-- What an accepted `Revoke` did. -/
theorem revoke_eq_ok {id now : Int} {db db' : Database} {u : Unit}
    (h : revoke id now db = .ok (u, db')) :
    db' = { db with
      serviceTokens := db.serviceTokens.update (fun t => t.id = id && t.revokedAt = none)
        (fun t => { t with revokedAt := some now }) fun _ => ⟨rfl, rfl⟩ } := by
  unfold revoke at h
  split at h
  · cases h
    rfl
  · cases h

/-- `TokenRepo.CountLiveAdmins` -/
def countLiveAdmins (db : Database) : ℕ :=
  (db.serviceTokens.rows.filter fun t => t.isAdmin && t.revokedAt = none).length

/-- `TokenRepo.TouchLastUsed` -/
def touchLastUsed (id : Int) (now : Int) (db : Database) : Except StoreError (Unit × Database) :=
  if db.serviceTokens.rows.any fun t => t.id = id then
    .ok ((), { db with
      serviceTokens := db.serviceTokens.update (fun t => t.id = id)
        (fun t => { t with lastUsedAt := some now }) fun _ => ⟨rfl, rfl⟩ })
  else .error .notFound

/-- What an accepted `TouchLastUsed` did. -/
theorem touchLastUsed_eq_ok {id now : Int} {db db' : Database} {u : Unit}
    (h : touchLastUsed id now db = .ok (u, db')) :
    db' = { db with
      serviceTokens := db.serviceTokens.update (fun t => t.id = id)
        (fun t => { t with lastUsedAt := some now }) fun _ => ⟨rfl, rfl⟩ } := by
  unfold touchLastUsed at h
  split at h
  · cases h
    rfl
  · cases h

end TokenRepo

namespace SessionRepo

/-- The input of `SessionRepo.Create`. -/
structure SessionCreateInput where
  tokenID : Int
  sessionHash : Str
  csrfHash : Str
  userAgent : Str
  ipPrefix : Str
  ttl : Int

/-- `SessionRepo.Create` -/
def create (input : SessionCreateInput) (now : Int) (db : Database) :
    Except StoreError (DashboardSession × Database) := do
  foreignKey (db.tokenRef (some input.tokenID))
  let s : DashboardSession := ⟨db.dashboardSessions.nextId, input.tokenID, input.sessionHash,
    input.csrfHash, input.userAgent, input.ipPrefix, now, now + input.ttl, none⟩
  let dashboardSessions ← insertRow db.dashboardSessions s
  return (s, { db with dashboardSessions })

/-- What an accepted `Create` did. -/
theorem create_eq_ok {input : SessionCreateInput} {now : Int} {db db' : Database}
    {s : DashboardSession} (h : create input now db = .ok (s, db')) :
    s = ⟨db.dashboardSessions.nextId, input.tokenID, input.sessionHash, input.csrfHash,
        input.userAgent, input.ipPrefix, now, now + input.ttl, none⟩ ∧
      ∃ t, db.dashboardSessions.insert s = some t ∧ db' = { db with dashboardSessions := t } := by
  unfold create at h
  obtain ⟨_, -, h⟩ := bind_eq_ok.mp h
  obtain ⟨t, hins, h⟩ := bind_eq_ok.mp h
  cases h
  exact ⟨rfl, t, insertRow_eq_ok.mp hins, rfl⟩

/-- `SessionRepo.ByHash`: the unrevoked, unexpired session with this hash. -/
def byHash (sessionHash : Str) (now : Int) (db : Database) : Except StoreError DashboardSession :=
  found (db.dashboardSessions.find? fun s =>
    s.sessionHash = sessionHash && s.revokedAt = none && decide (now < s.expiresAt))

/-- `SessionRepo.Revoke` -/
def revoke (id : Int) (now : Int) (db : Database) : Except StoreError (Unit × Database) :=
  if db.dashboardSessions.rows.any fun s => s.id = id && s.revokedAt = none then
    .ok ((), { db with
      dashboardSessions := db.dashboardSessions.update (fun s => s.id = id && s.revokedAt = none)
        (fun s => { s with revokedAt := some now }) fun _ => ⟨rfl, rfl⟩ })
  else .error .notFound

/-- What an accepted `Revoke` did. -/
theorem revoke_eq_ok {id now : Int} {db db' : Database} {u : Unit}
    (h : revoke id now db = .ok (u, db')) :
    db' = { db with
      dashboardSessions := db.dashboardSessions.update (fun s => s.id = id && s.revokedAt = none)
        (fun s => { s with revokedAt := some now }) fun _ => ⟨rfl, rfl⟩ } := by
  unfold revoke at h
  split at h
  · cases h
    rfl
  · cases h

/-- A live session can be revoked. -/
theorem revoke_ok {db : Database} {s : DashboardSession} (hs : s ∈ db.dashboardSessions.rows)
    (hlive : s.revokedAt = none) (now : Int) : revoke s.id now db = .ok ((), { db with
      dashboardSessions := db.dashboardSessions.update (fun r => r.id = s.id && r.revokedAt = none)
        (fun s => { s with revokedAt := some now }) fun _ => ⟨rfl, rfl⟩ }) := by
  rw [revoke, if_pos (List.any_eq_true.mpr ⟨s, hs, by simp [hlive]⟩)]

/-- `SessionRepo.RevokeByIDAndTokenID`: the number of rows it revoked. -/
def revokeByIDAndTokenID (id tokenID : Int) (now : Int) (db : Database) :
    Except StoreError (ℕ × Database) :=
  let hit : DashboardSession → Bool :=
    fun s => s.id = id && s.tokenID = tokenID && s.revokedAt = none
  .ok ((db.dashboardSessions.rows.filter hit).length, { db with
    dashboardSessions := db.dashboardSessions.update hit
      (fun s => { s with revokedAt := some now }) fun _ => ⟨rfl, rfl⟩ })

end SessionRepo

namespace AuditRepo

/-- `AuditRepo.Append` -/
def append (actorToken : Option Int) (action target metadata : Str) (now : Int) (db : Database) :
    Except StoreError (AuditEntry × Database) := do
  foreignKey (db.tokenRef actorToken)
  let e : AuditEntry := ⟨db.auditLog.nextId, actorToken, action, target, metadata, now⟩
  let auditLog ← insertRow db.auditLog e
  return (e, { db with auditLog })

/-- What an accepted `Append` did. -/
theorem append_eq_ok {actorToken : Option Int} {action target metadata : Str} {now : Int}
    {db db' : Database} {e : AuditEntry}
    (h : append actorToken action target metadata now db = .ok (e, db')) :
    e = ⟨db.auditLog.nextId, actorToken, action, target, metadata, now⟩ ∧
      ∃ t, db.auditLog.insert e = some t ∧ db' = { db with auditLog := t } := by
  unfold append at h
  obtain ⟨_, -, h⟩ := bind_eq_ok.mp h
  obtain ⟨t, hins, h⟩ := bind_eq_ok.mp h
  cases h
  exact ⟨rfl, t, insertRow_eq_ok.mp hins, rfl⟩

/-- An entry with a known actor is accepted. -/
theorem append_ok {actorToken : Option Int} (action target metadata : Str) (now : Int)
    {db : Database} (h : db.tokenRef actorToken = true) :
    ∃ e t,
      append actorToken action target metadata now db = .ok (e, { db with auditLog := t }) := by
  have happart : ∀ x ∈ db.auditLog.rows, Row.Apart x
      (⟨db.auditLog.nextId, actorToken, action, target, metadata, now⟩ : AuditEntry) :=
    fun x hx => ⟨(db.auditLog.lt_nextId hx).ne, rfl⟩
  simp only [append, foreignKey, h, if_true, insertRow, Table.insert, dif_pos happart]
  exact ⟨_, _, rfl⟩

end AuditRepo

/-- The event kinds a webhook may subscribe to. -/
def eventSecretUpsert : Str := ascii "secret.upsert"
/-- See `eventSecretUpsert`. -/
def eventSecretRollback : Str := ascii "secret.rollback"
/-- See `eventSecretUpsert`. -/
def eventSecretDelete : Str := ascii "secret.delete"

namespace WebhookRepo

/-- `WebhookRepo.Create` -/
def create (projectID : Int) (envID : Option Int) (url events secretCiphertext : Str) (now : Int)
    (db : Database) : Except StoreError (Webhook × Database) := do
  foreignKey (db.projects.rows.any fun p => p.id = projectID)
  foreignKey (envID.all fun id => db.environments.rows.any fun e => e.id = id)
  let w : Webhook :=
    ⟨db.webhooks.nextId, projectID, envID, url, secretCiphertext, events, true, now, now⟩
  let webhooks ← insertRow db.webhooks w
  return (w, { db with webhooks })

/-- What an accepted `Create` did. -/
theorem create_eq_ok {projectID : Int} {envID : Option Int} {url events secretCiphertext : Str}
    {now : Int} {db db' : Database} {w : Webhook}
    (h : create projectID envID url events secretCiphertext now db = .ok (w, db')) :
    w = ⟨db.webhooks.nextId, projectID, envID, url, secretCiphertext, events, true, now, now⟩ ∧
      ∃ webhooks, db.webhooks.insert w = some webhooks ∧ db' = { db with webhooks } := by
  unfold create at h
  obtain ⟨_, -, h⟩ := bind_eq_ok.mp h
  obtain ⟨_, -, h⟩ := bind_eq_ok.mp h
  obtain ⟨webhooks, hins, h⟩ := bind_eq_ok.mp h
  cases h
  exact ⟨rfl, webhooks, insertRow_eq_ok.mp hins, rfl⟩

/-- `WebhookRepo.ByID` -/
def byID (id : Int) (db : Database) : Except StoreError Webhook :=
  found (db.webhooks.find? fun w => w.id = id)

/-- `WebhookRepo.Delete`; the cascade removes the deliveries of the webhook. -/
def delete (id : Int) (db : Database) : Except StoreError (Unit × Database) :=
  if db.webhooks.rows.any fun w => w.id = id then
    .ok ((), { db with
      webhooks := db.webhooks.delete fun w => w.id = id
      webhookDeliveries := db.webhookDeliveries.delete fun d => d.webhookID = id })
  else .error .notFound

/-- What an accepted `Delete` did. -/
theorem delete_eq_ok {id : Int} {db db' : Database} {u : Unit} (h : delete id db = .ok (u, db')) :
    db' = { db with
      webhooks := db.webhooks.delete fun w => w.id = id
      webhookDeliveries := db.webhookDeliveries.delete fun d => d.webhookID = id } := by
  unfold delete at h
  split at h
  · cases h
    rfl
  · cases h

/-- `WebhookRepo.SetEnabled` -/
def setEnabled (id : Int) (enabled : Bool) (now : Int) (db : Database) :
    Except StoreError (Unit × Database) :=
  if db.webhooks.rows.any fun w => w.id = id then
    .ok ((), { db with
      webhooks := db.webhooks.update (fun w => w.id = id)
        (fun w => { w with enabled, updatedAt := now }) fun _ => ⟨rfl, rfl⟩ })
  else .error .notFound

/-- What an accepted `SetEnabled` did. -/
theorem setEnabled_eq_ok {id : Int} {enabled : Bool} {now : Int} {db db' : Database} {u : Unit}
    (h : setEnabled id enabled now db = .ok (u, db')) :
    db' = { db with
      webhooks := db.webhooks.update (fun w => w.id = id)
        (fun w => { w with enabled, updatedAt := now }) fun _ => ⟨rfl, rfl⟩ } := by
  unfold setEnabled at h
  split at h
  · cases h
    rfl
  · cases h

/-- The pattern `"%," + event + ",%"` of `MatchForEvent`. -/
def eventPattern (event : Str) : Str := ascii "%," ++ event ++ ascii ",%"

/-- The `WHERE` clause of `MatchForEvent`. -/
def matchesEvent (projectID envID : Int) (event : Str) (w : Webhook) : Bool :=
  w.enabled && w.projectID = projectID && w.envID.all (fun id => id = envID) &&
    like (eventPattern event) (ascii "," ++ w.events ++ ascii ",")

/-- `WebhookRepo.MatchForEvent`. Rows are inserted with increasing ids and never
reordered, so table order is the `ORDER BY id` of the statement. -/
def matchForEvent (projectID envID : Int) (event : Str) (db : Database) : List Webhook :=
  db.webhooks.rows.filter (matchesEvent projectID envID event)

end WebhookRepo

end Comax.Store
