import Comax.Core.Table
import Comax.Core.Text

/-!
# The database schema

Row types of the nine tables, with the primary key and the UNIQUE constraints of
the schema, and the database they make up. Timestamps are unix seconds. A nullable
text column that the repositories read as the empty string (`inherits_from`,
`metadata`, `last_error`) is stored as a plain text, since no query tells NULL and
the empty string apart.
-/

namespace Comax.Store

open Comax.Core

/-- A top-level scope, unique by name. -/
structure Project where
  id : Int
  name : Str
  createdAt : Int
  updatedAt : Int
  deriving DecidableEq

/-- A named bucket of a project; `inheritsFrom` names a sibling, empty for none. -/
structure Environment where
  id : Int
  projectID : Int
  name : Str
  inheritsFrom : Str
  createdAt : Int
  updatedAt : Int
  deriving DecidableEq

/-- The current sealed value of a key; `deletedAt` is set while it is soft-deleted. -/
structure Secret where
  id : Int
  envID : Int
  key : Str
  ciphertext : Str
  version : Int
  createdAt : Int
  updatedAt : Int
  deletedAt : Option Int
  deriving DecidableEq

/-- One entry of a secret's history. -/
structure SecretVersion where
  id : Int
  secretID : Int
  version : Int
  ciphertext : Str
  actorToken : Option Int
  createdAt : Int
  deriving DecidableEq

/-- A bearer credential; `revokedAt` is set once it is soft-revoked. -/
structure ServiceToken where
  id : Int
  name : Str
  tokenHash : Str
  isAdmin : Bool
  createdAt : Int
  lastUsedAt : Option Int
  revokedAt : Option Int
  deriving DecidableEq

/-- A recorded state change. -/
structure AuditEntry where
  id : Int
  actorToken : Option Int
  action : Str
  target : Str
  metadata : Str
  createdAt : Int
  deriving DecidableEq

/-- A browser session of a service token. -/
structure DashboardSession where
  id : Int
  tokenID : Int
  sessionHash : Str
  csrfHash : Str
  userAgent : Str
  ipPrefix : Str
  createdAt : Int
  expiresAt : Int
  revokedAt : Option Int
  deriving DecidableEq

/-- A webhook subscription; `envID = none` subscribes to every environment. -/
structure Webhook where
  id : Int
  projectID : Int
  envID : Option Int
  url : Str
  secretCiphertext : Str
  events : Str
  enabled : Bool
  createdAt : Int
  updatedAt : Int
  deriving DecidableEq

/-- The states of an outbox row. -/
inductive DeliveryStatus where
  | pending
  | inProgress
  | delivered
  | dead
  deriving DecidableEq

/-- One outbox row. -/
structure WebhookDelivery where
  id : Int
  webhookID : Int
  event : Str
  payload : Str
  status : DeliveryStatus
  attempts : Int
  nextAttemptAt : Int
  claimedAt : Option Int
  lastStatus : Option Int
  lastError : Str
  createdAt : Int
  deliveredAt : Option Int
  deriving DecidableEq

instance : Row Project where
  id := Project.id
  Key := Str
  key := Project.name
  clash a b := decide (a = b)

instance : Row Environment where
  id := Environment.id
  Key := Int × Str
  key e := (e.projectID, e.name)
  clash a b := decide (a = b)

instance : Row Secret where
  id := Secret.id
  Key := Int × Str
  key s := (s.envID, s.key)
  clash a b := decide (a = b)

instance : Row SecretVersion where
  id := SecretVersion.id
  Key := Int × Int
  key v := (v.secretID, v.version)
  clash a b := decide (a = b)

instance : Row ServiceToken where
  id := ServiceToken.id
  Key := Str × Str
  key t := (t.name, t.tokenHash)
  clash a b := decide (a.1 = b.1) || decide (a.2 = b.2)

instance : Row AuditEntry where
  id := AuditEntry.id
  Key := Unit
  key _ := ()
  clash _ _ := false

instance : Row DashboardSession where
  id := DashboardSession.id
  Key := Str
  key s := s.sessionHash
  clash a b := decide (a = b)

instance : Row Webhook where
  id := Webhook.id
  Key := Unit
  key _ := ()
  clash _ _ := false

instance : Row WebhookDelivery where
  id := WebhookDelivery.id
  Key := Unit
  key _ := ()
  clash _ _ := false

/-- The whole database. -/
structure Database where
  projects : Table Project
  environments : Table Environment
  secrets : Table Secret
  secretVersions : Table SecretVersion
  serviceTokens : Table ServiceToken
  auditLog : Table AuditEntry
  dashboardSessions : Table DashboardSession
  webhooks : Table Webhook
  webhookDeliveries : Table WebhookDelivery
  deriving DecidableEq

/-- A freshly migrated database. -/
def Database.empty : Database :=
  ⟨.empty, .empty, .empty, .empty, .empty, .empty, .empty, .empty, .empty⟩

/-- The sentinel a repository error wraps; `other` is any further driver error. -/
inductive StoreError where
  | notFound
  | conflict
  | versionNotFound
  | other
  deriving DecidableEq

/-- A lookup that misses is `ErrNotFound`. -/
def found {α : Type} : Option α → Except StoreError α
  | some a => .ok a
  | none => .error .notFound

@[simp] theorem found_eq_ok {α : Type} {o : Option α} {a : α} : found o = .ok a ↔ o = some a := by
  cases o <;> simp [found]

/-- An environment id names one row. -/
theorem environment_eq_of_id (db : Database) {a b : Environment}
    (ha : a ∈ db.environments.rows) (hb : b ∈ db.environments.rows) (h : a.id = b.id) : a = b :=
  db.environments.eq_of_id_eq ha hb h

/-- An environment and a key determine a secret. -/
theorem secret_eq_of_key (db : Database) {a b : Secret} (ha : a ∈ db.secrets.rows)
    (hb : b ∈ db.secrets.rows) (he : a.envID = b.envID) (hk : a.key = b.key) : a = b :=
  db.secrets.eq_of_clash ha hb (by simp [Row.key, Row.clash, he, hk])
    (by simp [Row.key, Row.clash, he, hk])

end Comax.Store
