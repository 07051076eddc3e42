import Comax.Core.Paired
import Comax.Store.Deliveries
import Comax.Store.Session

/-!
# Databases that differ in ciphertexts

Two databases that agree on everything but the ciphertexts of secrets and versions, and
whose versions have ciphertexts that belong together by a relation `C`. No statement but
the search for a version tells such databases apart, and a statement that stores a
ciphertext stores it where it is not seen.
-/

namespace Comax.Store

open Comax.Core

/-- A secret without its ciphertext. -/
def Secret.blind (s : Secret) : Secret := { s with ciphertext := [] }

/-- A version without its ciphertext. -/
def SecretVersion.blind (v : SecretVersion) : SecretVersion := { v with ciphertext := [] }

/-- A database without the ciphertexts of secrets and versions. -/
def Database.blind (db : Database) : Database :=
  { db with
    secrets := db.secrets.update (fun _ => true) Secret.blind fun _ => ⟨rfl, rfl⟩
    secretVersions :=
      db.secretVersions.update (fun _ => true) SecretVersion.blind fun _ => ⟨rfl, rfl⟩ }

/-- Secrets that differ in their ciphertexts. -/
def Secret.Twins (s s' : Secret) : Prop := s.blind = s'.blind

/-- Versions that differ in their ciphertexts, which belong together. -/
def SecretVersion.Twins (C : Str → Str → Prop) (v v' : SecretVersion) : Prop :=
  v.blind = v'.blind ∧ C v.ciphertext v'.ciphertext

/-- Databases that differ in ciphertexts. -/
structure Twins (C : Str → Str → Prop) (db db' : Database) : Prop where
  secrets : db.secrets.Paired Secret.Twins db'.secrets
  versions : db.secretVersions.Paired (SecretVersion.Twins C) db'.secretVersions
  others : db' = { db with secrets := db'.secrets, secretVersions := db'.secretVersions }

variable {C : Str → Str → Prop} {db db' : Database}

/-- Secrets that differ in their ciphertexts agree on every other column. -/
theorem Secret.Twins.columns {s s' : Secret} (h : s.Twins s') :
    s.id = s'.id ∧ s.envID = s'.envID ∧ s.key = s'.key ∧ s.version = s'.version ∧
      s.createdAt = s'.createdAt ∧ s.updatedAt = s'.updatedAt ∧ s.deletedAt = s'.deletedAt := by
  simpa [Secret.Twins, Secret.blind] using h

/-- Versions that differ in their ciphertexts agree on every other column. -/
theorem SecretVersion.Twins.columns {v v' : SecretVersion} (h : v.Twins C v') :
    v.id = v'.id ∧ v.secretID = v'.secretID ∧ v.version = v'.version ∧
      v.actorToken = v'.actorToken ∧ v.createdAt = v'.createdAt := by
  simpa [SecretVersion.blind] using h.1

/-- The constrained columns of a secret are not its ciphertext. -/
theorem constrained_secret : Table.Constrained Secret.Twins := by
  intro s s' h
  obtain ⟨hid, henv, hkey, -⟩ := h.columns
  exact ⟨hid, Prod.ext henv hkey⟩

/-- The constrained columns of a version are not its ciphertext. -/
theorem constrained_version : Table.Constrained (SecretVersion.Twins C) := by
  intro v v' h
  obtain ⟨hid, hsecret, hversion, -⟩ := h.columns
  exact ⟨hid, Prod.ext hsecret hversion⟩

/-- Databases that differ in ciphertexts are the same without them. -/
theorem Twins.blind (h : Twins C db db') : db.blind = db'.blind := by
  have hmap : ∀ {α : Type} {A : α → α → Prop} {f : α → α} {l l' : List α},
      (∀ a b, A a b → f a = f b) → List.Forall₂ A l l' → l.map f = l'.map f := by
    intro α A f l l' hf hl
    induction hl with
    | nil => rfl
    | cons hab _ ih => rw [List.map_cons, List.map_cons, hf _ _ hab, ih]
  have hsecrets : db.secrets.update (fun _ => true) Secret.blind (fun _ => ⟨rfl, rfl⟩) =
      db'.secrets.update (fun _ => true) Secret.blind fun _ => ⟨rfl, rfl⟩ :=
    Table.ext (by simpa using hmap (fun _ _ h => h) h.secrets)
  have hversions :
      db.secretVersions.update (fun _ => true) SecretVersion.blind (fun _ => ⟨rfl, rfl⟩) =
        db'.secretVersions.update (fun _ => true) SecretVersion.blind fun _ => ⟨rfl, rfl⟩ :=
    Table.ext (by simpa using hmap (fun _ _ h => h.1) h.versions)
  rw [h.others, Database.blind, Database.blind, hsecrets, hversions]

/-- A database has the same ciphertexts as itself. -/
theorem Twins.refl (hC : ∀ c, C c c) (db : Database) : Twins C db db :=
  ⟨List.forall₂_same.mpr fun _ _ => rfl, List.forall₂_same.mpr fun _ _ => ⟨rfl, hC _⟩, rfl⟩

/-! ## Statements -/

/-- Two statements that report the same on databases that differ in ciphertexts, up to `W`, and
leave such databases. -/
def Stmts (C : Str → Str → Prop) {α : Type} (W : α → α → Prop)
    (f f' : Int → Database → Except StoreError (α × Database)) : Prop :=
  ∀ now db db', Twins C db db' →
    Alike Eq (fun r r' => W r.1 r'.1 ∧ Twins C r.2 r'.2) (f now db) (f' now db')

/-- A statement that neither reads nor writes the tables with ciphertexts. -/
def Elsewhere {α : Type} (f : Int → Database → Except StoreError (α × Database)) : Prop :=
  ∀ now db secrets secretVersions, f now { db with secrets, secretVersions } =
    (f now db).map fun r => (r.1, { r.2 with secrets, secretVersions })

/-- A statement on other tables reports the same. -/
theorem Elsewhere.stmts {α : Type} {f : Int → Database → Except StoreError (α × Database)}
    (hf : Elsewhere f) : Stmts C Eq f f := by
  intro now db db' h
  have hself := hf now db db.secrets db.secretVersions
  rw [(congrArg (f now) h.others).trans (hf now db db'.secrets db'.secretVersions)]
  cases hres : f now db with
  | error e => exact rfl
  | ok r =>
    rw [hres] at hself
    have hr : r.2 = { r.2 with secrets := db.secrets, secretVersions := db.secretVersions } :=
      congrArg Prod.snd (Except.ok.inj hself)
    refine ⟨rfl, ?_, ?_, rfl⟩
    · rw [hr]
      exact h.secrets
    · rw [hr]
      exact h.versions

/-- A lookup in other tables reports the same. -/
theorem stmts_read {α : Type} {f : Int → Database → Except StoreError α}
    (hf : ∀ now db secrets secretVersions,
      f now { db with secrets, secretVersions } = f now db) :
    Stmts C Eq (Tx.read f) (Tx.read f) := by
  intro now db db' h
  have heq : f now db' = f now db := (congrArg (f now) h.others).trans (hf now db _ _)
  rw [Tx.read, Tx.read, heq]
  cases f now db with
  | error e => exact rfl
  | ok a => exact ⟨rfl, h⟩

/-! ## Statements on other tables -/

/-- The statements on projects. -/
theorem elsewhere_projectCreate (name : Str) : Elsewhere (ProjectRepo.create name) := by
  intro now db secrets secretVersions
  simp only [ProjectRepo.create]
  cases insertRow db.projects ⟨db.projects.nextId, name, now, now⟩ <;> rfl

/-- The statements on environments. -/
theorem elsewhere_envCreate (projectID : Int) (name inheritsFrom : Str) :
    Elsewhere (EnvRepo.create projectID name inheritsFrom) := by
  intro now db secrets secretVersions
  simp only [EnvRepo.create]
  cases foreignKey (db.projects.rows.any fun p => p.id = projectID) with
  | error e => rfl
  | ok _ =>
    cases insertRow db.environments
      ⟨db.environments.nextId, projectID, name, inheritsFrom, now, now⟩ <;> rfl

/-- The statements on tokens. -/
theorem elsewhere_tokenBootstrap (name tokenHash : Str) :
    Elsewhere (TokenRepo.bootstrapIfEmpty name tokenHash) := by
  intro now db secrets secretVersions
  simp only [TokenRepo.bootstrapIfEmpty]
  split
  · cases db.serviceTokens.insert
      ⟨db.serviceTokens.nextId, name, tokenHash, true, now, none, none⟩ <;> rfl
  · rfl

/-- See `elsewhere_tokenBootstrap`. -/
theorem elsewhere_tokenCreate (name tokenHash : Str) (isAdmin : Bool) :
    Elsewhere (TokenRepo.create name tokenHash isAdmin) := by
  intro now db secrets secretVersions
  simp only [TokenRepo.create]
  cases insertRow db.serviceTokens
    ⟨db.serviceTokens.nextId, name, tokenHash, isAdmin, now, none, none⟩ <;> rfl

/-- See `elsewhere_tokenBootstrap`. -/
theorem elsewhere_tokenRevoke (id : Int) : Elsewhere (TokenRepo.revoke id) := by
  intro now db secrets secretVersions
  simp only [TokenRepo.revoke]
  split <;> rfl

/-- See `elsewhere_tokenBootstrap`. -/
theorem elsewhere_tokenTouch (id : Int) : Elsewhere (TokenRepo.touchLastUsed id) := by
  intro now db secrets secretVersions
  simp only [TokenRepo.touchLastUsed]
  split <;> rfl

/-- The statements on sessions. -/
theorem elsewhere_sessionCreate (input : SessionRepo.SessionCreateInput) :
    Elsewhere (SessionRepo.create input) := by
  intro now db secrets secretVersions
  simp only [SessionRepo.create]
  change (foreignKey (db.tokenRef (some input.tokenID)) >>= _) = _
  cases foreignKey (db.tokenRef (some input.tokenID)) with
  | error e => rfl
  | ok _ =>
    cases insertRow db.dashboardSessions ⟨db.dashboardSessions.nextId, input.tokenID,
      input.sessionHash, input.csrfHash, input.userAgent, input.ipPrefix, now, now + input.ttl,
      none⟩ <;> rfl

/-- See `elsewhere_sessionCreate`. -/
theorem elsewhere_sessionRevoke (id : Int) : Elsewhere (SessionRepo.revoke id) := by
  intro now db secrets secretVersions
  simp only [SessionRepo.revoke]
  split <;> rfl

/-- See `elsewhere_sessionCreate`. -/
theorem elsewhere_sessionRevokeByID (id tokenID : Int) :
    Elsewhere (SessionRepo.revokeByIDAndTokenID id tokenID) := fun _ _ _ _ => rfl

/-- The statement on the audit log. -/
theorem elsewhere_auditAppend (actorToken : Option Int) (action target metadata : Str) :
    Elsewhere (AuditRepo.append actorToken action target metadata) := by
  intro now db secrets secretVersions
  simp only [AuditRepo.append]
  change (foreignKey (db.tokenRef actorToken) >>= _) = _
  cases foreignKey (db.tokenRef actorToken) with
  | error e => rfl
  | ok _ =>
    cases insertRow db.auditLog
      ⟨db.auditLog.nextId, actorToken, action, target, metadata, now⟩ <;> rfl

/-- The statements on webhooks. -/
theorem elsewhere_webhookCreate (projectID : Int) (envID : Option Int)
    (url events secretCiphertext : Str) :
    Elsewhere (WebhookRepo.create projectID envID url events secretCiphertext) := by
  intro now db secrets secretVersions
  simp only [WebhookRepo.create]
  cases foreignKey (db.projects.rows.any fun p => p.id = projectID) with
  | error e => rfl
  | ok _ =>
    cases foreignKey (envID.all fun id => db.environments.rows.any fun e => e.id = id) with
    | error e => rfl
    | ok _ =>
      cases insertRow db.webhooks ⟨db.webhooks.nextId, projectID, envID, url, secretCiphertext,
        events, true, now, now⟩ <;> rfl

/-- See `elsewhere_webhookCreate`. -/
theorem elsewhere_webhookDelete (id : Int) : Elsewhere fun _ => WebhookRepo.delete id := by
  intro now db secrets secretVersions
  simp only [WebhookRepo.delete]
  split <;> rfl

/-- See `elsewhere_webhookCreate`. -/
theorem elsewhere_webhookEnable (id : Int) (enabled : Bool) :
    Elsewhere (WebhookRepo.setEnabled id enabled) := by
  intro now db secrets secretVersions
  simp only [WebhookRepo.setEnabled]
  split <;> rfl

/-- The statement on the outbox. -/
theorem elsewhere_deliveryEnqueue (webhookID : Int) (event payload : Str) :
    Elsewhere (DeliveryRepo.enqueue webhookID event payload) := by
  intro now db secrets secretVersions
  simp only [DeliveryRepo.enqueue]
  cases foreignKey (db.webhooks.rows.any fun w => w.id = webhookID) with
  | error e => rfl
  | ok _ =>
    cases insertRow db.webhookDeliveries ⟨db.webhookDeliveries.nextId, webhookID, event, payload,
      .pending, 0, now, none, none, [], now, none⟩ <;> rfl

/-! ## Statements on secrets and versions -/

/-- A test of a secret's environment and key does not see its ciphertext. -/
theorem Secret.Twins.hasKey {envID : Int} {key : Str} {s s' : Secret} (h : s.Twins s') :
    (decide (s.envID = envID) && decide (s.key = key)) =
      (decide (s'.envID = envID) && decide (s'.key = key)) := by
  obtain ⟨-, henv, hkey, -⟩ := h.columns
  rw [henv, hkey]

/-- Nor does one that asks for a live secret. -/
theorem Secret.Twins.isLive {envID : Int} {key : Str} {s s' : Secret} (h : s.Twins s') :
    (decide (s.envID = envID) && decide (s.key = key) && decide (s.deletedAt = none)) =
      (decide (s'.envID = envID) && decide (s'.key = key) && decide (s'.deletedAt = none)) := by
  obtain ⟨-, henv, hkey, -, -, -, hdeleted⟩ := h.columns
  rw [henv, hkey, hdeleted]

/-- Secrets that are overwritten at one time. -/
theorem Secret.Twins.overwritten {s s' : Secret} (h : s.Twins s') (ciphertext ciphertext' : Str)
    (now : Int) : (SecretRepo.overwritten ciphertext now s).Twins
      (SecretRepo.overwritten ciphertext' now s') := by
  obtain ⟨hid, henv, hkey, hversion, hcreated, -⟩ := h.columns
  simp [Secret.Twins, Secret.blind, SecretRepo.overwritten, *]

/-- Secrets that are deleted at one time. -/
theorem Secret.Twins.softDeleted {s s' : Secret} (h : s.Twins s') (now : Int) :
    (SecretRepo.softDeleted now s).Twins (SecretRepo.softDeleted now s') := by
  obtain ⟨hid, henv, hkey, hversion, hcreated, -⟩ := h.columns
  simp [Secret.Twins, Secret.blind, SecretRepo.softDeleted, *]

/-- What `Upsert` returns for secrets that differ in their ciphertexts. -/
structure SecretRepo.UpsertResult.Twins (up up' : SecretRepo.UpsertResult) : Prop where
  secret : up.secret.Twins up'.secret
  created : up.created = up'.created

/-- `Upsert` does not look at the ciphertext that it stores. -/
theorem stmts_upsert (envID : Int) (key ciphertext ciphertext' : Str) :
    Stmts C SecretRepo.UpsertResult.Twins (SecretRepo.upsert envID key ciphertext)
      (SecretRepo.upsert envID key ciphertext') := by
  intro now db db' h
  have hsecrets := h.secrets
  have hfind := h.secrets.find? (p := fun s => s.envID = envID && s.key = key)
    fun _ _ hs => hs.hasKey
  rw [h.others]
  simp only [SecretRepo.upsert]
  generalize db.secrets.find? _ = x, db'.secrets.find? _ = y at hfind
  cases hfind with
  | some hs =>
    obtain ⟨-, -, -, hversion, hcreated, -⟩ := hs.columns
    refine ⟨⟨hs.overwritten ciphertext ciphertext' now, ?_⟩,
      hsecrets.update (fun _ _ hs => hs.hasKey) (fun _ _ hs => hs.overwritten _ _ now)
        (fun _ => ⟨rfl, rfl⟩) fun _ => ⟨rfl, rfl⟩, h.versions, rfl⟩
    exact congrArg₂ (fun version createdAt : Int => decide (version + 1 = 1) &&
      decide (createdAt = now)) hversion hcreated
  | none =>
    cases foreignKey (db.environments.rows.any fun e => e.id = envID) with
    | error e => exact rfl
    | ok _ =>
      have hrow : Secret.Twins ⟨db.secrets.nextId, envID, key, ciphertext, 1, now, now, none⟩
          ⟨db'.secrets.nextId, envID, key, ciphertext', 1, now, now, none⟩ := by
        rw [hsecrets.nextId constrained_secret]
        rfl
      have hinsert := hsecrets.insert constrained_secret hrow
      simp only [insertRow]
      generalize db.secrets.insert _ = x, db'.secrets.insert _ = y at hinsert
      cases hinsert with
      | none => exact rfl
      | some ht => exact ⟨⟨hrow, rfl⟩, ht, h.versions, rfl⟩

/-- `Delete` does not look at ciphertexts. -/
theorem stmts_secretDelete (envID : Int) (key : Str) :
    Stmts C Eq (SecretRepo.delete envID key) (SecretRepo.delete envID key) := by
  intro now db db' h
  have hany := h.secrets.any (p := fun s => s.envID = envID && s.key = key && s.deletedAt = none)
    fun _ _ hs => hs.isLive
  rw [SecretRepo.delete, SecretRepo.delete, hany]
  split
  · refine ⟨rfl, h.secrets.update (fun _ _ hs => hs.isLive) (fun _ _ hs => hs.softDeleted now)
      (fun _ => ⟨rfl, rfl⟩) fun _ => ⟨rfl, rfl⟩, h.versions, ?_⟩
    rw [h.others]
  · exact rfl

/-- `ByKey` finds secrets that differ in their ciphertexts. -/
theorem stmts_byKey (envID : Int) (key : Str) : Stmts C Secret.Twins
    (Tx.read fun _ => SecretRepo.byKey envID key)
    (Tx.read fun _ => SecretRepo.byKey envID key) := by
  intro now db db' h
  have hfind := h.secrets.find?
    (p := fun s => s.envID = envID && s.key = key && s.deletedAt = none) fun _ _ hs => hs.isLive
  simp only [Tx.read, SecretRepo.byKey]
  generalize db.secrets.find? _ = x, db'.secrets.find? _ = y at hfind
  cases hfind with
  | none => exact rfl
  | some hs => exact ⟨hs, h⟩

/-- `Create` of a version stores ciphertexts that belong together. -/
theorem stmts_versionCreate (secretID version : Int) {ciphertext ciphertext' : Str}
    (hC : C ciphertext ciphertext') (actorToken : Option Int) :
    Stmts C (SecretVersion.Twins C) (VersionRepo.create secretID version ciphertext actorToken)
      (VersionRepo.create secretID version ciphertext' actorToken) := by
  intro now db db' h
  have hversions := h.versions
  have hany := h.secrets.any (p := fun s => s.id = secretID) fun _ _ hs => by rw [hs.columns.1]
  have htoken : db'.tokenRef actorToken = db.tokenRef actorToken := by
    rw [h.others]
    rfl
  simp only [VersionRepo.create, hany, htoken]
  cases foreignKey (db'.secrets.rows.any fun s => s.id = secretID) with
  | error e => exact rfl
  | ok _ =>
    cases foreignKey (db.tokenRef actorToken) with
    | error e => exact rfl
    | ok _ =>
      have hrow : SecretVersion.Twins C
          ⟨db.secretVersions.nextId, secretID, version, ciphertext, actorToken, now⟩
          ⟨db'.secretVersions.nextId, secretID, version, ciphertext', actorToken, now⟩ := by
        rw [hversions.nextId constrained_version]
        exact ⟨rfl, hC⟩
      have hinsert := hversions.insert constrained_version hrow
      simp only [insertRow]
      generalize db.secretVersions.insert _ = x, db'.secretVersions.insert _ = y at hinsert
      cases hinsert with
      | none => exact rfl
      | some ht =>
        refine ⟨hrow, h.secrets, ht, ?_⟩
        rw [h.others]

/-- `ByVersion` finds versions whose ciphertexts belong together. -/
theorem stmts_byVersion (secretID version : Int) : Stmts C (SecretVersion.Twins C)
    (Tx.read fun _ => VersionRepo.byVersion secretID version)
    (Tx.read fun _ => VersionRepo.byVersion secretID version) := by
  intro now db db' h
  have hfind := h.versions.find? (p := fun v => v.secretID = secretID && v.version = version) (by
    intro v v' hv
    obtain ⟨-, hsecret, hversion, -⟩ := hv.columns
    rw [hsecret, hversion])
  simp only [Tx.read, VersionRepo.byVersion]
  generalize db.secretVersions.find? _ = x, db'.secretVersions.find? _ = y at hfind
  cases hfind with
  | none => exact rfl
  | some hv => exact ⟨hv, h⟩

/-! ## Transactions -/

/-- Connections in the middle of an action at one time, to databases that differ in ciphertexts. -/
structure Session.Twins (C : Str → Str → Prop) (s s' : Session) : Prop where
  moment : s.moment = s'.moment
  ops : s.ops = s'.ops
  db : Store.Twins C s.db s'.db

section

variable {ρ α : Type} {S : ρ → ρ → Prop} {W : α → α → Prop}
  {f f' : Int → Database → Except StoreError (α × Database)}

/-- Reading the clock. -/
theorem paired_clock : Paired (Session.Twins C) S Eq (Tx.clock : Tx ρ Int) Tx.clock := by
  intro s s' hs
  obtain ⟨moment, ops, db⟩ := s
  obtain ⟨moment', ops', db'⟩ := s'
  obtain ⟨rfl, rfl, hdb⟩ := hs
  exact ⟨rfl, rfl, rfl, hdb⟩

/-- Statements that report the same. -/
theorem paired_attempt (h : Stmts C W f f') :
    Paired (Session.Twins C) S (Alike Eq W) (Tx.attempt f : Tx ρ _) (Tx.attempt f') := by
  intro s s' hs
  obtain ⟨moment, ops, db⟩ := s
  obtain ⟨moment', ops', db'⟩ := s'
  obtain ⟨rfl, rfl, hdb⟩ := hs
  have hres := h (moment.now ops) db db' hdb
  simp only [Tx.attempt]
  split
  · exact ⟨rfl, rfl, rfl, hdb⟩
  · cases hx : f (moment.now ops) db <;> cases hy : f' (moment.now ops) db' <;> rw [hx, hy] at hres
    · exact ⟨hres, rfl, rfl, hdb⟩
    · exact hres.elim
    · exact hres.elim
    · exact ⟨hres.1, rfl, rfl, hres.2⟩

/-- Statements that end their bodies when they report an error. -/
theorem paired_stmt (h : Stmts C W f f') {refuse refuse' : StoreError → ρ}
    (hrefuse : ∀ e, S (refuse e) (refuse' e)) :
    Paired (Session.Twins C) S W (Tx.stmt refuse f) (Tx.stmt refuse' f') := by
  refine (paired_attempt h).bind fun x y hxy => ?_
  cases x <;> cases y
  · cases hxy
    exact .throw (hrefuse _)
  · exact hxy.elim
  · exact hxy.elim
  · exact .pure hxy

/-- Transactions whose bodies do the same. -/
theorem paired_transaction {onBegin onCommit : ρ} (hbegin : S onBegin onBegin)
    (hcommit : S onCommit onCommit) {body body' : Tx ρ α}
    (h : Paired (Session.Twins C) S W body body') :
    Prog.Paired (Twins C) S W (transaction onBegin onCommit body)
      (transaction onBegin onCommit body') := by
  refine Prog.paired_act fun o db db' hdb => ?_
  have hres := h ⟨o, 1, db⟩ ⟨o, 1, db'⟩ ⟨rfl, rfl, hdb⟩
  simp only [committed]
  split
  · exact ⟨hbegin, hdb⟩
  · cases hx : body ⟨o, 1, db⟩ <;> cases hy : body' ⟨o, 1, db'⟩ <;> rw [hx, hy] at hres
    · exact ⟨hres, hdb⟩
    · exact hres.elim
    · exact hres.elim
    · obtain ⟨hval, hmoment, hops, hstate⟩ := hres
      simp only [hmoment, hops]
      split
      · exact ⟨hcommit, hdb⟩
      · exact ⟨hval, hstate⟩

/-- Statements outside a transaction. -/
theorem paired_autocommit (h : Stmts C W f f') :
    Prog.Paired (Twins C) S (Alike Eq W) (autocommit f : Prog Database Moment ρ _)
      (autocommit f') := by
  refine Prog.paired_act fun o db db' hdb => ?_
  have hres := paired_attempt (S := S) h ⟨o, 0, db⟩ ⟨o, 0, db'⟩ ⟨rfl, rfl, hdb⟩
  simp only [single]
  cases hx : (Tx.attempt f : Tx ρ _) ⟨o, 0, db⟩ <;>
    cases hy : (Tx.attempt f' : Tx ρ _) ⟨o, 0, db'⟩ <;> rw [hx, hy] at hres
  · exact ⟨hres, hdb⟩
  · exact hres.elim
  · exact hres.elim
  · exact ⟨hres.1, hres.2.db⟩

/-- Statements outside a transaction that end the program when they report an error. -/
theorem paired_autocommitOr (h : Stmts C W f f') {refuse : StoreError → ρ}
    (hrefuse : ∀ e, S (refuse e) (refuse e)) :
    Prog.Paired (Twins C) S W (autocommitOr refuse f) (autocommitOr refuse f') := by
  refine (paired_autocommit h).bind fun x y hxy => ?_
  cases x <;> cases y
  · cases hxy
    exact .exit (hrefuse _)
  · exact hxy.elim
  · exact hxy.elim
  · exact .ret hxy

end

end Comax.Store
