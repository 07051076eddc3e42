import Comax.Server.Rules

/-!
# What the handlers do to the database

A relation between databases that is a preorder, and that every statement of the
repositories keeps, is kept by every action of every handler. The statements are
listed in two groups, since most handlers never touch a secret.
-/

namespace Comax.Server

open Comax.Core Comax.Store

/-- A preorder that the statements on other tables than those of the secrets and tokens keep. -/
structure Ordinary (R : Database → Database → Prop) : Prop where
  refl : ∀ db, R db db
  trans : ∀ x y z, R x y → R y z → R x z
  audit : ∀ actor action target metadata,
    Tx.Respects R (AuditRepo.append actor action target metadata)
  projectCreate : ∀ name, Tx.Respects R (ProjectRepo.create name)
  envCreate : ∀ p name inheritsFrom, Tx.Respects R (EnvRepo.create p name inheritsFrom)
  sessionCreate : ∀ input, Tx.Respects R (SessionRepo.create input)
  sessionRevoke : ∀ id, Tx.Respects R (SessionRepo.revoke id)
  sessionRevokeByID : ∀ id tokenID, Tx.Respects R (SessionRepo.revokeByIDAndTokenID id tokenID)
  webhookCreate : ∀ p e url events ct, Normalized events →
    Tx.Respects R (WebhookRepo.create p e url events ct)
  webhookEnable : ∀ id enabled, Tx.Respects R (WebhookRepo.setEnabled id enabled)
  webhookDelete : ∀ id, Tx.Respects R fun _ => WebhookRepo.delete id

/-- A preorder that any change of the projects, environments, sessions and the audit log keeps, and
the statements on the webhooks, is kept by all those statements. -/
theorem Ordinary.of_changes {R : Database → Database → Prop} (hrefl : ∀ db, R db db)
    (htrans : ∀ x y z, R x y → R y z → R x z)
    (hprojects : ∀ db projects, R db { db with projects })
    (henvironments : ∀ db environments, R db { db with environments })
    (hsessions : ∀ db dashboardSessions, R db { db with dashboardSessions })
    (haudit : ∀ db auditLog, R db { db with auditLog })
    (hcreate : ∀ p e url events ct, Normalized events →
      Tx.Respects R (WebhookRepo.create p e url events ct))
    (henable : ∀ id enabled, Tx.Respects R (WebhookRepo.setEnabled id enabled))
    (hdelete : ∀ id, Tx.Respects R fun _ => WebhookRepo.delete id) : Ordinary R where
  refl := hrefl
  trans := htrans
  audit actor action target metadata now db e db' hstmt := by
    obtain ⟨-, t, -, rfl⟩ := AuditRepo.append_eq_ok hstmt
    exact haudit db t
  projectCreate name now db p db' hstmt := by
    obtain ⟨-, t, -, rfl⟩ := ProjectRepo.create_eq_ok hstmt
    exact hprojects db t
  envCreate p name inheritsFrom now db e db' hstmt := by
    obtain ⟨-, t, -, rfl⟩ := EnvRepo.create_eq_ok hstmt
    exact henvironments db t
  sessionCreate input now db s db' hstmt := by
    obtain ⟨-, t, -, rfl⟩ := SessionRepo.create_eq_ok hstmt
    exact hsessions db t
  sessionRevoke id now db u db' hstmt := by
    rw [SessionRepo.revoke_eq_ok hstmt]
    exact hsessions db _
  sessionRevokeByID id tokenID now db n db' hstmt := by
    cases hstmt
    exact hsessions db _
  webhookCreate := hcreate
  webhookEnable := henable
  webhookDelete := hdelete

/-- The tables of the secrets and of the tokens stay as they are. -/
structure Untouched (db db' : Database) : Prop where
  secrets : db'.secrets = db.secrets
  secretVersions : db'.secretVersions = db.secretVersions
  serviceTokens : db'.serviceTokens = db.serviceTokens

/-- A preorder of those tables alone is kept by the statements on the others. -/
theorem Ordinary.of_untouched {R : Database → Database → Prop}
    (htrans : ∀ x y z, R x y → R y z → R x z) (h : ∀ db db', Untouched db db' → R db db') :
    Ordinary R := by
  refine .of_changes (fun db => h db db ⟨rfl, rfl, rfl⟩) htrans (fun _ _ => h _ _ ⟨rfl, rfl, rfl⟩)
    (fun _ _ => h _ _ ⟨rfl, rfl, rfl⟩) (fun _ _ => h _ _ ⟨rfl, rfl, rfl⟩)
    (fun _ _ => h _ _ ⟨rfl, rfl, rfl⟩) ?_ ?_ ?_
  · intro p e url events ct _ now db w db' hstmt
    obtain ⟨-, t, -, rfl⟩ := WebhookRepo.create_eq_ok hstmt
    exact h _ _ ⟨rfl, rfl, rfl⟩
  · intro id enabled now db u db' hstmt
    rw [WebhookRepo.setEnabled_eq_ok hstmt]
    exact h _ _ ⟨rfl, rfl, rfl⟩
  · intro id now db u db' hstmt
    rw [WebhookRepo.delete_eq_ok hstmt]
    exact h _ _ ⟨rfl, rfl, rfl⟩

/-- A preorder that the statements on other tables than those of the secrets keep. -/
structure Background (R : Database → Database → Prop) : Prop extends Ordinary R where
  tokenBootstrap : ∀ name hash, Tx.Respects R (TokenRepo.bootstrapIfEmpty name hash)
  tokenCreate : ∀ name hash isAdmin, Tx.Respects R (TokenRepo.create name hash isAdmin)
  tokenRevoke : ∀ id, Tx.Respects R (TokenRepo.revoke id)
  tokenTouch : ∀ id, Tx.Respects R (TokenRepo.touchLastUsed id)

/-- Such a preorder that any change of the tokens keeps is kept by their statements. -/
theorem Ordinary.background {R : Database → Database → Prop} (h : Ordinary R)
    (htokens : ∀ db serviceTokens, R db { db with serviceTokens }) : Background R where
  toOrdinary := h
  tokenBootstrap name hash now db r db' hstmt := by
    rcases TokenRepo.bootstrapIfEmpty_eq_ok hstmt with ⟨-, rfl⟩ | ⟨-, t, -, -, rfl⟩
    · exact h.refl _
    · exact htokens db t
  tokenCreate name hash isAdmin now db t db' hstmt := by
    obtain ⟨-, ts, -, rfl⟩ := TokenRepo.create_eq_ok hstmt
    exact htokens db ts
  tokenRevoke id now db u db' hstmt := by
    rw [TokenRepo.revoke_eq_ok hstmt]
    exact htokens db _
  tokenTouch id now db u db' hstmt := by
    rw [TokenRepo.touchLastUsed_eq_ok hstmt]
    exact htokens db _

/-- A preorder that the statements on other tables than that of the tokens keep. -/
structure Writes (R : Database → Database → Prop) : Prop extends Ordinary R where
  secretUpsert : ∀ e key ct, Tx.Respects R (SecretRepo.upsert e key ct)
  secretDelete : ∀ e key, Tx.Respects R (SecretRepo.delete e key)
  versionCreate : ∀ id version ct actor, Tx.Respects R (VersionRepo.create id version ct actor)
  deliveryEnqueue : ∀ id event payload, Tx.Respects R (DeliveryRepo.enqueue id event payload)

/-- Such a preorder that any change of the secrets, versions and deliveries keeps is kept by their
statements. -/
theorem Ordinary.writes {R : Database → Database → Prop} (h : Ordinary R)
    (hsecrets : ∀ db secrets, R db { db with secrets })
    (hversions : ∀ db secretVersions, R db { db with secretVersions })
    (hdeliveries : ∀ db webhookDeliveries, R db { db with webhookDeliveries }) : Writes R where
  toOrdinary := h
  secretUpsert e key ct now db up db' hstmt := by
    rcases SecretRepo.upsert_eq_ok hstmt with ⟨_, -, -, -, rfl⟩ | ⟨-, -, t, -, rfl⟩
    · exact hsecrets db _
    · exact hsecrets db t
  secretDelete e key now db u db' hstmt := by
    rw [(SecretRepo.delete_eq_ok hstmt).2]
    exact hsecrets db _
  versionCreate id version ct actor now db v db' hstmt := by
    obtain ⟨-, t, -, rfl⟩ := VersionRepo.create_eq_ok hstmt
    exact hversions db t
  deliveryEnqueue id event payload now db d db' hstmt := by
    obtain ⟨-, t, -, rfl⟩ := DeliveryRepo.enqueue_eq_ok hstmt
    exact hdeliveries db t

/-- A preorder that every statement of the handlers keeps. -/
structure Statements (R : Database → Database → Prop) : Prop extends Background R, Writes R

variable {R : Database → Database → Prop} {srv : Server} {actor : Option ServiceToken}
  {rq : Request}

/-- What every action of a handler keeps follows from its statements. -/
theorem everyRules (hrefl : ∀ db, R db db) :
    Rules (fun p => p.Every R) fun f => Tx.Respects R f where
  ret _ := trivial
  exit _ := trivial
  bind hp hf := hp.bind hf
  autocommit hf := every_autocommit hrefl hf
  read _ := Tx.respects_read hrefl _

/-- So does what every statement of a transaction keeps. -/
theorem everyTxRules (hrefl : ∀ db, R db db) (htrans : ∀ x y z, R x y → R y z → R x z) :
    TxRules (fun p => p.Every R) (fun m => Tx.Keeps R m) fun f => Tx.Respects R f where
  toRules := everyRules hrefl
  transaction hbody := every_transaction hrefl fun o db => hbody ⟨o, 1, db⟩
  pure a := Tx.keeps_pure hrefl a
  throw resp := Tx.keeps_throw resp
  seq hm hf := hm.bind htrans hf
  clock := Tx.keeps_clock hrefl
  attempt hf := Tx.keeps_attempt hrefl hf

/-- The handlers of other resources than secrets and tokens keep such a preorder. -/
theorem Ordinary.rules (h : Ordinary R) :
    OrdinaryRules (fun p => p.Every R) (fun m => Tx.Keeps R m) fun f => Tx.Respects R f where
  toTxRules := everyTxRules h.refl h.trans
  audit := h.audit
  projectCreate := h.projectCreate
  envCreate := h.envCreate
  sessionCreate := h.sessionCreate
  sessionRevoke := h.sessionRevoke
  sessionRevokeByID := h.sessionRevokeByID
  webhookCreate := h.webhookCreate
  webhookEnable := h.webhookEnable
  webhookDelete := h.webhookDelete

@[simp] theorem every_check {α : Type} (m : Except Failure α) : (check m).Every R :=
  Prog.every_lift _

@[simp] theorem every_need {α : Type} (refuse : Response) (o : Option α) :
    (need refuse o).Every R :=
  Prog.every_lift _

section

variable (hrefl : ∀ db, R db db)
include hrefl

/-- Authentication changes nothing but `last_used_at`. -/
theorem every_authMiddleware (htouch : ∀ id, Tx.Respects R (TokenRepo.touchLastUsed id))
    (srv : Server) (rq : Request) : (srv.authMiddleware rq).Every R :=
  (everyRules hrefl).authMiddleware htouch

theorem every_resolveEnv (p e : Str) : (srv.resolveEnv p e).Every R :=
  (everyRules hrefl).resolveEnv p e

/-- The actions of a secret handler before its transaction read. -/
theorem every_handlePutSecret {p e k : Str}
    (hput : ∀ project env ct, (transaction internalError (internal "commit failed")
      (putVersion actor project env k ct)).Every R) :
    (srv.handlePutSecret actor rq p e k).Every R := by
  apply (every_resolveEnv hrefl p e).bind
  intro pe
  apply (every_check _).bind
  intro _
  apply (every_need _ _).bind
  intro value
  apply (every_need _ _).bind
  intro master
  apply (every_need _ _).bind
  intro ct
  exact (hput _ _ _).bind fun _ => trivial

/-- See `every_handlePutSecret`. -/
theorem every_handleRollbackSecret {p e k : Str}
    (hrestore : ∀ project env current target version,
      (transaction internalError (internal "commit failed")
        (restoreVersion actor project env k current target version)).Every R) :
    (srv.handleRollbackSecret actor rq p e k).Every R := by
  apply (every_resolveEnv hrefl p e).bind
  intro pe
  apply (every_check _).bind
  intro _
  apply (every_need _ _).bind
  intro targetVersion
  split
  · trivial
  · apply (every_lookup hrefl).bind
    intro current
    split
    · trivial
    · apply (every_lookup hrefl).bind
      intro target
      apply (every_need _ _).bind
      intro master
      apply (every_need _ _).bind
      intro plain
      exact (hrestore _ _ _ _ _).bind fun _ => trivial

/-- See `every_handlePutSecret`. -/
theorem every_handleDeleteSecret {p e k : Str}
    (hdrop : ∀ project env, (transaction internalError (internal "commit failed")
      (dropSecret actor project env k)).Every R) :
    (srv.handleDeleteSecret actor p e k).Every R := by
  apply (every_resolveEnv hrefl p e).bind
  intro pe
  apply (every_check _).bind
  intro _
  exact (hdrop _ _).bind fun _ => trivial

/-- A relation kept by `last_used_at` and by the handler of a request is kept by the request. -/
theorem every_serve (htouch : ∀ id, Tx.Respects R (TokenRepo.touchLastUsed id))
    (hhandle : ∀ actor, (srv.handle actor rq rq.route).Every R) : (srv.serve rq).Every R :=
  (every_authMiddleware hrefl htouch srv rq).bind hhandle

end

namespace Background

variable (h : Background R)
include h

/-- What the statements on other tables keep, and the transactions of the secret handlers imply,
holds for every request. -/
theorem serve {R' : Database → Database → Prop} (hle : ∀ db db', R db db' → R' db db')
    (hput : ∀ actor project env key ct, (Store.transaction internalError (internal "commit failed")
      (putVersion actor project env key ct)).Every R')
    (hrestore : ∀ actor project env key current target version,
      (Store.transaction internalError (internal "commit failed")
        (restoreVersion actor project env key current target version)).Every R')
    (hdrop : ∀ actor project env key, (Store.transaction internalError (internal "commit failed")
      (dropSecret actor project env key)).Every R') (rq : Request) : (srv.serve rq).Every R' := by
  have hrefl : ∀ db, R' db db := fun db => hle db db (h.refl db)
  apply every_serve hrefl fun id now db u db' hu => hle db db' (h.tokenTouch id now db u db' hu)
  intro actor
  have hother : ∀ {route : Route}, route.writesSecret = false →
      (srv.handle actor rq route).Every R' := fun hroute =>
    (h.rules.handle_tokens h.tokenBootstrap h.tokenCreate h.tokenRevoke hroute).mono hle
  cases rq.route with
  | putSecret p e k => exact every_handlePutSecret hrefl (hput _ · · _ ·)
  | deleteSecret p e k => exact every_handleDeleteSecret hrefl (hdrop _ · · _)
  | rollbackSecret p e k => exact every_handleRollbackSecret hrefl (hrestore _ · · _ · · ·)
  | _ => exact hother rfl

end Background

namespace Writes

variable (h : Writes R)
include h

theorem appendAudit (refuse : Response) (action target : Str) :
    Tx.Keeps R (appendAudit refuse actor action target) :=
  h.rules.appendAudit h.audit refuse action target

theorem writeVersion (p : Project) (e : Environment) (key ciphertext event : Str)
    (target : Secret → Str) :
    Tx.Keeps R (writeVersion actor p e key ciphertext event target) := by
  apply (Tx.keeps_stmt (h.secretUpsert _ _ _)).bind h.trans
  intro up
  apply (Tx.keeps_stmt (h.versionCreate _ _ _ _)).bind h.trans
  intro _
  exact (h.rules.announce h.audit h.deliveryEnqueue _ _ _ _ _ _).bind h.trans
    fun _ => Tx.keeps_pure h.refl _

theorem dropSecret (p : Project) (e : Environment) (key : Str) :
    Tx.Keeps R (dropSecret actor p e key) :=
  h.rules.dropSecret h.audit h.deliveryEnqueue h.secretDelete p e key

/-- A relation that every statement on another table keeps is kept by the handlers that write no
token. -/
theorem handle {route : Route} (hroute : route.managesTokens = false) :
    (srv.handle actor rq route).Every R := by
  have hwrite : ∀ project env key ct event target,
      (Store.transaction internalError (internal "commit failed")
        (Server.writeVersion actor project env key ct event target)).Every R :=
    fun _ _ _ _ _ _ => h.rules.transaction (h.writeVersion _ _ _ _ _ _)
  cases route with
  | putSecret p e k => exact every_handlePutSecret h.refl fun _ _ _ => hwrite _ _ _ _ _ _
  | deleteSecret p e k =>
    exact every_handleDeleteSecret h.refl fun _ _ => h.rules.transaction (h.dropSecret _ _ _)
  | rollbackSecret p e k =>
    exact every_handleRollbackSecret h.refl fun _ _ _ _ _ => hwrite _ _ _ _ _ _
  | _ => exact h.rules.handle hroute rfl

end Writes

/-- A relation that every statement keeps is kept by every request. -/
theorem Statements.serve (h : Statements R) (rq : Request) : (srv.serve rq).Every R :=
  h.toBackground.serve (fun _ _ hR => hR)
    (fun _ _ _ _ _ => h.rules.transaction (h.toWrites.writeVersion _ _ _ _ _ _))
    (fun _ _ _ _ _ _ _ => h.rules.transaction (h.toWrites.writeVersion _ _ _ _ _ _))
    (fun _ _ _ _ => h.rules.transaction (h.toWrites.dropSecret _ _ _)) rq

end Comax.Server
