import Comax.Server.Router

/-!
# Rules for handlers

A handler is put together from checks, single statements and transactions, and a
transaction from statements. A property that holds of the parts of that kind, and of a
sequence when it holds of its parts, holds of the handler: the handlers are taken apart
here once, for every such property.
-/

namespace Comax.Server

open Comax.Core Comax.Store

/-- An event list as `normalizeWebhookEvents` stores it. -/
def Normalized (events : Str) : Prop :=
  ∃ (srv : Server) (requested : List Str), srv.normalizeWebhookEvents requested = .ok events

/-- A statement as a change of the database. -/
abbrev Stmt (α : Type) := Int → Database → Except StoreError (α × Database)

/-- A property of handlers that carries over from statements outside transactions. -/
structure Rules (P : ∀ {α : Type}, Handler α → Prop) (St : ∀ {α : Type}, Stmt α → Prop) :
    Prop where
  ret : ∀ {α : Type} (a : α), P (.ret a)
  exit : ∀ {α : Type} (resp : Response), P (.exit resp : Handler α)
  bind : ∀ {α β : Type} {p : Handler α} {f : α → Handler β}, P p → (∀ a, P (f a)) → P (p >>= f)
  autocommit : ∀ {α : Type} {f : Stmt α}, St f → P (autocommit f)
  /-- Lookups that see neither secrets nor versions. -/
  read : ∀ {α : Type} {f : Int → Database → Except StoreError α},
    (∀ now db secrets secretVersions, f now { db with secrets, secretVersions } = f now db) →
      St (Tx.read f)

/-- A property `P` of handlers that carries over from transactions, and one `M` of their bodies that
carries over from statements. -/
structure TxRules (P : ∀ {α : Type}, Handler α → Prop) (M : ∀ {α : Type}, Tx Response α → Prop)
    (St : ∀ {α : Type}, Stmt α → Prop) : Prop extends Rules P St where
  transaction : ∀ {α : Type} {onBegin onCommit : Response} {body : Tx Response α},
    M body → P (Store.transaction onBegin onCommit body)
  pure : ∀ {α : Type} (a : α), M (Pure.pure a)
  throw : ∀ {α : Type} (resp : Response), M (MonadExcept.throw resp : Tx Response α)
  seq : ∀ {α β : Type} {m : Tx Response α} {f : α → Tx Response β}, M m → (∀ a, M (f a)) →
    M (m >>= f)
  clock : M Tx.clock
  attempt : ∀ {α : Type} {f : Stmt α}, St f → M (Tx.attempt f)

/-- Such properties that the statements on other tables than those of secrets and tokens have. -/
structure OrdinaryRules (P : ∀ {α : Type}, Handler α → Prop)
    (M : ∀ {α : Type}, Tx Response α → Prop) (St : ∀ {α : Type}, Stmt α → Prop) : Prop
    extends TxRules P M St where
  audit : ∀ actor action target metadata, St (AuditRepo.append actor action target metadata)
  projectCreate : ∀ name, St (ProjectRepo.create name)
  envCreate : ∀ p name inheritsFrom, St (EnvRepo.create p name inheritsFrom)
  sessionCreate : ∀ input, St (SessionRepo.create input)
  sessionRevoke : ∀ id, St (SessionRepo.revoke id)
  sessionRevokeByID : ∀ id tokenID, St (SessionRepo.revokeByIDAndTokenID id tokenID)
  webhookCreate : ∀ p e url events ct, Normalized events →
    St (WebhookRepo.create p e url events ct)
  webhookEnable : ∀ id enabled, St (WebhookRepo.setEnabled id enabled)
  webhookDelete : ∀ id, St fun _ => WebhookRepo.delete id

/-- The routes of the handlers that write tokens. -/
def Route.managesTokens : Route → Bool
  | .bootstrap | .createToken | .revokeToken _ => true
  | _ => false

/-- The routes of the handlers that write secrets. -/
def Route.writesSecret : Route → Bool
  | .putSecret _ _ _ | .deleteSecret _ _ _ | .rollbackSecret _ _ _ => true
  | _ => false

variable {P : ∀ {α : Type}, Handler α → Prop} {M : ∀ {α : Type}, Tx Response α → Prop}
  {St : ∀ {α : Type}, Stmt α → Prop} {α β : Type} {srv : Server} {actor : Option ServiceToken}
  {rq : Request}

/-! ## Authentication and paths -/

namespace Rules

variable (h : Rules P St)
include h

/-- What follows a computation without actions follows its success. -/
theorem lift_bind {m : Except Response α} {f : α → Handler β} (hf : ∀ a, m = .ok a → P (f a)) :
    P (Prog.lift m >>= f) := by
  cases m with
  | ok a => exact hf a rfl
  | error resp => exact h.exit resp

/-- See `lift_bind`. -/
theorem check_bind {m : Except Failure α} {f : α → Handler β} (hf : ∀ a, m = .ok a → P (f a)) :
    P (check m >>= f) := by
  refine h.lift_bind fun a ha => ?_
  cases m with
  | ok b =>
    cases ha
    exact hf a rfl
  | error e => cases ha

/-- See `lift_bind`. -/
theorem need_bind {refuse : Response} {o : Option α} {f : α → Handler β} (hf : ∀ a, P (f a)) :
    P (need refuse o >>= f) :=
  h.lift_bind fun a _ => hf a

/-- A lookup that ends the handler when it misses. -/
theorem lookup {refuse : StoreError → Response} {f : Int → Database → Except StoreError α}
    (hf : ∀ now db secrets secretVersions,
      f now { db with secrets, secretVersions } = f now db) :
    P (autocommitOr refuse (Tx.read f)) := by
  apply h.bind (h.autocommit (h.read hf))
  intro r
  cases r with
  | ok a => exact h.ret a
  | error e => exact h.exit _

/-- Verifying a token is a lookup. -/
theorem verify (plaintext : Str) : P (srv.verify plaintext) := by
  unfold Server.verify
  split
  · exact h.ret _
  · apply h.bind (h.autocommit (h.read fun _ _ _ _ => rfl))
    intro r
    split
    · exact h.ret _
    · exact h.ret _
    · split <;> exact h.ret _

/-- The session arm looks up a session and its token. -/
theorem authSession : P (srv.authSession rq) := by
  unfold Server.authSession
  apply h.bind (h.lookup fun _ _ _ _ => rfl)
  intro sess
  split
  · exact h.exit _
  · apply h.bind (h.lookup fun _ _ _ _ => rfl)
    intro tok
    split
    · exact h.ret _
    · exact h.exit _

/-- Authentication consists of lookups and the bump of `last_used_at`. -/
theorem authMiddleware (htouch : ∀ id, St (TokenRepo.touchLastUsed id)) :
    P (srv.authMiddleware rq) := by
  have hbearer : P (srv.authBearer rq.authorization) := by
    apply h.check_bind
    intro plain _
    apply h.bind (h.verify plain)
    intro r
    apply h.check_bind
    intro tok _
    exact h.bind (h.autocommit (htouch tok.id)) fun _ => h.ret _
  unfold Server.authMiddleware
  split
  · exact h.ret _
  · split
    · exact h.bind hbearer fun _ => h.ret _
    · split
      · exact h.bind h.authSession fun _ => h.ret _
      · exact h.exit _

/-- Only an admin goes on. -/
theorem requireAdmin : P (requireAdmin actor) := by
  unfold Server.requireAdmin
  split
  · exact h.exit _
  · split
    · exact h.ret _
    · exact h.exit _

/-- The project of a path. -/
theorem resolveProject (p : Str) : P (srv.resolveProject p) :=
  h.check_bind fun _ _ => h.lookup fun _ _ _ _ => rfl

/-- The environment of a path. -/
theorem resolveEnv (p e : Str) : P (srv.resolveEnv p e) := by
  apply h.bind (h.resolveProject p)
  intro project
  apply h.check_bind
  intro _ _
  exact h.bind (h.lookup fun _ _ _ _ => rfl) fun _ => h.ret _

/-- The optional environment of a webhook. -/
theorem webhookEnv (projectID : Int) (env : Str) : P (srv.webhookEnv projectID env) := by
  unfold Server.webhookEnv
  split
  · exact h.ret _
  · apply h.check_bind
    intro _ _
    exact h.bind (h.lookup fun _ _ _ _ => rfl) fun _ => h.ret _

end Rules

/-! ## Transactions -/

namespace TxRules

variable (h : TxRules P M St)
include h

/-- A statement that ends its body when it reports an error. -/
theorem stmt {refuse : StoreError → Response} {f : Stmt α} (hf : St f) : M (Tx.stmt refuse f) := by
  apply h.seq (h.attempt hf)
  intro r
  cases r with
  | ok a => exact h.pure a
  | error e => exact h.throw _

section

variable (haudit : ∀ actor action target metadata,
    St (AuditRepo.append actor action target metadata))
  (henqueue : ∀ id event payload, St (DeliveryRepo.enqueue id event payload))

include haudit in
theorem appendAudit (refuse : Response) (action target : Str) :
    M (appendAudit refuse actor action target) :=
  h.seq (h.stmt (haudit _ _ _ _)) fun _ => h.pure _

include haudit in
theorem appendAuditForToken (tokenID : Int) (action target : Str) :
    M (appendAuditForToken tokenID action target) :=
  h.seq (h.stmt (haudit _ _ _ _)) fun _ => h.pure _

include henqueue in
/-- The deliveries of a changed secret. -/
theorem enqueueEach (event payload : Str) (hooks : List Webhook) :
    M (enqueueEach event payload hooks) := by
  induction hooks with
  | nil => exact h.pure _
  | cons hook hooks ih => exact h.seq (h.stmt (henqueue _ _ _)) fun _ => ih

include haudit henqueue

/-- The audit entry and the deliveries of a changed secret are statements of two kinds. -/
theorem announce (p : Project) (e : Environment) (key event : Str) (version : Int)
    (target : Str) : M (announce actor p e key event version target) := by
  apply h.seq (h.appendAudit haudit _ _ _)
  intro _
  apply h.seq h.clock
  intro now
  apply h.seq (h.stmt (h.read fun _ _ _ _ => rfl))
  intro hooks
  exact h.enqueueEach henqueue _ _ _

/-- A soft delete and what follows it. -/
theorem dropSecret (hdelete : ∀ e key, St (SecretRepo.delete e key)) (p : Project)
    (e : Environment) (key : Str) : M (dropSecret actor p e key) :=
  h.seq (h.stmt (hdelete _ _)) fun _ => h.announce haudit henqueue _ _ _ _ _ _

end

end TxRules

/-! ## Handlers -/

namespace OrdinaryRules

variable (h : OrdinaryRules P M St)
include h

theorem handleCreateDashboardSession : P (srv.handleCreateDashboardSession rq) := by
  apply h.need_bind
  intro token
  apply h.bind (h.verify token)
  intro r
  apply h.check_bind
  intro tok _
  apply h.need_bind
  intro sessionPlain
  apply h.need_bind
  intro csrfPlain
  refine h.bind (h.transaction ?_) fun _ => h.ret _
  apply h.seq (h.stmt (h.sessionCreate _))
  intro sess
  exact h.seq (h.appendAuditForToken h.audit _ _ _) fun _ => h.pure _

theorem handleRevokeDashboardSession : P (srv.handleRevokeDashboardSession rq) := by
  unfold Server.handleRevokeDashboardSession
  split
  · exact h.ret _
  · refine h.bind (h.transaction ?_) fun _ => h.ret _
    apply h.seq (h.stmt (h.read fun _ _ _ _ => rfl))
    intro sess
    apply h.seq (h.attempt (h.sessionRevoke _))
    intro r
    split
    · exact h.appendAuditForToken h.audit _ _ _
    · exact h.appendAuditForToken h.audit _ _ _
    · exact h.throw _

theorem handleRevokeDashboardSessionByID (id : Str) :
    P (handleRevokeDashboardSessionByID actor id) := by
  apply h.need_bind
  intro actor
  apply h.need_bind
  intro targetID
  refine h.bind (h.transaction ?_) fun _ => h.ret _
  apply h.seq (h.stmt (h.sessionRevokeByID _ _))
  intro n
  split
  · exact h.appendAuditForToken h.audit _ _ _
  · exact h.pure _

theorem handleCreateProject : P (srv.handleCreateProject actor rq) := by
  apply h.need_bind
  intro name
  apply h.check_bind
  intro _ _
  refine h.bind (h.transaction ?_) fun _ => h.ret _
  apply h.seq (h.stmt (h.projectCreate _))
  intro p
  exact h.seq (h.appendAudit h.audit _ _ _) fun _ => h.pure _

theorem handleCreateEnv (p : Str) : P (srv.handleCreateEnv actor rq p) := by
  apply h.bind (h.resolveProject p)
  intro project
  apply h.need_bind
  intro body
  apply h.check_bind
  intro _ _
  apply h.check_bind
  intro _ _
  refine h.bind (h.transaction ?_) fun _ => h.ret _
  apply h.seq (h.stmt (h.envCreate _ _ _))
  intro e
  exact h.seq (h.appendAudit h.audit _ _ _) fun _ => h.pure _

theorem handleCreateWebhook : P (srv.handleCreateWebhook actor rq) := by
  apply h.bind h.requireAdmin
  intro _
  apply h.need_bind
  intro body
  apply h.bind (h.resolveProject _)
  intro proj
  apply h.bind (h.webhookEnv _ _)
  intro env
  apply h.lift_bind
  intro _ _
  apply h.check_bind
  intro events hevents
  apply h.need_bind
  intro signingSecret
  apply h.need_bind
  intro master
  apply h.need_bind
  intro sealed
  refine h.bind (h.transaction ?_) fun _ => h.ret _
  apply h.seq (h.stmt (h.webhookCreate _ _ _ _ _ ⟨srv, _, hevents⟩))
  intro hook
  exact h.seq (h.appendAudit h.audit _ _ _) fun _ => h.pure _

theorem handleDeleteWebhook (id : Str) : P (handleDeleteWebhook actor id) := by
  apply h.bind h.requireAdmin
  intro _
  apply h.need_bind
  intro id
  refine h.bind (h.transaction ?_) fun _ => h.ret _
  exact h.seq (h.stmt (h.webhookDelete _)) fun _ => h.appendAudit h.audit _ _ _

theorem handleSetWebhookEnabled (id : Str) : P (handleSetWebhookEnabled actor rq id) := by
  apply h.bind h.requireAdmin
  intro _
  apply h.need_bind
  intro id
  apply h.need_bind
  intro body
  apply h.need_bind
  intro enabled
  refine h.bind (h.transaction ?_) fun _ => h.ret _
  exact h.seq (h.stmt (h.webhookEnable _ _)) fun _ => h.appendAudit h.audit _ _ _

/-- The handlers that write neither a secret nor a token. -/
theorem handle {route : Route} (htokens : route.managesTokens = false)
    (hsecret : route.writesSecret = false) : P (srv.handle actor rq route) := by
  cases route with
  | bootstrap | createToken | revokeToken => cases htokens
  | putSecret | deleteSecret | rollbackSecret => cases hsecret
  | createSession => exact h.handleCreateDashboardSession
  | revokeSession => exact h.handleRevokeDashboardSession
  | revokeSessionByID id => exact h.handleRevokeDashboardSessionByID id
  | createProject => exact h.handleCreateProject
  | createWebhook => exact h.handleCreateWebhook
  | setWebhookEnabled id => exact h.handleSetWebhookEnabled id
  | deleteWebhook id => exact h.handleDeleteWebhook id
  | createEnv p => exact h.handleCreateEnv p
  | other => exact h.ret _

section

variable (hbootstrap : ∀ name hash, St (TokenRepo.bootstrapIfEmpty name hash))
  (hcreate : ∀ name hash isAdmin, St (TokenRepo.create name hash isAdmin))
  (hrevoke : ∀ id, St (TokenRepo.revoke id))

include hbootstrap in
theorem handleBootstrap : P (srv.handleBootstrap rq) := by
  apply h.need_bind
  intro plain
  refine h.bind (h.transaction ?_) fun _ => h.ret _
  apply h.seq (h.stmt (hbootstrap _ _))
  intro r
  cases r with
  | none => exact h.throw _
  | some tok => exact h.seq (h.stmt (h.audit _ _ _ _)) fun _ => h.pure _

include hcreate in
theorem handleCreateToken : P (srv.handleCreateToken actor rq) := by
  apply h.bind h.requireAdmin
  intro _
  apply h.need_bind
  intro name
  apply h.check_bind
  intro _ _
  apply h.need_bind
  intro plain
  refine h.bind (h.transaction ?_) fun _ => h.ret _
  apply h.seq (h.stmt (hcreate _ _ _))
  intro tok
  exact h.seq (h.appendAudit h.audit _ _ _) fun _ => h.pure _

include hrevoke in
theorem handleRevokeToken (id : Str) : P (handleRevokeToken actor id) := by
  apply h.bind h.requireAdmin
  intro _
  apply h.need_bind
  intro targetID
  refine h.bind (h.transaction ?_) fun _ => h.ret _
  have hrest : M (do
      let _ ← Tx.stmt storeError (TokenRepo.revoke targetID)
      Server.appendAudit (internal "audit failed") actor (ascii "auth.token.revoke")
        (ascii "token_id=" ++ formatInt targetID)) :=
    h.seq (h.stmt (hrevoke _)) fun _ => h.appendAudit h.audit _ _ _
  apply h.seq (h.stmt (h.read fun _ _ _ _ => rfl))
  intro target
  split
  · apply h.seq (h.stmt (h.read fun _ _ _ _ => rfl))
    intro liveAdmins
    split
    · exact h.seq (h.throw _) fun _ => hrest
    · exact hrest
  · exact hrest

include hbootstrap hcreate hrevoke in
/-- The handlers that write no secret. -/
theorem handle_tokens {route : Route} (hsecret : route.writesSecret = false) :
    P (srv.handle actor rq route) := by
  cases htokens : route.managesTokens with
  | false => exact h.handle htokens hsecret
  | true =>
    cases route with
    | bootstrap => exact h.handleBootstrap hbootstrap
    | createToken => exact h.handleCreateToken hcreate
    | revokeToken id => exact h.handleRevokeToken hrevoke id
    | _ => cases htokens

end

end OrdinaryRules

end Comax.Server
