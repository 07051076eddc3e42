import Comax.Server.Auth
import Comax.Store.Deliveries
import Comax.Webhook.Payload

/-!
# The handlers that write

Each handler reads what it needs with single statements, does its work in one
transaction and answers. Every transaction appends an audit entry, and one that
changes a secret also enqueues the deliveries of the matching webhooks.
-/

namespace Comax.Server

open Comax.Core Comax.Store Comax.Webhook

/-- The text that most internal errors carry. -/
def internalError : Response := internal "internal server error"

/-- `appendAudit` -/
def appendAudit (refuse : Response) (actor : Option ServiceToken) (action target : Str) :
    Tx Response Unit := do
  let _ ← Tx.stmt (fun _ => refuse) (AuditRepo.append (actor.map (·.id)) action target [])

/-- `appendAuditForToken` -/
def appendAuditForToken (tokenID : Int) (action target : Str) : Tx Response Unit := do
  let _ ← Tx.stmt (fun _ => internal "audit failed")
    (AuditRepo.append (some tokenID) action target [])

/-- `requireAdmin` -/
def requireAdmin : Option ServiceToken → Handler Unit
  | none => .exit (writeError 401 (ascii "unauthorized") (ascii "missing actor"))
  | some actor =>
    if actor.isAdmin then pure ()
    else .exit (writeError 403 (ascii "forbidden") (ascii "admin token required"))

/-- The id in a path. -/
def pathID (message : String) (segment : Str) : Handler Int :=
  need (badRequest (ascii message)) ((parseInt64 segment).filter fun id => decide (0 < id))

/-- `resolveProject` -/
def resolveProject (srv : Server) (p : Str) : Handler Project := do
  check (srv.validateName "project" p)
  autocommitOr storeError (Tx.read fun _ => ProjectRepo.byName p)

/-- `resolveEnv` -/
def resolveEnv (srv : Server) (p e : Str) : Handler (Project × Environment) := do
  let project ← srv.resolveProject p
  check (srv.validateName "env" e)
  let env ← autocommitOr storeError (Tx.read fun _ => EnvRepo.byName project.id e)
  return (project, env)

/-- `"token_id=%d session_id=%d"` -/
def sessionTarget (tokenID sessionID : Int) : Str :=
  ascii "token_id=" ++ formatInt tokenID ++ ascii " session_id=" ++ formatInt sessionID

/-- `"project=%s env=%s key=%s"` -/
def secretTarget (p : Project) (e : Environment) (key : Str) : Str :=
  ascii "project=" ++ p.name ++ ascii " env=" ++ e.name ++ ascii " key=" ++ key

/-- `"project=%s env=%s key=%s from_version=%d to_version=%d"` -/
def rollbackTarget (p : Project) (e : Environment) (key : Str) (fromVersion toVersion : Int) :
    Str :=
  secretTarget p e key ++ ascii " from_version=" ++ formatInt fromVersion ++
    ascii " to_version=" ++ formatInt toVersion

/-! ## Bootstrap and sessions -/

/-- `handleBootstrap`, with the transaction of `auth.Bootstrap` -/
def handleBootstrap (srv : Server) (rq : Request) : Handler Response := do
  let plain ← need internalError rq.inputs.token
  let tok ← transaction internalError internalError do
    match ← Tx.stmt storeError
      (TokenRepo.bootstrapIfEmpty (ascii "bootstrap") (srv.hash plain)) with
    | none => throw (httpError .alreadyBootstrapped)
    | some tok =>
      let _ ← Tx.stmt storeError
        (AuditRepo.append (some tok.id) (ascii "auth.bootstrap") (ascii "token=" ++ tok.name) [])
      return tok
  return writeOK 201 (.bootstrap plain tok.name)

/-- `sessionTTL`, in seconds -/
def sessionTTL : Int := 30 * 24 * 3600

/-- `truncateUserAgent` -/
def truncateUserAgent (ua : Str) : Str := ua.take 512

/-- `handleCreateDashboardSession` -/
def handleCreateDashboardSession (srv : Server) (rq : Request) : Handler Response := do
  let token ← need invalidBody rq.body.token
  let tok ← check (← srv.verify token)
  let sessionPlain ← need internalError rq.inputs.token
  let csrfPlain ← need internalError rq.inputs.csrf
  let sess ← transaction internalError (internal "commit failed") do
    let sess ← Tx.stmt (fun _ => internalError) (SessionRepo.create
      ⟨tok.id, srv.hash sessionPlain, srv.hash csrfPlain, truncateUserAgent rq.userAgent,
        srv.ipPrefix rq.remoteAddr, sessionTTL⟩)
    appendAuditForToken tok.id (ascii "session.create") (sessionTarget tok.id sess.id)
    return sess
  return { writeOK 201 (.sessionCreated csrfPlain sess.expiresAt) with
    cookie := some ⟨sessionPlain, some sess.expiresAt, sessionTTL⟩ }

/-- `clearSessionCookie`, on an empty response -/
def clearSessionCookie : Response := { noContent with cookie := some ⟨[], none, -1⟩ }

/-- `handleRevokeDashboardSession` -/
def handleRevokeDashboardSession (srv : Server) (rq : Request) : Handler Response :=
  if rq.cookie = [] then pure clearSessionCookie
  else do
    transaction internalError (internal "commit failed") do
      let sess ← Tx.stmt (fun _ => clearSessionCookie)
        (Tx.read (SessionRepo.byHash (srv.hash rq.cookie)))
      match ← Tx.attempt (SessionRepo.revoke sess.id) with
      | .ok _ | .error .notFound =>
        appendAuditForToken sess.tokenID (ascii "session.revoke")
          (sessionTarget sess.tokenID sess.id)
      | .error _ => throw internalError
    return clearSessionCookie

/-- `handleRevokeDashboardSessionByID` -/
def handleRevokeDashboardSessionByID (actor : Option ServiceToken) (id : Str) :
    Handler Response := do
  let actor ← need (writeError 401 (ascii "unauthorized") (ascii "missing actor")) actor
  let targetID ← pathID "invalid session id" id
  transaction internalError (internal "commit failed") do
    let n ← Tx.stmt (fun _ => internalError) (SessionRepo.revokeByIDAndTokenID targetID actor.id)
    if 0 < n then
      appendAuditForToken actor.id (ascii "session.revoke_by_id") (sessionTarget actor.id targetID)
  return noContent

/-! ## Projects, environments and tokens -/

/-- `handleCreateProject` -/
def handleCreateProject (srv : Server) (actor : Option ServiceToken) (rq : Request) :
    Handler Response := do
  let name ← need invalidBody rq.body.name
  check (srv.validateName "name" name)
  let p ← transaction internalError internalError do
    let p ← Tx.stmt storeError (ProjectRepo.create name)
    appendAudit internalError actor (ascii "project.create") (ascii "project=" ++ p.name)
    return p
  return writeOK 201 (.project p.id p.name p.createdAt 0)

/-- `handleCreateEnv` -/
def handleCreateEnv (srv : Server) (actor : Option ServiceToken) (rq : Request) (p : Str) :
    Handler Response := do
  let project ← srv.resolveProject p
  let body ← need invalidBody rq.body.env
  check (srv.validateName "name" body.1)
  check (if body.2 = [] then .ok () else srv.validateName "inherits_from" body.2)
  let e ← transaction internalError internalError do
    let e ← Tx.stmt storeError (EnvRepo.create project.id body.1 body.2)
    appendAudit internalError actor (ascii "env.create")
      (ascii "project=" ++ project.name ++ ascii " env=" ++ e.name)
    return e
  return writeOK 201 (.env e.id e.projectID e.name e.inheritsFrom e.createdAt)

/-- `handleCreateToken` -/
def handleCreateToken (srv : Server) (actor : Option ServiceToken) (rq : Request) :
    Handler Response := do
  requireAdmin actor
  let name ← need invalidBody rq.body.name
  check (srv.validateName "name" name)
  let plain ← need internalError rq.inputs.token
  let tok ← transaction internalError (internal "commit failed") do
    let tok ← Tx.stmt storeError (TokenRepo.create name (srv.hash plain) false)
    appendAudit (internal "audit failed") actor (ascii "auth.token.create")
      (ascii "token=" ++ tok.name)
    return tok
  return writeOK 201 (.tokenCreated plain tok.id tok.name tok.isAdmin tok.createdAt)

/-- `handleRevokeToken` -/
def handleRevokeToken (actor : Option ServiceToken) (id : Str) : Handler Response := do
  requireAdmin actor
  let targetID ← pathID "invalid token id" id
  transaction internalError (internal "commit failed") do
    let target ← Tx.stmt storeError (Tx.read fun _ => TokenRepo.byID targetID)
    if target.isAdmin && target.revokedAt = none then
      let liveAdmins ← Tx.stmt (fun _ => internalError)
        (Tx.read fun _ db => .ok (TokenRepo.countLiveAdmins db))
      if liveAdmins ≤ 1 then
        throw (writeError 409 (ascii "conflict") (ascii "cannot revoke the last live admin token"))
    let _ ← Tx.stmt storeError (TokenRepo.revoke targetID)
    appendAudit (internal "audit failed") actor (ascii "auth.token.revoke")
      (ascii "token_id=" ++ formatInt targetID)
  return noContent

/-! ## Webhooks -/

/-- `validWebhookEvents`, in the order of the default subscription -/
def validWebhookEvents : List Str := [eventSecretUpsert, eventSecretRollback, eventSecretDelete]

/-- The loop of `normalizeWebhookEvents`. -/
def collectEvents (srv : Server) (out : List Str) : List Str → Except Failure (List Str)
  | [] => .ok out
  | e :: es =>
    if trimSpace e ∈ validWebhookEvents then
      srv.collectEvents (if trimSpace e ∈ out then out else out ++ [trimSpace e]) es
    else .error (.badRequest (ascii "unknown event " ++ srv.quote (trimSpace e)))

/-- `strings.Join(events, ",")` -/
def joinEvents (events : List Str) : Str := (ascii ",").intercalate events

/-- `normalizeWebhookEvents` -/
def normalizeWebhookEvents (srv : Server) (events : List Str) : Except Failure Str :=
  if events = [] then .ok (joinEvents validWebhookEvents)
  else (srv.collectEvents [] events).map joinEvents

/-- The optional environment of a webhook. -/
def webhookEnv (srv : Server) (projectID : Int) (env : Str) : Handler (Option Environment) :=
  if env = [] then pure none
  else do
    check (srv.validateName "env" env)
    let e ← autocommitOr storeError (Tx.read fun _ => EnvRepo.byName projectID env)
    return some e

/-- `handleCreateWebhook` -/
def handleCreateWebhook (srv : Server) (actor : Option ServiceToken) (rq : Request) :
    Handler Response := do
  requireAdmin actor
  let body ← need invalidBody rq.body.webhook
  let proj ← srv.resolveProject body.project
  let env ← srv.webhookEnv proj.id body.env
  Prog.lift (rq.inputs.urlError.elim (.ok ()) fun err =>
    .error (badRequest (ascii "invalid webhook url: " ++ err)))
  let events ← check (srv.normalizeWebhookEvents body.events)
  let signingSecret ← need internalError rq.inputs.token
  let master ← need (internal "key unavailable") rq.inputs.masterKey
  let sealed ← need (internal "encrypt failed")
    (rq.inputs.nonce.bind fun nonce => srv.gcm.seal master nonce signingSecret)
  let hook ← transaction internalError (internal "commit failed") do
    let hook ← Tx.stmt (fun _ => internal "create failed")
      (WebhookRepo.create proj.id (env.map (·.id)) body.url events sealed)
    appendAudit (internal "audit failed") actor (ascii "webhook.create")
      (ascii "project=" ++ proj.name ++ ascii " webhook_id=" ++ formatInt hook.id)
    return hook
  return writeOK 201 (.webhookCreated hook.id proj.name (env.map (·.name)) hook.url
    (events.splitOn (byte ',')) hook.enabled signingSecret hook.createdAt)

/-- `handleDeleteWebhook` -/
def handleDeleteWebhook (actor : Option ServiceToken) (id : Str) : Handler Response := do
  requireAdmin actor
  let id ← pathID "invalid webhook id" id
  transaction internalError (internal "commit failed") do
    let _ ← Tx.stmt storeError fun _ => WebhookRepo.delete id
    appendAudit (internal "audit failed") actor (ascii "webhook.delete")
      (ascii "webhook_id=" ++ formatInt id)
  return noContent

/-- `handleSetWebhookEnabled` -/
def handleSetWebhookEnabled (actor : Option ServiceToken) (rq : Request) (id : Str) :
    Handler Response := do
  requireAdmin actor
  let id ← pathID "invalid webhook id" id
  let body ← need invalidBody rq.body.enabled
  let enabled ← need (badRequest (ascii "missing \"enabled\" field")) body
  transaction internalError (internal "commit failed") do
    let _ ← Tx.stmt storeError (WebhookRepo.setEnabled id enabled)
    appendAudit (internal "audit failed") actor
      (if enabled then ascii "webhook.enable" else ascii "webhook.disable")
      (ascii "webhook_id=" ++ formatInt id)
  return noContent

/-! ## Secrets -/

/-- The loop of `enqueueWebhooks`. -/
def enqueueEach (event payload : Str) : List Webhook → Tx Response Unit
  | [] => pure ()
  | h :: hooks => do
    let _ ← Tx.stmt (fun _ => internal "webhook enqueue failed")
      (DeliveryRepo.enqueue h.id event payload)
    enqueueEach event payload hooks

/-- `enqueueWebhooks` -/
def enqueueWebhooks (projectID envID : Int) (event : Str) (payload : Payload) :
    Tx Response Unit := do
  let hooks ← Tx.stmt (fun _ => internal "webhook enqueue failed")
    (Tx.read fun _ db => .ok (WebhookRepo.matchForEvent projectID envID event db))
  enqueueEach event payload.marshal hooks

/-- The audit entry and the deliveries of a changed secret. -/
def announce (actor : Option ServiceToken) (p : Project) (e : Environment) (key event : Str)
    (version : Int) (target : Str) : Tx Response Unit := do
  appendAudit (internal "audit failed") actor event target
  let now ← Tx.clock
  enqueueWebhooks p.id e.id event ⟨event, p.name, e.name, key, version, now⟩

/-- The statements between `BEGIN` and `COMMIT` of a handler that writes a new version. -/
def writeVersion (actor : Option ServiceToken) (p : Project) (e : Environment)
    (key ciphertext event : Str) (target : Secret → Str) : Tx Response SecretRepo.UpsertResult := do
  let up ← Tx.stmt (fun _ => internal "upsert failed") (SecretRepo.upsert e.id key ciphertext)
  let _ ← Tx.stmt (fun _ => internal "version append failed")
    (VersionRepo.create up.secret.id up.secret.version ciphertext (actor.map (·.id)))
  announce actor p e key event up.secret.version (target up.secret)
  return up

/-- The view of a written secret. -/
def secretData (s : Secret) (value : Str) : Data := .secret s.id s.key value s.version s.updatedAt

/-- The transaction of `handlePutSecret`. -/
def putVersion (actor : Option ServiceToken) (p : Project) (e : Environment)
    (key ciphertext : Str) : Tx Response SecretRepo.UpsertResult :=
  writeVersion actor p e key ciphertext eventSecretUpsert fun s =>
    secretTarget p e key ++ ascii " version=" ++ formatInt s.version

/-- `handlePutSecret` -/
def handlePutSecret (srv : Server) (actor : Option ServiceToken) (rq : Request) (p e k : Str) :
    Handler Response := do
  let pe ← srv.resolveEnv p e
  check (srv.validateName "key" k)
  let value ← need invalidBody rq.body.value
  let master ← need (internal "key unavailable") rq.inputs.masterKey
  let ct ← need (internal "encrypt failed")
    (rq.inputs.nonce.bind fun nonce => srv.gcm.seal master nonce value)
  let up ← transaction internalError (internal "commit failed") (putVersion actor pe.1 pe.2 k ct)
  return writeOK (if up.created then 201 else 200) (secretData up.secret value)

/-- The transaction of `handleRollbackSecret`. -/
def restoreVersion (actor : Option ServiceToken) (p : Project) (e : Environment) (key : Str)
    (current : Secret) (target : SecretVersion) (targetVersion : Int) :
    Tx Response SecretRepo.UpsertResult :=
  writeVersion actor p e key target.ciphertext eventSecretRollback fun _ =>
    rollbackTarget p e key current.version targetVersion

/-- `handleRollbackSecret` -/
def handleRollbackSecret (srv : Server) (actor : Option ServiceToken) (rq : Request)
    (p e k : Str) : Handler Response := do
  let pe ← srv.resolveEnv p e
  check (srv.validateName "key" k)
  let targetVersion ← need invalidBody rq.body.targetVersion
  if targetVersion ≤ 0 then
    .exit (badRequest (ascii "target_version must be a positive integer"))
  else
    let current ← autocommitOr storeError (Tx.read fun _ => SecretRepo.byKey pe.2.id k)
    if targetVersion = current.version then
      .exit (badRequest (ascii "target_version is already the current version"))
    else
      let target ← autocommitOr storeError
        (Tx.read fun _ => VersionRepo.byVersion current.id targetVersion)
      let master ← need (internal "key unavailable") rq.inputs.masterKey
      let plain ← need (internal "decrypt failed") (srv.gcm.open master target.ciphertext)
      let up ← transaction internalError (internal "commit failed")
        (restoreVersion actor pe.1 pe.2 k current target targetVersion)
      return writeOK 200 (secretData up.secret plain)

/-- The transaction of `handleDeleteSecret`. -/
def dropSecret (actor : Option ServiceToken) (p : Project) (e : Environment) (key : Str) :
    Tx Response Unit := do
  let _ ← Tx.stmt storeError (SecretRepo.delete e.id key)
  announce actor p e key eventSecretDelete 0 (secretTarget p e key)

/-- `handleDeleteSecret` -/
def handleDeleteSecret (srv : Server) (actor : Option ServiceToken) (p e k : Str) :
    Handler Response := do
  let pe ← srv.resolveEnv p e
  check (srv.validateName "key" k)
  transaction internalError (internal "commit failed") (dropSecret actor pe.1 pe.2 k)
  return noContent

end Comax.Server
