import Comax.Server.Handlers

/-!
# The routes, and the server as a system

The mux picks a handler by method and path, and the middleware runs in front of it.
The system serves any number of requests at once; they share the database and take
turns at the granularity of single statements and transactions.
-/

namespace Comax.Server

open Comax.Core Comax.Store

/-- The handlers that write, with their path values; `other` stands for all the others. -/
inductive Route where
  | bootstrap
  | createSession
  | revokeSession
  | revokeSessionByID (id : Str)
  | createProject
  | createToken
  | revokeToken (id : Str)
  | createWebhook
  | setWebhookEnabled (id : Str)
  | deleteWebhook (id : Str)
  | createEnv (p : Str)
  | putSecret (p e k : Str)
  | deleteSecret (p e k : Str)
  | rollbackSecret (p e k : Str)
  | other
  deriving DecidableEq

/-- The route table below `/api/v1`. -/
def apiRoute : Method → List Str → Route
  | .post, [a] =>
    if a = ascii "bootstrap" then .bootstrap
    else if a = ascii "projects" then .createProject
    else if a = ascii "tokens" then .createToken
    else if a = ascii "webhooks" then .createWebhook
    else .other
  | .post, [a, b] => if a = ascii "dashboard" ∧ b = ascii "session" then .createSession else .other
  | .delete, [a, b] =>
    if a = ascii "dashboard" ∧ b = ascii "session" then .revokeSession
    else if a = ascii "tokens" then .revokeToken b
    else if a = ascii "webhooks" then .deleteWebhook b
    else .other
  | .patch, [a, b] => if a = ascii "webhooks" then .setWebhookEnabled b else .other
  | .delete, [a, b, c] =>
    if a = ascii "dashboard" ∧ b = ascii "sessions" then .revokeSessionByID c else .other
  | .post, [a, p, b] => if a = ascii "projects" ∧ b = ascii "envs" then .createEnv p else .other
  | .put, [a, p, b, e, c, k] =>
    if a = ascii "projects" ∧ b = ascii "envs" ∧ c = ascii "secrets" then .putSecret p e k
    else .other
  | .delete, [a, p, b, e, c, k] =>
    if a = ascii "projects" ∧ b = ascii "envs" ∧ c = ascii "secrets" then .deleteSecret p e k
    else .other
  | .post, [a, p, b, e, c, k, d] =>
    if a = ascii "projects" ∧ b = ascii "envs" ∧ c = ascii "secrets" ∧ d = ascii "rollback" then
      .rollbackSecret p e k
    else .other
  | _, _ => .other

/-- The mux of `Handler`. A wildcard matches no empty segment. -/
def mux (method : Method) (segments : List Str) : Route :=
  if [] ∈ segments then .other
  else
    match segments with
    | a :: b :: rest =>
      if a = ascii "api" ∧ b = ascii "v1" then apiRoute method rest else .other
    | _ => .other

/-- The handler of a route. -/
def handle (srv : Server) (actor : Option ServiceToken) (rq : Request) : Route → Handler Response
  | .bootstrap => srv.handleBootstrap rq
  | .createSession => srv.handleCreateDashboardSession rq
  | .revokeSession => srv.handleRevokeDashboardSession rq
  | .revokeSessionByID id => handleRevokeDashboardSessionByID actor id
  | .createProject => srv.handleCreateProject actor rq
  | .createToken => srv.handleCreateToken actor rq
  | .revokeToken id => handleRevokeToken actor id
  | .createWebhook => srv.handleCreateWebhook actor rq
  | .setWebhookEnabled id => handleSetWebhookEnabled actor rq id
  | .deleteWebhook id => handleDeleteWebhook actor id
  | .createEnv p => srv.handleCreateEnv actor rq p
  | .putSecret p e k => srv.handlePutSecret actor rq p e k
  | .deleteSecret p e k => srv.handleDeleteSecret actor p e k
  | .rollbackSecret p e k => srv.handleRollbackSecret actor rq p e k
  | .other => pure rq.inputs.answer

/-- The route that the mux picks for a request. -/
def Request.route (rq : Request) : Route := mux rq.method rq.segments

/-- The paths of the routes that the mux knows. -/
theorem segments_of_route {rq : Request} {r : Route} (h : rq.route = r) (hr : r ≠ .other) :
    ∃ rest, rq.segments = ascii "api" :: ascii "v1" :: rest ∧ apiRoute rq.method rest = r := by
  unfold Request.route mux at h
  split at h
  · exact absurd h.symm hr
  · split at h
    · rename_i a b rest hseg
      split at h
      · rename_i hhead
        exact ⟨rest, by rw [hseg, hhead.1, hhead.2], h⟩
      · exact absurd h.symm hr
    · exact absurd h.symm hr

/-- `Handler`: authentication, then the handler. -/
def serve (srv : Server) (rq : Request) : Handler Response := do
  let actor ← srv.authMiddleware rq
  srv.handle actor rq rq.route

/-- The running server, with the databases it may start from. -/
def system (srv : Server) (start : Database → Prop) :
    Machine (Shared Request Moment Database) (Turn Request Moment) :=
  interleave srv.serve start

/-- The response of a request that its handler has served to the end. -/
def served (srv : Server) (proc : Process Request Moment Database) : Option Response :=
  ((srv.serve proc.name).resume proc.past).returned

/-! ## To evaluate the model with -/

/-- A server with a readable hash and a cipher that adds an empty tag. -/
def plainServer : Server := ⟨id, Crypto.plainGCM, fun _ => [], id, fun _ => []⟩

/-- A request with the bearer `t`. -/
def bearerRequest (method : Method) (path : List String) (body : RequestBody) : Request :=
  ⟨method, path.map ascii, ascii "Bearer t", [], [], [], [], body,
    ⟨some Crypto.plainKey, some (List.replicate Crypto.nonceSize 0), some (ascii "t"),
      some (ascii "c"), none, noContent⟩⟩

/-- A body without fields. -/
def noFields : RequestBody := ⟨none, none, none, none, none, none, none⟩

/-- The path of the key `k` of the environment `e` of the project `p`. -/
def keyPath : List String := ["api", "v1", "projects", "p", "envs", "e", "secrets", "k"]

/-- A request arrives and takes all its actions. -/
def atOnce (i : ℕ) (rq : Request) (actions : ℕ) (now : Int) : List (Turn Request Moment) :=
  .arrive i rq :: List.replicate actions (.advance i (.calm now))

/-- The requests that bootstrap a server and create the environment `e`. -/
def setUp : List (Turn Request Moment) :=
  atOnce 0 (bearerRequest .post ["api", "v1", "bootstrap"] noFields) 1 10 ++
    atOnce 1 (bearerRequest .post ["api", "v1", "projects"]
      { noFields with name := some (ascii "p") }) 3 11 ++
    atOnce 2 (bearerRequest .post ["api", "v1", "projects", "p", "envs"]
      { noFields with env := some (ascii "e", []) }) 4 12

/-- A list of turns that can be taken from an empty database leads to a reachable state. -/
theorem exists_reachable {turns : List (Turn Request Moment)}
    {test : Shared Request Moment Database → Bool}
    (h : ((plainServer.system (· = .empty)).run turns ⟨.empty, fun _ => none⟩).any test = true) :
    ∃ s, (plainServer.system (· = .empty)).run turns ⟨.empty, fun _ => none⟩ = some s ∧
      (plainServer.system (· = .empty)).Reachable s ∧ test s = true := by
  obtain ⟨s, hs, htest⟩ := (Option.any_eq_true _ _).mp h
  have hstart : (plainServer.system (· = .empty)).Reachable ⟨.empty, fun _ => none⟩ :=
    .start ⟨rfl, fun _ => rfl⟩
  exact ⟨s, hs, hstart.run hs, htest⟩

end Comax.Server
