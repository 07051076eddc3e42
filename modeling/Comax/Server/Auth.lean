import Comax.Server.Http

/-!
# Authentication

The two arms of the middleware in front of every handler. The query of a bearer
token leaves out revoked tokens; the session arm loads the token of the session
whatever its state and then looks at `revoked_at`.
-/

namespace Comax.Server

open Comax.Core Comax.Store

/-- `auth.ParseBearer` -/
def parseBearer (header : Str) : Except Failure Str :=
  if header = [] then .error .missingBearer
  else if header.length < 7 || (header.take 7).map foldCase ≠ (ascii "Bearer ").map foldCase then
    .error .invalidBearer
  else
    match trimSpace (header.drop 7) with
    | [] => .error .invalidBearer
    | tok => .ok tok

/-- `auth.Verify` -/
def verify (srv : Server) (plaintext : Str) : Handler (Except Failure ServiceToken) :=
  if plaintext = [] then pure (.error .missingBearer)
  else do
    match ← autocommit (Tx.read fun _ => TokenRepo.byHash (srv.hash plaintext)) with
    | .error .notFound => pure (.error .unknownToken)
    | .error e => pure (.error (.store e))
    | .ok tok =>
      if tok.tokenHash = srv.hash plaintext then pure (.ok tok) else pure (.error .unknownToken)

/-- `auth.VerifyCSRF` -/
def verifyCSRF (srv : Server) (presented expectedHash : Str) : Bool :=
  presented ≠ [] && expectedHash ≠ [] && srv.hash presented = expectedHash

/-- `isMutating` -/
def isMutating : Method → Bool
  | .post | .put | .delete | .patch => true
  | _ => false

/-- `isPublicPath` -/
def isPublicPath (path : Str) : Bool :=
  !(ascii "/api/").isPrefixOf path || path = ascii "/api/v1/bootstrap" ||
    path = ascii "/api/v1/dashboard/session"

/-- `authBearer`; a failure to bump `last_used_at` is not an error. -/
def authBearer (srv : Server) (header : Str) : Handler ServiceToken := do
  let plain ← check (parseBearer header)
  let tok ← check (← srv.verify plain)
  let _ ← autocommit (TokenRepo.touchLastUsed tok.id)
  return tok

/-- `authSession` -/
def authSession (srv : Server) (rq : Request) : Handler ServiceToken := do
  let unknown (_ : StoreError) : Response := httpError .unknownToken
  let sess ← autocommitOr unknown (Tx.read (SessionRepo.byHash (srv.hash rq.cookie)))
  if isMutating rq.method && !srv.verifyCSRF rq.csrfToken sess.csrfHash then
    .exit (writeError 403 (ascii "csrf_mismatch") (ascii "missing or invalid CSRF token"))
  else
    let tok ← autocommitOr unknown (Tx.read fun _ => TokenRepo.byID sess.tokenID)
    if tok.revokedAt = none then return tok else .exit (httpError .unknownToken)

/-- `authMiddleware`: the token it stamps on the request, none on a public path. -/
def authMiddleware (srv : Server) (rq : Request) : Handler (Option ServiceToken) := do
  if isPublicPath rq.path then return none
  else if rq.authorization ≠ [] then return some (← srv.authBearer rq.authorization)
  else if rq.cookie ≠ [] then return some (← srv.authSession rq)
  else .exit (httpError .missingBearer)

end Comax.Server
