import Comax.Crypto.Seal
import Comax.Store.Session
import Mathlib.Data.List.TakeWhile

/-!
# Requests and responses

What the handlers read of a request, what they answer, and the checks and error
texts that they share.
-/

namespace Comax

open Comax.Core Comax.Store Comax.Crypto

/-- The server and what it takes from the libraries it is built on. -/
structure Server where
  /-- SHA-256. -/
  hash : Str → Str
  /-- AES-256-GCM. -/
  gcm : AEAD
  /-- The first character of a text under `%q`. -/
  quoteRune : Str → Str
  /-- A text under `%q`. -/
  quote : Str → Str
  /-- `auth.IPPrefix` -/
  ipPrefix : Str → Str

namespace Server

/-- Request methods. -/
inductive Method where
  | get
  | head
  | post
  | put
  | patch
  | delete
  | other (name : Str)
  deriving DecidableEq

/-- The fields of a webhook creation. -/
structure WebhookBody where
  project : Str
  env : Str
  url : Str
  events : List Str
  deriving DecidableEq

/-- The request body as each handler's struct decodes it; `none` is a decoding error, and an
absent field has its zero value. -/
structure RequestBody where
  /-- The field `value`. -/
  value : Option Str
  /-- The field `target_version`. -/
  targetVersion : Option Int
  /-- The field `token`. -/
  token : Option Str
  /-- The field `name`. -/
  name : Option Str
  /-- The fields `name` and `inherits_from`. -/
  env : Option (Str × Str)
  webhook : Option WebhookBody
  /-- The field `enabled`, which may be absent. -/
  enabled : Option (Option Bool)

/-- The views that a success envelope carries. Times are unix seconds. -/
inductive Data where
  | secret (secretID : Int) (key value : Str) (version updatedAt : Int)
  | tokenCreated (token : Str) (id : Int) (name : Str) (isAdmin : Bool) (createdAt : Int)
  | project (id : Int) (name : Str) (createdAt envCount : Int)
  | env (id projectID : Int) (name inheritsFrom : Str) (createdAt : Int)
  | webhookCreated (id : Int) (project : Str) (env : Option Str) (url : Str) (events : List Str)
      (enabled : Bool) (signingSecret : Str) (createdAt : Int)
  | sessionCreated (csrf : Str) (expiresAt : Int)
  | bootstrap (token name : Str)
  deriving DecidableEq

/-- The envelope of a response, if it has one. -/
inductive Envelope where
  | empty
  | ok (data : Data)
  | error (code message : Str)
  deriving DecidableEq

/-- A session cookie set on the client; the other attributes are fixed. -/
structure Cookie where
  value : Str
  expires : Option Int
  maxAge : Int
  deriving DecidableEq

/-- A response. -/
structure Response where
  status : ℕ
  body : Envelope
  cookie : Option Cookie
  deriving DecidableEq

/-- What the outside supplies while a request is served. -/
structure Inputs where
  /-- `keys.Key` -/
  masterKey : Option Str
  /-- The nonce `Seal` draws. -/
  nonce : Option Str
  /-- `auth.GenerateToken` -/
  token : Option Str
  /-- `auth.GenerateCSRF` -/
  csrf : Option Str
  /-- The error of `webhook.ValidateURL`. -/
  urlError : Option Str
  /-- The answer of a handler that writes nothing. -/
  answer : Response

/-- A request. A path that the mux redirects to its clean form is not among them. -/
structure Request where
  method : Method
  /-- The segments of the path, unescaped. -/
  segments : List Str
  /-- `r.Header.Get("Authorization")` -/
  authorization : Str
  /-- `r.Header.Get("X-CSRF-Token")` -/
  csrfToken : Str
  /-- The value of the session cookie, empty without one. -/
  cookie : Str
  userAgent : Str
  remoteAddr : Str
  body : RequestBody
  inputs : Inputs

/-- `r.URL.Path` -/
def Request.path (rq : Request) : Str := rq.segments.flatMap fun s => byte '/' :: s

/-- `writeOK` -/
def writeOK (status : ℕ) (data : Data) : Response := ⟨status, .ok data, none⟩

/-- `writeError` -/
def writeError (status : ℕ) (code message : Str) : Response := ⟨status, .error code message, none⟩

/-- An `internal` error with its message. -/
def internal (message : String) : Response := writeError 500 (ascii "internal") (ascii message)

/-- A `bad_request` error with its message. -/
def badRequest (message : Str) : Response := writeError 400 (ascii "bad_request") message

/-- `w.WriteHeader(http.StatusNoContent)` -/
def noContent : Response := ⟨204, .empty, none⟩

/-- The sentinel that an error wraps. -/
inductive Failure where
  | store (e : StoreError)
  | alreadyBootstrapped
  | missingBearer
  | invalidBearer
  | unknownToken
  | badRequest (detail : Str)
  | other
  deriving DecidableEq

/-- `httpError` -/
def httpError : Failure → Response
  | .store .notFound => writeError 404 (ascii "not_found") (ascii "resource not found")
  | .store .versionNotFound =>
    writeError 404 (ascii "version_not_found") (ascii "secret version not found")
  | .store .conflict => writeError 409 (ascii "conflict") (ascii "resource already exists")
  | .alreadyBootstrapped =>
    writeError 409 (ascii "already_bootstrapped") (ascii "server is already bootstrapped")
  | .missingBearer | .invalidBearer =>
    writeError 401 (ascii "unauthorized") (ascii "missing or malformed bearer token")
  | .unknownToken => writeError 401 (ascii "unauthorized") (ascii "unknown bearer token")
  | .badRequest detail => badRequest (detail ++ ascii ": bad request")
  | .store .other | .other => internal "internal server error"

/-- `maxNameLen` -/
def maxNameLen : ℕ := 128

/-- The characters of a name. -/
def allowed (c : UInt8) : Bool :=
  (byte 'a' ≤ c && c ≤ byte 'z') || (byte 'A' ≤ c && c ≤ byte 'Z') ||
    (byte '0' ≤ c && c ≤ byte '9') || (ascii "_-.+").contains c

/-- `validateName` -/
def validateName (srv : Server) (field : String) (value : Str) : Except Failure Unit :=
  if value = [] then .error (.badRequest (ascii field ++ ascii " is required"))
  else if maxNameLen < value.length then
    .error (.badRequest (ascii field ++ ascii " exceeds " ++ formatNat maxNameLen ++
      ascii " chars"))
  else
    match value.dropWhile allowed with
    | [] => .ok ()
    | rest => .error (.badRequest (ascii field ++ ascii " contains forbidden character " ++
        srv.quoteRune rest))

/-- The accepted names. -/
theorem validateName_ok_iff {srv : Server} {field : String} {value : Str} :
    validateName srv field value = .ok () ↔
      value ≠ [] ∧ value.length ≤ maxNameLen ∧ ∀ c ∈ value, allowed c = true := by
  have hall : value.dropWhile allowed = [] ↔ ∀ c ∈ value, allowed c = true :=
    List.dropWhile_eq_nil_iff
  rw [← hall, validateName]
  split_ifs with hnil hlen
  · simp [hnil]
  · simp [Nat.not_le.mpr hlen]
  · cases hd : value.dropWhile allowed with
    | nil => simp [hnil, Nat.not_lt.mp hlen]
    | cons c rest => simp

/-- The characters of a name by their codes. -/
theorem allowed_iff {c : UInt8} : allowed c = true ↔
    c.toNat = 43 ∨ c.toNat = 45 ∨ c.toNat = 46 ∨ (48 ≤ c.toNat ∧ c.toNat ≤ 57) ∨
      (65 ≤ c.toNat ∧ c.toNat ≤ 90) ∨ c.toNat = 95 ∨ (97 ≤ c.toNat ∧ c.toNat ≤ 122) := by
  have hextra : (ascii "_-.+").contains c = true ↔
      c.toNat = 95 ∨ c.toNat = 45 ∨ c.toNat = 46 ∨ c.toNat = 43 := by
    have hlist : ascii "_-.+" = [95, 45, 46, 43] := by decide
    simp [hlist, ← UInt8.toNat_inj]
  obtain ⟨h0, h9, ha, hz, hA, hZ⟩ := alnum_codes
  simp only [allowed, Bool.or_eq_true, Bool.and_eq_true, decide_eq_true_eq,
    UInt8.le_iff_toNat_le, hextra, h0, h9, ha, hz, hA, hZ]
  omega

/-- A handler: a program on the database with a response. -/
abbrev Handler := Prog Database Moment Response

/-- Go on if a check succeeds, and answer with its error otherwise. -/
def check {α : Type} (m : Except Failure α) : Handler α := Prog.lift (m.mapError httpError)

/-- Go on with a value, and answer with an error if it is missing. -/
def need {α : Type} (refuse : Response) (o : Option α) : Handler α :=
  Prog.lift (o.elim (.error refuse) .ok)

/-- The answer to a body that does not decode. -/
def invalidBody : Response := badRequest (ascii "invalid JSON body")

/-- The answer to an error of the store. -/
def storeError (e : StoreError) : Response := httpError (.store e)

end Server

end Comax
