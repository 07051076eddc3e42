import Comax.Core.Machine
import Comax.Crypto.Seal
import Comax.Store.Deliveries
import Mathlib.Data.List.AList
import Mathlib.Logic.Function.Basic

/-!
# The delivery workers

A tick of a worker, cut at every SQL statement and at the POST, and the system of
any number of workers over one database. Time is in nanoseconds and read anew at
every step; a statement may fail, a worker may crash between any two steps, and the
outside enqueues deliveries and manages webhooks. The trace records what the
database does not keep: who claimed a row, what a POST was answered with, and which
key did not open.
-/

namespace Comax.Webhook

open Comax.Core Comax.Store Comax.Crypto

/-- `time.Second`, in nanoseconds. -/
def second : Int := 1000000000

/-- `time.Minute` -/
def minute : Int := 60 * second

/-- `t.UTC().Unix()` -/
def unix (t : Int) : Int := t / second

/-- `DefaultMaxAttempts` -/
def defaultMaxAttempts : Int := 5
/-- `DefaultBatchSize` -/
def defaultBatchSize : Int := 50
/-- `DefaultStaleAfter` -/
def defaultStaleAfter : Int := 2 * minute

/-- The doubling loop of `DefaultBackoff`. -/
def doubled (d : Int) : ℕ → Int
  | 0 => d
  | n + 1 => if 5 * minute ≤ d * 2 then 5 * minute else doubled (d * 2) n

/-- `DefaultBackoff` -/
def defaultBackoff (attempt : Int) : Int :=
  doubled (10 * second) ((if attempt < 1 then 1 else attempt) - 1).toNat

/-- The tuning part of `Options`. -/
structure Options where
  maxAttempts : Int
  batchSize : Int
  staleAfter : Int
  backoff : Option (Int → Int)

/-- A worker as `NewWorker` assembles it. -/
structure Worker where
  maxAttempts : Int
  batchSize : Int
  staleAfter : Int
  backoff : Int → Int
  maxAttempts_pos : 1 ≤ maxAttempts

/-- `NewWorker` -/
def newWorker (opts : Options) : Worker where
  maxAttempts := if opts.maxAttempts ≤ 0 then defaultMaxAttempts else opts.maxAttempts
  batchSize := if opts.batchSize ≤ 0 then defaultBatchSize else opts.batchSize
  staleAfter := if opts.staleAfter ≤ 0 then defaultStaleAfter else opts.staleAfter
  backoff := opts.backoff.getD defaultBackoff
  maxAttempts_pos := by
    split
    · decide
    · omega

/-- A webhook row with its opened signing key. -/
structure SigningMaterial where
  wh : Webhook
  key : Str
  deriving DecidableEq

/-- `deliveryResolver`: what one tick has looked up so far. -/
structure DeliveryResolver where
  master : Option Str
  hooks : AList fun _ : Int => SigningMaterial

/-- `newDeliveryResolver` -/
def newDeliveryResolver : DeliveryResolver := ⟨none, ∅⟩

/-- The outcomes of `resolve`: the material, or one of its three sentinel errors. -/
inductive Resolution where
  | ok (sm : SigningMaterial)
  | webhookGone
  | keyUnavailable
  | keyUnsealable (wh : Webhook) (master : Str)

/-- `deliveryResolver.resolve`, given what the lookup of the webhook returns and what the key
provider answers. -/
def DeliveryResolver.resolve (gcm : AEAD) (rz : DeliveryResolver)
    (lookup : Except StoreError Webhook) (provided : Option Str) (webhookID : Int) :
    Resolution × DeliveryResolver :=
  match rz.hooks.lookup webhookID with
  | some sm => (.ok sm, rz)
  | none =>
    match lookup with
    | .error _ => (.webhookGone, rz)
    | .ok wh =>
      match rz.master.or provided with
      | none => (.keyUnavailable, rz)
      | some master =>
        match gcm.open master wh.secretCiphertext with
        | none => (.keyUnsealable wh master, { rz with master := some master })
        | some key =>
          (.ok ⟨wh, key⟩, ⟨some master, rz.hooks.insert webhookID ⟨wh, key⟩⟩)

/-- The statement that records the outcome of a delivery. -/
inductive Mark where
  | delivered (statusCode : Int)
  | retry (nextAttemptAt statusCode : Int) (errMsg : Str)
  | dead (statusCode : Int) (errMsg : Str)
  deriving DecidableEq

/-- The row after the statement. -/
def Mark.row (now : Int) : Mark → WebhookDelivery → WebhookDelivery
  | .delivered code => (·.markedDelivered code (unix now))
  | .retry next code msg => (·.markedRetry next code msg)
  | .dead code msg => (·.markedDead code msg)

/-- Issue the statement. -/
def Mark.exec (id now : Int) : Mark → Database → Except StoreError (Unit × Database)
  | .delivered code => DeliveryRepo.markDelivered id code (unix now)
  | .retry next code msg => DeliveryRepo.markRetry id next code msg
  | .dead code msg => DeliveryRepo.markDead id code msg

/-- What happens between the pre-flight check and the answer of the receiver. -/
inductive PostOutcome where
  /-- `ValidateURL` fails. -/
  | blocked
  /-- `http.NewRequestWithContext` fails. -/
  | unbuilt
  /-- `client.Do` fails, with the text of `transportReason`. -/
  | transport (reason : Str)
  | response (statusCode : Int)
  deriving DecidableEq

/-- A 2xx answer. -/
def PostOutcome.success : PostOutcome → Bool
  | .response code => 200 ≤ code && code < 300
  | _ => false

namespace Worker

variable (w : Worker)

/-- `fail` -/
def fail (now : Int) (d : WebhookDelivery) (status : Int) (reason : Str) : Mark :=
  let attempt := d.attempts + 1
  if w.maxAttempts ≤ attempt then .dead status reason
  else .retry (unix (now + w.backoff attempt)) status reason

/-- The first half of `deliverOne`: the material to sign with, or the outcome to record. -/
def prepare (now : Int) (d : WebhookDelivery) : Resolution → Except Mark SigningMaterial
  | .ok sm => .ok sm
  | .webhookGone => .error (w.fail now d 0 (ascii "webhook not found"))
  | .keyUnavailable => .error (w.fail now d 0 (ascii "signing key unavailable"))
  | .keyUnsealable _ _ => .error (.dead 0 (ascii "signing key unsealable"))

/-- The second half of `deliverOne`: the outcome to record after the POST. -/
def conclude (now : Int) (d : WebhookDelivery) : PostOutcome → Mark
  | .blocked => w.fail now d 0 (ascii "url blocked by policy")
  | .unbuilt => w.fail now d 0 (ascii "request build failed")
  | .transport reason => w.fail now d 0 reason
  | .response code =>
    if 200 ≤ code && code < 300 then .delivered code
    else w.fail now d code (ascii "HTTP " ++ formatInt code)

end Worker

/-- Where a worker is in its tick. -/
inductive Phase where
  /-- Between two ticks. -/
  | idle
  /-- After `ReclaimStale`. -/
  | reclaimed
  /-- In `ClaimDue`: the candidates still to swap, and the rows won. -/
  | claiming (now : Int) (candidates won : List WebhookDelivery)
  /-- Before `deliverOne` of the first row. -/
  | delivering (rz : DeliveryResolver) (queue : List WebhookDelivery)
  /-- Before the POST of a row. -/
  | posting (rz : DeliveryResolver) (sm : SigningMaterial) (d : WebhookDelivery)
      (queue : List WebhookDelivery)
  /-- Before the statement that records the outcome of a row. -/
  | marking (rz : DeliveryResolver) (d : WebhookDelivery) (mark : Mark)
      (queue : List WebhookDelivery)

/-- The rows a worker has won and not recorded the outcome of. -/
def Phase.claims : Phase → List WebhookDelivery
  | .idle => []
  | .reclaimed => []
  | .claiming _ _ won => won
  | .delivering _ queue => queue
  | .posting _ _ d queue => d :: queue
  | .marking _ d _ queue => d :: queue

/-- The candidates a worker has read and not swapped yet. -/
def Phase.candidates : Phase → List WebhookDelivery
  | .claiming _ candidates _ => candidates
  | _ => []

/-- What the database does not record. -/
inductive Event where
  /-- A worker won the compare-and-swap of a row. -/
  | claimed (worker : ℕ) (id : Int)
  /-- The POST of a row ended. -/
  | answered (worker : ℕ) (id : Int) (outcome : PostOutcome)
  /-- The signing key for a row did not open. -/
  | unsealable (worker : ℕ) (id : Int) (wh : Webhook) (master : Str)
  deriving DecidableEq

/-- The worker that won the latest claim of a row. -/
def owner : List Event → Int → Option ℕ
  | [], _ => none
  | .claimed i id' :: trace, id => if id' = id then some i else owner trace id
  | _ :: trace, id => owner trace id

/-- The workers of one outbox share `maxAttempts`. -/
structure Fleet where
  gcm : AEAD
  maxAttempts : Int
  worker : ℕ → Worker
  shared : ∀ i, (worker i).maxAttempts = maxAttempts

/-- The database, the workers, and the events so far, the latest first. -/
structure Outbox where
  db : Database
  phase : ℕ → Phase
  trace : List Event

/-- The steps of the workers and of the outside. -/
inductive Label where
  | enqueue (webhookID : Int) (event payload : Str) (now : Int)
  | createWebhook (projectID : Int) (envID : Option Int) (url events secretCiphertext : Str)
      (now : Int)
  | setWebhookEnabled (id : Int) (enabled : Bool) (now : Int)
  | deleteWebhook (id : Int)
  | reclaim (worker : ℕ) (now : Int) (fails : Bool)
  | select (worker : ℕ) (now : Int) (fails : Bool)
  | claim (worker : ℕ) (fails : Bool)
  | resolve (worker : ℕ) (now : Int) (fails : Bool) (provided : Option Str)
  | post (worker : ℕ) (now : Int) (outcome : PostOutcome)
  | mark (worker : ℕ) (now : Int) (fails : Bool)
  | crash (worker : ℕ)

namespace Outbox

variable (s : Outbox)

/-- Move one worker. -/
def goto (i : ℕ) (p : Phase) : Outbox := { s with phase := Function.update s.phase i p }

/-- Commit a change of the outside. -/
def commit {α : Type} (r : Except StoreError (α × Database)) : Option Outbox :=
  match r with
  | .ok (_, db) => some { s with db }
  | .error _ => none

end Outbox

namespace Fleet

variable (f : Fleet) (i : ℕ) (s : Outbox)

/-- The start of `tick`: `ReclaimStale`, whose failure is only logged. -/
def reclaimStep (now : Int) (fails : Bool) : Option Outbox :=
  match s.phase i with
  | .idle =>
    let before := unix (now - (f.worker i).staleAfter)
    some ({ s with db := if fails then s.db else DeliveryRepo.reclaimStale before s.db }.goto i
      .reclaimed)
  | _ => none

/-- The select of `ClaimDue`. -/
def selectStep (now : Int) (fails : Bool) : Option Outbox :=
  match s.phase i with
  | .reclaimed =>
    if fails then some (s.goto i .idle)
    else some (s.goto i (.claiming (unix now)
      (DeliveryRepo.due (unix now) (f.worker i).batchSize.toNat s.db) []))
  | _ => none

/-- One compare-and-swap of `ClaimDue`, or its return once no candidate is left. A failed
statement makes it return an error, and the rows won so far are dropped. -/
def claimStep (fails : Bool) : Option Outbox :=
  match s.phase i with
  | .claiming _ [] won => some (s.goto i (.delivering newDeliveryResolver won))
  | .claiming now (d :: rest) won =>
    if fails then some (s.goto i .idle)
    else
      let r := DeliveryRepo.claim d.id now s.db
      if r.1 then
        some ({ s with db := r.2, trace := .claimed i d.id :: s.trace }.goto i
          (.claiming now rest (won ++ [d.claimed now])))
      else some ({ s with db := r.2 }.goto i (.claiming now rest won))
  | _ => none

/-- The first half of `deliverOne`, or the end of the tick once no row is left. -/
def resolveStep (now : Int) (fails : Bool) (provided : Option Str) : Option Outbox :=
  match s.phase i with
  | .delivering _ [] => some (s.goto i .idle)
  | .delivering rz (d :: queue) =>
    let lookup := if fails then .error .other else WebhookRepo.byID d.webhookID s.db
    let (res, rz') := rz.resolve f.gcm lookup provided d.webhookID
    let trace := match res with
      | .keyUnsealable wh master => .unsealable i d.id wh master :: s.trace
      | _ => s.trace
    match (f.worker i).prepare now d res with
    | .ok sm => some ({ s with trace }.goto i (.posting rz' sm d queue))
    | .error mark => some ({ s with trace }.goto i (.marking rz' d mark queue))
  | _ => none

/-- The pre-flight check and the POST. -/
def postStep (now : Int) (outcome : PostOutcome) : Option Outbox :=
  match s.phase i with
  | .posting rz _ d queue =>
    some ({ s with trace := .answered i d.id outcome :: s.trace }.goto i
      (.marking rz d ((f.worker i).conclude now d outcome) queue))
  | _ => none

/-- The statement that records the outcome; its failure is only logged. -/
def markStep (now : Int) (fails : Bool) : Option Outbox :=
  match s.phase i with
  | .marking rz d mark queue =>
    if fails then some (s.goto i (.delivering rz queue))
    else
      match mark.exec d.id now s.db with
      | .ok (_, db) => some ({ s with db }.goto i (.delivering rz queue))
      | .error _ => some (s.goto i (.delivering rz queue))
  | _ => none

/-- One step of the system. -/
def next : Label → Outbox → Option Outbox
  | .enqueue webhookID event payload now, s =>
    s.commit (DeliveryRepo.enqueue webhookID event payload now s.db)
  | .createWebhook projectID envID url events secretCiphertext now, s =>
    s.commit (WebhookRepo.create projectID envID url events secretCiphertext now s.db)
  | .setWebhookEnabled id enabled now, s => s.commit (WebhookRepo.setEnabled id enabled now s.db)
  | .deleteWebhook id, s => s.commit (WebhookRepo.delete id s.db)
  | .reclaim i now fails, s => f.reclaimStep i s now fails
  | .select i now fails, s => f.selectStep i s now fails
  | .claim i fails, s => claimStep i s fails
  | .resolve i now fails provided, s => f.resolveStep i s now fails provided
  | .post i now outcome, s => f.postStep i s now outcome
  | .mark i now fails, s => markStep i s now fails
  | .crash i, s => some (s.goto i .idle)

/-- The system, from any database with an empty outbox. -/
def machine : Machine Outbox Label where
  start s := s.db.webhookDeliveries = .empty ∧ s.phase = (fun _ => .idle) ∧ s.trace = []
  next := f.next

end Fleet

end Comax.Webhook
