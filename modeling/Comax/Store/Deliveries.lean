import Comax.Store.Repos

/-!
# The outbox repository

The statements of `DeliveryRepo`, each as one change of the database. `ClaimDue`
is two kinds of statement, the select of the candidates and one compare-and-swap
for each, and appears here as the two.
-/

namespace Comax.Store

open Comax.Core

/-- `nullableStatus` -/
def nullableStatus (statusCode : Int) : Option Int :=
  if statusCode ≤ 0 then none else some statusCode

namespace WebhookDelivery

/-- The columns the compare-and-swap of `ClaimDue` sets. -/
def claimed (now : Int) (d : WebhookDelivery) : WebhookDelivery :=
  { d with status := .inProgress, claimedAt := some now }

/-- The columns `MarkDelivered` sets. -/
def markedDelivered (statusCode now : Int) (d : WebhookDelivery) : WebhookDelivery :=
  { d with
    status := .delivered
    attempts := d.attempts + 1
    lastStatus := some statusCode
    lastError := []
    claimedAt := none
    deliveredAt := some now }

/-- The columns `MarkRetry` sets. -/
def markedRetry (nextAttemptAt statusCode : Int) (errMsg : Str) (d : WebhookDelivery) :
    WebhookDelivery :=
  { d with
    status := .pending
    attempts := d.attempts + 1
    nextAttemptAt
    lastStatus := nullableStatus statusCode
    lastError := errMsg
    claimedAt := none }

/-- The columns `MarkDead` sets. -/
def markedDead (statusCode : Int) (errMsg : Str) (d : WebhookDelivery) : WebhookDelivery :=
  { d with
    status := .dead
    attempts := d.attempts + 1
    lastStatus := nullableStatus statusCode
    lastError := errMsg
    claimedAt := none }

/-- The columns `ReclaimStale` sets. -/
def reclaimed (d : WebhookDelivery) : WebhookDelivery :=
  { d with status := .pending, claimedAt := none }

end WebhookDelivery

namespace DeliveryRepo

/-- `DeliveryRepo.Enqueue` -/
def enqueue (webhookID : Int) (event payload : Str) (now : Int) (db : Database) :
    Except StoreError (WebhookDelivery × Database) := do
  foreignKey (db.webhooks.rows.any fun w => w.id = webhookID)
  let d : WebhookDelivery := ⟨db.webhookDeliveries.nextId, webhookID, event, payload, .pending, 0,
    now, none, none, [], now, none⟩
  let webhookDeliveries ← insertRow db.webhookDeliveries d
  return (d, { db with webhookDeliveries })

/-- What an accepted `Enqueue` did. -/
theorem enqueue_eq_ok {webhookID : Int} {event payload : Str} {now : Int} {db db' : Database}
    {d : WebhookDelivery} (h : enqueue webhookID event payload now db = .ok (d, db')) :
    d = ⟨db.webhookDeliveries.nextId, webhookID, event, payload, .pending, 0, now, none, none, [],
        now, none⟩ ∧
      ∃ t, db.webhookDeliveries.insert d = some t ∧ db' = { db with webhookDeliveries := t } := by
  unfold enqueue at h
  obtain ⟨_, -, h⟩ := bind_eq_ok.mp h
  obtain ⟨t, hins, h⟩ := bind_eq_ok.mp h
  cases h
  exact ⟨rfl, t, insertRow_eq_ok.mp hins, rfl⟩

/-- The select of `ClaimDue`; table order is the `ORDER BY id`. -/
def due (now : Int) (limit : ℕ) (db : Database) : List WebhookDelivery :=
  (db.webhookDeliveries.rows.filter fun d =>
    d.status = .pending && d.nextAttemptAt ≤ now).take limit

/-- Rewrite the row with a given id and status; the flag says whether there was one. -/
def updateOne (id : Int) (status : DeliveryStatus) (f : WebhookDelivery → WebhookDelivery)
    (hf : ∀ d, (f d).id = d.id) (db : Database) : Bool × Database :=
  (db.webhookDeliveries.rows.any fun d => d.id = id && d.status = status, { db with
    webhookDeliveries := db.webhookDeliveries.update (fun d => d.id = id && d.status = status) f
      fun d => ⟨hf d, rfl⟩ })

/-- One compare-and-swap of `ClaimDue`. -/
def claim (id now : Int) (db : Database) : Bool × Database :=
  updateOne id .pending (·.claimed now) (fun _ => rfl) db

/-- `affectedOne` -/
def affectedOne (r : Bool × Database) : Except StoreError (Unit × Database) :=
  if r.1 then .ok ((), r.2) else .error .notFound

/-- An update that touches no row is reported as `ErrNotFound`. -/
theorem affectedOne_eq_ok {r : Bool × Database} {u : Unit} {db : Database} :
    affectedOne r = .ok (u, db) ↔ r.1 = true ∧ r.2 = db := by
  unfold affectedOne
  cases r.1 <;> simp

/-- `DeliveryRepo.MarkDelivered` -/
def markDelivered (id statusCode now : Int) (db : Database) : Except StoreError (Unit × Database) :=
  affectedOne (updateOne id .inProgress (·.markedDelivered statusCode now) (fun _ => rfl) db)

/-- `DeliveryRepo.MarkRetry` -/
def markRetry (id nextAttemptAt statusCode : Int) (errMsg : Str) (db : Database) :
    Except StoreError (Unit × Database) :=
  affectedOne
    (updateOne id .inProgress (·.markedRetry nextAttemptAt statusCode errMsg) (fun _ => rfl) db)

/-- `DeliveryRepo.MarkDead` -/
def markDead (id statusCode : Int) (errMsg : Str) (db : Database) :
    Except StoreError (Unit × Database) :=
  affectedOne (updateOne id .inProgress (·.markedDead statusCode errMsg) (fun _ => rfl) db)

/-- The `WHERE` clause of `ReclaimStale`. -/
def stale (before : Int) (d : WebhookDelivery) : Bool :=
  d.status = .inProgress && d.claimedAt.any fun t => t < before

/-- `DeliveryRepo.ReclaimStale`, without the count it logs. -/
def reclaimStale (before : Int) (db : Database) : Database :=
  { db with
    webhookDeliveries := db.webhookDeliveries.update (stale before) WebhookDelivery.reclaimed
      fun _ => ⟨rfl, rfl⟩ }

end DeliveryRepo

end Comax.Store
