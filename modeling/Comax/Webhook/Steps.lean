import Comax.Webhook.Worker

/-!
# What one step of the system does

The inversion of `Fleet.next`, once for the outbox table and once for the worker
that moves. Every invariant of the system is derived from these two relations.
-/

namespace Comax.Webhook

open Comax.Core Comax.Store Comax.Crypto

/-- The rows of the outbox. -/
def Outbox.rows (s : Outbox) : List WebhookDelivery := s.db.webhookDeliveries.rows

/-- The worker that a step moves. -/
def Label.worker : Label → Option ℕ
  | .enqueue .. => none
  | .createWebhook .. => none
  | .setWebhookEnabled .. => none
  | .deleteWebhook _ => none
  | .reclaim i _ _ => some i
  | .select i _ _ => some i
  | .claim i _ => some i
  | .resolve i _ _ _ => some i
  | .post i _ _ => some i
  | .mark i _ _ => some i
  | .crash i => some i

@[simp] theorem Outbox.goto_phase (s : Outbox) (i : ℕ) (p : Phase) :
    (s.goto i p).phase i = p := by
  simp only [goto, Function.update_self]

/-- The other workers stay where they are. -/
theorem Outbox.goto_other (s : Outbox) {i j : ℕ} (p : Phase) (h : j ≠ i) :
    (s.goto i p).phase j = s.phase j := by
  simp only [goto, Function.update_of_ne h]

/-- A committed change of the outside is the change of the repository. -/
theorem Outbox.commit_eq_some {α : Type} {s s' : Outbox} {r : Except StoreError (α × Database)}
    (h : s.commit r = some s') : ∃ a db, r = .ok (a, db) ∧ s' = { s with db } := by
  unfold commit at h
  cases r with
  | ok r =>
    cases h
    exact ⟨r.1, r.2, rfl, rfl⟩
  | error e => cases h

/-- A key reported as unsealable is that of the webhook that was looked up. -/
theorem DeliveryResolver.resolve_unsealable {gcm : AEAD} {rz : DeliveryResolver}
    {lookup : Except StoreError Webhook} {provided : Option Str} {webhookID : Int} {wh : Webhook}
    {master : Str} (h : (rz.resolve gcm lookup provided webhookID).1 = .keyUnsealable wh master) :
    lookup = .ok wh ∧ gcm.open master wh.secretCiphertext = none := by
  unfold resolve at h
  split at h
  · cases h
  · split at h
    · cases h
    · split at h
      · cases h
      · split at h
        · rename_i hopen
          cases h
          exact ⟨rfl, hopen⟩
        · cases h

namespace Fleet

variable (f : Fleet)

/-- The changes of the outbox table, by the step that makes them. -/
inductive Effect (s : Outbox) : Label → Database → Prop
  | quiet {l db} (h : db.webhookDeliveries = s.db.webhookDeliveries) : Effect s l db
  | enqueue {webhookID event payload now d db}
      (h : DeliveryRepo.enqueue webhookID event payload now s.db = .ok (d, db)) :
      Effect s (.enqueue webhookID event payload now) db
  | deleteWebhook {id db} (h : WebhookRepo.delete id s.db = .ok ((), db)) :
      Effect s (.deleteWebhook id) db
  | reclaim {i now} : Effect s (.reclaim i now false)
      (DeliveryRepo.reclaimStale (unix (now - (f.worker i).staleAfter)) s.db)
  | claim {i now c rest won} (hp : s.phase i = .claiming now (c :: rest) won) :
      Effect s (.claim i false) (DeliveryRepo.claim c.id now s.db).2
  | mark {i now rz c mark queue db} (hp : s.phase i = .marking rz c mark queue)
      (h : mark.exec c.id now s.db = .ok ((), db)) : Effect s (.mark i now false) db

/-- The moves of one worker: its phase before and after, and the trace after. -/
inductive Move (i : ℕ) (s : Outbox) (l : Label) : Phase → Phase → List Event → Prop
  | crash {p} : Move i s l p .idle s.trace
  | reclaim : Move i s l .idle .reclaimed s.trace
  | select {now limit} :
      Move i s l .reclaimed (.claiming now (DeliveryRepo.due now limit s.db) []) s.trace
  | claimDone {now won} :
      Move i s l (.claiming now [] won) (.delivering newDeliveryResolver won) s.trace
  | claimLost {now d rest won} :
      Move i s l (.claiming now (d :: rest) won) (.claiming now rest won) s.trace
  | claimWon {now d rest won} (hl : l = .claim i false)
      (h : ∃ r ∈ s.rows, r.id = d.id ∧ r.status = .pending) :
      Move i s l (.claiming now (d :: rest) won) (.claiming now rest (won ++ [d.claimed now]))
        (.claimed i d.id :: s.trace)
  | prepared {rz rz' sm d queue} :
      Move i s l (.delivering rz (d :: queue)) (.posting rz' sm d queue) s.trace
  | failed {rz rz' now d reason queue} : Move i s l (.delivering rz (d :: queue))
      (.marking rz' d ((f.worker i).fail now d 0 reason) queue) s.trace
  | unsealable {rz rz' d wh master reason queue} (hid : wh.id = d.webhookID)
      (hopen : f.gcm.open master wh.secretCiphertext = none) :
      Move i s l (.delivering rz (d :: queue)) (.marking rz' d (.dead 0 reason) queue)
        (.unsealable i d.id wh master :: s.trace)
  | posted {rz sm now d outcome queue} : Move i s l (.posting rz sm d queue)
      (.marking rz d ((f.worker i).conclude now d outcome) queue)
      (.answered i d.id outcome :: s.trace)
  | marked {rz d mark queue} :
      Move i s l (.marking rz d mark queue) (.delivering rz queue) s.trace

/-- What a step of a worker does. -/
structure WorkerStep (i : ℕ) (s : Outbox) (l : Label) (s' : Outbox) : Prop where
  effect : f.Effect s l s'.db
  move : f.Move i s l (s.phase i) (s'.phase i) s'.trace
  others : ∀ j, j ≠ i → s'.phase j = s.phase j

variable {f} {i : ℕ} {s s' : Outbox} {now : Int} {fails : Bool}

/-- A step is read off the move of its worker and the effect on the database. -/
theorem workerStep_goto {l : Label} {p : Phase} {db : Database} {trace : List Event}
    (he : f.Effect s l db) (hm : f.Move i s l (s.phase i) p trace) :
    f.WorkerStep i s l ({ s with db, trace }.goto i p) := by
  refine ⟨he, ?_, fun j hj => Outbox.goto_other _ p hj⟩
  rwa [Outbox.goto_phase]

theorem reclaimStep_inv (h : f.reclaimStep i s now fails = some s') :
    f.WorkerStep i s (.reclaim i now fails) s' := by
  unfold reclaimStep at h
  split at h
  · rename_i hp
    cases h
    refine workerStep_goto ?_ (hp ▸ .reclaim)
    cases fails
    · exact .reclaim
    · exact .quiet rfl
  · cases h

theorem selectStep_inv (h : f.selectStep i s now fails = some s') :
    f.WorkerStep i s (.select i now fails) s' := by
  unfold selectStep at h
  split at h
  · rename_i hp
    cases fails <;> cases h
    · exact workerStep_goto (.quiet rfl) (hp ▸ .select)
    · exact workerStep_goto (.quiet rfl) .crash
  · cases h

theorem claimStep_inv (h : claimStep i s fails = some s') :
    f.WorkerStep i s (.claim i fails) s' := by
  unfold claimStep at h
  split at h
  · rename_i hp
    cases h
    exact workerStep_goto (.quiet rfl) (hp ▸ .claimDone)
  · rename_i now' d rest won hp
    cases fails
    · simp only [Bool.false_eq_true, if_false] at h
      split at h
      · rename_i hwon
        cases h
        refine workerStep_goto (.claim hp) (hp ▸ .claimWon rfl ?_)
        simp only [DeliveryRepo.claim, DeliveryRepo.updateOne, List.any_eq_true, Bool.and_eq_true,
          decide_eq_true_eq] at hwon
        exact hwon
      · cases h
        exact workerStep_goto (.claim hp) (hp ▸ .claimLost)
    · cases h
      exact workerStep_goto (.quiet rfl) .crash
  · cases h

theorem resolveStep_inv {provided : Option Str}
    (h : f.resolveStep i s now fails provided = some s') :
    f.WorkerStep i s (.resolve i now fails provided) s' := by
  unfold resolveStep at h
  split at h
  · cases h
    exact workerStep_goto (.quiet rfl) .crash
  · rename_i rz d queue hp
    generalize hlookup : (if fails then .error .other else WebhookRepo.byID d.webhookID s.db :
      Except StoreError Webhook) = lookup at h
    cases hres : rz.resolve f.gcm lookup provided d.webhookID with
    | mk res rz' =>
      simp only [hres] at h
      cases res with
      | ok sm =>
        cases h
        exact workerStep_goto (.quiet rfl) (hp ▸ .prepared)
      | webhookGone =>
        cases h
        exact workerStep_goto (.quiet rfl) (hp ▸ .failed)
      | keyUnavailable =>
        cases h
        exact workerStep_goto (.quiet rfl) (hp ▸ .failed)
      | keyUnsealable wh master =>
        cases h
        obtain ⟨hwh, hopen⟩ := DeliveryResolver.resolve_unsealable (congrArg Prod.fst hres)
        refine workerStep_goto (.quiet rfl) (hp ▸ .unsealable ?_ hopen)
        cases fails
        · rw [← hlookup] at hwh
          exact of_decide_eq_true (Table.of_find?_eq_some (found_eq_ok.mp hwh)).2
        · rw [← hlookup] at hwh
          cases hwh
  · cases h

theorem postStep_inv {outcome : PostOutcome} (h : f.postStep i s now outcome = some s') :
    f.WorkerStep i s (.post i now outcome) s' := by
  unfold postStep at h
  split at h
  · rename_i hp
    cases h
    exact workerStep_goto (.quiet rfl) (hp ▸ .posted)
  · cases h

theorem markStep_inv (h : markStep i s now fails = some s') :
    f.WorkerStep i s (.mark i now fails) s' := by
  unfold markStep at h
  split at h
  · rename_i hp
    cases fails
    · simp only [Bool.false_eq_true, if_false] at h
      split at h
      · rename_i hexec
        cases h
        exact workerStep_goto (.mark hp hexec) (hp ▸ .marked)
      · cases h
        exact workerStep_goto (.quiet rfl) (hp ▸ .marked)
    · cases h
      exact workerStep_goto (.quiet rfl) (hp ▸ .marked)
  · cases h

/-- What a step of the system does: a step of the outside leaves the workers alone. -/
theorem next_inv {l : Label} (h : f.next l s = some s') :
    (∃ i, l.worker = some i ∧ f.WorkerStep i s l s') ∨
      (l.worker = none ∧ f.Effect s l s'.db ∧ s'.phase = s.phase ∧ s'.trace = s.trace) := by
  cases l with
  | enqueue webhookID event payload now =>
    obtain ⟨d, db, hr, rfl⟩ := Outbox.commit_eq_some h
    exact .inr ⟨rfl, .enqueue hr, rfl, rfl⟩
  | createWebhook projectID envID url events secretCiphertext now =>
    obtain ⟨w, db, hr, rfl⟩ := Outbox.commit_eq_some h
    obtain ⟨-, webhooks, -, rfl⟩ := WebhookRepo.create_eq_ok hr
    exact .inr ⟨rfl, .quiet rfl, rfl, rfl⟩
  | setWebhookEnabled id enabled now =>
    obtain ⟨u, db, hr, rfl⟩ := Outbox.commit_eq_some h
    obtain rfl := WebhookRepo.setEnabled_eq_ok hr
    exact .inr ⟨rfl, .quiet rfl, rfl, rfl⟩
  | deleteWebhook id =>
    obtain ⟨u, db, hr, rfl⟩ := Outbox.commit_eq_some h
    exact .inr ⟨rfl, .deleteWebhook hr, rfl, rfl⟩
  | reclaim i now fails => exact .inl ⟨i, rfl, reclaimStep_inv h⟩
  | select i now fails => exact .inl ⟨i, rfl, selectStep_inv h⟩
  | claim i fails => exact .inl ⟨i, rfl, claimStep_inv h⟩
  | resolve i now fails provided => exact .inl ⟨i, rfl, resolveStep_inv h⟩
  | post i now outcome => exact .inl ⟨i, rfl, postStep_inv h⟩
  | mark i now fails => exact .inl ⟨i, rfl, markStep_inv h⟩
  | crash i =>
    cases h
    exact .inl ⟨i, rfl, workerStep_goto (.quiet rfl) .crash⟩

end Fleet

end Comax.Webhook
