import Comax.Webhook.Lifecycle

/-!
# Who may finalise a claim

The guard of the `Mark*` statements tests the status of the row only, so a worker
that was reclaimed can still finalise the claim of the next one. It cannot as long
as no row is claimed while another worker still holds an unfinished claim on it: then
every held claim is the latest one of its row.
-/

namespace Comax.Webhook

open Comax.Core Comax.Store Comax.Crypto

namespace Fleet

variable {f : Fleet} {s s' : Outbox} {l : Label}

/-- A row is claimed only when no other worker holds an unfinished claim on it. -/
def Exclusive (s : Outbox) (l : Label) : Prop :=
  ∀ {i now c rest won}, l = .claim i false → s.phase i = .claiming now (c :: rest) won →
    (∃ r ∈ s.rows, r.id = c.id ∧ r.status = .pending) →
    ∀ j ≠ i, ∀ d ∈ (s.phase j).claims, d.id ≠ c.id

/-- A statement of a worker that records an outcome changes the outbox only if the claim it was
won for is the latest claim of the row; otherwise it is refused with `ErrNotFound`. -/
def ClaimOwnership (s : Outbox) : Prop :=
  ∀ {i rz d queue} {m : Mark}, s.phase i = .marking rz d m queue → ∀ now,
    (∀ db, m.exec d.id now s.db = .ok ((), db) → owner s.trace d.id = some i) ∧
    (owner s.trace d.id ≠ some i → m.exec d.id now s.db = .error .notFound)

/-- Every held claim is the latest one of its row. -/
def Owned (s : Outbox) : Prop := ∀ i, ∀ d ∈ (s.phase i).claims, owner s.trace d.id = some i

/-- Held claims that are the latest ones may be finalised. -/
theorem Owned.claimOwnership (h : Owned s) : ClaimOwnership s := by
  intro i rz d queue m hp now
  have hown : owner s.trace d.id = some i := h i d (by rw [hp]; exact List.mem_cons_self)
  exact ⟨fun _ _ => hown, fun hne => absurd hown hne⟩

/-- A move of a worker keeps its own claims the latest ones. -/
theorem Move.owned {i : ℕ} {p p' : Phase} {trace : List Event} (h : f.Move i s l p p' trace)
    (hp : ∀ d ∈ p.claims, owner s.trace d.id = some i) :
    ∀ d ∈ p'.claims, owner trace d.id = some i := by
  intro d hd
  cases h with
  | crash => exact absurd hd List.not_mem_nil
  | reclaim => exact absurd hd List.not_mem_nil
  | select => exact absurd hd List.not_mem_nil
  | claimDone => exact hp d hd
  | claimLost => exact hp d hd
  | @claimWon now c rest won _ _ =>
    unfold owner
    split
    · rfl
    · rename_i hne
      rcases List.mem_append.mp hd with hd | hd
      · exact hp d hd
      · obtain rfl := List.mem_singleton.mp hd
        exact absurd rfl hne
  | prepared => exact hp d hd
  | failed => exact hp d hd
  | unsealable => exact hp d hd
  | posted => exact hp d hd
  | marked => exact hp d (List.mem_cons_of_mem _ hd)

/-- A move changes the owner of a row only by winning its claim. -/
theorem Move.owner_eq {i : ℕ} {p p' : Phase} {trace : List Event} (h : f.Move i s l p p' trace)
    {id : Int} (hne : l = .claim i false → ∀ now d rest won, p = .claiming now (d :: rest) won →
      (∃ r ∈ s.rows, r.id = d.id ∧ r.status = .pending) → d.id ≠ id) :
    owner trace id = owner s.trace id := by
  cases h with
  | @claimWon now c rest won hl hwon =>
    have hid := hne hl now c rest won rfl hwon
    simp only [owner, hid, if_false]
  | crash => rfl
  | reclaim => rfl
  | select => rfl
  | claimDone => rfl
  | claimLost => rfl
  | prepared => rfl
  | failed => rfl
  | unsealable => rfl
  | posted => rfl
  | marked => rfl

/-- While claims are exclusive, the held ones stay the latest. -/
theorem owned_of_reach (h : f.machine.Reach Exclusive s) : Owned s := by
  refine Machine.Reach.invariant (I := Owned) h ?_ ?_
  · rintro s ⟨-, hphase, -⟩ i d hd
    rw [congrFun hphase i] at hd
    exact absurd hd List.not_mem_nil
  · intro s l s' _ ih hok hn j d hd
    rcases next_inv hn with ⟨i, hl, hw⟩ | ⟨-, -, hphase, htrace⟩
    · by_cases hj : j = i
      · subst hj
        exact hw.move.owned (ih j) d hd
      · rw [hw.others j hj] at hd
        rw [hw.move.owner_eq fun hclaim now c rest won hp hwon =>
          (hok hclaim hp hwon j hj d hd).symm]
        exact ih j d hd
    · rw [hphase] at hd
      rw [htrace]
      exact ih j d hd

/-- A worker can finalise only the latest claim of a row, in every run in which no row is
claimed while another worker still holds an unfinished claim on it. -/
theorem claim_ownership (h : f.machine.Reach Exclusive s) : ClaimOwnership s :=
  (owned_of_reach h).claimOwnership

/-- A step of a single worker, or of the outside, claims exclusively and lets the others rest. -/
theorem exclusive_of_solo {i : ℕ} (hidle : ∀ j ≠ i, s.phase j = .idle)
    (hl : l.worker = none ∨ l.worker = some i) (hn : f.next l s = some s') :
    (∀ j ≠ i, s'.phase j = .idle) ∧ Exclusive s l := by
  constructor
  · intro j hj
    rcases next_inv hn with ⟨k, hk, hw⟩ | ⟨-, -, hphase, -⟩
    · obtain rfl : k = i := by simpa [hk] using hl
      rw [hw.others j hj]
      exact hidle j hj
    · rw [hphase]
      exact hidle j hj
  · intro k now c rest won hk _ _ j hj d hd
    obtain rfl : k = i := by simpa [hk, Label.worker] using hl
    rw [hidle j hj] at hd
    exact absurd hd List.not_mem_nil

/-- The runs of a single worker claim exclusively. -/
theorem reach_of_solo {i : ℕ} {ls : List Label} (hs : f.machine.start s)
    (hls : ∀ l ∈ ls, l.worker = none ∨ l.worker = some i) (hr : f.machine.run ls s = some s') :
    f.machine.Reach Exclusive s' :=
  Machine.Reach.run (J := fun s => ∀ j ≠ i, s.phase j = .idle)
    (fun hJ hl hn => exclusive_of_solo hJ (hls _ hl) hn) (.start hs)
    (fun j _ => congrFun hs.2.1 j) hr

end Fleet

/-- Workers as the server starts them. -/
def defaultFleet : Fleet where
  gcm := plainGCM
  maxAttempts := defaultMaxAttempts
  worker _ := newWorker ⟨0, 0, 0, none⟩
  shared _ := rfl

/-- An empty outbox and one webhook. -/
def oneWebhook : Outbox where
  db := { Database.empty with
    projects := ⟨[⟨1, ascii "p", 0, 0⟩], by decide⟩
    webhooks := ⟨[⟨1, 1, none, ascii "https://hook", plainSealed (ascii "key"),
      eventSecretUpsert, true, 0, 0⟩], by decide⟩ }
  phase _ := .idle
  trace := []

/-- Worker 0 claims a delivery and is about to POST it. -/
def firstClaim : List Label :=
  [.enqueue 1 eventSecretUpsert [] 0, .reclaim 0 0 false, .select 0 0 false, .claim 0 false,
    .claim 0 false, .resolve 0 0 false (some plainKey)]

/-- Worker 1 reclaims stale rows and claims one. -/
def secondClaim (now : Int) : List Label :=
  [.reclaim 1 now false, .select 1 now false, .claim 1 false]

/-- A worker is about to finalise a claim that is not the latest of its row. -/
def overrides (i : ℕ) (now : Int) (s : Outbox) : Bool :=
  match s.phase i with
  | .marking _ d m _ =>
    owner s.trace d.id ≠ some i && (m.exec d.id now s.db).toOption.isSome
  | _ => false

/-- Such a worker breaks the ownership of claims. -/
theorem not_claimOwnership_of_overrides {i : ℕ} {now : Int} {s : Outbox}
    (h : overrides i now s = true) : ¬ Fleet.ClaimOwnership s := by
  intro hown
  unfold overrides at h
  split at h
  · rename_i hp
    simp only [Bool.and_eq_true, decide_eq_true_eq] at h
    rw [(hown hp now).2 h.1] at h
    cases h.2
  · cases h

/-- A worker whose lease ran out finalises the claim of the worker that came after it. -/
theorem late_mark_overrides : ¬ ∀ s, defaultFleet.machine.Reachable s → Fleet.ClaimOwnership s := by
  intro hall
  have hrun : (defaultFleet.machine.run (firstClaim ++ secondClaim (130 * second) ++
      [.post 0 (131 * second) (.response 500)]) oneWebhook).any
        (overrides 0 (131 * second)) = true := by
    decide +kernel
  obtain ⟨s, hs, hover⟩ := (Option.any_eq_true _ _).mp hrun
  exact not_claimOwnership_of_overrides hover
    (hall s (Machine.Reachable.run (.start ⟨rfl, rfl, rfl⟩) hs))

/-- After the POST of a single worker, its claim is still the latest. -/
theorem claim_ownership_single : ∃ s,
    defaultFleet.machine.run (firstClaim ++ [.post 0 second (.response 500)]) oneWebhook = some s ∧
      Fleet.ClaimOwnership s := by
  have hrun : (defaultFleet.machine.run (firstClaim ++ [.post 0 second (.response 500)])
      oneWebhook).isSome = true := by
    decide +kernel
  obtain ⟨s, hs⟩ := Option.isSome_iff_exists.mp hrun
  exact ⟨s, hs, Fleet.claim_ownership
    (Fleet.reach_of_solo (i := 0) ⟨rfl, rfl, rfl⟩ (by decide) hs)⟩

end Comax.Webhook
