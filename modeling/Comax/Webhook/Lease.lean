import Comax.Webhook.Ownership

/-!
# Leases that run out

A tick claims a batch at one moment and then delivers it row by row, and every tick
takes back the rows whose claim is older than `staleAfter`. While no lease runs out
under a worker that still holds it, a row is claimed by one worker at a time and an
attempt is POSTed once. The default settings do not see to that: a batch of slow
receivers outlasts the lease.
-/

namespace Comax.Webhook

open Comax.Core Comax.Store Comax.Crypto

namespace Fleet

variable {f : Fleet} {s s' : Outbox} {l : Label}

/-- No `ReclaimStale` finds a claim stale that a worker still holds, and no webhook is deleted
while a worker holds one of its deliveries. -/
structure Punctual (f : Fleet) (s : Outbox) (l : Label) : Prop where
  reclaim : ∀ {i now}, l = .reclaim i now false → ∀ j, ∀ d ∈ (s.phase j).claims,
    DeliveryRepo.stale (unix (now - (f.worker i).staleAfter)) d = false
  delete : ∀ {id}, l = .deleteWebhook id → ∀ j, ∀ d ∈ (s.phase j).claims, ∀ r ∈ s.rows,
    r.id = d.id → r.webhookID ≠ id

/-- No worker crashes, no outcome is lost to a failed statement, and the row stays. -/
structure Live (id : Int) (s : Outbox) (l : Label) : Prop where
  crash : ∀ i, l ≠ .crash i
  mark : ∀ i now, l ≠ .mark i now true
  delete : ∀ {webhookID}, l = .deleteWebhook webhookID → ∀ r ∈ s.rows, r.id = id →
    r.webhookID ≠ webhookID

/-- The claims are those of the rows in progress, one worker each. -/
structure Held (s : Outbox) : Prop where
  row : ∀ j, ∀ d ∈ (s.phase j).claims, ∃ r ∈ s.rows, r.id = d.id ∧ r.status = .inProgress ∧
    d.status = .inProgress ∧ r.claimedAt = d.claimedAt
  apart : ∀ i j, i ≠ j → ∀ d ∈ (s.phase i).claims, ∀ e ∈ (s.phase j).claims, d.id ≠ e.id
  nodup : ∀ i, ((s.phase i).claims.map (·.id)).Nodup

/-- A row in progress that is not taken back, deleted or recorded stays as it is. -/
theorem Effect.kept {db : Database} (h : f.Effect s l db) {r : WebhookDelivery} (hr : r ∈ s.rows)
    (hst : r.status = .inProgress)
    (hreclaim : ∀ {i now}, l = .reclaim i now false →
      DeliveryRepo.stale (unix (now - (f.worker i).staleAfter)) r = false)
    (hdelete : ∀ {id}, l = .deleteWebhook id → r.webhookID ≠ id)
    (hmark : ∀ {i now rz c m queue}, l = .mark i now false →
      s.phase i = .marking rz c m queue → c.id ≠ r.id) : r ∈ db.webhookDeliveries.rows := by
  cases h with
  | quiet h =>
    rw [h]
    exact hr
  | enqueue h =>
    obtain ⟨-, t, hins, rfl⟩ := DeliveryRepo.enqueue_eq_ok h
    exact (Table.prefix_of_insert hins).subset hr
  | deleteWebhook h =>
    obtain rfl := WebhookRepo.delete_eq_ok h
    exact List.mem_filter.mpr ⟨hr, by simp [hdelete rfl]⟩
  | reclaim => exact List.mem_map.mpr ⟨r, hr, by rw [hreclaim rfl]; rfl⟩
  | claim hp => exact mem_updateOne.mpr ⟨r, hr, if_neg fun h => by simp [hst] at h⟩
  | mark hp h =>
    rw [Mark.exec_eq] at h
    obtain ⟨-, rfl⟩ := DeliveryRepo.affectedOne_eq_ok.mp h
    exact mem_updateOne.mpr ⟨r, hr, if_neg fun h => hmark rfl hp h.1.symm⟩

/-- A pending row that is won is marked as claimed. -/
theorem claimed_of_next {i : ℕ} {now : Int} {c : WebhookDelivery} {rest won : List WebhookDelivery}
    (hp : s.phase i = .claiming now (c :: rest) won) (hn : f.next (.claim i false) s = some s')
    {r : WebhookDelivery} (hr : r ∈ s.rows) (hid : r.id = c.id) (hst : r.status = .pending) :
    r.claimed now ∈ s'.rows := by
  have hrow : r.claimed now ∈ (DeliveryRepo.claim c.id now s.db).2.webhookDeliveries.rows :=
    mem_updateOne.mpr ⟨r, hr, if_pos ⟨hid, hst⟩⟩
  simp only [next, claimStep, hp, Bool.false_eq_true, if_false] at hn
  split at hn
  · cases hn
    exact hrow
  · cases hn
    exact hrow

/-- The outcome of a held claim is recorded. -/
theorem recorded_of_next {i : ℕ} {now : Int} {rz : DeliveryResolver} {c r : WebhookDelivery}
    {m : Mark} {queue : List WebhookDelivery} (hp : s.phase i = .marking rz c m queue)
    (hn : f.next (.mark i now false) s = some s') (hr : r ∈ s.rows) (hid : r.id = c.id)
    (hst : r.status = .inProgress) : m.row now r ∈ s'.rows := by
  simp only [next, markStep, hp, Bool.false_eq_true, if_false, Mark.exec_eq] at hn
  have hhit : (s.db.webhookDeliveries.rows.any fun d =>
      d.id = c.id && d.status = .inProgress) = true :=
    List.any_eq_true.mpr ⟨r, hr, by simp [hid, hst]⟩
  simp only [DeliveryRepo.affectedOne, DeliveryRepo.updateOne, hhit, if_true] at hn
  cases hn
  exact List.mem_map.mpr ⟨r, hr, by simp [hid, hst]⟩

/-- A claim held after a move was held before it, or has just been won. -/
theorem Move.claims_cases {i : ℕ} {p p' : Phase} {trace : List Event}
    (h : f.Move i s l p p' trace) {d : WebhookDelivery} (hd : d ∈ p'.claims) :
    d ∈ p.claims ∨ ∃ now c rest won, l = .claim i false ∧ p = .claiming now (c :: rest) won ∧
      d = c.claimed now ∧ ∃ r ∈ s.rows, r.id = c.id ∧ r.status = .pending := by
  cases h with
  | crash => exact absurd hd List.not_mem_nil
  | reclaim => exact absurd hd List.not_mem_nil
  | select => exact absurd hd List.not_mem_nil
  | claimDone => exact .inl hd
  | claimLost => exact .inl hd
  | @claimWon now c rest won hl hrow =>
    rcases List.mem_append.mp hd with hd | hd
    · exact .inl hd
    · exact .inr ⟨now, c, rest, won, hl, rfl, List.mem_singleton.mp hd, hrow⟩
  | prepared => exact .inl hd
  | failed => exact .inl hd
  | unsealable => exact .inl hd
  | posted => exact .inl hd
  | marked => exact .inl (List.mem_cons_of_mem _ hd)

/-- A worker that records an outcome lets go of the claim. -/
theorem Move.claims_marking {i : ℕ} {p' : Phase} {trace : List Event} {rz : DeliveryResolver}
    {c : WebhookDelivery} {m : Mark} {queue : List WebhookDelivery}
    (h : f.Move i s l (.marking rz c m queue) p' trace) {d : WebhookDelivery}
    (hd : d ∈ p'.claims) : d ∈ queue := by
  cases h with
  | crash => exact absurd hd List.not_mem_nil
  | marked => exact hd

/-- The claims of a worker stay distinct when it wins only rows it does not hold. -/
theorem Move.nodup_claims {i : ℕ} {p p' : Phase} {trace : List Event}
    (h : f.Move i s l p p' trace) (hp : (p.claims.map (·.id)).Nodup)
    (hfresh : ∀ c : WebhookDelivery, (∃ r ∈ s.rows, r.id = c.id ∧ r.status = .pending) →
      ∀ d ∈ p.claims, d.id ≠ c.id) : (p'.claims.map (·.id)).Nodup := by
  cases h with
  | crash => exact List.nodup_nil
  | reclaim => exact List.nodup_nil
  | select => exact List.nodup_nil
  | claimDone => exact hp
  | claimLost => exact hp
  | @claimWon now c rest won hl hrow =>
    simp only [Phase.claims, List.map_append, List.map_cons, List.map_nil]
    refine List.nodup_append.mpr ⟨hp, List.nodup_singleton _, ?_⟩
    intro id hid id' hid'
    obtain ⟨d, hd, rfl⟩ := List.mem_map.mp hid
    rw [List.mem_singleton.mp hid']
    exact hfresh c hrow d hd
  | prepared => exact hp
  | failed => exact hp
  | unsealable => exact hp
  | posted => exact hp
  | marked => exact (List.nodup_cons.mp hp).2

namespace Held

/-- A pending row is in no worker's hands. -/
theorem fresh (h : Held s) {c : WebhookDelivery}
    (hrow : ∃ r ∈ s.rows, r.id = c.id ∧ r.status = .pending) (j : ℕ) :
    ∀ d ∈ (s.phase j).claims, d.id ≠ c.id := by
  obtain ⟨r, hr, hid, hst⟩ := hrow
  intro d hd hsame
  obtain ⟨r', hr', hid', hst', -⟩ := h.row j d hd
  have heq : r' = r :=
    s.db.webhookDeliveries.eq_of_id_eq hr' hr (hid'.trans (hsame.trans hid.symm))
  rw [heq, hst] at hst'
  cases hst'

/-- Held claims are exclusive. -/
theorem exclusive (h : Held s) (l : Label) : Exclusive s l :=
  fun _ _ hrow j _ => h.fresh hrow j

/-- A worker whose claim is recorded holds no other claim on the row. -/
theorem marking_apart (h : Held s) {i j : ℕ} {rz : DeliveryResolver} {c : WebhookDelivery}
    {m : Mark} {queue : List WebhookDelivery} (hp : s.phase i = .marking rz c m queue)
    {d : WebhookDelivery} (hd : d ∈ (s.phase j).claims) (hqueue : j = i → d ∈ queue) :
    c.id ≠ d.id := by
  by_cases hj : j = i
  · have hnodup := h.nodup i
    rw [hp] at hnodup
    intro hsame
    exact (List.nodup_cons.mp hnodup).1 (List.mem_map.mpr ⟨d, hqueue hj, hsame.symm⟩)
  · exact h.apart i j (Ne.symm hj) c (by rw [hp]; exact List.mem_cons_self) d hd

/-- The row of a claim that is not being recorded stays. -/
theorem row_of_next (h : Held s) (hok : f.Punctual s l) (hn : f.next l s = some s') {j : ℕ}
    {d : WebhookDelivery} (hd : d ∈ (s.phase j).claims)
    (hmark : ∀ {i now rz c m queue}, l = .mark i now false →
      s.phase i = .marking rz c m queue → c.id ≠ d.id) :
    ∃ r ∈ s'.rows, r.id = d.id ∧ r.status = .inProgress ∧ d.status = .inProgress ∧
      r.claimedAt = d.claimedAt := by
  obtain ⟨r, hr, hid, hst, hdst, hat⟩ := h.row j d hd
  refine ⟨r, (next_effect hn).kept hr hst ?_ ?_ ?_, hid, hst, hdst, hat⟩
  · intro i now hl
    rw [← hok.reclaim hl j d hd, DeliveryRepo.stale, DeliveryRepo.stale, hst, hdst, hat]
  · exact fun hl => hok.delete hl j d hd r hr hid
  · intro i now rz c m queue hl hp
    rw [hid]
    exact hmark hl hp

/-- Workers between two ticks hold no claims. -/
theorem of_idle (hidle : ∀ j, s.phase j = .idle) : Held s := by
  refine ⟨fun j d hd => ?_, fun i j _ d hd => ?_, fun i => ?_⟩
  · rw [hidle j] at hd
    cases hd
  · rw [hidle i] at hd
    cases hd
  · rw [hidle i]
    exact List.nodup_nil

/-- Claims stay held and exclusive while the leases last. -/
theorem next (h : Held s) (hok : f.Punctual s l) (hn : f.next l s = some s') : Held s' := by
  rcases next_inv hn with ⟨i, hl, hw⟩ | ⟨hl, -, hphase, -⟩
  · have hworker : ∀ {k now fails}, l = .mark k now fails → k = i := by
      rintro k now fails rfl
      exact Option.some.inj hl
    refine ⟨fun j d hd => ?_, fun j k hjk d hd e he => ?_, fun j => ?_⟩
    · by_cases hj : j = i
      · subst hj
        rcases hw.move.claims_cases hd with
          hold | ⟨now, c, rest, won, rfl, hp, rfl, r, hr, hid, hst⟩
        · refine h.row_of_next hok hn hold fun hlabel hp => ?_
          obtain rfl := hworker hlabel
          refine h.marking_apart hp hold fun _ => ?_
          exact (hp ▸ hw.move).claims_marking hd
        · exact ⟨r.claimed now, claimed_of_next hp hn hr hid hst, hid, rfl, rfl, rfl⟩
      · rw [hw.others j hj] at hd
        refine h.row_of_next hok hn hd fun hlabel hp => ?_
        obtain rfl := hworker hlabel
        exact h.marking_apart hp hd fun hji => absurd hji hj
    · have hone : ∀ {a b : ℕ} {x y : WebhookDelivery}, a = i → b ≠ i → x ∈ (s'.phase a).claims →
          y ∈ (s'.phase b).claims → x.id ≠ y.id := by
        rintro a b x y rfl hb hx hy
        rw [hw.others b hb] at hy
        rcases hw.move.claims_cases hx with hold | ⟨now, c, rest, won, -, -, rfl, hrow⟩
        · exact h.apart a b (Ne.symm hb) x hold y hy
        · exact (h.fresh hrow b y hy).symm
      by_cases hj : j = i
      · exact hone hj (fun hk => hjk (hj.trans hk.symm)) hd he
      · by_cases hk : k = i
        · exact (hone hk hj he hd).symm
        · rw [hw.others j hj] at hd
          rw [hw.others k hk] at he
          exact h.apart j k hjk d hd e he
    · by_cases hj : j = i
      · subst hj
        exact hw.move.nodup_claims (h.nodup j) fun c hrow => h.fresh hrow j
      · rw [hw.others j hj]
        exact h.nodup j
  · have hmark : ∀ {k now fails}, l ≠ .mark k now fails := by
      rintro k now fails rfl
      cases hl
    refine ⟨fun j d hd => ?_, ?_, ?_⟩
    · rw [hphase] at hd
      exact h.row_of_next hok hn hd fun hlabel => absurd hlabel hmark
    · rw [hphase]
      exact h.apart
    · rw [hphase]
      exact h.nodup

end Held

/-- In every run whose leases last, the claims are held. -/
theorem held_of_reach (h : f.machine.Reach f.Punctual s) : Held s := by
  refine h.invariant (fun hs => .of_idle fun j => ?_) fun _ hheld hok hn => hheld.next hok hn
  exact congrFun hs.2.1 j

/-! ## One POST for an attempt -/

/-- The attempt `a` of a row was POSTed: it is counted, or its worker is about to record it. -/
def Sent (id a : Int) (s : Outbox) : Prop :=
  ∃ r ∈ s.rows, r.id = id ∧ (a < r.attempts ∨ r.attempts = a ∧
    ∃ j rz c m queue, s.phase j = .marking rz c m queue ∧ c.id = id)

/-- A worker that is about to record an outcome does so or crashes. -/
theorem label_of_marking {j : ℕ} {rz : DeliveryResolver} {c : WebhookDelivery} {m : Mark}
    {queue : List WebhookDelivery} (hp : s.phase j = .marking rz c m queue)
    (hn : f.next l s = some s') (hl : l.worker = some j) :
    l = .crash j ∨ ∃ now fails, l = .mark j now fails := by
  cases l with
  | enqueue => cases hl
  | createWebhook => cases hl
  | setWebhookEnabled => cases hl
  | deleteWebhook => cases hl
  | reclaim i now fails =>
    cases hl
    simp [next, reclaimStep, hp] at hn
  | select i now fails =>
    cases hl
    simp [next, selectStep, hp] at hn
  | claim i fails =>
    cases hl
    simp [next, claimStep, hp] at hn
  | resolve i now fails provided =>
    cases hl
    simp [next, resolveStep, hp] at hn
  | post i now outcome =>
    cases hl
    simp [next, postStep, hp] at hn
  | mark i now fails =>
    cases hl
    exact .inr ⟨now, fails, rfl⟩
  | crash i =>
    cases hl
    exact .inl rfl

/-- A sent attempt stays sent until it is counted. -/
theorem Sent.next {id a : Int} (h : Sent id a s) (hheld : Held s) (hlive : Live id s l)
    (hn : f.next l s = some s') : Sent id a s' := by
  obtain ⟨r, hr, hid, hcase⟩ := h
  obtain ⟨r', hr', hadv⟩ := (advances_of_next hn hr).resolve_left fun hl =>
    hlive.delete hl r hr hid rfl
  rcases hcase with hlt | ⟨heq, j, rz, c, m, queue, hp, hc⟩
  · exact ⟨r', hr', hadv.id.trans hid, .inl (hlt.trans_le hadv.attempts)⟩
  · rcases hadv.attempts.lt_or_eq with hlt | hsame
    · exact ⟨r', hr', hadv.id.trans hid, .inl (heq ▸ hlt)⟩
    · have hstay : s'.phase j = s.phase j → Sent id a s' := fun hphase =>
        ⟨r', hr', hadv.id.trans hid, .inr ⟨hsame.symm.trans heq, j, rz, c, m, queue,
          hphase.trans hp, hc⟩⟩
      rcases next_inv hn with ⟨i, hl, hw⟩ | ⟨-, -, hphase, -⟩
      · by_cases hj : j = i
        · subst hj
          rcases label_of_marking hp hn hl with hcrash | ⟨now, fails, rfl⟩
          · exact absurd hcrash (hlive.crash j)
          · cases fails with
            | true => exact absurd rfl (hlive.mark j now)
            | false =>
              obtain ⟨x, hx, hxid, hxst, -⟩ :=
                hheld.row j c (by rw [hp]; exact List.mem_cons_self)
              obtain rfl := s.db.webhookDeliveries.eq_of_id_eq hx hr
                (hxid.trans (hc.trans hid.symm))
              refine ⟨m.row now x, recorded_of_next hp hn hr hxid hxst, ?_, .inl ?_⟩
              · rw [Mark.row_id, hid]
              · rw [Mark.row_attempts]
                omega
        · exact hstay (hw.others j hj)
      · exact hstay (congrFun hphase j)

/-- A sent attempt stays sent for the rest of a run. -/
theorem Sent.leads {id a : Int} (hsent : Sent id a s) (h : f.machine.Reach f.Punctual s)
    (hl : f.machine.Leads (fun s l => f.Punctual s l ∧ Live id s l) s s') :
    f.machine.Reach f.Punctual s' ∧ Sent id a s' := by
  induction hl with
  | refl => exact ⟨h, hsent⟩
  | tail _ hn ih =>
    obtain ⟨l, ⟨hpunctual, hlive⟩, hn⟩ := hn
    exact ⟨ih.1.step hpunctual hn, ih.2.next (held_of_reach ih.1) hlive hn⟩

/-- After a POST of a row that leads to `s₁`, no worker is about to POST it again for the same
attempt, as long as the workers live and the row stays. -/
def PostedOnce (f : Fleet) (s : Outbox) (d : WebhookDelivery) (s₁ : Outbox) : Prop :=
  ∀ s₂, f.machine.Leads (fun s l => f.Punctual s l ∧ Live d.id s l) s₁ s₂ →
    ∀ {j rz sm d' queue}, s₂.phase j = .posting rz sm d' queue → d'.id = d.id →
      ∀ r ∈ s.rows, r.id = d.id → ∀ r' ∈ s₂.rows, r'.id = d.id → r.attempts < r'.attempts

/-- In every run whose leases last, a row is claimed only when no other worker holds an
unfinished claim on it, and an attempt of a row is POSTed once. -/
theorem lease_exclusive (f : Fleet) {s : Outbox} (h : f.machine.Reach f.Punctual s) :
    (∀ l, Exclusive s l) ∧
      ∀ {i rz sm d queue now outcome s₁}, s.phase i = .posting rz sm d queue →
        f.next (.post i now outcome) s = some s₁ → f.PostedOnce s d s₁ := by
  refine ⟨(held_of_reach h).exclusive, ?_⟩
  intro i rz sm d queue now outcome s₁ hp hn s₂ hl j rz' sm' d' queue' hp' hid' r hr hid r' hr'
    hid''
  have hpost : f.Punctual s (.post i now outcome) := by
    constructor
    · intro i now hlabel
      cases hlabel
    · intro id hlabel
      cases hlabel
  have h₁ : f.machine.Reach f.Punctual s₁ := h.step hpost hn
  have hsent : Sent d.id r.attempts s₁ := by
    simp only [next, postStep, hp] at hn
    cases hn
    exact ⟨r, hr, hid, .inr ⟨rfl, i, rz, d, _, queue, Outbox.goto_phase _ _ _, rfl⟩⟩
  obtain ⟨h₂, x, hx, hxid, hcounted | ⟨-, k, rz, c, m, queue, hmarking, hc⟩⟩ :=
    hsent.leads h₁ hl
  · rw [s₂.db.webhookDeliveries.eq_of_id_eq hr' hx (hid''.trans hxid.symm)]
    exact hcounted
  · have hheld := held_of_reach h₂
    have hd' : d' ∈ (s₂.phase j).claims := by
      rw [hp']
      exact List.mem_cons_self
    refine absurd (hc.trans hid'.symm) (hheld.marking_apart hmarking hd' fun hjk => ?_)
    rw [hjk, hmarking] at hp'
    cases hp'

/-- The leases of a lone worker last, since it takes back stale rows between its ticks only. -/
theorem punctual_of_solo {i : ℕ} (hidle : ∀ j ≠ i, s.phase j = .idle)
    (hl : l.worker = none ∨ l.worker = some i) (hkept : Undeleted s l)
    (hn : f.next l s = some s') : f.Punctual s l := by
  constructor
  · rintro k now rfl j d hd
    obtain rfl : k = i := by simpa [Label.worker] using hl
    have hphase : s.phase j = .idle := by
      by_cases hj : j = k
      · rw [hj]
        simp only [next, reclaimStep] at hn
        split at hn
        · assumption
        · cases hn
      · exact hidle j hj
    rw [hphase] at hd
    cases hd
  · exact fun hdelete => absurd hdelete (hkept _)

end Fleet

/-- The timeout of the default client. -/
def clientTimeout : Int := 10 * second

/-- The time of a step that reads the clock. -/
def Label.now : Label → Option Int
  | .enqueue _ _ _ now => some now
  | .createWebhook _ _ _ _ _ now => some now
  | .setWebhookEnabled _ _ now => some now
  | .deleteWebhook _ => none
  | .reclaim _ now _ => some now
  | .select _ now _ => some now
  | .claim _ _ => none
  | .resolve _ now _ _ => some now
  | .post _ now _ => some now
  | .mark _ now _ => some now
  | .crash _ => none

/-- No worker crashes and no statement fails. -/
def Label.smooth : Label → Bool
  | .reclaim _ _ fails => !fails
  | .select _ _ fails => !fails
  | .claim _ fails => !fails
  | .resolve _ _ fails _ => !fails
  | .mark _ _ fails => !fails
  | .crash _ => false
  | _ => true

/-- The runs of live workers that the clock and the client timeout allow, from a time on and after
the latest step of each worker: time does not go back, and a POST ends within the timeout. -/
def timely (clock : Int) (latest : ℕ → Int) : List Label → Bool
  | [] => true
  | l :: ls =>
    let t := l.now.getD clock
    clock ≤ t && l.smooth &&
      (match l with
        | .post i now _ => decide (now ≤ latest i + clientTimeout)
        | _ => true) &&
      timely t (l.worker.elim latest fun i => Function.update latest i t) ls

/-- Worker 0 claims 13 deliveries and is answered after ten seconds each time; worker 1 then starts
a tick. -/
def slowBatch : List Label :=
  List.replicate 13 (.enqueue 1 eventSecretUpsert [] 0) ++
    [.reclaim 0 0 false, .select 0 0 false] ++ List.replicate 14 (.claim 0 false) ++
    (List.range 12).flatMap (fun n =>
      [.resolve 0 (n * clientTimeout) false (some plainKey),
        .post 0 ((n + 1) * clientTimeout) (.response 200),
        .mark 0 ((n + 1) * clientTimeout) false]) ++
    [.resolve 0 (120 * second) false (some plainKey), .reclaim 1 (121 * second) false,
      .select 1 (121 * second) false]

/-- Worker 1 claims the last of them, and both workers POST it. -/
def bothPost : List Label :=
  [.claim 1 false, .claim 1 false, .resolve 1 (121 * second) false (some plainKey),
    .post 1 (122 * second) (.response 200), .post 0 (130 * second) (.response 200)]

/-- One worker is about to win a row that another one holds. -/
def contested (i j : ℕ) (s : Outbox) : Bool :=
  match s.phase i with
  | .claiming _ (c :: _) _ =>
    s.rows.any (fun r => r.id = c.id && r.status = .pending) &&
      (s.phase j).claims.any fun d => d.id = c.id
  | _ => false

/-- Such a claim is not exclusive. -/
theorem not_exclusive_of_contested {i j : ℕ} {s : Outbox} (hij : j ≠ i)
    (h : contested i j s = true) : ¬ Fleet.Exclusive s (.claim i false) := by
  intro hex
  unfold contested at h
  split at h
  · rename_i hp
    simp only [Bool.and_eq_true, List.any_eq_true, decide_eq_true_eq] at h
    obtain ⟨hrow, d, hd, hid⟩ := h
    exact hex rfl hp hrow j hij d hd hid
  · cases h

/-- The lease of a live worker runs out: another worker claims the row it is about to POST, and
both POST the same attempt. -/
theorem lease_runs_out :
    (¬ ∀ ls l s, timely 0 (fun _ => 0) (ls ++ [l]) = true →
      defaultFleet.machine.run ls oneWebhook = some s → Fleet.Exclusive s l) ∧
    ∃ s, timely 0 (fun _ => 0) (slowBatch ++ bothPost) = true ∧
      defaultFleet.machine.run (slowBatch ++ bothPost) oneWebhook = some s ∧
      .answered 0 13 (.response 200) ∈ s.trace ∧ .answered 1 13 (.response 200) ∈ s.trace ∧
      ∃ r ∈ s.rows, r.id = 13 ∧ r.attempts = 0 := by
  constructor
  · intro hall
    have hrun : (defaultFleet.machine.run slowBatch oneWebhook).any (contested 1 0) = true := by
      decide +kernel
    obtain ⟨s, hs, hcontested⟩ := (Option.any_eq_true _ _).mp hrun
    exact not_exclusive_of_contested (by decide) hcontested
      (hall slowBatch (.claim 1 false) s (by decide +kernel) hs)
  · have hrun : (defaultFleet.machine.run (slowBatch ++ bothPost) oneWebhook).any (fun s =>
        decide (.answered 0 13 (.response 200) ∈ s.trace) &&
          decide (.answered 1 13 (.response 200) ∈ s.trace) &&
          decide (∃ r ∈ s.rows, r.id = 13 ∧ r.attempts = 0)) = true := by
      decide +kernel
    obtain ⟨s, hs, htest⟩ := (Option.any_eq_true _ _).mp hrun
    simp only [Bool.and_eq_true, decide_eq_true_eq] at htest
    exact ⟨s, by decide +kernel, hs, htest.1.1, htest.1.2, htest.2⟩

/-- After a lone worker has claimed a delivery, no other worker claims it. -/
theorem lease_exclusive_single : ∃ s, defaultFleet.machine.run firstClaim oneWebhook = some s ∧
    ∀ l, Fleet.Exclusive s l := by
  have hrun : (defaultFleet.machine.run firstClaim oneWebhook).isSome = true := by decide +kernel
  obtain ⟨s, hs⟩ := Option.isSome_iff_exists.mp hrun
  have hstep : ∀ {s l s'}, (∀ j ≠ 0, s.phase j = .idle) → l ∈ firstClaim →
      defaultFleet.next l s = some s' →
      (∀ j ≠ 0, s'.phase j = .idle) ∧ defaultFleet.Punctual s l := by
    intro s l s' hidle hl hn
    have hsolo : ∀ l ∈ firstClaim, l.worker = none ∨ l.worker = some 0 := by decide
    have hkept : Fleet.Undeleted s l := by
      rintro id rfl
      simp [firstClaim] at hl
    exact ⟨(Fleet.exclusive_of_solo hidle (hsolo l hl) hn).1,
      Fleet.punctual_of_solo hidle (hsolo l hl) hkept hn⟩
  have hreach : defaultFleet.machine.Reach defaultFleet.Punctual s :=
    Machine.Reach.run hstep (.start ⟨rfl, rfl, rfl⟩) (fun _ _ => rfl) hs
  exact ⟨s, hs, (Fleet.lease_exclusive defaultFleet hreach).1⟩

end Comax.Webhook
