import Comax.Webhook.Lease

/-!
# What the attempts of a row count

The decision between a retry and the dead letter is taken on the copy of the row that
the worker read, and the count is raised in SQL. For a lone worker the two agree: the
copy that a tick claims has the attempts of its row until its outcome is recorded. So
the attempts of a row are the outcomes recorded for it, of which the last decides the
status, and a claim that ended in a crash counts for nothing.
-/

namespace Comax.Webhook

open Comax.Core Comax.Store Comax.Crypto

/-- How an attempt ended. -/
inductive Ending where
  /-- No POST was sent, since the webhook was missing or the key unavailable. -/
  | unsent
  | answered (outcome : PostOutcome)
  | unsealable
  deriving DecidableEq

/-- Everything but a 2xx answer is a failure. -/
def Ending.failed : Ending → Bool
  | .answered outcome => !outcome.success
  | _ => true

/-- How the attempt of the latest claim of a row has ended so far. -/
def ending : List Event → Int → Ending
  | [], _ => .unsent
  | .claimed _ id' :: trace, id => if id' = id then .unsent else ending trace id
  | .answered _ id' outcome :: trace, id =>
    if id' = id then .answered outcome else ending trace id
  | .unsealable _ id' _ _ :: trace, id => if id' = id then .unsealable else ending trace id

/-- The endings recorded for each row, the last one first. -/
abbrev Ledger := Int → List Ending

/-- Record the ending of an attempt when the statement for it takes effect. -/
def Outbox.count (s : Outbox) : Label → Ledger → Ledger
  | .enqueue .., g => Function.update g s.db.webhookDeliveries.nextId []
  | .mark i _ false, g =>
    match s.phase i with
    | .marking _ d _ _ =>
      if s.rows.any fun r => r.id = d.id && r.status = .inProgress then
        Function.update g d.id (ending s.trace d.id :: g d.id)
      else g
    | _ => g
  | _, g => g

/-- What the attempts and the last recorded ending of a row say about its status. -/
def Standing (maxAttempts attempts : Int) (last : Option Ending) : DeliveryStatus → Prop
  | .pending | .inProgress => attempts < maxAttempts ∧
    ∀ e, last = some e → e.failed = true ∧ e ≠ .unsealable
  | .delivered => attempts ≤ maxAttempts ∧ ∃ e, last = some e ∧ e.failed = false
  | .dead => attempts ≤ maxAttempts ∧
    ∃ e, last = some e ∧ (e = .unsealable ∨ e.failed = true ∧ attempts = maxAttempts)

/-- A row and the endings recorded for it. -/
structure Counted (maxAttempts : Int) (r : WebhookDelivery) (es : List Ending) : Prop where
  attempts : r.attempts = es.length
  standing : Standing maxAttempts r.attempts es.head? r.status

/-- The statement that a worker is about to issue suits the ending of the attempt. -/
def Suits (maxAttempts : Int) (c : WebhookDelivery) (e : Ending) : Mark → Prop
  | .delivered _ => e.failed = false
  | .retry _ _ _ => e.failed = true ∧ e ≠ .unsealable ∧ c.attempts + 1 < maxAttempts
  | .dead _ _ => e = .unsealable ∨ e.failed = true ∧ maxAttempts ≤ c.attempts + 1

namespace Counted

variable {maxAttempts now : Int} {r c : WebhookDelivery} {es : List Ending}

/-- A fresh row has no attempts. -/
theorem of_fresh (hpos : 1 ≤ maxAttempts) (h : Fresh r) : Counted maxAttempts r [] := by
  obtain ⟨hst, hatt, -⟩ := h
  refine ⟨hatt, ?_⟩
  rw [hst, hatt]
  exact ⟨by omega, fun e he => by cases he⟩

/-- A claim counts nothing. -/
theorem claimed (h : Counted maxAttempts r es) (hst : r.status = .pending) :
    Counted maxAttempts (r.claimed now) es := by
  have hstanding := h.standing
  rw [hst] at hstanding
  exact ⟨h.attempts, hstanding⟩

/-- A claim that is taken back counts nothing. -/
theorem reclaimed (h : Counted maxAttempts r es) (hst : r.status = .inProgress) :
    Counted maxAttempts r.reclaimed es := by
  have hstanding := h.standing
  rw [hst] at hstanding
  exact ⟨h.attempts, hstanding⟩

/-- A statement that suits the ending of the attempt counts it. -/
theorem marked {e : Ending} {m : Mark} (h : Counted maxAttempts r es) (hst : r.status = .inProgress)
    (hcopy : r.attempts = c.attempts) (hm : Suits maxAttempts c e m) :
    Counted maxAttempts (m.row now r) (e :: es) := by
  have hstanding := h.standing
  rw [hst] at hstanding
  have hlt : r.attempts < maxAttempts := hstanding.1
  refine ⟨?_, ?_⟩
  · rw [Mark.row_attempts, h.attempts, List.length_cons]
    rfl
  · rw [Mark.row_attempts, List.head?_cons]
    cases m with
    | delivered code => exact ⟨by omega, e, rfl, hm⟩
    | retry next code msg =>
      obtain ⟨hfailed, hsealed, hmore⟩ := hm
      refine ⟨by omega, fun e' he' => ?_⟩
      cases he'
      exact ⟨hfailed, hsealed⟩
    | dead code msg =>
      refine ⟨by omega, e, rfl, hm.imp_right fun hspent => ⟨hspent.1, ?_⟩⟩
      have hmax := hspent.2
      omega

/-- No row has more attempts than allowed, and a pending one has fewer. -/
theorem attempts_le (h : Counted maxAttempts r es) :
    r.attempts ≤ maxAttempts ∧ (r.status = .pending → r.attempts < maxAttempts) := by
  have hstanding := h.standing
  cases hst : r.status with
  | pending =>
    rw [hst] at hstanding
    exact ⟨hstanding.1.le, fun _ => hstanding.1⟩
  | inProgress =>
    rw [hst] at hstanding
    exact ⟨hstanding.1.le, fun hp => by cases hp⟩
  | delivered =>
    rw [hst] at hstanding
    exact ⟨hstanding.1, fun hp => by cases hp⟩
  | dead =>
    rw [hst] at hstanding
    exact ⟨hstanding.1, fun hp => by cases hp⟩

/-- A row is dead exactly if its last recorded attempt used up the attempts or could not be
signed. -/
theorem dead_iff (h : Counted maxAttempts r es) : r.status = .dead ↔
    ∃ e, es.head? = some e ∧ (e = .unsealable ∨ e.failed = true ∧ r.attempts = maxAttempts) := by
  have hstanding := h.standing
  constructor
  · intro hst
    rw [hst] at hstanding
    exact hstanding.2
  · rintro ⟨e, he, hlast⟩
    have halive : ¬(r.attempts < maxAttempts ∧
        ∀ e, es.head? = some e → e.failed = true ∧ e ≠ .unsealable) := by
      rintro ⟨hlt, hhead⟩
      rcases hlast with hsealed | hlast
      · exact (hhead e he).2 hsealed
      · omega
    cases hst : r.status with
    | dead => rfl
    | pending =>
      rw [hst] at hstanding
      exact absurd hstanding halive
    | inProgress =>
      rw [hst] at hstanding
      exact absurd hstanding halive
    | delivered =>
      rw [hst] at hstanding
      obtain ⟨-, e', he', hok⟩ := hstanding
      rw [he] at he'
      cases he'
      rcases hlast with rfl | hlast
      · cases hok
      · rw [hlast.1] at hok
        cases hok

end Counted

/-- The rows a worker has claimed and not tried yet. -/
def Phase.waiting : Phase → List WebhookDelivery
  | .marking _ _ _ queue => queue
  | p => p.claims

namespace Fleet

variable {f : Fleet} {s s' : Outbox} {l : Label} {g : Ledger}

/-- The copies of the lone worker, and the outcome it is about to record. -/
structure Copies (f : Fleet) (s : Outbox) : Prop where
  candidates : ∀ c ∈ (s.phase 0).candidates, ∃ r ∈ s.rows,
    r.id = c.id ∧ r.status = .pending ∧ r.attempts = c.attempts
  claims : ∀ d ∈ (s.phase 0).claims, ∀ r ∈ s.rows, r.id = d.id → r.status = .inProgress →
    r.attempts = d.attempts
  nodup : (((s.phase 0).candidates ++ (s.phase 0).claims).map (·.id)).Nodup
  waiting : ∀ d ∈ (s.phase 0).waiting, ending s.trace d.id = .unsent
  marking : ∀ {rz c m queue}, s.phase 0 = .marking rz c m queue →
    Suits f.maxAttempts c (ending s.trace c.id) m

/-- Only worker 0 moves, and no webhook is deleted whose deliveries its `ClaimDue` has read and not
swapped yet. -/
structure Alone (s : Outbox) (l : Label) : Prop where
  worker : l.worker = none ∨ l.worker = some 0
  delete : ∀ {id}, l = .deleteWebhook id → ∀ c ∈ (s.phase 0).candidates, ∀ r ∈ s.rows,
    r.id = c.id → r.webhookID ≠ id

/-- The system with the ledger of recorded endings. -/
def counting (f : Fleet) : Machine (Outbox × Ledger) Label :=
  f.machine.observed (fun _ => []) Outbox.count

/-! ## The copies of the worker -/

/-- Whether a POST failed decides what suits it. -/
theorem suits_fail {i : ℕ} {now code : Int} {c : WebhookDelivery} {reason : Str} {e : Ending}
    (hfailed : e.failed = true) (hsealed : e ≠ .unsealable) :
    Suits f.maxAttempts c e ((f.worker i).fail now c code reason) := by
  unfold Worker.fail
  simp only [f.shared]
  split
  · rename_i hmax
    exact .inr ⟨hfailed, hmax⟩
  · rename_i hmax
    exact ⟨hfailed, hsealed, lt_of_not_ge hmax⟩

/-- The outcome that a worker records after a POST suits the answer. -/
theorem suits_conclude {i : ℕ} {now : Int} {c : WebhookDelivery} {outcome : PostOutcome} :
    Suits f.maxAttempts c (.answered outcome) ((f.worker i).conclude now c outcome) := by
  cases outcome with
  | blocked => exact suits_fail rfl (by simp)
  | unbuilt => exact suits_fail rfl (by simp)
  | transport reason => exact suits_fail rfl (by simp)
  | response code =>
    simp only [Worker.conclude]
    split
    · rename_i hok
      simp [Suits, Ending.failed, PostOutcome.success, hok]
    · rename_i hok
      exact suits_fail (by simp [Ending.failed, PostOutcome.success, hok]) (by simp)

/-- A move keeps the copies distinct. -/
theorem Move.nodup_copies {i : ℕ} {p p' : Phase} {trace : List Event}
    (h : f.Move i s l p p' trace) (hp : ((p.candidates ++ p.claims).map (·.id)).Nodup) :
    ((p'.candidates ++ p'.claims).map (·.id)).Nodup := by
  cases h with
  | crash => exact List.nodup_nil
  | reclaim => exact List.nodup_nil
  | @select now limit =>
    simp only [Phase.candidates, Phase.claims, List.append_nil]
    refine s.db.webhookDeliveries.nodup_id.sublist (List.Sublist.map _ ?_)
    exact (List.take_sublist _ _).trans List.filter_sublist
  | claimDone => exact hp
  | claimLost => exact (List.nodup_cons.mp hp).2
  | @claimWon now c rest won _ _ =>
    refine (List.Perm.nodup_iff ?_).mp hp
    simp only [Phase.candidates, Phase.claims, List.map_append, List.map_cons, List.map_nil,
      ← List.append_assoc]
    exact (List.perm_append_singleton _ _).symm
  | prepared => exact hp
  | failed => exact hp
  | unsealable => exact hp
  | posted => exact hp
  | marked => exact (List.nodup_cons.mp hp).2

/-- A candidate after a move was one before it, or is a row just read. -/
theorem Move.candidates_cases {i : ℕ} {p p' : Phase} {trace : List Event}
    (h : f.Move i s l p p' trace) {c : WebhookDelivery} (hc : c ∈ p'.candidates) :
    (∃ now d rest won, p = .claiming now (d :: rest) won ∧ c ∈ rest) ∨
      p = .reclaimed ∧ c ∈ s.rows ∧ c.status = .pending := by
  cases h with
  | select =>
    obtain ⟨hmem, hdue⟩ := List.mem_filter.mp (List.mem_of_mem_take hc)
    simp only [Bool.and_eq_true, decide_eq_true_eq] at hdue
    exact .inr ⟨rfl, hmem, hdue.1⟩
  | claimLost => exact .inl ⟨_, _, _, _, rfl, hc⟩
  | claimWon => exact .inl ⟨_, _, _, _, rfl, hc⟩
  | crash => exact absurd hc List.not_mem_nil
  | reclaim => exact absurd hc List.not_mem_nil
  | claimDone => exact absurd hc List.not_mem_nil
  | prepared => exact absurd hc List.not_mem_nil
  | failed => exact absurd hc List.not_mem_nil
  | unsealable => exact absurd hc List.not_mem_nil
  | posted => exact absurd hc List.not_mem_nil
  | marked => exact absurd hc List.not_mem_nil

/-- A row not tried yet was waiting before a move, or has just been claimed. -/
theorem Move.waiting {i : ℕ} {p p' : Phase} {trace : List Event} (h : f.Move i s l p p' trace)
    (hp : ((p.candidates ++ p.claims).map (·.id)).Nodup)
    (hwaiting : ∀ d ∈ p.waiting, ending s.trace d.id = .unsent) :
    ∀ d ∈ p'.waiting, ending trace d.id = .unsent := by
  intro d hd
  cases h with
  | crash => exact absurd hd List.not_mem_nil
  | reclaim => exact absurd hd List.not_mem_nil
  | select => exact absurd hd List.not_mem_nil
  | claimDone => exact hwaiting d hd
  | claimLost => exact hwaiting d hd
  | @claimWon now c rest won _ _ =>
    unfold ending
    split
    · rfl
    · rename_i hne
      rcases List.mem_append.mp hd with hd | hd
      · exact hwaiting d hd
      · exact absurd (by rw [List.mem_singleton.mp hd]; rfl) hne
  | prepared => exact hwaiting d hd
  | failed => exact hwaiting d (List.mem_cons_of_mem _ hd)
  | @unsealable rz rz' c wh master reason queue _ _ =>
    have hne : c.id ≠ d.id := by
      intro hsame
      exact (List.nodup_cons.mp hp).1 (List.mem_map.mpr ⟨d, hd, hsame.symm⟩)
    simp only [ending, hne, if_false]
    exact hwaiting d (List.mem_cons_of_mem _ hd)
  | @posted rz sm now c outcome queue =>
    have hne : c.id ≠ d.id := by
      intro hsame
      exact (List.nodup_cons.mp hp).1 (List.mem_map.mpr ⟨d, hd, hsame.symm⟩)
    simp only [ending, hne, if_false]
    exact hwaiting d (List.mem_cons_of_mem _ hd)
  | marked => exact hwaiting d hd

/-- The outcome that a worker decides on suits the ending. -/
theorem Move.suits {i : ℕ} {p : Phase} {trace : List Event} {rz : DeliveryResolver}
    {c : WebhookDelivery} {m : Mark} {queue : List WebhookDelivery}
    (h : f.Move i s l p (.marking rz c m queue) trace)
    (hwaiting : ∀ d ∈ p.waiting, ending s.trace d.id = .unsent) :
    Suits f.maxAttempts c (ending trace c.id) m := by
  cases h with
  | failed =>
    rw [hwaiting c List.mem_cons_self]
    exact suits_fail rfl (by simp)
  | unsealable => exact .inl (if_pos rfl)
  | posted =>
    rw [ending, if_pos rfl]
    exact suits_conclude

/-- A pending row stays as it is unless its webhook is deleted or it is claimed. -/
theorem pending_of_next (hn : f.next l s = some s') {r : WebhookDelivery} (hr : r ∈ s.rows)
    (hst : r.status = .pending) (hdelete : l ≠ .deleteWebhook r.webhookID)
    (hclaim : ∀ {i now c rest won}, l = .claim i false →
      s.phase i = .claiming now (c :: rest) won → r.id ≠ c.id) : r ∈ s'.rows := by
  obtain ⟨r', hr', rfl | htouch⟩ := ((next_effect hn).row hr).resolve_left hdelete
  · exact hr'
  · cases htouch with
    | reclaim h =>
      rw [hst] at h
      cases h
    | claim hp hid => exact absurd hid (hclaim rfl hp)
    | mark _ _ h =>
      rw [hst] at h
      cases h

/-- The worker of a step of the lone worker. -/
theorem Alone.eq_zero (h : Alone s l) {i : ℕ} (hl : l.worker = some i) : i = 0 := by
  rcases h.worker with hnone | hzero
  · rw [hnone] at hl
    cases hl
  · rw [hzero] at hl
    exact (Option.some.inj hl).symm

namespace Copies

/-- The rows that were read and not swapped yet stay pending. -/
theorem candidates_of_next (h : Copies f s) (hok : Alone s l) (hn : f.next l s = some s') :
    ∀ c ∈ (s'.phase 0).candidates, ∃ r ∈ s'.rows,
      r.id = c.id ∧ r.status = .pending ∧ r.attempts = c.attempts := by
  have hkeep : ∀ c ∈ (s.phase 0).candidates,
      (∀ {now d rest won}, l = .claim 0 false → s.phase 0 = .claiming now (d :: rest) won →
        c.id ≠ d.id) →
      ∃ r ∈ s'.rows, r.id = c.id ∧ r.status = .pending ∧ r.attempts = c.attempts := by
    intro c hc hother
    obtain ⟨r, hr, hid, hst, hatt⟩ := h.candidates c hc
    refine ⟨r, pending_of_next hn hr hst ?_ ?_, hid, hst, hatt⟩
    · exact fun hl => hok.delete hl c hc r hr hid rfl
    · intro i now d rest won hl hp
      obtain rfl : i = 0 := hok.eq_zero (by rw [hl]; rfl)
      rw [hid]
      exact hother hl hp
  rcases next_inv hn with ⟨i, hl, hw⟩ | ⟨hl, -, hphase, -⟩
  · obtain rfl := hok.eq_zero hl
    intro c hc
    rcases hw.move.candidates_cases hc with ⟨now, d, rest, won, hp, hrest⟩ | ⟨hp, hr, hst⟩
    · refine hkeep c (by rw [hp]; exact List.mem_cons_of_mem _ hrest) ?_
      intro now' d' rest' won' _ hp' hid
      rw [hp] at hp'
      cases hp'
      have hnodup := h.nodup
      rw [hp] at hnodup
      refine (List.nodup_cons.mp hnodup).1 (List.mem_map.mpr ⟨c, ?_, hid⟩)
      exact List.mem_append_left _ hrest
    · refine ⟨c, pending_of_next hn hr hst ?_ ?_, rfl, hst, rfl⟩
      · intro hlabel
        rw [hlabel] at hl
        cases hl
      · intro i now d rest won hlabel hp'
        obtain rfl : i = 0 := hok.eq_zero (by rw [hlabel]; rfl)
        rw [hp] at hp'
        cases hp'
  · intro c hc
    rw [hphase] at hc
    refine hkeep c hc fun hlabel => ?_
    rw [hlabel] at hl
    cases hl

/-- The copies of the claimed rows keep the attempts of their rows. -/
theorem claims_of_next (h : Copies f s) (hok : Alone s l) (hn : f.next l s = some s') :
    ∀ d ∈ (s'.phase 0).claims, ∀ r ∈ s'.rows, r.id = d.id → r.status = .inProgress →
      r.attempts = d.attempts := by
  have hcandidate : ∀ {now c rest won}, s.phase 0 = .claiming now (c :: rest) won →
      ∀ r ∈ s.rows, r.id = c.id → r.status = .pending ∧ r.attempts = c.attempts := by
    intro now c rest won hp r hr hid
    obtain ⟨x, hx, hxid, hst, hatt⟩ := h.candidates c (by rw [hp]; exact List.mem_cons_self)
    rw [s.db.webhookDeliveries.eq_of_id_eq hr hx (hid.trans hxid.symm)]
    exact ⟨hst, hatt⟩
  have hcases : ∀ d ∈ (s'.phase 0).claims, d ∈ (s.phase 0).claims ∨
      ∃ now c rest won, s.phase 0 = .claiming now (c :: rest) won ∧ d = c.claimed now := by
    intro d hd
    rcases next_inv hn with ⟨i, hl, hw⟩ | ⟨-, -, hphase, -⟩
    · obtain rfl := hok.eq_zero hl
      rcases hw.move.claims_cases hd with hold | ⟨now, c, rest, won, -, hp, rfl, -⟩
      · exact .inl hold
      · exact .inr ⟨now, c, rest, won, hp, rfl⟩
    · rw [hphase] at hd
      exact .inl hd
  intro d hd r hr hid hst
  rcases (next_effect hn).source hr with hr | ⟨r₀, hr₀, htouch⟩ | hfresh
  · rcases hcases d hd with hold | ⟨now, c, rest, won, hp, rfl⟩
    · exact h.claims d hold r hr hid hst
    · rw [(hcandidate hp r hr hid).1] at hst
      cases hst
  · cases htouch with
    | reclaim => cases hst
    | @claim i now c rest won _ hp hcid _ =>
      obtain rfl : i = 0 := hok.eq_zero rfl
      rcases hcases d hd with hold | ⟨now', c', rest', won', hp', rfl⟩
      · have hnodup := h.nodup
        rw [hp] at hnodup hold
        refine absurd (List.mem_map.mpr ⟨d, ?_, hid.symm.trans hcid⟩) (List.nodup_cons.mp hnodup).1
        exact List.mem_append_right _ hold
      · rw [hp] at hp'
        cases hp'
        exact (hcandidate hp r₀ hr₀ hcid).2
    | @mark i now rz c m queue _ hp hcid _ =>
      cases m <;> cases hst
  · rw [hfresh.1] at hst
    cases hst

/-- A worker between two ticks has no copies. -/
theorem of_idle (hidle : s.phase 0 = .idle) : Copies f s := by
  refine ⟨?_, ?_, ?_, ?_, ?_⟩
  · rw [hidle]
    exact fun c hc => absurd hc List.not_mem_nil
  · rw [hidle]
    exact fun d hd => absurd hd List.not_mem_nil
  · rw [hidle]
    exact List.nodup_nil
  · rw [hidle]
    exact fun d hd => absurd hd List.not_mem_nil
  · intro rz c m queue hp
    rw [hidle] at hp
    cases hp

/-- The copies of a lone worker stay true. -/
theorem next (h : Copies f s) (hok : Alone s l) (hn : f.next l s = some s') : Copies f s' := by
  refine ⟨h.candidates_of_next hok hn, h.claims_of_next hok hn, ?_, ?_, ?_⟩
  all_goals rcases next_inv hn with ⟨i, hl, hw⟩ | ⟨-, -, hphase, htrace⟩
  · obtain rfl := hok.eq_zero hl
    exact hw.move.nodup_copies h.nodup
  · rw [hphase]
    exact h.nodup
  · obtain rfl := hok.eq_zero hl
    exact hw.move.waiting h.nodup h.waiting
  · rw [hphase, htrace]
    exact h.waiting
  · obtain rfl := hok.eq_zero hl
    intro rz c m queue hp
    exact (hp ▸ hw.move).suits h.waiting
  · intro rz c m queue hp
    rw [hphase] at hp
    rw [htrace]
    exact h.marking hp

end Copies

/-! ## The ledger -/

/-- The ledger of a row that a step leaves as it is. -/
theorem count_of_kept (hn : f.next l s = some s') {r : WebhookDelivery} (hr : r ∈ s.rows)
    (hr' : r ∈ s'.rows) : s.count l g r.id = g r.id := by
  cases l with
  | enqueue webhookID event payload now =>
    refine Function.update_of_ne ?_ _ _
    exact (s.db.webhookDeliveries.lt_nextId hr).ne
  | mark i now fails =>
    cases fails with
    | true => rfl
    | false =>
      cases hp : s.phase i with
      | marking rz c m queue =>
        simp only [Outbox.count, hp]
        split
        · rename_i hhit
          obtain ⟨x, hx, hxrow⟩ := List.any_eq_true.mp hhit
          simp only [Bool.and_eq_true, decide_eq_true_eq] at hxrow
          refine Function.update_of_ne (fun hid => ?_) _ _
          obtain rfl := s.db.webhookDeliveries.eq_of_id_eq hx hr (hxrow.1.trans hid.symm)
          have hmarked := recorded_of_next hp hn hr hxrow.1 hxrow.2
          have hsame := s'.db.webhookDeliveries.eq_of_id_eq hmarked hr' (m.row_id now x)
          have hatt := m.row_attempts now x
          rw [hsame] at hatt
          omega
        · rfl
      | _ => simp only [Outbox.count, hp]
  | createWebhook => rfl
  | setWebhookEnabled => rfl
  | deleteWebhook => rfl
  | reclaim => rfl
  | select => rfl
  | claim => rfl
  | resolve => rfl
  | post => rfl
  | crash => rfl

/-- The row of a recorded outcome is counted with its ending. -/
theorem Copies.counted_of_record (h : Copies f s)
    (hrows : ∀ r ∈ s.rows, Counted f.maxAttempts r (g r.id)) {now : Int} {rz : DeliveryResolver}
    {c r : WebhookDelivery} {m : Mark} {queue : List WebhookDelivery}
    (hp : s.phase 0 = .marking rz c m queue) (hr : r ∈ s.rows) (hid : r.id = c.id)
    (hst : r.status = .inProgress) :
    Counted f.maxAttempts (m.row now r) (s.count (.mark 0 now false) g c.id) := by
  have hany : (s.rows.any fun r => r.id = c.id && r.status = .inProgress) = true :=
    List.any_eq_true.mpr ⟨r, hr, by simp [hid, hst]⟩
  have hcopy := h.claims c (by rw [hp]; exact List.mem_cons_self) r hr hid hst
  simp only [Outbox.count, hp, hany, if_true, Function.update_self]
  rw [← hid]
  exact (hrows r hr).marked hst hcopy (hid ▸ h.marking hp)

/-- The rows after a step are counted in the ledger after it. -/
theorem Effect.counted {db : Database} (h : f.Effect s l db) (hcopies : Copies f s)
    (hok : Alone s l) (hrows : ∀ r ∈ s.rows, Counted f.maxAttempts r (g r.id))
    {r : WebhookDelivery} (hr : r ∈ db.webhookDeliveries.rows)
    (hkept : r ∈ s.rows → s.count l g r.id = g r.id) :
    Counted f.maxAttempts r (s.count l g r.id) := by
  have hold : r ∈ s.rows → Counted f.maxAttempts r (s.count l g r.id) := by
    intro hr
    rw [hkept hr]
    exact hrows r hr
  cases h with
  | quiet h =>
    rw [h] at hr
    exact hold hr
  | enqueue h =>
    obtain ⟨hd, t, hins, rfl⟩ := DeliveryRepo.enqueue_eq_ok h
    change r ∈ t.rows at hr
    rw [(Table.insert_eq_some.mp hins).2] at hr
    rcases List.mem_append.mp hr with hr | hr
    · exact hold hr
    · have hpos : 1 ≤ f.maxAttempts := f.shared 0 ▸ (f.worker 0).maxAttempts_pos
      obtain rfl := List.mem_singleton.mp hr
      subst hd
      simp only [Outbox.count, Function.update_self]
      exact .of_fresh hpos ⟨rfl, rfl, rfl, rfl⟩
  | deleteWebhook h =>
    obtain rfl := WebhookRepo.delete_eq_ok h
    exact hold (List.mem_filter.mp hr).1
  | reclaim =>
    obtain ⟨x, hx, rfl⟩ := List.mem_map.mp hr
    split
    · rename_i hstale
      simp only [DeliveryRepo.stale, Bool.and_eq_true, decide_eq_true_eq] at hstale
      exact (hrows x hx).reclaimed hstale.1
    · exact hrows x hx
  | claim hp =>
    obtain ⟨x, hx, rfl⟩ := mem_updateOne.mp hr
    split
    · rename_i hhit
      exact (hrows x hx).claimed hhit.2
    · exact hrows x hx
  | @mark i now rz c m queue _ hp h =>
    rw [Mark.exec_eq] at h
    obtain ⟨-, rfl⟩ := DeliveryRepo.affectedOne_eq_ok.mp h
    obtain ⟨x, hx, rfl⟩ := mem_updateOne.mp hr
    by_cases hhit : x.id = c.id ∧ x.status = .inProgress
    · obtain rfl : i = 0 := hok.eq_zero rfl
      rw [if_pos hhit, Mark.row_id, hhit.1]
      exact hcopies.counted_of_record hrows hp hx hhit.1 hhit.2
    · rw [if_neg hhit] at hold ⊢
      exact hold hx

/-- Only the statement that records an outcome changes the attempts of a row. -/
theorem attempts_of_next (hn : f.next l s = some s') (hmark : ∀ i now, l ≠ .mark i now false) :
    ∀ r ∈ s.rows, ∀ r' ∈ s'.rows, r'.id = r.id → r'.attempts = r.attempts := by
  intro r hr r' hr' hid
  rcases (next_effect hn).row hr with rfl | ⟨x, hx, hcase⟩
  · obtain ⟨u, db, hdelete, rfl⟩ := Outbox.commit_eq_some hn
    obtain rfl := WebhookRepo.delete_eq_ok hdelete
    rw [s.db.webhookDeliveries.eq_of_id_eq (List.mem_filter.mp hr').1 hr hid]
  · have hx' : x.id = r.id → x = r' := fun hxid =>
      s'.db.webhookDeliveries.eq_of_id_eq hx hr' (hxid.trans hid.symm)
    rcases hcase with rfl | htouch
    · rw [hx' rfl]
    · obtain rfl := hx' htouch.rowChange.advances.id
      cases htouch with
      | reclaim => rfl
      | claim => rfl
      | mark => exact absurd rfl (hmark _ _)

/-- The rows of a lone worker's outbox are counted, and its copies are true. -/
theorem counted_of_reach {x : Outbox × Ledger}
    (h : f.counting.Reach (fun x l => Alone x.1 l) x) :
    Copies f x.1 ∧ ∀ r ∈ x.1.rows, Counted f.maxAttempts r (x.2 r.id) := by
  refine h.invariant (I := fun x : Outbox × Ledger => Copies f x.1 ∧
    ∀ r ∈ x.1.rows, Counted f.maxAttempts r (x.2 r.id)) ?_ ?_
  · rintro ⟨s, g⟩ ⟨⟨hempty, hphase, -⟩, -⟩
    refine ⟨.of_idle (congrFun hphase 0), fun r hr => ?_⟩
    rw [Outbox.rows, hempty] at hr
    exact absurd hr List.not_mem_nil
  · rintro ⟨s, g⟩ l ⟨s', g'⟩ - ⟨hcopies, hrows⟩ hok hn
    obtain ⟨hn, hg⟩ := Machine.next_observed.mp hn
    refine ⟨hcopies.next hok hn, fun r hr => ?_⟩
    rw [← hg]
    exact (next_effect hn).counted hcopies hok hrows hr fun hold => count_of_kept hn hold hr

/-- The attempts of a lone worker. In every run, whatever is answered, fails or crashes: no row has
more attempts than allowed and a pending one has fewer, a row is dead exactly if its last recorded
attempt failed and used up the attempts or could not be signed, and the attempts are the recorded
ones; no other step than that of a record changes them. -/
theorem attempt_accounting (f : Fleet) {s : Outbox} {g : Ledger}
    (h : f.counting.Reach (fun x l => Alone x.1 l) (s, g)) :
    (∀ r ∈ s.rows, r.attempts ≤ f.maxAttempts ∧
      (r.status = .pending → r.attempts < f.maxAttempts) ∧
      (r.status = .dead ↔ ∃ e, (g r.id).head? = some e ∧
        (e = .unsealable ∨ e.failed = true ∧ r.attempts = f.maxAttempts)) ∧
      r.attempts = (g r.id).length) ∧
    ∀ l s', f.next l s = some s' → (∀ i now, l ≠ .mark i now false) →
      ∀ r ∈ s.rows, ∀ r' ∈ s'.rows, r'.id = r.id → r'.attempts = r.attempts := by
  refine ⟨fun r hr => ?_, fun l s' hn hmark => attempts_of_next hn hmark⟩
  have hcounted := (counted_of_reach h).2 r hr
  exact ⟨hcounted.attempts_le.1, hcounted.attempts_le.2, hcounted.dead_iff, hcounted.attempts⟩

end Fleet

/-- A worker claims a delivery and crashes; its next tick takes the claim back, and the POST is
answered with an error. -/
def crashedClaim : List Label :=
  firstClaim ++ [.crash 0, .reclaim 0 (130 * second) false, .select 0 (130 * second) false,
    .claim 0 false, .claim 0 false, .resolve 0 (130 * second) false (some plainKey),
    .post 0 (131 * second) (.response 500), .mark 0 (131 * second) false]

/-- The first claim counts for nothing. -/
theorem attempt_accounting_crashedClaim : ∃ s g,
    defaultFleet.counting.run crashedClaim (oneWebhook, fun _ => []) = some (s, g) ∧
      ∃ r ∈ s.rows, r.attempts = 1 ∧ r.attempts = (g r.id).length := by
  have hrun : (defaultFleet.counting.run crashedClaim (oneWebhook, fun _ => [])).any
      (fun x => x.1.rows.any fun r => r.attempts = 1) = true := by
    decide +kernel
  obtain ⟨⟨s, g⟩, hs, htest⟩ := (Option.any_eq_true _ _).mp hrun
  obtain ⟨r, hr, hatt⟩ := List.any_eq_true.mp htest
  have hstep : ∀ {x l x'}, True → l ∈ crashedClaim → defaultFleet.counting.next l x = some x' →
      True ∧ Fleet.Alone x.1 l := by
    intro x l x' _ hl _
    have hworker : ∀ l ∈ crashedClaim, l.worker = none ∨ l.worker = some 0 := by decide
    refine ⟨trivial, hworker l hl, ?_⟩
    rintro id rfl
    simp [crashedClaim, firstClaim] at hl
  have hreach : defaultFleet.counting.Reach (fun x l => Fleet.Alone x.1 l) (s, g) :=
    Machine.Reach.run (J := fun _ => True) hstep (.start ⟨⟨rfl, rfl, rfl⟩, rfl⟩) trivial hs
  exact ⟨s, g, hs, r, hr, of_decide_eq_true hatt,
    ((Fleet.attempt_accounting defaultFleet hreach).1 r hr).2.2.2⟩

end Comax.Webhook
