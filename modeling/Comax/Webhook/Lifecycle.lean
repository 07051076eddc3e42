import Comax.Webhook.Steps

/-!
# The life of a delivery row

The abstract state machine of one row, the refinement of it by the system, and what
follows for every run: the columns of a row agree with its status, terminal rows are
final, attempts only grow, and a row leaves the outbox only with its webhook. The
reasons for a terminal status are read off the copies that the workers hold: such a
copy never claims more attempts than its row has.
-/

namespace Comax.Webhook

open Comax.Core Comax.Store Comax.Crypto

/-- The changes that the statements of the outbox make to a row. -/
inductive RowChange : WebhookDelivery → WebhookDelivery → Prop
  | claim {d} (now : Int) (h : d.status = .pending) : RowChange d (d.claimed now)
  | reclaim {d} (h : d.status = .inProgress) : RowChange d d.reclaimed
  | mark {d} (m : Mark) (now : Int) (h : d.status = .inProgress) : RowChange d (m.row now d)

/-- The nullable columns of a row agree with its status. -/
structure Coherent (d : WebhookDelivery) : Prop where
  claimedAt : d.claimedAt.isSome ↔ d.status = .inProgress
  deliveredAt : d.deliveredAt.isSome ↔ d.status = .delivered

/-- How a row may differ later: it is the same row, with no fewer attempts, and a terminal row
is unchanged. -/
structure Advances (d d' : WebhookDelivery) : Prop where
  id : d'.id = d.id
  webhookID : d'.webhookID = d.webhookID
  attempts : d.attempts ≤ d'.attempts
  final : d.status = .delivered ∨ d.status = .dead → d' = d

@[simp] theorem Mark.row_id (m : Mark) (now : Int) (d : WebhookDelivery) :
    (m.row now d).id = d.id := by
  cases m <;> rfl

@[simp] theorem Mark.row_webhookID (m : Mark) (now : Int) (d : WebhookDelivery) :
    (m.row now d).webhookID = d.webhookID := by
  cases m <;> rfl

@[simp] theorem Mark.row_attempts (m : Mark) (now : Int) (d : WebhookDelivery) :
    (m.row now d).attempts = d.attempts + 1 := by
  cases m <;> rfl

/-- The three statements are one update of a row in progress. -/
theorem Mark.exec_eq (m : Mark) (id now : Int) (db : Database) :
    m.exec id now db =
      DeliveryRepo.affectedOne
        (DeliveryRepo.updateOne id .inProgress (m.row now) (m.row_id now) db) := by
  cases m <;> rfl

namespace RowChange

variable {d d' : WebhookDelivery}

/-- A change keeps the columns in agreement with the status. -/
theorem coherent (h : RowChange d d') (hd : Coherent d) : Coherent d' := by
  obtain ⟨hclaimed, hdelivered⟩ := hd
  cases h with
  | claim now hs =>
    rw [hs] at hdelivered
    constructor
    · simp [WebhookDelivery.claimed]
    · simpa [WebhookDelivery.claimed] using hdelivered
  | reclaim hs =>
    rw [hs] at hdelivered
    constructor
    · simp [WebhookDelivery.reclaimed]
    · simpa [WebhookDelivery.reclaimed] using hdelivered
  | mark m now hs =>
    rw [hs] at hdelivered
    cases m with
    | delivered code =>
      constructor <;> simp [Mark.row, WebhookDelivery.markedDelivered]
    | retry next code msg =>
      constructor
      · simp [Mark.row, WebhookDelivery.markedRetry]
      · simpa [Mark.row, WebhookDelivery.markedRetry] using hdelivered
    | dead code msg =>
      constructor
      · simp [Mark.row, WebhookDelivery.markedDead]
      · simpa [Mark.row, WebhookDelivery.markedDead] using hdelivered

/-- A change advances its row. -/
theorem advances (h : RowChange d d') : Advances d d' := by
  cases h with
  | claim now hs => exact ⟨rfl, rfl, le_rfl, fun hf => by rw [hs] at hf; simp at hf⟩
  | reclaim hs => exact ⟨rfl, rfl, le_rfl, fun hf => by rw [hs] at hf; simp at hf⟩
  | mark m now hs =>
    refine ⟨m.row_id now d, m.row_webhookID now d, ?_, fun hf => by rw [hs] at hf; simp at hf⟩
    rw [Mark.row_attempts]
    omega

end RowChange

/-- Every row advances to itself. -/
theorem Advances.refl (d : WebhookDelivery) : Advances d d := ⟨rfl, rfl, le_rfl, fun _ => rfl⟩

/-- A row as `Enqueue` inserts it. -/
def Fresh (d : WebhookDelivery) : Prop :=
  d.status = .pending ∧ d.attempts = 0 ∧ d.claimedAt = none ∧ d.deliveredAt = none

namespace Fleet

variable {f : Fleet} {s s' : Outbox} {l : Label}

/-- The row change that a step makes, with its reason. -/
inductive Touches (f : Fleet) (s : Outbox) : Label → WebhookDelivery → WebhookDelivery → Prop
  | reclaim {i now d} (h : d.status = .inProgress) :
    Touches f s (.reclaim i now false) d d.reclaimed
  | claim {i now c rest won d} (hp : s.phase i = .claiming now (c :: rest) won) (hid : d.id = c.id)
      (h : d.status = .pending) : Touches f s (.claim i false) d (d.claimed now)
  | mark {i now rz c m queue d} (hp : s.phase i = .marking rz c m queue) (hid : d.id = c.id)
      (h : d.status = .inProgress) : Touches f s (.mark i now false) d (m.row now d)

/-- The change is one of the row machine. -/
theorem Touches.rowChange {d d' : WebhookDelivery} (h : f.Touches s l d d') : RowChange d d' := by
  cases h with
  | reclaim h => exact .reclaim h
  | claim _ _ h => exact .claim _ h
  | mark _ _ h => exact .mark _ _ h

/-- The rows after an update are the rows before, each rewritten or not. -/
theorem mem_updateOne {id : Int} {status : DeliveryStatus} {g : WebhookDelivery → WebhookDelivery}
    {hg : ∀ d, (g d).id = d.id} {db : Database} {d' : WebhookDelivery} :
    d' ∈ (DeliveryRepo.updateOne id status g hg db).2.webhookDeliveries.rows ↔
      ∃ d ∈ db.webhookDeliveries.rows,
        (if d.id = id ∧ d.status = status then g d else d) = d' := by
  simp [DeliveryRepo.updateOne]

/-- Every row is still there after a step, as it was or touched, unless its webhook is deleted. -/
theorem Effect.row {db : Database} (h : f.Effect s l db) {d : WebhookDelivery} (hd : d ∈ s.rows) :
    l = .deleteWebhook d.webhookID ∨ ∃ d' ∈ db.webhookDeliveries.rows,
      d' = d ∨ f.Touches s l d d' := by
  cases h with
  | quiet h => exact .inr ⟨d, h ▸ hd, .inl rfl⟩
  | enqueue h =>
    obtain ⟨-, t, hins, rfl⟩ := DeliveryRepo.enqueue_eq_ok h
    refine .inr ⟨d, ?_, .inl rfl⟩
    change d ∈ t.rows
    rw [(Table.insert_eq_some.mp hins).2]
    exact List.mem_append_left _ hd
  | @deleteWebhook id _ h =>
    obtain rfl := WebhookRepo.delete_eq_ok h
    by_cases hid : d.webhookID = id
    · exact .inl (hid ▸ rfl)
    · exact .inr ⟨d, List.mem_filter.mpr ⟨hd, by simp [hid]⟩, .inl rfl⟩
  | reclaim =>
    refine .inr ⟨_, List.mem_map_of_mem hd, ?_⟩
    split
    · rename_i hstale
      simp only [DeliveryRepo.stale, Bool.and_eq_true, decide_eq_true_eq] at hstale
      exact .inr (.reclaim hstale.1)
    · exact .inl rfl
  | claim hp =>
    refine .inr ⟨_, mem_updateOne.mpr ⟨d, hd, rfl⟩, ?_⟩
    split
    · rename_i hhit
      exact .inr (.claim hp hhit.1 hhit.2)
    · exact .inl rfl
  | mark hp h =>
    rw [Mark.exec_eq] at h
    obtain ⟨-, rfl⟩ := DeliveryRepo.affectedOne_eq_ok.mp h
    refine .inr ⟨_, mem_updateOne.mpr ⟨d, hd, rfl⟩, ?_⟩
    split
    · rename_i hhit
      exact .inr (.mark hp hhit.1 hhit.2)
    · exact .inl rfl

/-- Every row after a step was there before, as it is or to be touched, or is fresh. -/
theorem Effect.source {db : Database} (h : f.Effect s l db) {d' : WebhookDelivery}
    (hd' : d' ∈ db.webhookDeliveries.rows) :
    d' ∈ s.rows ∨ (∃ d ∈ s.rows, f.Touches s l d d') ∨ Fresh d' := by
  cases h with
  | quiet h =>
    rw [h] at hd'
    exact .inl hd'
  | enqueue h =>
    obtain ⟨hd, t, hins, rfl⟩ := DeliveryRepo.enqueue_eq_ok h
    change d' ∈ t.rows at hd'
    rw [(Table.insert_eq_some.mp hins).2] at hd'
    rcases List.mem_append.mp hd' with hd' | hd'
    · exact .inl hd'
    · obtain rfl := List.mem_singleton.mp hd'
      subst hd
      exact .inr (.inr ⟨rfl, rfl, rfl, rfl⟩)
  | deleteWebhook h =>
    obtain rfl := WebhookRepo.delete_eq_ok h
    exact .inl (List.mem_filter.mp hd').1
  | reclaim =>
    obtain ⟨d, hd, rfl⟩ := List.mem_map.mp hd'
    split
    · rename_i hstale
      simp only [DeliveryRepo.stale, Bool.and_eq_true, decide_eq_true_eq] at hstale
      exact .inr (.inl ⟨d, hd, .reclaim hstale.1⟩)
    · exact .inl hd
  | claim hp =>
    obtain ⟨d, hd, rfl⟩ := mem_updateOne.mp hd'
    split
    · rename_i hhit
      exact .inr (.inl ⟨d, hd, .claim hp hhit.1 hhit.2⟩)
    · exact .inl hd
  | mark hp h =>
    rw [Mark.exec_eq] at h
    obtain ⟨-, rfl⟩ := DeliveryRepo.affectedOne_eq_ok.mp h
    obtain ⟨d, hd, rfl⟩ := mem_updateOne.mp hd'
    split
    · rename_i hhit
      exact .inr (.inl ⟨d, hd, .mark hp hhit.1 hhit.2⟩)
    · exact .inl hd

/-- A step has its effect, whoever makes it. -/
theorem next_effect (h : f.next l s = some s') : f.Effect s l s'.db := by
  rcases next_inv h with ⟨i, -, hw⟩ | ⟨-, he, -⟩
  · exact hw.effect
  · exact he

/-- The columns of every row agree with its status. -/
theorem coherent_of_reachable (h : f.machine.Reachable s) : ∀ d ∈ s.rows, Coherent d := by
  refine Machine.Reach.invariant (I := fun s => ∀ d ∈ s.rows, Coherent d) h ?_ ?_
  · rintro s ⟨hempty, -⟩ d hd
    rw [Outbox.rows, hempty] at hd
    exact absurd hd List.not_mem_nil
  · intro s l s' _ ih _ hn d' hd'
    rcases (next_effect hn).source hd' with hd | ⟨d, hd, htouch⟩ | ⟨hs, -, hclaimed, hdelivered⟩
    · exact ih d' hd
    · exact htouch.rowChange.coherent (ih d hd)
    · constructor
      · simp [hs, hclaimed]
      · simp [hs, hdelivered]

/-- Every row advances in a step, unless its webhook is deleted. -/
theorem advances_of_next (h : f.next l s = some s') {d : WebhookDelivery} (hd : d ∈ s.rows) :
    l = .deleteWebhook d.webhookID ∨ ∃ d' ∈ s'.rows, Advances d d' := by
  refine ((next_effect h).row hd).imp_right ?_
  rintro ⟨d', hd', rfl | htouch⟩
  · exact ⟨d', hd', .refl d'⟩
  · exact ⟨d', hd', htouch.rowChange.advances⟩

/-- The outcome a worker is about to record has its reason in the trace. -/
def Justified (f : Fleet) (i : ℕ) (trace : List Event) (c : WebhookDelivery) : Mark → Prop
  | .delivered code => 200 ≤ code ∧ code < 300 ∧
      List.Sublist [.answered i c.id (.response code), .claimed i c.id] trace
  | .retry _ _ _ => True
  | .dead _ _ => f.maxAttempts ≤ c.attempts + 1 ∨ ∃ wh master,
      .unsealable i c.id wh master ∈ trace ∧ wh.id = c.webhookID ∧
        f.gcm.open master wh.secretCiphertext = none

/-- The copies that the workers hold, while no webhook is deleted. -/
structure Honest (f : Fleet) (s : Outbox) : Prop where
  copies : ∀ i, ∀ c ∈ (s.phase i).candidates ++ (s.phase i).claims, ∃ d ∈ s.rows,
    d.id = c.id ∧ d.webhookID = c.webhookID ∧ c.attempts ≤ d.attempts
  claimed : ∀ i, ∀ c ∈ (s.phase i).claims, .claimed i c.id ∈ s.trace
  marks : ∀ {i rz c mark queue}, s.phase i = .marking rz c mark queue →
    f.Justified i s.trace c mark

/-- A reason stays in the trace. -/
theorem Justified.mono {i : ℕ} {trace trace' : List Event} {c : WebhookDelivery} {m : Mark}
    (h : f.Justified i trace c m) (ht : trace <:+ trace') : f.Justified i trace' c m := by
  cases m with
  | delivered code => exact ⟨h.1, h.2.1, h.2.2.trans ht.sublist⟩
  | retry next code msg => trivial
  | dead code msg =>
    refine h.imp_right ?_
    rintro ⟨wh, master, hmem, hid, hopen⟩
    exact ⟨wh, master, ht.subset hmem, hid, hopen⟩

/-- `fail` dead-letters the last attempt only. -/
theorem justified_fail {i j : ℕ} {trace : List Event} {now code : Int} {c : WebhookDelivery}
    {reason : Str} : f.Justified i trace c ((f.worker j).fail now c code reason) := by
  unfold Worker.fail
  simp only [f.shared]
  split
  · rename_i hmax
    exact .inl hmax
  · trivial

/-- The trace only grows. -/
theorem Move.trace {i : ℕ} {p p' : Phase} {trace : List Event} (h : f.Move i s l p p' trace) :
    s.trace <:+ trace := by
  cases h
  case claimWon => exact List.suffix_cons _ _
  case unsealable => exact List.suffix_cons _ _
  case posted => exact List.suffix_cons _ _
  all_goals exact List.suffix_refl _

/-- A copy held after a move was held before it, or is a row just read. -/
theorem Move.copies {i : ℕ} {p p' : Phase} {trace : List Event} (h : f.Move i s l p p' trace)
    {c : WebhookDelivery} (hc : c ∈ p'.candidates ++ p'.claims) :
    (∃ c₀ ∈ p.candidates ++ p.claims, c₀.id = c.id ∧ c₀.webhookID = c.webhookID ∧
      c₀.attempts = c.attempts) ∨ c ∈ s.rows := by
  have hkeep {q : Phase} (hq : c ∈ q.candidates ++ q.claims) : ∃ c₀ ∈ q.candidates ++ q.claims,
      c₀.id = c.id ∧ c₀.webhookID = c.webhookID ∧ c₀.attempts = c.attempts :=
    ⟨c, hq, rfl, rfl, rfl⟩
  cases h with
  | crash => exact absurd hc List.not_mem_nil
  | reclaim => exact absurd hc List.not_mem_nil
  | select =>
    simp only [Phase.candidates, Phase.claims, List.append_nil] at hc
    exact .inr (List.mem_filter.mp (List.mem_of_mem_take hc)).1
  | claimDone => exact .inl (hkeep hc)
  | claimLost => exact .inl (hkeep (List.mem_cons_of_mem _ hc))
  | @claimWon now d rest won _ _ =>
    simp only [Phase.candidates, Phase.claims, ← List.append_assoc] at hc
    rcases List.mem_append.mp hc with hc | hc
    · exact .inl (hkeep (List.mem_cons_of_mem _ hc))
    · obtain rfl := List.mem_singleton.mp hc
      exact .inl ⟨d, List.mem_cons_self, rfl, rfl, rfl⟩
  | prepared => exact .inl (hkeep hc)
  | failed => exact .inl (hkeep hc)
  | unsealable => exact .inl (hkeep hc)
  | posted => exact .inl (hkeep hc)
  | marked => exact .inl (hkeep (List.mem_cons_of_mem _ hc))

/-- The claims held after a move are in the trace. -/
theorem Move.claims {i : ℕ} {p p' : Phase} {trace : List Event} (h : f.Move i s l p p' trace)
    (hp : ∀ c ∈ p.claims, .claimed i c.id ∈ s.trace) :
    ∀ c ∈ p'.claims, .claimed i c.id ∈ trace := by
  have ht := h.trace
  intro c hc
  cases h with
  | crash => exact absurd hc List.not_mem_nil
  | reclaim => exact absurd hc List.not_mem_nil
  | select => exact absurd hc List.not_mem_nil
  | claimDone => exact hp c hc
  | claimLost => exact hp c hc
  | claimWon =>
    rcases List.mem_append.mp hc with hc | hc
    · exact ht.subset (hp c hc)
    · obtain rfl := List.mem_singleton.mp hc
      exact List.mem_cons_self
  | prepared => exact hp c hc
  | failed => exact hp c hc
  | unsealable => exact ht.subset (hp c hc)
  | posted => exact ht.subset (hp c hc)
  | marked => exact hp c (List.mem_cons_of_mem _ hc)

/-- The outcome a worker decides on has its reason in the trace. -/
theorem Move.justified {i : ℕ} {p : Phase} {trace : List Event} {rz : DeliveryResolver}
    {c : WebhookDelivery} {mark : Mark} {queue : List WebhookDelivery}
    (h : f.Move i s l p (.marking rz c mark queue) trace)
    (hp : ∀ c ∈ p.claims, .claimed i c.id ∈ s.trace) : f.Justified i trace c mark := by
  cases h with
  | failed => exact justified_fail
  | unsealable hid hopen => exact .inr ⟨_, _, List.mem_cons_self, hid, hopen⟩
  | @posted _ _ now _ outcome _ =>
    cases outcome with
    | blocked => exact justified_fail
    | unbuilt => exact justified_fail
    | transport reason => exact justified_fail
    | response code =>
      simp only [Worker.conclude]
      split
      · rename_i hok
        simp only [Bool.and_eq_true, decide_eq_true_eq] at hok
        refine ⟨hok.1, hok.2, List.Sublist.cons_cons _ ?_⟩
        exact List.singleton_sublist.mpr (hp c List.mem_cons_self)
      · exact justified_fail

/-- No webhook is deleted. -/
def Undeleted (_ : Outbox) (l : Label) : Prop := ∀ id, l ≠ .deleteWebhook id

/-- Workers between two ticks hold no copies. -/
theorem Honest.of_idle (hidle : ∀ i, s.phase i = .idle) : f.Honest s := by
  constructor
  · intro i c hc
    rw [hidle i] at hc
    exact absurd hc List.not_mem_nil
  · intro i c hc
    rw [hidle i] at hc
    exact absurd hc List.not_mem_nil
  · intro i rz c mark queue hp
    rw [hidle i] at hp
    cases hp

/-- A step keeps the copies honest. -/
theorem Honest.next (h : f.Honest s) (hok : Undeleted s l) (hn : f.next l s = some s') :
    f.Honest s' := by
  have hrows : ∀ d ∈ s.rows, ∃ d' ∈ s'.rows, d'.id = d.id ∧ d'.webhookID = d.webhookID ∧
      d.attempts ≤ d'.attempts := by
    intro d hd
    obtain ⟨d', hd', ha⟩ := (advances_of_next hn hd).resolve_left (hok _)
    exact ⟨d', hd', ha.id, ha.webhookID, ha.attempts⟩
  have hcopies : ∀ i, ∀ c ∈ (s.phase i).candidates ++ (s.phase i).claims, ∃ d ∈ s'.rows,
      d.id = c.id ∧ d.webhookID = c.webhookID ∧ c.attempts ≤ d.attempts := by
    intro i c hc
    obtain ⟨d, hd, hid, hwh, hatt⟩ := h.copies i c hc
    obtain ⟨d', hd', hid', hwh', hatt'⟩ := hrows d hd
    exact ⟨d', hd', hid'.trans hid, hwh'.trans hwh, hatt.trans hatt'⟩
  rcases next_inv hn with ⟨i, -, hw⟩ | ⟨-, -, hphase, htrace⟩
  · have ht := hw.move.trace
    constructor
    · intro j c hc
      by_cases hj : j = i
      · subst hj
        rcases hw.move.copies hc with ⟨c₀, hc₀, hid, hwh, hatt⟩ | hc
        · obtain ⟨d, hd, hid', hwh', hatt'⟩ := hcopies j c₀ hc₀
          exact ⟨d, hd, hid'.trans hid, hwh'.trans hwh, hatt ▸ hatt'⟩
        · exact hrows c hc
      · rw [hw.others j hj] at hc
        exact hcopies j c hc
    · intro j c hc
      by_cases hj : j = i
      · subst hj
        exact hw.move.claims (h.claimed j) c hc
      · rw [hw.others j hj] at hc
        exact ht.subset (h.claimed j c hc)
    · intro j rz c mark queue hp
      by_cases hj : j = i
      · subst hj
        exact (hp ▸ hw.move).justified (h.claimed j)
      · rw [hw.others j hj] at hp
        exact (h.marks hp).mono ht
  · constructor
    · intro j c hc
      rw [hphase] at hc
      exact hcopies j c hc
    · intro j c hc
      rw [hphase] at hc
      rw [htrace]
      exact h.claimed j c hc
    · intro j rz c mark queue hp
      rw [hphase] at hp
      rw [htrace]
      exact h.marks hp

/-- The copies stay honest. -/
theorem honest_of_reach (h : f.machine.Reach Undeleted s) : f.Honest s :=
  h.invariant (fun hs => .of_idle fun i => congrFun hs.2.1 i)
    fun _ ih hok hn => ih.next hok hn

/-- Why a row is delivered: a worker that had claimed it received a 2xx answer for it. -/
def Confirmed (s : Outbox) (id : Int) : Prop :=
  ∃ i code, 200 ≤ code ∧ code < 300 ∧
    List.Sublist [.answered i id (.response code), .claimed i id] s.trace

/-- Why a row is dead, given its attempts: they are used up, or a worker could not open the
signing key of its webhook. -/
def Spent (f : Fleet) (s : Outbox) (d : WebhookDelivery) : Prop :=
  f.maxAttempts ≤ d.attempts ∨ ∃ i wh master, .unsealable i d.id wh master ∈ s.trace ∧
    wh.id = d.webhookID ∧ f.gcm.open master wh.secretCiphertext = none

/-- A row becomes terminal for a reason only. -/
theorem Touches.reason (hs : f.Honest s) {d d' : WebhookDelivery} (hd : d ∈ s.rows)
    (h : f.Touches s l d d') :
    (d'.status = .delivered → Confirmed s d.id) ∧ (d'.status = .dead → f.Spent s d') := by
  cases h with
  | reclaim => constructor <;> intro hst <;> cases hst
  | claim => constructor <;> intro hst <;> cases hst
  | @mark i now rz c m queue _ hp hid _ =>
    have hmark := hs.marks hp
    have hcopy : c ∈ (s.phase i).candidates ++ (s.phase i).claims := by
      rw [hp]
      exact List.mem_cons_self
    obtain ⟨r, hr, hrid, hrwh, hratt⟩ := hs.copies i c hcopy
    obtain rfl := s.db.webhookDeliveries.eq_of_id_eq hr hd (hrid.trans hid.symm)
    cases m with
    | delivered code =>
      refine ⟨fun _ => ⟨i, code, hmark.1, hmark.2.1, ?_⟩, fun hst => (by cases hst)⟩
      rw [hrid]
      exact hmark.2.2
    | retry next code msg => constructor <;> intro hst <;> cases hst
    | dead code msg =>
      refine ⟨fun hst => (by cases hst), fun _ => ?_⟩
      rcases hmark with hmax | ⟨wh, master, hmem, hwh, hopen⟩
      · refine .inl ?_
        rw [Mark.row_attempts]
        omega
      · refine .inr ⟨i, wh, master, ?_, ?_, hopen⟩
        · rw [Mark.row_id, hrid]
          exact hmem
        · rw [Mark.row_webhookID, hrwh]
          exact hwh

/-- The delivery row state machine. In every run, whatever fails, crashes or is deleted, the
columns of a row agree with its status, and a step removes a row only with its webhook, leaves
terminal rows as they are and never lowers the attempts. In every run of the outbox operations, a
row becomes delivered only after a 2xx answer to a worker that had claimed it, and dead only with
its attempts used up or a signing key that does not open. -/
theorem delivery_lifecycle (f : Fleet) :
    (∀ s, f.machine.Reachable s → (∀ d ∈ s.rows, Coherent d) ∧
      ∀ l s', f.next l s = some s' → ∀ d ∈ s.rows,
        l = .deleteWebhook d.webhookID ∨ ∃ d' ∈ s'.rows, Advances d d') ∧
    ∀ s, f.machine.Reach Undeleted s → ∀ l s', Undeleted s l → f.next l s = some s' →
      ∀ d ∈ s.rows, ∃ d' ∈ s'.rows, Advances d d' ∧
        (d.status ≠ .delivered → d'.status = .delivered → Confirmed s d.id) ∧
        (d.status ≠ .dead → d'.status = .dead → f.Spent s d') := by
  constructor
  · intro s hs
    exact ⟨coherent_of_reachable hs, fun l s' hn d hd => advances_of_next hn hd⟩
  · intro s hs l s' hok hn d hd
    obtain ⟨d', hd', hcase⟩ := ((next_effect hn).row hd).resolve_left (hok _)
    refine ⟨d', hd', ?_⟩
    rcases hcase with rfl | htouch
    · exact ⟨.refl d', fun hne h => absurd h hne, fun hne h => absurd h hne⟩
    · have hreason := htouch.reason (honest_of_reach hs) hd
      exact ⟨htouch.rowChange.advances, fun _ => hreason.1, fun _ => hreason.2⟩

end Fleet

end Comax.Webhook
