import Comax.Server.History

/-!
# The transactional outbox

A transaction that changes a secret enqueues one delivery for each webhook that
subscribes to the change. The query of the webhooks searches the stored event list as
a text, and on the lists that `normalizeWebhookEvents` stores it finds the events of
the list and nothing else.
-/

namespace Comax.Server

open Comax.Core Comax.Store

/-- The events of a stored event list. -/
def eventSet (events : Str) : List Str := events.splitOn (byte ',')

/-- The webhook is to hear of an event in an environment. -/
structure Subscribes (projectID envID : Int) (event : Str) (w : Webhook) : Prop where
  enabled : w.enabled = true
  projectID : w.projectID = projectID
  envID : w.envID = none ∨ w.envID = some envID
  event : event ∈ eventSet w.events

/-- One pending delivery was added for each webhook that subscribes, and no other. -/
def Enqueued (projectID envID : Int) (event : Str) (db db' : Database) : Prop :=
  ∃ new, db'.webhookDeliveries.rows = db.webhookDeliveries.rows ++ new ∧
    (∀ d ∈ new, d.event = event ∧ d.status = .pending ∧ d.attempts = 0) ∧
    (new.map (·.webhookID)).Nodup ∧
    ∀ id, id ∈ new.map (·.webhookID) ↔
      ∃ w ∈ db.webhooks.rows, w.id = id ∧ Subscribes projectID envID event w

/-- A soft delete of a live key. -/
structure Dropped (envID : Int) (key : Str) (db db' : Database) : Prop where
  live : ∃ s ∈ db.secrets.rows, s.envID = envID ∧ s.key = key ∧ s.deletedAt = none
  secrets : ∃ now, db'.secrets.rows = db.secrets.rows.map fun s =>
    if s.envID = envID ∧ s.key = key ∧ s.deletedAt = none then SecretRepo.softDeleted now s else s
  secretVersions : db'.secretVersions = db.secretVersions

/-- A write of a key with its version. -/
def Wrote (envID : Int) (key : Str) (db db' : Database) : Prop :=
  ∃ s v, (s.envID = envID ∧ s.key = key) ∧ Recorded db db' s v

/-- Nothing changed but `last_used_at`. -/
def Idle (db db' : Database) : Prop := db' = { db with serviceTokens := db'.serviceTokens }

/-- Nothing changed, or the environment named by the path changed and the change was enqueued. -/
def Outbox (change : Int → Database → Database → Prop) (p e event : Str) (db db' : Database) :
    Prop :=
  Idle db db' ∨ ∃ project env, Located p e project env db ∧ change env.id db db' ∧
    Enqueued project.id env.id event db db'

/-- All stored event lists are those of `normalizeWebhookEvents`. -/
def EventsNormalized (db : Database) : Prop := ∀ w ∈ db.webhooks.rows, Normalized w.events

/-! ## The event list -/

/-- The loop of `normalizeWebhookEvents` collects valid events, at least one of them. -/
theorem collectEvents_valid {srv : Server} {out requested events : List Str}
    (hout : ∀ e ∈ out, e ∈ validWebhookEvents) (hne : out ≠ [] ∨ requested ≠ [])
    (h : srv.collectEvents out requested = .ok events) :
    events ≠ [] ∧ ∀ e ∈ events, e ∈ validWebhookEvents := by
  induction requested generalizing out with
  | nil =>
    cases h
    exact ⟨hne.resolve_right (not_not_intro rfl), hout⟩
  | cons e requested ih =>
    rw [collectEvents] at h
    split at h
    · rename_i hvalid
      refine ih ?_ (.inl ?_) h
      · intro x hx
        split at hx
        · exact hout x hx
        · rcases List.mem_append.mp hx with hx | hx
          · exact hout x hx
          · rw [List.mem_singleton.mp hx]
            exact hvalid
      · split
        · rename_i hmem
          exact List.ne_nil_of_mem hmem
        · exact List.append_ne_nil_of_right_ne_nil _ (List.cons_ne_nil _ _)
    · cases h

/-- A stored event list joins valid events. -/
theorem Normalized.exists_events {text : Str} (h : Normalized text) :
    ∃ events, events ≠ [] ∧ (∀ e ∈ events, e ∈ validWebhookEvents) ∧ text = joinEvents events := by
  obtain ⟨srv, requested, h⟩ := h
  unfold normalizeWebhookEvents at h
  split at h
  · cases h
    exact ⟨validWebhookEvents, by decide, fun _ he => he, rfl⟩
  · rename_i hne
    cases hc : srv.collectEvents [] requested with
    | error e =>
      rw [hc] at h
      cases h
    | ok events =>
      rw [hc] at h
      cases h
      obtain ⟨hevents, hvalid⟩ := collectEvents_valid (by simp) (.inr hne) hc
      exact ⟨events, hevents, hvalid, rfl⟩

/-- A valid event is an ASCII text in lower case without commas and wildcards. -/
theorem valid_event {e : Str} (h : e ∈ validWebhookEvents) :
    e ≠ [] ∧ byte ',' ∉ e ∧ e.map foldCase = e ∧
      ∀ c ∈ e, c < 0x80 ∧ c ≠ byte '%' ∧ c ≠ byte '_' := by
  have hall : ∀ e ∈ validWebhookEvents, e ≠ [] ∧ byte ',' ∉ e ∧ e.map foldCase = e ∧
      ∀ c ∈ e, c < 0x80 ∧ c ≠ byte '%' ∧ c ≠ byte '_' := by
    decide +kernel
  exact hall e h

/-- The events of a stored list are the ones that were joined. -/
theorem eventSet_joinEvents {events : List Str} (hne : events ≠ [])
    (hvalid : ∀ e ∈ events, e ∈ validWebhookEvents) : eventSet (joinEvents events) = events :=
  List.splitOn_intercalate (byte ',') (fun e he => (valid_event (hvalid e he)).2.1) hne

/-- A stored list is in lower case. -/
theorem map_foldCase_joinEvents {events : List Str}
    (hvalid : ∀ e ∈ events, e ∈ validWebhookEvents) :
    (joinEvents events).map foldCase = joinEvents events := by
  unfold joinEvents
  induction events with
  | nil => rfl
  | cons e events ih =>
    obtain ⟨he, hvalid⟩ := List.forall_mem_cons.mp hvalid
    cases events with
    | nil => simpa using (valid_event he).2.2.1
    | cons f events =>
      rw [List.intercalate_cons_cons, List.map_append, List.map_append, ih hvalid,
        (valid_event he).2.2.1]
      rfl

/-- A stored list is ASCII text. -/
theorem joinEvents_ascii {events : List Str} (hvalid : ∀ e ∈ events, e ∈ validWebhookEvents) :
    ∀ c ∈ joinEvents events, c < 0x80 := by
  intro c hc
  rcases mem_intercalate hc with rfl | ⟨e, he, hmem⟩
  · decide
  · exact ((valid_event (hvalid e he)).2.2.2 c hmem).1

/-- The search of `MatchForEvent` finds the events of a stored list. -/
theorem like_eventPattern {event text : Str} (hevent : event ∈ validWebhookEvents)
    (h : Normalized text) :
    like (WebhookRepo.eventPattern event) (ascii "," ++ text ++ ascii ",") = true ↔
      event ∈ eventSet text := by
  obtain ⟨events, -, hvalid, rfl⟩ := h.exists_events
  obtain ⟨hne, hcomma, hfold, hplain⟩ := valid_event hevent
  have hpattern : WebhookRepo.eventPattern event =
      byte '%' :: (byte ',' :: event ++ [byte ','] ++ [byte '%']) := by
    simp [WebhookRepo.eventPattern, ascii]
  have hlit : ∀ c ∈ byte ',' :: event ++ [byte ','], c ≠ byte '%' ∧ c ≠ byte '_' := by
    intro c hc
    simp only [List.cons_append, List.mem_cons, List.mem_append, List.not_mem_nil, or_false] at hc
    rcases hc with rfl | hc | rfl
    · decide
    · exact (hplain c hc).2
    · decide
  have hcommas : ∀ s : Str, s.map foldCase = s →
      (byte ',' :: s ++ [byte ',']).map foldCase = byte ',' :: s ++ [byte ','] := by
    intro s hs
    rw [List.cons_append, List.map_cons, List.map_append, hs]
    rfl
  have htext : ascii "," ++ joinEvents events ++ ascii "," =
      byte ',' :: joinEvents events ++ [byte ','] := rfl
  have hascii : ∀ c ∈ byte ',' :: joinEvents events ++ [byte ','], c < 0x80 := by
    intro c hc
    simp only [List.cons_append, List.mem_cons, List.mem_append, List.not_mem_nil, or_false] at hc
    rcases hc with rfl | hc | rfl
    · decide
    · exact joinEvents_ascii hvalid c hc
    · decide
  rw [hpattern, htext, like_contains fun c hc => (hlit c hc).1,
    resembles_iff (fun hmem => (hlit _ hmem).2 rfl) hascii, hcommas event hfold,
    hcommas _ (map_foldCase_joinEvents hvalid), between_separators hne hcomma]
  rfl

/-- `MatchForEvent` selects the webhooks that subscribe. -/
theorem matchesEvent_iff {projectID envID : Int} {event : Str} {w : Webhook}
    (hevent : event ∈ validWebhookEvents) (h : Normalized w.events) :
    WebhookRepo.matchesEvent projectID envID event w = true ↔
      Subscribes projectID envID event w := by
  have henv : (w.envID.all fun id => id = envID) = true ↔
      w.envID = none ∨ w.envID = some envID := by
    cases w.envID <;> simp
  simp only [WebhookRepo.matchesEvent, Bool.and_eq_true, decide_eq_true_eq, henv,
    like_eventPattern hevent h]
  constructor
  · exact fun ⟨⟨⟨h₁, h₂⟩, h₃⟩, h₄⟩ => ⟨h₁, h₂, h₃, h₄⟩
  · exact fun h => ⟨⟨⟨h.enabled, h.projectID⟩, h.envID⟩, h.event⟩

/-! ## The statements of a transaction -/

/-- The loop of `enqueueWebhooks` adds one pending delivery for each webhook. -/
theorem wp_enqueueEach (event payload : Str) (hooks : List Webhook) (s : Session) :
    wp (enqueueEach event payload hooks) s (fun _ s' => ∃ new,
      s'.db.webhookDeliveries.rows = s.db.webhookDeliveries.rows ++ new ∧
      (∀ d ∈ new, d.event = event ∧ d.status = .pending ∧ d.attempts = 0) ∧
      new.map (·.webhookID) = hooks.map (·.id)) fun _ => True := by
  induction hooks generalizing s with
  | nil => exact ⟨[], by simp, by simp, rfl⟩
  | cons hook hooks ih =>
    rw [enqueueEach, wp_bind]
    apply Tx.wp_stmt
    intro now d db hd
    obtain ⟨hrow, t, hins, rfl⟩ := DeliveryRepo.enqueue_eq_ok hd
    refine wp_mono (ih _) ?_ fun _ he => he
    rintro _ s' ⟨new, hrows, hnew, hids⟩
    refine ⟨d :: new, ?_, ?_, ?_⟩
    · rw [hrows, (Table.insert_eq_some.mp hins).2, List.append_assoc]
      rfl
    · intro x hx
      rcases List.mem_cons.mp hx with rfl | hx
      · rw [hrow]
        exact ⟨rfl, rfl, rfl⟩
      · exact hnew x hx
    · rw [List.map_cons, List.map_cons, hids, hrow]

/-- What is enqueued depends on the webhooks and the outbox only. -/
theorem Enqueued.of_eq {projectID envID : Int} {event : Str} {db db₁ db' : Database}
    (h : Enqueued projectID envID event db₁ db') (hw : db₁.webhooks = db.webhooks)
    (hd : db₁.webhookDeliveries = db.webhookDeliveries) :
    Enqueued projectID envID event db db' := by
  rw [Enqueued, hw, hd] at h
  exact h

/-- The statements that follow a change of a secret enqueue it. -/
theorem wp_announce (actor : Option ServiceToken) (p : Project) (e : Environment)
    (key : Str) {event : Str} (hevent : event ∈ validWebhookEvents) (version : Int) (target : Str)
    (s : Session) :
    wp (announce actor p e key event version target) s
      (fun _ s' => EventsNormalized s.db → Enqueued p.id e.id event s.db s'.db) fun _ => True := by
  unfold announce appendAudit
  simp only [bind_assoc, wp_bind]
  apply Tx.wp_stmt
  intro now entry db haudit
  obtain ⟨-, t, -, rfl⟩ := AuditRepo.append_eq_ok haudit
  simp only [wp_pure, Tx.wp_clock, enqueueWebhooks, wp_bind]
  apply Tx.wp_stmt
  intro now' hooks db hread
  obtain ⟨hhooks, rfl⟩ := Tx.read_eq_ok.mp hread
  cases hhooks
  refine wp_mono (wp_enqueueEach _ _ _ _) ?_ fun _ he => he
  rintro _ s' ⟨new, hrows, hnew, hids⟩ hnorm
  refine ⟨new, hrows, hnew, ?_, ?_⟩
  · rw [hids]
    exact s.db.webhooks.nodup_id.sublist (List.filter_sublist.map _)
  · intro id
    rw [hids, List.mem_map]
    simp only [WebhookRepo.matchForEvent, List.mem_filter]
    constructor
    · rintro ⟨w, ⟨hw, hmatch⟩, rfl⟩
      exact ⟨w, hw, rfl, (matchesEvent_iff hevent (hnorm w hw)).mp hmatch⟩
    · rintro ⟨w, hw, rfl, hsub⟩
      exact ⟨w, ⟨hw, (matchesEvent_iff hevent (hnorm w hw)).mpr hsub⟩, rfl⟩

/-- The statements that write a version enqueue it. -/
theorem wp_writeVersion_enqueued (actor : Option ServiceToken) (p : Project) (e : Environment)
    (key ct : Str) {event : Str} (hevent : event ∈ validWebhookEvents) (target : Secret → Str)
    (s : Session) :
    wp (writeVersion actor p e key ct event target) s
      (fun _ s' => EventsNormalized s.db → Enqueued p.id e.id event s.db s'.db)
      fun _ => True := by
  apply wp_writeVersion
  intro up v s₁ _ _ honly
  have hw : s₁.db.webhooks = s.db.webhooks := by rw [honly]
  have hd : s₁.db.webhookDeliveries = s.db.webhookDeliveries := by rw [honly]
  refine wp_mono (wp_announce actor p e key hevent _ _ _) (fun _ s' hs' hnorm => ?_) fun _ h => h
  apply (hs' _).of_eq hw hd
  rw [EventsNormalized, hw]
  exact hnorm

/-- The transaction of a soft delete deletes the key and enqueues the change. -/
theorem wp_dropSecret (actor : Option ServiceToken) (p : Project) (e : Environment) (key : Str)
    (s : Session) :
    wp (dropSecret actor p e key) s (fun _ s' => Dropped e.id key s.db s'.db ∧
      (EventsNormalized s.db → Enqueued p.id e.id eventSecretDelete s.db s'.db))
      fun _ => True := by
  unfold dropSecret
  rw [wp_bind]
  apply Tx.wp_stmt
  intro now u db hdelete
  obtain ⟨hlive, rfl⟩ := SecretRepo.delete_eq_ok hdelete
  have hframe := announced actor p e key eventSecretDelete 0 (secretTarget p e key)
  refine wp_mono (wp_and (wp_announce actor p e key (by decide) _ _ _) (hframe _)) ?_
    fun _ _ => trivial
  rintro _ s' ⟨henqueued, hs'⟩
  refine ⟨⟨hlive, ⟨now, ?_⟩, ?_⟩, fun hnorm => (henqueued hnorm).of_eq rfl rfl⟩
  · rw [hs']
    simp [and_assoc]
  · rw [hs']

/-! ## The requests -/

section

variable {R : Database → Database → Prop} {srv : Server} {actor : Option ServiceToken}
  {rq : Request} {p e k : Str} (hrefl : ∀ db, R db db)
include hrefl

/-- The transaction of a PUT writes to the environment of its path. -/
theorem meets_handlePutSecret (hput : ∀ project env ct o db, Located p e project env db →
      wp (putVersion actor project env k ct) ⟨o, 1, db⟩ (fun _ s => R db s.db) fun _ => True)
    (db : Database) :
    (srv.handlePutSecret actor rq p e k).Meets Later R db fun _ _ => True := by
  apply Prog.Meets.bind
  apply (meets_resolveEnv hrefl srv p e db).mono
  intro pe db₁ hloc
  apply Prog.meets_lift_bind
  intro _ _
  apply Prog.meets_lift_bind
  intro value _
  apply Prog.meets_lift_bind
  intro master _
  apply Prog.meets_lift_bind
  intro ct _
  apply Prog.Meets.bind
  apply meets_transaction hrefl
  intro o db' hl
  exact hput _ _ _ _ _ (hl.located hloc)

/-- See `meets_handlePutSecret`. -/
theorem meets_handleRollbackSecret
    (hrestore : ∀ project env current target version o db, Located p e project env db →
      wp (restoreVersion actor project env k current target version) ⟨o, 1, db⟩
        (fun _ s => R db s.db) fun _ => True) (db : Database) :
    (srv.handleRollbackSecret actor rq p e k).Meets Later R db fun _ _ => True := by
  apply Prog.Meets.bind
  apply (meets_resolveEnv hrefl srv p e db).mono
  intro pe db₁ hloc
  apply Prog.meets_lift_bind
  intro _ _
  apply Prog.meets_lift_bind
  intro targetVersion _
  split
  · trivial
  · apply Prog.Meets.bind
    apply meets_lookup hrefl
    intro _ db₂ current hl₂ _
    split
    · trivial
    · apply Prog.Meets.bind
      apply meets_lookup hrefl
      intro _ db₃ target hl₃ _
      apply Prog.meets_lift_bind
      intro master _
      apply Prog.meets_lift_bind
      intro plain _
      apply Prog.Meets.bind
      apply meets_transaction hrefl
      intro o db' hl
      exact hrestore _ _ _ _ _ _ _ (hl.located (hl₃.located (hl₂.located hloc)))

/-- See `meets_handlePutSecret`. -/
theorem meets_handleDeleteSecret (hdrop : ∀ project env o db, Located p e project env db →
      wp (dropSecret actor project env k) ⟨o, 1, db⟩ (fun _ s => R db s.db) fun _ => True)
    (db : Database) :
    (srv.handleDeleteSecret actor p e k).Meets Later R db fun _ _ => True := by
  apply Prog.Meets.bind
  apply (meets_resolveEnv hrefl srv p e db).mono
  intro pe db₁ hloc
  apply Prog.meets_lift_bind
  intro _ _
  apply Prog.Meets.bind
  apply meets_transaction hrefl
  intro o db' hl
  exact hdrop _ _ _ _ (hl.located hloc)

end

/-- Bumping `last_used_at` changes nothing else. -/
theorem idle_of_touch {id now : Int} {db db' : Database} {u : Unit}
    (h : TokenRepo.touchLastUsed id now db = .ok (u, db')) : Idle db db' := by
  rw [TokenRepo.touchLastUsed_eq_ok h]
  rfl

/-- What an action of a secret request does when the stored event lists are normalized. -/
def OutboxStep (change : Int → Database → Database → Prop) (p e event : Str)
    (db db' : Database) : Prop :=
  EventsNormalized db → Outbox change p e event db db'

/-- An action that changes nothing. -/
theorem OutboxStep.refl (change : Int → Database → Database → Prop) (p e event : Str)
    (db : Database) : OutboxStep change p e event db db :=
  fun _ => .inl rfl

/-- The actions of a secret request are those of its handler once it is authenticated. -/
theorem meets_serve {srv : Server} {rq : Request} {change : Int → Database → Database → Prop}
    {p e event : Str} (hhandle : ∀ actor db, (srv.handle actor rq rq.route).Meets Later
      (OutboxStep change p e event) db fun _ _ => True) (db : Database) :
    (srv.serve rq).Meets Later (OutboxStep change p e event) db fun _ _ => True := by
  have htouch : ∀ id, Tx.Respects (OutboxStep change p e event) (TokenRepo.touchLastUsed id) :=
    fun _ _ _ _ _ h _ => .inl (idle_of_touch h)
  apply Prog.Meets.bind
  apply (every_authMiddleware (OutboxStep.refl change p e event) htouch srv rq).meets.mono
  exact fun actor db' _ => hhandle actor db'

/-- A transaction that writes a version, as one step of the outbox. -/
theorem wp_writeVersion_outbox (actor : Option ServiceToken) {p e : Str} {project : Project}
    {env : Environment} (key ct : Str) {event : Str} (hevent : event ∈ validWebhookEvents)
    (target : Secret → Str) {s : Session} (hloc : Located p e project env s.db) :
    wp (writeVersion actor project env key ct event target) s
      (fun _ s' => OutboxStep (Wrote · key) p e event s.db s'.db) fun _ => True := by
  refine wp_mono (wp_and (wp_writeVersion_recorded actor project env key ct event target s)
    (wp_writeVersion_enqueued actor project env key ct hevent target s)) ?_ fun _ _ => trivial
  rintro up s' ⟨⟨hkey, v, hrec⟩, henqueued⟩ hnorm
  exact .inr ⟨project, env, hloc, ⟨up.secret, v, hkey, hrec⟩, henqueued hnorm⟩

section

variable (srv : Server) {rq : Request} {p e k : Str} (db : Database)

/-- The actions of a PUT. -/
theorem meets_put (hroute : rq.route = .putSecret p e k) :
    (srv.serve rq).Meets Later (OutboxStep (Wrote · k) p e eventSecretUpsert) db
      fun _ _ => True := by
  refine meets_serve ?_ db
  intro actor db
  rw [hroute]
  apply meets_handlePutSecret (OutboxStep.refl _ _ _ _)
  intro project env ct o db hloc
  exact wp_writeVersion_outbox actor k ct (by decide) _ hloc

/-- The actions of a rollback. -/
theorem meets_rollback (hroute : rq.route = .rollbackSecret p e k) :
    (srv.serve rq).Meets Later (OutboxStep (Wrote · k) p e eventSecretRollback) db
      fun _ _ => True := by
  refine meets_serve ?_ db
  intro actor db
  rw [hroute]
  apply meets_handleRollbackSecret (OutboxStep.refl _ _ _ _)
  intro project env current target version o db hloc
  exact wp_writeVersion_outbox actor k target.ciphertext (by decide) _ hloc

/-- The actions of a DELETE. -/
theorem meets_delete (hroute : rq.route = .deleteSecret p e k) :
    (srv.serve rq).Meets Later (OutboxStep (Dropped · k) p e eventSecretDelete) db
      fun _ _ => True := by
  refine meets_serve ?_ db
  intro actor db
  rw [hroute]
  apply meets_handleDeleteSecret (OutboxStep.refl _ _ _ _)
  intro project env o db hloc
  refine wp_mono (wp_dropSecret actor project env k ⟨o, 1, db⟩) ?_ fun _ h => h
  rintro _ s' ⟨hdropped, henqueued⟩ hnorm
  exact .inr ⟨project, env, hloc, hdropped, henqueued hnorm⟩

end

/-! ## The stored event lists -/

namespace EventsNormalized

/-- The statements on the webhooks store normalized lists, and all others leave the webhooks
alone. -/
theorem ordinary : Ordinary fun db db' => EventsNormalized db → EventsNormalized db' := by
  refine .of_changes (fun _ h => h) (fun _ _ _ h h' hn => h' (h hn)) (fun _ _ hn => hn)
    (fun _ _ hn => hn) (fun _ _ hn => hn) (fun _ _ hn => hn) ?_ ?_ ?_
  · intro p e url events ct hevents now db w db' h hn
    obtain ⟨hrow, t, hins, rfl⟩ := WebhookRepo.create_eq_ok h
    intro x hx
    rw [(Table.insert_eq_some.mp hins).2] at hx
    rcases List.mem_append.mp hx with hx | hx
    · exact hn x hx
    · rw [List.mem_singleton.mp hx, hrow]
      exact hevents
  · intro id enabled now db u db' h hn
    rw [WebhookRepo.setEnabled_eq_ok h]
    intro x hx
    obtain ⟨w, hw, rfl⟩ := List.mem_map.mp hx
    split
    · exact hn w hw
    · exact hn w hw
  · intro id now db u db' h hn
    rw [WebhookRepo.delete_eq_ok h]
    exact fun x hx => hn x (List.mem_filter.mp hx).1

/-- Every statement keeps the event lists normalized. -/
theorem statements : Statements fun db db' => EventsNormalized db → EventsNormalized db' :=
  { ordinary.background fun _ _ hn => hn,
    ordinary.writes (fun _ _ hn => hn) (fun _ _ hn => hn) fun _ _ hn => hn with }

end EventsNormalized

/-- In every run of the server, each action of a PUT, a rollback or a DELETE either changes
nothing but `last_used_at`, or changes the secret and enqueues one pending delivery for each
webhook that subscribes to the change, and no other. -/
theorem transactional_outbox (srv : Server) {start : Database → Prop}
    (hstart : ∀ db, start db → EventsNormalized db) {s s' : Shared Request Moment Database}
    (h : (srv.system start).Reachable s) {i : ℕ} {o : Moment}
    {proc : Process Request Moment Database} (hp : s.procs i = some proc)
    (hn : (srv.system start).next (.advance i o) s = some s') (p e k : Str) :
    (proc.name.route = .putSecret p e k →
      Outbox (Wrote · k) p e eventSecretUpsert s.state s'.state) ∧
    (proc.name.route = .rollbackSecret p e k →
      Outbox (Wrote · k) p e eventSecretRollback s.state s'.state) ∧
    (proc.name.route = .deleteSecret p e k →
      Outbox (Dropped · k) p e eventSecretDelete s.state s'.state) := by
  have hnorm : EventsNormalized s.state :=
    interleave.invariant EventsNormalized.statements.serve hstart h
  refine ⟨fun hroute => ?_, fun hroute => ?_, fun hroute => ?_⟩
  · exact interleave.advance_meets (Later.serve srv) Later.refl Later.trans h hp
      (fun db => meets_put srv db hroute) hn hnorm
  · exact interleave.advance_meets (Later.serve srv) Later.refl Later.trans h hp
      (fun db => meets_rollback srv db hroute) hn hnorm
  · exact interleave.advance_meets (Later.serve srv) Later.refl Later.trans h hp
      (fun db => meets_delete srv db hroute) hn hnorm

/-- A webhook is created, and a PUT has taken all its actions but the last. -/
def putWithWebhook : List (Turn Request Moment) :=
  setUp ++ atOnce 3 (bearerRequest .post ["api", "v1", "webhooks"] { noFields with
      webhook := some ⟨ascii "p", [], ascii "https://h", []⟩ }) 4 13 ++
    atOnce 4 (bearerRequest .put keyPath { noFields with value := some (ascii "a") }) 4 14

set_option maxRecDepth 4000 in
/-- The last action of the PUT adds one delivery. -/
theorem transactional_outbox_putWithWebhook :
    ∃ s s', (plainServer.system (· = .empty)).run putWithWebhook ⟨.empty, fun _ => none⟩ = some s ∧
      (plainServer.system (· = .empty)).next (.advance 4 (.calm 14)) s = some s' ∧
      s'.state.webhookDeliveries.rows.length = 1 ∧
      Outbox (Wrote · (ascii "k")) (ascii "p") (ascii "e") eventSecretUpsert s.state s'.state := by
  have hrun : ((plainServer.system (· = .empty)).run putWithWebhook ⟨.empty, fun _ => none⟩).any
      (fun s => (s.procs 4).any (fun p =>
          p.name.route = .putSecret (ascii "p") (ascii "e") (ascii "k")) &&
        ((plainServer.system (· = .empty)).next (.advance 4 (.calm 14)) s).any fun s' =>
          s'.state.webhookDeliveries.rows.length = 1) = true := by
    decide +kernel
  obtain ⟨s, hs, hreach, hnext⟩ := exists_reachable hrun
  obtain ⟨hproc, hnext⟩ := Bool.and_eq_true_iff.mp hnext
  obtain ⟨proc, hp, hroute⟩ := (Option.any_eq_true _ _).mp hproc
  obtain ⟨s', hs', hone⟩ := (Option.any_eq_true _ _).mp hnext
  have hempty : ∀ db, db = Database.empty → EventsNormalized db := by
    rintro _ rfl w hw
    cases hw
  exact ⟨s, s', hs, hs', of_decide_eq_true hone, (transactional_outbox plainServer hempty
    hreach hp hs' _ _ _).1 (of_decide_eq_true hroute)⟩

end Comax.Server
