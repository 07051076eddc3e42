import Comax.Server.History
import Comax.Server.Replay

/-!
# The audit log tells the whole story

Every transaction of a handler makes one change and adds the entry that tells it. So in
every run of the server the log, replayed from its first entry, gives the present state of
the other tables.
-/

namespace Comax.Server

open Comax.Core Comax.Store

/-- The entry says the event. -/
structure Tells (entry : AuditEntry) (ev : AuditEvent) : Prop where
  accepted : ev.Accepted
  action : entry.action = ev.action.text
  target : entry.target = ev.target

/-- The log tells the other tables. -/
structure Chronicled (db : Database) : Prop where
  grounded : Grounded db
  replay : replay db.auditLog.rows = some (view db)
  told : ∀ entry ∈ db.auditLog.rows, ∃ ev, Tells entry ev

namespace Chronicled

/-- Nothing has happened. -/
theorem empty : Chronicled .empty where
  grounded := ⟨fun _ h => absurd h List.not_mem_nil, fun _ h => absurd h List.not_mem_nil⟩
  replay := rfl
  told _ h := absurd h List.not_mem_nil

/-- A change and then its entry. -/
theorem step {db d : Database} {ev : AuditEvent} {entry : AuditEntry} {t : Table AuditEntry}
    (h : Chronicled db) (hchange : Change ev db d) (htold : Tells entry ev)
    (hrows : t.rows = d.auditLog.rows ++ [entry]) : Chronicled { d with auditLog := t } := by
  obtain ⟨hlog, hchange⟩ := hchange
  obtain ⟨hgrounded, hview⟩ := hchange h.grounded
  have hevent := eventOf_eq htold.accepted htold.action htold.target
  have hsame : view { d with auditLog := t } = view d := rfl
  rw [hlog] at hrows
  refine ⟨⟨hgrounded.envs, hgrounded.secrets⟩, ?_, fun x hx => ?_⟩
  · change Server.replay t.rows = _
    rw [hrows, replay_concat, h.replay, hsame, hview]
    simp [hevent]
  · change x ∈ t.rows at hx
    rw [hrows] at hx
    rcases List.mem_append.mp hx with hx | hx
    · exact h.told x hx
    · rw [List.mem_singleton.mp hx]
      exact ⟨ev, htold⟩

/-- The outbox tells nothing. -/
theorem of_enqueue {db : Database} (t : Table WebhookDelivery) (h : Chronicled db) :
    Chronicled { db with webhookDeliveries := t } :=
  ⟨⟨h.grounded.envs, h.grounded.secrets⟩, h.replay, h.told⟩

/-- A change that no entry tells. -/
theorem of_touch {id now : Int} {db d : Database} {u : Unit}
    (htouch : TokenRepo.touchLastUsed id now db = .ok (u, d)) (h : Chronicled db) :
    Chronicled d := by
  have hview := view_touch htouch
  have hd := TokenRepo.touchLastUsed_eq_ok htouch
  refine ⟨?_, ?_, ?_⟩
  · rw [hd]
    exact ⟨h.grounded.envs, h.grounded.secrets⟩
  · rw [hview, ← h.replay, hd]
  · rw [hd]
    exact h.told

end Chronicled

/-- The actions keep the log in step with the tables. -/
def Kept (db d : Database) : Prop := Chronicled db → Chronicled d

theorem Kept.refl (db : Database) : Kept db db := id

theorem Kept.trans (x y z : Database) (h : Kept x y) (h' : Kept y z) : Kept x z := h' ∘ h

section

variable {actor : Option ServiceToken} {db : Database} {ev : AuditEvent} {s : Session}
  {action target : Str}

/-- The entry of a change. -/
theorem wp_entry {ρ : Type} {refuse : StoreError → ρ} {actorID : Option Int}
    (hchange : Change ev db s.db) (hev : ev.Accepted) (haction : action = ev.action.text)
    (htarget : target = ev.target) :
    wp (Tx.stmt refuse (AuditRepo.append actorID action target [])) s
      (fun _ s' => Kept db s'.db) fun _ => True := by
  apply Tx.wp_stmt
  intro now entry d haudit
  obtain ⟨hentry, t, hins, rfl⟩ := AuditRepo.append_eq_ok haudit
  have htold : Tells entry ev := by
    rw [hentry]
    exact ⟨hev, haction, htarget⟩
  exact fun h => h.step hchange htold (Table.insert_eq_some.mp hins).2

/-- See `wp_entry`. -/
theorem wp_entryOf (refuse : Response) (hchange : Change ev db s.db) (hev : ev.Accepted)
    (haction : action = ev.action.text) (htarget : target = ev.target) :
    wp (appendAudit refuse actor action target) s (fun _ s' => Kept db s'.db) fun _ => True := by
  unfold appendAudit
  rw [wp_bind]
  exact wp_entry hchange hev haction htarget

/-- See `wp_entry`. -/
theorem wp_entryForToken (tokenID : Int) (hchange : Change ev db s.db) (hev : ev.Accepted)
    (haction : action = ev.action.text) (htarget : target = ev.target) :
    wp (appendAuditForToken tokenID action target) s (fun _ s' => Kept db s'.db)
      fun _ => True := by
  unfold appendAuditForToken
  rw [wp_bind]
  exact wp_entry hchange hev haction htarget

/-- The entry of a changed secret, and its deliveries. -/
theorem wp_announcement {p : Project} {e : Environment} {key : Str} {version : Int}
    (hchange : Change ev db s.db) (hev : ev.Accepted) (haction : action = ev.action.text)
    (htarget : target = ev.target) :
    wp (announce actor p e key action version target) s (fun _ s' => Kept db s'.db)
      fun _ => True := by
  have henqueue : ∀ id event payload, Tx.Respects Kept (DeliveryRepo.enqueue id event payload) := by
    intro id event payload now d _ d' h
    obtain ⟨-, t, -, rfl⟩ := DeliveryRepo.enqueue_eq_ok h
    exact Chronicled.of_enqueue t
  unfold announce
  rw [wp_bind]
  refine wp_mono (wp_entryOf _ hchange hev haction htarget) (fun _ s₁ hs₁ => ?_) fun _ h => h
  rw [wp_bind, Tx.wp_clock, enqueueWebhooks, wp_bind]
  apply Tx.wp_stmt
  intro _ hooks d hread
  obtain ⟨-, rfl⟩ := Tx.read_eq_ok.mp hread
  refine wp_mono ((everyTxRules Kept.refl Kept.trans).enqueueEach henqueue _ _ _ _)
    (fun _ s' hs' => ?_) fun _ h => h
  exact Kept.trans _ _ _ hs₁ hs'

end

/-! ## The handlers -/

/-- The name of the first token. -/
theorem acceptedName_bootstrap : AcceptedName (ascii "bootstrap") := by
  refine ⟨by decide, by decide, fun c hc => ?_⟩
  have hall : (ascii "bootstrap").all allowed = true := by decide
  exact List.all_eq_true.mp hall c hc

/-- An event without names. -/
theorem accepted_of_nil {ev : AuditEvent} (h : ev.names = []) : ev.Accepted := by
  rw [AuditEvent.Accepted, h]
  exact fun _ hs => absurd hs List.not_mem_nil

/-- An event with one name. -/
theorem accepted_of_single {ev : AuditEvent} {name : Str} (h : ev.names = [name])
    (hname : AcceptedName name) : ev.Accepted := by
  rw [AuditEvent.Accepted, h]
  intro s hs
  rw [List.mem_singleton.mp hs]
  exact hname

/-- A target of one field. -/
theorem target_single {ev : AuditEvent} {label text value : Str}
    (hfields : ev.fields = [(label, value)]) (htext : text = label ++ [byte '=']) :
    text ++ value = ev.target := by
  rw [AuditEvent.target, hfields, fieldsText_singleton, fieldText, htext, List.append_assoc]
  rfl

/-- The target of a session's entry. -/
theorem sessionTarget_eq (tokenID sessionID : Int) :
    sessionTarget tokenID sessionID =
      fieldsText (AuditEvent.sessionFields tokenID sessionID) := by
  rw [AuditEvent.sessionFields, fieldsText_cons_cons, fieldsText_singleton, sessionTarget]
  simp only [fieldText, List.append_assoc]
  rfl

section

variable {srv : Server} {actor : Option ServiceToken} {rq : Request} {db : Database}

/-- The handler keeps the log in step with the tables. -/
def Records (db : Database) (handler : Handler Response) : Prop :=
  handler.Meets Later Kept db fun _ _ => True

/-- The transaction of a handler and its answer. -/
theorem records_transaction {α : Type} {onBegin onCommit : Response} {body : Tx Response α}
    {f : α → Response}
    (h : ∀ o db', Later db db' → wp body ⟨o, 1, db'⟩ (fun _ s => Kept db' s.db) fun _ => True) :
    Records db (transaction onBegin onCommit body >>= fun a => pure (f a)) := by
  apply Prog.Meets.bind
  exact (meets_transaction Kept.refl h).mono fun _ _ _ => trivial

/-- A check. -/
theorem meets_check_bind {α β : Type} {m : Except Failure α} {f : α → Handler β}
    {Q : β → Database → Prop} (h : ∀ a, m = .ok a → (f a).Meets Later Kept db Q) :
    (check m >>= f).Meets Later Kept db Q := by
  apply Prog.meets_lift_bind
  intro a ha
  cases m with
  | ok b =>
    cases ha
    exact h a rfl
  | error e => cases ha

/-- The project that a path names. -/
theorem meets_resolveProject {β : Type} {p : Str} {f : Project → Handler β}
    {Q : β → Database → Prop} (h : ∀ db' project, AcceptedName p →
      ProjectRepo.byName p db' = .ok project → (f project).Meets Later Kept db' Q) :
    (srv.resolveProject p >>= f).Meets Later Kept db Q := by
  apply Prog.Meets.bind
  apply meets_check_bind
  intro _ hname
  apply meets_lookup Kept.refl
  intro _ db' project _ hproject
  exact h db' project (acceptedName_of_ok hname) hproject

/-- The environment that a path names. -/
theorem meets_environment {β : Type} {p e : Str} {f : Project × Environment → Handler β}
    {Q : β → Database → Prop} (h : ∀ db' project env, AcceptedName p → AcceptedName e →
      Located p e project env db' → (f (project, env)).Meets Later Kept db' Q) :
    (srv.resolveEnv p e >>= f).Meets Later Kept db Q := by
  apply Prog.Meets.bind
  apply meets_resolveProject
  intro db₁ project hp hproject
  apply meets_check_bind
  intro _ he
  apply Prog.Meets.bind
  apply meets_lookup Kept.refl
  intro _ db₂ env hl henv
  exact h db₂ project env hp (acceptedName_of_ok he) ⟨hl.projectByName hproject, henv⟩

/-- The check of an admin. -/
theorem meets_admin {β : Type} {f : Unit → Handler β} {Q : β → Database → Prop}
    (h : ∀ db', (f ()).Meets Later Kept db' Q) :
    (requireAdmin actor >>= f).Meets Later Kept db Q := by
  apply Prog.Meets.bind
  apply ((everyRules Kept.refl).requireAdmin).meets.mono
  exact fun _ db' _ => h db'

/-- `handleBootstrap` -/
theorem records_bootstrap : Records db (srv.handleBootstrap rq) := by
  apply Prog.meets_lift_bind
  intro plain _
  apply records_transaction
  intro o db' _
  rw [wp_bind]
  apply Tx.wp_stmt
  intro now r d hbootstrap
  cases r with
  | none => trivial
  | some tok =>
    obtain ⟨hname, hchange⟩ := change_bootstrap hbootstrap
    have hev : (AuditEvent.bootstrapped (ascii "bootstrap")).Accepted :=
      accepted_of_single rfl acceptedName_bootstrap
    simp only [wp_bind]
    exact wp_entry hchange hev rfl (by rw [hname]; rfl)

/-- `handleCreateDashboardSession` -/
theorem records_createSession : Records db (srv.handleCreateDashboardSession rq) := by
  apply Prog.meets_lift_bind
  intro token _
  apply Prog.Meets.bind
  apply ((everyRules Kept.refl).verify token).meets.mono
  intro verified db₁ _
  apply meets_check_bind
  intro tok _
  apply Prog.meets_lift_bind
  intro sessionPlain _
  apply Prog.meets_lift_bind
  intro csrfPlain _
  apply records_transaction
  intro o db' _
  rw [wp_bind]
  apply Tx.wp_stmt
  intro now sess d hcreate
  simp only [wp_bind]
  exact wp_entryForToken tok.id (change_sessionCreate tok.id hcreate) (accepted_of_nil rfl)
    rfl (sessionTarget_eq _ _)

/-- `handleRevokeDashboardSession` -/
theorem records_revokeSession : Records db (srv.handleRevokeDashboardSession rq) := by
  rw [handleRevokeDashboardSession]
  split
  · trivial
  · apply records_transaction
    intro o db' _
    rw [wp_bind]
    apply Tx.wp_stmt
    intro now sess d hread
    obtain ⟨hsess, rfl⟩ := Tx.read_eq_ok.mp hread
    obtain ⟨hmem, hrow⟩ := Table.of_find?_eq_some (found_eq_ok.mp hsess)
    simp only [Bool.and_eq_true, decide_eq_true_eq] at hrow
    -- the session was just found live, so `Revoke` finds it too
    rw [wp_bind, Tx.wp_attempt_iff]
    split
    · trivial
    · have hrevoke := SessionRepo.revoke_ok hmem hrow.1.2 (o.now 2)
      rw [hrevoke]
      exact wp_entryForToken sess.tokenID (change_sessionRevoke sess.tokenID hrevoke)
        (accepted_of_nil rfl) rfl (sessionTarget_eq _ _)

/-- `handleRevokeDashboardSessionByID` -/
theorem records_revokeSessionByID (id : Str) :
    Records db (handleRevokeDashboardSessionByID actor id) := by
  apply Prog.meets_lift_bind
  intro tok _
  apply Prog.meets_lift_bind
  intro targetID _
  apply records_transaction
  intro o db' _
  rw [wp_bind]
  apply Tx.wp_stmt
  intro now n d hrevoke
  obtain ⟨hsome, hnone⟩ := change_sessionRevokeByID hrevoke
  split
  · rename_i hpos
    exact wp_entryForToken tok.id (hsome hpos) (accepted_of_nil rfl) rfl (sessionTarget_eq _ _)
  · rename_i hzero
    rw [hnone (Nat.eq_zero_of_not_pos hzero)]
    exact Kept.refl db'

/-- The name of a project is the one that it is found by. -/
theorem name_of_byName {p : Str} {project : Project} (h : ProjectRepo.byName p db = .ok project) :
    project.name = p :=
  of_decide_eq_true (Table.of_find?_eq_some (found_eq_ok.mp h)).2

/-- `handleCreateProject` -/
theorem records_createProject : Records db (srv.handleCreateProject actor rq) := by
  apply Prog.meets_lift_bind
  intro name _
  apply meets_check_bind
  intro _ hname
  apply records_transaction
  intro o db' _
  rw [wp_bind]
  apply Tx.wp_stmt
  intro now p d hcreate
  have hrow : p.name = name := by rw [(ProjectRepo.create_eq_ok hcreate).1]
  have hev : (AuditEvent.projectCreated name).Accepted :=
    accepted_of_single rfl (acceptedName_of_ok hname)
  simp only [wp_bind]
  refine wp_entryOf _ (change_projectCreate hcreate) hev rfl ?_
  rw [hrow]
  exact target_single rfl rfl

/-- `handleCreateEnv` -/
theorem records_createEnv (p : Str) : Records db (srv.handleCreateEnv actor rq p) := by
  apply meets_resolveProject
  intro db₁ project hp hproject
  apply Prog.meets_lift_bind
  intro body _
  apply meets_check_bind
  intro _ hname
  apply meets_check_bind
  intro _ _
  apply records_transaction
  intro o db' hl
  rw [wp_bind]
  apply Tx.wp_stmt
  intro now e d hcreate
  have hrow : e.name = body.1 := by rw [(EnvRepo.create_eq_ok hcreate).1]
  have hev : (AuditEvent.envCreated p body.1).Accepted := by
    simp only [AuditEvent.Accepted, AuditEvent.names, List.forall_mem_cons]
    exact ⟨hp, acceptedName_of_ok hname, fun _ h => absurd h List.not_mem_nil⟩
  simp only [wp_bind]
  refine wp_entryOf _ (change_envCreate (hl.projectByName hproject) hcreate) hev rfl ?_
  rw [hrow, name_of_byName hproject, AuditEvent.target, AuditEvent.fields, fieldsText_cons_cons,
    fieldsText_singleton]
  simp only [fieldText, List.append_assoc]
  rfl

/-- `handleCreateToken` -/
theorem records_createToken : Records db (srv.handleCreateToken actor rq) := by
  apply meets_admin
  intro db₁
  apply Prog.meets_lift_bind
  intro name _
  apply meets_check_bind
  intro _ hname
  apply Prog.meets_lift_bind
  intro plain _
  apply records_transaction
  intro o db' _
  rw [wp_bind]
  apply Tx.wp_stmt
  intro now tok d hcreate
  obtain ⟨hrow, hchange⟩ := change_tokenCreate hcreate
  have hev : (AuditEvent.tokenCreated name).Accepted :=
    accepted_of_single rfl (acceptedName_of_ok hname)
  simp only [wp_bind]
  exact wp_entryOf _ hchange hev rfl (by rw [hrow]; exact target_single rfl rfl)

/-- `handleRevokeToken` -/
theorem records_revokeToken (id : Str) : Records db (handleRevokeToken actor id) := by
  apply meets_admin
  intro db₁
  apply Prog.meets_lift_bind
  intro targetID _
  apply records_transaction
  intro o db' _
  have hrest : ∀ ops, wp (do
      let _ ← Tx.stmt storeError (TokenRepo.revoke targetID)
      appendAudit (internal "audit failed") actor (ascii "auth.token.revoke")
        (ascii "token_id=" ++ formatInt targetID)) ⟨o, ops, db'⟩ (fun _ s => Kept db' s.db)
        fun _ => True := by
    intro ops
    rw [wp_bind]
    apply Tx.wp_stmt
    intro now u d hrevoke
    exact wp_entryOf _ (change_tokenRevoke hrevoke) (accepted_of_nil rfl) rfl
      (target_single rfl rfl)
  rw [wp_bind]
  apply Tx.wp_stmt
  intro now target d hread
  obtain ⟨-, rfl⟩ := Tx.read_eq_ok.mp hread
  split
  · rw [wp_bind]
    apply Tx.wp_stmt
    intro now' liveAdmins d hcount
    obtain ⟨-, rfl⟩ := Tx.read_eq_ok.mp hcount
    split
    · trivial
    · exact hrest _
  · exact hrest _

/-- `handleCreateWebhook` -/
theorem records_createWebhook : Records db (srv.handleCreateWebhook actor rq) := by
  apply meets_admin
  intro db₁
  apply Prog.meets_lift_bind
  intro body _
  apply meets_resolveProject
  intro db₂ proj hp hproj
  apply Prog.Meets.bind
  apply ((everyRules Kept.refl).webhookEnv _ _).meets.mono
  intro env db₃ _
  apply Prog.meets_lift_bind
  intro _ _
  apply meets_check_bind
  intro events _
  apply Prog.meets_lift_bind
  intro signingSecret _
  apply Prog.meets_lift_bind
  intro master _
  apply Prog.meets_lift_bind
  intro sealed _
  apply records_transaction
  intro o db' _
  rw [wp_bind]
  apply Tx.wp_stmt
  intro now hook d hcreate
  have hev : (AuditEvent.webhookCreated body.project hook.id).Accepted := accepted_of_single rfl hp
  simp only [wp_bind]
  refine wp_entryOf _ (change_webhookCreate hcreate) hev rfl ?_
  rw [name_of_byName hproj, AuditEvent.target, AuditEvent.fields, fieldsText_cons_cons,
    fieldsText_singleton]
  simp only [fieldText, List.append_assoc]
  rfl

/-- `handleDeleteWebhook` -/
theorem records_deleteWebhook (id : Str) : Records db (handleDeleteWebhook actor id) := by
  apply meets_admin
  intro db₁
  apply Prog.meets_lift_bind
  intro targetID _
  apply records_transaction
  intro o db' _
  rw [wp_bind]
  apply Tx.wp_stmt
  intro now u d hdelete
  exact wp_entryOf _ (change_webhookDelete hdelete) (accepted_of_nil rfl) rfl
    (target_single rfl rfl)

/-- `handleSetWebhookEnabled` -/
theorem records_setWebhookEnabled (id : Str) :
    Records db (handleSetWebhookEnabled actor rq id) := by
  apply meets_admin
  intro db₁
  apply Prog.meets_lift_bind
  intro targetID _
  apply Prog.meets_lift_bind
  intro body _
  apply Prog.meets_lift_bind
  intro enabled _
  apply records_transaction
  intro o db' _
  rw [wp_bind]
  apply Tx.wp_stmt
  intro now u d hset
  have haction : (if enabled then ascii "webhook.enable" else ascii "webhook.disable") =
      (AuditEvent.webhookSet enabled targetID).action.text := by
    cases enabled <;> rfl
  exact wp_entryOf _ (change_webhookSet hset) (accepted_of_nil rfl) haction
    (target_single rfl rfl)

/-- The names in the event of a key. -/
theorem accepted_key {p e k : Str} (hp : AcceptedName p) (he : AcceptedName e)
    (hk : AcceptedName k) : ∀ s ∈ [p, e, k], AcceptedName s := by
  simp only [List.forall_mem_cons]
  exact ⟨hp, he, hk, fun _ h => absurd h List.not_mem_nil⟩

/-- More fields after those of a key. -/
theorem keyFields_append (p e k : Str) (f : Str × Str) (fs : List (Str × Str)) :
    fieldsText (AuditEvent.keyFields p e k ++ f :: fs) =
      fieldsText (AuditEvent.keyFields p e k) ++ byte ' ' :: fieldsText (f :: fs) :=
  fieldsText_append (List.cons_ne_nil _ _) f fs

/-- The target of a key's entry. -/
theorem secretTarget_eq {p e k : Str} {project : Project} {env : Environment}
    (h : Located p e project env db) :
    secretTarget project env k = fieldsText (AuditEvent.keyFields p e k) := by
  have hname : env.name = e := by
    have hrow := (Table.of_find?_eq_some (found_eq_ok.mp h.envName)).2
    simp only [Bool.and_eq_true, decide_eq_true_eq] at hrow
    exact hrow.2
  rw [secretTarget, hname, name_of_byName h.projectName, AuditEvent.keyFields,
    fieldsText_cons_cons, fieldsText_cons_cons, fieldsText_singleton]
  simp only [fieldText, List.append_assoc]
  rfl

/-- The statements that write a version, and their entry. -/
theorem wp_writeVersion_kept (ev : Int → AuditEvent) {p e k ct event : Str} {project : Project}
    {env : Environment} {target : Secret → Str} {s : Session}
    (hloc : Located p e project env s.db)
    (happly : ∀ version, version = ((view s.db).keys p e k).elim 1 (·.1 + 1) →
      (view s.db).apply (ev version) = (view s.db).setKey p e k (some (version, true)))
    (hev : ∀ version, (ev version).Accepted) (haction : ∀ version, event = (ev version).action.text)
    (htarget : ∀ up : Secret, target up = (ev up.version).target) :
    wp (writeVersion actor project env k ct event target) s (fun _ s' => Kept s.db s'.db)
      fun _ => True := by
  unfold writeVersion
  rw [wp_bind]
  apply Tx.wp_stmt
  intro now up d hup
  rw [wp_bind]
  apply Tx.wp_stmt
  intro now' v d' hcreate
  obtain ⟨-, t, -, rfl⟩ := VersionRepo.create_eq_ok hcreate
  obtain ⟨hview, hversion⟩ := view_upsert hloc.envAt hup
  have hchange : Change (ev up.secret.version) s.db { d with secretVersions := t } := by
    refine ⟨?_, fun hg => ⟨?_, ?_⟩⟩
    · rcases SecretRepo.upsert_eq_ok hup with ⟨_, -, -, -, rfl⟩ | ⟨-, -, _, -, rfl⟩ <;> rfl
    · have hgrounded := grounded_upsert hloc.envAt hg hup
      exact ⟨hgrounded.envs, hgrounded.secrets⟩
    · rw [happly _ hversion]
      exact hview
  simp only [wp_bind]
  exact wp_announcement hchange (hev _) (haction _) (htarget _)

/-- `handlePutSecret` -/
theorem records_putSecret (p e k : Str) : Records db (srv.handlePutSecret actor rq p e k) := by
  apply meets_environment
  intro db₁ project env hp he hloc
  apply meets_check_bind
  intro _ hk
  apply Prog.meets_lift_bind
  intro value _
  apply Prog.meets_lift_bind
  intro master _
  apply Prog.meets_lift_bind
  intro ct _
  apply records_transaction
  intro o db' hl
  have hloc' := hl.located hloc
  refine wp_writeVersion_kept (.secretUpserted p e k) hloc' (fun _ _ => rfl)
    (fun _ => accepted_key hp he (acceptedName_of_ok hk)) (fun _ => rfl) fun up => ?_
  rw [secretTarget_eq hloc', AuditEvent.target, AuditEvent.fields, keyFields_append,
    fieldsText_singleton, List.append_assoc]
  rfl

/-- `handleRollbackSecret` -/
theorem records_rollbackSecret (p e k : Str) :
    Records db (srv.handleRollbackSecret actor rq p e k) := by
  apply meets_environment
  intro db₁ project env hp he hloc
  apply meets_check_bind
  intro _ hk
  apply Prog.meets_lift_bind
  intro targetVersion _
  split
  · trivial
  apply Prog.Meets.bind
  apply meets_lookup Kept.refl
  intro _ db₂ current hl₂ _
  split
  · trivial
  apply Prog.Meets.bind
  apply meets_lookup Kept.refl
  intro _ db₃ target hl₃ _
  apply Prog.meets_lift_bind
  intro master _
  apply Prog.meets_lift_bind
  intro plain _
  apply records_transaction
  intro o db' hl
  have hloc' := hl.located (hl₃.located (hl₂.located hloc))
  refine wp_writeVersion_kept (fun _ => .secretRolledBack p e k current.version targetVersion)
    hloc' (fun version hversion => ?_) (fun _ => accepted_key hp he (acceptedName_of_ok hk))
    (fun _ => rfl) fun up => ?_
  · rw [World.apply, ← hversion]
  · rw [rollbackTarget, secretTarget_eq hloc', AuditEvent.target, AuditEvent.fields,
      keyFields_append, fieldsText_cons_cons, fieldsText_singleton]
    simp only [fieldText, List.append_assoc]
    rfl

/-- `handleDeleteSecret` -/
theorem records_deleteSecret (p e k : Str) :
    Records db (srv.handleDeleteSecret actor p e k) := by
  apply meets_environment
  intro db₁ project env hp he hloc
  apply meets_check_bind
  intro _ hk
  apply records_transaction
  intro o db' hl
  have hloc' := hl.located hloc
  unfold dropSecret
  rw [wp_bind]
  apply Tx.wp_stmt
  intro now u d hdelete
  have hchange : Change (.secretDeleted p e k) db' d := by
    refine ⟨?_, fun hg => ⟨grounded_delete hg hdelete, view_delete hloc'.envAt hdelete⟩⟩
    rw [(SecretRepo.delete_eq_ok hdelete).2]
  exact wp_announcement hchange (accepted_key hp he (acceptedName_of_ok hk)) rfl
    (secretTarget_eq hloc')

/-- Every handler that writes. -/
theorem records_handle (route : Route) : Records db (srv.handle actor rq route) := by
  cases route with
  | bootstrap => exact records_bootstrap
  | createSession => exact records_createSession
  | revokeSession => exact records_revokeSession
  | revokeSessionByID id => exact records_revokeSessionByID id
  | createProject => exact records_createProject
  | createToken => exact records_createToken
  | revokeToken id => exact records_revokeToken id
  | createWebhook => exact records_createWebhook
  | setWebhookEnabled id => exact records_setWebhookEnabled id
  | deleteWebhook id => exact records_deleteWebhook id
  | createEnv p => exact records_createEnv p
  | putSecret p e k => exact records_putSecret p e k
  | deleteSecret p e k => exact records_deleteSecret p e k
  | rollbackSecret p e k => exact records_rollbackSecret p e k
  | other => trivial

end

/-! ## Runs -/

/-- A request keeps the log in step with the tables. -/
theorem records_serve (srv : Server) (rq : Request) (db : Database) :
    Records db (srv.serve rq) := by
  have htouch : ∀ id, Tx.Respects Kept (TokenRepo.touchLastUsed id) :=
    fun _ _ _ _ _ h => Chronicled.of_touch h
  apply Prog.Meets.bind
  apply (every_authMiddleware Kept.refl htouch srv rq).meets.mono
  exact fun actor db' _ => records_handle rq.route

/-- The log is in step with the tables in every run. -/
theorem chronicled (srv : Server) {s : Shared Request Moment Database}
    (h : (srv.system (· = .empty)).Reachable s) : Chronicled s.state := by
  have hempty : ∀ db, db = Database.empty → Chronicled db := by
    rintro _ rfl
    exact .empty
  exact interleave.invariant_meets (Later.serve srv) Later.refl Later.trans (records_serve srv)
    hempty h

/-- In every run of the server from an empty database, every entry of the audit log can be
read back, and replaying the log from its first entry gives the present projects,
environments, tokens, sessions, webhooks and the version of every key. -/
theorem audit_log_replays (srv : Server) {s : Shared Request Moment Database}
    (h : (srv.system (· = .empty)).Reachable s) :
    replay s.state.auditLog.rows = some (view s.state) ∧
      ∀ entry ∈ s.state.auditLog.rows, ∃ ev, Tells entry ev :=
  ⟨(chronicled srv h).replay, (chronicled srv h).told⟩

set_option maxRecDepth 4000 in
/-- After a PUT, a DELETE and a PUT the log tells the second version of the key. -/
theorem audit_log_replays_putDeletePut :
    ∃ s, (plainServer.system (· = .empty)).run putDeletePut ⟨.empty, fun _ => none⟩ = some s ∧
      (replay s.state.auditLog.rows).bind (·.keys (ascii "p") (ascii "e") (ascii "k")) =
        some (2, true) ∧
      replay s.state.auditLog.rows = some (view s.state) := by
  have hrun : ((plainServer.system (· = .empty)).run putDeletePut ⟨.empty, fun _ => none⟩).any
      (fun s => (replay s.state.auditLog.rows).bind
        (·.keys (ascii "p") (ascii "e") (ascii "k")) = some (2, true)) = true := by
    decide +kernel
  obtain ⟨s, hs, hreach, htold⟩ := exists_reachable hrun
  exact ⟨s, hs, of_decide_eq_true htold, (audit_log_replays plainServer hreach).1⟩

end Comax.Server
