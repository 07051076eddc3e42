import Comax.Server.Outbox

/-!
# Every change is audited

Each handler that writes hand-writes the same sequence: lookups, then one transaction
with its change and one audit entry. Whatever fails, the request either leaves the
database as authentication left it, or has committed the change of its handler and
one entry under the acting token.
-/

namespace Comax.Server

open Comax.Core Comax.Store Comax.Webhook

/-- A bump of the token's `last_used_at`, which may fail. -/
def Used (tok : ServiceToken) (db db' : Database) : Prop :=
  db' = db ∨ ∃ now, TokenRepo.touchLastUsed tok.id now db = .ok ((), db')

/-- The token that the middleware stamps on a request, and the database it leaves. -/
inductive Stamped (srv : Server) (rq : Request) (db : Database) :
    Option ServiceToken → Database → Prop
  | anyone (hpublic : isPublicPath rq.path = true) : Stamped srv rq db none db
  | bearer {plain tok db'} (hparse : parseBearer rq.authorization = .ok plain)
      (htok : TokenRepo.byHash (srv.hash plain) db = .ok tok) (hused : Used tok db db') :
      Stamped srv rq db (some tok) db'
  | session {sess tok now}
      (hsess : SessionRepo.byHash (srv.hash rq.cookie) now db = .ok sess)
      (htok : TokenRepo.byID sess.tokenID db = .ok tok) : Stamped srv rq db (some tok) db

/-- One pending delivery was added for each webhook that matches, and nothing else changed. -/
structure EnqueuedFor (projectID envID : Int) (event : Str) (db d : Database) : Prop where
  others : d = { db with webhookDeliveries := d.webhookDeliveries }
  rows : ∃ new, d.webhookDeliveries.rows = db.webhookDeliveries.rows ++ new ∧
    (∀ x ∈ new, x.event = event ∧ x.status = .pending ∧ x.attempts = 0) ∧
    new.map (·.webhookID) = (WebhookRepo.matchForEvent projectID envID event db).map (·.id)

/-- A key was written, its version recorded and the change enqueued. -/
def WroteVersion (tok : ServiceToken) (p : Project) (e : Environment) (key ciphertext event : Str)
    (db d : Database) : Prop :=
  ∃ now now' up v d₁ d₂, SecretRepo.upsert e.id key ciphertext now db = .ok (up, d₁) ∧
    VersionRepo.create up.secret.id up.secret.version ciphertext (some tok.id) now' d₁ =
      .ok (v, d₂) ∧
    EnqueuedFor p.id e.id event d₂ d

/-- What the transaction of a handler changes apart from the audit log, for a stamped token, and
the id of the token that acts. -/
inductive Effect (srv : Server) (rq : Request) (db : Database) :
    Route → Option ServiceToken → Int → Database → Prop
  | bootstrap {actor plain now tok d} (hplain : rq.inputs.token = some plain)
      (h : TokenRepo.bootstrapIfEmpty (ascii "bootstrap") (srv.hash plain) now db =
        .ok (some tok, d)) :
      Effect srv rq db .bootstrap actor tok.id d
  | createSession {actor bearer tok sessionPlain csrfPlain now sess d}
      (hbearer : rq.body.token = some bearer)
      (htok : TokenRepo.byHash (srv.hash bearer) db = .ok tok)
      (h : SessionRepo.create ⟨tok.id, srv.hash sessionPlain, srv.hash csrfPlain,
        truncateUserAgent rq.userAgent, srv.ipPrefix rq.remoteAddr, sessionTTL⟩ now db =
        .ok (sess, d)) :
      Effect srv rq db .createSession actor tok.id d
  | revokeSession {actor now now' sess d}
      (hsess : SessionRepo.byHash (srv.hash rq.cookie) now db = .ok sess)
      (h : SessionRepo.revoke sess.id now' db = .ok ((), d)) :
      Effect srv rq db .revokeSession actor sess.tokenID d
  | revokeSessionByID {id tok targetID now n d} (hid : parseInt64 id = some targetID) (hn : 0 < n)
      (h : SessionRepo.revokeByIDAndTokenID targetID tok.id now db = .ok (n, d)) :
      Effect srv rq db (.revokeSessionByID id) (some tok) tok.id d
  | createProject {tok name now p d} (hname : rq.body.name = some name)
      (h : ProjectRepo.create name now db = .ok (p, d)) :
      Effect srv rq db .createProject (some tok) tok.id d
  | createToken {tok name plain now t d} (hname : rq.body.name = some name)
      (h : TokenRepo.create name (srv.hash plain) false now db = .ok (t, d)) :
      Effect srv rq db .createToken (some tok) tok.id d
  | revokeToken {id tok targetID now d} (hid : parseInt64 id = some targetID)
      (h : TokenRepo.revoke targetID now db = .ok ((), d)) :
      Effect srv rq db (.revokeToken id) (some tok) tok.id d
  | createWebhook {tok body project envID events sealed now hook d}
      (hbody : rq.body.webhook = some body)
      (hproject : ProjectRepo.byName body.project db = .ok project)
      (h : WebhookRepo.create project.id envID body.url events sealed now db = .ok (hook, d)) :
      Effect srv rq db .createWebhook (some tok) tok.id d
  | setWebhookEnabled {id tok webhookID enabled now d} (hid : parseInt64 id = some webhookID)
      (henabled : rq.body.enabled = some (some enabled))
      (h : WebhookRepo.setEnabled webhookID enabled now db = .ok ((), d)) :
      Effect srv rq db (.setWebhookEnabled id) (some tok) tok.id d
  | deleteWebhook {id tok webhookID d} (hid : parseInt64 id = some webhookID)
      (h : WebhookRepo.delete webhookID db = .ok ((), d)) :
      Effect srv rq db (.deleteWebhook id) (some tok) tok.id d
  | createEnv {p tok body project now e d} (hbody : rq.body.env = some body)
      (hproject : ProjectRepo.byName p db = .ok project)
      (h : EnvRepo.create project.id body.1 body.2 now db = .ok (e, d)) :
      Effect srv rq db (.createEnv p) (some tok) tok.id d
  | putSecret {p e k tok project env ct d} (hloc : Located p e project env db)
      (h : WroteVersion tok project env k ct eventSecretUpsert db d) :
      Effect srv rq db (.putSecret p e k) (some tok) tok.id d
  | deleteSecret {p e k tok project env now d₁ d} (hloc : Located p e project env db)
      (h : SecretRepo.delete env.id k now db = .ok ((), d₁))
      (henqueued : EnqueuedFor project.id env.id eventSecretDelete d₁ d) :
      Effect srv rq db (.deleteSecret p e k) (some tok) tok.id d
  | rollbackSecret {p e k tok project env toVersion current target d}
      (hloc : Located p e project env db) (hto : rq.body.targetVersion = some toVersion)
      (hcurrent : SecretRepo.byKey env.id k db = .ok current)
      (htarget : VersionRepo.byVersion current.id toVersion db = .ok target)
      (h : WroteVersion tok project env k target.ciphertext eventSecretRollback db d) :
      Effect srv rq db (.rollbackSecret p e k) (some tok) tok.id d

/-- Beside the change of a handler, which leads to `d`, one audit entry of the token was added. -/
structure Audited (acting : Int) (db d db' : Database) : Prop where
  others : db' = { d with auditLog := db'.auditLog }
  entry : ∃ entry, entry.actorToken = some acting ∧
    db'.auditLog.rows = db.auditLog.rows ++ [entry]

/-- Nothing changed, or the handler's change and its audit entry were committed. -/
def Outcome (srv : Server) (rq : Request) (route : Route) (actor : Option ServiceToken)
    (db db' : Database) : Prop :=
  db' = db ∨ ∃ acting d, Effect srv rq db route actor acting d ∧ Audited acting db d db'

/-! ## The audit entry -/

/-- What comes before leaves the audit log alone. -/
theorem Audited.of_log {acting : Int} {db d db' : Database} (h : Audited acting d d db')
    (hlog : d.auditLog = db.auditLog) : Audited acting db d db' := by
  refine ⟨h.others, ?_⟩
  rw [← hlog]
  exact h.entry

/-- An accepted entry. -/
theorem audited_of_append {acting now : Int} {action target metadata : Str} {db db' : Database}
    {e : AuditEntry} (h : AuditRepo.append (some acting) action target metadata now db =
      .ok (e, db')) : Audited acting db db db' := by
  obtain ⟨he, t, hins, rfl⟩ := AuditRepo.append_eq_ok h
  exact ⟨rfl, e, by rw [he], (Table.insert_eq_some.mp hins).2⟩

variable {srv : Server} {rq : Request} {actor : Option ServiceToken} {tok : ServiceToken}
  {route : Route} {db : Database}

/-- The entry of the stamped token. -/
theorem wp_appendAudit {refuse : Response} {action target : Str} {s : Session}
    {Q : Unit → Session → Prop} (hQ : ∀ s', Audited tok.id s.db s.db s'.db → Q () s') :
    wp (appendAudit refuse (some tok) action target) s Q fun _ => True := by
  rw [appendAudit, wp_bind]
  apply Tx.wp_stmt
  intro now e db' h
  exact hQ _ (audited_of_append h)

/-- An entry and the end of the transaction. -/
theorem wp_appendAudit_return {α : Type} {refuse : Response} {action target : Str} (a : α)
    (s : Session) :
    wp (do appendAudit refuse (some tok) action target; return a) s
      (fun _ s' => Audited tok.id s.db s.db s'.db) fun _ => True := by
  rw [wp_bind]
  exact wp_appendAudit fun _ h => h

/-- The entry of the token of a session. -/
theorem wp_appendAuditForToken {tokenID : Int} {action target : Str} {s : Session}
    {Q : Unit → Session → Prop} (hQ : ∀ s', Audited tokenID s.db s.db s'.db → Q () s') :
    wp (appendAuditForToken tokenID action target) s Q fun _ => True := by
  rw [appendAuditForToken, wp_bind]
  apply Tx.wp_stmt
  intro now e db' h
  exact hQ _ (audited_of_append h)

/-- A change of the handler that leaves the audit log alone, and its entry. -/
theorem Outcome.of_effect {acting : Int} {d db' : Database}
    (heffect : Effect srv rq db route actor acting d) (hlog : d.auditLog = db.auditLog)
    (h : Audited acting d d db') : Outcome srv rq route actor db db' :=
  .inr ⟨acting, d, heffect, h.of_log hlog⟩

/-- The statement that changes something, followed by the entry. -/
theorem wp_change {α β : Type} {refuse : StoreError → Response}
    {f : Int → Database → Except StoreError (α × Database)} {k : α → Tx Response β} {acting : Int}
    {s : Session}
    (hk : ∀ a s, wp (k a) s (fun _ s' => Audited acting s.db s.db s'.db) fun _ => True)
    (h : ∀ now a d, f now s.db = .ok (a, d) →
      d.auditLog = s.db.auditLog ∧ Effect srv rq s.db route actor acting d) :
    wp (Tx.stmt refuse f >>= k) s (fun _ s' => Outcome srv rq route actor s.db s'.db)
      fun _ => True := by
  rw [wp_bind]
  apply Tx.wp_stmt
  intro now a d hstmt
  obtain ⟨hlog, heffect⟩ := h now a d hstmt
  exact wp_mono (hk a _) (fun _ _ haudit => .of_effect heffect hlog haudit) fun _ _ => trivial

/-! ## The parts of a handler -/

/-- A needed value. -/
theorem leaves_need {α : Type} {refuse : Response} {v : Option α} {Q : α → Database → Prop}
    {E : Database → Prop} (hE : E db) (h : ∀ a, v = some a → Q a db) :
    (need refuse v).Leaves db Q E := by
  refine Prog.leaves_lift hE fun a ha => ?_
  cases v with
  | none => cases ha
  | some b =>
    cases ha
    exact h a rfl

/-- A check. -/
theorem leaves_check {α : Type} {m : Except Failure α} {Q : α → Database → Prop}
    {E : Database → Prop} (hE : E db) (h : ∀ a, m = .ok a → Q a db) :
    (check m).Leaves db Q E := by
  refine Prog.leaves_lift hE fun a ha => ?_
  cases m with
  | ok b =>
    cases ha
    exact h a rfl
  | error e => cases ha

/-- The check for an admin. -/
theorem leaves_requireAdmin {Q : Unit → Database → Prop} {E : Database → Prop} (hE : E db)
    (h : Q () db) : (requireAdmin (some tok)).Leaves db Q E := by
  rw [requireAdmin]
  split
  · exact h
  · exact hE

/-- The id in a path. -/
theorem leaves_pathID {message : String} {segment : Str} {Q : Int → Database → Prop}
    {E : Database → Prop} (hE : E db) (h : ∀ id, parseInt64 segment = some id → Q id db) :
    (pathID message segment).Leaves db Q E :=
  leaves_need hE fun id hid => h id (Option.filter_eq_some_iff.mp hid).1

/-- The project that a path names. -/
theorem leaves_resolveProject {p : Str} {Q : Project → Database → Prop} {E : Database → Prop}
    (hE : E db) (h : ∀ project, ProjectRepo.byName p db = .ok project → Q project db) :
    (srv.resolveProject p).Leaves db Q E :=
  Prog.Leaves.bind (leaves_check hE fun _ _ => leaves_lookup hE fun _ => h)

/-- The environment that a path names. -/
theorem leaves_resolveEnv {p e : Str} {Q : Project × Environment → Database → Prop}
    {E : Database → Prop} (hE : E db)
    (h : ∀ project env, Located p e project env db → Q (project, env) db) :
    (srv.resolveEnv p e).Leaves db Q E := by
  refine Prog.Leaves.bind (leaves_resolveProject hE fun project hproject => ?_)
  refine Prog.Leaves.bind (leaves_check hE fun _ _ => ?_)
  exact Prog.Leaves.bind (leaves_lookup hE fun _ env henv => h project env ⟨hproject, henv⟩)

/-- The transaction of a handler. -/
theorem leaves_work {α : Type} {onBegin onCommit : Response} {body : Tx Response α}
    {f : α → Response}
    (h : ∀ o, wp body ⟨o, 1, db⟩ (fun _ s => Outcome srv rq route actor db s.db) fun _ => True) :
    (transaction onBegin onCommit body >>= fun a => pure (f a)).Leaves db
      (fun _ => Outcome srv rq route actor db) (Outcome srv rq route actor db) :=
  Prog.Leaves.bind (leaves_transaction (.inl rfl) h)

/-! ## The handlers -/

/-- Every uninterrupted run of a handler ends in its outcome. -/
def Accounted (srv : Server) (rq : Request) (route : Route) (actor : Option ServiceToken)
    (db : Database) (handler : Handler Response) : Prop :=
  handler.Leaves db (fun _ => Outcome srv rq route actor db) (Outcome srv rq route actor db)

/-- `handleBootstrap` -/
theorem accounted_bootstrap : Accounted srv rq .bootstrap actor db (srv.handleBootstrap rq) := by
  refine Prog.Leaves.bind (leaves_need (.inl rfl) fun plain hplain => ?_)
  refine leaves_work fun o => ?_
  rw [wp_bind]
  apply Tx.wp_stmt
  intro now r d hbootstrap
  cases r with
  | none => trivial
  | some tok =>
    have hlog : d.auditLog = db.auditLog := by
      rcases TokenRepo.bootstrapIfEmpty_eq_ok hbootstrap with ⟨hnone, -⟩ | ⟨-, t, -, -, rfl⟩
      · cases hnone
      · rfl
    rw [wp_bind]
    apply Tx.wp_stmt
    intro now' e d' haudit
    exact .of_effect (.bootstrap hplain hbootstrap) hlog (audited_of_append haudit)

/-- `handleCreateProject` -/
theorem accounted_createProject : Accounted srv rq .createProject (some tok) db
    (srv.handleCreateProject (some tok) rq) := by
  refine Prog.Leaves.bind (leaves_need (.inl rfl) fun name hname => ?_)
  refine Prog.Leaves.bind (leaves_check (.inl rfl) fun _ _ => ?_)
  refine leaves_work fun o => ?_
  refine wp_change (fun _ _ => wp_appendAudit_return _ _) fun now p d hcreate =>
    ⟨?_, .createProject hname hcreate⟩
  obtain ⟨-, t, -, rfl⟩ := ProjectRepo.create_eq_ok hcreate
  rfl

/-- `handleCreateToken` -/
theorem accounted_createToken : Accounted srv rq .createToken (some tok) db
    (srv.handleCreateToken (some tok) rq) := by
  refine Prog.Leaves.bind (leaves_requireAdmin (.inl rfl) ?_)
  refine Prog.Leaves.bind (leaves_need (.inl rfl) fun name hname => ?_)
  refine Prog.Leaves.bind (leaves_check (.inl rfl) fun _ _ => ?_)
  refine Prog.Leaves.bind (leaves_need (.inl rfl) fun plain _ => ?_)
  refine leaves_work fun o => ?_
  refine wp_change (fun _ _ => wp_appendAudit_return _ _) fun now t d hcreate =>
    ⟨?_, .createToken hname hcreate⟩
  obtain ⟨-, ts, -, rfl⟩ := TokenRepo.create_eq_ok hcreate
  rfl

/-- `handleRevokeToken` -/
theorem accounted_revokeToken (id : Str) : Accounted srv rq (.revokeToken id) (some tok) db
    (handleRevokeToken (some tok) id) := by
  refine Prog.Leaves.bind (leaves_requireAdmin (.inl rfl) ?_)
  refine Prog.Leaves.bind (leaves_pathID (.inl rfl) fun targetID hid => ?_)
  refine leaves_work fun o => ?_
  have hrevoke : ∀ s : Session, s.db = db → wp (do
      let _ ← Tx.stmt storeError (TokenRepo.revoke targetID)
      appendAudit (internal "audit failed") (some tok) (ascii "auth.token.revoke")
        (ascii "token_id=" ++ formatInt targetID)) s
      (fun _ s' => Outcome srv rq (.revokeToken id) (some tok) db s'.db) fun _ => True := by
    rintro s rfl
    refine wp_change (fun _ _ => wp_appendAudit fun _ h => h) fun now _ d h =>
      ⟨?_, .revokeToken hid h⟩
    rw [TokenRepo.revoke_eq_ok h]
  rw [wp_bind]
  apply Tx.wp_stmt
  intro now target d hread
  obtain ⟨-, rfl⟩ := Tx.read_eq_ok.mp hread
  split
  · rw [wp_bind]
    apply Tx.wp_stmt
    intro now liveAdmins d hread
    obtain ⟨-, rfl⟩ := Tx.read_eq_ok.mp hread
    split
    · trivial
    · exact hrevoke _ rfl
  · exact hrevoke _ rfl

/-- `handleCreateEnv` -/
theorem accounted_createEnv (p : Str) : Accounted srv rq (.createEnv p) (some tok) db
    (srv.handleCreateEnv (some tok) rq p) := by
  refine Prog.Leaves.bind (leaves_resolveProject (.inl rfl) fun project hproject => ?_)
  refine Prog.Leaves.bind (leaves_need (.inl rfl) fun body hbody => ?_)
  refine Prog.Leaves.bind (leaves_check (.inl rfl) fun _ _ => ?_)
  refine Prog.Leaves.bind (leaves_check (.inl rfl) fun _ _ => ?_)
  refine leaves_work fun o => ?_
  refine wp_change (fun _ _ => wp_appendAudit_return _ _) fun now e d hcreate =>
    ⟨?_, .createEnv hbody hproject hcreate⟩
  obtain ⟨-, t, -, rfl⟩ := EnvRepo.create_eq_ok hcreate
  rfl

/-- What the lookup of a bearer returns, it has found. -/
theorem leaves_verify {plain : Str} {Q : Except Failure ServiceToken → Database → Prop}
    {E : Database → Prop} (hok : ∀ tok, TokenRepo.byHash (srv.hash plain) db = .ok tok →
      Q (.ok tok) db) (herror : ∀ e, Q (.error e) db) : (srv.verify plain).Leaves db Q E := by
  rw [verify]
  split
  · exact herror _
  · refine Prog.Leaves.bind (leaves_autocommit (fun now tok d hread => ?_) fun e => ?_)
    · obtain ⟨hfound, rfl⟩ := Tx.read_eq_ok.mp hread
      dsimp only
      split
      · exact hok tok hfound
      · exact herror _
    · cases e <;> exact herror _

/-- `handleCreateDashboardSession` -/
theorem accounted_createSession : Accounted srv rq .createSession actor db
    (srv.handleCreateDashboardSession rq) := by
  refine Prog.Leaves.bind (leaves_need (.inl rfl) fun bearer hbearer => ?_)
  refine Prog.Leaves.bind (leaves_verify (fun tok htok => ?_) fun e => .inl rfl)
  refine Prog.Leaves.bind (leaves_check (.inl rfl) fun tok' hsame => ?_)
  cases hsame
  refine Prog.Leaves.bind (leaves_need (.inl rfl) fun sessionPlain _ => ?_)
  refine Prog.Leaves.bind (leaves_need (.inl rfl) fun csrfPlain _ => ?_)
  refine leaves_work fun o => ?_
  refine wp_change (fun sess s => ?_) fun now sess d hcreate =>
    ⟨?_, .createSession hbearer htok hcreate⟩
  · rw [wp_bind]
    exact wp_appendAuditForToken fun _ h => h
  · obtain ⟨-, t, -, rfl⟩ := SessionRepo.create_eq_ok hcreate
    rfl

/-- `handleRevokeDashboardSession` -/
theorem accounted_revokeSession : Accounted srv rq .revokeSession actor db
    (srv.handleRevokeDashboardSession rq) := by
  rw [handleRevokeDashboardSession]
  split
  · exact .inl rfl
  · refine leaves_work fun o => ?_
    rw [wp_bind]
    apply Tx.wp_stmt
    intro now sess d hread
    obtain ⟨hsess, rfl⟩ := Tx.read_eq_ok.mp hread
    obtain ⟨hmem, hrow⟩ := Table.of_find?_eq_some (found_eq_ok.mp hsess)
    simp only [Bool.and_eq_true, decide_eq_true_eq] at hrow
    rw [wp_bind, Tx.wp_attempt_iff]
    split
    · trivial
    · rw [SessionRepo.revoke_ok hmem hrow.1.2]
      exact wp_appendAuditForToken fun _ h =>
        .of_effect (.revokeSession hsess (SessionRepo.revoke_ok hmem hrow.1.2 _)) rfl h

/-- `handleRevokeDashboardSessionByID` -/
theorem accounted_revokeSessionByID (id : Str) :
    Accounted srv rq (.revokeSessionByID id) (some tok) db
      (handleRevokeDashboardSessionByID (some tok) id) := by
  refine Prog.Leaves.bind (leaves_need (.inl rfl) fun tok' hsame => ?_)
  cases hsame
  refine Prog.Leaves.bind (leaves_pathID (.inl rfl) fun targetID hid => ?_)
  refine leaves_work fun o => ?_
  rw [wp_bind]
  apply Tx.wp_stmt
  intro now n d hrevoke
  split
  · rename_i hn
    have hlog : d.auditLog = db.auditLog := by
      cases hrevoke
      rfl
    exact wp_appendAuditForToken fun _ h => .of_effect (.revokeSessionByID hid hn hrevoke) hlog h
  · rename_i hn
    cases hrevoke
    refine .inl ?_
    have hrows : ∀ r ∈ db.dashboardSessions.rows, ¬ (decide (r.id = targetID) &&
        decide (r.tokenID = tok.id) && decide (r.revokedAt = none)) = true := by
      simpa [List.filter_eq_nil_iff] using hn
    have htable : db.dashboardSessions.update (fun s => s.id = targetID && s.tokenID = tok.id &&
        s.revokedAt = none) (fun s => { s with revokedAt := some now }) (fun _ => ⟨rfl, rfl⟩) =
        db.dashboardSessions := by
      refine Table.ext ((List.map_congr_left fun r hr => ?_).trans (List.map_id _))
      exact if_neg (hrows r hr)
    rw [htable]

/-- `handleDeleteWebhook` -/
theorem accounted_deleteWebhook (id : Str) : Accounted srv rq (.deleteWebhook id) (some tok) db
    (handleDeleteWebhook (some tok) id) := by
  refine Prog.Leaves.bind (leaves_requireAdmin (.inl rfl) ?_)
  refine Prog.Leaves.bind (leaves_pathID (.inl rfl) fun webhookID hid => ?_)
  refine leaves_work fun o => ?_
  refine wp_change (fun _ _ => wp_appendAudit fun _ h => h) fun now _ d hdelete =>
    ⟨?_, .deleteWebhook hid hdelete⟩
  rw [WebhookRepo.delete_eq_ok hdelete]

/-- `handleSetWebhookEnabled` -/
theorem accounted_setWebhookEnabled (id : Str) :
    Accounted srv rq (.setWebhookEnabled id) (some tok) db
      (handleSetWebhookEnabled (some tok) rq id) := by
  refine Prog.Leaves.bind (leaves_requireAdmin (.inl rfl) ?_)
  refine Prog.Leaves.bind (leaves_pathID (.inl rfl) fun webhookID hid => ?_)
  refine Prog.Leaves.bind (leaves_need (.inl rfl) fun body hbody => ?_)
  refine Prog.Leaves.bind (leaves_need (.inl rfl) fun enabled henabled => ?_)
  cases henabled
  refine leaves_work fun o => ?_
  refine wp_change (fun _ _ => wp_appendAudit fun _ h => h) fun now _ d hset =>
    ⟨?_, .setWebhookEnabled hid hbody hset⟩
  rw [WebhookRepo.setEnabled_eq_ok hset]

/-- `handleCreateWebhook` -/
theorem accounted_createWebhook : Accounted srv rq .createWebhook (some tok) db
    (srv.handleCreateWebhook (some tok) rq) := by
  have henv : ∀ projectID env {Q : Option Environment → Database → Prop},
      (∀ r, Q r db) → (srv.webhookEnv projectID env).Leaves db Q
        (Outcome srv rq .createWebhook (some tok) db) := by
    intro projectID env Q hQ
    rw [webhookEnv]
    split
    · exact hQ none
    · refine Prog.Leaves.bind (leaves_check (.inl rfl) fun _ _ => ?_)
      exact Prog.Leaves.bind (leaves_lookup (.inl rfl) fun _ e _ => hQ (some e))
  refine Prog.Leaves.bind (leaves_requireAdmin (.inl rfl) ?_)
  refine Prog.Leaves.bind (leaves_need (.inl rfl) fun body hbody => ?_)
  refine Prog.Leaves.bind (leaves_resolveProject (.inl rfl) fun project hproject => ?_)
  refine Prog.Leaves.bind (henv _ _ fun env => ?_)
  refine Prog.Leaves.bind (Prog.leaves_lift (.inl rfl) fun _ _ => ?_)
  refine Prog.Leaves.bind (leaves_check (.inl rfl) fun events _ => ?_)
  refine Prog.Leaves.bind (leaves_need (.inl rfl) fun signingSecret _ => ?_)
  refine Prog.Leaves.bind (leaves_need (.inl rfl) fun master _ => ?_)
  refine Prog.Leaves.bind (leaves_need (.inl rfl) fun sealed _ => ?_)
  refine leaves_work fun o => ?_
  refine wp_change (fun _ _ => wp_appendAudit_return _ _) fun now hook d hcreate =>
    ⟨?_, .createWebhook hbody hproject hcreate⟩
  obtain ⟨-, t, -, rfl⟩ := WebhookRepo.create_eq_ok hcreate
  rfl

/-! ## The secrets -/

/-- The audit entry and the deliveries of a changed secret. -/
theorem wp_announce_enqueuedFor (p : Project) (e : Environment) (key event : Str) (version : Int)
    (target : Str) (s : Session) :
    wp (announce (some tok) p e key event version target) s (fun _ s' => ∃ d,
      EnqueuedFor p.id e.id event s.db d ∧ Audited tok.id s.db d s'.db) fun _ => True := by
  rw [announce, wp_bind]
  refine wp_appendAudit fun s₁ haudit => ?_
  simp only [wp_bind, Tx.wp_clock, enqueueWebhooks]
  apply Tx.wp_stmt
  intro now hooks db₁ hread
  obtain ⟨hhooks, rfl⟩ := Tx.read_eq_ok.mp hread
  cases hhooks
  have hothers : ∀ payload hooks, Tx.Keeps
      (fun x y : Database => y = { x with webhookDeliveries := y.webhookDeliveries })
      (enqueueEach event payload hooks) := by
    intro payload hooks
    refine (everyTxRules ?_ ?_).enqueueEach ?_ _ _ _
    · exact fun _ => rfl
    · intro x y z h h'
      rw [h', h]
    · intro id event payload now x d y h
      obtain ⟨-, t, -, rfl⟩ := DeliveryRepo.enqueue_eq_ok h
      rfl
  refine wp_mono (wp_and (wp_enqueueEach _ _ _ _) (hothers _ _ _)) ?_ fun _ _ => trivial
  rintro _ s' ⟨⟨new, hrows, hnew, hids⟩, hs'⟩
  obtain ⟨hlog, hentry⟩ := haudit
  have hrest : s'.db = { s.db with
      webhookDeliveries := s'.db.webhookDeliveries, auditLog := s₁.db.auditLog } := by
    rw [hs', hlog]
  have hkept : s'.db.auditLog = s₁.db.auditLog := by rw [hrest]
  refine ⟨{ s.db with webhookDeliveries := s'.db.webhookDeliveries }, ⟨rfl, new, ?_, hnew, ?_⟩,
    ?_, ?_⟩
  · rw [hrows, hlog]
  · rw [hids, hlog]
    rfl
  · rw [hkept]
    exact hrest
  · rw [hkept]
    exact hentry

/-- The transaction that writes a version. -/
theorem wp_writeVersion_audited (p : Project) (e : Environment) (key ct event : Str)
    (target : Secret → Str) (s : Session) :
    wp (writeVersion (some tok) p e key ct event target) s (fun _ s' => ∃ d,
      WroteVersion tok p e key ct event s.db d ∧ Audited tok.id s.db d s'.db) fun _ => True := by
  rw [writeVersion, wp_bind]
  apply Tx.wp_stmt
  intro now up d₁ hup
  rw [wp_bind]
  apply Tx.wp_stmt
  intro now' v d₂ hv
  have hlog : d₂.auditLog = s.db.auditLog := by
    obtain ⟨-, t, -, rfl⟩ := VersionRepo.create_eq_ok hv
    rcases SecretRepo.upsert_eq_ok hup with ⟨r, -, -, -, rfl⟩ | ⟨-, -, t, -, rfl⟩ <;> rfl
  rw [wp_bind]
  refine wp_mono (wp_announce_enqueuedFor p e key event _ _ _) ?_ fun _ _ => trivial
  rintro _ s' ⟨d, henqueued, haudit⟩
  obtain ⟨hothers, hentry⟩ := haudit
  rw [hlog] at hentry
  exact ⟨d, ⟨now, now', up, v, d₁, d₂, hup, hv, henqueued⟩, hothers, hentry⟩

/-- `handlePutSecret` -/
theorem accounted_putSecret (p e k : Str) : Accounted srv rq (.putSecret p e k) (some tok) db
    (srv.handlePutSecret (some tok) rq p e k) := by
  refine Prog.Leaves.bind (leaves_resolveEnv (.inl rfl) fun project env hloc => ?_)
  refine Prog.Leaves.bind (leaves_check (.inl rfl) fun _ _ => ?_)
  refine Prog.Leaves.bind (leaves_need (.inl rfl) fun value _ => ?_)
  refine Prog.Leaves.bind (leaves_need (.inl rfl) fun master _ => ?_)
  refine Prog.Leaves.bind (leaves_need (.inl rfl) fun ct _ => ?_)
  refine leaves_work fun o => ?_
  refine wp_mono (wp_writeVersion_audited _ _ _ _ _ _ _) ?_ fun _ _ => trivial
  rintro up s ⟨d, hwrote, haudit⟩
  exact .inr ⟨tok.id, d, .putSecret hloc hwrote, haudit⟩

/-- `handleRollbackSecret` -/
theorem accounted_rollbackSecret (p e k : Str) :
    Accounted srv rq (.rollbackSecret p e k) (some tok) db
      (srv.handleRollbackSecret (some tok) rq p e k) := by
  refine Prog.Leaves.bind (leaves_resolveEnv (.inl rfl) fun project env hloc => ?_)
  refine Prog.Leaves.bind (leaves_check (.inl rfl) fun _ _ => ?_)
  refine Prog.Leaves.bind (leaves_need (.inl rfl) fun toVersion hto => ?_)
  split
  · exact .inl rfl
  · refine Prog.Leaves.bind (leaves_lookup (.inl rfl) fun _ current hcurrent => ?_)
    split
    · exact .inl rfl
    · refine Prog.Leaves.bind (leaves_lookup (.inl rfl) fun _ target htarget => ?_)
      refine Prog.Leaves.bind (leaves_need (.inl rfl) fun master _ => ?_)
      refine Prog.Leaves.bind (leaves_need (.inl rfl) fun plain _ => ?_)
      refine leaves_work fun o => ?_
      refine wp_mono (wp_writeVersion_audited _ _ _ _ _ _ _) ?_ fun _ _ => trivial
      rintro up s ⟨d, hwrote, haudit⟩
      exact .inr ⟨tok.id, d, .rollbackSecret hloc hto hcurrent htarget hwrote, haudit⟩

/-- `handleDeleteSecret` -/
theorem accounted_deleteSecret (p e k : Str) :
    Accounted srv rq (.deleteSecret p e k) (some tok) db
      (srv.handleDeleteSecret (some tok) p e k) := by
  refine Prog.Leaves.bind (leaves_resolveEnv (.inl rfl) fun project env hloc => ?_)
  refine Prog.Leaves.bind (leaves_check (.inl rfl) fun _ _ => ?_)
  refine leaves_work fun o => ?_
  rw [dropSecret, wp_bind]
  apply Tx.wp_stmt
  intro now _ d₁ hdelete
  have hlog : d₁.auditLog = db.auditLog := by
    obtain ⟨-, rfl⟩ := SecretRepo.delete_eq_ok hdelete
    rfl
  refine wp_mono (wp_announce_enqueuedFor _ _ _ _ _ _ _) ?_ fun _ _ => trivial
  rintro _ s ⟨d, henqueued, hothers, hentry⟩
  rw [hlog] at hentry
  exact .inr ⟨tok.id, d, .deleteSecret hloc hdelete henqueued, hothers, hentry⟩

/-! ## The request -/

/-- A path that goes on like none of the public ones. -/
theorem not_public_of_prefix {path start : Str} (hstart : start <+: path)
    (hapi : ascii "/api/" <+: start) (hbootstrap : ¬ start <+: ascii "/api/v1/bootstrap")
    (hsession : ¬ start <+: ascii "/api/v1/dashboard/session") : isPublicPath path = false := by
  simp only [isPublicPath, Bool.or_eq_false_iff, Bool.not_eq_false', decide_eq_false_iff_not,
    List.isPrefixOf_iff_prefix]
  refine ⟨⟨hapi.trans hstart, ?_⟩, ?_⟩
  · rintro rfl
    exact hbootstrap hstart
  · rintro rfl
    exact hsession hstart

/-- The routes that run behind the middleware start in one of four ways. -/
theorem segments_of_apiRoute {method : Method} {segments : List Str} {r : Route}
    (h : apiRoute method segments = r) (hbootstrap : r ≠ .bootstrap)
    (hcreate : r ≠ .createSession) (hrevoke : r ≠ .revokeSession) (hother : r ≠ .other) :
    (∃ rest, segments = ascii "projects" :: rest) ∨ (∃ rest, segments = ascii "tokens" :: rest) ∨
      (∃ rest, segments = ascii "webhooks" :: rest) ∨
      ∃ rest, segments = ascii "dashboard" :: ascii "sessions" :: rest := by
  unfold apiRoute at h
  split at h
  case h_10 => exact absurd h.symm hother
  all_goals split_ifs at h
  all_goals simp_all

/-- Behind a public path there are three handlers that write. -/
theorem public_route (hpublic : isPublicPath rq.path = true) : rq.route = .bootstrap ∨
    rq.route = .createSession ∨ rq.route = .revokeSession ∨ rq.route = .other := by
  by_contra hroute
  push Not at hroute
  obtain ⟨hbootstrap, hcreate, hrevoke, hother⟩ := hroute
  obtain ⟨rest, hrest, hapi⟩ := segments_of_route rfl hother
  have hfalse : isPublicPath rq.path = false := by
    rw [Request.path, hrest]
    rcases segments_of_apiRoute hapi hbootstrap hcreate hrevoke hother with
      ⟨rest, rfl⟩ | ⟨rest, rfl⟩ | ⟨rest, rfl⟩ | ⟨rest, rfl⟩
    · have hstart : ascii "/api/v1/projects" <+: _ := ⟨rest.flatMap fun s => byte '/' :: s, rfl⟩
      exact not_public_of_prefix hstart (by decide) (by decide) (by decide)
    · have hstart : ascii "/api/v1/tokens" <+: _ := ⟨rest.flatMap fun s => byte '/' :: s, rfl⟩
      exact not_public_of_prefix hstart (by decide) (by decide) (by decide)
    · have hstart : ascii "/api/v1/webhooks" <+: _ := ⟨rest.flatMap fun s => byte '/' :: s, rfl⟩
      exact not_public_of_prefix hstart (by decide) (by decide) (by decide)
    · have hstart : ascii "/api/v1/dashboard/sessions" <+: _ :=
        ⟨rest.flatMap fun s => byte '/' :: s, rfl⟩
      exact not_public_of_prefix hstart (by decide) (by decide) (by decide)
  rw [hfalse] at hpublic
  cases hpublic

/-- Authentication stamps a token, and changes at most its `last_used_at`. -/
theorem leaves_authMiddleware : (srv.authMiddleware rq).Leaves db (Stamped srv rq db) (· = db) := by
  rw [authMiddleware]
  split
  · rename_i hpublic
    exact .anyone hpublic
  · split
    · refine Prog.Leaves.bind (Prog.Leaves.bind (leaves_check rfl fun plain hparse => ?_))
      refine Prog.Leaves.bind (leaves_verify (fun tok htok => ?_) fun e => rfl)
      refine Prog.Leaves.bind (leaves_check rfl fun tok' hsame => ?_)
      cases hsame
      refine Prog.Leaves.bind (leaves_autocommit (fun now _ d htouch => ?_) fun e => ?_)
      · exact .bearer hparse htok (.inr ⟨now, htouch⟩)
      · exact .bearer hparse htok (.inl rfl)
    · split
      · refine Prog.Leaves.bind (Prog.Leaves.bind (leaves_lookup rfl fun now sess hsess => ?_))
        split
        · exact rfl
        · refine Prog.Leaves.bind (leaves_lookup rfl fun _ tok htok => ?_)
          split
          · exact .session hsess htok
          · exact rfl
      · exact rfl

/-- Authentication writes no audit entry. -/
theorem Stamped.auditLog_eq {db₀ : Database} (h : Stamped srv rq db actor db₀) :
    db₀.auditLog = db.auditLog := by
  cases h with
  | anyone => rfl
  | bearer _ _ hused =>
    rcases hused with rfl | ⟨now, htouch⟩
    · rfl
    · rw [TokenRepo.touchLastUsed_eq_ok htouch]
  | session => rfl

/-- The handler of a request accounts for its change. -/
theorem accounted_handle {db₀ : Database} (h : Stamped srv rq db actor db₀) :
    Accounted srv rq rq.route actor db₀ (srv.handle actor rq rq.route) := by
  cases actor with
  | none =>
    have hpublic : isPublicPath rq.path = true := by
      cases h
      assumption
    rcases public_route hpublic with hroute | hroute | hroute | hroute
    · rw [hroute]
      exact accounted_bootstrap
    · rw [hroute]
      exact accounted_createSession
    · rw [hroute]
      exact accounted_revokeSession
    · rw [hroute]
      exact .inl rfl
  | some tok =>
    cases rq.route with
    | bootstrap => exact accounted_bootstrap
    | createSession => exact accounted_createSession
    | revokeSession => exact accounted_revokeSession
    | revokeSessionByID id => exact accounted_revokeSessionByID id
    | createProject => exact accounted_createProject
    | createToken => exact accounted_createToken
    | revokeToken id => exact accounted_revokeToken id
    | createWebhook => exact accounted_createWebhook
    | setWebhookEnabled id => exact accounted_setWebhookEnabled id
    | deleteWebhook id => exact accounted_deleteWebhook id
    | createEnv p => exact accounted_createEnv p
    | putSecret p e k => exact accounted_putSecret p e k
    | deleteSecret p e k => exact accounted_deleteSecret p e k
    | rollbackSecret p e k => exact accounted_rollbackSecret p e k
    | other => exact .inl rfl

/-- Whatever fails while a request runs, it leaves the database as authentication has left it, or
it has committed the change of its handler and one audit entry of the acting token. In every run
of the server the audit entries stay as they are. -/
theorem audit_atomic (srv : Server) :
    (∀ rq db os, (srv.serve rq).settle os db = db ∨ ∃ actor db₀, Stamped srv rq db actor db₀ ∧
      ((srv.serve rq).settle os db = db₀ ∨ ∃ acting d, Effect srv rq db₀ rq.route actor acting d ∧
        Audited acting db d ((srv.serve rq).settle os db))) ∧
    ∀ start s s', (srv.system start).Leads (fun _ _ => True) s s' →
      s.state.auditLog.rows <+: s'.state.auditLog.rows := by
  refine ⟨fun rq db os => ?_, fun start s s' hleads => ?_⟩
  · have hleaves : (srv.serve rq).Leaves db
        (fun _ db' => db' = db ∨ ∃ actor db₀, Stamped srv rq db actor db₀ ∧
          Outcome srv rq rq.route actor db₀ db')
        (fun db' => db' = db ∨ ∃ actor db₀, Stamped srv rq db actor db₀ ∧
          Outcome srv rq rq.route actor db₀ db') := by
      refine Prog.Leaves.bind (leaves_authMiddleware.mono (fun actor db₀ hstamped => ?_)
        fun _ h => .inl h)
      exact (accounted_handle hstamped).mono (fun _ _ h => .inr ⟨actor, db₀, hstamped, h⟩)
        fun _ h => .inr ⟨actor, db₀, hstamped, h⟩
    rcases hleaves.settle os with h | ⟨actor, db₀, hstamped, h | ⟨acting, d, heffect, haudit⟩⟩
    · exact .inl h
    · exact .inr ⟨actor, db₀, hstamped, .inl h⟩
    · refine .inr ⟨actor, db₀, hstamped, .inr ⟨acting, d, heffect, haudit.others, ?_⟩⟩
      rw [← hstamped.auditLog_eq]
      exact haudit.entry
  · exact (interleave.leads_state (Later.serve srv) Later.refl Later.trans hleads).auditLog

/-- The creation of the project `p` by the bearer `t`. -/
def createProjectRequest : Request :=
  bearerRequest .post ["api", "v1", "projects"] { noFields with name := some (ascii "p") }

/-- A database with that token. -/
def oneToken : Database :=
  { Database.empty with
    serviceTokens := ⟨[⟨1, ascii "ci", ascii "t", true, 0, none, none⟩], by decide⟩ }

/-- It is committed with its audit entry. -/
theorem audit_atomic_createProject : ∃ actor db₀ acting d,
    Effect plainServer createProjectRequest db₀ .createProject actor acting d ∧
      Audited acting oneToken d
        ((plainServer.serve createProjectRequest).settle (fun _ => .calm 10) oneToken) := by
  have hentry : ((plainServer.serve createProjectRequest).settle (fun _ => .calm 10)
      oneToken).auditLog ≠ oneToken.auditLog := by
    decide +kernel
  rcases (audit_atomic plainServer).1 createProjectRequest oneToken fun _ => .calm 10 with
    h | ⟨actor, db₀, hstamped, h | ⟨acting, d, heffect, haudit⟩⟩
  · rw [h] at hentry
    exact absurd rfl hentry
  · rw [h, hstamped.auditLog_eq] at hentry
    exact absurd rfl hentry
  · exact ⟨actor, db₀, acting, d, heffect, haudit⟩

end Comax.Server
