import Comax.Server.Csrf

/-!
# Sessions that have ended

Browser sessions are signed out, revoked by id or with their token, expire, and are
removed by a sweeper that runs beside the requests. What has ended stays so while any
number of requests and sweeps take turns, and the sweeper removes nothing that a request
could still use.
-/

namespace Comax.Store.SessionRepo

open Comax.Core

/-- The live sessions of a token at a time. -/
def liveOf (tokenID now : Int) (s : DashboardSession) : Bool :=
  s.tokenID = tokenID && s.revokedAt = none && decide (now < s.expiresAt)

/-- `SessionRepo.ListByTokenID`: the live sessions of a token, newest first. -/
def listByTokenID (tokenID now : Int) (db : Database) : List DashboardSession :=
  (db.dashboardSessions.rows.filter (liveOf tokenID now)).insertionSort
    fun a b => b.createdAt ≤ a.createdAt

/-- The `WHERE` clause of `Prune`. -/
def prunable (cutoff : Int) (s : DashboardSession) : Bool :=
  s.revokedAt.any (fun t => decide (t < cutoff)) || decide (s.expiresAt < cutoff)

/-- `SessionRepo.Prune`: the number of rows it removed. -/
def prune (cutoff : Int) (db : Database) : Except StoreError (ℕ × Database) :=
  .ok ((db.dashboardSessions.rows.filter (prunable cutoff)).length, { db with
    dashboardSessions := db.dashboardSessions.delete (prunable cutoff) })

end Comax.Store.SessionRepo

namespace Comax.Server

open Comax.Core Comax.Store

/-- What runs in a server process: requests, and the ticks of the sweeper. -/
inductive Activity where
  | serve (rq : Request)
  | sweep

/-- One tick of `runPruneSweeper`; an error is logged. -/
def sweep : Handler Unit := do
  let _ ← autocommit SessionRepo.prune
  return ()

/-- The program of an activity. -/
def activity (srv : Server) : Activity → Handler Unit
  | .serve rq => do
    let _ ← srv.serve rq
    return ()
  | .sweep => sweep

/-- The running server with its sweeper. -/
def swept (srv : Server) (start : Database → Prop) :
    Machine (Shared Activity Moment Database) (Turn Activity Moment) :=
  interleave srv.activity start

/-! ## What has ended -/

/-- A session with this hash exists, in whatever state. -/
def Present (hash : Str) (db : Database) : Prop :=
  ∃ sess ∈ db.dashboardSessions.rows, sess.sessionHash = hash

/-- A token with this id is revoked. -/
def Revoked (tokenID : Int) (db : Database) : Prop :=
  ∃ tok ∈ db.serviceTokens.rows, tok.id = tokenID ∧ tok.revokedAt ≠ none

/-- No session with this hash is live at a time or later: it is revoked, expired, or the token that
it was opened with is revoked. -/
def Ended (hash : Str) (time : Int) (db : Database) : Prop :=
  ∀ sess ∈ db.dashboardSessions.rows, sess.sessionHash = hash →
    sess.revokedAt ≠ none ∨ sess.expiresAt ≤ time ∨ Revoked sess.tokenID db

/-- Every session with this hash has a property. -/
def EverySession (hash : Str) (P : DashboardSession → Prop) (db : Database) : Prop :=
  ∀ sess ∈ db.dashboardSessions.rows, sess.sessionHash = hash → P sess

/-- The session itself is over at a time. -/
def Over (time : Int) (sess : DashboardSession) : Prop :=
  sess.revokedAt ≠ none ∨ sess.expiresAt ≤ time

/-- Every session with this hash is revoked. -/
def SignedOut (hash : Str) : Database → Prop := EverySession hash fun sess => sess.revokedAt ≠ none

/-- The sessions with this hash were opened with one token, and it is revoked. -/
def OfRevoked (hash : Str) (tokenID : Int) (db : Database) : Prop :=
  EverySession hash (fun sess => sess.tokenID = tokenID) db ∧ Revoked tokenID db

/-- The property stays when a session is revoked. -/
def Lasting (P : DashboardSession → Prop) : Prop :=
  ∀ sess now, P sess → P { sess with revokedAt := some now }

/-- The property stays, unless a session with the hash is created where there was none, and revoked
tokens stay revoked. -/
structure Stays (hash : Str) (P : DashboardSession → Prop) (db db' : Database) : Prop where
  every : EverySession hash P db →
    EverySession hash P db' ∨ ¬ Present hash db ∧ Present hash db'
  revoked : ∀ tokenID, Revoked tokenID db → Revoked tokenID db'

/-- What the statements of the requests do to the sessions with a hash. -/
structure Ends (hash : Str) (P : DashboardSession → Prop) (db db' : Database) : Prop
    extends Stays hash P db db' where
  present : Present hash db → Present hash db'

theorem lasting_over (time : Int) : Lasting (Over time) :=
  fun _ now _ => .inl (Option.some_ne_none now)

/-- A session keeps its token. -/
theorem lasting_token (tokenID : Int) : Lasting fun sess => sess.tokenID = tokenID :=
  fun _ _ h => h

/-- A revoked token stays revoked. -/
theorem Later.stays_revoked {db db' : Database} (h : Later db db') {tokenID : Int}
    (hrev : Revoked tokenID db) : Revoked tokenID db' := by
  obtain ⟨tok, htok, hid, hne⟩ := hrev
  obtain ⟨tok', htok', hsame⟩ := h.serviceTokens tok htok
  exact ⟨tok', htok', hsame.id.trans hid, by rwa [hsame.revokedAt hne]⟩

namespace Ends

variable {hash : Str} {P : DashboardSession → Prop} {db db' : Database}

/-- The sessions are as before. -/
theorem of_eq (h : db'.dashboardSessions = db.dashboardSessions)
    (hrev : ∀ tokenID, Revoked tokenID db → Revoked tokenID db') : Ends hash P db db' := by
  refine ⟨⟨fun he => .inl ?_, hrev⟩, fun hp => ?_⟩
  · rw [EverySession, h]
    exact he
  · rw [Present, h]
    exact hp

theorem refl (db : Database) : Ends hash P db db := of_eq rfl fun _ h => h

theorem trans (x y z : Database) (h : Ends hash P x y) (h' : Ends hash P y z) :
    Ends hash P x z := by
  refine ⟨⟨fun he => ?_, fun id hr => h'.revoked id (h.revoked id hr)⟩,
    fun hp => h'.present (h.present hp)⟩
  rcases h.every he with he | ⟨hnone, hp⟩
  · rcases h'.every he with he | ⟨hnone, hp⟩
    · exact .inl he
    · exact .inr ⟨fun hx => hnone (h.present hx), hp⟩
  · exact .inr ⟨hnone, h'.present hp⟩

/-- An update that revokes. -/
theorem of_revoke (hP : Lasting P) {p : DashboardSession → Bool} {now : Int} :
    Ends hash P db { db with
      dashboardSessions := db.dashboardSessions.update p
        (fun s => { s with revokedAt := some now }) fun _ => ⟨rfl, rfl⟩ } := by
  refine ⟨⟨fun he => .inl ?_, fun _ h => h⟩, ?_⟩
  · intro sess hsess hhash
    obtain ⟨r, hr, rfl⟩ := List.mem_map.mp hsess
    by_cases hp : p r
    · rw [if_pos hp] at hhash ⊢
      exact hP r now (he r hr hhash)
    · rw [if_neg hp] at hhash ⊢
      exact he r hr hhash
  · rintro ⟨sess, hsess, hhash⟩
    refine ⟨_, List.mem_map_of_mem hsess, ?_⟩
    split
    · exact hhash
    · exact hhash

/-- A session is created. -/
theorem of_insert {sess : DashboardSession} {t : Table DashboardSession}
    (h : db.dashboardSessions.insert sess = some t) :
    Ends hash P db { db with dashboardSessions := t } := by
  obtain ⟨hapart, hrows⟩ := Table.insert_eq_some.mp h
  refine ⟨⟨fun he => ?_, fun _ h => h⟩, ?_⟩
  · by_cases hhash : sess.sessionHash = hash
    · -- The UNIQUE constraint lets no second session in.
      refine .inr ⟨?_, sess, ?_, hhash⟩
      · rintro ⟨r, hr, hrhash⟩
        have hclash := (hapart r hr).2
        simp [Row.clash, Row.key, hhash, hrhash] at hclash
      · rw [hrows]
        exact List.mem_append_right _ (List.mem_singleton_self _)
    · refine .inl fun r hr hrhash => ?_
      rw [hrows] at hr
      rcases List.mem_append.mp hr with hr | hr
      · exact he r hr hrhash
      · rw [List.mem_singleton.mp hr] at hrhash
        exact absurd hrhash hhash
  · rintro ⟨r, hr, hhash⟩
    refine ⟨r, ?_, hhash⟩
    rw [hrows]
    exact List.mem_append_left _ hr

/-- Every statement of the requests. -/
theorem statements (hP : Lasting P) : Statements (Ends hash P) where
  refl := refl
  trans := trans
  audit actor action target metadata now db e db' h := by
    obtain ⟨-, t, -, rfl⟩ := AuditRepo.append_eq_ok h
    exact of_eq rfl fun _ h => h
  projectCreate name now db p db' h := by
    obtain ⟨-, t, -, rfl⟩ := ProjectRepo.create_eq_ok h
    exact of_eq rfl fun _ h => h
  envCreate p name inheritsFrom now db e db' h := by
    obtain ⟨-, t, -, rfl⟩ := EnvRepo.create_eq_ok h
    exact of_eq rfl fun _ h => h
  tokenBootstrap name hash now db r db' h := by
    have hlater := Later.statements.tokenBootstrap _ _ _ _ _ _ h
    rcases TokenRepo.bootstrapIfEmpty_eq_ok h with ⟨-, rfl⟩ | ⟨-, t, -, -, rfl⟩
    · exact refl _
    · exact of_eq rfl fun _ => hlater.stays_revoked
  tokenCreate name hash isAdmin now db t db' h := by
    have hlater := Later.statements.tokenCreate _ _ _ _ _ _ _ h
    obtain ⟨-, ts, -, rfl⟩ := TokenRepo.create_eq_ok h
    exact of_eq rfl fun _ => hlater.stays_revoked
  tokenRevoke id now db u db' h := by
    have hlater := Later.statements.tokenRevoke _ _ _ _ _ h
    rw [TokenRepo.revoke_eq_ok h] at hlater ⊢
    exact of_eq rfl fun _ => hlater.stays_revoked
  tokenTouch id now db u db' h := by
    have hlater := Later.statements.tokenTouch _ _ _ _ _ h
    rw [TokenRepo.touchLastUsed_eq_ok h] at hlater ⊢
    exact of_eq rfl fun _ => hlater.stays_revoked
  sessionCreate input now db s db' h := by
    obtain ⟨-, t, hins, rfl⟩ := SessionRepo.create_eq_ok h
    exact of_insert hins
  sessionRevoke id now db u db' h := by
    rw [SessionRepo.revoke_eq_ok h]
    exact of_revoke hP
  sessionRevokeByID id tokenID now db n db' h := by
    cases h
    exact of_revoke hP
  webhookCreate p e url events ct _ now db w db' h := by
    obtain ⟨-, t, -, rfl⟩ := WebhookRepo.create_eq_ok h
    exact of_eq rfl fun _ h => h
  webhookEnable id enabled now db u db' h := by
    rw [WebhookRepo.setEnabled_eq_ok h]
    exact of_eq rfl fun _ h => h
  webhookDelete id now db u db' h := by
    rw [WebhookRepo.delete_eq_ok h]
    exact of_eq rfl fun _ h => h
  secretUpsert e key ct now db up db' h := by
    rcases SecretRepo.upsert_eq_ok h with ⟨s, -, -, -, rfl⟩ | ⟨-, -, t, -, rfl⟩
    · exact of_eq rfl fun _ h => h
    · exact of_eq rfl fun _ h => h
  secretDelete e key now db u db' h := by
    rw [(SecretRepo.delete_eq_ok h).2]
    exact of_eq rfl fun _ h => h
  versionCreate id version ct actor now db v db' h := by
    obtain ⟨-, t, -, rfl⟩ := VersionRepo.create_eq_ok h
    exact of_eq rfl fun _ h => h
  deliveryEnqueue id event payload now db d db' h := by
    obtain ⟨-, t, -, rfl⟩ := DeliveryRepo.enqueue_eq_ok h
    exact of_eq rfl fun _ h => h

end Ends

/-- A tick of the sweeper only removes sessions. -/
theorem every_sweep {hash : Str} {P : DashboardSession → Prop} : sweep.Every (Stays hash P) := by
  refine (every_autocommit (fun _ => (Ends.refl _).toStays) ?_).bind fun _ => trivial
  intro now db n db' h
  cases h
  exact ⟨fun he => .inl fun sess hsess => he sess (List.mem_of_mem_filter hsess), fun _ h => h⟩

variable {srv : Server} {start : Database → Prop} {hash : Str} {P : DashboardSession → Prop}

/-- Every action of the running server. -/
theorem every_activity (hP : Lasting P) (a : Activity) :
    (srv.activity a).Every (Stays hash P) := by
  cases a with
  | serve rq =>
    exact (((Ends.statements hP).serve rq).mono fun _ _ h => h.toStays).bind fun _ => trivial
  | sweep => exact every_sweep

/-- The turn creates no session with this hash: no session token is drawn again. -/
def Unrepeated (srv : Server) (start : Database → Prop) (hash : Str)
    (s : Shared Activity Moment Database) (turn : Turn Activity Moment) : Prop :=
  ∀ s', (srv.swept start).next turn s = some s' → Present hash s'.state → Present hash s.state

variable {s s' s₁ : Shared Activity Moment Database} {time : Int}

/-- What one turn does to the sessions. -/
theorem stays_next (hash : Str) (hP : Lasting P) {turn : Turn Activity Moment}
    (hn : (srv.swept start).next turn s = some s') : Stays hash P s.state s'.state :=
  interleave.next_state (every_activity hP) (fun _ => (Ends.refl _).toStays) hn

/-- One turn that creates no session with the hash keeps a lasting property of those there are. -/
theorem EverySession.next (hP : Lasting P) {turn : Turn Activity Moment}
    (hok : srv.Unrepeated start hash s turn) (hn : (srv.swept start).next turn s = some s')
    (h : EverySession hash P s.state) : EverySession hash P s'.state := by
  rcases (stays_next hash hP hn).every h with h | ⟨hnone, hp⟩
  · exact h
  · exact absurd (hok s' hn hp) hnone

/-- The middleware has let a request through that only its session cookie authenticates; the
session was looked up at `clock`. -/
def EnteredAt (srv : Server) (p : Process Activity Moment Database) (clock : Int) : Prop :=
  ∃ rq x xs actor, p.name = .serve rq ∧ isPublicPath rq.path = false ∧ rq.authorization = [] ∧
    x :: xs <+: p.past ∧ (srv.authMiddleware rq).Ends (x :: xs) actor ∧ x.1.now 0 = clock

/-- The cookie of a request names the session with this hash. -/
def Carries (srv : Server) (hash : Str) : Activity → Prop
  | .serve rq => srv.hash rq.cookie = hash
  | .sweep => False

/-- One turn that creates no session with the hash leaves them without a live token. -/
theorem OfRevoked.next {tokenID : Int} {turn : Turn Activity Moment}
    (hok : srv.Unrepeated start hash s turn) (hn : (srv.swept start).next turn s = some s')
    (h : OfRevoked hash tokenID s.state) : OfRevoked hash tokenID s'.state :=
  ⟨h.1.next (lasting_token tokenID) hok hn,
    (stays_next hash (lasting_token tokenID) hn).revoked tokenID h.2⟩

/-- What a request that enters by a session has met. -/
theorem EnteredAt.session {p : Process Activity Moment Database} {clock : Int}
    (h : srv.EnteredAt p clock) (hcarries : srv.Carries hash p.name) :
    ∃ x ∈ p.past, ∃ y ∈ p.past, ∃ sess ∈ x.2.dashboardSessions.rows,
      ∃ tok ∈ y.2.serviceTokens.rows, sess.sessionHash = hash ∧ sess.revokedAt = none ∧
        clock < sess.expiresAt ∧ sess.tokenID = tok.id ∧ tok.revokedAt = none := by
  obtain ⟨rq, x, xs, actor, hname, hpublic, hauth, hmet, hends, rfl⟩ := h
  rw [hname] at hcarries
  rcases ends_authMiddleware hends with ⟨hpub, -⟩ | ⟨tok, -, hadm⟩
  · rw [hpublic] at hpub
    cases hpub
  · cases hadm with
    | bearer hb => exact absurd hauth hb.header
    | session hs =>
      obtain ⟨sess, hmem, hhash, hlive, hexpires, htoken, -⟩ := hs.session
      exact ⟨x, hmet.subset List.mem_cons_self, _,
        hmet.subset (List.mem_cons_of_mem _ List.mem_cons_self), sess, hmem, tok, hs.live.1,
        hhash.trans hcarries, hlive, hexpires, htoken, hs.live.2⟩

/-- A request enters by a session only before the session is over. -/
theorem EnteredAt.lt {p : Process Activity Moment Database} {clock : Int}
    (h : srv.EnteredAt p clock) (hcarries : srv.Carries hash p.name)
    (hover : ∀ x ∈ p.past, EverySession hash (Over time) x.2) : clock < time := by
  obtain ⟨x, hx, -, -, sess, hsess, -, -, hhash, hlive, hexpires, -⟩ := h.session hcarries
  rcases hover x hx sess hsess hhash with hrev | hexpired
  · exact absurd hlive hrev
  · exact hexpires.trans_le hexpired

/-- No request enters by a session whose token is revoked. -/
theorem EnteredAt.not_revoked {p : Process Activity Moment Database} {clock tokenID : Int}
    (h : srv.EnteredAt p clock) (hcarries : srv.Carries hash p.name)
    (hpast : ∀ x ∈ p.past, OfRevoked hash tokenID x.2) : False := by
  obtain ⟨x, hx, y, hy, sess, hsess, tok, htok, hhash, -, -, htoken, hlive⟩ := h.session hcarries
  obtain ⟨tok', htok', hid, hrev⟩ := (hpast y hy).2
  have hsame : tok' = tok := y.2.serviceTokens.eq_of_id_eq htok' htok
    (hid.trans (((hpast x hx).1 sess hsess hhash).symm.trans htoken))
  exact hrev (hsame ▸ hlive)

/-- A session has a hash of its own. -/
theorem session_eq_of_hash (db : Database) {a b : DashboardSession}
    (ha : a ∈ db.dashboardSessions.rows) (hb : b ∈ db.dashboardSessions.rows)
    (h : a.sessionHash = b.sessionHash) : a = b :=
  db.dashboardSessions.eq_of_clash ha hb (by simp [Row.clash, Row.key, h])
    (by simp [Row.clash, Row.key, h])

/-- A revocation ends its session for good. -/
theorem signedOut_of_revoke {sess : DashboardSession} {now : Int} {db db' : Database} {u : Unit}
    (h : SessionRepo.revoke sess.id now db = .ok (u, db'))
    (hsess : sess ∈ db.dashboardSessions.rows) : SignedOut sess.sessionHash db' := by
  rw [SessionRepo.revoke_eq_ok h]
  intro s hs hhash
  obtain ⟨r, hr, rfl⟩ := List.mem_map.mp hs
  have hrhash : r.sessionHash = sess.sessionHash := by
    split at hhash <;> exact hhash
  have hsame : r = sess := session_eq_of_hash db hr hsess hrhash
  split
  · exact Option.some_ne_none now
  · rename_i hkeep
    simpa [hsame] using hkeep

/-- A sign-out that commits has ended the session of its cookie. -/
theorem wp_revokeSession {rq : Request} (o : Moment) (db : Database) :
    wp (srv.revokeSession rq) ⟨o, 1, db⟩
      (fun _ s => SignedOut (srv.hash rq.cookie) s.db) fun _ => True := by
  have hrules : TxRules (fun p => p.Every fun x y => y.dashboardSessions = x.dashboardSessions)
      (fun m => Tx.Keeps (fun x y => y.dashboardSessions = x.dashboardSessions) m)
      fun f => Tx.Respects (fun x y => y.dashboardSessions = x.dashboardSessions) f :=
    everyTxRules (fun _ => rfl) fun _ _ _ h h' => h'.trans h
  have haudit : ∀ (db₁ : Database) (ops : ℕ) (tokenID : Int) (action target : Str),
      (SignedOut (srv.hash rq.cookie) db₁) →
      wp (appendAuditForToken tokenID action target) ⟨o, ops, db₁⟩
        (fun _ s => SignedOut (srv.hash rq.cookie) s.db) fun _ => True := by
    intro db₁ ops tokenID action target hended
    refine wp_mono (hrules.appendAuditForToken ?_ tokenID action target ⟨o, ops, db₁⟩) ?_
      fun _ h => h
    · intro actor action target metadata now x e y happend
      obtain ⟨-, t, -, rfl⟩ := AuditRepo.append_eq_ok happend
      rfl
    · intro _ s hsame
      rw [SignedOut, EverySession, hsame]
      exact hended
  unfold revokeSession
  rw [wp_bind]
  apply Tx.wp_stmt
  intro now sess db₁ hread
  obtain ⟨hfound, rfl⟩ := Tx.read_eq_ok.mp hread
  obtain ⟨hmem, hrow⟩ := Table.of_find?_eq_some (found_eq_ok.mp hfound)
  simp only [Bool.and_eq_true, decide_eq_true_eq] at hrow
  rw [wp_bind, Tx.wp_attempt_iff]
  split
  · trivial
  · have hrevoke := SessionRepo.revoke_ok hmem hrow.1.2 (o.now 2)
    simp only [hrevoke]
    refine haudit _ _ _ _ _ ?_
    rw [← hrow.1.1]
    exact signedOut_of_revoke hrevoke hmem

/-- A sign-out that is served has ended the session of its cookie. -/
theorem meets_handleRevokeDashboardSession {rq : Request} (hcookie : rq.cookie ≠ [])
    (db : Database) :
    (srv.handleRevokeDashboardSession rq).Meets (fun _ _ => True) (fun _ _ => True) db
      fun _ db' => SignedOut (srv.hash rq.cookie) db' := by
  have hhandler : srv.handleRevokeDashboardSession rq = (do
      transaction internalError (internal "commit failed") (srv.revokeSession rq)
      return clearSessionCookie) := if_neg hcookie
  rw [hhandler]
  apply Prog.Meets.bind
  apply Prog.meets_act
  intro o db₁ _
  refine ⟨trivial, fun u hu => ?_⟩
  rcases committed_cases internalError (internal "commit failed") (srv.revokeSession rq) o db₁
    with ⟨r, hc⟩ | ⟨a, s, hbody, hc⟩
  · rw [hc] at hu
    cases hu
  · rw [hc]
    exact wp_ok (Q := fun _ s => SignedOut (srv.hash rq.cookie) s.db)
      (wp_revokeSession o db₁) hbody

/-- The sign-out request that an activity serves names a session. -/
structure SigningOut (rq : Request) : Prop where
  route : rq.route = .revokeSession
  cookie : rq.cookie ≠ []

/-- What an activity has done when it has returned. -/
theorem meets_activity (a : Activity) (db : Database) :
    (srv.activity a).Meets (fun _ _ => True) (fun _ _ => True) db fun _ db' =>
      ∀ rq, a = .serve rq → SigningOut rq → SignedOut (srv.hash rq.cookie) db' := by
  cases a with
  | sweep =>
    refine (Prog.every_true _).meets.mono fun _ _ _ rq h => ?_
    cases h
  | serve rq =>
    by_cases h : SigningOut rq
    · apply Prog.Meets.bind
      apply Prog.Meets.bind
      refine (Prog.every_true _).meets.mono fun actor db₁ _ => ?_
      rw [h.route]
      refine (meets_handleRevokeDashboardSession h.cookie db₁).mono ?_
      rintro _ db₂ hended _ ⟨⟩ -
      exact hended
    · refine (Prog.every_true _).meets.mono fun _ _ _ rq' hname hrq => ?_
      cases hname
      exact absurd hrq h

/-- The process has run to its end. A sign-out whose lookup of the session fails answers before. -/
def Returned (srv : Server) (p : Process Activity Moment Database) : Prop :=
  (srv.activity p.name).resume p.past = .ret ()

/-- In every run of the server and its sweeper in which no session token is drawn twice, a
session that has ended before some time lets no later request in at that time or after it, and
one that was signed out lets no later request in at all. -/
theorem ended_session_stays_out (srv : Server) (start : Database → Prop) :
    (∀ hash time s s', Ended hash time s.state →
      (srv.swept start).Leads (srv.Unrepeated start hash) s s' →
      ∀ i q clock, s.procs i = none → s'.procs i = some q → srv.Carries hash q.name →
        srv.EnteredAt q clock → clock < time) ∧
    ∀ s, (srv.swept start).Reachable s → ∀ turn s₁, (srv.swept start).next turn s = some s₁ →
      ∀ j p rq, s₁.procs j = some p → s.procs j ≠ some p → p.name = .serve rq →
        SigningOut rq → srv.Returned p →
        ∀ s', (srv.swept start).Leads (srv.Unrepeated start (srv.hash rq.cookie)) s₁ s' →
          ∀ i q clock, s₁.procs i = none → s'.procs i = some q →
            srv.Carries (srv.hash rq.cookie) q.name → ¬ srv.EnteredAt q clock := by
  have hstays : ∀ hash time s s', Ended hash time s.state →
      (srv.swept start).Leads (srv.Unrepeated start hash) s s' →
      ∀ i q clock, s.procs i = none → s'.procs i = some q → srv.Carries hash q.name →
        srv.EnteredAt q clock → clock < time := by
    intro hash time s s' hended hl i q clock hi hq hcarries hentered
    by_cases hrevoked : ∃ sess ∈ s.state.dashboardSessions.rows, sess.sessionHash = hash ∧
        Revoked sess.tokenID s.state
    · obtain ⟨sess, hsess, hhash, hrev⟩ := hrevoked
      have hofRevoked : OfRevoked hash sess.tokenID s.state := by
        refine ⟨fun other hother hsame => ?_, hrev⟩
        rw [session_eq_of_hash s.state hother hsess (hsame.trans hhash.symm)]
      have hpast := (interleave.past_invariant
        (fun hok hn h => OfRevoked.next hok hn h) hofRevoked hl).2
      exact (hentered.not_revoked hcarries (hpast i hi q hq)).elim
    · have hover : EverySession hash (Over time) s.state := by
        intro sess hsess hhash
        rcases hended sess hsess hhash with hrev | hexpired | htoken
        · exact .inl hrev
        · exact .inr hexpired
        · exact absurd ⟨sess, hsess, hhash, htoken⟩ hrevoked
      have hpast := (interleave.past_invariant
        (fun hok hn h => EverySession.next (lasting_over time) hok hn h) hover hl).2
      exact hentered.lt hcarries (hpast i hi q hq)
  refine ⟨hstays, ?_⟩
  intro s hreach turn s₁ hn j p rq hp hnew hname hrq hret s' hl i q clock hi hq hcarries hentered
  have hended : SignedOut (srv.hash rq.cookie) s₁.state := by
    have hmeets := interleave.returns_meets (fun a => Prog.every_true (srv.activity a))
      (fun _ => trivial) (fun _ _ _ _ _ => trivial) (fun a db => meets_activity a db) hreach hn hp
      hret
    exact hmeets.resolve_left hnew rq hname hrq
  exact lt_irrefl clock (hstays _ clock s₁ s' (fun sess hsess hhash =>
    .inl (hended sess hsess hhash)) hl i q clock hi hq hcarries hentered)

/-- The signed-in browser signs out, and a request with its cookie arrives. -/
def afterSignOut : List (Turn Activity Moment) :=
  [.arrive 1 (.serve (cookieRequest .get keyPath)), .advance 1 (.calm 12)]

/-- A process that serves a request with the cookie `c`. -/
def hasCookie (p : Process Activity Moment Database) : Bool :=
  match p.name with
  | .serve rq => rq.cookie = ascii "c"
  | .sweep => false

/-- A process that has served a sign-out in one action. -/
def hasSignedOut (p : Process Activity Moment Database) : Bool :=
  match p.name with
  | .serve rq => rq.route = .revokeSession && rq.cookie = ascii "c" && p.past.length = 1 &&
      ((plainServer.activity p.name).resume p.past).returned.isSome
  | .sweep => false

theorem carries_of_hasCookie {p : Process Activity Moment Database} (h : hasCookie p = true) :
    plainServer.Carries (ascii "c") p.name := by
  unfold hasCookie at h
  split at h
  · rename_i rq hname
    rw [hname]
    change rq.cookie = ascii "c"
    exact of_decide_eq_true h
  · cases h

theorem of_hasSignedOut {p : Process Activity Moment Database} (h : hasSignedOut p = true) :
    ∃ rq, p.name = .serve rq ∧ SigningOut rq ∧ (rq.cookie = ascii "c" ∧ p.past.length = 1) ∧
      plainServer.Returned p := by
  unfold hasSignedOut at h
  split at h
  · rename_i rq hname
    simp only [Bool.and_eq_true, decide_eq_true_eq] at h
    obtain ⟨⟨⟨hroute, hcookie⟩, hlength⟩, hret⟩ := h
    obtain ⟨u, hu⟩ := Option.isSome_iff_exists.mp hret
    refine ⟨rq, hname, ⟨hroute, ?_⟩, ⟨hcookie, hlength⟩, Prog.returned_eq_some.mp hu⟩
    rw [hcookie]
    decide
  · cases h

set_option maxRecDepth 4000 in
/-- The signed-out cookie lets no request in. -/
theorem ended_session_stays_out_signedIn :
    ∃ s' q, (plainServer.swept (· = signedIn)).Reachable s' ∧ s'.procs 1 = some q ∧
      plainServer.Carries (ascii "c") q.name ∧ q.past.length = 1 ∧
      ∀ clock, ¬ plainServer.EnteredAt q clock := by
  let m := plainServer.swept (· = signedIn)
  have hrun : (m.run [.arrive 0 (.serve signOutRequest)] ⟨signedIn, fun _ => none⟩).any (fun s =>
      (m.next (.advance 0 (.calm 10)) s).any fun s₁ =>
        (m.run afterSignOut s₁).any fun s' =>
          (s.procs 0).all (fun p => p.past.length = 0) && (s₁.procs 1).isNone &&
          (s₁.procs 0).any hasSignedOut &&
          s₁.state.dashboardSessions.rows.any (fun sess => sess.sessionHash = ascii "c") &&
          (s'.procs 1).any fun q => hasCookie q && q.past.length = 1) = true := by
    decide +kernel
  obtain ⟨s, hs, hrun⟩ := (Option.any_eq_true _ _).mp hrun
  obtain ⟨s₁, hs₁, hrun⟩ := (Option.any_eq_true _ _).mp hrun
  obtain ⟨s', hs', htest⟩ := (Option.any_eq_true _ _).mp hrun
  simp only [Bool.and_eq_true] at htest
  obtain ⟨⟨⟨⟨hfresh, hnone⟩, hout⟩, hrow⟩, hq⟩ := htest
  obtain ⟨p, hp, hout⟩ := (Option.any_eq_true _ _).mp hout
  obtain ⟨q, hq, hcookie⟩ := (Option.any_eq_true _ _).mp hq
  obtain ⟨sess, hsess, hhash⟩ := List.any_eq_true.mp hrow
  have hpresent : Present (ascii "c") s₁.state := ⟨sess, hsess, of_decide_eq_true hhash⟩
  have hstart : m.Reachable ⟨signedIn, fun _ => none⟩ := .start ⟨rfl, fun _ => rfl⟩
  have hreach : m.Reachable s := hstart.run hs
  have hleads : m.Leads (plainServer.Unrepeated (· = signedIn) (ascii "c")) s₁ s' := by
    have halong : m.Along (plainServer.Unrepeated (· = signedIn) (ascii "c")) afterSignOut s₁ := by
      refine ⟨fun _ _ _ => hpresent, fun s₂ hn => ⟨?_, fun _ _ => trivial⟩⟩
      obtain ⟨-, rfl⟩ := interleave.next_arrive hn
      exact fun _ _ _ => hpresent
    exact .of_run halong hs'
  have hreach₁ : m.Reachable s₁ := hreach.step trivial hs₁
  obtain ⟨rq, hname, hrq, hsame, hret⟩ := of_hasSignedOut hout
  have hnew : s.procs 0 ≠ some p := by
    intro hold
    rw [hold, Option.all_some, decide_eq_true_eq] at hfresh
    rw [hsame.2] at hfresh
    cases hfresh
  simp only [Bool.and_eq_true, decide_eq_true_eq] at hcookie
  have hcarries : plainServer.Carries (ascii "c") q.name := carries_of_hasCookie hcookie.1
  refine ⟨s', q, hreach₁.run hs', hq, hcarries, hcookie.2, fun clock => ?_⟩
  have hout := (ended_session_stays_out plainServer (· = signedIn)).2 s hreach _ s₁ hs₁ 0 p rq hp
    hnew hname hrq hret s'
  rw [show plainServer.hash rq.cookie = ascii "c" from hsame.1] at hout
  exact hout hleads 1 q clock (Option.isNone_iff_eq_none.mp hnone) hq hcarries

end Comax.Server
