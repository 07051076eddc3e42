import Comax.Server.Gate

/-!
# What the session cookie alone can do

A mutating request with the cookie but without the CSRF token of its session is
stopped in the session arm of the middleware, so it leaves the database as it is,
like the request without the cookie. The public paths skip that arm, and one handler
behind them reads the cookie itself.
-/

namespace Comax.Server

open Comax.Core Comax.Store

/-- The same request without the session cookie. -/
def Request.withoutCookie (rq : Request) : Request := { rq with cookie := [] }

/-- No session that the cookie names has the CSRF token of the request. -/
def CsrfUnmatched (srv : Server) (rq : Request) (db : Database) : Prop :=
  ∀ sess ∈ db.dashboardSessions.rows, sess.sessionHash = srv.hash rq.cookie →
    srv.verifyCSRF rq.csrfToken sess.csrfHash = false

/-- The cookie names a live session, and neither the transaction that revokes it nor a statement
of it is reported to fail. -/
structure SignsOut (srv : Server) (rq : Request) (o : Moment) (db : Database) : Prop where
  cookie : rq.cookie ≠ []
  session : ∃ sess, SessionRepo.byHash (srv.hash rq.cookie) (o.now 1) db = .ok sess ∧
    db.tokenRef (some sess.tokenID) = true
  succeeds : ∀ i < 5, o.fails i = false

variable {srv : Server} {rq : Request} {db : Database}

/-- The session arm admits no mutating request without the CSRF token. -/
theorem leaves_authSession (hmut : isMutating rq.method = true) (h : CsrfUnmatched srv rq db) :
    (srv.authSession rq).Leaves db (fun _ _ => False) (· = db) := by
  apply Prog.Leaves.bind
  refine leaves_lookup rfl fun now sess hsess => ?_
  obtain ⟨hmem, hrow⟩ := Table.of_find?_eq_some (found_eq_ok.mp hsess)
  simp only [Bool.and_eq_true, decide_eq_true_eq] at hrow
  have hcsrf := h sess hmem hrow.1.1
  simp only [hmut, hcsrf, Bool.not_false, Bool.and_self, if_true]
  exact rfl

/-- Off the public paths the middleware stops the request. -/
theorem leaves_serve (hmut : isMutating rq.method = true) (hauth : rq.authorization = [])
    (hpublic : isPublicPath rq.path = false) (h : rq.cookie ≠ [] → CsrfUnmatched srv rq db) :
    (srv.serve rq).Leaves db (fun _ => (· = db)) (· = db) := by
  have harm : (srv.authMiddleware rq).Leaves db (fun _ _ => False) (· = db) := by
    simp only [authMiddleware, hpublic, hauth, ne_eq, not_true_eq_false, Bool.false_eq_true,
      if_false]
    split
    · rename_i hcookie
      exact Prog.Leaves.bind
        ((leaves_authSession hmut (h hcookie)).mono (fun _ _ hf => hf.elim) fun _ h => h)
    · exact rfl
  exact Prog.Leaves.bind (harm.mono (fun _ _ hf => hf.elim) fun _ h => h)

/-- On a public path the handler runs without an actor. -/
theorem serve_public (hpublic : isPublicPath rq.path = true) :
    srv.serve rq = srv.handle none rq rq.route := by
  rw [serve, authMiddleware, if_pos hpublic]
  rfl

/-- Only one handler reads the cookie. -/
theorem handle_withoutCookie (actor : Option ServiceToken) {route : Route}
    (h : route ≠ .revokeSession) :
    srv.handle actor rq.withoutCookie route = srv.handle actor rq route := by
  cases route with
  | revokeSession => exact absurd rfl h
  | _ => rfl

/-- That handler is reached by one path. -/
theorem public_of_revokeSession (h : rq.route = .revokeSession) : isPublicPath rq.path = true := by
  have hapi : ∀ {method segments}, apiRoute method segments = .revokeSession →
      segments = [ascii "dashboard", ascii "session"] := by
    intro method segments hroute
    unfold apiRoute at hroute
    split at hroute
    case h_10 => cases hroute
    all_goals split_ifs at hroute
    rename_i hpath
    rw [hpath.1, hpath.2]
  obtain ⟨rest, hsegments, hrest⟩ := segments_of_route h (by simp)
  rw [Request.path, hsegments, hapi hrest]
  decide

/-- The transaction of `handleRevokeDashboardSession`. -/
def revokeSession (srv : Server) (rq : Request) : Tx Response Unit := do
  let sess ← Tx.stmt (fun _ => clearSessionCookie)
    (Tx.read (SessionRepo.byHash (srv.hash rq.cookie)))
  match ← Tx.attempt (SessionRepo.revoke sess.id) with
  | .ok _ | .error .notFound =>
    appendAuditForToken sess.tokenID (ascii "session.revoke") (sessionTarget sess.tokenID sess.id)
  | .error _ => throw internalError

/-- With a cookie the handler is its transaction. -/
theorem settle_revokeSession (hcookie : rq.cookie ≠ []) (os : ℕ → Moment) :
    (srv.handleRevokeDashboardSession rq).settle os db =
      (committed internalError (internal "commit failed") (revokeSession srv rq) (os 0) db).2 := by
  rw [handleRevokeDashboardSession, if_neg hcookie]
  exact Prog.settle_act _ (fun _ => .ok clearSessionCookie) os db

/-- A live session is revoked by its id. -/
theorem revoke_live {sess : DashboardSession} (hsess : sess ∈ db.dashboardSessions.rows)
    (hlive : sess.revokedAt = none) (now : Int) : ∃ db', SessionRepo.revoke sess.id now db =
      .ok ((), db') ∧ db'.serviceTokens = db.serviceTokens ∧
        ∃ s ∈ db'.dashboardSessions.rows, s.id = sess.id ∧ s.revokedAt ≠ none := by
  refine ⟨_, SessionRepo.revoke_ok hsess hlive now, rfl,
    { sess with revokedAt := some now }, ?_, rfl, Option.some_ne_none now⟩
  exact List.mem_map.mpr ⟨sess, hsess, by simp [hlive]⟩

/-- A sign-out succeeds if its token is there and no operation fails. -/
theorem signsOut_iff (hcookie : rq.cookie ≠ []) {o : Moment} {sess : DashboardSession}
    (hfound : SessionRepo.byHash (srv.hash rq.cookie) (o.now 1) db = .ok sess) :
    SignsOut srv rq o db ↔ db.tokenRef (some sess.tokenID) = true ∧ o.fails 0 = false ∧
      o.fails 1 = false ∧ o.fails 2 = false ∧ o.fails 3 = false ∧ o.fails 4 = false := by
  constructor
  · rintro ⟨-, ⟨sess', hsess', href⟩, hcalm⟩
    cases hfound.symm.trans hsess'
    exact ⟨href, hcalm 0 (by decide), hcalm 1 (by decide), hcalm 2 (by decide),
      hcalm 3 (by decide), hcalm 4 (by decide)⟩
  · rintro ⟨href, h0, h1, h2, h3, h4⟩
    refine ⟨hcookie, ⟨sess, hfound, href⟩, fun i hi => ?_⟩
    interval_cases i <;> assumption

/-- Once the session is revoked, only a failure undoes the change: of the entry or of the commit,
or for want of the token. -/
theorem wp_appendAuditForToken_iff {db₁ : Database} {tokenID : Int} {action target : Str}
    (htokens : db₁.serviceTokens = db.serviceTokens)
    (hchanged : ∀ t, ({ db₁ with auditLog := t } : Database) ≠ db) (o : Moment) :
    wp (appendAuditForToken tokenID action target) ⟨o, 3, db₁⟩
        (fun _ s => s.moment.fails s.ops = true ∨ s.db = db) (fun _ => True) ↔
      o.fails 3 = true ∨ db.tokenRef (some tokenID) = false ∨ o.fails 4 = true := by
  have href₁ : db₁.tokenRef (some tokenID) = db.tokenRef (some tokenID) := by
    rw [Database.tokenRef, Database.tokenRef, htokens]
  rw [appendAuditForToken, wp_bind, Tx.wp_stmt_iff]
  cases href : db.tokenRef (some tokenID) with
  | false =>
    rw [href] at href₁
    have happend : AuditRepo.append (some tokenID) action target [] (o.now 3) db₁ =
        .error .other := by
      rw [AuditRepo.append, href₁]
      rfl
    simp [happend]
  | true =>
    rw [href] at href₁
    obtain ⟨e, t, happend⟩ := AuditRepo.append_ok action target [] (o.now 3) href₁
    simp only [happend, wp_pure, hchanged t, or_false, Bool.true_eq_false, false_or]
    cases o.fails 3 <;> simp

/-- The transaction changes the database exactly if the cookie signs its session out. -/
theorem revokeSession_eq_iff (hcookie : rq.cookie ≠ []) (o : Moment) :
    (committed internalError (internal "commit failed") (revokeSession srv rq) o db).2 = db ↔
      ¬ SignsOut srv rq o db := by
  rw [committed_eq_iff, revokeSession, wp_bind, Tx.wp_stmt_iff]
  cases hfound : SessionRepo.byHash (srv.hash rq.cookie) (o.now 1) db with
  | error e =>
    have hnot : ¬ SignsOut srv rq o db := by
      rintro ⟨-, ⟨sess, hsess, -⟩, -⟩
      rw [hfound] at hsess
      cases hsess
    simp [Tx.read, hfound, Except.map, hnot]
  | ok sess =>
    obtain ⟨hmem, hrow⟩ := Table.of_find?_eq_some (found_eq_ok.mp hfound)
    simp only [Bool.and_eq_true, decide_eq_true_eq] at hrow
    obtain ⟨db₁, hrevoke, htokens, s, hs, hid, hrevoked⟩ := revoke_live hmem hrow.1.2 (o.now 2)
    have hchanged : ∀ t, ({ db₁ with auditLog := t } : Database) ≠ db := by
      rintro t rfl
      exact hrevoked ((Table.eq_of_id_eq _ hs hmem hid) ▸ hrow.1.2)
    simp only [Tx.read, hfound, Except.map, wp_bind, Tx.wp_attempt_iff, hrevoke]
    rw [signsOut_iff hcookie hfound]
    change (o.fails 0 = true ∨ if o.fails 1 = true then True else
      if o.fails 2 = true then True else
        wp (appendAuditForToken sess.tokenID (ascii "session.revoke")
          (sessionTarget sess.tokenID sess.id)) ⟨o, 3, db₁⟩
          (fun _ s => s.moment.fails s.ops = true ∨ s.db = db) fun _ => True) ↔ _
    rw [wp_appendAuditForToken_iff htokens hchanged]
    cases o.fails 0 <;> cases o.fails 1 <;> cases o.fails 2 <;>
      cases db.tokenRef (some sess.tokenID) <;> simp [or_iff_not_imp_left]

/-- With its cookie alone a mutating request does to the database what it does without the cookie,
exactly if it does not revoke the session that the cookie names. -/
theorem csrf_iff (srv : Server) (rq : Request) (db : Database) (os : ℕ → Moment)
    (hmut : isMutating rq.method = true) (hauth : rq.authorization = [])
    (hcsrf : CsrfUnmatched srv rq db) :
    (srv.serve rq).settle os db = (srv.serve rq.withoutCookie).settle os db ↔
      ¬ (rq.route = .revokeSession ∧ SignsOut srv rq (os 0) db) := by
  cases hpublic : isPublicPath rq.path with
  | false =>
    have hroute : rq.route ≠ .revokeSession := by
      intro h
      rw [public_of_revokeSession h] at hpublic
      cases hpublic
    have hwith : (srv.serve rq).settle os db = db :=
      (leaves_serve hmut hauth hpublic fun _ => hcsrf).settle os
    have hleaves : (srv.serve rq.withoutCookie).Leaves db (fun _ => (· = db)) (· = db) :=
      leaves_serve hmut hauth hpublic fun h => absurd rfl h
    have hwithout : (srv.serve rq.withoutCookie).settle os db = db := hleaves.settle os
    rw [hwith, hwithout]
    simp [hroute]
  | true =>
    have hwithout : srv.serve rq.withoutCookie = srv.handle none rq.withoutCookie rq.route :=
      serve_public hpublic
    rw [serve_public hpublic, hwithout]
    by_cases hroute : rq.route = .revokeSession
    · rw [hroute]
      by_cases hcookie : rq.cookie = []
      · have hnot : ¬ SignsOut srv rq (os 0) db := fun h => h.cookie hcookie
        have hsame : rq.withoutCookie = rq := by
          rw [Request.withoutCookie, ← hcookie]
        rw [hsame]
        simp [hnot]
      · have hleft : (srv.handle none rq .revokeSession).settle os db =
            (committed internalError (internal "commit failed") (revokeSession srv rq) (os 0)
              db).2 := settle_revokeSession hcookie os
        have hright : (srv.handle none rq.withoutCookie .revokeSession).settle os db = db := rfl
        rw [hleft, hright, revokeSession_eq_iff hcookie]
        simp
    · rw [handle_withoutCookie none hroute]
      simp [hroute]

/-- A request with the session cookie `c`, and without a CSRF token. -/
def cookieRequest (method : Method) (path : List String) : Request :=
  { bearerRequest method path noFields with authorization := [], cookie := ascii "c" }

/-- A token, and its session with the cookie `c` and the CSRF token `x`. -/
def signedIn : Database :=
  { Database.empty with
    serviceTokens := ⟨[⟨1, ascii "bootstrap", ascii "t", true, 0, none, none⟩], by decide⟩
    dashboardSessions := ⟨[⟨1, 1, ascii "c", ascii "x", [], [], 0, 100, none⟩], by decide⟩ }

/-- The session of `signedIn` has a CSRF token. -/
theorem csrfUnmatched_signedIn (method : Method) (path : List String) :
    CsrfUnmatched plainServer (cookieRequest method path) signedIn :=
  fun _ _ _ => rfl

/-- A write with the cookie alone is stopped. -/
theorem csrf_signedIn :
    (plainServer.serve (cookieRequest .put keyPath)).settle (fun _ => .calm 10) signedIn =
      (plainServer.serve (cookieRequest .put keyPath).withoutCookie).settle (fun _ => .calm 10)
        signedIn :=
  (csrf_iff plainServer (cookieRequest .put keyPath) signedIn (fun _ => .calm 10) rfl rfl
    (csrfUnmatched_signedIn _ _)).mpr fun h => absurd h.1 (by decide)

/-- Signing out with the cookie alone. -/
def signOutRequest : Request := cookieRequest .delete ["api", "v1", "dashboard", "session"]

/-- It revokes the session. -/
theorem csrf_signOut :
    isMutating signOutRequest.method = true ∧ signOutRequest.authorization = [] ∧
      CsrfUnmatched plainServer signOutRequest signedIn ∧
      (plainServer.serve signOutRequest).settle (fun _ => .calm 10) signedIn ≠
        (plainServer.serve signOutRequest.withoutCookie).settle (fun _ => .calm 10) signedIn := by
  refine ⟨rfl, rfl, csrfUnmatched_signedIn _ _, ?_⟩
  decide +kernel

end Comax.Server
