import Comax.Server.Rollback
import Comax.Server.Sessions

/-!
# The list of sessions

The sessions that a token's owner sees are those that the middleware would let in.
Revoking one of them by its id takes it away and no other, whatever id is named, and
the answer is the same for an id of someone else.
-/

namespace Comax.Store.SessionRepo

open Comax.Core

variable {db : Database} {sess : DashboardSession} {tokenID now : Int}

theorem mem_listByTokenID :
    sess ∈ listByTokenID tokenID now db ↔
      sess ∈ db.dashboardSessions.rows ∧ sess.tokenID = tokenID ∧ sess.revokedAt = none ∧
        now < sess.expiresAt := by
  simp [listByTokenID, liveOf, List.mem_insertionSort, and_assoc]

/-- The session that a hash lets in is the listed one with the hash. -/
theorem byHash_eq_ok {hash : Str} :
    byHash hash now db = .ok sess ↔
      sess.sessionHash = hash ∧ sess ∈ listByTokenID sess.tokenID now db := by
  rw [mem_listByTokenID, byHash, found_eq_ok]
  constructor
  · intro h
    obtain ⟨hmem, hrow⟩ := Table.of_find?_eq_some h
    simp only [Bool.and_eq_true, decide_eq_true_eq] at hrow
    exact ⟨hrow.1.1, hmem, rfl, hrow.1.2, hrow.2⟩
  · rintro ⟨hhash, hmem, -, hlive, hexpires⟩
    refine Table.find?_eq_some _ hmem (by simp [hhash, hlive, hexpires]) fun x hx hrow => ?_
    simp only [Bool.and_eq_true, decide_eq_true_eq] at hrow
    have hsame : x.sessionHash = sess.sessionHash := hrow.1.1.trans hhash.symm
    exact db.dashboardSessions.eq_of_clash hx hmem (by simp [Row.clash, Row.key, hsame])
      (by simp [Row.clash, Row.key, hsame])

end Comax.Store.SessionRepo

namespace Comax.Server

open Comax.Core Comax.Store

/-- `sessionListItem` -/
structure SessionListItem where
  /-- `id` -/
  id : Int
  /-- `user_agent` -/
  userAgent : Str
  /-- `ip_prefix` -/
  ipPrefix : Str
  /-- `created_at` -/
  createdAt : Int
  /-- `expires_at` -/
  expiresAt : Int
  /-- `is_current` -/
  isCurrent : Bool
  deriving DecidableEq

/-- The id of the session of the cookie, zero when it has none. -/
def currentID (srv : Server) (rq : Request) : Handler Int :=
  if rq.cookie = [] then return 0
  else do
    match ← autocommit (Tx.read (SessionRepo.byHash (srv.hash rq.cookie))) with
    | .ok cur => return cur.id
    | .error _ => return 0

/-- `handleListDashboardSessions` -/
def handleListDashboardSessions (srv : Server) (actor : Option ServiceToken) (rq : Request) :
    Handler (List SessionListItem) := do
  let actor ← need (writeError 401 (ascii "unauthorized") (ascii "missing actor")) actor
  let sessions ← autocommitOr (fun _ => internalError)
    (Tx.read fun now db => .ok (SessionRepo.listByTokenID actor.id now db))
  let currentID ← srv.currentID rq
  return sessions.map fun sess => ⟨sess.id, sess.userAgent, sess.ipPrefix, sess.createdAt,
    sess.expiresAt, sess.id = currentID⟩

/-! ## Revoking by id -/

/-- The transaction of `handleRevokeDashboardSessionByID`. -/
def revokeOwn (actor : ServiceToken) (id : Int) : Tx Response Unit := do
  let n ← Tx.stmt (fun _ => internalError) (SessionRepo.revokeByIDAndTokenID id actor.id)
  if 0 < n then
    appendAuditForToken actor.id (ascii "session.revoke_by_id") (sessionTarget actor.id id)

/-- The id that a path segment names. -/
def idOf (segment : Str) : Option Int := (parseInt64 segment).filter fun id => decide (0 < id)

/-- What a revocation by id does: it takes away the live sessions of the actor with that id, and
leaves an audit entry if there was one to revoke. -/
structure RevokedOwn (actor id : Int) (db db' : Database) : Prop where
  listed : ∀ tokenID now sess, sess ∈ SessionRepo.listByTokenID tokenID now db' ↔
    sess ∈ SessionRepo.listByTokenID tokenID now db ∧ ¬(tokenID = actor ∧ sess.id = id)
  audited : db'.auditLog ≠ db.auditLog ↔
    ∃ sess ∈ db.dashboardSessions.rows, sess.id = id ∧ sess.tokenID = actor ∧ sess.revokedAt = none

/-- The sessions left after the statement. -/
theorem listed_revoke {id actor now : Int} {db db' : Database} {n : ℕ}
    (h : SessionRepo.revokeByIDAndTokenID id actor now db = .ok (n, db')) (tokenID time : Int)
    (sess : DashboardSession) :
    sess ∈ SessionRepo.listByTokenID tokenID time db' ↔
      sess ∈ SessionRepo.listByTokenID tokenID time db ∧ ¬(tokenID = actor ∧ sess.id = id) := by
  cases h
  simp only [SessionRepo.mem_listByTokenID, Table.rows_update, List.mem_map]
  constructor
  · rintro ⟨⟨r, hr, hsess⟩, htoken, hlive, hexpires⟩
    split at hsess
    · rw [← hsess] at hlive
      cases hlive
    · rename_i hmiss
      rw [hsess] at hr hmiss
      refine ⟨⟨hr, htoken, hlive, hexpires⟩, ?_⟩
      rintro ⟨hactor, hid⟩
      simp [hid, htoken, hactor, hlive] at hmiss
  · rintro ⟨⟨hmem, htoken, hlive, hexpires⟩, hother⟩
    refine ⟨⟨sess, hmem, if_neg ?_⟩, htoken, hlive, hexpires⟩
    rintro hhit
    simp only [Bool.and_eq_true, decide_eq_true_eq] at hhit
    exact hother ⟨htoken.symm.trans hhit.1.2, hhit.1.1⟩

/-- It counts the sessions it revokes. -/
theorem pos_revokeByID {id actor now : Int} {db db' : Database} {n : ℕ}
    (h : SessionRepo.revokeByIDAndTokenID id actor now db = .ok (n, db')) :
    0 < n ↔ ∃ sess ∈ db.dashboardSessions.rows,
      sess.id = id ∧ sess.tokenID = actor ∧ sess.revokedAt = none := by
  cases h
  rw [List.length_pos_iff_exists_mem]
  simp [List.mem_filter, and_assoc]

/-- An audit entry is a change, and only of the audit log. -/
theorem wp_appendAuditForToken_entry {tokenID : Int} {action target : Str} {o : Moment} {ops : ℕ}
    {db : Database} :
    wp (appendAuditForToken tokenID action target) ⟨o, ops, db⟩
      (fun _ s => s.db.dashboardSessions = db.dashboardSessions ∧ s.db.auditLog ≠ db.auditLog)
      fun _ => True := by
  unfold appendAuditForToken
  rw [wp_bind]
  apply Tx.wp_stmt
  intro now e db' happend
  obtain ⟨-, t, hins, rfl⟩ := AuditRepo.append_eq_ok happend
  refine ⟨rfl, fun hsame => ?_⟩
  have hrows := (Table.insert_eq_some.mp hins).2
  rw [show t = db.auditLog from hsame] at hrows
  simp at hrows

/-- The transaction does what it says when it commits. -/
theorem wp_revokeOwn (actor : ServiceToken) (id : Int) (o : Moment) (db : Database) :
    wp (revokeOwn actor id) ⟨o, 1, db⟩ (fun _ s => RevokedOwn actor.id id db s.db)
      fun _ => True := by
  unfold revokeOwn
  rw [wp_bind]
  apply Tx.wp_stmt
  intro now n db₁ hrevoke
  have hlisted := listed_revoke hrevoke
  have hcount := pos_revokeByID hrevoke
  have haudit : db₁.auditLog = db.auditLog := by
    cases hrevoke
    rfl
  split
  · rename_i hpos
    refine wp_mono wp_appendAuditForToken_entry ?_ fun _ h => h
    rintro _ s ⟨hsessions, hchanged⟩
    refine ⟨fun tokenID time sess => ?_, fun _ => hcount.mp hpos, fun _ => haudit ▸ hchanged⟩
    rw [← hlisted tokenID time sess]
    simp only [SessionRepo.mem_listByTokenID, hsessions]
  · rename_i hnone
    exact ⟨hlisted, fun h => absurd haudit h, fun h => absurd (hcount.mpr h) hnone⟩

/-- Nothing but a failure or the want of the token's row keeps an entry out. -/
theorem calm_appendAuditForToken {tokenID : Int} {action target : Str} {o : Moment} {ops : ℕ}
    {db : Database} (hcalm : ∀ i, o.fails i = false) (href : db.tokenRef (some tokenID) = true) :
    wp (appendAuditForToken tokenID action target) ⟨o, ops, db⟩
      (fun _ s => s.moment.fails s.ops = false) fun _ => False := by
  unfold appendAuditForToken
  rw [wp_bind, Tx.wp_stmt_iff, if_neg (by simp [hcalm])]
  obtain ⟨e, t, happend⟩ := AuditRepo.append_ok action target [] (o.now ops) href
  simp only [happend]
  exact hcalm _

/-- See `calm_appendAuditForToken`. -/
theorem calm_revokeOwn {actor : ServiceToken} {id : Int} {o : Moment} {db : Database}
    (hcalm : ∀ i, o.fails i = false) (hactor : db.tokenRef (some actor.id) = true) :
    wp (revokeOwn actor id) ⟨o, 1, db⟩ (fun _ s => s.moment.fails s.ops = false)
      fun _ => False := by
  unfold revokeOwn
  rw [wp_bind, Tx.wp_stmt_iff, if_neg (by simp [hcalm])]
  simp only [SessionRepo.revokeByIDAndTokenID]
  split
  · exact calm_appendAuditForToken hcalm hactor
  · exact hcalm _

/-- A transaction that nothing keeps from committing commits. -/
theorem committed_calm {α : Type} {onBegin onCommit : Response} {body : Tx Response α} {o : Moment}
    {db : Database} (hbegin : o.fails 0 = false)
    (hbody : wp body ⟨o, 1, db⟩ (fun _ s => s.moment.fails s.ops = false) fun _ => False)
    (resp : Response) : committed onBegin onCommit body o db ≠ (.error resp, db) := by
  intro h
  unfold committed at h
  rw [if_neg (by simp [hbegin])] at h
  split at h
  · rename_i r hres
    exact wp_error hbody hres
  · rename_i a s hres
    rw [if_neg (by simp [wp_ok hbody hres])] at h
    cases h

section

variable {actor : ServiceToken} {segment : Str} {o : Moment} {db : Database}

/-- A segment that is no id is refused. -/
theorem alone_revokeByID_refused (h : idOf segment = none) :
    (handleRevokeDashboardSessionByID (some actor) segment).alone o db =
      (.error (badRequest (ascii "invalid session id")), db) := by
  refine (Prog.alone_bind (alone_need rfl o db) _).trans ?_
  refine Prog.alone_bind_error ?_ _
  rw [pathID, need, Prog.alone_lift]
  change ((idOf segment).elim _ _, db) = _
  rw [h]
  rfl

/-- With an id the handler is its transaction. -/
theorem alone_revokeByID {id : Int} (h : idOf segment = some id) :
    (handleRevokeDashboardSessionByID (some actor) segment).alone o db =
      ((committed internalError (internal "commit failed") (revokeOwn actor id) o db).1.map
          fun _ => noContent,
        (committed internalError (internal "commit failed") (revokeOwn actor id) o db).2) := by
  have hid : (pathID "invalid session id" segment).alone o db = (.ok id, db) := alone_need h o db
  refine (Prog.alone_bind (alone_need rfl o db) _).trans ?_
  refine (Prog.alone_bind hid _).trans ?_
  have hact : (transaction internalError (internal "commit failed") (revokeOwn actor id)).alone o db
      = committed internalError (internal "commit failed") (revokeOwn actor id) o db :=
    Prog.alone_act _ _ _
  generalize committed internalError (internal "commit failed") (revokeOwn actor id) o db = c
    at hact
  obtain ⟨r | u, db'⟩ := c
  · exact Prog.alone_bind_error hact _
  · exact Prog.alone_bind hact _

end

/-- The handler that revokes a session by its id: if it does not answer 204 it has left the
database alone, and if it does it has taken the actor's live session with the id off the list, if
there is one, and no other, with an audit entry exactly when it has revoked one. So a listed
session is one that is let in, before and after. Unless the driver fails it answers every id
alike. -/
theorem revoke_by_id_scoped (actor : ServiceToken) (segment : Str) (o : Moment) (db : Database) :
    (∀ hash now sess, SessionRepo.byHash hash now db = .ok sess ↔
      sess.sessionHash = hash ∧ sess ∈ SessionRepo.listByTokenID sess.tokenID now db) ∧
    (((handleRevokeDashboardSessionByID (some actor) segment).alone o db).1 ≠ .ok noContent →
      ((handleRevokeDashboardSessionByID (some actor) segment).alone o db).2 = db) ∧
    (((handleRevokeDashboardSessionByID (some actor) segment).alone o db).1 = .ok noContent →
      ∃ id, idOf segment = some id ∧ RevokedOwn actor.id id db
        ((handleRevokeDashboardSessionByID (some actor) segment).alone o db).2) ∧
    ((∀ i, o.fails i = false) → db.tokenRef (some actor.id) = true → (idOf segment).isSome →
      ((handleRevokeDashboardSessionByID (some actor) segment).alone o db).1 = .ok noContent) := by
  refine ⟨fun _ _ _ => SessionRepo.byHash_eq_ok, ?_⟩
  cases hid : idOf segment with
  | none =>
    rw [alone_revokeByID_refused hid]
    exact ⟨fun _ => rfl, fun h => (by cases h), fun _ _ h => (by cases h)⟩
  | some id =>
    rw [alone_revokeByID hid]
    rcases committed_cases internalError (internal "commit failed") (revokeOwn actor id) o db with
      ⟨r, hc⟩ | ⟨u, s, hbody, hc⟩
    · rw [hc]
      refine ⟨fun _ => rfl, fun h => (by cases h), fun hcalm hactor _ => ?_⟩
      exact absurd hc (committed_calm (hcalm 0) (calm_revokeOwn hcalm hactor) r)
    · rw [hc]
      refine ⟨fun h => absurd rfl h, fun _ => ⟨id, rfl, ?_⟩, fun _ _ _ => rfl⟩
      exact wp_ok (Q := fun _ s => RevokedOwn actor.id id db s.db) (wp_revokeOwn actor id o db)
        hbody

/-- The session of `signedIn` is taken off the list of its owner. -/
theorem revoke_by_id_scoped_signedIn :
    ∃ tok ∈ signedIn.serviceTokens.rows, RevokedOwn tok.id 1 signedIn
      ((handleRevokeDashboardSessionByID (some tok) (ascii "1")).alone (.calm 10) signedIn).2 := by
  refine ⟨⟨1, ascii "bootstrap", ascii "t", true, 0, none, none⟩, List.mem_singleton_self _, ?_⟩
  obtain ⟨-, -, hdone, hcalm⟩ := revoke_by_id_scoped
    ⟨1, ascii "bootstrap", ascii "t", true, 0, none, none⟩ (ascii "1") (.calm 10) signedIn
  have hid : idOf (ascii "1") = some 1 := by decide
  obtain ⟨id, hsame, hrevoked⟩ := hdone (hcalm (fun _ => rfl) (by decide) (by rw [hid]; rfl))
  cases hid.symm.trans hsame
  exact hrevoked

end Comax.Server
