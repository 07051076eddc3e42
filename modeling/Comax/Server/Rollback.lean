import Comax.Server.History

/-!
# Rollback under concurrency

A rollback reads the current version and the target with single statements and
writes in a transaction of its own. What it has read of the project, the environment
and the target version stays true until then; the current version need not. The
rollback has the effect that it would have at the moment of its commit exactly when
the key is still live there at the version it has read.
-/

namespace Comax.Server

open Comax.Core Comax.Store

/-- The handler of a rollback, run on its own. -/
def rollbackAlone (srv : Server) (actor : Option ServiceToken) (rq : Request) (p e k : Str)
    (o : Moment) (db : Database) : Database :=
  ((srv.handleRollbackSecret actor rq p e k).alone o db).2

/-- A rollback that led from `db` to `db'` did what the whole handler would have done in `db`, and
its audit row has the version that was current there. -/
structure RollbackAtomic (srv : Server) (actor : Option ServiceToken) (rq : Request)
    (p e k : Str) (o : Moment) (db db' : Database) : Prop where
  secrets : db'.secrets = (srv.rollbackAlone actor rq p e k o db).secrets
  secretVersions : db'.secretVersions = (srv.rollbackAlone actor rq p e k o db).secretVersions
  auditLog : db'.auditLog = (srv.rollbackAlone actor rq p e k o db).auditLog
  fromVersion : ∃ project env current toVersion entry, Located p e project env db ∧
    SecretRepo.byKey env.id k db = .ok current ∧ rq.body.targetVersion = some toVersion ∧
    db'.auditLog.rows = db.auditLog.rows ++ [entry] ∧
    entry.target = rollbackTarget project env k current.version toVersion

/-- The key of a path is live in `db`, at the version that it had in `seen`. -/
def CurrentUnchanged (p e k : Str) (seen db : Database) : Prop :=
  ∃ project env current current', Located p e project env db ∧
    SecretRepo.byKey env.id k seen = .ok current ∧ SecretRepo.byKey env.id k db = .ok current' ∧
    current'.version = current.version

/-! ## What a rollback has read -/

/-- What a rollback has checked before its transaction: the names of its path, its body, and that
the target opens. -/
structure RollbackReads (srv : Server) (rq : Request) (p e k : Str) (project : Project)
    (env : Environment) (current : Secret) (target : SecretVersion) (toVersion : Int)
    (plain : Str) : Prop where
  projectValid : srv.validateName "project" p = .ok ()
  envValid : srv.validateName "env" e = .ok ()
  keyValid : srv.validateName "key" k = .ok ()
  body : rq.body.targetVersion = some toVersion
  positive : ¬ toVersion ≤ 0
  differs : toVersion ≠ current.version
  opened : ∃ master, rq.inputs.masterKey = some master ∧
    srv.gcm.open master target.ciphertext = some plain

/-- A value that is needed is there, and nothing is met. -/
theorem ends_need {α : Type} {refuse : Response} {v : Option α} {xs : List (Moment × Database)}
    {a : α} (h : (need refuse v).Ends xs a) : xs = [] ∧ v = some a := by
  obtain ⟨hxs, hv⟩ := h.of_lift
  refine ⟨hxs, ?_⟩
  cases v with
  | some b =>
    cases hv
    rfl
  | none => cases hv

/-- `resolveEnv` has found the project and then the environment. -/
theorem ends_resolveEnv {srv : Server} {p e : Str} {xs : List (Moment × Database)}
    {pe : Project × Environment} (h : (srv.resolveEnv p e).Ends xs pe) :
    ∃ x y, xs = [x, y] ∧ srv.validateName "project" p = .ok () ∧
      srv.validateName "env" e = .ok () ∧ ProjectRepo.byName p x.2 = .ok pe.1 ∧
      EnvRepo.byName pe.1.id e y.2 = .ok pe.2 := by
  obtain ⟨xs₁, rest₁, project, rfl, hproject, h₁⟩ := h.of_bind
  obtain ⟨xs₂, rest₂, _, rfl, hvalid, h₂⟩ := h₁.of_bind
  obtain ⟨xs₃, rest₃, env, rfl, henv, h₃⟩ := h₂.of_bind
  obtain ⟨xs₄, rest₄, _, rfl, hpvalid, h₄⟩ := hproject.of_bind
  cases h₃
  obtain ⟨rfl, hp⟩ := ends_check hpvalid
  obtain ⟨rfl, he⟩ := ends_check hvalid
  obtain ⟨x, rfl, hx⟩ := ends_lookup h₄
  obtain ⟨y, rfl, hy⟩ := ends_lookup henv
  exact ⟨x, y, rfl, hp, he, hx, hy⟩

/-- A rollback that has returned read the project, the environment, the current version and the
target, one after another, and then committed its transaction. -/
theorem ends_handleRollbackSecret {srv : Server} {actor : Option ServiceToken} {rq : Request}
    {p e k : Str} {xs : List (Moment × Database)} {resp : Response}
    (h : (srv.handleRollbackSecret actor rq p e k).Ends xs resp) :
    ∃ xp xe xc xt x project env current target toVersion plain up,
      xs = [xp, xe, xc, xt] ++ [x] ∧
      RollbackReads srv rq p e k project env current target toVersion plain ∧
      ProjectRepo.byName p xp.2 = .ok project ∧ EnvRepo.byName project.id e xe.2 = .ok env ∧
      SecretRepo.byKey env.id k xc.2 = .ok current ∧
      VersionRepo.byVersion current.id toVersion xt.2 = .ok target ∧
      (committed internalError (internal "commit failed")
        (restoreVersion actor project env k current target toVersion) x.1 x.2).1 = .ok up ∧
      (srv.handleRollbackSecret actor rq p e k).resume [xp, xe, xc, xt] = (do
        let up ← transaction internalError (internal "commit failed")
          (restoreVersion actor project env k current target toVersion)
        return writeOK 200 (secretData up.secret plain)) := by
  obtain ⟨xs₁, rest₁, ⟨project, env⟩, rfl, hloc, h₁⟩ := h.of_bind
  obtain ⟨xs₂, rest₂, _, rfl, hvalid, h₂⟩ := h₁.of_bind
  obtain ⟨xs₃, rest₃, toVersion, rfl, hbody, h₃⟩ := h₂.of_bind
  obtain ⟨xp, xe, rfl, hp, he, hproject, henv⟩ := ends_resolveEnv hloc
  obtain ⟨rfl, hk⟩ := ends_check hvalid
  obtain ⟨rfl, hto⟩ := ends_need hbody
  split at h₃
  · cases h₃
  · rename_i hpos
    obtain ⟨xs₄, rest₄, current, rfl, hcurrent, h₄⟩ := h₃.of_bind
    obtain ⟨xc, rfl, hc⟩ := ends_lookup hcurrent
    split at h₄
    · cases h₄
    · rename_i hdiffers
      obtain ⟨xs₅, rest₅, target, rfl, htarget, h₅⟩ := h₄.of_bind
      obtain ⟨xs₆, rest₆, master, rfl, hmaster, h₆⟩ := h₅.of_bind
      obtain ⟨xs₇, rest₇, plain, rfl, hplain, h₇⟩ := h₆.of_bind
      obtain ⟨xs₈, rest₈, up, rfl, hup, h₈⟩ := h₇.of_bind
      obtain ⟨xt, rfl, ht⟩ := ends_lookup htarget
      obtain ⟨rfl, hm⟩ := ends_need hmaster
      obtain ⟨rfl, ho⟩ := ends_need hplain
      obtain ⟨x, rfl, hx⟩ := hup.of_act
      cases h₈
      refine ⟨xp, xe, xc, xt, x, project, env, current, target, toVersion, plain, up, rfl,
        ⟨hp, he, hk, hto, hpos, hdiffers, master, hm, ho⟩, hproject, henv, hc, ht, hx, ?_⟩
      refine (hloc.resume_bind _ [xc, xt]).trans ?_
      refine (hvalid.resume_bind _ [xc, xt]).trans ?_
      refine (hbody.resume_bind _ [xc, xt]).trans ?_
      rw [if_neg hpos]
      refine (hcurrent.resume_bind _ [xt]).trans ?_
      rw [if_neg hdiffers]
      refine (htarget.resume_bind _ []).trans ?_
      refine (hmaster.resume_bind _ []).trans ?_
      refine (hplain.resume_bind _ []).trans ?_
      exact Prog.resume_nil _

/-! ## The handler on its own -/

/-- A response changes nothing that the transaction before it has done. -/
theorem alone_transaction {α : Type} {onBegin onCommit : Response} (body : Tx Response α)
    (f : α → Response) (o : Moment) (db : Database) :
    ((transaction onBegin onCommit body >>= fun a => pure (f a)).alone o db).2 =
      (committed onBegin onCommit body o db).2 := by
  have hact : (transaction onBegin onCommit body).alone o db =
      committed onBegin onCommit body o db := Prog.alone_act _ _ _
  cases hc : committed onBegin onCommit body o db with
  | mk r db' =>
    rw [hc] at hact
    cases r with
    | ok a =>
      rw [Prog.alone_bind hact]
      rfl
    | error e => rw [Prog.alone_bind_error hact]

/-- A check that succeeds, run on its own. -/
theorem alone_check {α : Type} {m : Except Failure α} {a : α} (h : m = .ok a) (o : Moment)
    (db : Database) : (check m).alone o db = (.ok a, db) := by
  rw [check, Prog.alone_lift, h]
  rfl

/-- A needed value that is there, run on its own. -/
theorem alone_need {α : Type} {refuse : Response} {v : Option α} {a : α} (h : v = some a)
    (o : Moment) (db : Database) : (need refuse v).alone o db = (.ok a, db) := by
  rw [need, Prog.alone_lift, h]
  rfl

/-- `resolveEnv` on its own finds what the path names. -/
theorem alone_resolveEnv {srv : Server} {p e : Str} {project : Project} {env : Environment}
    {o : Moment} {db : Database} (hfail : o.fails 0 = false)
    (hp : srv.validateName "project" p = .ok ()) (he : srv.validateName "env" e = .ok ())
    (hloc : Located p e project env db) :
    (srv.resolveEnv p e).alone o db = (.ok (project, env), db) := by
  have hproject : (srv.resolveProject p).alone o db = (.ok project, db) :=
    (Prog.alone_bind (alone_check hp o db) _).trans (alone_lookup_ok hfail hloc.projectName)
  refine (Prog.alone_bind hproject _).trans ?_
  refine (Prog.alone_bind (alone_check he o db) _).trans ?_
  exact Prog.alone_bind (alone_lookup_ok hfail hloc.envName) _

/-- What a rollback does on its own where its path is located: nothing if the key is not live, or
already at the target version, or if the target is not recorded or does not open. -/
theorem rollbackAlone_eq {srv : Server} (actor : Option ServiceToken) {rq : Request}
    {p e k : Str} {project : Project} {env : Environment} {toVersion : Int} {master : Str}
    {o : Moment} {db : Database} (hfail : o.fails 0 = false)
    (hp : srv.validateName "project" p = .ok ()) (he : srv.validateName "env" e = .ok ())
    (hk : srv.validateName "key" k = .ok ()) (hto : rq.body.targetVersion = some toVersion)
    (hpos : ¬ toVersion ≤ 0) (hmaster : rq.inputs.masterKey = some master)
    (hloc : Located p e project env db) :
    srv.rollbackAlone actor rq p e k o db =
      match SecretRepo.byKey env.id k db with
      | .error _ => db
      | .ok current =>
        if toVersion = current.version then db
        else
          match VersionRepo.byVersion current.id toVersion db with
          | .error _ => db
          | .ok target =>
            match srv.gcm.open master target.ciphertext with
            | none => db
            | some _ => (committed internalError (internal "commit failed")
                (restoreVersion actor project env k current target toVersion) o db).2 := by
  unfold rollbackAlone handleRollbackSecret
  rw [Prog.alone_bind (alone_resolveEnv hfail hp he hloc), Prog.alone_bind (alone_check hk o db),
    Prog.alone_bind (alone_need hto o db), if_neg hpos]
  cases hcurrent : SecretRepo.byKey env.id k db with
  | error err => rw [Prog.alone_bind_error (alone_lookup_error hfail hcurrent)]
  | ok current =>
    rw [Prog.alone_bind (alone_lookup_ok hfail hcurrent)]
    by_cases hdiffers : toVersion = current.version
    · simp only [if_pos hdiffers]
      rfl
    · simp only [if_neg hdiffers]
      cases htarget : VersionRepo.byVersion current.id toVersion db with
      | error err => rw [Prog.alone_bind_error (alone_lookup_error hfail htarget)]
      | ok target =>
        rw [Prog.alone_bind (alone_lookup_ok hfail htarget),
          Prog.alone_bind (alone_need hmaster o db)]
        cases hopen : srv.gcm.open master target.ciphertext with
        | none =>
          simp only [hopen]
          rfl
        | some plain =>
          simp only [hopen]
          exact alone_transaction _ _ o db

/-! ## What the transaction leaves behind -/

/-- The statements that follow a change of a secret append one audit entry. -/
theorem wp_announce_audit (actor : Option ServiceToken) (p : Project) (e : Environment)
    (key event : Str) (version : Int) (target : Str) (s : Session) :
    wp (announce actor p e key event version target) s (fun _ s' => ∃ entry,
      s'.db.auditLog.rows = s.db.auditLog.rows ++ [entry] ∧ entry.target = target)
      fun _ => True := by
  unfold announce appendAudit enqueueWebhooks
  simp only [bind_assoc, wp_bind]
  apply Tx.wp_stmt
  intro now entry db haudit
  obtain ⟨hentry, t, hins, rfl⟩ := AuditRepo.append_eq_ok haudit
  simp only [wp_pure, Tx.wp_clock]
  apply Tx.wp_stmt
  intro _ hooks db₁ hread
  obtain ⟨-, rfl⟩ := Tx.read_eq_ok.mp hread
  have hkeeps : ∀ payload, Tx.Keeps (fun x y : Database => x.auditLog = y.auditLog)
      (enqueueEach event payload hooks) := by
    intro payload
    refine (everyTxRules ?_ ?_).enqueueEach ?_ _ _ _
    · exact fun _ => rfl
    · exact fun _ _ _ h h' => h.trans h'
    · intro id event payload now db d db' h
      obtain ⟨-, t, -, rfl⟩ := DeliveryRepo.enqueue_eq_ok h
      rfl
  refine wp_mono (hkeeps _ _) (fun _ s' hs' => ⟨entry, ?_, ?_⟩) fun _ h => h
  · rw [← hs', (Table.insert_eq_some.mp hins).2]
  · rw [hentry]

/-- The statements that write a version append one audit entry, with the target they are given. -/
theorem wp_writeVersion_audit (actor : Option ServiceToken) (p : Project) (e : Environment)
    (key ct event : Str) (target : Secret → Str) (s : Session) :
    wp (writeVersion actor p e key ct event target) s (fun up s' => ∃ entry,
      s'.db.auditLog.rows = s.db.auditLog.rows ++ [entry] ∧ entry.target = target up.secret)
      fun _ => True := by
  apply wp_writeVersion
  intro up v s₁ _ _ honly
  have haudit : s₁.db.auditLog = s.db.auditLog := by rw [honly]
  rw [← haudit]
  exact wp_announce_audit actor p e key event _ _ s₁

/-- A committed rollback appended an audit entry with the version it had read. -/
theorem audit_of_committed {actor : Option ServiceToken} {project : Project} {env : Environment}
    {k : Str} {current : Secret} {target : SecretVersion} {toVersion : Int} {o : Moment}
    {db : Database} {up : SecretRepo.UpsertResult} {onBegin onCommit : Response}
    (h : (committed onBegin onCommit
      (restoreVersion actor project env k current target toVersion) o db).1 = .ok up) :
    ∃ entry, (committed onBegin onCommit (restoreVersion actor project env k current target
        toVersion) o db).2.auditLog.rows = db.auditLog.rows ++ [entry] ∧
      entry.target = rollbackTarget project env k current.version toVersion := by
  rcases committed_cases onBegin onCommit
    (restoreVersion actor project env k current target toVersion) o db with
    ⟨r, hc⟩ | ⟨a, s, hbody, hc⟩
  · rw [hc] at h
    cases h
  · rw [hc]
    exact wp_ok (wp_writeVersion_audit actor project env k _ _ _ ⟨o, 1, db⟩) hbody

/-- A transaction that commits has begun. -/
theorem begins_of_committed {ρ α : Type} {onBegin onCommit : ρ} {body : Tx ρ α} {o : Moment}
    {db : Database} {a : α} (h : (committed onBegin onCommit body o db).1 = .ok a) :
    o.fails 0 = false := by
  unfold committed at h
  split at h
  · cases h
  · rename_i hfail
    simpa using hfail

/-! ## The law -/

/-- A path names one environment. -/
theorem Located.unique {p e : Str} {project project' : Project} {env env' : Environment}
    {db : Database} (h : Located p e project env db) (h' : Located p e project' env' db) :
    project' = project ∧ env' = env := by
  have hproject := h.projectName.symm.trans h'.projectName
  cases hproject
  have henv := h.envName.symm.trans h'.envName
  cases henv
  exact ⟨rfl, rfl⟩

/-- The text of an audit entry tells the version that was replaced. -/
theorem rollbackTarget_injective {p : Project} {e : Environment} {key : Str}
    {a b toVersion : Int}
    (h : rollbackTarget p e key a toVersion = rollbackTarget p e key b toVersion) : a = b := by
  simp only [rollbackTarget, List.append_assoc, List.append_cancel_left_eq,
    List.append_cancel_right_eq] at h
  exact formatInt_injective h

/-- A live key is found under the id of any earlier row of it. -/
theorem byKey_id {envID : Int} {k : Str} {seen db : Database} {current current' : Secret}
    (hlater : Later seen db) (h : SecretRepo.byKey envID k seen = .ok current)
    (h' : SecretRepo.byKey envID k db = .ok current') : current'.id = current.id := by
  obtain ⟨hmem, hkey⟩ := Table.of_find?_eq_some (found_eq_ok.mp h)
  obtain ⟨hmem', hkey'⟩ := Table.of_find?_eq_some (found_eq_ok.mp h')
  simp only [Bool.and_eq_true, decide_eq_true_eq] at hkey hkey'
  obtain ⟨r, hr, hsame⟩ := hlater.secrets current hmem
  have hrow : current' = r := secret_eq_of_key db hmem' hr
    (hkey'.1.1.trans (hkey.1.1.symm.trans hsame.envID.symm))
    (hkey'.1.2.trans (hkey.1.2.symm.trans hsame.key.symm))
  rw [hrow]
  exact hsame.id

/-- The law for one commit: `seen` is the database in which the current version was read. -/
theorem rollbackAtomic_iff {srv : Server} {actor : Option ServiceToken} {rq : Request}
    {p e k : Str} {project : Project} {env : Environment} {current : Secret}
    {target : SecretVersion} {toVersion : Int} {plain : Str} {o : Moment} {seen db : Database}
    {up : SecretRepo.UpsertResult}
    (hreads : RollbackReads srv rq p e k project env current target toVersion plain)
    (hlater : Later seen db) (hloc : Located p e project env db)
    (hseen : SecretRepo.byKey env.id k seen = .ok current)
    (htarget : VersionRepo.byVersion current.id toVersion db = .ok target)
    (hcommit : (committed internalError (internal "commit failed")
      (restoreVersion actor project env k current target toVersion) o db).1 = .ok up) :
    RollbackAtomic srv actor rq p e k o db (committed internalError (internal "commit failed")
      (restoreVersion actor project env k current target toVersion) o db).2 ↔
      CurrentUnchanged p e k seen db := by
  obtain ⟨entry, hrows, hentry⟩ := audit_of_committed hcommit
  constructor
  · intro h
    obtain ⟨project', env', current', toVersion', entry', hloc', hcurrent', hbody', hrows',
      hentry'⟩ := h.fromVersion
    obtain ⟨rfl, rfl⟩ := hloc.unique hloc'
    cases hreads.body.symm.trans hbody'
    have hsame : entry' = entry := by
      have happend := hrows'.symm.trans hrows
      simpa using happend
    rw [hsame, hentry] at hentry'
    exact ⟨project', env', current, current', hloc', hseen, hcurrent',
      (rollbackTarget_injective hentry').symm⟩
  · rintro ⟨project', env', seen', current', hloc', hseen', hcurrent', hversion⟩
    obtain ⟨rfl, rfl⟩ := hloc.unique hloc'
    cases hseen.symm.trans hseen'
    obtain ⟨master, hmaster, hopen⟩ := hreads.opened
    have hid := byKey_id hlater hseen hcurrent'
    have hdiffers : toVersion ≠ current'.version := by
      rw [hversion]
      exact hreads.differs
    have hbody : restoreVersion actor project' env' k current' target toVersion =
        restoreVersion actor project' env' k current target toVersion := by
      unfold restoreVersion
      rw [hversion]
    have halone := rollbackAlone_eq actor (begins_of_committed hcommit)
      hreads.projectValid hreads.envValid hreads.keyValid hreads.body hreads.positive hmaster hloc
    simp only [hcurrent', if_neg hdiffers, hid, htarget, hopen, hbody] at halone
    constructor
    · rw [halone]
    · rw [halone]
    · rw [halone]
    · refine ⟨project', env', current', toVersion, entry, hloc', hcurrent', hreads.body, hrows, ?_⟩
      rw [hentry, hversion]

/-- A rollback that has been served has the effect of the whole handler at the moment of its
commit if and only if its key is live there, at the version that the handler has read. -/
theorem rollback_atomic_iff (srv : Server) {start : Database → Prop}
    {s s' : Shared Request Moment Database} (h : (srv.system start).Reachable s) {i : ℕ}
    {o : Moment} (hn : (srv.system start).next (.advance i o) s = some s')
    {proc : Process Request Moment Database} (hp : s'.procs i = some proc) {p e k : Str}
    (hroute : proc.name.route = .rollbackSecret p e k) {resp : Response}
    (hresp : srv.served proc = some resp) :
    ∃ actor met xp xe xc xt, proc.past = met ++ [xp, xe, xc, xt, (o, s.state)] ∧
      (srv.authMiddleware proc.name).Ends met actor ∧
      (RollbackAtomic srv actor proc.name p e k o s.state s'.state ↔
        CurrentUnchanged p e k xc.2 s.state) := by
  obtain ⟨q, β, t, rest, hq, hat, rfl⟩ := interleave.next_advance hn
  simp only [Function.update_self, Option.some.injEq] at hp
  subst hp
  have hends := Prog.Ends.of_last hat (Prog.returned_eq_some.mp hresp)
  obtain ⟨met, later, actor, hpast, hauth, hhandle⟩ := hends.of_bind
  simp only at hroute hauth hhandle ⊢
  rw [hroute] at hhandle
  obtain ⟨xp, xe, xc, xt, x, project, env, current, target, toVersion, plain, up, rfl, hreads,
    hproject, henv, hcurrent, htarget, hcommit, hresume⟩ := ends_handleRollbackSecret hhandle
  rw [← List.append_assoc] at hpast
  obtain ⟨hbefore, hlast⟩ := List.append_inj' hpast rfl
  cases hlast
  have hmet : ∀ x ∈ q.past, Later x.2 s.state :=
    interleave.past_state (Later.serve srv) Later.refl Later.trans h i q hq
  rw [hbefore] at hmet hat ⊢
  have hloc : Located p e project env s.state :=
    ⟨(hmet xp (by simp)).projectByName hproject, (hmet xe (by simp)).envByName henv⟩
  have hstep : (srv.serve q.name).resume (met ++ [xp, xe, xc, xt]) =
      (srv.handleRollbackSecret actor q.name p e k).resume [xp, xe, xc, xt] := by
    refine (hauth.resume_bind _ _).trans ?_
    rw [hroute]
    rfl
  rw [hstep, hresume] at hat
  cases hat
  refine ⟨actor, met, xp, xe, xc, xt, by simp, hauth, ?_⟩
  exact rollbackAtomic_iff hreads (hmet xc (by simp)) hloc hcurrent
    ((hmet xt (by simp)).byVersion htarget) hcommit

/-- A request to roll the key back to its first version. -/
def rollbackRequest : Request :=
  bearerRequest .post (keyPath ++ ["rollback"]) { noFields with targetVersion := some 1 }

/-- A key has two versions, and a rollback has taken all its actions but the last. -/
def beforeCommit : List (Turn Request Moment) :=
  setUp ++ atOnce 3 (bearerRequest .put keyPath { noFields with value := some (ascii "a") }) 5 13 ++
    atOnce 4 (bearerRequest .put keyPath { noFields with value := some (ascii "b") }) 5 14 ++
    atOnce 5 rollbackRequest 6 15

/-- The rollback of `rollbackRequest` has been served, and the keys around its last action are
as described. -/
def servedRollback (before after : List Secret → Bool) (now : Int)
    (s : Shared Request Moment Database) : Bool :=
  before s.state.secrets.rows &&
    ((plainServer.system (· = .empty)).next (.advance 5 (.calm now)) s).any fun s' =>
      after s'.state.secrets.rows && (s'.procs 5).any fun proc =>
        proc.name.route = .rollbackSecret (ascii "p") (ascii "e") (ascii "k") &&
          (plainServer.served proc).isSome

/-- What `servedRollback` checks. -/
theorem exists_of_servedRollback {before after : List Secret → Bool} {now : Int}
    {s : Shared Request Moment Database} (h : servedRollback before after now s = true) :
    before s.state.secrets.rows = true ∧ ∃ s' proc resp,
      (plainServer.system (· = .empty)).next (.advance 5 (.calm now)) s = some s' ∧
      s'.procs 5 = some proc ∧
      proc.name.route = .rollbackSecret (ascii "p") (ascii "e") (ascii "k") ∧
      plainServer.served proc = some resp ∧ after s'.state.secrets.rows = true := by
  obtain ⟨hbefore, hnext⟩ := Bool.and_eq_true_iff.mp h
  obtain ⟨s', hs', hnext⟩ := (Option.any_eq_true _ _).mp hnext
  obtain ⟨hafter, hproc⟩ := Bool.and_eq_true_iff.mp hnext
  obtain ⟨proc, hp, hproc⟩ := (Option.any_eq_true _ _).mp hproc
  obtain ⟨hroute, hserved⟩ := Bool.and_eq_true_iff.mp hproc
  obtain ⟨resp, hresp⟩ := Option.isSome_iff_exists.mp hserved
  exact ⟨hbefore, s', proc, resp, hs', hp, of_decide_eq_true hroute, hresp, hafter⟩

set_option maxRecDepth 4000 in
/-- The law at a rollback that nothing interrupts: it writes the third version. -/
theorem rollback_atomic_iff_uninterrupted :
    ∃ s s' proc,
      (plainServer.system (· = .empty)).run beforeCommit ⟨.empty, fun _ => none⟩ = some s ∧
      (plainServer.system (· = .empty)).next (.advance 5 (.calm 15)) s = some s' ∧
      s'.procs 5 = some proc ∧ s'.state.secrets.rows.map (·.version) = [3] ∧
      ∃ actor met xp xe xc xt, proc.past = met ++ [xp, xe, xc, xt, (.calm 15, s.state)] ∧
        (plainServer.authMiddleware proc.name).Ends met actor ∧
        (RollbackAtomic plainServer actor proc.name (ascii "p") (ascii "e") (ascii "k") (.calm 15)
          s.state s'.state ↔
          CurrentUnchanged (ascii "p") (ascii "e") (ascii "k") xc.2 s.state) := by
  have hrun : ((plainServer.system (· = .empty)).run beforeCommit ⟨.empty, fun _ => none⟩).any
      (servedRollback (fun _ => true) (fun rows => rows.map (·.version) = [3]) 15) = true := by
    decide +kernel
  obtain ⟨s, hs, hreach, hserved⟩ := exists_reachable hrun
  obtain ⟨-, s', proc, resp, hs', hp, hroute, hresp, hversion⟩ := exists_of_servedRollback hserved
  exact ⟨s, s', proc, hs, hs', hp, of_decide_eq_true hversion,
    rollback_atomic_iff plainServer hreach hs' hp hroute hresp⟩

set_option maxRecDepth 4000 in
/-- A rollback whose key is deleted before its commit brings the key back. -/
theorem rollback_resurrects :
    ∃ s s' proc resp, (plainServer.system (· = .empty)).Reachable s ∧
      (plainServer.system (· = .empty)).next (.advance 5 (.calm 17)) s = some s' ∧
      s'.procs 5 = some proc ∧
      proc.name.route = .rollbackSecret (ascii "p") (ascii "e") (ascii "k") ∧
      plainServer.served proc = some resp ∧
      (∀ r ∈ s.state.secrets.rows, r.deletedAt ≠ none) ∧
      (∃ r ∈ s'.state.secrets.rows, r.deletedAt = none) ∧
      ∀ actor, ¬ RollbackAtomic plainServer actor proc.name (ascii "p") (ascii "e") (ascii "k")
        (.calm 17) s.state s'.state := by
  have hrun : ((plainServer.system (· = .empty)).run
      (beforeCommit ++ atOnce 6 (bearerRequest .delete keyPath noFields) 5 16)
      ⟨.empty, fun _ => none⟩).any
      (servedRollback (fun rows => rows.all fun r => r.deletedAt ≠ none)
        (fun rows => rows.any fun r => r.deletedAt = none) 17) = true := by
    decide +kernel
  obtain ⟨s, hs, hreach, hserved⟩ := exists_reachable hrun
  obtain ⟨hdeleted, s', proc, resp, hs', hp, hroute, hresp, hlive⟩ :=
    exists_of_servedRollback hserved
  have hnone : ∀ r ∈ s.state.secrets.rows, r.deletedAt ≠ none := by
    simpa using hdeleted
  refine ⟨s, s', proc, resp, hreach, hs', hp, hroute, hresp, hnone, by simpa using hlive, ?_⟩
  intro actor hatomic
  obtain ⟨project, env, current, _, _, -, hcurrent, -⟩ := hatomic.fromVersion
  obtain ⟨hmem, hkey⟩ := Table.of_find?_eq_some (found_eq_ok.mp hcurrent)
  simp only [Bool.and_eq_true, decide_eq_true_eq] at hkey
  exact hnone current hmem hkey.2

end Comax.Server
