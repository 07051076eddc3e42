import Comax.Server.AuditEvents
import Comax.Server.Evolution

/-!
# What the audit log tells

Replaying the entries of the log one after the other gives the projects, the environments, the
version of every key and whether it is deleted, the tokens, the sessions and the webhooks. Here
is what each statement does to this view of the database.
-/

namespace Comax.Server

open Comax.Core Comax.Store

/-- What the log tells about the other tables. -/
@[ext] structure World where
  /-- The projects by name. -/
  projects : Str → Bool
  /-- The environments by their project and name. -/
  envs : Str → Str → Bool
  /-- The version of each key that was ever written, and whether it is live. -/
  keys : Str → Str → Str → Option (Int × Bool)
  /-- The names of the tokens, oldest first. -/
  tokens : List Str
  /-- Whether a token is revoked. -/
  revoked : Int → Bool
  /-- Whether a session is not revoked. -/
  sessions : Int → Option Bool
  /-- Whether a webhook is enabled. -/
  webhooks : Int → Option Bool

namespace World

/-- Nothing has happened. -/
def empty : World :=
  ⟨fun _ => false, fun _ _ => false, fun _ _ _ => none, [], fun _ => false, fun _ => none,
    fun _ => none⟩

/-- The key gets a new state. -/
def setKey (w : World) (p e k : Str) (state : Option (Int × Bool)) : World :=
  { w with keys := fun p' e' k' =>
      if p' = p ∧ e' = e ∧ k' = k then state else w.keys p' e' k' }

/-- What an event changes. -/
def apply (w : World) : AuditEvent → World
  | .bootstrapped token | .tokenCreated token => { w with tokens := w.tokens ++ [token] }
  | .sessionCreated _ id => { w with sessions := Function.update w.sessions id (some true) }
  | .sessionRevoked _ id | .sessionRevokedByID _ id =>
    { w with sessions := Function.update w.sessions id (some false) }
  | .projectCreated p => { w with projects := Function.update w.projects p true }
  | .envCreated p e => { w with envs := fun p' e' => decide (p' = p ∧ e' = e) || w.envs p' e' }
  | .tokenRevoked id => { w with revoked := Function.update w.revoked id true }
  | .webhookCreated _ id => { w with webhooks := Function.update w.webhooks id (some true) }
  | .webhookDeleted id => { w with webhooks := Function.update w.webhooks id none }
  | .webhookSet enabled id => { w with webhooks := Function.update w.webhooks id (some enabled) }
  | .secretUpserted p e k version => w.setKey p e k (some (version, true))
  | .secretRolledBack p e k _ _ =>
    w.setKey p e k (some ((w.keys p e k).elim 1 (·.1 + 1), true))
  | .secretDeleted p e k => w.setKey p e k ((w.keys p e k).map fun s => (s.1, false))

end World

/-- What the entries of a log tell, if all of them can be read. -/
def replay (entries : List AuditEntry) : Option World :=
  entries.foldlM (fun w entry => (eventOf entry).map w.apply) .empty

/-- One more entry. -/
theorem replay_concat (entries : List AuditEntry) (entry : AuditEntry) :
    replay (entries ++ [entry]) =
      replay entries >>= fun w => (eventOf entry).map w.apply := by
  rw [replay, List.foldlM_append]
  simp [replay]

/-! ## The view of a database -/

/-- The environment that a path names. -/
def envAt (db : Database) (p e : Str) : Option Environment :=
  (db.projects.find? fun r => r.name = p) >>= fun project =>
    db.environments.find? fun r => r.projectID = project.id && r.name = e

/-- The row of a key. -/
def rowAt (db : Database) (p e k : Str) : Option Secret :=
  envAt db p e >>= fun env => db.secrets.find? fun s => s.envID = env.id && s.key = k

/-- What the log should tell about the other tables. -/
def view (db : Database) : World where
  projects p := (db.projects.find? fun r => r.name = p).isSome
  envs p e := (envAt db p e).isSome
  keys p e k := (rowAt db p e k).map fun s => (s.version, s.deletedAt.isNone)
  tokens := db.serviceTokens.rows.map (·.name)
  revoked id := db.serviceTokens.rows.any fun t => t.id = id && t.revokedAt.isSome
  sessions id := (db.dashboardSessions.find? fun s => s.id = id).map fun s => s.revokedAt.isNone
  webhooks id := (db.webhooks.find? fun w => w.id = id).map (·.enabled)

/-- Environments belong to projects, and secrets to environments. -/
structure Grounded (db : Database) : Prop where
  envs : ∀ e ∈ db.environments.rows, ∃ p ∈ db.projects.rows, p.id = e.projectID
  secrets : ∀ s ∈ db.secrets.rows, ∃ e ∈ db.environments.rows, e.id = s.envID

/-- The change of the database that an event tells. -/
def Change (ev : AuditEvent) (db d : Database) : Prop :=
  d.auditLog = db.auditLog ∧ (Grounded db → Grounded d ∧ view d = (view db).apply ev)

section Projects

variable {db d : Database} {now : Int}

/-- A new project has no environments. -/
theorem change_projectCreate {name : Str} {p : Project}
    (h : ProjectRepo.create name now db = .ok (p, d)) : Change (.projectCreated name) db d := by
  obtain ⟨hp, t, hins, rfl⟩ := ProjectRepo.create_eq_ok h
  obtain ⟨hapart, hrows⟩ := Table.insert_eq_some.mp hins
  have hname : p.name = name := by rw [hp]
  have hfind := Table.find?_insert hins
  refine ⟨rfl, fun hg => ⟨⟨fun e he => ?_, hg.secrets⟩, ?_⟩⟩
  · obtain ⟨q, hq, hid⟩ := hg.envs e he
    exact ⟨q, by rw [hrows]; exact List.mem_append_left _ hq, hid⟩
  have henv : ∀ q e, envAt { db with projects := t } q e = envAt db q e := by
    intro q e
    rw [envAt, envAt, hfind]
    cases hold : db.projects.find? fun r => r.name = q with
    | some project => rfl
    | none =>
      split
      · simp only [Option.or_some, Option.getD_none, Option.bind_eq_bind, Option.bind_some,
          Option.bind_none]
        refine List.find?_eq_none.mpr fun r hr => ?_
        obtain ⟨x, hx, hid⟩ := hg.envs r hr
        have hne : x.id ≠ p.id := (hapart x hx).1
        simp [← hid, hne]
      · rfl
  have hrow : ∀ q e k, rowAt { db with projects := t } q e k = rowAt db q e k := by
    intro q e k
    rw [rowAt, rowAt, henv]
  refine World.ext ?_ ?_ ?_ rfl rfl rfl rfl
  · funext q
    change (t.find? fun r => r.name = q).isSome = _
    rw [hfind]
    by_cases hq : q = name
    · rw [hq, World.apply]
      simp [hname]
    · simp [World.apply, Function.update_of_ne hq, hname, Ne.symm hq, view]
  · funext q e
    exact congrArg Option.isSome (henv q e)
  · funext q e k
    exact congrArg (Option.map _) (hrow q e k)

/-- What the search for an environment finds. -/
theorem envAt_eq_some {p e : Str} {env : Environment} : envAt db p e = some env ↔
    ∃ project, db.projects.find? (fun r => r.name = p) = some project ∧
      db.environments.find? (fun r => r.projectID = project.id && r.name = e) = some env := by
  rw [envAt]
  exact Option.bind_eq_some_iff

/-- A path names the environment that it is located at. -/
theorem Located.envAt {p e : Str} {project : Project} {env : Environment}
    (h : Located p e project env db) : envAt db p e = some env :=
  envAt_eq_some.mpr ⟨project, found_eq_ok.mp h.projectName, found_eq_ok.mp h.envName⟩

/-- Two paths name one environment only if they are the same. -/
theorem path_of_envAt {p e p' e' : Str} {env env' : Environment} (h : envAt db p e = some env)
    (h' : envAt db p' e' = some env') (hid : env'.id = env.id) : p' = p ∧ e' = e := by
  obtain ⟨project, hproject, henv⟩ := envAt_eq_some.mp h
  obtain ⟨project', hproject', henv'⟩ := envAt_eq_some.mp h'
  obtain ⟨hmem, hname⟩ := Table.of_find?_eq_some hproject
  obtain ⟨hmem', hname'⟩ := Table.of_find?_eq_some hproject'
  obtain ⟨hmemenv, hkey⟩ := Table.of_find?_eq_some henv
  obtain ⟨hmemenv', hkey'⟩ := Table.of_find?_eq_some henv'
  simp only [decide_eq_true_eq, Bool.and_eq_true] at hname hname' hkey hkey'
  have hsame : env' = env := db.environments.eq_of_id_eq hmemenv' hmemenv hid
  rw [hsame] at hkey'
  have hprojects : project' = project :=
    db.projects.eq_of_id_eq hmem' hmem (hkey'.1.symm.trans hkey.1)
  refine ⟨?_, hkey'.2.symm.trans hkey.2⟩
  rw [← hname', ← hname, hprojects]

/-- A new environment has no keys. -/
theorem change_envCreate {p name inheritsFrom : Str} {project : Project} {e : Environment}
    (hproject : ProjectRepo.byName p db = .ok project)
    (h : EnvRepo.create project.id name inheritsFrom now db = .ok (e, d)) :
    Change (.envCreated p name) db d := by
  obtain ⟨he, t, hins, rfl⟩ := EnvRepo.create_eq_ok h
  obtain ⟨hapart, hrows⟩ := Table.insert_eq_some.mp hins
  have hproject := found_eq_ok.mp hproject
  obtain ⟨hmem, hpname⟩ := Table.of_find?_eq_some hproject
  have hpname := of_decide_eq_true hpname
  have hprojectID : e.projectID = project.id := by rw [he]
  have hname : e.name = name := by rw [he]
  have hfind := Table.find?_insert hins
  have hnone : db.environments.find? (fun r => r.projectID = project.id && r.name = name) =
      none := by
    refine List.find?_eq_none.mpr fun r hr hkey => ?_
    simp only [Bool.and_eq_true, decide_eq_true_eq] at hkey
    have hclash := (hapart r hr).2
    simp [Row.clash, Row.key, hkey, hprojectID, hname] at hclash
  refine ⟨rfl, fun hg => ⟨⟨fun r hr => ?_, fun s hs => ?_⟩, ?_⟩⟩
  · rw [hrows] at hr
    rcases List.mem_append.mp hr with hr | hr
    · exact hg.envs r hr
    · rw [List.mem_singleton.mp hr, hprojectID]
      exact ⟨project, hmem, rfl⟩
  · obtain ⟨r, hr, hid⟩ := hg.secrets s hs
    exact ⟨r, by rw [hrows]; exact List.mem_append_left _ hr, hid⟩
  have hhere : envAt { db with environments := t } p name = some e := by
    rw [envAt_eq_some]
    refine ⟨project, hproject, ?_⟩
    change t.find? _ = _
    rw [hfind, hnone]
    simp [hprojectID, hname]
  have hthere : ∀ p' e', ¬(p' = p ∧ e' = name) →
      envAt { db with environments := t } p' e' = envAt db p' e' := by
    intro p' e' hne
    rw [envAt, envAt]
    cases hfound : db.projects.find? fun r => r.name = p' with
    | none => rfl
    | some project' =>
      change t.find? _ = db.environments.find? _
      obtain ⟨hmem', hpname'⟩ := Table.of_find?_eq_some hfound
      have hmiss : ¬(e.projectID = project'.id && e.name = e') = true := by
        rw [Bool.and_eq_true, decide_eq_true_eq, decide_eq_true_eq, hprojectID, hname]
        rintro ⟨hid, rfl⟩
        refine hne ⟨?_, rfl⟩
        rw [← of_decide_eq_true hpname', ← hpname,
          db.projects.eq_of_id_eq hmem' hmem hid.symm]
      rw [hfind, if_neg hmiss, Option.or_none]
  have hrow : ∀ p' e' k, rowAt { db with environments := t } p' e' k = rowAt db p' e' k := by
    intro p' e' k
    rw [rowAt, rowAt]
    by_cases hpath : p' = p ∧ e' = name
    · have hold : envAt db p name = none := by
        rw [envAt, hproject]
        exact hnone
      rw [hpath.1, hpath.2, hhere, hold]
      refine List.find?_eq_none.mpr fun s hs => ?_
      obtain ⟨r, hr, hid⟩ := hg.secrets s hs
      have hne : r.id ≠ e.id := (hapart r hr).1
      simp [← hid, hne]
    · rw [hthere p' e' hpath]
  refine World.ext rfl ?_ ?_ rfl rfl rfl rfl
  · funext p' e'
    change (envAt { db with environments := t } p' e').isSome = _
    by_cases hpath : p' = p ∧ e' = name
    · rw [hpath.1, hpath.2, hhere]
      simp [World.apply]
    · rw [hthere p' e' hpath]
      simp [World.apply, hpath, view]
  · funext p' e' k
    exact congrArg (Option.map _) (hrow p' e' k)

end Projects

section Keys

variable {db d : Database} {now : Int} {p e k : Str} {env : Environment}
  (henv : envAt db p e = some env)
include henv

/-- What the search for a key finds. -/
theorem rowAt_eq : rowAt db p e k = db.secrets.find? fun s => s.envID = env.id && s.key = k := by
  rw [rowAt, henv]
  rfl

/-- A change of the row of one key. -/
theorem view_of_row {secrets : Table Secret} {state : Option (Int × Bool)}
    (hhere : (secrets.find? fun s => s.envID = env.id && s.key = k).map
      (fun s => (s.version, s.deletedAt.isNone)) = state)
    (hthere : ∀ (envID : Int) (k' : Str), ¬(envID = env.id ∧ k' = k) →
      secrets.find? (fun s => s.envID = envID && s.key = k') =
        db.secrets.find? fun s => s.envID = envID && s.key = k') :
    view { db with secrets } = (view db).setKey p e k state := by
  refine World.ext rfl rfl ?_ rfl rfl rfl rfl
  funext p' e' k'
  have hsame : envAt { db with secrets } p' e' = envAt db p' e' := rfl
  change (rowAt { db with secrets } p' e' k').map _ = if p' = p ∧ e' = e ∧ k' = k then _ else _
  split
  · rename_i hpath
    obtain ⟨rfl, rfl, rfl⟩ := hpath
    rw [rowAt_eq (hsame.trans henv)]
    exact hhere
  · rename_i hpath
    congr 1
    rw [rowAt, rowAt, hsame]
    cases hother : envAt db p' e' with
    | none => rfl
    | some env' =>
      refine hthere env'.id k' fun hkey => hpath ?_
      obtain ⟨hp, he⟩ := path_of_envAt henv hother hkey.1
      exact ⟨hp, he, hkey.2⟩

/-- An update of the row of one key. -/
theorem view_of_update {hit : Secret → Bool} {f : Secret → Secret}
    {hf : ∀ a, Row.id (f a) = Row.id a ∧ Row.key (f a) = Row.key a} {s : Secret}
    (hfound : db.secrets.find? (fun r => r.envID = env.id && r.key = k) = some s)
    (hs : hit s = true) (hhit : ∀ r, hit r = true → r.envID = env.id ∧ r.key = k) :
    view { db with secrets := db.secrets.update hit f hf } =
      (view db).setKey p e k (some ((f s).version, (f s).deletedAt.isNone)) := by
  have hfind : ∀ (envID : Int) (key : Str), (db.secrets.update hit f hf).find?
      (fun r => r.envID = envID && r.key = key) =
        (db.secrets.find? fun r => r.envID = envID && r.key = key).map
          fun r => if hit r then f r else r := by
    intro envID key
    refine Table.find?_update hf fun a => ?_
    have hkey : ((f a).envID, (f a).key) = (a.envID, a.key) := (hf a).2
    rw [(Prod.mk.inj hkey).1, (Prod.mk.inj hkey).2]
  refine view_of_row henv ?_ fun envID k' hne => ?_
  · rw [hfind, hfound, Option.map_some, if_pos hs, Option.map_some]
  · rw [hfind]
    cases hother : db.secrets.find? fun r => r.envID = envID && r.key = k' with
    | none => rfl
    | some r =>
      have hrkey := (Table.of_find?_eq_some hother).2
      simp only [Bool.and_eq_true, decide_eq_true_eq] at hrkey
      have hmiss : ¬hit r = true := fun hr => hne (by rw [← hrkey.1, ← hrkey.2]; exact hhit r hr)
      rw [Option.map_some, if_neg hmiss]

omit henv in
/-- The row of a key, when there is one. -/
theorem find?_key {s : Secret} (hs : s ∈ db.secrets.rows) (henvID : s.envID = env.id)
    (hkey : s.key = k) :
    db.secrets.find? (fun r => r.envID = env.id && r.key = k) = some s := by
  refine db.secrets.find?_eq_some hs (by simp [henvID, hkey]) fun x hx hxkey => ?_
  simp only [Bool.and_eq_true, decide_eq_true_eq] at hxkey
  exact secret_eq_of_key db hx hs (hxkey.1.trans henvID.symm) (hxkey.2.trans hkey.symm)

/-- An upsert writes the next version of its key. -/
theorem view_upsert {ct : Str} {up : SecretRepo.UpsertResult}
    (h : SecretRepo.upsert env.id k ct now db = .ok (up, d)) :
    view d = (view db).setKey p e k (some (up.secret.version, true)) ∧
      up.secret.version = ((view db).keys p e k).elim 1 (·.1 + 1) := by
  have hkeys : (view db).keys p e k =
      (rowAt db p e k).map fun s => (s.version, s.deletedAt.isNone) := rfl
  rw [hkeys, rowAt_eq henv]
  rcases SecretRepo.upsert_eq_ok h with ⟨s, hs, hkey, hup, rfl⟩ | ⟨hnew, hup, t, hins, rfl⟩
  · have hfound := find?_key hs hkey.1 hkey.2
    rw [hfound, hup]
    exact ⟨view_of_update henv hfound (by simp [hkey]) fun r hr => by simpa using hr, rfl⟩
  · have hnone : db.secrets.find? (fun r => r.envID = env.id && r.key = k) = none :=
      List.find?_eq_none.mpr fun s hs hkey => hnew s hs (by simpa using hkey)
    rw [hnone]
    refine ⟨view_of_row henv ?_ fun envID k' hne => ?_, by rw [hup]; rfl⟩
    · rw [Table.find?_insert hins, hnone, hup]
      simp
    · have hmiss : ¬(up.secret.envID = envID && up.secret.key = k') = true := by
        rw [Bool.and_eq_true, decide_eq_true_eq, decide_eq_true_eq, hup]
        exact fun hkey => hne ⟨hkey.1.symm, hkey.2.symm⟩
      rw [Table.find?_insert hins, if_neg hmiss, Option.or_none]

/-- A soft delete keeps the version of its key. -/
theorem view_delete {u : Unit} (h : SecretRepo.delete env.id k now db = .ok (u, d)) :
    view d = (view db).setKey p e k (((view db).keys p e k).map fun s => (s.1, false)) := by
  have hkeys : (view db).keys p e k =
      (rowAt db p e k).map fun s => (s.version, s.deletedAt.isNone) := rfl
  rw [hkeys, rowAt_eq henv]
  obtain ⟨⟨s, hs, henvID, hkey, hlive⟩, rfl⟩ := SecretRepo.delete_eq_ok h
  have hfound := find?_key hs henvID hkey
  rw [hfound]
  exact view_of_update henv hfound (by simp [henvID, hkey, hlive]) fun r hr => by
    simp only [Bool.and_eq_true, decide_eq_true_eq] at hr
    exact hr.1

/-- An upsert writes to a stored environment. -/
theorem grounded_upsert {ct : Str} {up : SecretRepo.UpsertResult} (hg : Grounded db)
    (h : SecretRepo.upsert env.id k ct now db = .ok (up, d)) : Grounded d := by
  obtain ⟨project, -, hfound⟩ := envAt_eq_some.mp henv
  obtain ⟨hmem, -⟩ := Table.of_find?_eq_some hfound
  rcases SecretRepo.upsert_eq_ok h with ⟨s, hs, hkey, hup, rfl⟩ | ⟨hnew, hup, t, hins, rfl⟩
  · refine ⟨hg.envs, fun x hx => ?_⟩
    obtain ⟨y, hy, rfl⟩ := List.mem_map.mp hx
    obtain ⟨r, hr, hid⟩ := hg.secrets y hy
    refine ⟨r, hr, ?_⟩
    split <;> exact hid
  · refine ⟨hg.envs, fun x hx => ?_⟩
    rw [(Table.insert_eq_some.mp hins).2] at hx
    rcases List.mem_append.mp hx with hx | hx
    · exact hg.secrets x hx
    · rw [List.mem_singleton.mp hx, hup]
      exact ⟨env, hmem, rfl⟩

omit henv in
/-- A soft delete keeps the environments of all keys. -/
theorem grounded_delete {envID : Int} {u : Unit} (hg : Grounded db)
    (h : SecretRepo.delete envID k now db = .ok (u, d)) : Grounded d := by
  obtain ⟨-, rfl⟩ := SecretRepo.delete_eq_ok h
  refine ⟨hg.envs, fun x hx => ?_⟩
  obtain ⟨y, hy, rfl⟩ := List.mem_map.mp hx
  obtain ⟨r, hr, hid⟩ := hg.secrets y hy
  refine ⟨r, hr, ?_⟩
  split <;> exact hid

end Keys

section Credentials

variable {db d : Database} {now : Int}

/-- A new token comes last and is not revoked. -/
theorem view_of_token {t : Table ServiceToken} {tok : ServiceToken}
    (hins : db.serviceTokens.insert tok = some t) (hlive : tok.revokedAt = none) :
    view { db with serviceTokens := t } =
      { view db with tokens := (view db).tokens ++ [tok.name] } := by
  have hrows := (Table.insert_eq_some.mp hins).2
  refine World.ext rfl rfl rfl ?_ ?_ rfl rfl
  · change t.rows.map _ = _
    rw [hrows, List.map_append]
    rfl
  · funext id
    change t.rows.any _ = _
    rw [hrows, List.any_append]
    simp [hlive, view]

/-- See `view_of_token`. -/
theorem change_bootstrap {name hash : Str} {tok : ServiceToken}
    (h : TokenRepo.bootstrapIfEmpty name hash now db = .ok (some tok, d)) :
    tok.name = name ∧ Change (.bootstrapped name) db d := by
  rcases TokenRepo.bootstrapIfEmpty_eq_ok h with ⟨hnone, -⟩ | ⟨-, t, htok, hins, rfl⟩
  · cases hnone
  · cases htok
    exact ⟨rfl, rfl, fun hg => ⟨⟨hg.envs, hg.secrets⟩, view_of_token hins rfl⟩⟩

/-- See `view_of_token`. -/
theorem change_tokenCreate {name hash : Str} {isAdmin : Bool} {tok : ServiceToken}
    (h : TokenRepo.create name hash isAdmin now db = .ok (tok, d)) :
    tok.name = name ∧ Change (.tokenCreated name) db d := by
  obtain ⟨rfl, t, hins, rfl⟩ := TokenRepo.create_eq_ok h
  exact ⟨rfl, rfl, fun hg => ⟨⟨hg.envs, hg.secrets⟩, view_of_token hins rfl⟩⟩

/-- Changes of rows that keep the names. -/
theorem names_of_map {l : List ServiceToken} {g : ServiceToken → ServiceToken}
    (hg : ∀ t, (g t).name = t.name) : (l.map g).map (·.name) = l.map (·.name) := by
  rw [List.map_map]
  exact List.map_congr_left fun t _ => hg t

/-- A revocation has a token to revoke. -/
theorem change_tokenRevoke {id : Int} {u : Unit} (h : TokenRepo.revoke id now db = .ok (u, d)) :
    Change (.tokenRevoked id) db d := by
  have hany : db.serviceTokens.rows.any (fun t => t.id = id && t.revokedAt = none) = true := by
    by_contra hnone
    rw [TokenRepo.revoke, if_neg hnone] at h
    cases h
  rw [TokenRepo.revoke_eq_ok h]
  refine ⟨rfl, fun hg => ⟨⟨hg.envs, hg.secrets⟩,
    World.ext rfl rfl rfl (names_of_map fun t => ?_) ?_ rfl rfl⟩⟩
  · split <;> rfl
  funext i
  change (List.map _ db.serviceTokens.rows).any _ = Function.update (view db).revoked id true i
  rw [List.any_map]
  by_cases hi : i = id
  · obtain ⟨t, ht, hlive⟩ := List.any_eq_true.mp hany
    rw [hi, Function.update_self, List.any_eq_true]
    refine ⟨t, ht, ?_⟩
    rw [Function.comp_apply, if_pos hlive]
    simp only [Bool.and_eq_true, decide_eq_true_eq] at hlive
    simp [hlive]
  · rw [Function.update_of_ne hi]
    refine List.any_congr rfl fun t => ?_
    rw [Function.comp_apply]
    split
    · rename_i hit
      simp only [Bool.and_eq_true, decide_eq_true_eq] at hit
      have hne : t.id ≠ i := fun he => hi (he.symm.trans hit.1)
      simp [hne]
    · rfl

/-- The bump of `last_used_at` shows nowhere. -/
theorem view_touch {id : Int} {u : Unit} (h : TokenRepo.touchLastUsed id now db = .ok (u, d)) :
    view d = view db := by
  rw [TokenRepo.touchLastUsed_eq_ok h]
  refine World.ext rfl rfl rfl (names_of_map fun t => ?_) ?_ rfl rfl
  · split <;> rfl
  funext i
  change (List.map _ db.serviceTokens.rows).any _ = db.serviceTokens.rows.any _
  rw [List.any_map]
  refine List.any_congr rfl fun t => ?_
  rw [Function.comp_apply]
  split <;> rfl

/-- A new session is not revoked. -/
theorem change_sessionCreate {input : SessionRepo.SessionCreateInput} {sess : DashboardSession}
    (tokenID : Int) (h : SessionRepo.create input now db = .ok (sess, d)) :
    Change (.sessionCreated tokenID sess.id) db d := by
  obtain ⟨hsess, t, hins, rfl⟩ := SessionRepo.create_eq_ok h
  have hlive : sess.revokedAt.isNone = true := by rw [hsess]; rfl
  have hread := Table.map_find?_id_insert hins fun s => s.revokedAt.isNone
  rw [hlive] at hread
  exact ⟨rfl, fun hg => ⟨⟨hg.envs, hg.secrets⟩, World.ext rfl rfl rfl rfl rfl hread rfl⟩⟩

/-- Revoking one session. -/
theorem view_of_revoke {hit : DashboardSession → Bool} {id : Int} {s : DashboardSession}
    (hs : s ∈ db.dashboardSessions.rows) (hhits : hit s = true)
    (hid : ∀ x, hit x = true → x.id = id) :
    view { db with
        dashboardSessions := db.dashboardSessions.update hit
          (fun s => { s with revokedAt := some now }) fun _ => ⟨rfl, rfl⟩ } =
      { view db with sessions := Function.update (view db).sessions id (some false) } := by
  have hrow : s.id = id := hid s hhits
  have honly : ∀ x : DashboardSession, hit x = true → x.id = s.id := fun x hx =>
    (hid x hx).trans hrow.symm
  rw [← hrow]
  refine World.ext rfl rfl rfl rfl rfl ?_ rfl
  exact Table.map_find?_id_update (fun s => { s with revokedAt := some now })
    (fun _ => ⟨rfl, rfl⟩) hs hhits honly fun s => s.revokedAt.isNone

/-- See `view_of_revoke`. -/
theorem change_sessionRevoke {id : Int} {u : Unit} (tokenID : Int)
    (h : SessionRepo.revoke id now db = .ok (u, d)) :
    Change (.sessionRevoked tokenID id) db d := by
  have hany : db.dashboardSessions.rows.any (fun s => s.id = id && s.revokedAt = none) = true := by
    by_contra hnone
    rw [SessionRepo.revoke, if_neg hnone] at h
    cases h
  obtain ⟨s, hs, hlive⟩ := List.any_eq_true.mp hany
  have hid : ∀ x : DashboardSession, (x.id = id && x.revokedAt = none) = true → x.id = id := by
    intro x hx
    simp only [Bool.and_eq_true, decide_eq_true_eq] at hx
    exact hx.1
  rw [SessionRepo.revoke_eq_ok h]
  exact ⟨rfl, fun hg => ⟨⟨hg.envs, hg.secrets⟩, view_of_revoke hs hlive hid⟩⟩

/-- Revoking a session by its id has one to revoke, or changes nothing. -/
theorem change_sessionRevokeByID {id tokenID : Int} {n : ℕ}
    (h : SessionRepo.revokeByIDAndTokenID id tokenID now db = .ok (n, d)) :
    (0 < n → Change (.sessionRevokedByID tokenID id) db d) ∧ (n = 0 → d = db) := by
  cases h
  refine ⟨fun hpos => ?_, fun hnone => ?_⟩
  · obtain ⟨s, hs⟩ := List.length_pos_iff_exists_mem.mp hpos
    obtain ⟨hs, hhits⟩ := List.mem_filter.mp hs
    have hid : ∀ x : DashboardSession,
        (x.id = id && x.tokenID = tokenID && x.revokedAt = none) = true → x.id = id := by
      intro x hx
      simp only [Bool.and_eq_true, decide_eq_true_eq] at hx
      exact hx.1.1
    exact ⟨rfl, fun hg => ⟨⟨hg.envs, hg.secrets⟩, view_of_revoke hs hhits hid⟩⟩
  · have hmiss := List.filter_eq_nil_iff.mp (List.length_eq_zero_iff.mp hnone)
    have hsame : ∀ t : Table DashboardSession, t.rows = db.dashboardSessions.rows →
        { db with dashboardSessions := t } = db := by
      intro t ht
      rw [Table.ext ht]
    refine hsame _ ((Table.rows_update ..).trans ?_)
    exact (List.map_congr_left fun s hs => if_neg (hmiss s hs)).trans (List.map_id _)

/-- A new webhook is enabled. -/
theorem change_webhookCreate {projectID : Int} {envID : Option Int} {url events ct p : Str}
    {w : Webhook} (h : WebhookRepo.create projectID envID url events ct now db = .ok (w, d)) :
    Change (.webhookCreated p w.id) db d := by
  obtain ⟨hw, t, hins, rfl⟩ := WebhookRepo.create_eq_ok h
  have henabled : w.enabled = true := by rw [hw]
  have hread := Table.map_find?_id_insert hins Webhook.enabled
  rw [henabled] at hread
  exact ⟨rfl, fun hg => ⟨⟨hg.envs, hg.secrets⟩, World.ext rfl rfl rfl rfl rfl rfl hread⟩⟩

/-- A deleted webhook is gone. -/
theorem change_webhookDelete {id : Int} {u : Unit} (h : WebhookRepo.delete id db = .ok (u, d)) :
    Change (.webhookDeleted id) db d := by
  rw [WebhookRepo.delete_eq_ok h]
  have hread := Table.map_find?_id_delete db.webhooks id Webhook.enabled
  exact ⟨rfl, fun hg => ⟨⟨hg.envs, hg.secrets⟩, World.ext rfl rfl rfl rfl rfl rfl hread⟩⟩

/-- A webhook that is enabled or disabled is there. -/
theorem change_webhookSet {id : Int} {enabled : Bool} {u : Unit}
    (h : WebhookRepo.setEnabled id enabled now db = .ok (u, d)) :
    Change (.webhookSet enabled id) db d := by
  have hany : db.webhooks.rows.any (fun w => w.id = id) = true := by
    by_contra hnone
    rw [WebhookRepo.setEnabled, if_neg hnone] at h
    cases h
  obtain ⟨w, hw, hhits⟩ := List.any_eq_true.mp hany
  obtain rfl : w.id = id := of_decide_eq_true hhits
  have honly : ∀ x : Webhook, decide (x.id = w.id) = true → x.id = w.id := fun _ hx =>
    of_decide_eq_true hx
  rw [WebhookRepo.setEnabled_eq_ok h]
  refine ⟨rfl, fun hg => ⟨⟨hg.envs, hg.secrets⟩, World.ext rfl rfl rfl rfl rfl rfl ?_⟩⟩
  exact Table.map_find?_id_update (fun w => { w with enabled, updatedAt := now })
    (fun _ => ⟨rfl, rfl⟩) hw hhits honly Webhook.enabled

end Credentials

end Comax.Server
