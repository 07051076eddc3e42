import Comax.Server.History
import Comax.Server.Rollback

/-!
# The reads of the version history

The timeline of an environment and the plaintext of one version. Both handlers see
soft-deleted secrets as well. Their lookups are statements of their own, so the
requests of others may run between them.
-/

namespace Comax.Store

open Comax.Core

namespace SecretRepo

/-- `SecretRepo.ByKeyAny`: the secret of a key, soft-deleted or not. -/
def byKeyAny (envID : Int) (key : Str) (db : Database) : Except StoreError Secret :=
  found (db.secrets.find? fun s => s.envID = envID && s.key = key)

/-- `SecretRepo.ListByEnvAny`: the secrets of an environment, soft-deleted ones as well. -/
def listByEnvAny (envID : Int) (db : Database) : List Secret :=
  (db.secrets.rows.filter fun s => s.envID = envID).insertionSort fun a b => a.key ≤ b.key

/-- What `ByKeyAny` finds is the row of the key. -/
theorem byKeyAny_eq_ok {envID : Int} {key : Str} {db : Database} {s : Secret} :
    byKeyAny envID key db = .ok s ↔ s ∈ db.secrets.rows ∧ s.envID = envID ∧ s.key = key := by
  constructor
  · intro h
    obtain ⟨hmem, hkey⟩ := Table.of_find?_eq_some (found_eq_ok.mp h)
    exact ⟨hmem, by simpa using hkey⟩
  · rintro ⟨hmem, hkey⟩
    refine found_eq_ok.mpr (Table.find?_eq_some _ hmem (by simpa using hkey) fun x hx hxk => ?_)
    have hxk : x.envID = envID ∧ x.key = key := by simpa using hxk
    exact secret_eq_of_key db hx hmem (hxk.1.trans hkey.1.symm) (hxk.2.trans hkey.2.symm)

end SecretRepo

namespace VersionRepo

/-- `VersionRepo.ListBySecret`: the versions of a secret, newest first. -/
def listBySecret (secretID : Int) (db : Database) : List SecretVersion :=
  (db.secretVersions.rows.filter fun v => v.secretID = secretID).insertionSort
    fun a b => b.version ≤ a.version

/-- A recorded version is found. -/
theorem byVersion_of_mem {db : Database} {v : SecretVersion} (h : v ∈ db.secretVersions.rows) :
    byVersion v.secretID v.version db = .ok v := by
  refine byVersion_eq_ok.mpr (Table.find?_eq_some _ h (by simp) fun x hx hxk => ?_)
  have hxk : x.secretID = v.secretID ∧ x.version = v.version := by simpa using hxk
  exact db.secretVersions.eq_of_clash hx h (by simp [Row.key, Row.clash, hxk])
    (by simp [Row.key, Row.clash, hxk])

end VersionRepo

end Comax.Store

namespace Comax.Server

open Comax.Core Comax.Store

/-- `secretVersionView` -/
structure SecretVersionView where
  /-- `key` -/
  key : Str
  /-- `version` -/
  version : Int
  /-- `value` -/
  value : Str
  /-- `actor_token_id` -/
  actorTokenID : Option Int
  /-- `created_at` -/
  createdAt : Int
  deriving DecidableEq

/-- `versionView` -/
structure VersionView where
  /-- `id` -/
  id : Int
  /-- `secret_id` -/
  secretID : Int
  /-- `version` -/
  version : Int
  /-- `ciphertext_size` -/
  ciphertextSize : ℕ
  /-- `actor_token_id` -/
  actorTokenID : Option Int
  /-- `created_at` -/
  createdAt : Int
  deriving DecidableEq

/-- `handleGetVersion` -/
def handleGetVersion (srv : Server) (rq : Request) (p e k v : Str) :
    Handler SecretVersionView := do
  let pe ← srv.resolveEnv p e
  check (srv.validateName "key" k)
  let version ← pathID "version must be a positive integer" v
  let sec ← autocommitOr storeError (Tx.read fun _ => SecretRepo.byKeyAny pe.2.id k)
  let found ← autocommitOr storeError (Tx.read fun _ => VersionRepo.byVersion sec.id version)
  let master ← need (internal "key unavailable") rq.inputs.masterKey
  let plain ← need (internal "decrypt failed") (srv.gcm.open master found.ciphertext)
  return ⟨k, found.version, plain, found.actorToken, found.createdAt⟩

/-- The view of one version. -/
def versionView (v : SecretVersion) : VersionView :=
  ⟨v.id, v.secretID, v.version, v.ciphertext.length, v.actorToken, v.createdAt⟩

/-- The loop of `handleListVersions`. -/
def listEach : List Secret → Handler (List VersionView)
  | [] => return []
  | sec :: secrets => do
    let vs ← autocommitOr storeError
      (Tx.read fun _ db => .ok (VersionRepo.listBySecret sec.id db))
    let rest ← listEach secrets
    return vs.map versionView ++ rest

/-- `handleListVersions` -/
def handleListVersions (srv : Server) (p e : Str) : Handler (List VersionView) := do
  let pe ← srv.resolveEnv p e
  let secrets ← autocommitOr storeError
    (Tx.read fun _ db => .ok (SecretRepo.listByEnvAny pe.2.id db))
  listEach secrets

/-! ## A version that was written is read -/

/-- The version of a view stands in the history of the key that the path names, and opens to the
value of the view. -/
def Readable (srv : Server) (master p e : Str) (view : SecretVersionView) (db : Database) : Prop :=
  ∃ project env sec v, Located p e project env db ∧
    SecretRepo.byKeyAny env.id view.key db = .ok sec ∧
    VersionRepo.byVersion sec.id view.version db = .ok v ∧
    srv.gcm.open master v.ciphertext = some view.value ∧
    view.actorTokenID = v.actorToken ∧ view.createdAt = v.createdAt

/-- The version that a response announces is readable. -/
def Announces (srv : Server) (rq : Request) (p e k : Str) (resp : Response) (db : Database) :
    Prop :=
  ∀ id key value version updatedAt, resp.body = .ok (.secret id key value version updatedAt) →
    ∃ master view, rq.inputs.masterKey = some master ∧ view.key = k ∧ view.value = value ∧
      view.version = version ∧ srv.Readable master p e view db

variable {srv : Server} {rq : Request} {actor : Option ServiceToken} {p e k : Str}

/-- A lookup that finds its answer in the database it meets returns it. -/
theorem ends_lookup_ok {α : Type} {refuse : StoreError → Response}
    {f : Int → Database → Except StoreError α} {x : Moment × Database} {a : α}
    (hfail : x.1.fails 0 = false) (h : f (x.1.now 0) x.2 = .ok a) :
    (autocommitOr refuse (Tx.read f) : Handler α).Ends [x] a := by
  have hact : (single (Tx.read f) x.1 x.2 : Except Response _ × _).1 = .ok (.ok a) := by
    simp [single, Tx.attempt, Tx.read, hfail, h, Except.map]
  exact .atomic hact (.ret a)

/-- A check that succeeds goes on. -/
theorem ends_check_ok {α : Type} {m : Except Failure α} {a : α} (h : m = .ok a) :
    (check m).Ends [] a := by
  rw [h]
  exact .ret a

/-- A value that is there goes on. -/
theorem ends_need_some {α : Type} {refuse : Response} {o : Option α} {a : α} (h : o = some a) :
    (need refuse o).Ends [] a := by
  rw [h]
  exact .ret a

/-- A version is readable in later databases. -/
theorem Readable.later {master : Str} {view : SecretVersionView} {db db' : Database}
    (h : srv.Readable master p e view db) (hl : Later db db') :
    srv.Readable master p e view db' := by
  obtain ⟨project, env, sec, v, hloc, hsec, hver, hrest⟩ := h
  obtain ⟨hmem, henv, hkey⟩ := SecretRepo.byKeyAny_eq_ok.mp hsec
  obtain ⟨sec', hmem', hsame⟩ := hl.secrets sec hmem
  refine ⟨project, env, sec', v, hl.located hloc, ?_, ?_, hrest⟩
  · exact SecretRepo.byKeyAny_eq_ok.mpr
      ⟨hmem', hsame.envID.trans henv, hsame.key.trans hkey⟩
  · rw [hsame.id]
    exact hl.byVersion hver

/-- A write of the key records what it sealed. -/
theorem readable_of_recorded {master value : Str} {project : Project} {env : Environment}
    {db db' : Database} {s' : Secret} {v : SecretVersion} (hrec : Recorded db db' s' v)
    (hloc : Located p e project env db') (henv : s'.envID = env.id) (hkey : s'.key = k)
    (hopen : srv.gcm.open master s'.ciphertext = some value) :
    srv.Readable master p e ⟨k, s'.version, value, v.actorToken, v.createdAt⟩ db' := by
  have hmem : v ∈ db'.secretVersions.rows := by
    rw [hrec.appended]
    exact List.mem_append_right _ (List.mem_singleton_self _)
  refine ⟨project, env, s', v, hloc, ?_, ?_, ?_, rfl, rfl⟩
  · exact SecretRepo.byKeyAny_eq_ok.mpr ⟨hrec.written.mem, henv, hkey⟩
  · rw [← hrec.secretID, ← hrec.version]
    exact VersionRepo.byVersion_of_mem hmem
  · rw [hrec.ciphertext]
    exact hopen

/-- The statements that write a version write the ciphertext that they are given. -/
theorem wp_writeVersion_ciphertext (actor : Option ServiceToken) (project : Project)
    (env : Environment) (key ct event : Str) (target : Secret → Str) (s : Session) :
    wp (writeVersion actor project env key ct event target) s
      (fun up _ => up.secret.ciphertext = ct) fun _ => True := by
  unfold writeVersion
  rw [wp_bind]
  apply Tx.wp_stmt
  intro now up db₁ hup
  rw [wp_bind]
  apply Tx.wp_stmt
  intro now' v db₂ _
  rw [wp_bind]
  exact wp_mono (announced _ _ _ _ _ _ _ _) (fun _ _ _ => (upsert_row hup).2.2) fun _ h => h

/-- The transaction that writes a version, and the response that it ends in. -/
theorem meets_writeVersion {master value ct event : Str} {project : Project} {env : Environment}
    {target : Secret → Str} {db : Database} (status : SecretRepo.UpsertResult → ℕ)
    (hmaster : rq.inputs.masterKey = some master) (hloc : Located p e project env db)
    (hopen : srv.gcm.open master ct = some value) :
    (do
      let up ← transaction internalError (internal "commit failed")
        (writeVersion actor project env k ct event target)
      return writeOK (status up) (secretData up.secret value) : Handler Response).Meets Later
        (fun _ _ => True) db fun resp db' => srv.Announces rq p e k resp db' := by
  apply Prog.Meets.bind
  apply Prog.meets_act
  intro o db₁ hl
  refine ⟨trivial, fun up hup => ?_⟩
  rcases committed_cases internalError (internal "commit failed")
    (writeVersion actor project env k ct event target) o db₁ with ⟨r, hc⟩ | ⟨up', s', hbody, hc⟩
  · rw [hc] at hup
    cases hup
  · rw [hc] at hup ⊢
    cases hup
    obtain ⟨⟨henv, hkey⟩, v, hrec⟩ := wp_ok (wp_writeVersion_recorded actor project env k ct event
      target ⟨o, 1, db₁⟩) hbody
    have hct := wp_ok (wp_writeVersion_ciphertext actor project env k ct event target
      ⟨o, 1, db₁⟩) hbody
    have hafter : Later db₁ s'.db :=
      wp_ok (Q := fun _ s' => Later db₁ s'.db)
        (Later.statements.toWrites.writeVersion _ _ _ _ _ _ ⟨o, 1, db₁⟩) hbody
    intro id key value' version updatedAt hresp
    cases hresp
    refine ⟨master, _, hmaster, rfl, rfl, rfl, readable_of_recorded hrec
      ((hl.trans _ _ _ hafter).located hloc) henv hkey ?_⟩
    rw [hct]
    exact hopen

/-- What a sealed value opens to under the key that sealed it. -/
theorem open_of_seal {gcm : Crypto.AEAD} (hgcm : gcm.Lawful) {master nonce value ct : Str}
    (hnonce : nonce.length = Crypto.nonceSize) (h : gcm.seal master nonce value = some ct) :
    gcm.open master ct = some value := by
  unfold Crypto.AEAD.seal at h
  split at h
  · rename_i hkey
    cases h
    rw [Crypto.AEAD.open_sealed hgcm hnonce, if_pos hkey]
    exact hgcm.opens _ _ _ hkey hnonce
  · cases h

/-- A value that is needed is there. -/
theorem need_ok {α : Type} {refuse : Response} {o : Option α} {a : α}
    (h : o.elim (.error refuse) Except.ok = .ok a) : o = some a := by
  cases o with
  | none => cases h
  | some b =>
    cases h
    rfl

/-- A PUT. -/
theorem announces_handlePutSecret (hgcm : srv.gcm.Lawful)
    (hnonce : ∀ nonce ∈ rq.inputs.nonce, nonce.length = Crypto.nonceSize) (db : Database) :
    (srv.handlePutSecret actor rq p e k).Meets Later (fun _ _ => True) db
      fun resp db' => srv.Announces rq p e k resp db' := by
  apply Prog.Meets.bind
  refine (meets_resolveEnv (fun _ => trivial) srv p e db).mono fun pe db₁ hloc => ?_
  apply Prog.meets_lift_bind
  intro _ _
  apply Prog.meets_lift_bind
  intro value _
  apply Prog.meets_lift_bind
  intro master hmaster
  apply Prog.meets_lift_bind
  intro ct hct
  obtain ⟨nonce, hdrawn, hseal⟩ := Option.bind_eq_some_iff.mp (need_ok hct)
  exact meets_writeVersion _ (need_ok hmaster) hloc (open_of_seal hgcm (hnonce nonce hdrawn) hseal)

/-- A rollback. -/
theorem announces_handleRollbackSecret (db : Database) :
    (srv.handleRollbackSecret actor rq p e k).Meets Later (fun _ _ => True) db
      fun resp db' => srv.Announces rq p e k resp db' := by
  apply Prog.Meets.bind
  refine (meets_resolveEnv (fun _ => trivial) srv p e db).mono fun pe db₁ hloc => ?_
  apply Prog.meets_lift_bind
  intro _ _
  apply Prog.meets_lift_bind
  intro targetVersion _
  split
  · trivial
  · apply Prog.Meets.bind
    refine meets_lookup (fun _ => trivial) fun _ db₂ current hl₂ _ => ?_
    split
    · trivial
    · apply Prog.Meets.bind
      refine meets_lookup (fun _ => trivial) fun _ db₃ target hl₃ _ => ?_
      apply Prog.meets_lift_bind
      intro master hmaster
      apply Prog.meets_lift_bind
      intro plain hplain
      exact meets_writeVersion (fun _ => 200) (need_ok hmaster)
        ((hl₂.trans _ _ _ hl₃).located hloc) (need_ok hplain)

/-- A request that writes the key. -/
theorem meets_serve_write (hgcm : srv.gcm.Lawful)
    (hnonce : ∀ nonce ∈ rq.inputs.nonce, nonce.length = Crypto.nonceSize)
    (hroute : rq.route = .putSecret p e k ∨ rq.route = .rollbackSecret p e k) (db : Database) :
    (srv.serve rq).Meets Later (fun _ _ => True) db
      fun resp db' => srv.Announces rq p e k resp db' := by
  have hauth : (srv.authMiddleware rq).Every fun _ _ => True :=
    every_authMiddleware (fun _ => trivial) (fun _ _ _ _ _ _ => trivial) srv rq
  apply Prog.Meets.bind
  refine hauth.meets.mono fun actor db₁ _ => ?_
  rcases hroute with hroute | hroute
  · rw [hroute]
    exact announces_handlePutSecret hgcm hnonce db₁
  · rw [hroute]
    exact announces_handleRollbackSecret db₁

/-- The names in the path of a write that was served are valid. -/
theorem validNames_of_served {proc : Process Request Moment Database} {resp : Response}
    (hroute : proc.name.route = .putSecret p e k ∨ proc.name.route = .rollbackSecret p e k)
    (h : srv.served proc = some resp) : srv.validateName "project" p = .ok () ∧
      srv.validateName "env" e = .ok () ∧ srv.validateName "key" k = .ok () := by
  obtain ⟨met, rest, -, hends⟩ := Prog.Ends.of_resume (Prog.returned_eq_some.mp h)
  obtain ⟨xs, ys, actor, -, -, hhandle⟩ := hends.of_bind
  rcases hroute with hroute | hroute
  all_goals
    rw [hroute] at hhandle
    obtain ⟨xs₁, rest₁, pe, -, henv, h₁⟩ := hhandle.of_bind
    obtain ⟨xs₂, rest₂, _, -, hkey, -⟩ := h₁.of_bind
    obtain ⟨x, y, -, hp, he, -⟩ := ends_resolveEnv henv
    exact ⟨hp, he, (ends_check hkey).2⟩

/-- A read of a readable version, whatever later databases its lookups meet. -/
theorem ends_handleGetVersion {master v : Str} {view : SecretVersionView} {db : Database}
    {xs : List (Moment × Database)} (h : srv.Readable master p e view db)
    (hp : srv.validateName "project" p = .ok ()) (he : srv.validateName "env" e = .ok ())
    (hk : srv.validateName "key" view.key = .ok ()) (hmaster : rq.inputs.masterKey = some master)
    (hv : parseInt64 v = some view.version) (hpos : 0 < view.version) (hlen : xs.length = 4)
    (hxs : ∀ x ∈ xs, x.1.fails 0 = false ∧ Later db x.2) :
    (srv.handleGetVersion rq p e view.key v).Ends xs view := by
  obtain ⟨x₁, x₂, x₃, x₄, rfl⟩ : ∃ x₁ x₂ x₃ x₄, xs = [x₁, x₂, x₃, x₄] := by
    match xs, hlen with
    | [x₁, x₂, x₃, x₄], _ => exact ⟨x₁, x₂, x₃, x₄, rfl⟩
  simp only [List.forall_mem_cons] at hxs
  obtain ⟨⟨hf₁, hl₁⟩, ⟨hf₂, hl₂⟩, ⟨hf₃, hl₃⟩, ⟨hf₄, hl₄⟩, -⟩ := hxs
  obtain ⟨project, env, sec, found, hloc, hsec, hver, hopen, hactor, hcreated⟩ := h
  have hproject : (srv.resolveProject p).Ends [x₁] project :=
    (ends_check_ok hp).bind (ends_lookup_ok hf₁ (hl₁.projectByName hloc.projectName))
  have henv : (srv.resolveEnv p e).Ends [x₁, x₂] (project, env) :=
    hproject.bind ((ends_check_ok he).bind
      ((ends_lookup_ok hf₂ (hl₂.envByName hloc.envName)).bind (.ret _)))
  obtain ⟨hmem, hid, hkey⟩ := SecretRepo.byKeyAny_eq_ok.mp hsec
  obtain ⟨sec', hmem', hsame⟩ := hl₃.secrets sec hmem
  have hsec' : SecretRepo.byKeyAny env.id view.key x₃.2 = .ok sec' :=
    SecretRepo.byKeyAny_eq_ok.mpr ⟨hmem', hsame.envID.trans hid, hsame.key.trans hkey⟩
  have hver' : VersionRepo.byVersion sec'.id view.version x₄.2 = .ok found := by
    rw [hsame.id]
    exact hl₄.byVersion hver
  have hid : (parseInt64 v).filter (fun id => decide (0 < id)) = some view.version := by
    rw [hv]
    simp [hpos]
  have hview : view =
      ⟨view.key, found.version, view.value, found.actorToken, found.createdAt⟩ := by
    have hversion : found.version = view.version := by
      have hprop := (Table.of_find?_eq_some (VersionRepo.byVersion_eq_ok.mp hver)).2
      simp only [Bool.and_eq_true, decide_eq_true_eq] at hprop
      exact hprop.2
    rw [hversion, ← hactor, ← hcreated]
  have hrest : (do
      let master ← need (internal "key unavailable") rq.inputs.masterKey
      let plain ← need (internal "decrypt failed") (srv.gcm.open master found.ciphertext)
      return ⟨view.key, found.version, plain, found.actorToken, found.createdAt⟩ :
        Handler SecretVersionView).Ends [] view := by
    refine (ends_need_some hmaster).bind ((ends_need_some hopen).bind ?_)
    rw [← hview]
    exact .ret view
  exact henv.bind ((ends_check_ok hk).bind ((ends_need_some hid).bind
    ((ends_lookup_ok hf₃ hsec').bind ((ends_lookup_ok hf₄ hver').bind hrest))))

/-- A version in a complete history is positive. -/
theorem VersionHistory.version_pos {db : Database} (h : VersionHistory db) {v : SecretVersion}
    (hv : v ∈ db.secretVersions.rows) : 0 < v.version := by
  obtain ⟨s, hs, hid⟩ := h.owned v hv
  have hmem : v.version ∈ (history db s.id).map (·.version) :=
    List.mem_map_of_mem (List.mem_filter.mpr ⟨hv, by simp [hid]⟩)
  rw [h.complete s hs] at hmem
  obtain ⟨n, -, hn⟩ := List.mem_map.mp hmem
  omega

/-- In every run of the server, a PUT or a rollback that is answered with a version has made it
readable for good: every read of that version whose lookups meet the database later in the run, and
go through, returns the same view with the value that was announced, however the key is written,
deleted or rolled back in the meantime. -/
theorem written_version_readable (srv : Server) (hgcm : srv.gcm.Lawful)
    {s : Shared Request Moment Database} (h : (srv.system (· = .empty)).Reachable s) {i : ℕ}
    {proc : Process Request Moment Database} (hp : s.procs i = some proc) {p e k : Str}
    (hroute : proc.name.route = .putSecret p e k ∨ proc.name.route = .rollbackSecret p e k)
    (hnonce : ∀ nonce ∈ proc.name.inputs.nonce, nonce.length = Crypto.nonceSize)
    {status : ℕ} {id version updatedAt : Int} {key value : Str}
    (hserved : srv.served proc =
      some (writeOK status (.secret id key value version updatedAt))) :
    ∃ view : SecretVersionView, view.key = k ∧ view.version = version ∧ view.value = value ∧
      ∀ (rq : Request) (v : Str) (xs : List (Moment × Database)),
        rq.inputs.masterKey = proc.name.inputs.masterKey → parseInt64 v = some version →
        xs.length = 4 →
        (∀ x ∈ xs, x.1.fails 0 = false ∧
          ∃ s', (srv.system (· = .empty)).Leads (fun _ _ => True) s s' ∧ x.2 = s'.state) →
        (srv.handleGetVersion rq p e k v).Ends xs view := by
  obtain ⟨hvp, hve, hvk⟩ := validNames_of_served hroute hserved
  obtain ⟨db, hdb, hrest⟩ := interleave.meets_of_reach (Later.serve srv) Later.refl Later.trans
    (meets_serve_write hgcm hnonce hroute) h i proc hp rfl
  rw [Prog.returned_eq_some.mp hserved] at hrest
  obtain ⟨master, view, hmaster, rfl, hvalue, rfl, hread⟩ :=
    hrest id key value version updatedAt rfl
  have hpos : 0 < view.version := by
    obtain ⟨_, _, sec, v, -, -, hver, -⟩ := hread.later hdb
    obtain ⟨hmem, hprop⟩ := Table.of_find?_eq_some (VersionRepo.byVersion_eq_ok.mp hver)
    simp only [Bool.and_eq_true, decide_eq_true_eq] at hprop
    rw [← hprop.2]
    exact (version_history srv h).1.version_pos hmem
  refine ⟨view, rfl, rfl, hvalue, fun rq v xs hkeys hparse hlen hxs => ?_⟩
  refine ends_handleGetVersion hread hvp hve hvk (hkeys.trans hmaster) hparse hpos hlen ?_
  intro x hx
  obtain ⟨hfails, s', hleads, hstate⟩ := hxs x hx
  refine ⟨hfails, hdb.trans _ _ _ ?_⟩
  rw [hstate]
  exact interleave.leads_state (Later.serve srv) Later.refl Later.trans hleads

set_option maxRecDepth 4000 in
/-- The first version of a key that was deleted and written again is read. -/
theorem written_version_readable_putDeletePut : ∃ s view,
    (plainServer.system (· = .empty)).run putDeletePut ⟨.empty, fun _ => none⟩ = some s ∧
      s.state.secrets.rows.map (·.version) = [2] ∧ view.value = ascii "a" ∧
      (plainServer.handleGetVersion (bearerRequest .get [] noFields) (ascii "p") (ascii "e")
        (ascii "k") (ascii "1")).Ends (List.replicate 4 (.calm 20, s.state)) view := by
  have hrun : ((plainServer.system (· = .empty)).run putDeletePut ⟨.empty, fun _ => none⟩).any
      (fun s => s.state.secrets.rows.map (·.version) = [2] && (s.procs 3).any fun proc =>
        proc.name.route = .putSecret (ascii "p") (ascii "e") (ascii "k") &&
        (proc.name.inputs.nonce = some (List.replicate Crypto.nonceSize 0) &&
          proc.name.inputs.masterKey = some Crypto.plainKey) &&
        plainServer.served proc =
          some (writeOK 201 (.secret 1 (ascii "k") (ascii "a") 1 13))) = true := by
    decide +kernel
  obtain ⟨s, hs, hreach, htest⟩ := exists_reachable hrun
  obtain ⟨hversion, hproc⟩ := Bool.and_eq_true_iff.mp htest
  obtain ⟨proc, hp, hproc⟩ := (Option.any_eq_true _ _).mp hproc
  simp only [Bool.and_eq_true, decide_eq_true_eq] at hproc hversion
  obtain ⟨⟨hroute, hnonce, hmaster⟩, hserved⟩ := hproc
  obtain ⟨view, -, -, hvalue, hread⟩ := written_version_readable plainServer
    Crypto.plainGCM_lawful hreach hp (.inl hroute)
    (fun nonce hn => by rw [hnonce, Option.mem_some_iff] at hn; rw [← hn, List.length_replicate])
    hserved
  refine ⟨s, view, hs, hversion, hvalue, hread _ _ _ hmaster.symm (by decide) rfl ?_⟩
  intro x hx
  rw [List.eq_of_mem_replicate hx]
  exact ⟨rfl, s, .refl, rfl⟩

/-! ## The timeline -/

/-- The version of a secret, zero when there is none. -/
def currentVersion (db : Database) (id : Int) : Int :=
  (db.secrets.find? fun s => s.id = id).elim 0 (·.version)

/-- The versions `n, …, 1` of a secret. -/
def countdown (id n : Int) : List (Int × Int) := (versionsUpTo n).reverse.map (id, ·)

/-- The versions up to `n` are sorted. -/
theorem sorted_versionsUpTo (n : Int) : (versionsUpTo n).Pairwise (· ≤ ·) := by
  refine List.pairwise_map.mpr (List.pairwise_lt_range.imp fun h => ?_)
  omega

/-- In a database with complete histories, a secret's versions are listed from its current one down
to the first. -/
theorem VersionHistory.listBySecret {db : Database} (h : VersionHistory db) (id : Int) :
    (VersionRepo.listBySecret id db).map (fun v => (v.secretID, v.version)) =
      countdown id (currentVersion db id) := by
  have hid : ∀ v ∈ VersionRepo.listBySecret id db, v.secretID = id := by
    intro v hv
    exact of_decide_eq_true (List.mem_filter.mp ((List.mem_insertionSort _).mp hv)).2
  have hversions : (history db id).map (·.version) = versionsUpTo (currentVersion db id) := by
    rw [currentVersion]
    cases hf : db.secrets.find? fun s => s.id = id with
    | some s =>
      obtain ⟨hs, hsid⟩ := Table.of_find?_eq_some hf
      rw [← of_decide_eq_true hsid]
      exact h.complete s hs
    | none =>
      have hnone : history db id = [] := by
        refine List.filter_eq_nil_iff.mpr fun v hv hvid => ?_
        obtain ⟨s, hs, hsid⟩ := h.owned v hv
        have hne := List.find?_eq_none.mp hf s hs
        simp only [decide_eq_true_eq] at hvid hne
        exact hne (hsid.trans hvid)
      rw [hnone]
      rfl
  have hsorted : (VersionRepo.listBySecret id db).map (·.version) =
      (versionsUpTo (currentVersion db id)).reverse := by
    rw [VersionRepo.listBySecret,
      List.map_insertionSort _ (· ≥ ·) SecretVersion.version _ fun _ _ _ _ => Iff.rfl]
    refine List.Perm.eq_of_sortedGE (List.sortedGE_insertionSort)
      (List.sortedGE_reverse.mpr (sorted_versionsUpTo _).sortedLE) ?_
    exact (List.perm_insertionSort _ _).trans
      ((List.Perm.of_eq hversions).trans (List.reverse_perm _).symm)
  rw [countdown, ← hsorted, List.map_map]
  exact List.map_congr_left fun v hv => by rw [hid v hv]; rfl

/-- The loop over the secrets, with the databases that its lookups met. -/
theorem ends_listEach {secrets : List Secret} {xs : List (Moment × Database)}
    {out : List VersionView} (h : (listEach secrets).Ends xs out)
    (hxs : ∀ x ∈ xs, VersionHistory x.2) :
    xs.length = secrets.length ∧ out.map (fun v => (v.secretID, v.version)) =
      (List.zipWith (fun sec x => countdown sec.id (currentVersion x.2 sec.id))
        secrets xs).flatten := by
  induction secrets generalizing xs out with
  | nil =>
    cases h
    exact ⟨rfl, rfl⟩
  | cons sec secrets ih =>
    obtain ⟨ys, zs, vs, rfl, hlookup, hrest⟩ := h.of_bind
    obtain ⟨zs, us, rest, rfl, hloop, hret⟩ := hrest.of_bind
    cases hret
    obtain ⟨x, rfl, hvs⟩ := ends_lookup hlookup
    cases hvs
    simp only [List.append_nil, List.cons_append, List.nil_append, List.forall_mem_cons] at hxs ⊢
    obtain ⟨hlen, hout⟩ := ih hloop hxs.2
    refine ⟨by rw [List.length_cons, List.length_cons, hlen], ?_⟩
    rw [List.map_append, hout, List.map_map, List.zipWith_cons_cons, List.flatten_cons]
    congr 1
    exact hxs.1.listBySecret sec.id

/-- A timeline has each secret of the environment, soft-deleted or not, in the order of the keys,
and of each secret every version from the one that was current when its history was read down to
the first. -/
def WithoutGaps (p e : Str) (xs : List (Moment × Database)) (out : List VersionView) : Prop :=
  ∃ xp xe xl ys project env, xs = xp :: xe :: xl :: ys ∧
    ProjectRepo.byName p xp.2 = .ok project ∧ EnvRepo.byName project.id e xe.2 = .ok env ∧
    ys.length = (SecretRepo.listByEnvAny env.id xl.2).length ∧
    out.map (fun v => (v.secretID, v.version)) =
      (List.zipWith (fun sec y => countdown sec.id (currentVersion y.2 sec.id))
        (SecretRepo.listByEnvAny env.id xl.2) ys).flatten

/-- In every run of the server, the timeline of an environment has no gap, whatever other requests
do between its lookups. -/
theorem timeline_complete (srv : Server) {p e : Str} {xs : List (Moment × Database)}
    {out : List VersionView} (h : (srv.handleListVersions p e).Ends xs out)
    (hxs : ∀ x ∈ xs, ∃ s, (srv.system (· = .empty)).Reachable s ∧ x.2 = s.state) :
    WithoutGaps p e xs out := by
  obtain ⟨xs₁, rest₁, ⟨project, env⟩, rfl, henv, h₁⟩ := h.of_bind
  obtain ⟨xs₂, ys, secrets, rfl, hlist, h₂⟩ := h₁.of_bind
  obtain ⟨xp, xe, rfl, -, -, hproject, henv⟩ := ends_resolveEnv henv
  obtain ⟨xl, rfl, hsecrets⟩ := ends_lookup hlist
  cases hsecrets
  have hys : ∀ y ∈ ys, VersionHistory y.2 := by
    intro y hy
    obtain ⟨s, hs, hstate⟩ := hxs y (by simp [hy])
    rw [hstate]
    exact (version_history srv hs).1
  obtain ⟨hlen, hout⟩ := ends_listEach h₂ hys
  exact ⟨xp, xe, xl, ys, project, env, rfl, hproject, henv, hlen, hout⟩

set_option maxRecDepth 4000 in
/-- The timeline of a key that was written, deleted and written again. -/
theorem timeline_complete_putDeletePut : ∃ s met out,
    (plainServer.system (· = .empty)).run putDeletePut ⟨.empty, fun _ => none⟩ = some s ∧
      (∀ x ∈ met, x.2 = s.state) ∧ WithoutGaps (ascii "p") (ascii "e") met out ∧
      out.map (fun v => (v.secretID, v.version)) = [(1, 2), (1, 1)] := by
  have hrun : ((plainServer.system (· = .empty)).run putDeletePut ⟨.empty, fun _ => none⟩).any
      (fun s => ((plainServer.handleListVersions (ascii "p") (ascii "e")).resume
          (List.replicate 4 (.calm 20, s.state))).returned.any fun out =>
        out.map (fun v => (v.secretID, v.version)) = [(1, 2), (1, 1)]) = true := by
    decide +kernel
  obtain ⟨s, hs, hreach, htest⟩ := exists_reachable hrun
  obtain ⟨out, hout, htest⟩ := (Option.any_eq_true _ _).mp htest
  obtain ⟨met, rest, hmet, hends⟩ := Prog.Ends.of_resume (Prog.returned_eq_some.mp hout)
  have hstate : ∀ x ∈ met, x.2 = s.state := by
    intro x hx
    have hmem : x ∈ List.replicate 4 (Moment.calm 20, s.state) := by
      rw [hmet]
      exact List.mem_append_left rest hx
    rw [List.eq_of_mem_replicate hmem]
  exact ⟨s, met, out, hs, hstate, timeline_complete plainServer hends fun x hx =>
    ⟨s, hreach, hstate x hx⟩, of_decide_eq_true htest⟩

/-! ## A version number stands for a value -/

/-- In every run of the server, a secret that has the same version in two states has the same
sealed value in both: the version number never stands for two values. -/
theorem same_version_same_ciphertext (srv : Server) {s s' : Shared Request Moment Database}
    (h : (srv.system (· = .empty)).Reachable s)
    (hl : (srv.system (· = .empty)).Leads (fun _ _ => True) s s') {a b : Secret}
    (ha : a ∈ s.state.secrets.rows) (hb : b ∈ s'.state.secrets.rows) (hid : a.id = b.id)
    (hversion : a.version = b.version) : a.ciphertext = b.ciphertext := by
  have hlater : Later s.state s'.state :=
    interleave.leads_state (Later.serve srv) Later.refl Later.trans hl
  obtain ⟨v, hv, hvver, hvct⟩ := (version_history srv h).1.current a ha
  obtain ⟨w, hw, hwver, hwct⟩ := (version_history srv (h.leads hl)).1.current b hb
  obtain ⟨hv, hvid⟩ := List.mem_filter.mp hv
  obtain ⟨hw, hwid⟩ := List.mem_filter.mp hw
  simp only [decide_eq_true_eq] at hvid hwid
  have hvw : v = w := s'.state.secretVersions.eq_of_clash (hlater.secretVersions.subset hv) hw
    (by simp [Row.key, Row.clash, hvid, hwid, hid, hvver, hwver, hversion])
    (by simp [Row.key, Row.clash, hvid, hwid, hid, hvver, hwver, hversion])
  rw [← hvct, hvw, hwct]

/-- A PUT of one key. -/
def putOnce : List (Turn Request Moment) :=
  setUp ++ atOnce 3 (bearerRequest .put keyPath { noFields with value := some (ascii "a") }) 5 13

set_option maxRecDepth 4000 in
/-- A soft delete keeps the version and its sealed value. -/
theorem same_version_same_ciphertext_delete : ∃ s s' a b,
    (plainServer.system (· = .empty)).run putOnce ⟨.empty, fun _ => none⟩ = some s ∧
      a ∈ s.state.secrets.rows ∧ b ∈ s'.state.secrets.rows ∧
      (plainServer.system (· = .empty)).Leads (fun _ _ => True) s s' ∧
      b.deletedAt = some 14 ∧ a.version = b.version ∧ a.ciphertext = b.ciphertext := by
  have hrun : ((plainServer.system (· = .empty)).run putOnce ⟨.empty, fun _ => none⟩).any
      (fun s => ((plainServer.system (· = .empty)).run
        (atOnce 4 (bearerRequest .delete keyPath noFields) 5 14) s).any fun s' =>
          s.state.secrets.rows.head?.any fun a => s'.state.secrets.rows.head?.any fun b =>
            a.id = b.id && a.version = b.version && b.deletedAt = some 14) = true := by
    decide +kernel
  obtain ⟨s, hs, hreach, htest⟩ := exists_reachable hrun
  obtain ⟨s', hs', htest⟩ := (Option.any_eq_true _ _).mp htest
  obtain ⟨a, ha, htest⟩ := (Option.any_eq_true _ _).mp htest
  obtain ⟨b, hb, htest⟩ := (Option.any_eq_true _ _).mp htest
  simp only [Bool.and_eq_true, decide_eq_true_eq] at htest
  obtain ⟨⟨hid, hversion⟩, hdeleted⟩ := htest
  have hl := Machine.Leads.of_run (Machine.along_true _ _) hs'
  exact ⟨s, s', a, b, hs, List.mem_of_head? ha, List.mem_of_head? hb, hl, hdeleted, hversion,
    same_version_same_ciphertext plainServer hreach hl (List.mem_of_head? ha)
      (List.mem_of_head? hb) hid hversion⟩

end Comax.Server
