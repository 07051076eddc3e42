import Comax.Server.Gate

/-!
# The version history

A secret's version counter and its recorded versions are in two tables. Every
transaction that writes a secret moves both by one, a soft delete moves neither, and
no other request touches them, so the two agree in every state of every run.
-/

namespace Comax.Server

open Comax.Core Comax.Store

/-- The recorded versions of a secret, oldest first. -/
def history (db : Database) (id : Int) : List SecretVersion :=
  db.secretVersions.rows.filter fun v => v.secretID = id

/-- The versions `1, …, n`. -/
def versionsUpTo (n : Int) : List Int := (List.range n.toNat).map fun i : ℕ => (i : Int) + 1

/-- One more version. -/
theorem versionsUpTo_succ {n : Int} (h : 0 ≤ n) :
    versionsUpTo (n + 1) = versionsUpTo n ++ [n + 1] := by
  have hnat : (n + 1).toNat = n.toNat + 1 := by omega
  rw [versionsUpTo, hnat, List.range_succ, List.map_append, versionsUpTo, List.map_singleton,
    Int.toNat_of_nonneg h]

/-- The versions up to `n` are at most `n`. -/
theorem le_of_mem_versionsUpTo {n v : Int} (h : v ∈ versionsUpTo n) : v ≤ n := by
  obtain ⟨i, hi, rfl⟩ := List.mem_map.mp h
  have hlt := List.mem_range.mp hi
  omega

/-- The history of every secret is complete, and its last entry is the secret's value. -/
structure VersionHistory (db : Database) : Prop where
  positive : ∀ s ∈ db.secrets.rows, 1 ≤ s.version
  complete : ∀ s ∈ db.secrets.rows, (history db s.id).map (·.version) = versionsUpTo s.version
  current : ∀ s ∈ db.secrets.rows,
    ∃ v ∈ history db s.id, v.version = s.version ∧ v.ciphertext = s.ciphertext
  owned : ∀ v ∈ db.secretVersions.rows, ∃ s ∈ db.secrets.rows, s.id = v.secretID

/-- What a soft delete leaves of a secret. -/
def content (s : Secret) : Int × Int × Str × Str × Int :=
  (s.id, s.envID, s.key, s.ciphertext, s.version)

/-- No secret changed but for its timestamps, and no version was recorded. -/
structure SameContent (db db' : Database) : Prop where
  secretVersions : db'.secretVersions = db.secretVersions
  secrets : db'.secrets.rows.map content = db.secrets.rows.map content

/-- A write of a key: it continued the row of the key, live or soft-deleted, or inserted one. -/
structure Written (s' : Secret) (before after : Table Secret) : Prop where
  mem : s' ∈ after.rows
  live : s'.deletedAt = none
  others : ∀ s ∈ after.rows, s = s' ∨ s ∈ before.rows ∧ s.id ≠ s'.id
  kept : ∀ s ∈ before.rows, s.id = s'.id ∨ s ∈ after.rows
  previous : (∃ s ∈ before.rows, SameKey s s' ∧ s'.version = s.version + 1) ∨
    (∀ s ∈ before.rows, s.id ≠ s'.id ∧ ¬ (s.envID = s'.envID ∧ s.key = s'.key)) ∧ s'.version = 1

/-- One write of a secret, with its version recorded. -/
structure Recorded (db db' : Database) (s' : Secret) (v : SecretVersion) : Prop where
  written : Written s' db.secrets db'.secrets
  appended : db'.secretVersions.rows = db.secretVersions.rows ++ [v]
  secretID : v.secretID = s'.id
  version : v.version = s'.version
  ciphertext : v.ciphertext = s'.ciphertext

/-! ## One statement -/

/-- The row that an accepted upsert returns. -/
theorem upsert_row {envID : Int} {key ct : Str} {now : Int} {db db' : Database}
    {up : SecretRepo.UpsertResult} (h : SecretRepo.upsert envID key ct now db = .ok (up, db')) :
    up.secret.envID = envID ∧ up.secret.key = key ∧ up.secret.ciphertext = ct := by
  rcases SecretRepo.upsert_eq_ok h with ⟨s, -, hkey, hup, -⟩ | ⟨-, hup, -⟩
  · rw [hup]
    exact ⟨hkey.1, hkey.2, rfl⟩
  · rw [hup]
    exact ⟨rfl, rfl, rfl⟩

/-- An accepted upsert writes the key. -/
theorem written_of_upsert {envID : Int} {key ct : Str} {now : Int} {db db' : Database}
    {up : SecretRepo.UpsertResult} (h : SecretRepo.upsert envID key ct now db = .ok (up, db')) :
    Written up.secret db.secrets db'.secrets := by
  rcases SecretRepo.upsert_eq_ok h with ⟨s, hs, hkey, hup, rfl⟩ | ⟨hnone, hup, t, hins, rfl⟩
  · have honly : ∀ x ∈ db.secrets.rows, x.envID = envID ∧ x.key = key → x = s := by
      intro x hx hxk
      exact secret_eq_of_key db hx hs (hxk.1.trans hkey.1.symm) (hxk.2.trans hkey.2.symm)
    rw [hup]
    constructor
    · refine List.mem_map.mpr ⟨s, hs, ?_⟩
      rw [if_pos (by simp [hkey])]
    · rfl
    · intro x hx
      obtain ⟨a, ha, rfl⟩ := List.mem_map.mp hx
      split
      · rename_i hak
        rw [honly a ha (by simpa using hak)]
        exact .inl rfl
      · rename_i hak
        refine .inr ⟨ha, fun he => hak ?_⟩
        rw [db.secrets.eq_of_id_eq ha hs he]
        simpa using hkey
    · intro x hx
      by_cases hxk : x.envID = envID ∧ x.key = key
      · rw [honly x hx hxk]
        exact .inl rfl
      · exact .inr (List.mem_map.mpr ⟨x, hx, if_neg (by simpa using hxk)⟩)
    · exact .inl ⟨s, hs, ⟨rfl, rfl, rfl⟩, rfl⟩
  · obtain ⟨hapart, hrows⟩ := Table.insert_eq_some.mp hins
    constructor
    · rw [hrows]
      exact List.mem_append_right _ (List.mem_singleton_self _)
    · rw [hup]
    · intro x hx
      rw [hrows] at hx
      rcases List.mem_append.mp hx with hx | hx
      · exact .inr ⟨hx, (hapart x hx).1⟩
      · exact .inl (List.mem_singleton.mp hx)
    · intro x hx
      rw [hrows]
      exact .inr (List.mem_append_left _ hx)
    · refine .inr ⟨fun x hx => ⟨(hapart x hx).1, ?_⟩, by rw [hup]⟩
      rw [hup]
      exact hnone x hx

/-- An upsert records no version. -/
theorem upsert_secretVersions {envID : Int} {key ct : Str} {now : Int} {db db' : Database}
    {up : SecretRepo.UpsertResult} (h : SecretRepo.upsert envID key ct now db = .ok (up, db')) :
    db'.secretVersions = db.secretVersions := by
  rcases SecretRepo.upsert_eq_ok h with ⟨_, -, -, -, rfl⟩ | ⟨-, -, _, -, rfl⟩
  · rfl
  · rfl

/-- An upsert and the recording of its version make one write. -/
theorem recorded_of_create {envID now now' : Int} {key ct : Str} {actor : Option Int}
    {db db₁ db₂ : Database} {up : SecretRepo.UpsertResult} {v : SecretVersion}
    (hup : SecretRepo.upsert envID key ct now db = .ok (up, db₁))
    (hv : VersionRepo.create up.secret.id up.secret.version ct actor now' db₁ = .ok (v, db₂)) :
    Recorded db db₂ up.secret v := by
  have hwritten := written_of_upsert hup
  obtain ⟨hrow, t, hins, rfl⟩ := VersionRepo.create_eq_ok hv
  constructor
  · exact hwritten
  · rw [← upsert_secretVersions hup]
    exact (Table.insert_eq_some.mp hins).2
  · rw [hrow]
  · rw [hrow]
  · rw [hrow]
    exact (upsert_row hup).2.2.symm

/-- An accepted soft delete changes no content. -/
theorem sameContent_of_delete {envID : Int} {key : Str} {now : Int} {db db' : Database} {u : Unit}
    (h : SecretRepo.delete envID key now db = .ok (u, db')) : SameContent db db' := by
  rw [(SecretRepo.delete_eq_ok h).2]
  refine ⟨rfl, ?_⟩
  rw [Table.rows_update, List.map_map]
  apply List.map_congr_left
  intro s _
  simp only [Function.comp_apply]
  split <;> rfl

namespace SameContent

theorem refl (db : Database) : SameContent db db := ⟨rfl, rfl⟩

theorem trans (x y z : Database) (h : SameContent x y) (h' : SameContent y z) : SameContent x z :=
  ⟨h'.secretVersions.trans h.secretVersions, h'.secrets.trans h.secrets⟩

/-- A change of other tables. -/
theorem of_eq {db db' : Database} (hs : db'.secrets = db.secrets)
    (hv : db'.secretVersions = db.secretVersions) : SameContent db db' :=
  ⟨hv, by rw [hs]⟩

/-- The statements on other tables leave the secrets alone. -/
theorem background : Background SameContent :=
  (Ordinary.of_untouched trans fun _ _ h => of_eq h.secrets h.secretVersions).background
    fun _ _ => of_eq rfl rfl

end SameContent

/-! ## One action -/

/-- Only the audit log and the outbox differ. -/
def Announced (db db' : Database) : Prop :=
  db' = { db with auditLog := db'.auditLog, webhookDeliveries := db'.webhookDeliveries }

/-- The statements that follow a change of a secret leave all other tables alone. -/
theorem announced (actor : Option ServiceToken) (p : Project) (e : Environment)
    (key event : Str) (version : Int) (target : Str) :
    Tx.Keeps Announced (announce actor p e key event version target) := by
  refine (everyTxRules ?_ ?_).announce ?_ ?_ _ _ _ _ _ _
  · exact fun _ => rfl
  · intro x y z hy hz
    rw [Announced] at hy hz ⊢
    rw [hz, hy]
  · intro actor action target metadata now db a db' h
    obtain ⟨-, t, -, rfl⟩ := AuditRepo.append_eq_ok h
    rfl
  · intro id event payload now db d db' h
    obtain ⟨-, t, -, rfl⟩ := DeliveryRepo.enqueue_eq_ok h
    rfl

/-- Only the secrets and their versions differ. -/
def SecretsOnly (db db' : Database) : Prop :=
  db' = { db with secrets := db'.secrets, secretVersions := db'.secretVersions }

/-- An upsert and the recording of its version touch no other tables. -/
theorem secretsOnly_of_create {envID now now' secretID version : Int} {key ct ct' : Str}
    {actor : Option Int} {db db₁ db₂ : Database} {up : SecretRepo.UpsertResult} {v : SecretVersion}
    (hup : SecretRepo.upsert envID key ct now db = .ok (up, db₁))
    (hv : VersionRepo.create secretID version ct' actor now' db₁ = .ok (v, db₂)) :
    SecretsOnly db db₂ := by
  obtain ⟨-, t, -, rfl⟩ := VersionRepo.create_eq_ok hv
  rcases SecretRepo.upsert_eq_ok hup with ⟨_, -, -, -, rfl⟩ | ⟨-, -, _, -, rfl⟩
  · rfl
  · rfl

/-- The statements that write a version write the key, record the version and announce it. -/
theorem wp_writeVersion {actor : Option ServiceToken} {p : Project} {e : Environment}
    {key ct event : Str} {target : Secret → Str} {s : Session}
    {Q : SecretRepo.UpsertResult → Session → Prop}
    (h : ∀ (up : SecretRepo.UpsertResult) (v : SecretVersion) (s₁ : Session),
      up.secret.envID = e.id ∧ up.secret.key = key → Recorded s.db s₁.db up.secret v →
      SecretsOnly s.db s₁.db →
      wp (announce actor p e key event up.secret.version (target up.secret)) s₁
        (fun _ s' => Q up s') fun _ => True) :
    wp (writeVersion actor p e key ct event target) s Q fun _ => True := by
  unfold writeVersion
  rw [wp_bind]
  apply Tx.wp_stmt
  intro now up db₁ hup
  rw [wp_bind]
  apply Tx.wp_stmt
  intro now' v db₂ hv
  rw [wp_bind]
  have hrow := upsert_row hup
  exact h up v _ ⟨hrow.1, hrow.2.1⟩ (recorded_of_create hup hv) (secretsOnly_of_create hup hv)

/-- What follows the recording of a version leaves the secrets alone. -/
theorem wp_writeVersion_recorded (actor : Option ServiceToken) (p : Project) (e : Environment)
    (key ct event : Str) (target : Secret → Str) (s : Session) :
    wp (writeVersion actor p e key ct event target) s
      (fun up s' => (up.secret.envID = e.id ∧ up.secret.key = key) ∧
        ∃ v, Recorded s.db s'.db up.secret v) fun _ => True := by
  apply wp_writeVersion
  intro up v s₁ hkey hrec _
  refine wp_mono (announced _ _ _ _ _ _ _ _) (fun _ s' hs' => ⟨hkey, v, ?_⟩) fun _ h => h
  rw [hs']
  exact ⟨hrec.written, hrec.appended, hrec.secretID, hrec.version, hrec.ciphertext⟩

/-- A soft delete changes no content. -/
theorem keeps_dropSecret (actor : Option ServiceToken) (p : Project) (e : Environment)
    (key : Str) : Tx.Keeps SameContent (dropSecret actor p e key) := by
  have hdelete : Tx.Respects SameContent (SecretRepo.delete e.id key) :=
    fun _ _ _ _ h => sameContent_of_delete h
  apply (Tx.keeps_stmt hdelete).bind SameContent.trans
  intro _ s
  refine wp_mono (announced _ _ _ _ _ _ _ _) (fun _ s' hs' => ?_) fun _ h => h
  rw [hs']
  exact .of_eq rfl rfl

/-- What an action of a request does to the secrets: nothing but timestamps, or one write. -/
def Advances (db db' : Database) : Prop := SameContent db db' ∨ ∃ s' v, Recorded db db' s' v

/-- A transaction that writes a version, as one action. -/
theorem every_writeVersion (actor : Option ServiceToken) (p : Project) (e : Environment)
    (key ct event : Str) (target : Secret → Str) {onBegin onCommit : Response} :
    (transaction onBegin onCommit (writeVersion actor p e key ct event target)).Every
      fun db db' => SameContent db db' ∨ ∃ s' v, s'.key = key ∧ Recorded db db' s' v := by
  apply every_transaction (fun db => .inl (.refl db))
  intro o db
  refine wp_mono (wp_writeVersion_recorded actor p e key ct event target ⟨o, 1, db⟩) ?_ fun _ h => h
  rintro up s' ⟨⟨-, hkey⟩, v, hrec⟩
  exact .inr ⟨up.secret, v, hkey, hrec⟩

/-- Every action of every request. -/
theorem every_advances (srv : Server) (rq : Request) : (srv.serve rq).Every Advances := by
  have hwrite : ∀ (key : Str) (db db' : Database),
      (SameContent db db' ∨ ∃ s' v, s'.key = key ∧ Recorded db db' s' v) → Advances db db' := by
    rintro key db db' (hsame | ⟨s', v, -, hrec⟩)
    · exact .inl hsame
    · exact .inr ⟨s', v, hrec⟩
  exact SameContent.background.serve (fun _ _ h => .inl h)
    (fun _ _ _ _ _ => (every_writeVersion _ _ _ _ _ _ _).mono (hwrite _))
    (fun _ _ _ _ _ _ _ => (every_writeVersion _ _ _ _ _ _ _).mono (hwrite _))
    (fun _ _ _ _ => (every_transaction SameContent.refl
      fun o db => keeps_dropSecret _ _ _ _ ⟨o, 1, db⟩).mono fun _ _ h => .inl h) rq

/-- Every action of a PUT or a rollback: what it writes is the key of its path. -/
theorem every_write (srv : Server) {rq : Request} {p e k : Str}
    (hroute : rq.route = .putSecret p e k ∨ rq.route = .rollbackSecret p e k) :
    (srv.serve rq).Every fun db db' =>
      SameContent db db' ∨ ∃ s' v, s'.key = k ∧ Recorded db db' s' v := by
  apply every_serve (fun db => .inl (.refl db))
    (fun id now db u db' hu => .inl (SameContent.background.tokenTouch id now db u db' hu))
  intro actor
  rcases hroute with hroute | hroute
  · rw [hroute]
    exact every_handlePutSecret (fun db => .inl (.refl db)) fun _ _ _ =>
      every_writeVersion _ _ _ _ _ _ _
  · rw [hroute]
    exact every_handleRollbackSecret (fun db => .inl (.refl db)) fun _ _ _ _ _ =>
      every_writeVersion _ _ _ _ _ _ _

/-- Every action of a DELETE. -/
theorem every_delete (srv : Server) {rq : Request} {p e k : Str}
    (hroute : rq.route = .deleteSecret p e k) : (srv.serve rq).Every SameContent := by
  apply every_serve SameContent.refl SameContent.background.tokenTouch
  intro actor
  rw [hroute]
  exact every_handleDeleteSecret SameContent.refl fun _ _ =>
    every_transaction SameContent.refl fun o db => keeps_dropSecret _ _ _ _ ⟨o, 1, db⟩

/-! ## The invariant -/

/-- The invariant sees only the content of the secrets. -/
theorem VersionHistory.of_sameContent {db db' : Database} (h : VersionHistory db)
    (hs : SameContent db db') : VersionHistory db' := by
  have hhist : ∀ id, history db' id = history db id := by
    intro id
    rw [history, hs.secretVersions, history]
  have hold : ∀ s' ∈ db'.secrets.rows, ∃ s ∈ db.secrets.rows, content s = content s' := by
    intro s' hs'
    have hmem := List.mem_map_of_mem (f := content) hs'
    rw [hs.secrets] at hmem
    exact List.mem_map.mp hmem
  have hnew : ∀ s ∈ db.secrets.rows, ∃ s' ∈ db'.secrets.rows, content s' = content s := by
    intro s hmem
    have hmem' := List.mem_map_of_mem (f := content) hmem
    rw [← hs.secrets] at hmem'
    exact List.mem_map.mp hmem'
  simp only [content, Prod.mk.injEq] at hold hnew
  constructor
  · intro s' hs'
    obtain ⟨s, hmem, -, -, -, -, hver⟩ := hold s' hs'
    rw [← hver]
    exact h.positive s hmem
  · intro s' hs'
    obtain ⟨s, hmem, hid, -, -, -, hver⟩ := hold s' hs'
    rw [hhist, ← hid, ← hver]
    exact h.complete s hmem
  · intro s' hs'
    obtain ⟨s, hmem, hid, -, -, hct, hver⟩ := hold s' hs'
    rw [hhist, ← hid, ← hver, ← hct]
    exact h.current s hmem
  · intro v hv
    rw [hs.secretVersions] at hv
    obtain ⟨s, hmem, hid⟩ := h.owned v hv
    obtain ⟨s', hmem', hid', -⟩ := hnew s hmem
    exact ⟨s', hmem', hid'.trans hid⟩

/-- A write continues the history of its secret by one version. -/
theorem VersionHistory.of_recorded {db db' : Database} (h : VersionHistory db) {s' : Secret}
    {v : SecretVersion} (hr : Recorded db db' s' v) : VersionHistory db' := by
  have hself : history db' s'.id = history db s'.id ++ [v] := by
    rw [history, hr.appended, List.filter_append, history]
    simp [hr.secretID]
  have hother : ∀ id, id ≠ s'.id → history db' id = history db id := by
    intro id hid
    rw [history, hr.appended, List.filter_append, history]
    simp [hr.secretID, hid.symm]
  have hversion : ∃ n, 0 ≤ n ∧ s'.version = n + 1 ∧
      (history db s'.id).map (·.version) = versionsUpTo n := by
    rcases hr.written.previous with ⟨s, hs, hsame, hver⟩ | ⟨hfresh, hver⟩
    · have hpos := h.positive s hs
      refine ⟨s.version, by omega, hver, ?_⟩
      rw [hsame.id]
      exact h.complete s hs
    · have hnone : history db s'.id = [] := by
        refine List.filter_eq_nil_iff.mpr fun w hw => ?_
        obtain ⟨s, hs, hid⟩ := h.owned w hw
        rw [decide_eq_true_eq, ← hid]
        exact (hfresh s hs).1
      refine ⟨0, le_refl 0, hver, ?_⟩
      rw [hnone]
      rfl
  obtain ⟨n, hn, hver, hbefore⟩ := hversion
  constructor
  · intro s hs
    rcases hr.written.others s hs with rfl | ⟨hold, -⟩
    · omega
    · exact h.positive s hold
  · intro s hs
    rcases hr.written.others s hs with rfl | ⟨hold, hne⟩
    · rw [hself, List.map_append, hbefore, hver, versionsUpTo_succ hn, ← hver, ← hr.version]
      rfl
    · rw [hother _ hne]
      exact h.complete s hold
  · intro s hs
    rcases hr.written.others s hs with rfl | ⟨hold, hne⟩
    · refine ⟨v, ?_, hr.version, hr.ciphertext⟩
      rw [hself]
      exact List.mem_append_right _ (List.mem_singleton_self _)
    · rw [hother _ hne]
      exact h.current s hold
  · intro w hw
    rw [hr.appended] at hw
    rcases List.mem_append.mp hw with hw | hw
    · obtain ⟨s, hs, hid⟩ := h.owned w hw
      rcases hr.written.kept s hs with hself' | hmem
      · exact ⟨s', hr.written.mem, hself'.symm.trans hid⟩
      · exact ⟨s, hmem, hid⟩
    · rw [List.mem_singleton.mp hw]
      exact ⟨s', hr.written.mem, hr.secretID.symm⟩

/-- After an upsert of a database with complete histories, its version is not recorded yet. -/
theorem VersionHistory.unrecorded {db db₁ : Database} (h : VersionHistory db) {envID now : Int}
    {key ct : Str} {up : SecretRepo.UpsertResult}
    (hup : SecretRepo.upsert envID key ct now db = .ok (up, db₁)) :
    ∀ v ∈ db₁.secretVersions.rows,
      ¬ (v.secretID = up.secret.id ∧ v.version = up.secret.version) := by
  rw [upsert_secretVersions hup]
  rintro v hv ⟨hid, hver⟩
  obtain ⟨s, hs, hsid⟩ := h.owned v hv
  rcases (written_of_upsert hup).previous with ⟨r, hr, hkey, hnext⟩ | ⟨hfresh, -⟩
  · have hmem : v.version ∈ (history db r.id).map (·.version) := by
      refine List.mem_map_of_mem (List.mem_filter.mpr ⟨hv, ?_⟩)
      rw [decide_eq_true_eq, hid, hkey.id]
    rw [h.complete r hr] at hmem
    have hle := le_of_mem_versionsUpTo hmem
    omega
  · exact (hfresh s hs).1 (hsid.trans hid)

/-- A version that is not recorded yet can be recorded. -/
theorem versionCreate_ne_conflict {secretID version now : Int} {ct : Str} {actor : Option Int}
    {db : Database}
    (h : ∀ v ∈ db.secretVersions.rows, ¬ (v.secretID = secretID ∧ v.version = version)) :
    VersionRepo.create secretID version ct actor now db ≠ .error .conflict := by
  intro hconf
  unfold VersionRepo.create at hconf
  have hins : ∃ t, db.secretVersions.insert
      ⟨db.secretVersions.nextId, secretID, version, ct, actor, now⟩ = some t := by
    refine ⟨_, dif_pos fun x hx => ⟨?_, ?_⟩⟩
    · exact ne_of_lt (db.secretVersions.lt_nextId hx)
    · simpa [Row.clash, Row.key] using h x hx
  obtain ⟨t, hins⟩ := hins
  simp only [insertRow, hins] at hconf
  unfold foreignKey at hconf
  split at hconf
  · split at hconf
    · cases hconf
    · cases hconf
  · cases hconf

/-- A write continues the sequence of the row of its key, whether or not it is soft-deleted. -/
theorem Recorded.continues {db db' : Database} {s' r : Secret} {v : SecretVersion}
    (h : Recorded db db' s' v) (hr : r ∈ db.secrets.rows)
    (hkey : r.envID = s'.envID ∧ r.key = s'.key) :
    s'.id = r.id ∧ s'.version = r.version + 1 := by
  rcases h.written.previous with ⟨s, hs, hsame, hver⟩ | ⟨hfresh, -⟩
  · have hrs : r = s :=
      secret_eq_of_key db hr hs (hkey.1.trans hsame.envID) (hkey.2.trans hsame.key)
    rw [hrs]
    exact ⟨hsame.id, hver⟩
  · exact absurd hkey (hfresh r hr).2

/-- An empty database has complete histories. -/
theorem versionHistory_empty : VersionHistory .empty where
  positive _ hs := by cases hs
  complete _ hs := by cases hs
  current _ hs := by cases hs
  owned _ hv := by cases hv

/-- In every run of the server from an empty database, the history of every secret is complete
and its last entry is the current value; recorded versions stay; a DELETE changes no version and
no history; a PUT or a rollback continues the sequence of its key, soft-deleted or not; and the
version that an upsert assigns is never recorded already. -/
theorem version_history (srv : Server) {s : Shared Request Moment Database}
    (h : (srv.system (· = .empty)).Reachable s) :
    VersionHistory s.state ∧
      (∀ s', (srv.system (· = .empty)).Leads (fun _ _ => True) s s' →
        s.state.secretVersions.rows <+: s'.state.secretVersions.rows) ∧
      (∀ i o p s', s.procs i = some p →
        (srv.system (· = .empty)).next (.advance i o) s = some s' →
        Advances s.state s'.state ∧
        (∀ a b k, p.name.route = .deleteSecret a b k → SameContent s.state s'.state) ∧
        ∀ a b k, p.name.route = .putSecret a b k ∨ p.name.route = .rollbackSecret a b k →
          SameContent s.state s'.state ∨
          ∃ s₁ v, s₁.key = k ∧ Recorded s.state s'.state s₁ v ∧
            ∀ r ∈ s.state.secrets.rows, r.envID = s₁.envID ∧ r.key = k →
              s₁.id = r.id ∧ s₁.version = r.version + 1) ∧
      ∀ envID key ct now now' actor up db₁,
        SecretRepo.upsert envID key ct now s.state = .ok (up, db₁) →
        VersionRepo.create up.secret.id up.secret.version ct actor now' db₁ ≠
          .error .conflict := by
  have hinv : VersionHistory s.state := by
    refine interleave.invariant (fun rq => (every_advances srv rq).mono ?_) ?_ h
    · rintro x y (hsame | ⟨s', v, hrec⟩) hx
      · exact hx.of_sameContent hsame
      · exact hx.of_recorded hrec
    · rintro x rfl
      exact versionHistory_empty
  refine ⟨hinv, ?_, ?_, ?_⟩
  · intro s' hl
    exact (interleave.leads_state (Later.serve srv) Later.refl Later.trans hl).secretVersions
  · intro i o p s' hp hn
    refine ⟨interleave.advance_state hp (every_advances srv p.name) hn, ?_, ?_⟩
    · intro a b k hroute
      exact interleave.advance_state hp (every_delete srv hroute) hn
    · intro a b k hroute
      rcases interleave.advance_state hp (every_write srv hroute) hn with
        hsame | ⟨s₁, v, rfl, hrec⟩
      · exact .inl hsame
      · exact .inr ⟨s₁, v, rfl, hrec, fun r hr hkey => hrec.continues hr hkey⟩
  · intro envID key ct now now' actor up db₁ hup
    exact versionCreate_ne_conflict (hinv.unrecorded hup)

/-- A PUT, a DELETE and a PUT of one key. -/
def putDeletePut : List (Turn Request Moment) :=
  setUp ++ atOnce 3 (bearerRequest .put keyPath { noFields with value := some (ascii "a") }) 5 13 ++
    atOnce 4 (bearerRequest .delete keyPath noFields) 5 14 ++
    atOnce 5 (bearerRequest .put keyPath { noFields with value := some (ascii "b") }) 5 15

set_option maxRecDepth 4000 in
/-- The second PUT continues the sequence of the deleted key. -/
theorem version_history_putDeletePut :
    ∃ s, (plainServer.system (· = .empty)).run putDeletePut ⟨.empty, fun _ => none⟩ = some s ∧
      s.state.secrets.rows.map (·.version) = [2] ∧ VersionHistory s.state := by
  have hrun : ((plainServer.system (· = .empty)).run putDeletePut ⟨.empty, fun _ => none⟩).any
      (fun s => s.state.secrets.rows.map (·.version) = [2]) = true := by
    decide +kernel
  obtain ⟨s, hs, hreach, hversion⟩ := exists_reachable hrun
  exact ⟨s, hs, of_decide_eq_true hversion, (version_history plainServer hreach).1⟩

end Comax.Server
