import Comax.Secret.OwnRows
import Comax.Secret.Played
import Comax.Server.Reads
import Comax.Server.Versions

/-!
# Reading secrets among other requests

The list of an environment and the read of one key as programs on the shared database: the
queries of the resolver are statements of their own, and other requests may commit between
them. The keys of the environment itself still come from one state, and a key that was
written is read with the version that was written or a later one.
-/

namespace Comax.Server

open Comax.Core Comax.Store Comax.Secret

/-- The answer to a resolution that failed for no reason in the values. -/
def resolveFailed : Response := internal "resolve failed"

/-- One query of the resolver. -/
def ask (q : Query) : Handler q.Answer :=
  autocommitOr (fun _ => resolveFailed) (Tx.read fun _ db => .ok (q.answer db))

/-- A script of the resolver as a program. -/
def play {α : Type} (srv : Server) : Script (fun q : ℕ × Query => q.2.Answer) Fault α → Handler α
  | .done (.ok a) => return a
  | .done (.error e) => .exit (srv.resolverErrorToHTTP e)
  | .ask q k => ask q.2 >>= fun a => play srv (k a)

/-- What a resolution in progress knows; its queries meet the database by themselves. -/
def resolution (srv : Server) (order : MapOrder) (projectID : Int) (master : Str) : Call :=
  ⟨fun _ => .empty, order, projectID, srv.gcm.open master⟩

/-- `s.resolver.Resolve`, up to a recursion depth. -/
def resolve (srv : Server) (rq : Request) (fuel : ℕ) (order : MapOrder) (projectID envID : Int) :
    Handler Snapshot := do
  let master ← need resolveFailed rq.inputs.masterKey
  let asking := Asking.callees (srv.resolution order projectID master) fuel
  let (r, s) ← srv.play (asking.snapshot envID [] .initial)
  return s.maps.getD r ∅

/-- The view of one entry of a snapshot. -/
def secretView (key : Str) (sec : ResolvedSecret) : SecretView :=
  ⟨sec.secretID, key, sec.value, sec.version, sec.updatedAt⟩

/-- `handleListSecrets` -/
def handleListSecrets (srv : Server) (rq : Request) (fuel : ℕ) (order : MapOrder) (p e : Str) :
    Handler (List SecretView) := do
  let pe ← srv.resolveEnv p e
  let snap ← srv.resolve rq fuel order pe.1.id pe.2.id
  return (snap.entries.map fun sec => secretView sec.1 sec.2).insertionSort
    fun a b => a.key ≤ b.key

/-- `handleGetSecret` -/
def handleGetSecret (srv : Server) (rq : Request) (fuel : ℕ) (order : MapOrder) (p e k : Str) :
    Handler SecretView := do
  let pe ← srv.resolveEnv p e
  check (srv.validateName "key" k)
  let snap ← srv.resolve rq fuel order pe.1.id pe.2.id
  match snap.lookup k with
  | none => .exit (storeError .notFound)
  | some sec => return secretView k sec

section

variable {srv : Server} {rq : Request} {fuel : ℕ} {order : MapOrder}
  {xs : List (Moment × Database)}

/-- A script that returns has been answered by the states that it met. -/
theorem ends_play {α : Type} {script : Script (fun q : ℕ × Query => q.2.Answer) Fault α} {n : ℕ}
    {Q : ℕ → Except Fault α → Prop} (hnum : Numbered script n Q) {a : α}
    (h : (srv.play script).Ends xs a) (dbs : ℕ → Database)
    (hdbs : ∀ i x, xs[i]? = some x → dbs (n + i) = x.2) :
    script.answered (answers dbs) = .ok a := by
  induction script generalizing n xs with
  | done r =>
    cases r with
    | ok b =>
      cases h
      rfl
    | error e => cases h
  | ask q k ih =>
    obtain ⟨ys, zs, b, rfl, hask, hrest⟩ := h.of_bind
    obtain ⟨x, rfl, hx⟩ := ends_lookup hask
    have hb : answers dbs q = b := by
      rw [answers, hnum.1, ← Except.ok.inj hx]
      exact congrArg _ (hdbs 0 x rfl)
    rw [Script.answered, hb]
    refine ih b (hnum.2 b) hrest fun i y hy => ?_
    rw [Nat.add_assoc, Nat.add_comm 1 i]
    exact hdbs (i + 1) y hy

/-- A resolution that returns is the call on the states that its queries met. -/
theorem ends_resolve {projectID envID : Int} {snap : Snapshot}
    (h : (srv.resolve rq fuel order projectID envID).Ends xs snap) :
    ∃ master, rq.inputs.masterKey = some master ∧ ∀ dbs : ℕ → Database,
      (∀ i x, xs[i]? = some x → dbs i = x.2) →
      Call.resolve ⟨dbs, order, projectID, srv.gcm.open master⟩ fuel envID = .ok snap := by
  obtain ⟨ys, zs, master, rfl, hneed, h₁⟩ := h.of_bind
  obtain ⟨rfl, hmaster⟩ := ends_need hneed
  obtain ⟨us, vs, ⟨r, s⟩, rfl, hplay, h₂⟩ := h₁.of_bind
  cases h₂
  refine ⟨master, hmaster, fun dbs hdbs => ?_⟩
  have hcount := (Asking.kept_callees (srv.resolution order projectID master) Asking.kept_counts
    fuel).snapshot envID [] .initial
  have hanswered := ends_play hcount hplay dbs fun i x hx => by
    rw [show ResolveCtx.initial.queries + i = i from Nat.zero_add i]
    exact hdbs i x (by simpa using hx)
  have hplays := (Asking.plays_callees (srv.resolution order projectID master) dbs fuel).snapshot
    envID []
  have hcall : (Call.callees ⟨dbs, order, projectID, srv.gcm.open master⟩ fuel).snapshot envID []
      .initial = .ok (r, s) := by
    rw [← hanswered]
    exact (congrFun hplays .initial).symm
  rw [Call.resolve, hcall]

/-- Nothing is resolved without an environment. -/
theorem resolve_empty (projectID envID : Int) (opens : Str → Option Str) (snap : Snapshot) :
    Call.resolve ⟨fun _ => .empty, order, projectID, opens⟩ fuel envID ≠ .ok snap := by
  intro h
  cases fuel with
  | zero => cases h
  | succ fuel => cases h

/-- The keys of the environment itself are the rows of one state that a resolution met. -/
theorem ends_resolve_ownRows {projectID envID : Int} {snap : Snapshot}
    (h : (srv.resolve rq fuel order projectID envID).Ends xs snap) :
    ∃ master x, rq.inputs.masterKey = some master ∧ x ∈ xs ∧
      OwnRows (srv.gcm.open master) (SecretRepo.listByEnv envID x.2) snap := by
  obtain ⟨master, hmaster, hcall⟩ := ends_resolve h
  cases hxs : xs with
  | nil =>
    refine absurd (hcall (fun _ => .empty) fun i x hx => ?_) (resolve_empty _ _ _ _)
    rw [hxs] at hx
    cases hx
  | cons x₀ rest =>
    rw [← hxs]
    have hx₀ : x₀ ∈ xs := by
      rw [hxs]
      exact List.mem_cons_self
    -- Beyond the queries that were asked, any state that was met will do.
    obtain ⟨n, hrows⟩ := Call.resolve_ownRows _
      (hcall (fun i => (xs[i]?.getD x₀).2) fun i x hx => by rw [hx, Option.getD_some])
    refine ⟨master, xs[n]?.getD x₀, hmaster, ?_, hrows⟩
    cases hn : xs[n]? with
    | none => exact hx₀
    | some x => exact List.mem_of_getElem? hn

/-! ## The list of an environment -/

/-- The view shows a live row: its metadata, and its value if that has no reference. -/
structure Shows (opens : Str → Option Str) (row : Secret) (view : SecretView) : Prop where
  key : view.key = row.key
  secretID : view.secretID = row.id
  version : view.version = row.version
  updatedAt : view.updatedAt = row.updatedAt
  value : ∃ text, opens row.ciphertext = some text ∧
    (findReferences text = [] → view.value = text)

/-- The view of an entry that a row became. -/
theorem shows_of_ownRows {opens : Str → Option Str} {rows : List Secret} {snap : Snapshot}
    (h : OwnRows opens rows snap) {row : Secret} (hrow : row ∈ rows) :
    ∃ sec, snap.lookup row.key = some sec ∧ Shows opens row (secretView row.key sec) := by
  obtain ⟨text, v, htext, hlookup, hvalue⟩ := h row hrow
  exact ⟨_, hlookup, rfl, rfl, rfl, rfl, text, htext, hvalue⟩

/-- What is sorted by keys that are distinct is strictly sorted. -/
theorem pairwise_lt_insertionSort {α : Type} (key : α → Str) {l : List α}
    (h : (l.map key).Nodup) :
    (l.insertionSort fun a b => key a ≤ key b).Pairwise fun a b => key a < key b := by
  have hnodup : ((l.insertionSort fun a b => key a ≤ key b).map key).Nodup :=
    ((List.perm_insertionSort _ l).map key).nodup_iff.mpr h
  have hsorted := List.pairwise_insertionSort (fun a b => key a ≤ key b) l
  rw [List.nodup_iff_pairwise_ne, List.pairwise_map] at hnodup
  refine (hsorted.and hnodup).imp fun {a b} hab => ?_
  by_contra hlt
  exact hab.2 (List.le_antisymm hab.1 (List.not_lt.mp hlt))

/-- Views sorted by key, of distinct keys. -/
theorem sorted_views (snap : Snapshot) :
    ((snap.entries.map fun sec => secretView sec.1 sec.2).insertionSort
      fun a b => a.key ≤ b.key).Pairwise fun a b => a.key < b.key := by
  have hkeys : (snap.entries.map fun sec => secretView sec.1 sec.2).map SecretView.key =
      snap.keys := by
    rw [List.map_map]
    rfl
  refine pairwise_lt_insertionSort SecretView.key ?_
  rw [hkeys]
  exact snap.nodupKeys

/-- Whatever other requests commit between its queries: the list of an environment is sorted by key
without repetition, and shows every live row of the environment as one of the states that it met
has them. -/
theorem list_own_rows (srv : Server) (rq : Request) (fuel : ℕ) (order : MapOrder) (p e : Str)
    {xs : List (Moment × Database)} {views : List SecretView}
    (h : (srv.handleListSecrets rq fuel order p e).Ends xs views) :
    views.Pairwise (fun a b => a.key < b.key) ∧
      ∃ xp xe ys x project env master, xs = xp :: xe :: ys ∧ x ∈ ys ∧
        ProjectRepo.byName p xp.2 = .ok project ∧ EnvRepo.byName project.id e xe.2 = .ok env ∧
        rq.inputs.masterKey = some master ∧
        ∀ row ∈ SecretRepo.listByEnv env.id x.2,
          ∃ view ∈ views, Shows (srv.gcm.open master) row view := by
  obtain ⟨xs₁, ys, ⟨project, env⟩, rfl, henv, h₁⟩ := h.of_bind
  obtain ⟨ys, xs₂, snap, rfl, hresolve, h₂⟩ := h₁.of_bind
  cases h₂
  obtain ⟨xp, xe, rfl, -, -, hproject, henv⟩ := ends_resolveEnv henv
  obtain ⟨master, x, hmaster, hx, hrows⟩ := ends_resolve_ownRows hresolve
  refine ⟨sorted_views snap, xp, xe, ys, x, project, env, master, by simp, hx, hproject, henv,
    hmaster, fun row hrow => ?_⟩
  obtain ⟨sec, hlookup, hshows⟩ := shows_of_ownRows hrows hrow
  refine ⟨_, (List.mem_insertionSort _).mpr ?_, hshows⟩
  exact List.mem_map.mpr ⟨⟨row.key, sec⟩, AList.mem_lookup_iff.mp hlookup, rfl⟩

/-- A list has each key once. -/
theorem sorted_of_list (srv : Server) {rq : Request} {fuel : ℕ} {order : MapOrder} {p e : Str}
    {xs : List (Moment × Database)} {views : List SecretView}
    (h : (srv.handleListSecrets rq fuel order p e).Ends xs views) :
    views.Pairwise fun a b => a.key < b.key := by
  obtain ⟨_, _, _, -, -, h₁⟩ := h.of_bind
  obtain ⟨_, _, snap, -, -, h₂⟩ := h₁.of_bind
  cases h₂
  exact sorted_views snap

/-- A program that returns on one state alone. -/
theorem exists_ends {α : Type} {prog : Handler α} {n : ℕ} {o : Moment} {db : Database}
    {test : α → Bool}
    (h : (prog.resume (List.replicate n (o, db))).returned.any test = true) :
    ∃ xs a, prog.Ends xs a ∧ (∀ x ∈ xs, x = (o, db)) ∧ test a = true := by
  obtain ⟨a, ha, htest⟩ := (Option.any_eq_true _ _).mp h
  obtain ⟨xs, rest, hxs, hends⟩ := Prog.Ends.of_resume (Prog.returned_eq_some.mp ha)
  refine ⟨xs, a, hends, fun x hx => List.eq_of_mem_replicate (n := n) ?_, htest⟩
  rw [hxs]
  exact List.mem_append_left rest hx

set_option maxRecDepth 4000 in
/-- The list of an environment with one key. -/
theorem list_own_rows_putDeletePut : ∃ s xs views,
    (plainServer.system (· = .empty)).run putDeletePut ⟨.empty, fun _ => none⟩ = some s ∧
      (plainServer.handleListSecrets (bearerRequest .get [] noFields) 3 .plain (ascii "p")
        (ascii "e")).Ends xs views ∧ views.map (fun v => (v.key, v.value, v.version)) =
          [(ascii "k", ascii "b", 2)] ∧ views.Pairwise fun a b => a.key < b.key := by
  have hrun : ((plainServer.system (· = .empty)).run putDeletePut ⟨.empty, fun _ => none⟩).any
      (fun s => ((plainServer.handleListSecrets (bearerRequest .get [] noFields) 3 .plain
          (ascii "p") (ascii "e")).resume (List.replicate 4 (.calm 20, s.state))).returned.any
        fun views => views.map (fun v => (v.key, v.value, v.version)) =
          [(ascii "k", ascii "b", 2)]) = true := by
    decide +kernel
  obtain ⟨s, hs, hreach, htest⟩ := exists_reachable hrun
  obtain ⟨xs, views, hends, -, htest⟩ := exists_ends htest
  exact ⟨s, xs, views, hs, hends, of_decide_eq_true htest,
    (list_own_rows plainServer _ 3 .plain _ _ hends).1⟩

/-! ## Reading what was written -/

/-- What a read of a key shows for a version that was written: the row of the key has this version
or a later one, and it is shown unless it is deleted; while it has this version, a value without
references is shown as it was written. -/
def ShowsWrite (p e : Str) (version : Int) (value : Str) (view : SecretView) (db : Database) :
    Prop :=
  ∃ project env sec, Located p e project env db ∧
    SecretRepo.byKeyAny env.id view.key db = .ok sec ∧ version ≤ sec.version ∧
    (sec.deletedAt = none → view.secretID = sec.id ∧ view.version = sec.version ∧
      view.updatedAt = sec.updatedAt ∧
      (sec.version = version → findReferences value = [] → view.value = value))

/-- A version that is recorded is the current one or older. -/
theorem VersionHistory.version_le {db : Database} (h : VersionHistory db) {sec : Secret}
    (hsec : sec ∈ db.secrets.rows) {v : SecretVersion} (hv : v ∈ db.secretVersions.rows)
    (hid : v.secretID = sec.id) : v.version ≤ sec.version := by
  have hmem : v.version ∈ (history db sec.id).map (·.version) :=
    List.mem_map_of_mem (List.mem_filter.mpr ⟨hv, by simp [hid]⟩)
  rw [h.complete sec hsec] at hmem
  obtain ⟨n, hn, hversion⟩ := List.mem_map.mp hmem
  have hpos := h.positive sec hsec
  have hlt := List.mem_range.mp hn
  omega

/-- The current version has the sealed value of the row. -/
theorem VersionHistory.ciphertext_eq {db : Database} (h : VersionHistory db) {sec : Secret}
    (hsec : sec ∈ db.secrets.rows) {v : SecretVersion} (hv : v ∈ db.secretVersions.rows)
    (hid : v.secretID = sec.id) (hversion : v.version = sec.version) :
    v.ciphertext = sec.ciphertext := by
  obtain ⟨w, hw, hwversion, hwct⟩ := h.current sec hsec
  obtain ⟨hw, hwid⟩ := List.mem_filter.mp hw
  simp only [decide_eq_true_eq] at hwid
  have hvw : v = w := db.secretVersions.eq_of_clash hv hw
    (by simp [Row.key, Row.clash, hid, hwid, hversion, hwversion])
    (by simp [Row.key, Row.clash, hid, hwid, hversion, hwversion])
  rw [hvw, hwct]

/-- What a path names in later states than one in which a version under it was readable. -/
theorem Readable.located {master p e : Str} {written : SecretVersionView}
    {db dbp dbe db' : Database} {project : Project} {env : Environment}
    (h : srv.Readable master p e written db) (hp : Later db dbp) (he : Later db dbe)
    (hl : Later db db') (hproject : ProjectRepo.byName p dbp = .ok project)
    (henv : EnvRepo.byName project.id e dbe = .ok env) : Located p e project env db' := by
  obtain ⟨project', env', -, -, hloc, -⟩ := h
  have hsame := hp.projectByName hloc.projectName
  rw [hproject] at hsame
  obtain rfl := Except.ok.inj hsame
  have hsame := he.envByName hloc.envName
  rw [henv] at hsame
  obtain rfl := Except.ok.inj hsame
  exact hl.located hloc

/-- The row of a key of which a version is readable has this version or a later one. If it is live
it is listed, and while it has this version it opens to the value that was written. -/
theorem Readable.row {master p e : Str} {written : SecretVersionView} {db : Database}
    {project : Project} {env : Environment} (h : srv.Readable master p e written db)
    (hhistory : VersionHistory db) (hloc : Located p e project env db) :
    ∃ row, SecretRepo.byKeyAny env.id written.key db = .ok row ∧ row.key = written.key ∧
      written.version ≤ row.version ∧
      (row.deletedAt = none → row ∈ SecretRepo.listByEnv env.id db) ∧
      (row.version = written.version →
        srv.gcm.open master row.ciphertext = some written.value) := by
  obtain ⟨project', env', row, v, hloc', hrow, hver, hopen, -, -⟩ := h
  obtain ⟨rfl, rfl⟩ := hloc.unique hloc'
  obtain ⟨hmemrow, hrowenv, hrowkey⟩ := SecretRepo.byKeyAny_eq_ok.mp hrow
  obtain ⟨hmemver, hverkey⟩ := Table.of_find?_eq_some (VersionRepo.byVersion_eq_ok.mp hver)
  simp only [Bool.and_eq_true, decide_eq_true_eq] at hverkey
  refine ⟨row, hrow, hrowkey, ?_, fun hlive => ?_, fun hversion => ?_⟩
  · rw [← hverkey.2]
    exact hhistory.version_le hmemrow hmemver hverkey.1
  · refine (List.mem_insertionSort _).mpr (List.mem_filter.mpr ⟨hmemrow, ?_⟩)
    simpa using ⟨hrowenv, hlive⟩
  · rwa [← hhistory.ciphertext_eq hmemrow hmemver hverkey.1 (hverkey.2.trans hversion.symm)]

/-- The view of a live row that has a version that was written. -/
theorem Shows.value_eq {opens : Str → Option Str} {row : Secret} {view : SecretView} {value : Str}
    (h : Shows opens row view) (hopen : opens row.ciphertext = some value)
    (hplain : findReferences value = []) : view.value = value := by
  obtain ⟨text, htext, hvalue⟩ := h.value
  obtain rfl := Option.some.inj (hopen.symm.trans htext)
  exact hvalue hplain

/-- A read of a key that met later states than one in which a version of it was readable. -/
theorem showsWrite_of_ends {master p e : Str} {written : SecretVersionView} {db : Database}
    {view : SecretView} (hread : srv.Readable master p e written db)
    (hmaster : rq.inputs.masterKey = some master)
    (h : (srv.handleGetSecret rq fuel order p e written.key).Ends xs view)
    (hxs : ∀ x ∈ xs, Later db x.2 ∧ VersionHistory x.2) :
    view.key = written.key ∧
      ∃ x ∈ xs, ShowsWrite p e written.version written.value view x.2 := by
  obtain ⟨xs₁, ys, ⟨project, env⟩, rfl, henv, h₁⟩ := h.of_bind
  obtain ⟨xs₂, ys, _, rfl, hcheck, h₂⟩ := h₁.of_bind
  obtain ⟨ys, xs₃, snap, rfl, hresolve, h₃⟩ := h₂.of_bind
  obtain ⟨xp, xe, rfl, -, -, hproject, henv⟩ := ends_resolveEnv henv
  obtain ⟨master', x, hmaster', hx, hrows⟩ := ends_resolve_ownRows hresolve
  obtain rfl : master = master' := Option.some.inj (hmaster.symm.trans hmaster')
  have hview : ∃ sec, snap.lookup written.key = some sec ∧ view = secretView written.key sec := by
    cases hlookup : snap.lookup written.key with
    | none =>
      rw [hlookup] at h₃
      cases h₃
    | some sec =>
      rw [hlookup] at h₃
      cases h₃
      exact ⟨sec, rfl, rfl⟩
  obtain ⟨sec, hlookup, rfl⟩ := hview
  have hmem : x ∈ [xp, xe] ++ (xs₂ ++ (ys ++ xs₃)) := by simp [hx]
  obtain ⟨hlater, hhistory⟩ := hxs x hmem
  have hloc := hread.located (hxs xp (by simp)).1 (hxs xe (by simp)).1 hlater hproject henv
  obtain ⟨row, hrow, hkey, hversion, hlisted, hopen⟩ := (hread.later hlater).row hhistory hloc
  refine ⟨rfl, x, hmem, _, _, row, hloc, hrow, hversion, fun hlive => ?_⟩
  obtain ⟨sec', hlookup', hshows⟩ := shows_of_ownRows hrows (hlisted hlive)
  rw [hkey, hlookup] at hlookup'
  obtain rfl := Option.some.inj hlookup'
  exact ⟨hshows.secretID, hshows.version, hshows.updatedAt,
    fun hsame hplain => hshows.value_eq (hopen hsame) hplain⟩

/-- In every run of the server, a read of a key that starts after a PUT or a rollback of it was
answered shows the version that the answer announced or a later one, as the row of the key is in one
of the states that the read met, or the key is deleted there. As long as the version is the
announced one, a value without references is the one that was announced. -/
theorem get_shows_write (srv : Server) (hgcm : srv.gcm.Lawful)
    {s : Shared Request Moment Database} (h : (srv.system (· = .empty)).Reachable s) {i : ℕ}
    {proc : Process Request Moment Database} (hp : s.procs i = some proc) {p e k : Str}
    (hroute : proc.name.route = .putSecret p e k ∨ proc.name.route = .rollbackSecret p e k)
    (hnonce : ∀ nonce ∈ proc.name.inputs.nonce, nonce.length = Crypto.nonceSize)
    {status : ℕ} {id version updatedAt : Int} {key value : Str}
    (hserved : srv.served proc =
      some (writeOK status (.secret id key value version updatedAt)))
    (rq : Request) (hkeys : rq.inputs.masterKey = proc.name.inputs.masterKey) (fuel : ℕ)
    (order : MapOrder) {xs : List (Moment × Database)} {view : SecretView}
    (hget : (srv.handleGetSecret rq fuel order p e k).Ends xs view)
    (hxs : ∀ x ∈ xs, ∃ s', (srv.system (· = .empty)).Leads (fun _ _ => True) s s' ∧
      x.2 = s'.state) :
    view.key = k ∧ ∃ x ∈ xs, ShowsWrite p e version value view x.2 := by
  obtain ⟨db, hdb, hrest⟩ := interleave.meets_of_reach (Later.serve srv) Later.refl Later.trans
    (meets_serve_write hgcm hnonce hroute) h i proc hp rfl
  rw [Prog.returned_eq_some.mp hserved] at hrest
  obtain ⟨master, written, hmaster, rfl, rfl, rfl, hread⟩ :=
    hrest id key value version updatedAt rfl
  refine showsWrite_of_ends hread (hkeys.trans hmaster) hget fun x hx => ?_
  obtain ⟨s', hleads, hstate⟩ := hxs x hx
  rw [hstate]
  refine ⟨hdb.trans _ _ _ (interleave.leads_state (Later.serve srv) Later.refl Later.trans hleads),
    (version_history srv (h.leads hleads)).1⟩

set_option maxRecDepth 4000 in
/-- A key that was deleted and written again is read with its second version. -/
theorem get_shows_write_putDeletePut : ∃ s view,
    (plainServer.system (· = .empty)).run putDeletePut ⟨.empty, fun _ => none⟩ = some s ∧
      view.version = 2 ∧
      ShowsWrite (ascii "p") (ascii "e") 1 (ascii "a") view s.state := by
  have hrun : ((plainServer.system (· = .empty)).run putDeletePut ⟨.empty, fun _ => none⟩).any
      (fun s => ((s.procs 3).any fun proc =>
        proc.name.route = .putSecret (ascii "p") (ascii "e") (ascii "k") &&
        (proc.name.inputs.nonce = some (List.replicate Crypto.nonceSize 0) &&
          proc.name.inputs.masterKey = some Crypto.plainKey) &&
        plainServer.served proc =
          some (writeOK 201 (.secret 1 (ascii "k") (ascii "a") 1 13))) &&
        ((plainServer.handleGetSecret (bearerRequest .get [] noFields) 3 .plain (ascii "p")
          (ascii "e") (ascii "k")).resume (List.replicate 4 (.calm 20, s.state))).returned.any
            fun view => view.version = 2) = true := by
    decide +kernel
  obtain ⟨s, hs, hreach, htest⟩ := exists_reachable hrun
  obtain ⟨hproc, htest⟩ := Bool.and_eq_true_iff.mp htest
  obtain ⟨proc, hp, hproc⟩ := (Option.any_eq_true _ _).mp hproc
  simp only [Bool.and_eq_true, decide_eq_true_eq] at hproc
  obtain ⟨⟨hroute, hnonce, hmaster⟩, hserved⟩ := hproc
  obtain ⟨xs, view, hends, hxs, hversion⟩ := exists_ends htest
  obtain ⟨-, x, hx, hshows⟩ := get_shows_write plainServer Crypto.plainGCM_lawful hreach hp
    (.inl hroute)
    (fun nonce hn => by rw [hnonce, Option.mem_some_iff] at hn; rw [← hn, List.length_replicate])
    hserved (bearerRequest .get [] noFields) hmaster.symm 3 .plain hends
    fun x hx => ⟨s, .refl, by rw [hxs x hx]⟩
  rw [hxs x hx] at hshows
  exact ⟨s, view, hs, of_decide_eq_true hversion, hshows⟩

/-- The key was written by a PUT or a rollback that has been answered with the version. -/
def ServedWrite (srv : Server) (s : Shared Request Moment Database) (master p e k : Str)
    (version : Int) (value : Str) : Prop :=
  ∃ i proc status id key updatedAt, s.procs i = some proc ∧
    (proc.name.route = .putSecret p e k ∨ proc.name.route = .rollbackSecret p e k) ∧
    (∀ nonce ∈ proc.name.inputs.nonce, nonce.length = Crypto.nonceSize) ∧
    proc.name.inputs.masterKey = some master ∧
    srv.served proc = some (writeOK status (.secret id key value version updatedAt))

/-- What a list shows for a version of a key that was written: the row of the key has this version
or a later one, and it is listed unless it is deleted; while it has this version, a value without
references is listed as it was written. -/
def ListsWrite (p e k : Str) (version : Int) (value : Str) (views : List SecretView)
    (db : Database) : Prop :=
  ∃ project env sec, Located p e project env db ∧
    SecretRepo.byKeyAny env.id k db = .ok sec ∧ version ≤ sec.version ∧
    (sec.deletedAt = none → ∃ view ∈ views, view.key = k ∧ view.secretID = sec.id ∧
      view.version = sec.version ∧ view.updatedAt = sec.updatedAt ∧
      (sec.version = version → findReferences value = [] → view.value = value))

/-- A version that was written is readable. -/
theorem readable_of_servedWrite (hgcm : srv.gcm.Lawful) {s : Shared Request Moment Database}
    (h : (srv.system (· = .empty)).Reachable s) {master p e k value : Str} {version : Int}
    (hw : srv.ServedWrite s master p e k version value) :
    ∃ written : SecretVersionView, written.key = k ∧ written.version = version ∧
      written.value = value ∧ srv.Readable master p e written s.state := by
  obtain ⟨i, proc, status, id, key, updatedAt, hp, hroute, hnonce, hmaster, hserved⟩ := hw
  obtain ⟨db, hdb, hrest⟩ := interleave.meets_of_reach (Later.serve srv) Later.refl Later.trans
    (meets_serve_write hgcm hnonce hroute) h i proc hp rfl
  rw [Prog.returned_eq_some.mp hserved] at hrest
  obtain ⟨master', written, hmaster', hk, hvalue, hversion, hread⟩ :=
    hrest id key value version updatedAt rfl
  obtain rfl : master = master' := Option.some.inj (hmaster.symm.trans hmaster')
  exact ⟨written, hk, hversion, hvalue, hread.later hdb⟩

/-- In every run of the server, a list of an environment shows every version under it that was
announced before the list was asked for, or a later one, as the rows are in one of the states that
the list met. -/
theorem list_shows_writes (srv : Server) (hgcm : srv.gcm.Lawful)
    {s : Shared Request Moment Database} (h : (srv.system (· = .empty)).Reachable s)
    (rq : Request) {master : Str} (hmaster : rq.inputs.masterKey = some master) (fuel : ℕ)
    (order : MapOrder) {p e : Str} {xs : List (Moment × Database)} {views : List SecretView}
    (hlist : (srv.handleListSecrets rq fuel order p e).Ends xs views)
    (hxs : ∀ x ∈ xs, ∃ s', (srv.system (· = .empty)).Leads (fun _ _ => True) s s' ∧
      x.2 = s'.state) :
    ∃ x ∈ xs, ∀ k version value, srv.ServedWrite s master p e k version value →
      ListsWrite p e k version value views x.2 := by
  have hlater : ∀ x ∈ xs, Later s.state x.2 ∧ VersionHistory x.2 := by
    intro x hx
    obtain ⟨s', hleads, hstate⟩ := hxs x hx
    rw [hstate]
    exact ⟨interleave.leads_state (Later.serve srv) Later.refl Later.trans hleads,
      (version_history srv (h.leads hleads)).1⟩
  obtain ⟨xs₁, ys, ⟨project, env⟩, rfl, henv, h₁⟩ := hlist.of_bind
  obtain ⟨ys, xs₂, snap, rfl, hresolve, h₂⟩ := h₁.of_bind
  cases h₂
  obtain ⟨xp, xe, rfl, -, -, hproject, henv⟩ := ends_resolveEnv henv
  obtain ⟨master', x, hmaster', hx, hrows⟩ := ends_resolve_ownRows hresolve
  obtain rfl : master = master' := Option.some.inj (hmaster.symm.trans hmaster')
  refine ⟨x, by simp [hx], fun k version value hw => ?_⟩
  obtain ⟨written, rfl, rfl, rfl, hread⟩ := readable_of_servedWrite hgcm h hw
  obtain ⟨hl, hhistory⟩ := hlater x (by simp [hx])
  have hloc := hread.located (hlater xp (by simp)).1 (hlater xe (by simp)).1 hl hproject henv
  obtain ⟨row, hrow, hkey, hversion, hlisted, hopen⟩ := (hread.later hl).row hhistory hloc
  refine ⟨_, _, row, hloc, hrow, hversion, fun hlive => ?_⟩
  obtain ⟨sec, hlookup, hshows⟩ := shows_of_ownRows hrows (hlisted hlive)
  refine ⟨_, (List.mem_insertionSort _).mpr (List.mem_map.mpr ⟨⟨row.key, sec⟩,
    AList.mem_lookup_iff.mp hlookup, rfl⟩), hkey, hshows.secretID, hshows.version,
    hshows.updatedAt, fun hsame hplain => hshows.value_eq (hopen hsame) hplain⟩

end

end Comax.Server
