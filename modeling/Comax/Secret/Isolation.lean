import Comax.Core.Twin
import Comax.Secret.Termination

/-!
# A resolution stays inside its project

A call looks names up in its project only, and reads environments and secrets by the
identifiers that these lookups returned. So two databases that agree on a project
resolve its environments alike, error texts included, whatever the other projects
hold.
-/

namespace Comax.Secret

open Comax.Core Comax.Store

/-- A set of environments that a call cannot leave, on which other databases answer like its
own. -/
structure Call.Enclosed (rc : Call) (dbs : ℕ → Database) (inside : Int → Prop) : Prop where
  /-- Names are resolved alike. -/
  byName : ∀ n name,
    EnvRepo.byName rc.projectID name (dbs n) = EnvRepo.byName rc.projectID name (rc.dbs n)
  /-- A resolved name is inside. -/
  named : ∀ n name env, EnvRepo.byName rc.projectID name (rc.dbs n) = .ok env → inside env.id
  /-- Environments inside are found alike. -/
  byID : ∀ n id, inside id → EnvRepo.byID id (dbs n) = EnvRepo.byID id (rc.dbs n)
  /-- Their secrets are listed alike. -/
  listByEnv : ∀ n id, inside id →
    SecretRepo.listByEnv id (dbs n) = SecretRepo.listByEnv id (rc.dbs n)

/-- Two databases that agree on a project: on its row, its environments and their secrets. -/
structure SameProject (p : Project) (db db' : Database) : Prop where
  /-- The project is in both. -/
  project : p ∈ db.projects.rows ∧ p ∈ db'.projects.rows
  /-- Its environments are the same rows. -/
  environments : ∀ e : Environment, e.projectID = p.id →
    (e ∈ db'.environments.rows ↔ e ∈ db.environments.rows)
  /-- Their secrets are the same rows. -/
  secrets : ∀ e ∈ db.environments.rows, e.projectID = p.id → ∀ s : Secret, s.envID = e.id →
    (s ∈ db'.secrets.rows ↔ s ∈ db.secrets.rows)

/-- An environment of the project has this identifier. -/
def InProject (p : Project) (db : Database) (id : Int) : Prop :=
  ∃ e ∈ db.environments.rows, e.projectID = p.id ∧ e.id = id

namespace SameProject

variable {p : Project} {db db' : Database} (h : SameProject p db db')
include h

/-- The project is found alike. -/
theorem projectByName : ProjectRepo.byName p.name db' = ProjectRepo.byName p.name db := by
  have hfind : ∀ db : Database, p ∈ db.projects.rows →
      db.projects.find? (fun q => q.name = p.name) = some p := by
    intro db hp
    refine db.projects.find?_eq_some hp (by simp) fun q hq hname => ?_
    have hname : q.name = p.name := of_decide_eq_true hname
    exact db.projects.eq_of_clash hq hp (by simp [Row.key, Row.clash, hname])
      (by simp [Row.key, Row.clash, hname])
  rw [ProjectRepo.byName, ProjectRepo.byName, hfind db h.project.1, hfind db' h.project.2]

/-- Its environments are found alike by name. -/
theorem byName (name : Str) : EnvRepo.byName p.id name db' = EnvRepo.byName p.id name db := by
  refine congrArg found (Table.find?_congr (fun e he => ?_) fun e he e' he' hp hp' => ?_)
  · simp only [Bool.and_eq_true, decide_eq_true_eq] at he
    exact h.environments e he.1
  · simp only [Bool.and_eq_true, decide_eq_true_eq] at hp hp'
    have hkey : (e.projectID, e.name) = (e'.projectID, e'.name) := by
      rw [hp.1, hp.2, hp'.1, hp'.2]
    exact db.environments.eq_of_clash he he' (by simpa [Row.key, Row.clash] using hkey)
      (by simpa [Row.key, Row.clash] using hkey.symm)

/-- Its environments are found alike by identifier. -/
theorem byID {id : Int} (hin : InProject p db id) : EnvRepo.byID id db' = EnvRepo.byID id db := by
  obtain ⟨env, henv, hproject, rfl⟩ := hin
  have hfind : ∀ db : Database, env ∈ db.environments.rows →
      db.environments.find? (fun e => e.id = env.id) = some env := by
    intro db henv
    exact db.environments.find?_eq_some henv (by simp) fun e he hid =>
      db.environments.eq_of_id_eq he henv (of_decide_eq_true hid)
  rw [EnvRepo.byID, EnvRepo.byID, hfind db henv,
    hfind db' ((h.environments env hproject).mpr henv)]

/-- The secrets of its environments are listed alike. -/
theorem listByEnv {id : Int} (hin : InProject p db id) :
    SecretRepo.listByEnv id db' = SecretRepo.listByEnv id db := by
  obtain ⟨env, henv, hproject, rfl⟩ := hin
  have hmem : ∀ s : Secret, s ∈ SecretRepo.listByEnv env.id db' ↔
      s ∈ SecretRepo.listByEnv env.id db := by
    intro s
    simp only [SecretRepo.listByEnv, List.mem_insertionSort, List.mem_filter, Bool.and_eq_true,
      decide_eq_true_eq]
    constructor
    · rintro ⟨hs, he, hlive⟩
      exact ⟨(h.secrets env henv hproject s he).mp hs, he, hlive⟩
    · rintro ⟨hs, he, hlive⟩
      exact ⟨(h.secrets env henv hproject s he).mpr hs, he, hlive⟩
  have hnodup : ∀ db : Database, (SecretRepo.listByEnv env.id db).Nodup := by
    intro db
    exact (List.perm_insertionSort _ _).nodup_iff.mpr
      ((List.Nodup.of_map _ db.secrets.nodup_id).filter _)
  have hsorted : ∀ db : Database,
      (SecretRepo.listByEnv env.id db).Pairwise fun a b => a.key ≤ b.key := by
    intro db
    have : Std.Total (α := Secret) fun a b => a.key ≤ b.key := ⟨fun a b => List.le_total _ _⟩
    have : IsTrans Secret fun a b => a.key ≤ b.key := ⟨fun a b c => List.le_trans⟩
    exact List.pairwise_insertionSort _ _
  have hrow : ∀ s : Secret, s ∈ SecretRepo.listByEnv env.id db →
      s ∈ db.secrets.rows ∧ s.envID = env.id := by
    intro s hs
    simp only [SecretRepo.listByEnv, List.mem_insertionSort, List.mem_filter, Bool.and_eq_true,
      decide_eq_true_eq] at hs
    exact ⟨hs.1, hs.2.1⟩
  have hperm := (List.perm_ext_iff_of_nodup (hnodup db') (hnodup db)).mpr hmem
  refine hperm.eq_of_pairwise (fun a b ha hb hab hba => ?_) (hsorted db') (hsorted db)
  obtain ⟨ha, hae⟩ := hrow a ((hmem a).mp ha)
  obtain ⟨hb, hbe⟩ := hrow b hb
  exact secret_eq_of_key db ha hb (hae.trans hbe.symm) (List.le_antisymm hab hba)

/-- A call on the project stays inside it. -/
theorem enclosed {rc : Call} (hdb : ∀ n, rc.dbs n = db) (hp : rc.projectID = p.id) :
    rc.Enclosed (fun _ => db') (InProject p db) := by
  refine ⟨?_, ?_, ?_, ?_⟩
  · intro n name
    rw [hdb, hp, h.byName]
  · intro n name env hfound
    rw [hdb, hp, EnvRepo.byName, found_eq_ok] at hfound
    obtain ⟨hmem, hrow⟩ := Table.of_find?_eq_some hfound
    simp only [Bool.and_eq_true, decide_eq_true_eq] at hrow
    exact ⟨env, hmem, hrow.1, rfl⟩
  · intro n id hin
    rw [hdb, h.byID hin]
  · intro n id hin
    rw [hdb, h.listByEnv hin]

end SameProject

/-- Every name that was resolved so far is inside. -/
def ResolveCtx.Inside (inside : Int → Prop) (s : ResolveCtx) : Prop :=
  ∀ name id, s.envByNameID.lookup name = some id → inside id

/-- Callees that do the same from inside. -/
structure Callees.Twins (inside : Int → Prop) (callees callees' : Callees) : Prop where
  /-- `snapshot` -/
  snapshot : ∀ envID visited, inside envID → (∀ id ∈ visited, inside id) →
    Twin (ResolveCtx.Inside inside) (fun _ => True) (callees.snapshot envID visited)
      (callees'.snapshot envID visited)
  /-- `expand` -/
  expand : ∀ envID key value visited, inside envID →
    (∀ p ∈ visited, inside (RefPos.envID p)) →
    Twin (ResolveCtx.Inside inside) (fun _ => True) (callees.expand envID key value visited)
      (callees'.expand envID key value visited)

namespace Call

variable {rc : Call} {dbs : ℕ → Database} {inside : Int → Prop}

/-- Wrapping errors keeps twins. -/
theorem twin_wrap {α : Type} {I : ResolveCtx → Prop} {R : α → Prop} {m m' : ResolveM α}
    (f : ResolveError → ResolveError) (h : Twin I R m m') : Twin I R (wrap f m) (wrap f m') := by
  intro s hs
  obtain ⟨heq, hwp⟩ := h s hs
  refine ⟨by simp only [wrap, heq], wp_wrap (wp_mono hwp (fun _ _ ha => ha) ?_)⟩
  rintro (_ | e) _ <;> trivial

/-- A query that both databases answer alike. -/
theorem twin_query {α : Type} {R : α → Prop} {q : Database → α}
    (hq : ∀ n, q (dbs n) = q (rc.dbs n)) (hR : ∀ n, R (q (rc.dbs n))) :
    Twin (ResolveCtx.Inside inside) R (rc.query q) (({ rc with dbs := dbs } : Call).query q) := by
  intro s hs
  refine ⟨?_, hs, hR _⟩
  change Except.ok (q (dbs s.queries), _) = Except.ok (q (rc.dbs s.queries), _)
  rw [hq]

/-- Names resolve alike, and to the inside. -/
theorem twin_resolveEnvName (h : rc.Enclosed dbs inside) (name : Str) :
    Twin (ResolveCtx.Inside inside) inside (rc.resolveEnvName name)
      (({ rc with dbs := dbs } : Call).resolveEnvName name) := by
  refine Twin.get_bind fun s hs => ?_
  cases hn : s.envByNameID.lookup name with
  | some id => exact ⟨rfl, hs, hs name id hn⟩
  | none =>
    have hquery : Twin (ResolveCtx.Inside inside) (fun r => ∀ env, r = .ok env → inside env.id)
        (rc.query (EnvRepo.byName rc.projectID name))
        (({ rc with dbs := dbs } : Call).query (EnvRepo.byName rc.projectID name)) :=
      twin_query (fun n => h.byName n name) fun n env => h.named n name env
    refine hquery.bind (S := inside) (fun r hr => ?_) s hs
    cases r with
    | error e => exact .throw _
    | ok env =>
      refine .of_wp fun s hs => ⟨fun name' id hid => ?_, hr env rfl⟩
      by_cases he : name' = name
      · subst he
        rw [AList.lookup_insert] at hid
        cases hid
        exact hr env rfl
      · rw [AList.lookup_insert_ne he] at hid
        exact hs name' id hid

/-- Environments inside have the same names in error texts. -/
theorem envNameOf_eq (h : rc.Enclosed dbs inside) (n : ℕ) {id : Int} (hid : inside id) :
    envNameOf (dbs n) id = envNameOf (rc.dbs n) id := by
  rw [envNameOf, envNameOf, h.byID n id hid]

/-- An inheritance cycle is reported alike. -/
theorem envChainNames_eq (h : rc.Enclosed dbs inside) (s : ResolveCtx) {ids : List Int}
    (hids : ∀ id ∈ ids, inside id) :
    ({ rc with dbs := dbs } : Call).envChainNames s ids = rc.envChainNames s ids :=
  List.map_congr_left fun p hp => envNameOf_eq h _ (hids p.1 (List.fst_mem_of_mem_zipIdx hp))

/-- A reference cycle is reported alike. -/
theorem refChainNames_eq (h : rc.Enclosed dbs inside) (s : ResolveCtx) {ps : List RefPos}
    (hps : ∀ p ∈ ps, inside p.envID) :
    ({ rc with dbs := dbs } : Call).refChainNames s ps = rc.refChainNames s ps := by
  refine List.map_congr_left fun p hp => ?_
  simp only
  rw [envNameOf_eq h _ (hps p.1 (List.fst_mem_of_mem_zipIdx hp))]

variable {self self' : Callees}

/-- The parent's entries are copied alike. -/
theorem twin_inherited (h : rc.Enclosed dbs inside) (hself : self.Twins inside self')
    (env : Environment) {visited : List Int} (hv : ∀ id ∈ visited, inside id) :
    Twin (ResolveCtx.Inside inside) (fun _ => True) (rc.inherited self env visited)
      (({ rc with dbs := dbs } : Call).inherited self' env visited) := by
  unfold inherited
  split
  · exact .pure trivial
  · exact (twin_wrap _ (twin_resolveEnvName h _)).bind fun parentID hp =>
      (hself.snapshot parentID visited hp hv).bind fun r _ => .of_wp fun _ hs => ⟨hs, trivial⟩

/-- An entry is expanded alike. -/
theorem twin_expandEntry (hself : self.Twins inside self') {envID : Int} (hin : inside envID)
    (r : ℕ) (k : Str) : Twin (ResolveCtx.Inside inside) (fun _ => True)
      (expandEntry self envID r k) (expandEntry self' envID r k) := by
  refine Twin.bind (R := fun _ => True) (.of_wp fun _ hs => ⟨hs, trivial⟩) fun m _ => ?_
  cases m.lookup k with
  | none => exact .pure trivial
  | some v =>
    exact (hself.expand envID k v.value [] hin (by simp)).bind fun _ _ =>
      .of_wp fun _ hs => ⟨hs, trivial⟩

/-- `snapshot` does the same. -/
theorem twin_snapshotBody (h : rc.Enclosed dbs inside) (hself : self.Twins inside self')
    {envID : Int} (hin : inside envID) {visited : List Int} (hv : ∀ id ∈ visited, inside id) :
    Twin (ResolveCtx.Inside inside) (fun _ => True) (rc.snapshotBody self envID visited)
      (({ rc with dbs := dbs } : Call).snapshotBody self' envID visited) := by
  refine Twin.get_bind fun s hs => ?_
  cases s.envCache.lookup envID with
  | some r => exact ⟨rfl, hs, trivial⟩
  | none =>
    have hv' : ∀ id ∈ visited ++ [envID], inside id := by
      intro id hid
      rcases List.mem_append.mp hid with hid | hid
      · exact hv id hid
      · exact List.mem_singleton.mp hid ▸ hin
    by_cases hmem : envID ∈ visited
    · simp only [hmem, if_true]
      have hcycle : Twin (ResolveCtx.Inside inside) (fun _ => True)
          (do fail (.cycle .inheritance (rc.envChainNames (← get) (visited ++ [envID]))))
          (do fail (.cycle .inheritance
            (({ rc with dbs := dbs } : Call).envChainNames (← get) (visited ++ [envID]))) :
            ResolveM ℕ) := by
        refine Twin.get_bind fun s _ => ⟨?_, trivial⟩
        rw [envChainNames_eq h s hv']
      exact hcycle s hs
    · simp only [hmem, if_false]
      refine Twin.bind (R := fun _ => True) (S := fun _ => True)
        (twin_query (fun n => h.byID n envID hin) fun _ => trivial) (fun found _ => ?_) s hs
      cases found with
      | error e => exact .throw _
      | ok env =>
        refine (twin_inherited h hself env hv').bind fun base _ => ?_
        refine Twin.bind (R := fun _ => True)
          (twin_query (fun n => h.listByEnv n envID hin) fun _ => trivial) fun secrets _ => ?_
        have hstate : ∀ {α : Type} {m : ResolveM α},
            (∀ s, wp m s (fun _ s' => s'.envByNameID = s.envByNameID) fun _ => True) →
            Twin (ResolveCtx.Inside inside) (fun _ => True) m m := by
          intro α m hm
          refine .of_wp fun s hs => wp_mono (hm s) (fun a s' he => ⟨?_, trivial⟩) fun _ he => he
          exact fun name id hid => hs name id (he ▸ hid)
        refine Twin.bind (R := fun _ => True) (hstate fun s => ?_) fun merged _ => ?_
        · exact wp_mono (rc.overlay_frame envID secrets base s) (fun _ s' he => by rw [he])
            fun _ he => he
        refine Twin.bind (R := fun _ => True) (hstate fun s => rfl) fun r _ => ?_
        refine Twin.bind (R := fun _ => True) (hstate fun s => rfl) fun _ _ => ?_
        refine Twin.bind (R := fun _ => True) (hstate fun s => rfl) fun s _ => ?_
        exact (Twin.foldlM (S := fun _ => True) _
          (fun _ _ k _ => twin_expandEntry hself hin r k) trivial).bind fun _ _ => .pure trivial

/-- One reference is spliced alike. -/
theorem twin_expandReference (h : rc.Enclosed dbs inside) (hself : self.Twins inside self')
    {visited : List RefPos} (hv : ∀ p ∈ visited, inside p.envID) (ref : Reference) (out : Str) :
    Twin (ResolveCtx.Inside inside) (fun _ => True) (rc.expandReference self visited ref out)
      (({ rc with dbs := dbs } : Call).expandReference self' visited ref out) := by
  refine (twin_wrap _ (twin_resolveEnvName h _)).bind fun target ht => ?_
  refine (hself.snapshot target [] ht (by simp)).bind fun r _ => ?_
  refine Twin.bind (R := fun _ => True) (.of_wp fun _ hs => ⟨hs, trivial⟩) fun m _ => ?_
  cases m.lookup ref.keyName with
  | none => exact .throw _
  | some v =>
    exact (hself.expand target ref.keyName v.value visited ht hv).bind fun _ _ => .pure trivial

/-- `expand` does the same. -/
theorem twin_expandBody (h : rc.Enclosed dbs inside) (hself : self.Twins inside self')
    {envID : Int} (hin : inside envID) (key value : Str) {visited : List RefPos}
    (hv : ∀ p ∈ visited, inside p.envID) :
    Twin (ResolveCtx.Inside inside) (fun _ => True) (rc.expandBody self envID key value visited)
      (({ rc with dbs := dbs } : Call).expandBody self' envID key value visited) := by
  have hv' : ∀ p ∈ visited ++ [⟨envID, key⟩], inside p.envID := by
    intro p hp
    rcases List.mem_append.mp hp with hp | hp
    · exact hv p hp
    · rw [List.mem_singleton.mp hp]
      exact hin
  unfold expandBody
  by_cases hrefs : findReferences value = []
  · simp only [hrefs, if_true]
    exact .pure trivial
  · by_cases hmem : (⟨envID, key⟩ : RefPos) ∈ visited
    · simp only [hrefs, hmem, if_false, if_true]
      refine Twin.get_bind fun s _ => ⟨?_, trivial⟩
      rw [refChainNames_eq h s hv']
    · simp only [hrefs, hmem, if_false]
      exact Twin.foldrM _ (fun ref _ out _ => twin_expandReference h hself hv' ref out) trivial

/-- Both functions do the same at every depth. -/
theorem twins_callees (h : rc.Enclosed dbs inside) (fuel : ℕ) :
    (rc.callees fuel).Twins inside (({ rc with dbs := dbs } : Call).callees fuel) := by
  induction fuel with
  | zero => exact ⟨fun _ _ _ _ => .throw _, fun _ _ _ _ _ _ => .throw _⟩
  | succ fuel ih =>
    exact ⟨fun envID visited hin hv => twin_snapshotBody h ih hin hv,
      fun envID key value visited hin hv => twin_expandBody h ih hin key value hv⟩

/-- The call has the same result. -/
theorem Enclosed.resolve_eq (h : rc.Enclosed dbs inside) (fuel : ℕ) {envID : Int}
    (hin : inside envID) :
    ({ rc with dbs := dbs } : Call).resolve fuel envID = rc.resolve fuel envID := by
  have hinit : ResolveCtx.initial.Inside inside := fun name id hid => by cases hid
  have htwin := ((twins_callees h fuel).snapshot envID [] hin (by simp) _ hinit).1
  unfold resolve
  rw [htwin]

end Call

/-- Deeper recursion does not change a result. -/
theorem Resolver.resolveWithin_eq (r : Resolver) (db : Database) (order : MapOrder)
    (projectID envID : Int) {fuel : ℕ} (hle : resolveDepth db ≤ fuel) :
    r.resolveWithin fuel (fun _ => db) order projectID envID =
      r.resolve db order projectID envID := by
  obtain ⟨result, hresult⟩ := r.resolve_terminates db order projectID envID
  obtain ⟨spare, rfl⟩ := Nat.exists_eq_add_of_le hle
  exact (hresult spare).trans (hresult 0).symm

/-- Databases that agree on a project resolve its environments alike. -/
theorem Resolver.resolve_sameProject (r : Resolver) {p : Project} {db db' : Database}
    (h : SameProject p db db') (order : MapOrder) {envID : Int} (hin : InProject p db envID) :
    r.resolve db' order p.id envID = r.resolve db order p.id envID := by
  rw [← r.resolveWithin_eq db' order p.id envID (le_max_right (resolveDepth db) _),
    ← r.resolveWithin_eq db order p.id envID (le_max_left _ (resolveDepth db'))]
  unfold resolveWithin
  cases r.masterKey with
  | none => rfl
  | some key =>
    have henclosed : (r.call (fun _ => db) order p.id key).Enclosed (fun _ => db')
        (InProject p db) := h.enclosed (fun _ => rfl) rfl
    exact henclosed.resolve_eq _ hin

end Comax.Secret
