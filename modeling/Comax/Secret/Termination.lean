import Comax.Core.Fuel
import Comax.Secret.Frame
import Mathlib.Data.Finset.Prod
import Mathlib.Data.Finset.Card

/-!
# The recursion of the resolver is bounded

`expand` calls `snapshot` with an empty visited list, which drops the
inheritance-cycle guard, and a spliced text can contain a reference when it is read
again from the cache. The recursion is still bounded: between two such calls either
an environment has been cached or a node has joined the reference chain, so the
depth needed is lexicographic in the number of environments not cached yet and in
the length of the chain at hand. Both are finite in a database.
-/

namespace Comax.Secret

open Comax.Core Comax.Store

/-- The identifiers of the stored environments. -/
def envIDs (db : Database) : Finset Int := (db.environments.rows.map (·.id)).toFinset

/-- The keys of the stored secrets. -/
def secretKeys (db : Database) : Finset Str := (db.secrets.rows.map (·.key)).toFinset

/-- A found environment is a stored one. -/
theorem mem_envIDs_of_byID {db : Database} {id : Int} {env : Environment}
    (h : EnvRepo.byID id db = .ok env) : id ∈ envIDs db := by
  obtain ⟨hmem, hid⟩ := Table.of_find?_eq_some (found_eq_ok.mp h)
  simp only [envIDs, List.mem_toFinset, List.mem_map]
  exact ⟨env, hmem, of_decide_eq_true hid⟩

/-- The keys listed for an environment are stored keys. -/
theorem mem_secretKeys_of_listByEnv {db : Database} {envID : Int} {s : Secret}
    (h : s ∈ SecretRepo.listByEnv envID db) : s.key ∈ secretKeys db := by
  have hmem := (List.perm_insertionSort _ _).mem_iff.mp h
  simp only [secretKeys, List.mem_toFinset]
  exact List.mem_map_of_mem (List.mem_filter.mp hmem).1

/-- The nodes a reference chain can visit. -/
def refNodes (db : Database) : Finset (Int × Str) := envIDs db ×ˢ secretKeys db

/-- The environments whose snapshot is not cached yet. -/
def uncached (db : Database) (s : ResolveCtx) : Finset Int :=
  (envIDs db).filter fun e => s.envCache.lookup e = none

/-- The environments not on an inheritance chain. -/
def unvisitedEnvs (db : Database) (visited : List Int) : Finset Int :=
  (envIDs db).filter (· ∉ visited)

/-- The nodes not on a reference chain. -/
def unvisitedNodes (db : Database) (visited : List RefPos) : Finset (Int × Str) :=
  (refNodes db).filter fun n => (⟨n.1, n.2⟩ : RefPos) ∉ visited

/-- What one more cached environment saves in recursion depth. -/
def cacheWorth (db : Database) : ℕ := (refNodes db).card + (envIDs db).card + 2

/-- The depth `snapshot` needs. -/
def snapshotDepth (db : Database) (s : ResolveCtx) (visited : List Int) : ℕ :=
  (uncached db s).card * cacheWorth db + (unvisitedEnvs db visited).card + 1

/-- The depth `expand` needs. -/
def expandDepth (db : Database) (s : ResolveCtx) (visited : List RefPos) : ℕ :=
  (uncached db s).card * cacheWorth db + (envIDs db).card + (unvisitedNodes db visited).card + 2

/-- The depth a whole call needs. -/
def resolveDepth (db : Database) : ℕ :=
  (envIDs db).card * cacheWorth db + (envIDs db).card + 1

section Measure

variable (db : Database) {s s' : ResolveCtx}

/-- Nothing leaves the cache. -/
theorem uncached_subset (h : s.Extends s') : uncached db s' ⊆ uncached db s := by
  intro e he
  obtain ⟨hmem, hnone⟩ := Finset.mem_filter.mp he
  refine Finset.mem_filter.mpr ⟨hmem, ?_⟩
  cases hc : s.envCache.lookup e with
  | none => rfl
  | some r => rw [h.cache hc] at hnone; cases hnone

/-- The measure does not grow. -/
theorem uncached_card_le (h : s.Extends s') : (uncached db s').card ≤ (uncached db s).card :=
  Finset.card_le_card (uncached_subset db h)

/-- Caching one environment makes the measure smaller. -/
theorem uncached_card_lt (h : s.Extends s') {envID : Int} (hmem : envID ∈ envIDs db)
    (hnew : s.envCache.lookup envID = none) {r : ℕ}
    (hdone : s'.envCache.lookup envID = some r) :
    (uncached db s').card < (uncached db s).card := by
  refine Finset.card_lt_card
    (Finset.ssubset_iff_of_subset (uncached_subset db h) |>.mpr ⟨envID, ?_, ?_⟩)
  · exact Finset.mem_filter.mpr ⟨hmem, hnew⟩
  · intro he
    rw [(Finset.mem_filter.mp he).2] at hdone
    cases hdone

/-- A longer inheritance chain leaves fewer environments. -/
theorem unvisitedEnvs_card_lt {envID : Int} (hmem : envID ∈ envIDs db) {visited : List Int}
    (hv : envID ∉ visited) :
    (unvisitedEnvs db (visited ++ [envID])).card < (unvisitedEnvs db visited).card := by
  refine Finset.card_lt_card (Finset.ssubset_iff_of_subset ?_ |>.mpr ⟨envID, ?_, ?_⟩)
  · refine Finset.monotone_filter_right _ fun e _ he => ?_
    simp only [List.mem_append, not_or] at he
    exact he.1
  · exact Finset.mem_filter.mpr ⟨hmem, hv⟩
  · simp [unvisitedEnvs]

/-- A longer reference chain leaves fewer nodes. -/
theorem unvisitedNodes_card_lt {p : RefPos} (hmem : (p.envID, p.key) ∈ refNodes db)
    {visited : List RefPos} (hv : p ∉ visited) :
    (unvisitedNodes db (visited ++ [p])).card < (unvisitedNodes db visited).card := by
  refine Finset.card_lt_card
    (Finset.ssubset_iff_of_subset ?_ |>.mpr ⟨(p.envID, p.key), ?_, ?_⟩)
  · refine Finset.monotone_filter_right _ fun n _ hn => ?_
    simp only [List.mem_append, not_or] at hn
    exact hn.1
  · exact Finset.mem_filter.mpr ⟨hmem, hv⟩
  · simp [unvisitedNodes]

/-- An inheritance chain leaves at most every environment. -/
theorem unvisitedEnvs_card_le (visited : List Int) :
    (unvisitedEnvs db visited).card ≤ (envIDs db).card :=
  Finset.card_le_card (Finset.filter_subset _ _)

/-- A reference chain leaves at most every node. -/
theorem unvisitedNodes_card_le (visited : List RefPos) :
    (unvisitedNodes db visited).card ≤ (refNodes db).card :=
  Finset.card_le_card (Finset.filter_subset _ _)

variable {db}

/-- The parent of an environment needs less depth. -/
theorem snapshotDepth_parent (h : s.Extends s') {envID : Int} (hmem : envID ∈ envIDs db)
    {visited : List Int} (hv : envID ∉ visited) {fuel : ℕ}
    (hf : snapshotDepth db s visited ≤ fuel + 1) :
    snapshotDepth db s' (visited ++ [envID]) ≤ fuel := by
  have hu := Nat.mul_le_mul_right (cacheWorth db) (uncached_card_le db h)
  have hl := unvisitedEnvs_card_lt db hmem hv
  unfold snapshotDepth at *
  omega

/-- Once an environment is cached, expanding its entries needs less depth. -/
theorem expandDepth_entry (h : s.Extends s') {envID : Int} (hmem : envID ∈ envIDs db)
    (hnew : s.envCache.lookup envID = none) {r : ℕ} (hdone : s'.envCache.lookup envID = some r)
    {visited : List Int} {fuel : ℕ} (hf : snapshotDepth db s visited ≤ fuel + 1) :
    expandDepth db s' [] ≤ fuel := by
  have hlt := uncached_card_lt db h hmem hnew hdone
  have hu := Nat.mul_le_mul_right (cacheWorth db) (Nat.succ_le_of_lt hlt)
  have hl := unvisitedNodes_card_le db []
  rw [Nat.succ_mul] at hu
  unfold snapshotDepth at hf
  unfold expandDepth
  have hw : cacheWorth db = (refNodes db).card + (envIDs db).card + 2 := rfl
  omega

/-- The environment of a reference needs less depth, although its chain starts anew. -/
theorem snapshotDepth_target (h : s.Extends s') {visited : List RefPos} {fuel : ℕ}
    (hf : expandDepth db s visited ≤ fuel + 1) : snapshotDepth db s' [] ≤ fuel := by
  have hu := Nat.mul_le_mul_right (cacheWorth db) (uncached_card_le db h)
  have hl := unvisitedEnvs_card_le db []
  unfold snapshotDepth
  unfold expandDepth at hf
  omega

/-- The value of a reference needs less depth, on the longer chain. -/
theorem expandDepth_target (h : s.Extends s') {p : RefPos}
    (hmem : (p.envID, p.key) ∈ refNodes db) {visited : List RefPos} (hv : p ∉ visited) {fuel : ℕ}
    (hf : expandDepth db s visited ≤ fuel + 1) : expandDepth db s' (visited ++ [p]) ≤ fuel := by
  have hu := Nat.mul_le_mul_right (cacheWorth db) (uncached_card_le db h)
  have hl := unvisitedNodes_card_lt db hmem hv
  unfold expandDepth at *
  omega

end Measure

/-- The cache and the maps stay inside the database. -/
structure ResolveCtx.Within (db : Database) (s : ResolveCtx) : Prop where
  cached : ∀ {envID r}, s.envCache.lookup envID = some r → envID ∈ envIDs db
  keys : ∀ {r k}, k ∈ s.maps.getD r ∅ → k ∈ secretKeys db

namespace ResolveCtx.Within

variable {db : Database} {s : ResolveCtx}

theorem initial : ResolveCtx.initial.Within db :=
  ⟨fun h => (Option.some_ne_none _ h.symm).elim, fun h => absurd h (AList.notMem_empty _)⟩

/-- Counting a query keeps the bounds. -/
theorem queried (h : s.Within db) (n : ℕ) : ResolveCtx.Within db { s with queries := n } :=
  ⟨h.cached, h.keys⟩

/-- A new map must have stored keys. -/
theorem allocated (h : s.Within db) {m : Snapshot} (hm : ∀ k ∈ m, k ∈ secretKeys db) :
    ResolveCtx.Within db { s with maps := s.maps ++ [m] } := by
  refine ⟨h.cached, fun {r k} hk => ?_⟩
  change k ∈ (s.maps ++ [m]).getD r ∅ at hk
  rw [List.getD_eq_getElem?_getD, List.getElem?_append] at hk
  split at hk
  · exact h.keys (r := r) (by rwa [List.getD_eq_getElem?_getD])
  · cases hr : [m][r - s.maps.length]? with
    | none => rw [hr] at hk; exact absurd hk (AList.notMem_empty _)
    | some m' =>
      rw [hr] at hk
      obtain rfl := List.mem_singleton.mp (List.mem_of_getElem? hr)
      exact hm k hk

/-- A cached environment must be a stored one. -/
theorem cache (h : s.Within db) {envID : Int} (hmem : envID ∈ envIDs db) (r : ℕ) :
    ResolveCtx.Within db { s with envCache := s.envCache.insert envID r } := by
  refine ⟨fun {e r'} he => ?_, h.keys⟩
  by_cases hne : e = envID
  · exact hne ▸ hmem
  · exact h.cached (by rwa [AList.lookup_insert_ne hne] at he)

/-- Recording a name keeps the bounds. -/
theorem named (h : s.Within db) (names : AList fun _ : Str => Int) :
    ResolveCtx.Within db { s with envByNameID := names } :=
  ⟨h.cached, h.keys⟩

/-- A written key must be a stored one. -/
theorem written (h : s.Within db) (r : ℕ) {k : Str} (hk : k ∈ secretKeys db)
    (v : ResolvedSecret) :
    ResolveCtx.Within db { s with maps := s.maps.set r ((s.maps.getD r ∅).insert k v) } := by
  refine ⟨h.cached, fun {r' k'} hk' => ?_⟩
  change k' ∈ (s.maps.set r _).getD r' ∅ at hk'
  rw [List.getD_eq_getElem?_getD, List.getElem?_set] at hk'
  split at hk'
  · split at hk'
    · rcases (AList.mem_insert _).mp hk' with rfl | hk'
      · exact hk
      · exact h.keys hk'
    · exact absurd hk' (AList.notMem_empty _)
  · exact h.keys (r := r') (by rwa [List.getD_eq_getElem?_getD])

end ResolveCtx.Within

/-- Callees that return within a depth, whatever the values and the orders are. -/
structure Callees.Returns (callees : Callees) (db : Database) (fuel : ℕ) : Prop where
  snapshot : ∀ envID visited s, s.Within db → snapshotDepth db s visited ≤ fuel →
    wp (callees.snapshot envID visited) s (fun _ s' => s'.Within db ∧ envID ∈ envIDs db)
      (· ≠ .outOfFuel)
  expand : ∀ envID key value visited s, s.Within db → envID ∈ envIDs db → key ∈ secretKeys db →
    expandDepth db s visited ≤ fuel →
    wp (callees.expand envID key value visited) s (fun _ s' => s'.Within db) (· ≠ .outOfFuel)

namespace Call

variable (rc : Call) {db : Database} (hdb : ∀ n, rc.dbs n = db) {self : Callees} {fuel : ℕ}

/-- Resolving a name needs no recursion. -/
theorem resolveEnvName_returns (name : Str) {s : ResolveCtx} (hw : s.Within db) :
    wp (rc.resolveEnvName name) s (fun _ s' => s'.Within db) (· ≠ .outOfFuel) := by
  unfold resolveEnvName
  simp only [wp_bind, wp_get]
  cases s.envByNameID.lookup name with
  | some id => exact hw
  | none =>
    simp only [wp_bind, wp_query]
    cases EnvRepo.byName rc.projectID name (rc.dbs s.queries) with
    | error e => exact Fault.noConfusion
    | ok env => exact (hw.queried _).named _

/-- The inherited entries have stored keys. -/
theorem inherited_returns (hr : self.Returns db fuel) (env : Environment)
    {visited : List Int} {s : ResolveCtx} (hw : s.Within db)
    (hd : ∀ s', s.Extends s' → snapshotDepth db s' visited ≤ fuel) :
    wp (rc.inherited self env visited) s
      (fun base s' => s'.Within db ∧ ∀ k ∈ base, k ∈ secretKeys db) (· ≠ .outOfFuel) := by
  unfold inherited
  split
  · exact ⟨hw, fun k hk => absurd hk (AList.notMem_empty k)⟩
  · simp only [wp_bind]
    refine wp_wrap (wp_mono (wp_and (rc.resolveEnvName_returns _ hw)
      (rc.resolveEnvName_frame _ s)) ?_ ?_)
    · rintro parentID s₁ ⟨hw₁, hs₁, -⟩
      refine wp_mono (hr.snapshot parentID visited s₁ hw₁ (hd s₁ hs₁)) ?_ fun _ he => he
      rintro r s₂ ⟨hw₂, -⟩
      exact ⟨hw₂, fun k hk => hw₂.keys hk⟩
    · rintro (_ | e) ⟨he, -⟩
      · exact he
      · exact Fault.noConfusion

/-- The overlaid entries have stored keys. -/
theorem overlay_returns (envID : Int) {secrets : List Secret} {base : Snapshot} {s : ResolveCtx}
    (hs : ∀ x ∈ secrets, x.key ∈ secretKeys db) (hb : ∀ k ∈ base, k ∈ secretKeys db) :
    wp (secrets.foldlM (rc.overlayOne envID) base) s
      (fun merged s' => s' = s ∧ ∀ k ∈ merged, k ∈ secretKeys db) (· ≠ .outOfFuel) := by
  refine wp_mono (wp_foldlM (fun rest m s' => s' = s ∧ (∀ x ∈ rest, x.key ∈ secretKeys db) ∧
    ∀ k ∈ m, k ∈ secretKeys db) ?_ secrets base s ⟨rfl, hs, hb⟩) ?_ fun _ he => he
  · rintro x rest m s' ⟨rfl, hrest, hm⟩
    unfold overlayOne
    cases rc.opens x.ciphertext with
    | none => exact Fault.noConfusion
    | some plain =>
      refine ⟨rfl, fun y hy => hrest y (List.mem_cons_of_mem x hy), fun k hk => ?_⟩
      rcases (AList.mem_insert _).mp hk with rfl | hk
      · exact hrest x List.mem_cons_self
      · exact hm k hk
  · rintro merged s' ⟨rfl, -, hm⟩
    exact ⟨rfl, hm⟩

/-- One entry of the loop of `snapshot` returns. -/
theorem expandEntry_returns (hr : self.Returns db fuel) {envID : Int} (hmem : envID ∈ envIDs db)
    (r : ℕ) {k : Str} {s : ResolveCtx} (hw : s.Within db) (hd : expandDepth db s [] ≤ fuel) :
    wp (expandEntry self envID r k) s (fun _ s' => s'.Within db) (· ≠ .outOfFuel) := by
  unfold expandEntry
  simp only [wp_bind, wp_deref]
  cases hv : (s.maps.getD r ∅).lookup k with
  | none => exact hw
  | some v =>
    have hk : k ∈ secretKeys db := hw.keys (AList.lookup_isSome.mp (by rw [hv]; rfl))
    simp only [wp_bind, wp_write]
    refine wp_mono (hr.expand envID k v.value [] s hw hmem hk hd) ?_ fun _ he => he
    intro expanded s' hw'
    exact hw'.written r hk _

include hdb in
/-- One more level of `snapshot` returns. -/
theorem snapshotBody_returns (hf : self.Framed) (hr : self.Returns db fuel) (envID : Int)
    (visited : List Int) {s : ResolveCtx} (hw : s.Within db)
    (hd : snapshotDepth db s visited ≤ fuel + 1) :
    wp (rc.snapshotBody self envID visited) s
      (fun _ s' => s'.Within db ∧ envID ∈ envIDs db) (· ≠ .outOfFuel) := by
  unfold snapshotBody
  simp only [wp_bind, wp_get]
  cases hc : s.envCache.lookup envID with
  | some r => exact ⟨hw, hw.cached hc⟩
  | none =>
    by_cases hv : envID ∈ visited
    · simp only [hv, if_true]
      exact Fault.noConfusion
    simp only [hv, if_false, wp_bind, wp_query, hdb]
    cases hid : EnvRepo.byID envID db with
    | error e => exact Fault.noConfusion
    | ok env =>
      have hmem := mem_envIDs_of_byID hid
      have hq := (ResolveCtx.Extends.refl s).queried (s.queries + 1)
      simp only [wp_bind, wp_query, wp_alloc, wp_modify, wp_get, wp_pure, hdb]
      refine wp_mono (wp_and (rc.inherited_returns hr env (hw.queried _) fun s' hs' =>
        snapshotDepth_parent (hq.trans hs') hmem hv hd) (rc.inherited_frame hf env _ _)) ?_
        fun _ he => he.1
      rintro base s₁ ⟨⟨hw₁, hb⟩, hs₁⟩
      refine wp_mono (rc.overlay_returns envID
        (fun x hx => mem_secretKeys_of_listByEnv hx) hb) ?_ fun _ he => he
      rintro merged s₂ ⟨rfl, hm⟩
      have hs₁ := hq.trans hs₁
      have hw₃ := (((hw₁.queried (s₁.queries + 1)).allocated hm).cache hmem s₁.maps.length)
      let s₀ : ResolveCtx := { s₁ with envCache := s₁.envCache.insert envID s₁.maps.length }
      have hs₀ : s.Extends s₀ := hs₁.cached hc s₁.maps.length
      have hle : s₀.maps.length ≤ s₁.maps.length := le_rfl
      have hc₀ : s₀.envCache.lookup envID = some s₁.maps.length := AList.lookup_insert _
      refine wp_mono (wp_foldlM (fun _ _ s' => s'.Within db ∧ s₀.Extends s') ?_ _ _ _
        ⟨hw₃, ((ResolveCtx.Extends.refl s₀).queried _).allocated merged⟩) ?_ fun _ he => he
      · rintro k rest _ s' ⟨hw', hs'⟩
        have hd' := expandDepth_entry (hs₀.trans hs') hmem hc (hs'.cache hc₀) hd
        exact wp_mono (wp_and (expandEntry_returns hr hmem s₁.maps.length hw' hd')
          (expandEntry_frame hf hle envID k hs')) (fun _ _ h => h) fun _ he => he.1
      · rintro _ s' ⟨hw', -⟩
        exact ⟨hw', hmem⟩

/-- One resolved reference returns. -/
theorem expandReference_returns (hf : self.Framed) (hr : self.Returns db fuel)
    {visited : List RefPos} (ref : Reference) (out : Str) {s : ResolveCtx} (hw : s.Within db)
    (hd : ∀ s', s.Extends s' → snapshotDepth db s' [] ≤ fuel ∧ expandDepth db s' visited ≤ fuel) :
    wp (rc.expandReference self visited ref out) s (fun _ s' => s'.Within db)
      (· ≠ .outOfFuel) := by
  unfold expandReference
  simp only [wp_bind, wp_deref]
  refine wp_wrap (wp_mono (wp_and (rc.resolveEnvName_returns _ hw)
    (rc.resolveEnvName_frame _ s)) ?_ ?_)
  · rintro targetEnvID s₁ ⟨hw₁, hs₁, -⟩
    refine wp_mono (wp_and (hr.snapshot targetEnvID [] s₁ hw₁ (hd s₁ hs₁).1)
      (hf.snapshot targetEnvID [] s₁)) ?_ fun _ he => he.1
    rintro r s₂ ⟨⟨hw₂, hmem⟩, hs₂⟩
    cases hl : (s₂.maps.getD r ∅).lookup ref.keyName with
    | none => exact Fault.noConfusion
    | some target =>
      have hk : ref.keyName ∈ secretKeys db :=
        hw₂.keys (AList.lookup_isSome.mp (by rw [hl]; rfl))
      simp only [wp_bind, wp_pure]
      exact hr.expand _ _ _ _ s₂ hw₂ hmem hk (hd s₂ (hs₁.trans hs₂)).2
  · rintro (_ | e) ⟨he, -⟩
    · exact he
    · exact Fault.noConfusion

/-- One more level of `expand` returns. -/
theorem expandBody_returns (hf : self.Framed) (hr : self.Returns db fuel) {envID : Int} {key : Str}
    (value : Str) (visited : List RefPos) {s : ResolveCtx} (hw : s.Within db)
    (hmem : envID ∈ envIDs db) (hk : key ∈ secretKeys db)
    (hd : expandDepth db s visited ≤ fuel + 1) :
    wp (rc.expandBody self envID key value visited) s (fun _ s' => s'.Within db)
      (· ≠ .outOfFuel) := by
  unfold expandBody
  by_cases hrefs : findReferences value = []
  · simp only [hrefs, if_true]
    exact hw
  · by_cases hv : (⟨envID, key⟩ : RefPos) ∈ visited
    · simp only [hrefs, hv, if_false, if_true]
      exact Fault.noConfusion
    simp only [hrefs, hv, if_false]
    have hnode : (envID, key) ∈ refNodes db := Finset.mem_product.mpr ⟨hmem, hk⟩
    refine wp_mono (wp_foldrM (fun _ _ s' => s'.Within db ∧ s.Extends s') _ ?_ _ _
      ⟨hw, .refl s⟩) (fun _ _ h => h.1) fun _ he => he
    rintro _ ref _ out s' _ ⟨hw', hs'⟩
    refine wp_mono (wp_and (rc.expandReference_returns hf hr ref out hw' fun s'' hs'' => ?_)
      (rc.expandReference_frame hf _ ref out s')) ?_ fun _ he => he.1
    · have hss := hs'.trans hs''
      exact ⟨snapshotDepth_target hss hd, expandDepth_target hss hnode hv hd⟩
    · rintro _ s'' ⟨hw'', hs''⟩
      exact ⟨hw'', hs'.trans hs''⟩

include hdb in
/-- Every recursion depth is enough for the states it is large enough for. -/
theorem callees_returns (fuel : ℕ) : (rc.callees fuel).Returns db fuel := by
  induction fuel with
  | zero =>
    refine ⟨fun envID visited s _ hd => absurd hd ?_, fun envID key value visited s _ _ _ hd =>
      absurd hd ?_⟩
    · unfold snapshotDepth
      omega
    · unfold expandDepth
      omega
  | succ fuel ih =>
    have hf := rc.callees_framed fuel
    exact ⟨fun envID visited s hw hd => rc.snapshotBody_returns hdb hf ih envID visited hw hd,
      fun envID key value visited s hw hmem hk hd =>
        rc.expandBody_returns hf ih value visited hw hmem hk hd⟩

include hdb in
/-- A whole call returns at the depth its database asks for. -/
theorem resolve_returns (envID : Int) : rc.resolve (resolveDepth db) envID ≠ .error .outOfFuel := by
  have hd : snapshotDepth db .initial [] ≤ resolveDepth db := by
    have hu : (uncached db .initial).card ≤ (envIDs db).card :=
      Finset.card_le_card (Finset.filter_subset _ _)
    have hm := Nat.mul_le_mul_right (cacheWorth db) hu
    have hl := unvisitedEnvs_card_le db []
    unfold snapshotDepth resolveDepth
    omega
  have h := (rc.callees_returns hdb (resolveDepth db)).snapshot envID [] .initial
    ResolveCtx.Within.initial hd
  unfold resolve
  cases hr : (rc.callees (resolveDepth db)).snapshot envID [] .initial with
  | ok r =>
    intro he
    cases he
  | error e =>
    intro he
    cases he
    exact wp_error h hr rfl

end Call

/-- Both functions are monotone in the recursion depth. -/
structure Callees.Below (callees callees' : Callees) : Prop where
  snapshot : ∀ envID visited,
    Core.Below .outOfFuel (callees.snapshot envID visited) (callees'.snapshot envID visited)
  expand : ∀ envID key value visited, Core.Below .outOfFuel
    (callees.expand envID key value visited) (callees'.expand envID key value visited)

namespace Call

variable (rc : Call) {self : Callees}

/-- `snapshot` is monotone in its callees. -/
theorem snapshotBody_below {self' : Callees} (h : self.Below self') (envID : Int)
    (visited : List Int) : Core.Below .outOfFuel (rc.snapshotBody self envID visited)
      (rc.snapshotBody self' envID visited) := by
  refine (Core.Below.refl _).bind fun s => ?_
  cases s.envCache.lookup envID with
  | some r => exact .refl _
  | none =>
    by_cases hv : envID ∈ visited
    · simp only [hv, if_true]
      exact .refl _
    simp only [hv, if_false]
    refine (Core.Below.refl _).bind fun found => ?_
    cases found with
    | error e => exact .refl _
    | ok env =>
      refine Core.Below.bind ?_ fun base => ?_
      · unfold inherited
        split
        · exact .refl _
        · exact (Core.Below.refl _).bind fun parentID =>
            (h.snapshot parentID _).bind fun r => .refl _
      · refine (Core.Below.refl _).bind fun secrets => (Core.Below.refl _).bind fun merged =>
          (Core.Below.refl _).bind fun r => (Core.Below.refl _).bind fun _ =>
          (Core.Below.refl _).bind fun s => Core.Below.bind ?_ fun _ => .refl _
        refine Core.Below.foldlM (fun _ k => ?_) _ _
        refine (Core.Below.refl _).bind fun m => ?_
        cases m.lookup k with
        | none => exact .refl _
        | some v => exact (h.expand envID k v.value []).bind fun _ => .refl _

/-- `expand` is monotone in its callees. -/
theorem expandBody_below {self' : Callees} (h : self.Below self') (envID : Int) (key value : Str)
    (visited : List RefPos) : Core.Below .outOfFuel (rc.expandBody self envID key value visited)
      (rc.expandBody self' envID key value visited) := by
  unfold expandBody
  by_cases hrefs : findReferences value = []
  · simp only [hrefs, if_true]
    exact .refl _
  · by_cases hv : (⟨envID, key⟩ : RefPos) ∈ visited
    · simp only [hrefs, hv, if_false, if_true]
      exact .refl _
    simp only [hrefs, hv, if_false]
    refine Core.Below.foldrM (fun ref out => ?_) _ _
    refine (Core.Below.refl _).bind fun targetEnvID => (h.snapshot targetEnvID []).bind fun r =>
      (Core.Below.refl _).bind fun target => ?_
    cases target.lookup ref.keyName with
    | none => exact .refl _
    | some v => exact (h.expand targetEnvID ref.keyName v.value _).bind fun _ => .refl _

/-- A deeper recursion does what a shallower one does, wherever that one returns. -/
theorem callees_below {fuel fuel' : ℕ} (hle : fuel ≤ fuel') :
    (rc.callees fuel).Below (rc.callees fuel') := by
  induction fuel generalizing fuel' with
  | zero => exact ⟨fun _ _ _ => .inl rfl, fun _ _ _ _ _ => .inl rfl⟩
  | succ fuel ih =>
    cases fuel' with
    | zero => omega
    | succ fuel' =>
      have h := ih (Nat.le_of_succ_le_succ hle)
      exact ⟨rc.snapshotBody_below h, rc.expandBody_below h⟩

/-- The result of a call does not depend on the depth, from `resolveDepth` on. -/
theorem resolve_stable {db : Database} (hdb : ∀ n, rc.dbs n = db) {fuel : ℕ}
    (hle : resolveDepth db ≤ fuel) (envID : Int) :
    rc.resolve fuel envID = rc.resolve (resolveDepth db) envID := by
  have hb := (rc.callees_below hle).snapshot envID []
  have hret := rc.resolve_returns hdb envID
  unfold resolve at hret ⊢
  rw [hb.eq_of_ne fun he => hret (by rw [he])]

end Call

/-- `Resolver.Resolve` on one database state. -/
def Resolver.resolve (r : Resolver) (db : Database) (order : MapOrder) (projectID envID : Int) :
    Except Fault Snapshot :=
  r.resolveWithin (resolveDepth db) (fun _ => db) order projectID envID

/-- `Resolve` returns a snapshot or an error of the source, and never asks for a deeper recursion
than the database allows; its loops range over finite lists. -/
theorem Resolver.resolve_terminates (r : Resolver) (db : Database) (order : MapOrder)
    (projectID envID : Int) : ∃ result : Except ResolveError Snapshot, ∀ spare,
      r.resolveWithin (resolveDepth db + spare) (fun _ => db) order projectID envID =
        result.mapError .error := by
  unfold resolveWithin
  cases r.masterKey with
  | none => exact ⟨.error .loadMasterKey, fun _ => rfl⟩
  | some key =>
    let rc := r.call (fun _ => db) order projectID key
    have hstable (spare) : rc.resolve (resolveDepth db + spare) envID =
        rc.resolve (resolveDepth db) envID :=
      rc.resolve_stable (fun _ => rfl) (Nat.le_add_right _ _) envID
    have hret := rc.resolve_returns (fun _ => rfl) envID
    cases hres : rc.resolve (resolveDepth db) envID with
    | ok snapshot => exact ⟨.ok snapshot, fun spare => (hstable spare).trans hres⟩
    | error e =>
      cases e with
      | outOfFuel => exact absurd hres hret
      | error e => exact ⟨.error e, fun spare => (hstable spare).trans hres⟩

end Comax.Secret
