import Comax.Secret.Resolver

/-!
# What a resolver call leaves alone

Rules for the primitives of the resolver, and the frame of the two recursive
functions: a call only adds maps, cache entries and resolved names. A map that
existed before a call is not written by it, although the callee rewrites the maps
it allocates itself; this is what lets a loop over a cached map rely on the entries
it has not visited yet.
-/

namespace Comax.Secret

open Comax.Core Comax.Store

section Primitives

variable (rc : Call) {α : Type}

@[simp] theorem wp_fail (e : ResolveError) (s : ResolveCtx) (Q : α → ResolveCtx → Prop)
    (E : Fault → Prop) : wp (fail e) s Q E ↔ E (.error e) := Iff.rfl

@[simp] theorem wp_query (q : Database → α) (s : ResolveCtx) (Q : α → ResolveCtx → Prop)
    (E : Fault → Prop) :
    wp (rc.query q) s Q E ↔ Q (q (rc.dbs s.queries)) { s with queries := s.queries + 1 } := Iff.rfl

@[simp] theorem wp_deref (r : ℕ) (s : ResolveCtx) (Q : Snapshot → ResolveCtx → Prop)
    (E : Fault → Prop) : wp (Call.deref r) s Q E ↔ Q (s.maps.getD r ∅) s := Iff.rfl

@[simp] theorem wp_alloc (m : Snapshot) (s : ResolveCtx) (Q : ℕ → ResolveCtx → Prop)
    (E : Fault → Prop) :
    wp (Call.alloc m) s Q E ↔ Q s.maps.length { s with maps := s.maps ++ [m] } := Iff.rfl

@[simp] theorem wp_write (r : ℕ) (k : Str) (v : ResolvedSecret) (s : ResolveCtx)
    (Q : Unit → ResolveCtx → Prop) (E : Fault → Prop) :
    wp (Call.write r k v) s Q E ↔
      Q () { s with maps := s.maps.set r ((s.maps.getD r ∅).insert k v) } := Iff.rfl

/-- Wrapping errors changes no returning run. -/
theorem wp_wrap {f : ResolveError → ResolveError} {m : ResolveM α} {s : ResolveCtx}
    {Q : α → ResolveCtx → Prop} {E : Fault → Prop}
    (h : wp m s Q fun e => match e with
      | .outOfFuel => E .outOfFuel
      | .error e => E (.error (f e))) :
    wp (Call.wrap f m) s Q E := by
  unfold wp Call.wrap at *
  cases hm : m s with
  | ok r => rw [hm] at h; exact h
  | error e =>
    rw [hm] at h
    cases e with
    | outOfFuel => exact h
    | error e => exact h

end Primitives

/-- The state after has everything the state before had. -/
structure ResolveCtx.Extends (s s' : ResolveCtx) : Prop where
  maps : s.maps <+: s'.maps
  cache : ∀ {envID r}, s.envCache.lookup envID = some r → s'.envCache.lookup envID = some r
  names : ∀ {name id}, s.envByNameID.lookup name = some id → s'.envByNameID.lookup name = some id

namespace ResolveCtx.Extends

variable {s s' s'' : ResolveCtx}

theorem refl (s : ResolveCtx) : s.Extends s := ⟨List.prefix_refl _, id, id⟩

theorem trans (h : s.Extends s') (h' : s'.Extends s'') : s.Extends s'' :=
  ⟨h.maps.trans h'.maps, fun hc => h'.cache (h.cache hc), fun hn => h'.names (h.names hn)⟩

/-- A map of the earlier state is unchanged in the later one. -/
theorem getD_maps (h : s.Extends s') {r : ℕ} (hr : r < s.maps.length) :
    s'.maps.getD r ∅ = s.maps.getD r ∅ := by
  obtain ⟨t, ht⟩ := h.maps
  rw [← ht, List.getD_eq_getElem?_getD, List.getD_eq_getElem?_getD, List.getElem?_append_left hr]

/-- No map disappears. -/
theorem length_le (h : s.Extends s') : s.maps.length ≤ s'.maps.length := h.maps.length_le

/-- Counting a query changes nothing else. -/
theorem queried (h : s.Extends s') (n : ℕ) : s.Extends { s' with queries := n } :=
  ⟨h.maps, h.cache, h.names⟩

/-- Allocation is at the end. -/
theorem allocated (h : s.Extends s') (m : Snapshot) :
    s.Extends { s' with maps := s'.maps ++ [m] } :=
  ⟨h.maps.trans (List.prefix_append _ _), h.cache, h.names⟩

/-- Caching an environment that was not cached. -/
theorem cached (h : s.Extends s') {envID : Int} (hnew : s.envCache.lookup envID = none) (r : ℕ) :
    s.Extends { s' with envCache := s'.envCache.insert envID r } := by
  refine ⟨h.maps, fun {e r'} he => ?_, h.names⟩
  have hne : e ≠ envID := by
    rintro rfl
    rw [hnew] at he
    cases he
  simpa only [AList.lookup_insert_ne hne] using h.cache he

/-- Recording a name that was not recorded. -/
theorem named (h : s.Extends s') {name : Str} (hnew : s'.envByNameID.lookup name = none)
    (id : Int) : s.Extends { s' with envByNameID := s'.envByNameID.insert name id } := by
  refine ⟨h.maps, h.cache, fun {n i} hn => ?_⟩
  have hne : n ≠ name := by
    rintro rfl
    rw [h.names hn] at hnew
    cases hnew
  simpa only [AList.lookup_insert_ne hne] using h.names hn

/-- Writing a map that the earlier state did not have. -/
theorem written (h : s.Extends s') {r : ℕ} (hr : s.maps.length ≤ r) (m : Snapshot) :
    s.Extends { s' with maps := s'.maps.set r m } := by
  refine ⟨?_, h.cache, h.names⟩
  obtain ⟨t, ht⟩ := h.maps
  change s.maps <+: s'.maps.set r m
  rw [← ht, List.set_append_right _ _ hr]
  exact List.prefix_append _ _

end ResolveCtx.Extends

/-- Resolving a name keeps the frame. -/
theorem Call.resolveEnvName_frame (rc : Call) (name : Str) (s : ResolveCtx) :
    wp (rc.resolveEnvName name) s (fun _ s' => s.Extends s' ∧ s'.maps = s.maps ∧
      s'.envCache = s.envCache) (fun _ => True) := by
  unfold resolveEnvName
  simp only [wp_bind, wp_get]
  cases hn : s.envByNameID.lookup name with
  | some id => exact ⟨.refl s, rfl, rfl⟩
  | none =>
    simp only [wp_bind, wp_query]
    cases EnvRepo.byName rc.projectID name (rc.dbs s.queries) with
    | error e => simp only [wp_fail]
    | ok env =>
      simp only [wp_bind, wp_modify, wp_pure, and_true]
      have hs := (ResolveCtx.Extends.refl s).queried (s.queries + 1)
      exact hs.named hn env.id

/-- The frame of a pair of callees. -/
structure Callees.Framed (callees : Callees) : Prop where
  snapshot : ∀ envID visited s, wp (callees.snapshot envID visited) s
    (fun _ s' => s.Extends s') (fun _ => True)
  expand : ∀ envID key value visited s, wp (callees.expand envID key value visited) s
    (fun _ s' => s.Extends s') (fun _ => True)

namespace Call

variable (rc : Call) {self : Callees}

/-- The parent snapshot is read, not written. -/
theorem inherited_frame (h : self.Framed) (env : Environment) (visited : List Int)
    (s : ResolveCtx) : wp (rc.inherited self env visited) s (fun _ s' => s.Extends s')
      (fun _ => True) := by
  unfold inherited
  split
  · exact .refl s
  · simp only [wp_bind]
    refine wp_wrap (wp_mono (rc.resolveEnvName_frame _ s) ?_ (fun e _ => by cases e <;> trivial))
    intro parentID s₁ hs₁
    refine wp_mono (h.snapshot parentID visited s₁) (fun r s₂ hs₂ => ?_) (fun _ _ => trivial)
    exact hs₁.1.trans hs₂

/-- One overlaid secret changes no state. -/
theorem overlay_frame (envID : Int) (secrets : List Secret) (base : Snapshot) (s : ResolveCtx) :
    wp (secrets.foldlM (rc.overlayOne envID) base) s (fun _ s' => s' = s) (fun _ => True) := by
  refine wp_foldlM (fun _ _ s' => s' = s) ?_ secrets base s rfl
  rintro x _ m _ rfl
  unfold overlayOne
  cases rc.opens x.ciphertext with
  | none => simp only [wp_fail]
  | some plain => simp only [wp_pure]

/-- The loop of `snapshot` writes only the map it ranges over. -/
theorem expandEntry_frame (h : self.Framed) {s₀ : ResolveCtx} {r : ℕ}
    (hr : s₀.maps.length ≤ r) (envID : Int) (k : Str) {s : ResolveCtx} (hs : s₀.Extends s) :
    wp (expandEntry self envID r k) s (fun _ s' => s₀.Extends s') (fun _ => True) := by
  unfold expandEntry
  simp only [wp_bind, wp_deref]
  cases (s.maps.getD r ∅).lookup k with
  | none => exact hs
  | some v =>
    simp only [wp_bind, wp_write]
    refine wp_mono (h.expand envID k v.value [] s) (fun _ s' hs' => ?_) (fun _ _ => trivial)
    exact (hs.trans hs').written hr _

/-- The frame of `snapshot`. -/
theorem snapshotBody_frame (h : self.Framed) (envID : Int) (visited : List Int) (s : ResolveCtx) :
    wp (rc.snapshotBody self envID visited) s (fun _ s' => s.Extends s') (fun _ => True) := by
  unfold snapshotBody
  simp only [wp_bind, wp_get]
  cases hc : s.envCache.lookup envID with
  | some r => exact .refl s
  | none =>
    by_cases hv : envID ∈ visited
    · simp only [hv, if_true, wp_bind, wp_get, wp_fail]
    · simp only [hv, if_false, wp_bind, wp_query]
      cases EnvRepo.byID envID (rc.dbs s.queries) with
      | error e => simp only [wp_fail]
      | ok env =>
        simp only [wp_bind, wp_query, wp_alloc, wp_modify, wp_get, wp_pure]
        have hq := (ResolveCtx.Extends.refl s).queried (s.queries + 1)
        refine wp_mono (rc.inherited_frame h env _ _) (fun base s₁ hs₁ => ?_) (fun _ _ => trivial)
        have hs₁ := hq.trans hs₁
        refine wp_mono (rc.overlay_frame envID _ base _) (fun merged s₂ hs₂ => ?_)
          (fun _ _ => trivial)
        subst hs₂
        have hstart := ((hs₁.queried (s₁.queries + 1)).allocated merged).cached hc s₁.maps.length
        exact wp_foldlM (fun _ _ s' => s.Extends s')
          (fun k _ _ s' hs' => expandEntry_frame h hs₁.length_le envID k hs') _ _ _ hstart

/-- The frame of one resolved reference. -/
theorem expandReference_frame (h : self.Framed) (visited : List RefPos) (ref : Reference)
    (out : Str) (s : ResolveCtx) : wp (rc.expandReference self visited ref out) s
      (fun _ s' => s.Extends s') (fun _ => True) := by
  unfold expandReference
  simp only [wp_bind, wp_deref]
  refine wp_wrap (wp_mono (rc.resolveEnvName_frame _ s) ?_ (fun e _ => by cases e <;> trivial))
  intro targetEnvID s₁ hs₁
  refine wp_mono (h.snapshot targetEnvID [] s₁) (fun r s₂ hs₂ => ?_) (fun _ _ => trivial)
  have hs₂ := hs₁.1.trans hs₂
  cases (s₂.maps.getD r ∅).lookup ref.keyName with
  | none => simp only [wp_fail]
  | some target =>
    simp only [wp_bind, wp_pure]
    exact wp_mono (h.expand _ _ _ _ s₂) (fun _ s₃ hs₃ => hs₂.trans hs₃) (fun _ _ => trivial)

/-- The frame of `expand`. -/
theorem expandBody_frame (h : self.Framed) (envID : Int) (key value : Str)
    (visited : List RefPos) (s : ResolveCtx) : wp (rc.expandBody self envID key value visited) s
      (fun _ s' => s.Extends s') (fun _ => True) := by
  unfold expandBody
  by_cases hrefs : findReferences value = []
  · simp only [hrefs, if_true, wp_pure]
    exact .refl s
  · by_cases hv : (⟨envID, key⟩ : RefPos) ∈ visited
    · simp only [hrefs, hv, if_false, if_true, wp_bind, wp_get, wp_fail]
    · simp only [hrefs, hv, if_false]
      refine wp_foldrM (fun _ _ s' => s.Extends s') _ (fun _ ref _ out s' _ hs' => ?_) _ _ (.refl s)
      exact wp_mono (rc.expandReference_frame h _ ref out s') (fun _ _ hs'' => hs'.trans hs'')
        (fun _ he => he)

/-- The frame of the two functions at every recursion depth. -/
theorem callees_framed (fuel : ℕ) : (rc.callees fuel).Framed := by
  induction fuel with
  | zero => exact ⟨fun _ _ _ => trivial, fun _ _ _ _ _ => trivial⟩
  | succ fuel ih => exact ⟨rc.snapshotBody_frame ih, rc.expandBody_frame ih⟩

end Call

end Comax.Secret
