import Comax.Secret.Laws

/-!
# What the errors of the resolver say

An error of `Resolve` names the environment that is not stored, the parent or the
target that does not exist, the row that does not open, or the chain that closed.
The two visited lists are paths of the stored inheritance and reference graphs, so a
reported cycle is one of them. Only the nodes of a reference cycle, and where an
error comes from, rest on values that are read twice holding no reference.
-/

namespace Comax.Secret

open Comax.Core Comax.Store Relation

/-- The path ends at a node where it has been before. -/
def Closes {α : Type} (path : List α) : Prop :=
  ∃ visited n, path = visited ++ [n] ∧ n ∈ visited

/-- Whatever comes before the end of a path reaches it. -/
theorem transGen_of_isChain {α : Type} {R : α → α → Prop} {visited : List α} {n : α}
    (h : (visited ++ [n]).IsChain R) : ∀ x ∈ visited, TransGen R x n := by
  intro x hx
  have hpair := (h.imp fun _ _ hr => TransGen.single hr).pairwise
  exact (List.pairwise_append.mp hpair).2.2 x hx n List.mem_cons_self

/-- A path goes on along a link of its end. -/
theorem isChain_concat {α : Type} {R : α → α → Prop} {visited : List α} {n n' : α}
    (h : (visited ++ [n]).IsChain R) (hr : R n n') : (visited ++ [n] ++ [n']).IsChain R := by
  refine List.isChain_append.mpr ⟨h, List.isChain_singleton _, ?_⟩
  intro x hx y hy
  rw [List.getLast?_concat, Option.mem_some] at hx
  rw [List.head?_singleton, Option.mem_some] at hy
  rwa [← hx, ← hy]

namespace Source

/-- Two positions of `expand`, one referring to the other. -/
def Refers (w : Source) (p p' : RefPos) : Prop := w.Edge (p.envID, p.key) (p'.envID, p'.key)

section

variable (w : Source) (start : Int)

/-- The stored name of an environment. -/
def Stored (envID : Int) (name : Str) : Prop :=
  ∃ env, EnvRepo.byID envID w.db = .ok env ∧ env.name = name

/-- A raw value of the closure contains the reference. -/
def Contains (envName keyName : Str) : Prop :=
  ∃ envID key text, ∃ ref ∈ findReferences text, w.Member start envID ∧ w.Raw envID key text ∧
    ref.envName = envName ∧ ref.keyName = keyName

/-- What an error of the source says about the database. -/
def Told : ResolveError → Prop
  | .loadEnv envID => envID = start ∧ ∀ env, EnvRepo.byID envID w.db ≠ .ok env
  | .inheritsFrom env parent (.unknownEnv name) => name = parent ∧ (∀ id, ¬ w.Named parent id) ∧
      ∃ child row, EnvRepo.byID child w.db = .ok row ∧ row.name = env ∧ row.inheritsFrom = parent ∧
        parent ≠ [] ∧ (w.RereadSafe start → w.Member start child)
  | .decrypt key envID => ∃ row ∈ SecretRepo.listByEnv envID w.db, row.key = key ∧
      w.opens row.ciphertext = none ∧ (w.RereadSafe start → w.Member start envID)
  | .cycle .inheritance path => ∃ ids, Closes ids ∧ ids.IsChain w.Parent ∧
      List.Forall₂ w.Stored ids path ∧ (w.RereadSafe start → ∀ id ∈ ids, w.Member start id)
  | .cycle .reference path => w.RereadSafe start → ∃ positions, Closes positions ∧
      positions.IsChain w.Refers ∧ (∀ p ∈ positions, w.Member start p.envID) ∧
      List.Forall₂ (fun p text => ∃ name, w.Stored p.envID name ∧ text = name ++ ascii "." ++ p.key)
        positions path
  | .reference envName keyName (.unknownEnv name) => name = envName ∧
      (∀ id, ¬ w.Named envName id) ∧ (w.RereadSafe start → w.Contains start envName keyName)
  | .reference envName keyName .unknownReference => ∃ target, w.Named envName target ∧
      (∀ row, ¬ w.Overlay target keyName row) ∧
      (w.RereadSafe start → w.Contains start envName keyName)
  | _ => False

/-- A fault of the model that is an error of the source is told. -/
def Telling : Fault → Prop
  | .outOfFuel => True
  | .error e => w.Told start e

end

end Source

/-- Callees whose errors are told. The visited lists are paths of stored environments. -/
structure Callees.Honest (callees : Callees) (w : Source) (start : Int) : Prop where
  snapshot : ∀ active envID visited s, w.Inv active s →
    (w.RereadSafe start → ∀ id ∈ visited ++ [envID], w.Member start id) →
    (envID = start ∨ ∃ name, w.Stored envID name) → (visited ++ [envID]).IsChain w.Parent →
    wp (callees.snapshot envID visited) s (fun _ _ => True) (w.Telling start)
  expand : ∀ active envID key value visited s, w.Inv active s →
    w.Ready (w.RereadSafe start) s envID key value →
    (w.RereadSafe start → (∀ p ∈ visited ++ [RefPos.mk envID key], w.Member start p.envID) ∧
      (visited ++ [RefPos.mk envID key]).IsChain w.Refers) →
    (∀ p ∈ visited ++ [RefPos.mk envID key], ∃ name, w.Stored p.envID name) →
    wp (callees.expand envID key value visited) s (fun _ _ => True) (w.Telling start)

namespace Source

variable {w : Source} (order : MapOrder) {self : Callees} {start : Int} {active : Set Int}
  {s : ResolveCtx}

/-- A named environment has a stored name. -/
theorem Named.stored {name : Str} {id : Int} (h : w.Named name id) : ∃ name, w.Stored id name := by
  obtain ⟨env, henv⟩ := h.byID
  exact ⟨env.name, env, henv, rfl⟩

/-- An environment with a parent has a stored name. -/
theorem Parent.stored {child parent : Int} (h : w.Parent child parent) :
    ∃ name, w.Stored child name := by
  obtain ⟨env, henv, -, -⟩ := h
  exact ⟨env.name, env, henv, rfl⟩

/-- The name of a stored environment in a message. -/
theorem Stored.envNameOf {id : Int} {name : Str} (h : w.Stored id name) :
    Call.envNameOf w.db id = name := by
  obtain ⟨env, henv, rfl⟩ := h
  rw [Call.envNameOf, henv]

/-- A call over one database names an environment once. -/
theorem envChainNames_eq (ids : List Int) :
    (w.call order).envChainNames s ids = ids.map (Call.envNameOf w.db) := by
  conv_rhs => rw [← List.zipIdx_map_fst 0 ids, List.map_map]
  rfl

/-- A call over one database names a position once. -/
theorem refChainNames_eq (positions : List RefPos) :
    (w.call order).refChainNames s positions =
      positions.map fun p => Call.envNameOf w.db p.envID ++ ascii "." ++ p.key := by
  conv_rhs => rw [← List.zipIdx_map_fst 0 positions, List.map_map]
  rfl

/-- `envChainNames` of stored environments has their names. -/
theorem envChainNames_stored {ids : List Int} (h : ∀ id ∈ ids, ∃ name, w.Stored id name) :
    List.Forall₂ w.Stored ids ((w.call order).envChainNames s ids) := by
  rw [envChainNames_eq, List.forall₂_map_right_iff, List.forall₂_same]
  intro id hid
  obtain ⟨name, hname⟩ := h id hid
  rwa [hname.envNameOf]

/-- `refChainNames` of stored environments has their names. -/
theorem refChainNames_stored {positions : List RefPos}
    (h : ∀ p ∈ positions, ∃ name, w.Stored p.envID name) :
    List.Forall₂ (fun p text => ∃ name, w.Stored p.envID name ∧ text = name ++ ascii "." ++ p.key)
      positions ((w.call order).refChainNames s positions) := by
  rw [refChainNames_eq, List.forall₂_map_right_iff, List.forall₂_same]
  intro p hp
  obtain ⟨name, hname⟩ := h p hp
  exact ⟨name, hname, by rw [hname.envNameOf]⟩

/-- An unknown name is the error of `resolveEnvName`. -/
theorem resolveEnvName_told (name : Str) (h : w.Inv active s) :
    wp ((w.call order).resolveEnvName name) s (fun id s' => w.Inv active s' ∧ w.Named name id)
      (fun e => e = .error (.unknownEnv name) ∧ ∀ id, ¬ w.Named name id) := by
  have herror : wp ((w.call order).resolveEnvName name) s (fun _ _ => True)
      (fun e => e = .error (.unknownEnv name)) := by
    unfold Call.resolveEnvName
    simp only [wp_bind, wp_get]
    cases s.envByNameID.lookup name with
    | some id => trivial
    | none =>
      simp only [wp_bind, wp_query]
      cases EnvRepo.byName (w.call order).projectID name ((w.call order).dbs s.queries) with
      | error e => rfl
      | ok env => trivial
  exact wp_mono (wp_and (resolveEnvName_correct order name h) herror) (fun _ _ hq => hq.1)
    fun _ he => ⟨he.2, he.1.2⟩

/-- The errors of step 1 are told. -/
theorem inherited_told (hc : self.Correct w start) (hh : self.Honest w start) {envID : Int}
    {env : Environment} (henv : EnvRepo.byID envID w.db = .ok env) {visited : List Int}
    (hmem : w.RereadSafe start → ∀ id ∈ visited ++ [envID], w.Member start id)
    (hchain : (visited ++ [envID]).IsChain w.Parent) (h : w.Inv active s) :
    wp ((w.call order).inherited self env (visited ++ [envID])) s
      (fun base s' => w.Inv active s' ∧ w.Base s' envID base) (w.Telling start) := by
  have hself (hsafe : w.RereadSafe start) : w.Member start envID :=
    hmem hsafe envID (List.mem_append_right _ List.mem_cons_self)
  refine wp_combine (inherited_correct order hc hself henv (transGen_of_isChain hchain) h) ?_
  unfold Call.inherited
  by_cases hroot : env.inheritsFrom = []
  · simp only [hroot, if_true, wp_pure]
  simp only [hroot, if_false, wp_bind]
  refine wp_wrap (wp_mono (resolveEnvName_told order env.inheritsFrom h) ?_ ?_)
  · rintro parentID s₁ ⟨h₁, hnamed⟩
    have hparent : w.Parent envID parentID := ⟨env, henv, hroot, hnamed⟩
    refine wp_mono (hh.snapshot active parentID _ s₁ h₁ (fun hsafe => ?_) (.inr hnamed.stored)
      (isChain_concat hchain hparent)) (fun r s₂ _ => trivial) fun _ he => he
    intro id hid
    rcases List.mem_append.mp hid with hid | hid
    · exact hmem hsafe id hid
    · obtain rfl := List.mem_singleton.mp hid
      exact (hself hsafe).parent hparent
  · rintro e ⟨rfl, hno⟩
    exact ⟨rfl, hno, envID, env, henv, rfl, rfl, hroot, hself⟩

/-- The error of step 2 is told. -/
theorem overlay_told {envID : Int} (hmem : w.RereadSafe start → w.Member start envID)
    (base : Snapshot) :
    wp ((SecretRepo.listByEnv envID w.db).foldlM ((w.call order).overlayOne envID) base) s
      (fun _ _ => True) (w.Telling start) := by
  refine wp_mono (wp_foldlM (fun rest _ _ => ∀ row ∈ rest, row ∈ SecretRepo.listByEnv envID w.db) ?_
    _ _ _ fun _ h => h) (fun _ _ _ => trivial) fun _ he => he
  intro row rest m s' hsub
  unfold Call.overlayOne
  cases ho : (w.call order).opens row.ciphertext with
  | none => exact ⟨row, hsub row List.mem_cons_self, rfl, ho, hmem⟩
  | some text => exact fun row' hrow' => hsub row' (List.mem_cons_of_mem _ hrow')

/-- The errors of one entry of the loop are told. -/
theorem expandEntry_told (hh : self.Honest w start) {envID : Int}
    (hmem : w.RereadSafe start → w.Member start envID) (hstored : ∃ name, w.Stored envID name)
    {r : ℕ} {k : Str} {rest : List Str} (h : w.Inv active s)
    (hm : Partway w s envID (k :: rest) (s.maps.getD r ∅)) :
    wp (Call.expandEntry self envID r k) s (fun _ _ => True) (w.Telling start) := by
  unfold Call.expandEntry
  simp only [wp_bind, wp_deref]
  cases hv : (s.maps.getD r ∅).lookup k with
  | none => trivial
  | some v =>
    simp only [wp_bind, wp_write]
    have hready : w.Ready (w.Safe (envID, k)) s envID k v.value := by
      simpa only [List.mem_cons_self, if_true] using hm hv
    refine wp_mono (hh.expand active envID k v.value [] s h
      (hready.weaken fun hsafe => hsafe.safe (hmem hsafe)) (fun hsafe => ?_) ?_)
      (fun _ _ _ => trivial) fun _ he => he
    · refine ⟨fun p hp => ?_, List.isChain_singleton _⟩
      obtain rfl := List.mem_singleton.mp hp
      exact hmem hsafe
    · intro p hp
      obtain rfl := List.mem_singleton.mp hp
      exact hstored

/-- When the loop over a map begins, each of its entries can be expanded. -/
theorem partway_cached {envID : Int} {merged : Snapshot} {keys : List Str}
    (hready : ∀ {key v}, merged.lookup key = some v →
      w.Ready (w.Safe (envID, key)) s envID key v.value)
    (hkeys : keys.Perm merged.keys) (n : ℕ) :
    Partway w
      { s with
        queries := n
        maps := s.maps ++ [merged]
        envCache := s.envCache.insert envID s.maps.length }
      envID keys ((s.maps ++ [merged]).getD s.maps.length ∅) := by
  intro key v hl
  have hself : (s.maps ++ [merged]).getD s.maps.length ∅ = merged := by
    simp [List.getD_eq_getElem?_getD]
  rw [hself] at hl
  have hin : key ∈ keys := hkeys.mem_iff.mpr (AList.lookup_isSome.mp (by rw [hl]; rfl))
  rw [if_pos hin]
  refine (hready hl).mono fun e he => ?_
  obtain ⟨r, hr⟩ := he
  by_cases hne : e = envID
  · subst hne
    exact ⟨_, AList.lookup_insert _⟩
  · exact ⟨r, by rwa [AList.lookup_insert_ne hne]⟩

/-- The errors of one more level of `snapshot` are told. -/
theorem snapshotBody_told (hf : self.Framed) (hc : self.Correct w start)
    (hh : self.Honest w start) {envID : Int} {visited : List Int} (h : w.Inv active s)
    (hmem : w.RereadSafe start → ∀ id ∈ visited ++ [envID], w.Member start id)
    (hstored : envID = start ∨ ∃ name, w.Stored envID name)
    (hchain : (visited ++ [envID]).IsChain w.Parent) :
    wp ((w.call order).snapshotBody self envID visited) s (fun _ _ => True) (w.Telling start) := by
  have hself (hsafe : w.RereadSafe start) : w.Member start envID :=
    hmem hsafe envID (List.mem_append_right _ List.mem_cons_self)
  unfold Call.snapshotBody
  simp only [wp_bind, wp_get]
  cases hcache : s.envCache.lookup envID with
  | some r => trivial
  | none =>
    by_cases hvisited : envID ∈ visited
    · simp only [hvisited, if_true]
      -- every environment of the path has a parent, the last one where it occurs first
      refine ⟨visited ++ [envID], ⟨visited, envID, rfl, hvisited⟩, hchain,
        envChainNames_stored order fun id hid => ?_, hmem⟩
      have hid : id ∈ visited := by
        rcases List.mem_append.mp hid with hid | hid
        · exact hid
        · exact List.mem_singleton.mp hid ▸ hvisited
      obtain ⟨_, hparent, -⟩ := TransGen.head'_iff.mp (transGen_of_isChain hchain id hid)
      exact hparent.stored
    simp only [hvisited, if_false, wp_bind, wp_query]
    cases hid : EnvRepo.byID envID ((w.call order).dbs s.queries) with
    | error e =>
      have hnone : ∀ env, EnvRepo.byID envID w.db ≠ .ok env := fun env henv => by
        cases hid.symm.trans henv
      refine ⟨hstored.resolve_right ?_, hnone⟩
      rintro ⟨_, env, henv, -⟩
      exact hnone env henv
    | ok env =>
      simp only [wp_bind, wp_query, wp_alloc, wp_modify, wp_get, wp_pure]
      refine wp_mono (inherited_told order hc hh hid hmem hchain (h.queried _)) ?_ fun _ he => he
      rintro base s₁ ⟨h₁, hbase⟩
      refine wp_mono (wp_combine (overlay_correct order envID base _)
        (overlay_told order hself base)) ?_ fun _ he => he
      rintro merged s₂ ⟨rfl, hopen, hkeys⟩
      obtain ⟨hfaith, hready⟩ := faithful_overlay hbase hopen hkeys
      have h₃ := (h₁.queried (s₁.queries + 1)).cached (hfaith.of_cache rfl)
      have hperm := (w.call order).order.perm (s₁.queries + 1) merged.keys
      refine wp_mono (wp_foldlM (fun rest _ s' => w.Inv (insert envID active) s' ∧
        s'.envCache.lookup envID = some s₁.maps.length ∧ rest.Nodup ∧
        Partway w s' envID rest (s'.maps.getD s₁.maps.length ∅)) ?_ _ _ _
        ⟨h₃, AList.lookup_insert _, hperm.nodup_iff.mpr merged.nodupKeys,
          partway_cached hready hperm _⟩) (fun _ _ _ => trivial) fun _ he => he
      rintro k rest _ s' ⟨h', hr', hnodup, hm⟩
      have hk := List.nodup_cons.mp hnodup
      refine wp_mono (wp_combine (expandEntry_correct hf hc hself hr' hk.1 h' hm)
        (expandEntry_told hh hself ⟨env.name, env, hid, rfl⟩ h' hm)) ?_ fun _ he => he
      rintro _ s'' ⟨h'', hr'', hm''⟩
      exact ⟨h'', hr'', hk.2, hm''⟩

/-- The errors of one reference are told. -/
theorem expandReference_told (hc : self.Correct w start) (hh : self.Honest w start) {envID : Int}
    {key value : Str} (h : w.Inv active s)
    (hraw : w.RereadSafe start → w.Raw envID key value) {visited : List RefPos}
    (hsafe : w.RereadSafe start → (∀ p ∈ visited ++ [RefPos.mk envID key], w.Member start p.envID) ∧
      (visited ++ [RefPos.mk envID key]).IsChain w.Refers)
    (hstored : ∀ p ∈ visited ++ [RefPos.mk envID key], ∃ name, w.Stored p.envID name)
    {ref : Reference} (href : ref ∈ findReferences value) (out : Str) :
    wp ((w.call order).expandReference self (visited ++ [⟨envID, key⟩]) ref out) s
      (fun _ _ => True) (w.Telling start) := by
  have hself (hs : w.RereadSafe start) : w.Member start envID :=
    (hsafe hs).1 ⟨envID, key⟩ (List.mem_append_right _ List.mem_cons_self)
  have hcontains (hs : w.RereadSafe start) : w.Contains start ref.envName ref.keyName :=
    ⟨envID, key, value, ref, href, hself hs, hraw hs, rfl, rfl⟩
  unfold Call.expandReference
  simp only [wp_bind, wp_deref]
  refine wp_wrap (wp_mono (resolveEnvName_told order ref.envName h) ?_ ?_)
  · rintro target s₁ ⟨h₁, hnamed⟩
    have hedge (hs : w.RereadSafe start) : w.Edge (envID, key) (target, ref.keyName) :=
      (hraw hs).edge href hnamed
    have htarget (hs : w.RereadSafe start) : w.Member start target :=
      (hself hs).reference (hedge hs)
    refine wp_mono (wp_combine (hc.snapshot active target [] s₁ h₁ htarget
      fun p hp => absurd hp List.not_mem_nil)
      (hh.snapshot active target [] s₁ h₁ (fun hs id hid => ?_)
      (.inr hnamed.stored) (List.isChain_singleton _))) ?_ fun _ he => he
    · obtain rfl := List.mem_singleton.mp hid
      exact htarget hs
    rintro r s₂ ⟨h₂, hr⟩
    cases hl : (s₂.maps.getD r ∅).lookup ref.keyName with
    | none =>
      refine ⟨target, hnamed, fun row hrow => ?_, hcontains⟩
      have hin := AList.lookup_isSome.mpr ((h₂.faithful hr).complete hrow)
      rw [hl] at hin
      cases hin
    | some v =>
      simp only [wp_bind, wp_pure]
      have hready : w.Ready (w.RereadSafe start) s₂ target ref.keyName v.value := by
        refine ((h₂.faithful hr).entries hl).2.imp_right fun hset =>
          ⟨hset.weaken fun hs => hs.safe (htarget hs), fun hs => ?_⟩
        exact hs (.inl ⟨(envID, key), hself hs, hedge hs⟩) (hset.value (hs.safe (htarget hs)))
      refine wp_mono (hh.expand active target ref.keyName v.value _ s₂ h₂ hready (fun hs => ?_)
        fun p hp => ?_) (fun _ _ _ => trivial) fun _ he => he
      · refine ⟨fun p hp => ?_, isChain_concat (hsafe hs).2 (hedge hs)⟩
        rcases List.mem_append.mp hp with hp | hp
        · exact (hsafe hs).1 p hp
        · obtain rfl := List.mem_singleton.mp hp
          exact htarget hs
      · rcases List.mem_append.mp hp with hp | hp
        · exact hstored p hp
        · obtain rfl := List.mem_singleton.mp hp
          exact hnamed.stored
  · rintro e ⟨rfl, hno⟩
    exact ⟨rfl, hno, hcontains⟩

/-- The errors of one more level of `expand` are told. -/
theorem expandBody_told (hf : self.Framed) (hc : self.Correct w start) (hh : self.Honest w start)
    {envID : Int} {key value : Str} {visited : List RefPos} (h : w.Inv active s)
    (hready : w.Ready (w.RereadSafe start) s envID key value)
    (hsafe : w.RereadSafe start → (∀ p ∈ visited ++ [RefPos.mk envID key], w.Member start p.envID) ∧
      (visited ++ [RefPos.mk envID key]).IsChain w.Refers)
    (hstored : ∀ p ∈ visited ++ [RefPos.mk envID key], ∃ name, w.Stored p.envID name) :
    wp ((w.call order).expandBody self envID key value visited) s
      (fun _ _ => True) (w.Telling start) := by
  unfold Call.expandBody
  by_cases hrefs : findReferences value = []
  · simp only [hrefs, if_true, wp_pure]
  have hraw (hs : w.RereadSafe start) : w.Raw envID key value :=
    hready.resolve_right fun hset => hrefs (hset.2 hs)
  have hself (hs : w.RereadSafe start) : w.Member start envID :=
    (hsafe hs).1 ⟨envID, key⟩ (List.mem_append_right _ List.mem_cons_self)
  have hpath (hs : w.RereadSafe start) : ∀ p ∈ visited,
      TransGen w.Edge (p.envID, p.key) (envID, key) := fun p hp =>
    TransGen.lift (fun p : RefPos => (p.envID, p.key)) (fun _ _ he => he) _ _
      (transGen_of_isChain (hsafe hs).2 p hp)
  by_cases hvisited : (⟨envID, key⟩ : RefPos) ∈ visited
  · simp only [hrefs, hvisited, if_false, if_true]
    exact fun hs => ⟨visited ++ [⟨envID, key⟩], ⟨visited, _, rfl, hvisited⟩, (hsafe hs).2,
      (hsafe hs).1, refChainNames_stored order hstored⟩
  simp only [hrefs, hvisited, if_false]
  refine wp_mono (wp_foldrM (fun _ _ s' => w.Inv active s') _ ?_ _ _ h)
    (fun _ _ _ => trivial) fun _ he => he
  rintro pre ref post out s' hsplit h'
  have href : ref ∈ findReferences value := by
    rw [hsplit]
    exact List.mem_append_right _ List.mem_cons_self
  refine wp_mono (wp_combine (expandReference_correct order hf hc h' hself id
    (fun hs => ⟨hs.safe (hself hs), hraw hs⟩) hpath href out)
    (expandReference_told order hc hh h' hraw hsafe hstored href out)) ?_ fun _ he => he
  exact fun _ _ hq => hq.1

/-- The errors of the two functions are told at every recursion depth. -/
theorem callees_honest (fuel : ℕ) : ((w.call order).callees fuel).Honest w start := by
  induction fuel with
  | zero => exact ⟨fun _ _ _ _ _ _ _ _ => trivial, fun _ _ _ _ _ _ _ _ _ _ => trivial⟩
  | succ fuel ih =>
    have hf := (w.call order).callees_framed fuel
    have hc : ((w.call order).callees fuel).Correct w start := callees_correct order fuel
    exact ⟨fun _ _ _ _ h hmem hst hch => snapshotBody_told order hf hc ih h hmem hst hch,
      fun _ _ _ _ _ _ h hready hsafe hst => expandBody_told order hf hc ih h hready hsafe hst⟩

end Source

/-- Two values that refer to each other. -/
def cyclicDatabase : Database :=
  { Database.empty with
    environments := inheritingEnvs
    secrets := ⟨[plainSecret 1 "A" "${{ C.B }}", plainSecret 2 "B" "${{ P.A }}"], by decide⟩ }

end Comax.Secret
