import Comax.Secret.Semantics
import Comax.Secret.Termination
import Mathlib.Data.Set.Insert

/-!
# The invariant of half-expanded maps

Each entry of a cached map is either the raw overlaid value of its key or settled,
and only the maps whose loop is still running hold raw ones. Of a settled entry the
references lead to cached environments, and its text is the value of the recursive
definition whenever no value that it reads holds a reference. A call that finds
a half-expanded map therefore reads a text it can expand further. The lemmas say
what each change of the context asks for.
-/

namespace Comax.Secret

open Comax.Core Comax.Store

/-- The call of a resolution over one database state. -/
def Source.call (w : Source) (order : MapOrder) : Call :=
  ⟨fun _ => w.db, order, w.projectID, w.opens⟩

/-- The environment has a cached map. -/
def ResolveCtx.Cached (s : ResolveCtx) (envID : Int) : Prop := ∃ r, s.envCache.lookup envID = some r

/-- Cached environments stay cached. -/
theorem ResolveCtx.Extends.cached_mono {s s' : ResolveCtx} (h : s.Extends s') (envID : Int)
    (hc : s.Cached envID) : s'.Cached envID := by
  obtain ⟨r, hr⟩ := hc
  exact ⟨r, h.cache hr⟩

namespace Source

variable (w : Source)

/-- What holds of the text of a key that has been expanded; under `c` it is the value. -/
structure Settled (c : Prop) (s : ResolveCtx) (envID : Int) (key text : Str) : Prop where
  grounded : w.Grounded envID key
  cached : ∀ {n}, w.Edge (envID, key) n → s.Cached n.1
  value : c → w.Value envID key text

/-- The text can be handed to `expand` for the key; under `c` it is expanded once. -/
def Ready (c : Prop) (s : ResolveCtx) (envID : Int) (key text : Str) : Prop :=
  w.Raw envID key text ∨ w.Settled c s envID key text ∧ (c → findReferences text = [])

/-- The text of an entry: raw, or settled with the value where the node is safe. -/
def Held (s : ResolveCtx) (envID : Int) (key text : Str) : Prop :=
  w.Raw envID key text ∨ w.Settled (w.Safe (envID, key)) s envID key text

/-- The metadata of an entry is that of the overlaid row. -/
def Describes (envID : Int) (key : Str) (v : ResolvedSecret) : Prop :=
  ∃ row, w.Overlay envID key row ∧ v = ⟨row.id, v.value, row.version, row.updatedAt⟩

/-- What inheritance gives an environment before its own rows are laid over it. -/
structure Base (s : ResolveCtx) (envID : Int) (base : Snapshot) : Prop where
  linked : ∃ env, EnvRepo.byID envID w.db = .ok env ∧
    (env.inheritsFrom ≠ [] → ∃ parent, w.Named env.inheritsFrom parent)
  chain : Acc (fun parent child => w.Parent child parent) envID
  parent : ∀ {parent}, w.Parent envID parent → s.Cached parent
  complete : ∀ {parent key row}, w.Parent envID parent → w.Overlay parent key row → key ∈ base
  entries : ∀ {key v}, base.lookup key = some v → ∃ parent, w.Parent envID parent ∧
    w.Describes parent key v ∧ w.Held s parent key v.value

/-- What holds of a cached map, from the moment it is cached. -/
structure Faithful (s : ResolveCtx) (envID : Int) (m : Snapshot) : Prop where
  linked : ∃ env, EnvRepo.byID envID w.db = .ok env ∧
    (env.inheritsFrom ≠ [] → ∃ parent, w.Named env.inheritsFrom parent)
  chain : Acc (fun parent child => w.Parent child parent) envID
  parent : ∀ {parent}, w.Parent envID parent → s.Cached parent
  opened : ∀ {row}, row ∈ SecretRepo.listByEnv envID w.db →
    ∃ text, w.opens row.ciphertext = some text
  complete : ∀ {key row}, w.Overlay envID key row → key ∈ m
  entries : ∀ {key v}, m.lookup key = some v → w.Describes envID key v ∧
    w.Held s envID key v.value

/-- The invariant of a run in which the loops over `active` are still going on. -/
structure Inv (active : Set Int) (s : ResolveCtx) : Prop where
  names : ∀ {name id}, s.envByNameID.lookup name = some id → w.Named name id
  bound : ∀ {envID r}, s.envCache.lookup envID = some r → r < s.maps.length
  single : ∀ {e e' r}, s.envCache.lookup e = some r → s.envCache.lookup e' = some r → e = e'
  faithful : ∀ {envID r}, s.envCache.lookup envID = some r →
    w.Faithful s envID (s.maps.getD r ∅)
  settled : ∀ {envID r key v}, s.envCache.lookup envID = some r → envID ∉ active →
    (s.maps.getD r ∅).lookup key = some v →
      w.Settled (w.Safe (envID, key)) s envID key v.value

section Monotone

variable {w} {c : Prop} {s s' : ResolveCtx} (hc : ∀ e, s.Cached e → s'.Cached e)

include hc

theorem Settled.mono {e : Int} {k t : Str} (h : w.Settled c s e k t) :
    w.Settled c s' e k t :=
  ⟨h.grounded, fun hn => hc _ (h.cached hn), h.value⟩

theorem Ready.mono {e : Int} {k t : Str} (h : w.Ready c s e k t) : w.Ready c s' e k t :=
  h.imp_right fun ⟨hs, hrefs⟩ => ⟨hs.mono hc, hrefs⟩

omit hc in
/-- Less may be assumed. -/
theorem Settled.weaken {c' : Prop} (hcc : c' → c) {e : Int} {k t : Str} (h : w.Settled c s e k t) :
    w.Settled c' s e k t :=
  ⟨h.grounded, h.cached, fun hc' => h.value (hcc hc')⟩

omit hc in
/-- See `Settled.weaken`. -/
theorem Ready.weaken {c' : Prop} (hcc : c' → c) {e : Int} {k t : Str} (h : w.Ready c s e k t) :
    w.Ready c' s e k t :=
  h.imp_right fun ⟨hs, hrefs⟩ => ⟨hs.weaken hcc, fun hc' => hrefs (hcc hc')⟩

theorem Faithful.mono {e : Int} {m : Snapshot} (h : w.Faithful s e m) :
    w.Faithful s' e m :=
  ⟨h.linked, h.chain, fun hp => hc _ (h.parent hp), h.opened, h.complete, fun hv =>
    ⟨(h.entries hv).1, (h.entries hv).2.imp_right fun hs => hs.mono hc⟩⟩

omit hc in
theorem Settled.of_cache {e : Int} {k t : Str} (h : w.Settled c s e k t)
    (he : s'.envCache = s.envCache) : w.Settled c s' e k t :=
  h.mono fun _ ⟨r, hr⟩ => ⟨r, he ▸ hr⟩

omit hc in
theorem Faithful.of_cache {e : Int} {m : Snapshot} (h : w.Faithful s e m)
    (he : s'.envCache = s.envCache) : w.Faithful s' e m :=
  h.mono fun _ ⟨r, hr⟩ => ⟨r, he ▸ hr⟩

end Monotone

section Updates

variable {w} {active : Set Int} {s : ResolveCtx}

theorem Inv.initial : w.Inv active .initial :=
  ⟨fun h => (Option.some_ne_none _ h.symm).elim, fun h => (Option.some_ne_none _ h.symm).elim,
    fun h => (Option.some_ne_none _ h.symm).elim, fun h => (Option.some_ne_none _ h.symm).elim,
    fun h => (Option.some_ne_none _ h.symm).elim⟩

/-- Counting a query keeps the invariant. -/
theorem Inv.queried (h : w.Inv active s) (n : ℕ) :
    w.Inv active { s with queries := n } :=
  ⟨h.names, h.bound, h.single, fun hr => (h.faithful hr).of_cache rfl,
    fun hr ha hv => (h.settled hr ha hv).of_cache rfl⟩

/-- Recording a right name keeps the invariant. -/
theorem Inv.named (h : w.Inv active s) {name : Str} {id : Int} (hn : w.Named name id) :
    w.Inv active { s with envByNameID := s.envByNameID.insert name id } := by
  refine ⟨fun {name' id'} hl => ?_, h.bound, h.single,
    fun hr => (h.faithful hr).of_cache rfl, fun hr ha hv => (h.settled hr ha hv).of_cache rfl⟩
  by_cases hne : name' = name
  · subst hne
    rw [AList.lookup_insert] at hl
    cases hl
    exact hn
  · exact h.names (by rwa [AList.lookup_insert_ne hne] at hl)

/-- Caching a faithful map starts its loop. -/
theorem Inv.cached (h : w.Inv active s) {e : Int} {m : Snapshot}
    (hm : w.Faithful s e m) :
    w.Inv (insert e active) { s with
      maps := s.maps ++ [m]
      envCache := s.envCache.insert e s.maps.length } := by
  have hmono : ∀ e', s.Cached e' → ResolveCtx.Cached { s with
      maps := s.maps ++ [m]
      envCache := s.envCache.insert e s.maps.length } e' := by
    rintro e' ⟨r, hr⟩
    by_cases hne : e' = e
    · subst hne
      exact ⟨_, AList.lookup_insert _⟩
    · exact ⟨r, by rwa [AList.lookup_insert_ne hne]⟩
  have hold : ∀ {e' r}, e' ≠ e → (s.envCache.insert e s.maps.length).lookup e' = some r →
      s.envCache.lookup e' = some r := fun hne hr => by rwa [AList.lookup_insert_ne hne] at hr
  have hmap : ∀ {r}, r < s.maps.length → (s.maps ++ [m]).getD r ∅ = s.maps.getD r ∅ := by
    intro r hr
    rw [List.getD_eq_getElem?_getD, List.getElem?_append_left hr, List.getD_eq_getElem?_getD]
  have hnew : (s.maps ++ [m]).getD s.maps.length ∅ = m := by
    simp [List.getD_eq_getElem?_getD]
  refine ⟨h.names, fun {e' r} hr => ?_, fun {e₁ e₂ r} h₁ h₂ => ?_, fun {e' r} hr => ?_,
    fun {e' r k v} hr hact hv => ?_⟩
  · change r < (s.maps ++ [m]).length
    rw [List.length_append, List.length_singleton]
    by_cases hne : e' = e
    · subst hne
      rw [AList.lookup_insert] at hr
      cases hr
      omega
    · have := h.bound (hold hne hr)
      omega
  · by_cases hne₁ : e₁ = e <;> by_cases hne₂ : e₂ = e
    · rw [hne₁, hne₂]
    · subst hne₁
      rw [AList.lookup_insert] at h₁
      cases h₁
      exact absurd (h.bound (hold hne₂ h₂)) (lt_irrefl _)
    · subst hne₂
      rw [AList.lookup_insert] at h₂
      cases h₂
      exact absurd (h.bound (hold hne₁ h₁)) (lt_irrefl _)
    · exact h.single (hold hne₁ h₁) (hold hne₂ h₂)
  · by_cases hne : e' = e
    · subst hne
      rw [AList.lookup_insert] at hr
      cases hr
      exact (hnew.symm ▸ hm).mono hmono
    · have hr' := hold hne hr
      exact ((hmap (h.bound hr')).symm ▸ h.faithful hr').mono hmono
  · rw [Set.mem_insert_iff, not_or] at hact
    have hr' := hold hact.1 hr
    change ((s.maps ++ [m]).getD r ∅).lookup k = some v at hv
    rw [hmap (h.bound hr')] at hv
    exact (h.settled hr' hact.2 hv).mono hmono

/-- Writing a settled value keeps the invariant. -/
theorem Inv.written (h : w.Inv active s) {e : Int} {r : ℕ} (hr : s.envCache.lookup e = some r)
    {k : Str} {v : ResolvedSecret} (hd : w.Describes e k v)
    (hv : w.Settled (w.Safe (e, k)) s e k v.value) :
    w.Inv active { s with maps := s.maps.set r ((s.maps.getD r ∅).insert k v) } := by
  have hlen := h.bound hr
  have hself : (s.maps.set r ((s.maps.getD r ∅).insert k v)).getD r ∅ =
      (s.maps.getD r ∅).insert k v := by
    rw [List.getD_eq_getElem?_getD, List.getElem?_set_self hlen, Option.getD_some]
  have hother : ∀ {r'}, r' ≠ r → (s.maps.set r ((s.maps.getD r ∅).insert k v)).getD r' ∅ =
      s.maps.getD r' ∅ := by
    intro r' hne
    rw [List.getD_eq_getElem?_getD, List.getElem?_set_ne (Ne.symm hne),
      List.getD_eq_getElem?_getD]
  refine ⟨h.names, fun {e' r'} hr' => ?_, h.single, fun {e' r'} hr' => ?_,
    fun {e' r' k' v'} hr' hact hv' => ?_⟩
  · change r' < (s.maps.set r _).length
    rw [List.length_set]
    exact h.bound hr'
  · suffices hs : w.Faithful s e'
        ((s.maps.set r ((s.maps.getD r ∅).insert k v)).getD r' ∅) from hs.of_cache rfl
    by_cases hne : r' = r
    · subst hne
      obtain rfl := h.single hr hr'
      have hf := h.faithful hr
      rw [hself]
      refine ⟨hf.linked, hf.chain, hf.parent, hf.opened, fun ho => ?_, fun {k' v'} hl => ?_⟩
      · exact (AList.mem_insert _).mpr (.inr (hf.complete ho))
      · by_cases hk : k' = k
        · subst hk
          rw [AList.lookup_insert] at hl
          cases hl
          exact ⟨hd, .inr hv⟩
        · rw [AList.lookup_insert_ne hk] at hl
          exact hf.entries hl
    · rw [hother hne]
      exact h.faithful hr'
  · change ((s.maps.set r ((s.maps.getD r ∅).insert k v)).getD r' ∅).lookup k' = some v' at hv'
    suffices hs : w.Settled (w.Safe (e', k')) s e' k' v'.value from hs.of_cache rfl
    by_cases hne : r' = r
    · subst hne
      obtain rfl := h.single hr hr'
      rw [hself] at hv'
      by_cases hk : k' = k
      · subst hk
        rw [AList.lookup_insert] at hv'
        cases hv'
        exact hv
      · rw [AList.lookup_insert_ne hk] at hv'
        exact h.settled hr hact hv'
    · rw [hother hne] at hv'
      exact h.settled hr' hact hv'

/-- A loop over a map whose entries are all settled is over. -/
theorem Inv.finished {e : Int} (h : w.Inv (insert e active) s) {r : ℕ}
    (hr : s.envCache.lookup e = some r)
    (hall : ∀ {k v}, (s.maps.getD r ∅).lookup k = some v →
      w.Settled (w.Safe (e, k)) s e k v.value) : w.Inv active s := by
  refine ⟨h.names, h.bound, h.single, h.faithful, fun {e' r' k v} hr' hact hv => ?_⟩
  by_cases hne : e' = e
  · subst hne
    rw [hr] at hr'
    cases hr'
    exact hall hv
  · exact h.settled hr' (by simp [hne, hact]) hv

end Updates

end Source

end Comax.Secret
