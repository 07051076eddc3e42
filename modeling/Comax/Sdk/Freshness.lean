import Comax.Sdk.Changes
import Mathlib.Data.List.Induction

/-!
# Reads after a reload

After `reload` returned, a read is answered by a later fetch, except that
`reload(key)` leaves the flight of the whole environment in its slot: a `getAll` or
`preload` that joins it is answered by a fetch from before the reload. A run keeps
the promise exactly if no whole-environment read joins a flight of an earlier epoch.
-/

namespace Comax.Sdk

open Comax.Core SecretsClient

variable {opts : SecretsClientOptions} {c c' : SecretsClient} {e : Effect}

/-- A read of this scope concerns a key that the reload dropped. -/
def Touches : Option String → Scope → Prop
  | none, _ => True
  | some key, .one k => k = key
  | some _, .all => True

/-- What the client holds for the reloaded keys is from the `n` th fetch on; of the earlier
flights, none has the client's epoch. -/
structure After (key : Option String) (n : ℕ) (c : SecretsClient) : Prop where
  /-- Later fetches come after it. -/
  length : n ≤ c.flights.length
  /-- Cached entries. -/
  cache : ∀ K, Touches key (.one K) → ∀ e, c.cache K = some e → n ≤ e.fetch
  /-- Single-key flights. -/
  inflight : ∀ K, Touches key (.one K) → ∀ f, c.inflight K = some f → n ≤ f
  /-- The whole-environment flight, after a full reload. -/
  allInflight : key = none → ∀ f, c.allInflight = some f → n ≤ f
  /-- The earlier flights. -/
  outdated : ∀ (f : ℕ) (flight : Flight), f < n → c.flights[f]? = some flight →
    flight.startEpoch < c.epoch

/-- A reload leaves nothing of the keys that it drops. -/
theorem After.of_reload (hd : Dated c) (key : Option String) :
    After key c.flights.length (c.reload key) := by
  have hout : ∀ (f : ℕ) (flight : Flight), f < c.flights.length → c.flights[f]? = some flight →
      flight.startEpoch < c.epoch + 1 := fun f flight _ hf => Nat.lt_succ_of_le (hd f flight hf)
  cases key with
  | none =>
    refine ⟨le_rfl, ?_, ?_, ?_, hout⟩
    · intro K _ e he
      cases he
    · intro K _ f hf
      cases hf
    · intro _ f hf
      cases hf
  | some key =>
    refine ⟨le_rfl, ?_, ?_, ?_, hout⟩
    · rintro K rfl e he
      simp [reload] at he
    · rintro K rfl f hf
      simp [reload] at hf
    · intro h
      cases h

/-- Later steps keep it: they write with flights of the current epoch and fill slots with new
flights. -/
theorem After.step {key : Option String} {n : ℕ} (h : Change c e c') (ha : After key n c) :
    After key n c' := by
  have hout : ∀ (f : ℕ) (flight' : Flight), f < n → c'.flights[f]? = some flight' →
      flight'.startEpoch < c'.epoch := by
    intro f flight' hlt hf
    rcases h.flight_cases hf with ⟨flight, hf, he, -⟩ | ⟨rfl, -⟩
    · exact he ▸ (ha.outdated f flight hlt hf).trans_le h.epoch_le
    · exact absurd hlt (not_lt.mpr ha.length)
  refine ⟨ha.length.trans h.length_le, ?_, ?_, ?_, hout⟩
  · intro K hK e he
    rcases h.cache_cases K with
      hsame | ⟨hnone, -⟩ | ⟨f, flight, -, -, hepoch, ⟨old, hold, hstart⟩, e', he', hfetch⟩
    · exact ha.cache K hK e (hsame ▸ he)
    · cases hnone.symm.trans he
    · obtain rfl : e' = e := Option.some.inj (he'.symm.trans he)
      rw [hfetch]
      by_contra hlt
      have hout := ha.outdated f old (not_le.mp hlt) hold
      omega
  · intro K hK f hf
    rcases h.inflight_cases hf with hold | rfl
    · exact ha.inflight K hK f hold
    · exact ha.length
  · intro hnone f hf
    rcases h.allInflight_cases hf with hold | rfl
    · exact ha.allInflight hnone f hold
    · exact ha.length

/-- A whole-environment read joins a flight of an earlier epoch. -/
def joinsOutdated (c : SecretsClient) : Label → Bool
  | .preload false =>
    match c.allInflight with
    | some f => (c.flights[f]?).any fun flight => flight.startEpoch != c.epoch
    | none => false
  | _ => false

/-- The read and the flight that it joins. -/
theorem joinsOutdated_eq_true {b : Label} (h : joinsOutdated c b = true) : ∃ f flight,
    b = .preload false ∧ c.allInflight = some f ∧ c.flights[f]? = some flight ∧
      flight.startEpoch ≠ c.epoch := by
  unfold joinsOutdated at h
  split at h
  · split at h
    · rename_i f hs
      obtain ⟨flight, hf, hne⟩ := (Option.any_eq_true _ _).mp h
      exact ⟨f, flight, rfl, hs, hf, by simpa using hne⟩
    · cases h
  · cases h

/-- A slot names a flight. -/
structure Filed (c : SecretsClient) : Prop where
  /-- No flight is ahead of the client. -/
  dated : Dated c
  /-- The whole-environment slot. -/
  allInflight : ∀ f, c.allInflight = some f → f < c.flights.length

/-- Each read that begins after a reload of its key is answered by a fetch that was started after
that reload. -/
def ReadsFresh (opts : SecretsClientOptions) (as : List Label) : Prop :=
  ∀ pre key mid b post c c₁ c₂ scope f, as = pre ++ .reload key :: (mid ++ b :: post) →
    (client opts).run pre init = some c → next opts (.reload key) c = some c₁ →
    (client opts).run mid c₁ = some c₂ → answeredBy opts c₂ b = some (scope, f) →
    Touches key scope → c₁.flights.length ≤ f

/-- A step keeps the slots filed. -/
theorem Change.filed (h : Change c e c') (hf : Filed c) : Filed c' := by
  refine ⟨h.dated hf.dated, fun f hs => ?_⟩
  have hle := h.length_le
  cases h with
  | launchAll hnone =>
    cases hs
    simp [launch]
  | reload key =>
    cases key with
    | none => cases hs
    | some key => exact (hf.allInflight f hs).trans_le hle
  | free inflight allInflight hi ha => exact (hf.allInflight f (ha f hs)).trans_le hle
  | _ => exact (hf.allInflight f hs).trans_le hle

/-- The slots are filed in every state of a run. -/
theorem filed_of_run {as : List Label} (h : (client opts).run as init = some c) : Filed c :=
  Machine.run_invariant (Machine.along_true as init)
    (fun hf _ hn => (change_of_next hn).filed hf)
    ⟨fun _ _ hf => (by simp [init] at hf), fun _ hs => by cases hs⟩ h

/-- A read that joins no outdated flight is answered by a fetch from after the reload. -/
theorem After.answered {key : Option String} {n : ℕ} (ha : After key n c) (hf : Filed c) {b : Label}
    (hb : joinsOutdated c b = false) {scope : Scope} {f : ℕ}
    (hans : answeredBy opts c b = some (scope, f)) (ht : Touches key scope) : n ≤ f := by
  cases b with
  | getSecret K now aborted =>
    simp only [answeredBy] at hans
    split_ifs at hans
    split at hans
    · rename_i e he
      cases hans
      exact ha.cache K ht e (Option.filter_eq_some_iff.mp he).1
    · cases hans
      cases hs : c.inflight K with
      | none => exact ha.length
      | some g => exact ha.inflight K ht g hs
  | preload aborted =>
    simp only [answeredBy] at hans
    split_ifs at hans with haborted
    cases hans
    cases hs : c.allInflight with
    | none => exact ha.length
    | some g =>
      obtain ⟨flight, hg⟩ : ∃ flight, c.flights[g]? = some flight :=
        ⟨_, List.getElem?_eq_getElem (hf.allInflight g hs)⟩
      have hepoch : flight.startEpoch = c.epoch := by
        simpa [joinsOutdated, Bool.eq_false_iff.mpr haborted, hs, hg] using hb
      by_contra hlt
      exact absurd (ha.outdated g flight (not_le.mp hlt) hg) (hepoch ▸ lt_irrefl _)
  | _ => cases hans

/-- A flight of an earlier epoch was followed by a reload. -/
theorem reload_of_outdated {as : List Label} (h : (client opts).run as init = some c) {f : ℕ}
    {flight : Flight} (hf : c.flights[f]? = some flight) (hlt : flight.startEpoch < c.epoch) :
    ∃ pre key mid c₀ c₁, as = pre ++ .reload key :: mid ∧ (client opts).run pre init = some c₀ ∧
      next opts (.reload key) c₀ = some c₁ ∧ (client opts).run mid c₁ = some c ∧
      f < c₁.flights.length := by
  induction as using List.reverseRecOn generalizing c flight with
  | nil =>
    cases h
    cases hf
  | append_singleton as a ih =>
    rw [Machine.run_append] at h
    obtain ⟨c₂, hr, h⟩ := Option.bind_eq_some_iff.mp h
    obtain ⟨c₃, hn, h⟩ := Option.bind_eq_some_iff.mp h
    obtain rfl : c₃ = c := Option.some.inj h
    have hchange := change_of_next hn
    rcases hchange.epoch_cases with hepoch | ⟨key, he, -⟩
    · rcases hchange.flight_cases hf with ⟨old, hold, he, -⟩ | ⟨-, he, -⟩
      · obtain ⟨pre, key, mid, c₀, c₁, rfl, hpre, hkey, hmid, hlt⟩ := ih hr hold (by omega)
        refine ⟨pre, key, mid ++ [a], c₀, c₁, by simp, hpre, hkey, ?_, hlt⟩
        rw [Machine.run_append, hmid, Option.bind_some, Machine.run, hn]
        rfl
      · omega
    · obtain rfl := effect_eq_reloaded he
      exact ⟨as, key, [], c₂, c₃, rfl, hr, hn, rfl, (List.getElem?_eq_some_iff.mp hf).1⟩

/-- A run answers every read after a reload by a later fetch exactly if no whole-environment read
joins a flight of an earlier epoch. -/
theorem readsFresh_iff (opts : SecretsClientOptions) (as : List Label) :
    ReadsFresh opts as ↔
      (client opts).Along (fun c b => joinsOutdated c b = false) as init := by
  rw [Machine.along_iff]
  constructor
  · rintro hfresh pre b post c rfl hr
    by_contra hjoin
    obtain ⟨f, flight, rfl, hs, hf, hne⟩ := joinsOutdated_eq_true (by simpa using hjoin)
    have hlt := lt_of_le_of_ne ((filed_of_run hr).dated f flight hf) hne
    obtain ⟨pre', key, mid, c₀, c₁, rfl, hpre, hkey, hmid, hlt⟩ := reload_of_outdated hr hf hlt
    have hans : answeredBy opts c (.preload false) = some (.all, f) := by
      simp [answeredBy, hs]
    have hle := hfresh pre' key mid _ post c₀ c₁ c .all f (by simp) hpre hkey hmid hans
      (by cases key <;> trivial)
    omega
  · rintro halong pre key mid b post c c₁ c₂ scope f rfl hpre hkey hmid hans htouches
    have hr : (client opts).run (pre ++ .reload key :: mid) init = some c₂ := by
      rw [Machine.run_append, hpre, Option.bind_some, Machine.run]
      exact Option.bind_eq_some_iff.mpr ⟨c₁, hkey, hmid⟩
    have hb := halong (pre ++ .reload key :: mid) b post c₂ (by simp) hr
    have hafter : After key c₁.flights.length c₁ := by
      cases hkey
      have hlen : (c.reload key).flights = c.flights := by cases key <;> rfl
      rw [hlen]
      exact .of_reload (filed_of_run hpre).dated key
    have hafter₂ : After key c₁.flights.length c₂ :=
      Machine.run_invariant (Machine.along_true mid c₁)
        (fun ha _ hn => ha.step (change_of_next hn)) hafter hmid
    exact hafter₂.answered (filed_of_run hr) hb hans htouches

/-- The default freshness window, and no background refresh. -/
def defaultOptions : SecretsClientOptions := ⟨(60000 : ℚ), (0 : ℚ)⟩

/-- A preload is under way when `reload("K")` is called, and `getAll` is called after it. -/
def reloadDuringPreload : List Label := [.preload false, .reload (some "K"), .preload false]

/-- The `getAll` after the reload is answered by the fetch from before it. -/
theorem reloadDuringPreload_stale : ¬ReadsFresh defaultOptions reloadDuringPreload := by
  intro h
  have hle := h [.preload false] (some "K") [] (.preload false) [] _ _ _ .all 0 rfl rfl rfl rfl rfl
    trivial
  exact absurd hle (by decide)

end Comax.Sdk
