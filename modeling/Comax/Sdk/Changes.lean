import Comax.Sdk.SecretsClient

/-!
# What a step of the client can do

A step launches a flight into a free slot, empties slots and cache entries, or settles
a flight. A settled flight writes the keys it hands out, unless the epoch moved on
since its start.
-/

namespace Comax.Sdk

open SecretsClient

/-- What others can tell of a step. -/
inductive Effect
  /-- Neither of the other two. -/
  | silent
  /-- A flight settles. -/
  | landed (f : ℕ) (flight : Flight)
  /-- Keys are dropped. -/
  | reloaded (key : Option String)

/-- A flight settles, if it was started. -/
def lands (c : SecretsClient) (f : ℕ) (outcome : Outcome) : Effect :=
  match c.flights[f]? with
  | some flight => .landed f { flight with outcome := outcome }
  | none => .silent

/-- The effect of a step. -/
def effect (c : SecretsClient) : Label → Effect
  | .reload key => .reloaded key
  | .respondOne f secret _ => lands c f (.resolved [secret])
  | .respondAll f secrets _ => lands c f (.resolved secrets)
  | .fail f => lands c f .failed
  | _ => .silent

/-- The cache after a flight settled: its keys are written if the epoch is still its own. -/
def Written (c : SecretsClient) (f : ℕ) (flight : Flight) (cache : String → Option CacheEntry) :
    Prop :=
  ∀ K, (cache K = c.cache K ∧ (K ∈ flight.keys → c.epoch ≠ flight.startEpoch)) ∨
    (K ∈ flight.keys ∧ c.epoch = flight.startEpoch ∧ ∃ e, cache K = some e ∧ e.fetch = f)

/-- What a step can do. -/
inductive Change (c : SecretsClient) : Effect → SecretsClient → Prop
  /-- The timer is set or cleared, or nothing happens. -/
  | timer (b : Bool) : Change c .silent { c with refreshTimer := b }
  /-- A single-key flight starts. -/
  | launchOne (key : String) (h : c.inflight key = none) :
      Change c .silent { c.launch (.one key) with
        inflight := Function.update c.inflight key (some c.flights.length) }
  /-- A whole-environment flight starts. -/
  | launchAll (h : c.allInflight = none) :
      Change c .silent { c.launch .all with allInflight := some c.flights.length }
  /-- Entries and slots are dropped and the epoch moves on. -/
  | reload (key : Option String) : Change c (.reloaded key) (c.reload key)
  /-- A flight settles. -/
  | settle (f : ℕ) (flight : Flight) (outcome : Outcome) (cache : String → Option CacheEntry)
      (h : c.flights[f]? = some flight) (hp : flight.outcome = .pending)
      (hw : Written c f { flight with outcome := outcome } cache) :
      Change c (.landed f { flight with outcome := outcome })
        ({ c with cache := cache }.settle f flight outcome)
  /-- Slots are freed. -/
  | free (inflight : String → Option ℕ) (allInflight : Option ℕ)
      (h : ∀ K f, inflight K = some f → c.inflight K = some f)
      (ha : ∀ f, allInflight = some f → c.allInflight = some f) :
      Change c .silent { c with inflight := inflight, allInflight := allInflight }

variable {opts : SecretsClientOptions} {c c' : SecretsClient}

/-- Nothing happens. -/
theorem Change.refl (c : SecretsClient) : Change c .silent c := .timer c.refreshTimer

/-- What a whole-environment read can do. -/
theorem change_preload (c : SecretsClient) : Change c .silent c.preload := by
  rw [preload]
  split
  · exact .refl c
  · rename_i h
    exact .launchAll h

/-- The entries that a list of secrets leaves in the cache. -/
theorem cacheSet_fold (f : ℕ) (now : ℤ) (secrets : List Secret) (c : SecretsClient) :
    ∃ cache, secrets.foldl (fun c s => c.cacheSet f now s.key s) c = { c with cache := cache } ∧
      ∀ K, (K ∉ secrets.map Secret.key ∧ cache K = c.cache K) ∨
        (K ∈ secrets.map Secret.key ∧ ∃ e, cache K = some e ∧ e.fetch = f) := by
  induction secrets generalizing c with
  | nil => exact ⟨c.cache, rfl, fun K => .inl ⟨by simp, rfl⟩⟩
  | cons s secrets ih =>
    obtain ⟨cache, hfold, hcache⟩ := ih (c.cacheSet f now s.key s)
    refine ⟨cache, hfold, fun K => ?_⟩
    rcases hcache K with ⟨hK, he⟩ | ⟨hK, he⟩
    · by_cases hs : K = s.key
      · subst hs
        exact .inr ⟨by simp, _, he.trans (Function.update_self ..), rfl⟩
      · exact .inl ⟨by simp [hs, hK], he.trans (Function.update_of_ne hs _ _)⟩
    · exact .inr ⟨by simp [hK], he⟩

/-- What a read of a key can do. -/
theorem change_getSecret (key : String) (now : ℤ) (c : SecretsClient) :
    Change c .silent (c.getSecret opts key now) := by
  rw [getSecret]
  split
  · exact .refl c
  · split
    · exact .refl c
    · rename_i hs
      exact .launchOne key hs

/-- What the response for a key can do. -/
theorem change_fetchOne {f : ℕ} {key : String} {epoch : ℕ}
    (hf : c.flights[f]? = some ⟨.one key, epoch, .pending⟩) (secret : Secret) (now : ℤ) :
    Change c (.landed f ⟨.one key, epoch, .resolved [secret]⟩)
      (c.fetchOne f ⟨.one key, epoch, .pending⟩ key secret now) := by
  rw [fetchOne]
  split_ifs with he
  · refine .settle f _ _ (Function.update c.cache key (some ⟨secret, now, f⟩)) hf rfl fun K => ?_
    by_cases hK : K = key
    · subst hK
      exact .inr ⟨by simp [Flight.keys], he, _, Function.update_self .., rfl⟩
    · exact .inl ⟨Function.update_of_ne hK _ _, by simp [Flight.keys, hK]⟩
  · exact .settle f _ _ c.cache hf rfl fun K => .inl ⟨rfl, fun _ => he⟩

/-- What the response for the whole environment can do. -/
theorem change_fetchAll {f epoch : ℕ} (hf : c.flights[f]? = some ⟨.all, epoch, .pending⟩)
    (secrets : List Secret) (now : ℤ) :
    Change c (.landed f ⟨.all, epoch, .resolved secrets⟩)
      (c.fetchAll f ⟨.all, epoch, .pending⟩ secrets now) := by
  rw [fetchAll]
  split_ifs with he
  · obtain ⟨cache, hfold, hcache⟩ := cacheSet_fold f now secrets c
    rw [hfold]
    refine .settle f _ _ cache hf rfl fun K => ?_
    rcases hcache K with ⟨hK, hsame⟩ | ⟨hK, hnew⟩
    · exact .inl ⟨hsame, fun hmem => absurd hmem hK⟩
    · exact .inr ⟨hK, he, hnew⟩
  · exact .settle f _ _ c.cache hf rfl fun K => .inl ⟨rfl, fun _ => he⟩

/-- What a `finally` callback can do. -/
theorem change_cleanup (f : ℕ) (flight : Flight) (c : SecretsClient) :
    Change c .silent (c.cleanup f flight) := by
  rw [cleanup]
  split
  · rename_i key hkey
    split_ifs
    · refine .free _ c.allInflight (fun K g hK => ?_) fun _ h => h
      by_cases hne : K = key
      · subst hne
        simp at hK
      · rwa [Function.update_of_ne hne] at hK
    · exact .refl c
  · split_ifs
    · exact .free c.inflight none (fun _ _ h => h) fun _ h => by cases h
    · exact .refl c

/-- Every step is one of the changes. -/
theorem change_of_next {a : Label} (h : next opts a c = some c') : Change c (effect c a) c' := by
  cases a with
  | getSecret key now aborted =>
    cases h
    exact change_getSecret key now c
  | preload aborted =>
    cases h
    exact change_preload c
  | reload key =>
    cases h
    exact .reload key
  | startAutoRefresh =>
    cases h
    rw [startAutoRefresh]
    split
    · exact .refl c
    · exact .timer true
  | stopAutoRefresh =>
    cases h
    exact .timer false
  | refresh =>
    simp only [next] at h
    split at h
    · cases h
      exact change_preload c
    · cases h
  | respondOne f secret now =>
    simp only [next] at h
    split at h
    · rename_i key epoch hf
      cases h
      rw [effect, lands, hf]
      exact change_fetchOne hf secret now
    · cases h
  | respondAll f secrets now =>
    simp only [next] at h
    split at h
    · rename_i epoch hf
      cases h
      rw [effect, lands, hf]
      exact change_fetchAll hf secrets now
    · cases h
  | fail f =>
    simp only [next] at h
    split at h
    · rename_i scope epoch hf
      cases h
      rw [effect, lands, hf]
      exact .settle f _ _ c.cache hf rfl fun K => .inl ⟨rfl, by simp [Flight.keys]⟩
    · cases h
  | cleanup f =>
    simp only [next] at h
    split at h
    · rename_i flight hf
      split_ifs at h
      cases h
      exact change_cleanup f flight c
    · cases h
  | deliver f =>
    simp only [next] at h
    split at h
    · split_ifs at h
      cases h
      exact .refl c
    · cases h

variable {e : Effect}

/-- A flight after a step was there before, or it starts now, in the client's epoch. -/
theorem Change.flight_cases (h : Change c e c') {f : ℕ} {flight' : Flight}
    (hf : c'.flights[f]? = some flight') :
    (∃ flight, c.flights[f]? = some flight ∧ flight.startEpoch = flight'.startEpoch ∧
      (flight = flight' ∨ e = .landed f flight')) ∨
      (f = c.flights.length ∧ flight'.startEpoch = c.epoch ∧ flight'.outcome = .pending ∧
        c'.epoch = c.epoch) := by
  have hlaunch : ∀ {scope : Scope}, (c.launch scope).flights[f]? = some flight' →
      (∃ flight, c.flights[f]? = some flight ∧ flight.startEpoch = flight'.startEpoch ∧
        (flight = flight' ∨ e = .landed f flight')) ∨
        (f = c.flights.length ∧ flight'.startEpoch = c.epoch ∧ flight'.outcome = .pending) := by
    intro scope hf
    rw [launch, List.getElem?_append] at hf
    split_ifs at hf with hlt
    · exact .inl ⟨flight', hf, rfl, .inl rfl⟩
    · obtain ⟨hle, he⟩ := List.getElem?_eq_some_iff.mp hf
      have hz : f - c.flights.length = 0 := by simpa using hle
      refine .inr ⟨by omega, ?_, ?_⟩ <;>
      · rw [← he]
        simp [hz]
  cases h with
  | timer b => exact .inl ⟨flight', hf, rfl, .inl rfl⟩
  | launchOne key hs => exact (hlaunch hf).imp_right fun h => ⟨h.1, h.2.1, h.2.2, rfl⟩
  | launchAll hs => exact (hlaunch hf).imp_right fun h => ⟨h.1, h.2.1, h.2.2, rfl⟩
  | reload key => cases key <;> exact .inl ⟨flight', hf, rfl, .inl rfl⟩
  | settle g flight outcome cache hg hp hw =>
    rw [SecretsClient.settle, List.getElem?_set] at hf
    split_ifs at hf with hfg hlt
    · subst hfg
      cases hf
      exact .inl ⟨flight, hg, rfl, .inr rfl⟩
    · exact .inl ⟨flight', hf, rfl, .inl rfl⟩
  | free inflight allInflight hi ha => exact .inl ⟨flight', hf, rfl, .inl rfl⟩

/-- The flight of a key after a step had its slot before, or it starts now. -/
theorem Change.inflight_cases (h : Change c e c') {K : String} {f : ℕ}
    (hf : c'.inflight K = some f) : c.inflight K = some f ∨ f = c.flights.length := by
  cases h with
  | launchOne k hs =>
    change Function.update c.inflight k (some c.flights.length) K = some f at hf
    by_cases hk : K = k
    · subst hk
      rw [Function.update_self] at hf
      exact .inr (Option.some.inj hf).symm
    · exact .inl ((Function.update_of_ne hk _ _).symm.trans hf)
  | reload k =>
    cases k with
    | none => cases hf
    | some k =>
      by_cases hk : K = k
      · subst hk
        simp [SecretsClient.reload] at hf
      · exact .inl ((Function.update_of_ne hk _ _).symm.trans hf)
  | free inflight allInflight hi hall => exact .inl (hi K f hf)
  | _ => exact .inl hf

/-- The flight of the environment after a step had its slot before, or it starts now. -/
theorem Change.allInflight_cases (h : Change c e c') {f : ℕ} (hf : c'.allInflight = some f) :
    c.allInflight = some f ∨ f = c.flights.length := by
  cases h with
  | launchAll hs => exact .inr (Option.some.inj hf).symm
  | reload k =>
    cases k with
    | none => cases hf
    | some k => exact .inl hf
  | free inflight allInflight hi hall => exact .inl (hall f hf)
  | _ => exact .inl hf

/-- Fetches are never forgotten. -/
theorem Change.length_le (h : Change c e c') : c.flights.length ≤ c'.flights.length := by
  cases h with
  | timer b => exact le_rfl
  | launchOne key hs => simp [launch]
  | launchAll hs => simp [launch]
  | reload key => cases key <;> exact le_rfl
  | settle g flight outcome cache hg hp hw => simp [SecretsClient.settle]
  | free inflight allInflight hi ha => exact le_rfl

/-- The epoch never goes back. -/
theorem Change.epoch_le (h : Change c e c') : c.epoch ≤ c'.epoch := by
  cases h with
  | reload key => cases key <;> exact Nat.le_succ _
  | _ => exact le_rfl

/-- No flight has a later epoch than the client. -/
def Dated (c : SecretsClient) : Prop :=
  ∀ (f : ℕ) (flight : Flight), c.flights[f]? = some flight → flight.startEpoch ≤ c.epoch

/-- A step keeps the flights dated. -/
theorem Change.dated (h : Change c e c') (hd : Dated c) : Dated c' := by
  intro f flight' hf
  rcases h.flight_cases hf with ⟨flight, hf, he, -⟩ | ⟨-, he, -⟩
  · exact he ▸ (hd f flight hf).trans h.epoch_le
  · exact he ▸ h.epoch_le

/-- Only a reload moves the epoch on. -/
theorem Change.epoch_cases (h : Change c e c') :
    c'.epoch = c.epoch ∨ ∃ key, e = .reloaded key ∧ c' = c.reload key := by
  cases h with
  | reload key => exact .inr ⟨key, rfl, rfl⟩
  | _ => exact .inl rfl

/-- Only `reload` drops keys. -/
theorem effect_eq_reloaded {a : Label} {key : Option String} (h : effect c a = .reloaded key) :
    a = .reload key := by
  have hlands : ∀ f outcome, lands c f outcome ≠ .reloaded key := by
    intro f outcome h
    rw [lands] at h
    split at h <;> cases h
  cases a with
  | reload k =>
    cases h
    rfl
  | respondOne f secret now => exact absurd h (hlands f _)
  | respondAll f secrets now => exact absurd h (hlands f _)
  | fail f => exact absurd h (hlands f _)
  | _ => cases h

/-- An entry after a step was there before, or a flight of the client's epoch wrote it; an entry
that is gone was reloaded. -/
theorem Change.cache_cases (h : Change c e c') (K : String) :
    c'.cache K = c.cache K ∨ (c'.cache K = none ∧ c'.epoch = c.epoch + 1) ∨
      ∃ f flight, e = .landed f flight ∧ K ∈ flight.keys ∧ c.epoch = flight.startEpoch ∧
        (∃ old, c.flights[f]? = some old ∧ old.startEpoch = flight.startEpoch) ∧
        ∃ entry, c'.cache K = some entry ∧ entry.fetch = f := by
  cases h with
  | reload key =>
    cases key with
    | none => exact .inr (.inl ⟨rfl, rfl⟩)
    | some key =>
      by_cases hK : K = key
      · subst hK
        exact .inr (.inl ⟨Function.update_self .., rfl⟩)
      · exact .inl (Function.update_of_ne hK _ _)
  | settle f flight outcome cache hf hp hw =>
    rcases hw K with ⟨hsame, -⟩ | ⟨hK, hepoch, hnew⟩
    · exact .inl hsame
    · exact .inr (.inr ⟨f, _, rfl, hK, hepoch, ⟨flight, hf, rfl⟩, hnew⟩)
  | _ => exact .inl rfl

/-- The keys that a landing flight hands out are in the cache from it, or the epoch moved on since
its start. -/
theorem Change.landed_cases {f : ℕ} {flight : Flight} (h : Change c (.landed f flight) c')
    {K : String} (hK : K ∈ flight.keys) :
    (c'.cache K = c.cache K ∧ c.epoch ≠ flight.startEpoch ∧ c'.epoch = c.epoch) ∨
      ∃ entry, c'.cache K = some entry ∧ entry.fetch = f := by
  cases h with
  | settle f flight outcome cache hf hp hw =>
    rcases hw K with ⟨hsame, hne⟩ | ⟨-, -, hnew⟩
    · exact .inl ⟨hsame, hne hK, rfl⟩
    · exact .inr hnew

/-- A flight that lands is there. -/
theorem Change.landed_flight {f : ℕ} {flight : Flight} (h : Change c (.landed f flight) c') :
    c'.flights[f]? = some flight := by
  cases h with
  | settle f flight outcome cache hf hp hw =>
    rw [SecretsClient.settle]
    exact List.getElem?_set_self (List.getElem?_eq_some_iff.mp hf).1

/-- A flight that handed out keys stays as it is. -/
theorem Change.keeps_flight (h : Change c e c') {f : ℕ} {flight : Flight}
    (hf : c.flights[f]? = some flight) (hsettled : flight.outcome ≠ .pending) :
    c'.flights[f]? = some flight := by
  have hlaunch : ∀ {scope : Scope}, (c.launch scope).flights[f]? = some flight := by
    intro scope
    rw [launch, List.getElem?_append_left (List.getElem?_eq_some_iff.mp hf).1, hf]
  cases h with
  | launchOne key hs => exact hlaunch
  | launchAll hs => exact hlaunch
  | reload key => cases key <;> exact hf
  | settle g other outcome cache hg hp hw =>
    have hne : g ≠ f := by
      rintro rfl
      obtain rfl := Option.some.inj (hg.symm.trans hf)
      exact hsettled hp
    rw [SecretsClient.settle, List.getElem?_set_ne hne]
    exact hf
  | _ => exact hf

end Comax.Sdk
