import Comax.Sdk.Freshness

/-!
# The cache going back

Single-key and whole-environment flights run side by side, and the epoch is all that
guards a write. So a response can overwrite an entry from a later fetch, and a
response of an earlier epoch can leave an entry from an earlier fetch in place. In a
run where neither happens the cache never goes back behind a value that was returned.
-/

namespace Comax.Sdk

open Comax.Core SecretsClient

variable {opts : SecretsClientOptions} {c c' : SecretsClient} {e : Effect}

/-- A response that arrives is written exactly over the entries from earlier fetches. -/
def landsInOrder (c : SecretsClient) (a : Label) : Bool :=
  match effect c a with
  | .landed f flight => flight.keys.all fun K => (c.cache K).all fun entry =>
      (c.epoch == flight.startEpoch) == decide (entry.fetch < f)
  | _ => true

/-- After a read of a key returned a value, no cache hit for that key returns a value of an
earlier fetch. -/
def CacheMonotone (opts : SecretsClientOptions) (as : List Label) : Prop :=
  ∀ pre a mid b post c c₁ c₂ K f g, as = pre ++ a :: (mid ++ b :: post) →
    (client opts).run pre init = some c → next opts a c = some c₁ →
    (client opts).run mid c₁ = some c₂ → (K, f) ∈ returned opts c a →
    cacheHit opts c₂ b = some (K, g) → f ≤ g

/-- A fetch that handed out the value of a key. -/
def HandedOut (K : String) (f : ℕ) (c : SecretsClient) : Prop :=
  ∃ flight, c.flights[f]? = some flight ∧ K ∈ flight.keys

/-- The cache is not behind what fetches handed out. -/
structure Ordered (c : SecretsClient) : Prop where
  /-- No flight is ahead of the client. -/
  dated : Dated c
  /-- A later fetch has no earlier epoch. -/
  monotone : ∀ (f g : ℕ) (flight later : Flight), f ≤ g → c.flights[f]? = some flight →
    c.flights[g]? = some later → flight.startEpoch ≤ later.startEpoch
  /-- An entry was handed out by its fetch. -/
  cached : ∀ K entry, c.cache K = some entry → HandedOut K entry.fetch c
  /-- An entry is not from before a fetch that handed out its key. -/
  current : ∀ K f, HandedOut K f c → ∀ entry, c.cache K = some entry → f ≤ entry.fetch
  /-- Without an entry, the fetches from before it can write none. -/
  dropped : ∀ K f, HandedOut K f c → c.cache K = none → ∀ (g : ℕ) (flight : Flight), g < f →
    c.flights[g]? = some flight → flight.startEpoch < c.epoch

/-- A flight that hands out keys is settled. -/
theorem settled_of_mem_keys {flight : Flight} {K : String} (h : K ∈ flight.keys) :
    flight.outcome ≠ .pending := by
  intro hp
  rw [Flight.keys, hp] at h
  cases h

/-- What was handed out stays so. -/
theorem Change.handedOut (h : Change c e c') {K : String} {f : ℕ} (hK : HandedOut K f c) :
    HandedOut K f c' := by
  obtain ⟨flight, hf, hmem⟩ := hK
  exact ⟨flight, h.keeps_flight hf (settled_of_mem_keys hmem), hmem⟩

/-- What is handed out after a step was so before, or lands with it. -/
theorem Change.handedOut_cases (h : Change c e c') {K : String} {f : ℕ} (hK : HandedOut K f c') :
    HandedOut K f c ∨ ∃ flight old, e = .landed f flight ∧ K ∈ flight.keys ∧
      c.flights[f]? = some old ∧ old.startEpoch = flight.startEpoch := by
  obtain ⟨flight, hf, hmem⟩ := hK
  rcases h.flight_cases hf with ⟨old, hold, hstart, rfl | hland⟩ | ⟨-, -, hp, -⟩
  · exact .inl ⟨_, hold, hmem⟩
  · exact .inr ⟨flight, old, hland, hmem, hold, hstart⟩
  · exact absurd hp (settled_of_mem_keys hmem)

/-- A later fetch has no earlier epoch after a step either. -/
theorem Change.monotone (h : Change c e c') (ho : Ordered c) {f g : ℕ} {flight later : Flight}
    (hle : f ≤ g) (hf : c'.flights[f]? = some flight) (hg : c'.flights[g]? = some later) :
    flight.startEpoch ≤ later.startEpoch := by
  rcases h.flight_cases hf with ⟨old, hold, he, -⟩ | ⟨rfl, he, -⟩ <;>
    rcases h.flight_cases hg with ⟨old', hold', he', -⟩ | ⟨hlen, he', -⟩
  · exact he ▸ he' ▸ ho.monotone f g old old' hle hold hold'
  · exact he ▸ he' ▸ ho.dated f old hold
  · exact absurd (List.getElem?_eq_some_iff.mp hold').1 (not_lt.mpr hle)
  · exact (he.trans he'.symm).le

/-- An entry after a step was handed out by its fetch. -/
theorem Change.cached (h : Change c e c') (ho : Ordered c) {K : String} {entry : CacheEntry}
    (hentry : c'.cache K = some entry) : HandedOut K entry.fetch c' := by
  rcases h.cache_cases K with
    hsame | ⟨hnone, -⟩ | ⟨f, flight, rfl, hK, -, -, entry', hentry', hfetch⟩
  · exact h.handedOut (ho.cached K entry (hsame ▸ hentry))
  · cases hnone.symm.trans hentry
  · obtain rfl : entry' = entry := Option.some.inj (hentry'.symm.trans hentry)
    exact ⟨flight, hfetch ▸ h.landed_flight, hK⟩

/-- What lands with a step lands in order. -/
def LandsInOrder (c : SecretsClient) (e : Effect) : Prop :=
  ∀ f flight, e = .landed f flight → ∀ K ∈ flight.keys, ∀ entry, c.cache K = some entry →
    (c.epoch = flight.startEpoch ↔ entry.fetch < f)

/-- An entry after a step is not from before a fetch that handed out its key. -/
theorem Change.current (h : Change c e c') (ho : Ordered c) (hord : LandsInOrder c e) {K : String}
    {f : ℕ} (hK : HandedOut K f c') {entry : CacheEntry} (hentry : c'.cache K = some entry) :
    f ≤ entry.fetch := by
  rcases h.handedOut_cases hK with hold | ⟨flight, old, rfl, hmem, hold, hstart⟩
  · rcases h.cache_cases K with
      hsame | ⟨hnone, -⟩ |
      ⟨g, flight, he, hmem, hepoch, ⟨old, hg, hstart⟩, entry', hentry', hfetch⟩
    · exact ho.current K f hold entry (hsame ▸ hentry)
    · cases hnone.symm.trans hentry
    · obtain rfl : entry' = entry := Option.some.inj (hentry'.symm.trans hentry)
      rw [hfetch]
      cases hc : c.cache K with
      | none =>
        by_contra hlt
        have := ho.dropped K f hold hc g old (not_le.mp hlt) hg
        omega
      | some before =>
        have hlt := (hord g flight he K hmem before hc).mp hepoch
        exact (ho.current K f hold before hc).trans hlt.le
  · rcases h.landed_cases hmem with ⟨hsame, hne, -⟩ | ⟨entry', hentry', hfetch⟩
    · have hiff := hord f flight rfl K hmem entry (hsame ▸ hentry)
      exact not_lt.mp fun hlt => hne (hiff.mpr hlt)
    · obtain rfl : entry' = entry := Option.some.inj (hentry'.symm.trans hentry)
      exact hfetch.ge

/-- Without an entry after a step, the fetches from before a landed one are outdated. -/
theorem Change.dropped (h : Change c e c') (ho : Ordered c) {K : String} {f g : ℕ}
    {flight : Flight} (hK : HandedOut K f c') (hnone : c'.cache K = none) (hlt : g < f)
    (hg : c'.flights[g]? = some flight) : flight.startEpoch < c'.epoch := by
  have hepoch := h.epoch_le
  rcases h.cache_cases K with hsame | ⟨-, hmoved⟩ | ⟨_, _, _, _, _, _, entry, hentry, _⟩
  · rcases h.handedOut_cases hK with hold | ⟨landing, old, rfl, hmem, hold, hstart⟩
    · have hlen : f < c.flights.length := by
        obtain ⟨_, hf, -⟩ := hold
        exact (List.getElem?_eq_some_iff.mp hf).1
      rcases h.flight_cases hg with ⟨before, hbefore, he, -⟩ | ⟨rfl, -⟩
      · have := ho.dropped K f hold (hsame ▸ hnone) g before hlt hbefore
        omega
      · omega
    · have hlen := (List.getElem?_eq_some_iff.mp hold).1
      rcases h.landed_cases hmem with ⟨-, hne, -⟩ | ⟨entry, hentry, -⟩
      · rcases h.flight_cases hg with ⟨before, hbefore, he, -⟩ | ⟨rfl, -⟩
        · have hle := ho.monotone g f before old hlt.le hbefore hold
          have hdated := ho.dated f old hold
          omega
        · omega
      · cases hnone.symm.trans hentry
  · rcases h.flight_cases hg with ⟨before, hbefore, he, -⟩ | ⟨-, he, -, hsame⟩
    · have hdated := ho.dated g before hbefore
      omega
    · omega
  · cases hnone.symm.trans hentry

/-- A step keeps the cache current, if what lands with it lands in order. -/
theorem Change.ordered (h : Change c e c') (ho : Ordered c) (hord : LandsInOrder c e) :
    Ordered c' where
  dated := h.dated ho.dated
  monotone _ _ _ _ hle hf hg := h.monotone ho hle hf hg
  cached _ _ hentry := h.cached ho hentry
  current _ _ hK _ hentry := h.current ho hord hK hentry
  dropped _ _ hK hnone _ _ hlt hg := h.dropped ho hK hnone hlt hg

/-- A condition on the label, read off the effect. -/
theorem landsInOrder_effect {a : Label} (h : landsInOrder c a = true) :
    LandsInOrder c (effect c a) := by
  intro f flight he K hK entry hentry
  rw [landsInOrder, he] at h
  simp only [List.all_eq_true] at h
  have hall := h K hK
  rw [hentry] at hall
  simp only [Option.all_some, beq_iff_eq] at hall
  rw [← decide_eq_true_iff (p := entry.fetch < f), ← hall, beq_iff_eq]

/-- The entry of a cache hit. -/
theorem cache_of_hit {b : Label} {K : String} {g : ℕ} (h : cacheHit opts c b = some (K, g)) :
    ∃ entry, c.cache K = some entry ∧ entry.fetch = g := by
  cases b with
  | getSecret key now aborted =>
    simp only [cacheHit] at h
    split_ifs at h
    obtain ⟨entry, hentry, he⟩ := Option.map_eq_some_iff.mp h
    cases he
    exact ⟨entry, (Option.filter_eq_some_iff.mp hentry).1, rfl⟩
  | _ => cases h

/-- What a step returns was handed out by its fetch. -/
theorem handedOut_of_returned (ho : Ordered c) {a : Label} {K : String} {f : ℕ}
    (h : (K, f) ∈ returned opts c a) : HandedOut K f c := by
  have hhit : cacheHit opts c a = some (K, f) → HandedOut K f c := by
    intro h
    obtain ⟨entry, hentry, rfl⟩ := cache_of_hit h
    exact ho.cached K entry hentry
  cases a with
  | deliver g =>
    simp only [returned, List.mem_map, Prod.mk.injEq] at h
    obtain ⟨key, hkey, rfl, rfl⟩ := h
    cases hg : c.flights[g]? with
    | none => simp [hg] at hkey
    | some flight => exact ⟨flight, hg, by simpa [hg] using hkey⟩
  | _ => exact hhit (Option.mem_toList.mp h)

/-- The invariant holds in every state of a run whose responses land in order. -/
theorem ordered_of_run {as : List Label} (h : (client opts).run as init = some c)
    (halong : (client opts).Along (fun c a => landsInOrder c a = true) as init) : Ordered c := by
  have hinit : Ordered init :=
    ⟨fun f flight hf => by simp [init] at hf, fun f g flight later _ hf => by simp [init] at hf,
      fun K entry hentry => by simp [init] at hentry,
      fun K f hK entry hentry => by simp [init] at hentry,
      fun K f hK _ g flight _ hg => by simp [init] at hg⟩
  exact Machine.run_invariant halong
    (fun ho hord hn => (change_of_next hn).ordered ho (landsInOrder_effect hord)) hinit h

/-- In a run whose responses land in order, the cache never goes back. -/
theorem cacheMonotone_of_inOrder (opts : SecretsClientOptions) (as : List Label)
    (h : (client opts).Along (fun c a => landsInOrder c a = true) as init) :
    CacheMonotone opts as := by
  rintro pre a mid b post c c₁ c₂ K f g rfl hpre hn hmid hret hhit
  have hr : (client opts).run (pre ++ a :: mid) init = some c₂ := by
    rw [Machine.run_append, hpre, Option.bind_some, Machine.run]
    exact Option.bind_eq_some_iff.mpr ⟨c₁, hn, hmid⟩
  have halong₂ := (Machine.along_append.mp (List.append_assoc pre (a :: mid) (b :: post) ▸ h)).1
  have hK₁ := (change_of_next hn).handedOut
    (handedOut_of_returned (ordered_of_run hpre (Machine.along_append.mp h).1) hret)
  have hK₂ : HandedOut K f c₂ :=
    Machine.run_invariant (Machine.along_true mid c₁)
      (fun hK _ hn => (change_of_next hn).handedOut hK) hK₁ hmid
  obtain ⟨entry, hentry, rfl⟩ := cache_of_hit hhit
  exact (ordered_of_run hr halong₂).current K f hK₂ entry hentry

/-- Two reads of a key, the second after its response. -/
def readTwice : List Label :=
  [.getSecret "K" 0 false, .respondOne 0 ⟨"K", "v", 1, ""⟩ 5, .cleanup 0, .deliver 0,
    .getSecret "K" 20 false]

/-- The second read is a cache hit of the first one's fetch. -/
theorem readTwice_monotone : (client defaultOptions).Along
      (fun c a => landsInOrder c a = true) readTwice init ∧
    CacheMonotone defaultOptions readTwice := by
  have h : (client defaultOptions).Along (fun c a => landsInOrder c a = true) readTwice init := by
    decide +kernel
  exact ⟨h, cacheMonotone_of_inOrder defaultOptions readTwice h⟩

/-- A preload is under way when a key is read, and its response arrives after the key's. -/
def preloadOvertaken : List Label :=
  [.preload false, .getSecret "K" 0 false, .respondOne 1 ⟨"K", "new", 2, ""⟩ 5, .cleanup 1,
    .deliver 1, .respondAll 0 [⟨"K", "old", 1, ""⟩] 10, .cleanup 0, .deliver 0,
    .getSecret "K" 20 false]

/-- The read returned the value of the second fetch; the cache then serves that of the first. -/
theorem preloadOvertaken_goesBack : ¬CacheMonotone defaultOptions preloadOvertaken := by
  intro h
  have hle := h (preloadOvertaken.take 4) (.deliver 1)
    [.respondAll 0 [⟨"K", "old", 1, ""⟩] 10, .cleanup 0, .deliver 0] (.getSecret "K" 20 false) []
    _ _ _ "K" 1 0 rfl rfl rfl rfl (by decide) rfl
  exact absurd hle (by decide)

end Comax.Sdk
