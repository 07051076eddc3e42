import Comax.Cli.Pull

/-!
# The environment of a child process

`secret run` overlays the secrets on the environment of its parent: an entry of the parent whose
name is a secret key gets the secret's value where it stands, and the secrets that the parent does
not name follow in the order in which a map is iterated.
-/

namespace Comax.Cli

open Comax.Core

/-- `indexByteOf`, with no index for -1 -/
def indexByteOf (s : Str) (b : UInt8) : Option ℕ := s.findIdx? (· == b)

/-- `k + "=" + v` -/
def envEntry (k v : Str) : Str := k ++ byte '=' :: v

section Merge

variable (overrides : Vars)

/-- The override of an entry of the parent: its key and value. -/
def shadow (kv : Str) : Option (Str × Str) :=
  match indexByteOf kv (byte '=') with
  | some (eq + 1) =>
    let k := kv.take (eq + 1)
    (overrides.entries.lookup k).map fun v => (k, v)
  | _ => none

/-- A turn of the loop over the parent's entries, with `out` and `seen`. -/
def mergeEntry (acc : List Str × List Str) (kv : Str) : List Str × List Str :=
  match shadow overrides kv with
  | some (k, v) => (acc.1 ++ [envEntry k v], k :: acc.2)
  | none => (acc.1 ++ [kv], acc.2)

end Merge

/-- `mergeEnv`, when Go iterates the overrides in the order `order` -/
def mergeEnv (parent : List Str) (secrets order : List (Str × Str)) : List Str :=
  let overrides := pullEntries secrets
  let (out, seen) := parent.foldl (mergeEntry overrides) ([], [])
  out ++ (order.filter fun p => !seen.contains p.1).map fun p => envEntry p.1 p.2

/-! ## Names of entries -/

/-- An entry of the variable `n`. -/
def named (n kv : Str) : Bool := (n ++ [byte '=']).isPrefixOf kv

/-- An entry without `=`, or with nothing before it. -/
def malformed (kv : Str) : Bool := !kv.contains (byte '=') || named [] kv

section Names

variable {n k kv v : Str}

/-- An entry of `n` is `n=` and a value. -/
theorem named_iff : named n kv = true ↔ ∃ v, kv = envEntry n v := by
  rw [named, List.isPrefixOf_iff_prefix]
  constructor
  · rintro ⟨v, rfl⟩
    exact ⟨v, by rw [envEntry, List.append_assoc]; rfl⟩
  · rintro ⟨v, rfl⟩
    exact ⟨v, by rw [envEntry, List.append_assoc]; rfl⟩

@[simp] theorem named_envEntry (n v : Str) : named n (envEntry n v) = true := named_iff.mpr ⟨v, rfl⟩

/-- An entry has one name. -/
theorem envEntry_inj {v' : Str} (hn : byte '=' ∉ n) (hk : byte '=' ∉ k)
    (h : envEntry n v = envEntry k v') : n = k := by
  have hlen : some n.length = some k.length := by
    rw [← indexByte_append hn v, ← indexByte_append hk v']
    exact congrArg (indexByte · (byte '=')) h
  exact List.append_inj_left h (Option.some.inj hlen)

/-- An entry of one name is not an entry of another. -/
theorem named_envEntry_ne (hn : byte '=' ∉ n) (hk : byte '=' ∉ k) (hne : n ≠ k) :
    named n (envEntry k v) = false := by
  rw [Bool.eq_false_iff, ne_eq, named_iff]
  rintro ⟨w, hw⟩
  exact hne (envEntry_inj hn hk hw.symm)

/-- An entry with a name is well formed. -/
theorem malformed_envEntry (hk : byte '=' ∉ k) (hne : k ≠ []) :
    malformed (envEntry k v) = false := by
  have hmem : (envEntry k v).contains (byte '=') = true := by simp [envEntry]
  rw [malformed, hmem, named_envEntry_ne (List.not_mem_nil) hk (Ne.symm hne)]
  rfl

end Names

/-! ## The loop -/

section Loop

variable {overrides : Vars} {kv k v : Str}

/-- The keys of the overrides are names. -/
def Named (secrets : List (Str × Str)) : Prop :=
  ∀ p ∈ secrets, p.1 ≠ [] ∧ byte '=' ∉ p.1

/-- An entry is overridden by its name. -/
theorem shadow_envEntry {n : Str} (hn : byte '=' ∉ n) (v : Str) : shadow overrides (envEntry n v) =
    if n = [] then none else (overrides.entries.lookup n).map fun w => (n, w) := by
  have hindex : indexByteOf (envEntry n v) (byte '=') = some n.length := indexByte_append hn v
  rw [shadow, hindex]
  cases n with
  | nil => rfl
  | cons c n =>
    have htake : (envEntry (c :: n) v).take (n.length + 1) = c :: n := List.take_left' rfl
    simp only [List.length_cons, htake, if_neg (List.cons_ne_nil c n)]

/-- An entry is overridden by the pair of its name. -/
theorem shadow_eq_some_iff (hnamed : Named overrides.entries) :
    shadow overrides kv = some (k, v) ↔ (k, v) ∈ overrides.entries ∧ named k kv = true := by
  constructor
  · intro h
    by_cases heq : byte '=' ∈ kv
    · obtain ⟨n, w, rfl, hn⟩ := List.eq_append_cons_of_mem heq
      have hshadow := @shadow_envEntry overrides n hn w
      rw [envEntry, h] at hshadow
      split_ifs at hshadow with hnil
      obtain ⟨u, hu, hpair⟩ := Option.map_eq_some_iff.mp hshadow.symm
      obtain ⟨rfl, rfl⟩ := Prod.mk.inj hpair
      obtain ⟨before, after, hentries, -⟩ := List.lookup_eq_some_iff.mp hu
      exact ⟨by rw [hentries]; simp, named_envEntry n w⟩
    · have hindex : indexByteOf kv (byte '=') = none := indexByte_none heq
      rw [shadow, hindex] at h
      cases h
  · rintro ⟨hmem, hname⟩
    obtain ⟨w, rfl⟩ := named_iff.mp hname
    obtain ⟨hne, hk⟩ := hnamed _ hmem
    rw [shadow_envEntry hk, if_neg hne, Vars.lookup_eq_some overrides.nodup hmem]
    rfl

/-- What the loop appends for an entry of the parent. -/
def replaced (overrides : Vars) (kv : Str) : Str :=
  match shadow overrides kv with
  | some (k, v) => envEntry k v
  | none => kv

/-- The loop replaces each entry and collects the names it has seen. -/
theorem foldl_mergeEntry (parent : List Str) (acc : List Str × List Str) :
    (parent.foldl (mergeEntry overrides) acc).1 = acc.1 ++ parent.map (replaced overrides) ∧
      ∀ k, k ∈ (parent.foldl (mergeEntry overrides) acc).2 ↔
        k ∈ acc.2 ∨ ∃ kv ∈ parent, ∃ v, shadow overrides kv = some (k, v) := by
  induction parent generalizing acc with
  | nil => simp
  | cons kv parent ih =>
    rw [List.foldl_cons]
    obtain ⟨hout, hseen⟩ := ih (mergeEntry overrides acc kv)
    rw [hout, List.map_cons]
    cases hshadow : shadow overrides kv with
    | none =>
      have hturn : mergeEntry overrides acc kv = (acc.1 ++ [kv], acc.2) := by
        rw [mergeEntry, hshadow]
      refine ⟨by simp [hturn, replaced, hshadow], fun k => ?_⟩
      rw [hseen, hturn]
      simp [hshadow]
    | some p =>
      have hturn : mergeEntry overrides acc kv = (acc.1 ++ [envEntry p.1 p.2], p.1 :: acc.2) := by
        rw [mergeEntry, hshadow]
      refine ⟨by simp [hturn, replaced, hshadow], fun k => ?_⟩
      rw [hseen, hturn]
      simp [hshadow, Prod.ext_iff, or_assoc, or_left_comm, eq_comm]

end Loop

/-! ## The overlay -/

/-- The value that an entry gives to a variable. -/
def valueOf (n kv : Str) : Option Str := if named n kv then some (kv.drop (n.length + 1)) else none

/-- A lookup that takes the first entry of a variable. -/
def firstValue (n : Str) (env : List Str) : Option Str := env.findSome? (valueOf n)

/-- A lookup that takes the last entry of a variable. -/
def lastValue (n : Str) (env : List Str) : Option Str := env.reverse.findSome? (valueOf n)

/-- An entry of the parent becomes the entry of the secret with its name, or stays as it is. -/
def Overlaid (secrets : List (Str × Str)) (kv kv' : Str) : Prop :=
  (∃ p ∈ secrets, named p.1 kv = true ∧ kv' = envEntry p.1 p.2) ∨
    (∀ p ∈ secrets, named p.1 kv = false) ∧ kv' = kv

/-- The secrets that no entry of the parent names. -/
def unnamed (parent : List Str) (secrets : List (Str × Str)) : List (Str × Str) :=
  secrets.filter fun p => parent.all fun kv => !named p.1 kv

/-- The environment of a child: the parent's entries, each overlaid, and then in some order the
secrets that none of them names. -/
structure Overlay (parent : List Str) (secrets : List (Str × Str)) (env : List Str) : Prop where
  exact : ∃ kept added, env = kept ++ added ∧ List.Forall₂ (Overlaid secrets) parent kept ∧
    added.Perm ((unnamed parent secrets).map fun p => envEntry p.1 p.2)
  secret : ∀ p ∈ secrets, envEntry p.1 p.2 ∈ env ∧
    ∀ kv ∈ env, named p.1 kv = true → kv = envEntry p.1 p.2
  other : ∀ n, byte '=' ∉ n → n ∉ secrets.map Prod.fst →
    env.filter (named n) = parent.filter (named n)
  malformed : env.filter malformed = parent.filter malformed
  first : ∀ n, byte '=' ∉ n → firstValue n env = (secrets.lookup n).or (firstValue n parent)
  last : ∀ n, byte '=' ∉ n → lastValue n env = (secrets.lookup n).or (lastValue n parent)

section Secrets

variable {secrets : List (Str × Str)}

/-- Accepted keys are names of variables. -/
theorem named_of_validateName {srv : Server} {field : String}
    (h : ∀ s ∈ secrets, Server.validateName srv field s.1 = .ok ()) : Named secrets := by
  intro p hp
  have hplain := plain_of_name srv field (h p hp)
  exact ⟨hplain.ne_nil, fun hmem => (hplain.bytes _ hmem).2.2.1 rfl⟩

/-- A secret is determined by its key. -/
theorem eq_of_key {p q : Str × Str} (hkeys : (secrets.map Prod.fst).Nodup) (hp : p ∈ secrets)
    (hq : q ∈ secrets) (h : p.1 = q.1) : p = q := by
  have hlookup := Vars.lookup_eq_some hkeys hp
  rw [h, Vars.lookup_eq_some hkeys hq] at hlookup
  exact Prod.ext h (Option.some.inj hlookup).symm

/-- An entry of a secret, named by a secret, is the entry of that one. -/
theorem envEntry_eq_of_named {p q : Str × Str} (hkeys : (secrets.map Prod.fst).Nodup)
    (hnamed : Named secrets) (hp : p ∈ secrets) (hq : q ∈ secrets)
    (h : named p.1 (envEntry q.1 q.2) = true) : envEntry q.1 q.2 = envEntry p.1 p.2 := by
  have hname : p.1 = q.1 := by
    by_contra hne
    rw [named_envEntry_ne (hnamed p hp).2 (hnamed q hq).2 hne] at h
    cases h
  rw [eq_of_key hkeys hp hq hname]

variable {parent kept added : List Str}

/-- Entries of two lists in a relation have their partners. -/
theorem forall₂_partners {R : Str → Str → Prop} {xs ys : List Str} (h : List.Forall₂ R xs ys) :
    (∀ x ∈ xs, ∃ y ∈ ys, R x y) ∧ ∀ y ∈ ys, ∃ x ∈ xs, R x y := by
  induction h with
  | nil => simp
  | cons hxy _ ih =>
    exact ⟨List.forall_mem_cons.mpr ⟨⟨_, List.mem_cons_self, hxy⟩, fun x hx =>
        (ih.1 x hx).imp fun _ hy => ⟨List.mem_cons_of_mem _ hy.1, hy.2⟩⟩,
      List.forall_mem_cons.mpr ⟨⟨_, List.mem_cons_self, hxy⟩, fun y hy =>
        (ih.2 y hy).imp fun _ hx => ⟨List.mem_cons_of_mem _ hx.1, hx.2⟩⟩⟩

/-- What holds of no entry of a secret is unchanged. -/
theorem filter_overlaid {f : Str → Bool} (hf : ∀ p ∈ secrets, ∀ v, f (envEntry p.1 v) = false)
    (h : List.Forall₂ (Overlaid secrets) parent kept) : kept.filter f = parent.filter f := by
  induction h with
  | nil => rfl
  | @cons kv kv' parent kept hkv _ ih =>
    rcases hkv with ⟨p, hp, hname, rfl⟩ | ⟨-, rfl⟩
    · obtain ⟨v, rfl⟩ := named_iff.mp hname
      rw [List.filter_cons_of_neg (by simp [hf p hp]), List.filter_cons_of_neg (by simp [hf p hp]),
        ih]
    · rw [List.filter_cons, List.filter_cons, ih]

/-- An overlaid entry that a secret names is the entry of the secret. -/
theorem eq_of_overlaid {p : Str × Str} {kv kv' : Str} (hkeys : (secrets.map Prod.fst).Nodup)
    (hnamed : Named secrets) (hp : p ∈ secrets) (h : Overlaid secrets kv kv')
    (hname : named p.1 kv' = true) : kv' = envEntry p.1 p.2 := by
  rcases h with ⟨q, hq, -, rfl⟩ | ⟨hnone, rfl⟩
  · exact envEntry_eq_of_named hkeys hnamed hp hq hname
  · rw [hnone p hp] at hname
    cases hname

/-- The entry of the secret stands where the parent has an entry of its name. -/
theorem overlaid_named {p : Str × Str} {kv kv' : Str} (hkeys : (secrets.map Prod.fst).Nodup)
    (hnamed : Named secrets) (hp : p ∈ secrets) (h : Overlaid secrets kv kv')
    (hname : named p.1 kv = true) : kv' = envEntry p.1 p.2 := by
  rcases h with ⟨q, hq, hname', rfl⟩ | ⟨hnone, rfl⟩
  · refine envEntry_eq_of_named hkeys hnamed hp hq ?_
    obtain ⟨v, rfl⟩ := named_iff.mp hname
    obtain ⟨w, hw⟩ := named_iff.mp hname'
    rw [envEntry_inj (hnamed p hp).2 (hnamed q hq).2 hw, named_envEntry]
  · rw [hnone p hp] at hname
    cases hname

/-- A lookup sees only the entries of its variable. -/
theorem findSome?_filter_named (n : Str) (l : List Str) :
    (l.filter (named n)).findSome? (valueOf n) = l.findSome? (valueOf n) := by
  induction l with
  | nil => rfl
  | cons kv l ih =>
    cases hname : named n kv with
    | true =>
      rw [List.filter_cons_of_pos hname, List.findSome?_cons, List.findSome?_cons, ih]
    | false =>
      have hnone : valueOf n kv = none := by rw [valueOf, hname]; rfl
      rw [List.filter_cons_of_neg (by simp [hname]), ih, List.findSome?_cons, hnone]

/-- A lookup in a list that has the entries of the secrets and, for other names, those of another
list. -/
theorem findSome?_overlay {n : Str} {l l' : List Str} (hkeys : (secrets.map Prod.fst).Nodup)
    (hsecret : ∀ p ∈ secrets, envEntry p.1 p.2 ∈ l ∧
      ∀ kv ∈ l, named p.1 kv = true → kv = envEntry p.1 p.2)
    (hother : n ∉ secrets.map Prod.fst → l.filter (named n) = l'.filter (named n)) :
    l.findSome? (valueOf n) = (secrets.lookup n).or (l'.findSome? (valueOf n)) := by
  by_cases hn : n ∈ secrets.map Prod.fst
  · obtain ⟨p, hp, rfl⟩ := List.mem_map.mp hn
    obtain ⟨hmem, hall⟩ := hsecret p hp
    have hvalue : valueOf p.1 (envEntry p.1 p.2) = some p.2 := by
      rw [valueOf, named_envEntry, if_pos rfl, envEntry, List.append_cons,
        List.drop_left' (by simp)]
    rw [Vars.lookup_eq_some hkeys hp, Option.some_or]
    have hsome : (l.findSome? (valueOf p.1)).isSome = true :=
      List.findSome?_isSome_iff.mpr ⟨_, hmem, by rw [hvalue]; rfl⟩
    obtain ⟨w, hw⟩ := Option.isSome_iff_exists.mp hsome
    obtain ⟨kv, hkv, hval⟩ := List.exists_of_findSome?_eq_some hw
    have hname : named p.1 kv = true := by
      by_contra hne
      rw [valueOf, if_neg hne] at hval
      cases hval
    rw [hall kv hkv hname, hvalue] at hval
    rw [hw, hval]
  · have hlookup : secrets.lookup n = none := by
      rw [List.lookup_eq_none_iff]
      intro p hp
      have hne : n ≠ p.1 := fun he => hn (he ▸ List.mem_map_of_mem hp)
      simpa using hne
    rw [hlookup, Option.none_or, ← findSome?_filter_named, hother hn, findSome?_filter_named]

/-- What the loops make is an overlay. -/
theorem overlay_of_exact (hkeys : (secrets.map Prod.fst).Nodup) (hnamed : Named secrets)
    (hkept : List.Forall₂ (Overlaid secrets) parent kept)
    (hadded : added.Perm ((unnamed parent secrets).map fun p => envEntry p.1 p.2)) :
    Overlay parent secrets (kept ++ added) := by
  have hmem : ∀ e ∈ added, ∃ q ∈ secrets, e = envEntry q.1 q.2 := by
    intro e he
    obtain ⟨q, hq, rfl⟩ := List.mem_map.mp (hadded.mem_iff.mp he)
    exact ⟨q, List.mem_of_mem_filter hq, rfl⟩
  have hfilter : ∀ f : Str → Bool, (∀ p ∈ secrets, ∀ v, f (envEntry p.1 v) = false) →
      (kept ++ added).filter f = parent.filter f := by
    intro f hf
    have hnone : added.filter f = [] := by
      rw [List.filter_eq_nil_iff]
      intro e he
      obtain ⟨q, hq, rfl⟩ := hmem e he
      simp [hf q hq]
    rw [List.filter_append, hnone, List.append_nil, filter_overlaid hf hkept]
  have hsecret : ∀ p ∈ secrets, envEntry p.1 p.2 ∈ kept ++ added ∧
      ∀ kv ∈ kept ++ added, named p.1 kv = true → kv = envEntry p.1 p.2 := by
    intro p hp
    constructor
    · by_cases hall : parent.all (fun kv => !named p.1 kv) = true
      · refine List.mem_append_right _ (hadded.mem_iff.mpr ?_)
        exact List.mem_map.mpr ⟨p, List.mem_filter.mpr ⟨hp, hall⟩, rfl⟩
      · obtain ⟨kv, hkv, hname⟩ : ∃ kv ∈ parent, named p.1 kv = true := by simpa using hall
        obtain ⟨kv', hkv', hover⟩ := (forall₂_partners hkept).1 kv hkv
        rw [← overlaid_named hkeys hnamed hp hover hname]
        exact List.mem_append_left _ hkv'
    · intro kv hkv hname
      rcases List.mem_append.mp hkv with hkv | hkv
      · obtain ⟨kv₀, -, hover⟩ := (forall₂_partners hkept).2 kv hkv
        exact eq_of_overlaid hkeys hnamed hp hover hname
      · obtain ⟨q, hq, rfl⟩ := hmem kv hkv
        exact envEntry_eq_of_named hkeys hnamed hp hq hname
  have hother : ∀ n, byte '=' ∉ n → n ∉ secrets.map Prod.fst →
      (kept ++ added).filter (named n) = parent.filter (named n) := by
    intro n hn hkey
    refine hfilter _ fun p hp v => named_envEntry_ne hn (hnamed p hp).2 ?_
    exact fun he => hkey (he ▸ List.mem_map_of_mem hp)
  exact {
    exact := ⟨kept, added, rfl, hkept, hadded⟩
    secret := hsecret
    other := hother
    malformed := hfilter _ fun p hp v => malformed_envEntry (hnamed p hp).2 (hnamed p hp).1
    first := fun n hn => findSome?_overlay hkeys hsecret (hother n hn)
    last := fun n hn => by
      refine findSome?_overlay hkeys (fun p hp => ?_) fun hkey => ?_
      · simpa only [List.mem_reverse] using hsecret p hp
      · rw [List.filter_reverse, List.filter_reverse, hother n hn hkey] }

end Secrets

/-! ## The merge -/

/-- The loop leaves each entry of the parent overlaid. -/
theorem overlaid_replaced {overrides : Vars} (hnamed : Named overrides.entries) (kv : Str) :
    Overlaid overrides.entries kv (replaced overrides kv) := by
  rw [replaced]
  cases hshadow : shadow overrides kv with
  | none =>
    refine Or.inr ⟨fun p hp => ?_, rfl⟩
    by_contra hname
    rw [Bool.not_eq_false] at hname
    rw [(shadow_eq_some_iff (k := p.1) (v := p.2) hnamed).mpr ⟨hp, hname⟩] at hshadow
    cases hshadow
  | some p =>
    obtain ⟨hp, hname⟩ := (shadow_eq_some_iff hnamed).mp hshadow
    exact Or.inl ⟨p, hp, hname, rfl⟩

/-- The parent's names that the loop has seen. -/
theorem mem_seen_iff {overrides : Vars} (hnamed : Named overrides.entries) (parent : List Str)
    {p : Str × Str} (hp : p ∈ overrides.entries) :
    p.1 ∈ (parent.foldl (mergeEntry overrides) ([], [])).2 ↔
      ∃ kv ∈ parent, named p.1 kv = true := by
  rw [(foldl_mergeEntry parent _).2]
  constructor
  · rintro (hmem | ⟨kv, hkv, v, hshadow⟩)
    · cases hmem
    · exact ⟨kv, hkv, ((shadow_eq_some_iff hnamed).mp hshadow).2⟩
  · rintro ⟨kv, hkv, hname⟩
    exact Or.inr ⟨kv, hkv, p.2, (shadow_eq_some_iff hnamed).mpr ⟨hp, hname⟩⟩

/-- For distinct accepted keys and every order of iteration, the child's environment is the
parent's with the secrets laid over it. -/
theorem overlay_mergeEnv (srv : Server) (field : String) (parent : List Str)
    {secrets order : List (Str × Str)} (hkeys : (secrets.map Prod.fst).Nodup)
    (hnames : ∀ s ∈ secrets, Server.validateName srv field s.1 = .ok ())
    (horder : order.Perm (pullEntries secrets).entries) :
    Overlay parent secrets (mergeEnv parent secrets order) := by
  have hentries := entries_pullEntries hkeys
  have hnamed : Named (pullEntries secrets).entries := by
    rw [hentries]
    exact named_of_validateName hnames
  have hunnamed : (order.filter fun p =>
      !(parent.foldl (mergeEntry (pullEntries secrets)) ([], [])).2.contains p.1) =
        unnamed parent order := by
    refine List.filter_congr fun p hp => ?_
    have hseen := mem_seen_iff hnamed parent (horder.mem_iff.mp hp)
    rw [Bool.eq_iff_iff]
    simpa using not_congr hseen
  rw [mergeEnv]
  simp only [hunnamed, (foldl_mergeEntry parent ([], [])).1, List.nil_append]
  rw [hentries] at horder hnamed
  refine overlay_of_exact hkeys hnamed ?_ ((horder.filter _).map _)
  rw [← hentries] at hnamed
  refine List.forall₂_map_right_iff.mpr (List.forall₂_same.mpr fun kv _ => ?_)
  have hover := overlaid_replaced hnamed kv
  rwa [hentries] at hover

/-- Both entries of `A` get the secret's value, the malformed ones stay and `B` follows. -/
theorem overlay_mergeEnv_repeated :
    mergeEnv [ascii "A=1", ascii "X", ascii "=C:", ascii "A=2"]
        [(ascii "A", ascii "v"), (ascii "B", ascii "w")]
        [(ascii "B", ascii "w"), (ascii "A", ascii "v")] =
      [ascii "A=v", ascii "X", ascii "=C:", ascii "A=v", ascii "B=w"] ∧
    Overlay [ascii "A=1", ascii "X", ascii "=C:", ascii "A=2"]
      [(ascii "A", ascii "v"), (ascii "B", ascii "w")]
      (mergeEnv [ascii "A=1", ascii "X", ascii "=C:", ascii "A=2"]
        [(ascii "A", ascii "v"), (ascii "B", ascii "w")]
        [(ascii "B", ascii "w"), (ascii "A", ascii "v")]) :=
  ⟨by rfl, overlay_mergeEnv Server.plainServer "key" _ (by decide) (by decide)
    (List.Perm.swap _ _ _)⟩

end Comax.Cli
