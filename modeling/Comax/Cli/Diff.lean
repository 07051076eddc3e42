import Comax.Json.Quote
import Comax.Server.Diffs

/-!
# The diff that the command line prints

`secret diff` lists the secrets of both environments and compares them itself, from the
other side: what the server calls added it prints as removed. On one state of the
database the two agree.
-/

namespace Comax.Cli.Diff

open Comax.Core Comax.Store Comax.Secret Comax.Server Comax.Webhook

/-- A listed secret as the client reads it, by key and value. -/
def received (views : List SecretView) : List (Str × Str) :=
  views.map fun view => (Json.coerced view.key, Json.coerced view.value)

/-- `indexByKey` -/
def indexByKey (s : List (Str × Str)) : AList fun _ : Str => Str :=
  s.foldl (fun out v => out.insert v.1 v.2) ∅

/-- The lines of one kind of change. -/
def changeLines (mark : String) (keys : List Str) : Str :=
  keys.flatMap fun k => ascii mark ++ k ++ ascii "\n"

/-- What is printed for three sorted lists of keys. -/
def diffText (leftName rightName : Str) (added removed changed : List Str) : Str :=
  ascii "diff " ++ leftName ++ ascii " -> " ++ rightName ++ ascii ":\n" ++
    if added.length + removed.length + changed.length = 0 then ascii "  (no differences)\n"
    else changeLines "  + " added ++ changeLines "  - " removed ++ changeLines "  ~ " changed

/-- The keys of one map that the other lacks, sorted. -/
def onlyIn (m other : AList fun _ : Str => Str) : List Str :=
  (m.keys.filter fun k => (other.lookup k).isNone).insertionSort (· ≤ ·)

/-- The keys of both maps whose values differ, sorted. -/
def changed (leftMap rightMap : AList fun _ : Str => Str) : List Str :=
  (leftMap.entries.filterMap fun l => (rightMap.lookup l.1).bind fun rv =>
    if l.2 ≠ rv then some l.1 else none).insertionSort (· ≤ ·)

/-- `printDiff` -/
def printDiff (leftName rightName : Str) (left right : List (Str × Str)) : Str :=
  diffText leftName rightName (onlyIn (indexByKey right) (indexByKey left))
    (onlyIn (indexByKey left) (indexByKey right)) (changed (indexByKey left) (indexByKey right))

/-! ## Key by key -/

section

variable {m other : AList fun _ : Str => Str} {k : Str}

theorem mem_onlyIn : k ∈ onlyIn m other ↔ k ∈ m ∧ k ∉ other := by
  rw [onlyIn, List.mem_insertionSort, List.mem_filter, Option.isNone_iff_eq_none,
    AList.lookup_eq_none, ← AList.mem_keys]

theorem mem_changed : k ∈ changed m other ↔ ∃ lv rv, m.lookup k = some lv ∧
    other.lookup k = some rv ∧ lv ≠ rv := by
  rw [changed, List.mem_insertionSort, List.mem_filterMap]
  constructor
  · rintro ⟨⟨k', lv⟩, hl, hk⟩
    obtain ⟨rv, hr, hk⟩ := Option.bind_eq_some_iff.mp hk
    split at hk
    · rename_i hne
      cases hk
      exact ⟨lv, rv, AList.mem_lookup_iff.mpr hl, hr, hne⟩
    · cases hk
  · rintro ⟨lv, rv, hl, hr, hne⟩
    refine ⟨⟨k, lv⟩, AList.mem_lookup_iff.mp hl, Option.bind_eq_some_iff.mpr ⟨rv, hr, ?_⟩⟩
    rw [if_pos hne]

/-- A key is indexed with its value if it is listed once. -/
theorem lookup_indexByKey {s : List (Str × Str)} (h : (s.map Prod.fst).Nodup) {v : Str} :
    (indexByKey s).lookup k = some v ↔ (k, v) ∈ s := by
  suffices hfold : ∀ m : AList fun _ : Str => Str, (∀ c ∈ s.map Prod.fst, c ∉ m) →
      ((s.foldl (fun out v => out.insert v.1 v.2) m).lookup k = some v ↔
        m.lookup k = some v ∨ (k, v) ∈ s) by
    rw [indexByKey, hfold ∅ fun c _ => AList.notMem_empty c, AList.lookup_empty]
    simp
  induction s with
  | nil => simp
  | cons p s ih =>
    intro m hm
    rw [List.map_cons, List.nodup_cons] at h
    rw [List.foldl_cons, ih h.2]
    · by_cases hk : k = p.1
      · subst hk
        have hnone : m.lookup p.1 = none :=
          AList.lookup_eq_none.mpr (hm p.1 (by simp))
        have hout : (p.1, v) ∉ s := fun hmem => h.1 (List.mem_map.mpr ⟨_, hmem, rfl⟩)
        rw [AList.lookup_insert, hnone, List.mem_cons, Option.some_inj]
        constructor
        · rintro (rfl | hmem)
          · exact .inr (.inl rfl)
          · exact absurd hmem hout
        · rintro (hnil | heq | hmem)
          · cases hnil
          · exact .inl (congrArg Prod.snd heq).symm
          · exact absurd hmem hout
      · have hp : (k, v) ≠ p := fun heq => hk (congrArg Prod.fst heq)
        rw [AList.lookup_insert_ne hk, List.mem_cons, or_iff_right hp]
    · intro c hc hmem
      rcases (AList.mem_insert _).mp hmem with rfl | hmem
      · exact h.1 hc
      · exact hm c (List.mem_cons_of_mem _ hc) hmem

end

/-! ## Against the server -/

/-- The list of the entries of a snapshot. -/
def viewsOf (snap : Snapshot) : List SecretView :=
  (snap.entries.map fun sec => secretView sec.1 sec.2).insertionSort fun a b => a.key ≤ b.key

/-- The pairs of a listed snapshot, if its texts pass through JSON as they are. -/
theorem received_eq {snap : Snapshot} (h : ∀ view ∈ viewsOf snap, IsUtf8 view.key ∧
    IsUtf8 view.value) :
    received (viewsOf snap) = (viewsOf snap).map fun view => (view.key, view.value) := by
  refine List.map_congr_left fun view hview => ?_
  obtain ⟨hkey, hvalue⟩ := h view hview
  rw [Json.coerced_eq_self_iff.mpr hkey, Json.coerced_eq_self_iff.mpr hvalue]

/-- They are its entries. -/
theorem mem_received {snap : Snapshot} (h : ∀ view ∈ viewsOf snap, IsUtf8 view.key ∧
    IsUtf8 view.value) {k v : Str} :
    (k, v) ∈ received (viewsOf snap) ↔ (snap.lookup k).map (·.value) = some v := by
  rw [received_eq h, List.mem_map, Option.map_eq_some_iff]
  constructor
  · rintro ⟨view, hview, heq⟩
    obtain ⟨sec, hsec, rfl⟩ := List.mem_map.mp ((List.mem_insertionSort _).mp hview)
    cases heq
    exact ⟨sec.2, AList.mem_lookup_iff.mpr hsec, rfl⟩
  · rintro ⟨sec, hsec, rfl⟩
    refine ⟨secretView k sec, (List.mem_insertionSort _).mpr ?_, rfl⟩
    exact List.mem_map.mpr ⟨⟨k, sec⟩, AList.mem_lookup_iff.mp hsec, rfl⟩

/-- So the client has the values of the snapshot by key. -/
theorem lookup_received {snap : Snapshot} (h : ∀ view ∈ viewsOf snap, IsUtf8 view.key ∧
    IsUtf8 view.value) (k : Str) :
    (indexByKey (received (viewsOf snap))).lookup k = (snap.lookup k).map (·.value) := by
  have hnodup : ((received (viewsOf snap)).map Prod.fst).Nodup := by
    rw [received_eq h, List.map_map]
    refine List.pairwise_map.mpr ((sorted_views snap).imp fun {a b} hlt heq => ?_)
    have hkey : a.key = b.key := heq
    rw [hkey] at hlt
    exact List.lt_irrefl _ hlt
  exact Option.ext fun v => (lookup_indexByKey hnodup).trans (mem_received h)

/-- A list of keys that the client prints is strictly sorted. -/
theorem onlyIn_sorted (m other : AList fun _ : Str => Str) :
    (onlyIn m other).Pairwise (· < ·) := by
  refine pairwise_lt_insertionSort id ?_
  rw [List.map_id]
  exact m.keys_nodup.filter _

/-- See `onlyIn_sorted`. -/
theorem changed_sorted (m other : AList fun _ : Str => Str) :
    (changed m other).Pairwise (· < ·) := by
  refine pairwise_lt_insertionSort id ?_
  rw [List.map_id]
  refine List.Nodup.sublist ?_ m.keys_nodup
  rw [AList.keys, List.keys]
  generalize m.entries = entries
  induction entries with
  | nil => exact List.Sublist.refl _
  | cons l entries ih =>
    rw [List.filterMap_cons]
    cases hk : (other.lookup l.1).bind fun rv => if l.2 ≠ rv then some l.1 else none with
    | none => exact ih.cons _
    | some k =>
      obtain ⟨rv, -, hk⟩ := Option.bind_eq_some_iff.mp hk
      split at hk
      · cases hk
        exact ih.cons_cons _
      · cases hk

/-- Maps with the values of two snapshots lack the same keys. -/
theorem onlyIn_eq {m other : AList fun _ : Str => Str} {snap snap' : Snapshot}
    (h : ∀ k, m.lookup k = (snap.lookup k).map (·.value))
    (h' : ∀ k, other.lookup k = (snap'.lookup k).map (·.value)) :
    onlyIn m other = Reader.onlyIn snap snap' := by
  refine (onlyIn_sorted m other).eq_of_mem_iff (Reader.onlyIn_sorted snap snap') fun k => ?_
  rw [mem_onlyIn, Reader.mem_onlyIn]
  simp only [← AList.lookup_isSome, h k, h' k, Option.isSome_map]

/-- They differ at the same keys. -/
theorem changed_eq {m other : AList fun _ : Str => Str} {snap snap' : Snapshot}
    (h : ∀ k, m.lookup k = (snap.lookup k).map (·.value))
    (h' : ∀ k, other.lookup k = (snap'.lookup k).map (·.value)) :
    changed m other = (Reader.changed snap snap').map (·.key) := by
  refine (changed_sorted m other).eq_of_mem_iff
    (List.pairwise_map.mpr (Reader.changed_sorted snap snap')) fun k => ?_
  rw [mem_changed, h k, h' k, List.mem_map]
  constructor
  · rintro ⟨lv, rv, hl, hr, hne⟩
    obtain ⟨l, hlhs, rfl⟩ := Option.map_eq_some_iff.mp hl
    obtain ⟨r, hrhs, rfl⟩ := Option.map_eq_some_iff.mp hr
    refine ⟨⟨k, l.version, r.version⟩, Reader.mem_changed.mpr ?_, rfl⟩
    exact ⟨l, r, hlhs, hrhs, Ne.symm hne, rfl⟩
  · rintro ⟨c, hc, rfl⟩
    obtain ⟨l, r, hl, hr, hne, -⟩ := Reader.mem_changed.mp hc
    exact ⟨l.value, r.value, by rw [hl]; rfl, by rw [hr]; rfl, Ne.symm hne⟩

/-- A diff is empty exactly when both snapshots have the same values. -/
theorem diff_nil_iff {lhs rhs : Snapshot} :
    (Reader.onlyIn lhs rhs = [] ∧ Reader.onlyIn rhs lhs = [] ∧ Reader.changed lhs rhs = []) ↔
      ∀ k, (lhs.lookup k).map (·.value) = (rhs.lookup k).map (·.value) := by
  constructor
  · rintro ⟨hadded, hremoved, hchanged⟩ k
    cases hl : lhs.lookup k with
    | none =>
      cases hr : rhs.lookup k with
      | none => rfl
      | some r =>
        have hmem : k ∈ Reader.onlyIn rhs lhs := Reader.mem_onlyIn.mpr
          ⟨AList.lookup_isSome.mp (by rw [hr]; rfl), AList.lookup_eq_none.mp hl⟩
        rw [hremoved] at hmem
        cases hmem
    | some l =>
      cases hr : rhs.lookup k with
      | none =>
        have hmem : k ∈ Reader.onlyIn lhs rhs := Reader.mem_onlyIn.mpr
          ⟨AList.lookup_isSome.mp (by rw [hl]; rfl), AList.lookup_eq_none.mp hr⟩
        rw [hadded] at hmem
        cases hmem
      | some r =>
        by_contra hne
        have hmem : ⟨k, l.version, r.version⟩ ∈ Reader.changed lhs rhs :=
          Reader.mem_changed.mpr ⟨l, r, hl, hr, fun heq => hne (congrArg some heq.symm), rfl⟩
        rw [hchanged] at hmem
        cases hmem
  · intro hsame
    have hkeys : ∀ k, k ∈ lhs ↔ k ∈ rhs := fun k => by
      rw [← AList.lookup_isSome, ← AList.lookup_isSome, ← Option.isSome_map (f := (·.value)),
        hsame k, Option.isSome_map]
    refine ⟨List.eq_nil_iff_forall_not_mem.mpr fun k hk => ?_,
      List.eq_nil_iff_forall_not_mem.mpr fun k hk => ?_,
      List.eq_nil_iff_forall_not_mem.mpr fun c hc => ?_⟩
    · obtain ⟨hl, hr⟩ := Reader.mem_onlyIn.mp hk
      exact hr ((hkeys k).mp hl)
    · obtain ⟨hr, hl⟩ := Reader.mem_onlyIn.mp hk
      exact hl ((hkeys k).mpr hr)
    · obtain ⟨l, r, hl, hr, hne, -⟩ := Reader.mem_changed.mp hc
      have hvalues := hsame c.key
      rw [hl, hr] at hvalues
      exact hne (Option.some.inj hvalues).symm

section

variable {rd : Reader} {db : Database} {p e : Str}

/-- What a path names, by its two lookups. -/
theorem resolveEnv_ok {pe : Project × Environment} (h : rd.resolveEnv p e db = .ok pe) :
    ProjectRepo.byName p db = .ok pe.1 ∧ EnvRepo.byName pe.1.id e db = .ok pe.2 := by
  rw [Reader.resolveEnv_eq] at h
  obtain ⟨_, -, h⟩ := bind_eq_ok.mp h
  obtain ⟨project, hproject, h⟩ := bind_eq_ok.mp h
  obtain ⟨_, -, h⟩ := bind_eq_ok.mp h
  obtain ⟨env, henv, h⟩ := bind_eq_ok.mp h
  cases h
  exact ⟨rd.find_eq_ok hproject, rd.find_eq_ok henv⟩

/-- A resolution that went through. -/
theorem resolve_ok {order : MapOrder} {projectID envID : Int} {snap : Snapshot}
    (h : rd.resolve order projectID envID db = .ok snap) :
    rd.resolver.resolve db order projectID envID = .ok snap := by
  rw [Reader.resolve] at h
  cases hrun : rd.resolver.resolve db order projectID envID with
  | ok m =>
    rw [hrun] at h
    cases h
    rfl
  | error f =>
    rw [hrun] at h
    cases h

/-- A list that went through. -/
theorem handleListSecrets_ok {order : MapOrder} {views : List SecretView}
    (h : rd.handleListSecrets order p e db = .ok views) :
    ∃ project env snap, ProjectRepo.byName p db = .ok project ∧
      EnvRepo.byName project.id e db = .ok env ∧
      rd.resolver.resolve db order project.id env.id = .ok snap ∧ views = viewsOf snap := by
  obtain ⟨⟨project, env⟩, henv, h⟩ := bind_eq_ok.mp h
  obtain ⟨snap, hsnap, h⟩ := bind_eq_ok.mp h
  cases h
  obtain ⟨hproject, henv⟩ := resolveEnv_ok henv
  exact ⟨project, env, snap, hproject, henv, resolve_ok hsnap, rfl⟩

/-- A diff that went through. -/
theorem handleDiffEnvs_ok {order order' : MapOrder} {against : Str} {d : EnvDiff}
    (h : rd.handleDiffEnvs order order' p e against db = .ok d) :
    ∃ project env env2 lhs rhs, ProjectRepo.byName p db = .ok project ∧
      EnvRepo.byName project.id e db = .ok env ∧
      EnvRepo.byName project.id against db = .ok env2 ∧
      rd.resolver.resolve db order project.id env.id = .ok lhs ∧
      rd.resolver.resolve db order' project.id env2.id = .ok rhs ∧
      d = ⟨env.name, env2.name, Reader.onlyIn lhs rhs, Reader.onlyIn rhs lhs,
        Reader.changed lhs rhs⟩ := by
  obtain ⟨⟨project, env⟩, henv, h⟩ := bind_eq_ok.mp h
  obtain ⟨_, -, h⟩ := bind_eq_ok.mp h
  obtain ⟨hproject, henv⟩ := resolveEnv_ok henv
  dsimp only at h
  split at h
  · cases h
  · obtain ⟨env2, henv2, h⟩ := bind_eq_ok.mp h
    obtain ⟨lhs, hlhs, h⟩ := bind_eq_ok.mp h
    obtain ⟨rhs, hrhs, h⟩ := bind_eq_ok.mp h
    cases h
    rw [Reader.alone_find] at henv2
    exact ⟨project, env, env2, lhs, rhs, hproject, henv, rd.find_eq_ok henv2, resolve_ok hlhs,
      resolve_ok hrhs, rfl⟩

end

/-- The name of an environment that was looked up by it. -/
theorem name_of_byName {projectID : Int} {name : Str} {db : Database} {env : Environment}
    (h : EnvRepo.byName projectID name db = .ok env) : env.name = name := by
  have hrow := (Table.of_find?_eq_some (found_eq_ok.mp h)).2
  simp only [Bool.and_eq_true, decide_eq_true_eq] at hrow
  exact hrow.2

/-- On one state of the database, whatever the orders of visit: what `secret diff` prints for two
listed environments is what the server answers, from the other side, and it prints no differences
exactly when both lists have the same keys and values. -/
theorem printDiff_mirrors (rd : Reader) (db : Database) {p e against : Str}
    {o₁ o₂ o₃ o₄ : MapOrder} {left right : List SecretView} {d : EnvDiff}
    (hsafe : ∀ project, ProjectRepo.byName p db = .ok project → ∀ start,
      (rd.resolver.source db project.id).RereadSafe start)
    (hleft : rd.handleListSecrets o₁ p e db = .ok left)
    (hright : rd.handleListSecrets o₂ p against db = .ok right)
    (hdiff : rd.handleDiffEnvs o₃ o₄ p e against db = .ok d)
    (hutf8 : ∀ view ∈ left ++ right, IsUtf8 view.key ∧ IsUtf8 view.value) :
    printDiff e against (received left) (received right) =
        diffText d.lhs d.rhs d.removed d.added (d.changed.map (·.key)) ∧
      ((d.added = [] ∧ d.removed = [] ∧ d.changed = []) ↔
        ∀ k v, (k, v) ∈ received left ↔ (k, v) ∈ received right) := by
  obtain ⟨project, env, l, hproject, henv, hl, rfl⟩ := handleListSecrets_ok hleft
  obtain ⟨project', env2, r, hproject', henv2, hr, rfl⟩ := handleListSecrets_ok hright
  obtain ⟨project'', env', env2', lhs, rhs, hproject'', henv', henv2', hlhs, hrhs, rfl⟩ :=
    handleDiffEnvs_ok hdiff
  obtain rfl : project = project' := Except.ok.inj (hproject.symm.trans hproject')
  obtain rfl : project = project'' := Except.ok.inj (hproject.symm.trans hproject'')
  obtain rfl : env = env' := Except.ok.inj (henv.symm.trans henv')
  obtain rfl : env2 = env2' := Except.ok.inj (henv2.symm.trans henv2')
  have horder : ∀ {start : Int} {o o' : MapOrder} {m m' : Snapshot},
      rd.resolver.resolve db o project.id start = .ok m →
      rd.resolver.resolve db o' project.id start = .ok m' → ∀ k, m.lookup k = m'.lookup k := by
    intro start o o' m m' hm hm' k
    have hsame := rd.resolver.resolve_order_independent db project.id start
      (fun _ => hsafe project hproject start) o o'
    rw [hm, hm'] at hsame
    cases hsame with
    | ok h => exact h k
  have hleft : ∀ k, (indexByKey (received (viewsOf l))).lookup k =
      (lhs.lookup k).map (·.value) := fun k => by
    rw [lookup_received fun view hview => hutf8 view (List.mem_append_left _ hview), horder hl hlhs]
  have hright : ∀ k, (indexByKey (received (viewsOf r))).lookup k =
      (rhs.lookup k).map (·.value) := fun k => by
    rw [lookup_received fun view hview => hutf8 view (List.mem_append_right _ hview),
      horder hr hrhs]
  refine ⟨?_, diff_nil_iff.trans ?_⟩
  · rw [printDiff, onlyIn_eq hright hleft, onlyIn_eq hleft hright, changed_eq hleft hright,
      name_of_byName henv, name_of_byName henv2]
  · simp only [mem_received fun view hview => hutf8 view (List.mem_append_left _ hview),
      mem_received fun view hview => hutf8 view (List.mem_append_right _ hview), horder hl hlhs,
      horder hr hrhs]
    exact ⟨fun h k v => by rw [h k], fun h k => Option.ext (h k)⟩

/-- The printed diff of two environments with a key in common. -/
theorem printDiff_mirrors_compared : ∃ left right d,
    plainReader.handleListSecrets .plain (ascii "p") (ascii "a") comparedDatabase = .ok left ∧
    plainReader.handleListSecrets .reversed (ascii "p") (ascii "b") comparedDatabase = .ok right ∧
    d.added = [ascii "L"] ∧ printDiff (ascii "a") (ascii "b") (received left) (received right) =
      diffText (EnvDiff.lhs d) d.rhs d.removed d.added (d.changed.map (·.key)) := by
  have hleft : plainReader.handleListSecrets .plain (ascii "p") (ascii "a") comparedDatabase =
      .ok [⟨1, ascii "K", ascii "x", 1, 0⟩, ⟨2, ascii "L", ascii "y", 1, 0⟩] := by
    decide +kernel
  have hright : plainReader.handleListSecrets .reversed (ascii "p") (ascii "b") comparedDatabase =
      .ok [⟨3, ascii "K", ascii "z", 4, 0⟩] := by
    decide +kernel
  have hdiff : plainReader.handleDiffEnvs .plain .reversed (ascii "p") (ascii "a") (ascii "b")
      comparedDatabase = .ok ⟨ascii "a", ascii "b", [ascii "L"], [], [⟨ascii "K", 1, 4⟩]⟩ := by
    decide +kernel
  have hhygienic : ∀ row ∈ comparedDatabase.secrets.rows,
      ∀ text ∈ plainResolver.opens row.ciphertext, Hygienic text := by
    decide +kernel
  have hsafe : ∀ project start,
      (plainResolver.source comparedDatabase project).RereadSafe start := fun project start =>
    Source.rereadSafe_of_hygienic
      (Source.hygienic_of_rows (w := plainResolver.source comparedDatabase project) hhygienic)
  refine ⟨_, _, _, hleft, hright, rfl, (printDiff_mirrors plainReader comparedDatabase
    (fun project _ => hsafe project.id) hleft hright hdiff ?_).1⟩
  intro view hview
  simp only [List.mem_append, List.mem_cons, List.not_mem_nil, or_false] at hview
  rcases hview with (rfl | rfl) | rfl
  · exact ⟨isUtf8_all (by decide), isUtf8_all (by decide)⟩
  · exact ⟨isUtf8_all (by decide), isUtf8_all (by decide)⟩
  · exact ⟨isUtf8_all (by decide), isUtf8_all (by decide)⟩

end Comax.Cli.Diff
