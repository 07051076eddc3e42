import Comax.Tmpl.Addressing

/-!
# Rendering is simultaneous substitution

A template is made of literal parts and of the sites of its references. Rendering puts the
value of each reference in the place of its site and leaves the literal parts alone; what was
put in is not read again.
-/

namespace Comax.Tmpl

open Comax.Core Comax.Secret

variable {tmpl : Str}

/-- The literal parts and the sites of a template. -/
def parts (tmpl : Str) : List (Segment UInt8) := segmentsFrom tmpl 0 (findAll pattern tmpl)

@[simp] theorem Ref.ofMatch_start (m : Match) : (Ref.ofMatch tmpl m).start = m.start := by
  unfold ofMatch
  split <;> rfl

@[simp] theorem Ref.ofMatch_stop (m : Match) : (Ref.ofMatch tmpl m).stop = m.stop := by
  unfold ofMatch
  split <;> rfl

/-- The matches of the grammar lie in order and apart from each other. -/
theorem spaced_pattern (tmpl : Str) : Spaced tmpl.length 0 (findAll pattern tmpl) :=
  findAll_spaced tmpl

/-- The parts make up the template. -/
theorem flatMap_parts_site (tmpl : Str) :
    (parts tmpl).flatMap (Segment.text (site tmpl)) = tmpl :=
  flatMap_segmentsFrom_site (spaced_pattern tmpl)

/-- The sites among the parts are those of the references, in their order. -/
theorem filterMap_parts (tmpl : Str) :
    (parts tmpl).filterMap (fun p => p.matched?.map (Ref.ofMatch tmpl)) = references tmpl := by
  rw [references, ← filterMap_segmentsFrom tmpl 0 (findAll pattern tmpl), List.map_filterMap]
  rfl

/-- The loop of `Render` substitutes in all parts at once. -/
theorem splice_references (value : Ref → Str) :
    (references tmpl).foldr (fun r out => out.take r.start ++ value r ++ out.drop r.stop) tmpl =
      (parts tmpl).flatMap (Segment.text fun m => value (Ref.ofMatch tmpl m)) := by
  have hsplice := splice_eq_flatMap (f := fun m => value (Ref.ofMatch tmpl m))
    (spaced_pattern tmpl) (Nat.zero_le _)
  rw [List.take_zero, List.nil_append] at hsplice
  rw [parts, ← hsplice]
  simp only [references, splice, List.foldr_map, Ref.ofMatch_start, Ref.ofMatch_stop]

section Groups

variable {as : List (Atom UInt8)} {s : Str} {i : ℕ} {r : List ℕ × ℕ}

/-- A given byte is read. -/
theorem matchHere_only_sound {b : UInt8} (h : matchHere (only b :: as) s i = some r) :
    ∃ t, s = b :: t ∧ matchHere as t (i + 1) = some r := by
  obtain ⟨c, t, rfl, hc, hrest⟩ := matchHere_one_sound h
  exact ⟨t, by rw [of_decide_eq_true hc], hrest⟩

/-- A group reads a name and records both its ends. -/
theorem matchHere_name_sound
    (h : matchHere (.mark :: .plus isNameByte :: .mark :: as) s i = some r) :
    ∃ name t marks stop, s = name ++ t ∧ (name ≠ [] ∧ ∀ c ∈ name, isNameByte c = true) ∧
      matchHere as t (i + name.length) = some (marks, stop) ∧
      r = (i :: (i + name.length) :: marks, stop) := by
  obtain ⟨marks, stop, hopen, hr⟩ := matchHere_mark_sound h
  obtain ⟨name, t, hs, hne, hbytes, hname⟩ := matchHere_plus_sound hopen
  obtain ⟨marks', stop', hclose, hr'⟩ := matchHere_mark_sound hname
  obtain ⟨rfl, rfl⟩ := Prod.mk.inj hr'
  exact ⟨name, t, marks', stop, hs, ⟨hne, hbytes⟩, hclose, hr⟩

/-- A match reads the text of a reference and records where its names stand. -/
theorem matchHere_reference_sound (h : matchHere referencePattern s i = some r) :
    ∃ ws env key ws' rest, s = referenceText ws env key ws' ++ rest ∧
      (∀ c ∈ ws ++ ws', isSpace c = true) ∧ (env ≠ [] ∧ ∀ c ∈ env, isNameByte c = true) ∧
      (key ≠ [] ∧ ∀ c ∈ key, isNameByte c = true) ∧
      r = ([i + 3 + ws.length, i + 3 + ws.length + env.length,
        i + 3 + ws.length + env.length + 1, i + 3 + ws.length + env.length + 1 + key.length],
        i + (referenceText ws env key ws').length) := by
  obtain ⟨s₁, hs₁, h₁⟩ := matchHere_only_sound h
  obtain ⟨s₂, hs₂, h₂⟩ := matchHere_only_sound h₁
  obtain ⟨s₃, hs₃, h₃⟩ := matchHere_only_sound h₂
  obtain ⟨ws, s₄, hs₄, hws, h₄⟩ := matchHere_star_sound h₃
  obtain ⟨env, s₅, marks, stop, hs₅, henv, h₅, hr⟩ := matchHere_name_sound h₄
  obtain ⟨s₆, hs₆, h₆⟩ := matchHere_only_sound h₅
  obtain ⟨key, s₇, marks', stop', hs₇, hkey, h₇, hr'⟩ := matchHere_name_sound h₆
  obtain ⟨ws', s₈, hs₈, hws', h₈⟩ := matchHere_star_sound h₇
  obtain ⟨s₉, hs₉, h₉⟩ := matchHere_only_sound h₈
  obtain ⟨rest, hrest, h₁₀⟩ := matchHere_only_sound h₉
  obtain ⟨rfl, rfl⟩ := Prod.mk.inj (Option.some.inj h₁₀)
  obtain ⟨rfl, rfl⟩ := Prod.mk.inj hr'
  refine ⟨ws, env, key, ws', rest, ?_, ?_, henv, hkey, ?_⟩
  · rw [hs₁, hs₂, hs₃, hs₄, hs₅, hs₆, hs₇, hs₈, hs₉, hrest]
    simp [referenceText, opened, closed]
  · exact fun c hc => (List.mem_append.mp hc).elim (hws c) (hws' c)
  · rw [hr]
    simp only [referenceText, opened, closed, List.length_append, List.length_cons,
      List.length_nil]
    congr 1
    omega

end Groups

/-- What stands at a match of the grammar is the text of its reference. -/
theorem site_of_match {m : Match} (h : m ∈ findAll pattern tmpl) :
    ∃ ws env key ws', site tmpl m = referenceText ws env key ws' ∧
      Ref.ofMatch tmpl m = ⟨env, key, m.start, m.stop⟩ ∧ (∀ c ∈ ws ++ ws', isSpace c = true) ∧
      (env ≠ [] ∧ ∀ c ∈ env, isNameByte c = true) ∧ key ≠ [] ∧ ∀ c ∈ key, isNameByte c = true := by
  obtain ⟨ws, env, key, ws', rest, hdrop, hws, henv, hkey, hr⟩ :=
    matchHere_reference_sound (matchHere_of_mem_findAll h)
  obtain ⟨hmarks, hstop⟩ := Prod.mk.inj hr
  have hstart : m.start = (tmpl.take m.start).length := by
    have hbounds := (spaced_pattern tmpl).bounds h
    rw [List.length_take_of_le (by omega)]
  have hslice : ∀ (before t after : Str) (i j : ℕ), referenceText ws env key ws' ++ rest =
      before ++ (t ++ after) → i = m.start + before.length → j = i + t.length →
        (tmpl.take j).drop i = t := by
    intro before t after i j heq hi hj
    have htmpl : tmpl = (tmpl.take m.start ++ before) ++ (t ++ after) := by
      rw [List.append_assoc, ← heq, ← hdrop, List.take_append_drop]
    rw [htmpl]
    refine slice_append _ t after ?_ hj
    rw [hi, List.length_append, ← hstart]
  refine ⟨ws, env, key, ws', ?_, ?_, hws, henv, hkey⟩
  · exact hslice [] _ rest _ _ rfl (by simp) hstop
  · have henvText := hslice (opened ++ ws) env (byte '.' :: (key ++ (ws' ++ (closed ++ rest))))
      (m.start + 3 + ws.length) _ (by simp [referenceText])
      (by simp [opened]; omega) rfl
    have hkeyText := hslice (opened ++ (ws ++ (env ++ [byte '.']))) key (ws' ++ (closed ++ rest))
      (m.start + 3 + ws.length + env.length + 1) _ (by simp [referenceText])
      (by simp [opened]; omega) rfl
    rw [Ref.ofMatch, hmarks]
    simp only [henvText, hkeyText]

/-! ## Missing references -/

section Missing

variable {snapshots : Snapshots} {currentEnv : Str} {r : Ref}

/-- The key of a reference is absent from the snapshot of its environment. -/
def Snapshots.KeyAbsent (snapshots : Snapshots) (currentEnv : Str) (r : Ref) : Prop :=
  ∃ snap, snapshots (r.resolved currentEnv) = some snap ∧ snap r.key = none

/-- The environment of a reference has no snapshot, or its key is absent from it. -/
def Snapshots.Absent (snapshots : Snapshots) (currentEnv : Str) (r : Ref) : Prop :=
  snapshots (r.resolved currentEnv) = none ∨ snapshots.KeyAbsent currentEnv r

/-- What `Render` looks up is absent where it finds nothing. -/
theorem Snapshots.find?_isNone_iff :
    (snapshots.find? currentEnv r).isNone = true ↔ snapshots.Absent currentEnv r := by
  rw [find?, Absent, KeyAbsent]
  cases snapshots (r.resolved currentEnv) with
  | none => simp
  | some snap => simp

instance : DecidablePred (snapshots.Absent currentEnv) :=
  fun _ => decidable_of_iff _ Snapshots.find?_isNone_iff

/-- A reference that is not absent has the value that is put in for it. -/
theorem Snapshots.exists_value (h : ¬ snapshots.Absent currentEnv r) :
    ∃ snap, snapshots (r.resolved currentEnv) = some snap ∧
      snap r.key = some (snapshots.value currentEnv r) := by
  rw [← find?_isNone_iff, Option.isNone_iff_eq_none] at h
  obtain ⟨v, hv⟩ := Option.ne_none_iff_exists'.mp h
  rw [value, hv, Option.getD_some]
  rw [find?] at hv
  cases hsnap : snapshots (r.resolved currentEnv) with
  | none => rw [hsnap] at hv; cases hv
  | some snap => rw [hsnap] at hv; exact ⟨snap, rfl, hv⟩

/-- The environment of every reference is one of `Envs`. -/
theorem resolved_mem_envs (h : r ∈ references tmpl) :
    r.resolved currentEnv ∈ envs tmpl currentEnv := by
  rw [envs, List.mem_insertionSort, List.mem_dedup]
  exact List.mem_map_of_mem h

/-- The references for which `Render` fails. -/
def missingRefs (tmpl currentEnv : Str) (snapshots : Snapshots) : List Ref :=
  (references tmpl).filter (snapshots.Absent currentEnv)

/-- `Render` collects the references that are absent. -/
theorem filter_isNone_find? :
    (references tmpl).filter (fun r => (snapshots.find? currentEnv r).isNone) =
      missingRefs tmpl currentEnv snapshots :=
  List.filter_congr fun _ _ =>
    Bool.eq_iff_iff.mpr (Snapshots.find?_isNone_iff.trans decide_eq_true_iff.symm)

/-- `Render` fails for its missing references. -/
theorem render_missing (hself : currentEnv ≠ selfEnv)
    (hmissing : missingRefs tmpl currentEnv snapshots ≠ []) :
    render tmpl currentEnv snapshots = ⟨[], missingRefs tmpl currentEnv snapshots,
      some (unresolvedError (missingRefs tmpl currentEnv snapshots))⟩ := by
  have hrefs : references tmpl ≠ [] := by
    intro hnil
    rw [missingRefs, hnil] at hmissing
    exact hmissing rfl
  rw [render, if_neg hself]
  simp only [if_neg hrefs, filter_isNone_find?, if_pos hmissing]

/-- Without missing references, `Render` substitutes in all parts at once. -/
theorem render_found (hself : currentEnv ≠ selfEnv)
    (hmissing : missingRefs tmpl currentEnv snapshots = []) :
    render tmpl currentEnv snapshots = ⟨(parts tmpl).flatMap
      (Segment.text fun m => snapshots.value currentEnv (Ref.ofMatch tmpl m)), [], none⟩ := by
  rw [render, if_neg hself]
  simp only [filter_isNone_find?, hmissing, ne_eq, not_true, if_false, splice_references]
  split_ifs with hrefs
  · -- No reference: the template is one literal part.
    rw [← splice_references, hrefs]
    rfl
  · rfl

end Missing

/-- A template written as its literal parts and the sites of its references. -/
structure Decomposed (tmpl : Str) (ps : List (Segment UInt8)) : Prop where
  whole : ps.flatMap (Segment.text (site tmpl)) = tmpl
  refs : ps.filterMap (fun p => p.matched?.map (Ref.ofMatch tmpl)) = references tmpl
  grammar : ∀ m, Segment.matched m ∈ ps → ∃ ws env key ws',
    site tmpl m = referenceText ws env key ws' ∧
      Ref.ofMatch tmpl m = ⟨env, key, m.start, m.stop⟩ ∧ (∀ c ∈ ws ++ ws', isSpace c = true) ∧
      (env ≠ [] ∧ ∀ c ∈ env, isNameByte c = true) ∧ key ≠ [] ∧ ∀ c ∈ key, isNameByte c = true

/-- The parts of a template. -/
theorem parts_decomposed (tmpl : Str) : Decomposed tmpl (parts tmpl) where
  whole := flatMap_parts_site tmpl
  refs := filterMap_parts tmpl
  grammar m hm := by
    refine site_of_match ?_
    rw [← filterMap_segmentsFrom tmpl 0 (findAll pattern tmpl)]
    exact List.mem_filterMap.mpr ⟨_, hm, rfl⟩

/-- `Render` rejects `self` as the current environment, fails for exactly the references whose
environment or key is absent, and otherwise replaces every site of the template by its value
and nothing else. With a snapshot of every environment of `Envs`, only keys are missing. -/
theorem render_simultaneous (tmpl currentEnv : Str) (snapshots : Snapshots) :
    Decomposed tmpl (parts tmpl) ∧
      (currentEnv = selfEnv →
        render tmpl currentEnv snapshots = ⟨[], [], some reservedError⟩) ∧
      (currentEnv ≠ selfEnv → ∀ missing,
        missing = (references tmpl).filter (snapshots.Absent currentEnv) →
          (missing ≠ [] →
            render tmpl currentEnv snapshots = ⟨[], missing, some (unresolvedError missing)⟩) ∧
          (missing = [] → ∃ value : Ref → Str,
            (∀ r ∈ references tmpl, ∃ snap, snapshots (r.resolved currentEnv) = some snap ∧
              snap r.key = some (value r)) ∧
            render tmpl currentEnv snapshots =
              ⟨(parts tmpl).flatMap (Segment.text fun m => value (Ref.ofMatch tmpl m)),
                [], none⟩)) ∧
      ((∀ env ∈ envs tmpl currentEnv, snapshots env ≠ none) →
        ∀ r ∈ (render tmpl currentEnv snapshots).missing, snapshots.KeyAbsent currentEnv r) := by
  have hreserved (h : currentEnv = selfEnv) :
      render tmpl currentEnv snapshots = ⟨[], [], some reservedError⟩ := if_pos h
  refine ⟨parts_decomposed tmpl, hreserved, ?_, ?_⟩
  · rintro hself missing rfl
    refine ⟨render_missing hself, fun hmissing => ⟨snapshots.value currentEnv, ?_,
      render_found hself hmissing⟩⟩
    intro r hr
    have hfound := List.filter_eq_nil_iff.mp hmissing r hr
    exact Snapshots.exists_value (by simpa using hfound)
  · intro hall r hr
    have habsent : r ∈ missingRefs tmpl currentEnv snapshots := by
      by_cases hself : currentEnv = selfEnv
      · rw [hreserved hself] at hr
        cases hr
      by_cases hmissing : missingRefs tmpl currentEnv snapshots = []
      · rw [render_found hself hmissing] at hr
        cases hr
      · rwa [render_missing hself hmissing] at hr
    obtain ⟨href, habsent⟩ := List.mem_filter.mp habsent
    rcases of_decide_eq_true habsent with henv | hkey
    · exact absurd henv (hall _ (resolved_mem_envs href))
    · exact hkey

end Comax.Tmpl
