import Comax.Cli.RoundTrip
import Comax.Json.Value

/-!
# Exporting as JSON

`secret export --format json` prints one object. It depends on the entries alone and not
on their order, and it is read back as these entries exactly if they are UTF-8.
-/

namespace Comax.Cli

open Comax.Core Comax.Webhook

/-- The object of the entries, with its keys sorted. -/
def Vars.json (m : Vars) : Json.Value := .obj (m.written.map fun p => (p.1, .str p.2))

/-- `emitJSON` -/
def emitJSON (m : Vars) : Str := Json.print Json.indented 0 m.json ++ [0x0A]

/-- The strings of an object, member by member. -/
def stringMembers : List (Str × Json.Value) → Option (List (Str × Str))
  | [] => some []
  | (k, .str v) :: ms => (stringMembers ms).map fun ps => (k, v) :: ps
  | _ :: _ => none

/-- A text as an object of strings. -/
def readStrings (s : Str) : Option (List (Str × Str)) :=
  match Json.read s with
  | some (.obj ms) => stringMembers ms
  | _ => none

/-- The entry as it is read back. -/
def coercedEntry (p : Str × Str) : Str × Str := (Json.coerced p.1, Json.coerced p.2)

/-- An object of strings is read as its strings. -/
theorem stringMembers_coerce (ps : List (Str × Str)) :
    stringMembers (Json.coerceMembers (ps.map fun p => (p.1, .str p.2))) =
      some (ps.map coercedEntry) := by
  induction ps with
  | nil => rfl
  | cons p ps ih =>
    rw [List.map_cons, Json.coerceMembers, Json.coerce, stringMembers, ih]
    rfl

/-- An object of strings is well formed and flat. -/
theorem flat_strings (ps : List (Str × Str)) :
    Json.WellFormedMembers (ps.map fun p => (p.1, .str p.2)) ∧
      Json.depthMembers (ps.map fun p => (p.1, .str p.2)) = 0 := by
  induction ps with
  | nil => exact ⟨trivial, rfl⟩
  | cons p ps ih => exact ⟨⟨trivial, ih.1⟩, by rw [List.map_cons, Json.depthMembers, ih.2]; rfl⟩

/-- What is printed is read back. -/
theorem readStrings_emitJSON (m : Vars) :
    readStrings (emitJSON m) = some (m.written.map coercedEntry) := by
  obtain ⟨hformed, hflat⟩ := flat_strings m.written
  have hread : Json.read ([] ++ (Json.print Json.indented 0 m.json ++ [0x0A])) =
      some (Json.coerce m.json) := by
    have hformed' : Json.WellFormed m.json := hformed
    refine Json.read_print _ hformed' ?_ (by simp) ?_
    · rw [Vars.json, Json.depth, hflat]
      decide
    · intro d hd
      rw [List.mem_singleton.mp hd]
      rfl
  rw [List.nil_append] at hread
  rw [readStrings, emitJSON, hread]
  exact stringMembers_coerce m.written

/-- An entry stays as it is exactly if it is UTF-8. -/
theorem coercedEntry_eq_self {p : Str × Str} :
    coercedEntry p = p ↔ IsUtf8 p.1 ∧ IsUtf8 p.2 := by
  rw [coercedEntry, Prod.ext_iff, Json.coerced_eq_self_iff, Json.coerced_eq_self_iff]

/-- The written entries depend on the entries alone. -/
theorem written_eq_iff {m m' : Vars} : m.written = m'.written ↔ m.entries.Perm m'.entries := by
  constructor
  · intro h
    exact (Vars.written_perm.symm.trans (.of_eq h)).trans Vars.written_perm
  · intro h
    have hperm : m.written.Perm m'.written :=
      (Vars.written_perm.trans h).trans Vars.written_perm.symm
    have hsorted : ∀ n : Vars, n.written.Pairwise fun p q => p.1 < q.1 := by
      intro n
      rw [Vars.written, List.pairwise_map]
      exact Vars.keys_pairwise
    refine hperm.eq_of_pairwise (fun p q _ _ hpq hqp => ?_) (hsorted m) (hsorted m')
    exact absurd hqp (List.lt_asymm hpq)

/-- Whether every entry is UTF-8. -/
def Vars.Utf8 (m : Vars) : Prop := ∀ p ∈ m.entries, IsUtf8 p.1 ∧ IsUtf8 p.2

/-- The entries are read back as they are exactly if they are UTF-8. -/
theorem readStrings_emitJSON_iff {m : Vars} :
    readStrings (emitJSON m) = some m.written ↔ m.Utf8 := by
  have hself : m.written.map coercedEntry = m.written ↔ ∀ p ∈ m.written, coercedEntry p = p := by
    rw [← List.map_id m.written, List.map_map, List.map_inj_left]
    simp
  rw [readStrings_emitJSON, Option.some_inj, hself]
  simp only [coercedEntry_eq_self, Vars.written_perm.mem_iff, Vars.Utf8]

/-- The JSON export depends on the entries and not on their order, and it has them in the order of
their keys. They are read back as they are exactly if all of them are UTF-8, and two exports of such
entries are the same exactly if the entries are. -/
theorem emitJSON_faithful (m : Vars) :
    (m.written.Perm m.entries ∧ m.keys.Pairwise (· < ·)) ∧
    (readStrings (emitJSON m) = some m.written ↔ m.Utf8) ∧
    ∀ m' : Vars, (m.entries.Perm m'.entries → emitJSON m = emitJSON m') ∧
      (m.Utf8 → m'.Utf8 → (emitJSON m = emitJSON m' ↔ m.entries.Perm m'.entries)) := by
  have hsame : ∀ m' : Vars, m.entries.Perm m'.entries → emitJSON m = emitJSON m' := by
    intro m' h
    rw [emitJSON, emitJSON, Vars.json, Vars.json, written_eq_iff.mpr h]
  refine ⟨⟨Vars.written_perm, Vars.keys_pairwise⟩, readStrings_emitJSON_iff, fun m' =>
    ⟨hsame m', fun h h' => ⟨fun he => ?_, hsame m'⟩⟩⟩
  have hread : some m.written = some m'.written := by
    rw [← readStrings_emitJSON_iff.mpr h, ← readStrings_emitJSON_iff.mpr h', he]
  exact written_eq_iff.mp (Option.some_inj.mp hread)

/-- Two orders of the same entries. -/
theorem emitJSON_faithful_swapped :
    emitJSON ⟨[(ascii "B", ascii "1"), (ascii "A", ascii "<")], by decide⟩ =
      emitJSON ⟨[(ascii "A", ascii "<"), (ascii "B", ascii "1")], by decide⟩ :=
  ((emitJSON_faithful _).2.2 _).1 (List.Perm.swap _ _ _)

end Comax.Cli
