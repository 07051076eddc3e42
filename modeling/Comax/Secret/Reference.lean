import Comax.Core.Pattern
import Comax.Core.Text

/-!
# References inside secret values

The grammar of `${{ env.KEY }}` as a linear pattern over bytes, and the sites it
marks in a plaintext. Every class of the pattern is ASCII, so matching bytes and
matching runes agree, and positions are byte offsets.
-/

namespace Comax.Secret

open Comax.Core

/-- The class `\s` of the regular expression syntax. -/
def isSpace (c : UInt8) : Bool :=
  c = byte '\t' || c = byte '\n' || c = 12 || c = byte '\r' || c = byte ' '

/-- The class `[A-Za-z0-9_.+-]` of environment and key names. -/
def isNameByte (c : UInt8) : Bool :=
  (byte 'A' ≤ c && c ≤ byte 'Z') || (byte 'a' ≤ c && c ≤ byte 'z') ||
    (byte '0' ≤ c && c ≤ byte '9') || c = byte '_' || c = byte '.' || c = byte '+' || c = byte '-'

/-- The single byte `b`. -/
def only (b : UInt8) : Atom UInt8 := .one fun c => c = b

/-- `\$\{\{\s*([A-Za-z0-9_.+-]+)\.([A-Za-z0-9_.+-]+)\s*\}\}`; marks are group boundaries. -/
def referencePattern : List (Atom UInt8) :=
  [only (byte '$'), only (byte '{'), only (byte '{'), .star isSpace,
    .mark, .plus isNameByte, .mark, only (byte '.'), .mark, .plus isNameByte, .mark,
    .star isSpace, only (byte '}'), only (byte '}')]

/-- One parsed reference site: the names between the braces and the range of the match. -/
structure Reference where
  envName : Str
  keyName : Str
  start : ℕ
  stop : ℕ
  deriving DecidableEq, Repr

/-- Read the two groups of a match of `plaintext`. -/
def Reference.ofMatch (plaintext : Str) (m : Match) : Reference :=
  match m.marks with
  | [a, b, c, d] => ⟨(plaintext.take b).drop a, (plaintext.take d).drop c, m.start, m.stop⟩
  | _ => ⟨[], [], m.start, m.stop⟩

@[simp] theorem Reference.ofMatch_start (plaintext : Str) (m : Match) :
    (Reference.ofMatch plaintext m).start = m.start := by
  unfold ofMatch
  split <;> rfl

@[simp] theorem Reference.ofMatch_stop (plaintext : Str) (m : Match) :
    (Reference.ofMatch plaintext m).stop = m.stop := by
  unfold ofMatch
  split <;> rfl

/-- Every reference in a plaintext, in the order they appear. -/
def findReferences (plaintext : Str) : List Reference :=
  (findAll referencePattern plaintext).map (Reference.ofMatch plaintext)

example : (findReferences (ascii "prefix ${{ shared.DB_HOST }} suffix")) =
    [⟨ascii "shared", ascii "DB_HOST", 7, 28⟩] := by decide

/-- Splice one text for each reference, the last reference first. -/
def spliceReferences (refs : List Reference) (text : Reference → Str) (value : Str) : Str :=
  refs.foldr (fun ref out => out.take ref.start ++ text ref ++ out.drop ref.stop) value

/-- Splicing the references of a value is splicing the matches of the pattern. -/
theorem spliceReferences_findReferences (text : Reference → Str) (value : Str) :
    spliceReferences (findReferences value) text value =
      splice (findAll referencePattern value) (fun m => text (.ofMatch value m)) value := by
  simp only [spliceReferences, findReferences, splice, List.foldr_map, Reference.ofMatch_start,
    Reference.ofMatch_stop]

/-- What is spliced in for a reference is a part of the result, with its references. -/
theorem findReferences_eq_nil_of_splice {text : Reference → Str} {value : Str}
    (h : findReferences (spliceReferences (findReferences value) text value) = []) {ref : Reference}
    (href : ref ∈ findReferences value) : findReferences (text ref) = [] := by
  obtain ⟨m, hm, rfl⟩ := List.mem_map.mp href
  rw [spliceReferences_findReferences] at h
  have hinfix := infix_splice (f := fun m => text (.ofMatch value m)) (findAll_spaced value) hm
  have hnone : findAll referencePattern (text (.ofMatch value m)) = [] :=
    findAll_eq_nil_of_infix hinfix (List.map_eq_nil_iff.mp h)
  rw [findReferences, hnone, List.map_nil]

/-- A value without a dollar sign holds no reference. -/
theorem findReferences_eq_nil {value : Str} (h : byte '$' ∉ value) : findReferences value = [] := by
  have hnone : findAll referencePattern value = [] := by
    refine findAll_eq_nil fun c hc => ?_
    simp only [decide_eq_false_iff_not]
    rintro rfl
    exact h hc
  simp only [findReferences, hnone, List.map_nil]

/-- None of the three characters a reference opens and closes with. -/
def Inert (c : UInt8) : Prop := c ≠ byte '$' ∧ c ≠ byte '{' ∧ c ≠ byte '}'

instance (c : UInt8) : Decidable (Inert c) := inferInstanceAs (Decidable (_ ∧ _ ∧ _))

/-- The text outside the references contains none of `$`, `{` and `}`. -/
def Hygienic (value : Str) : Prop :=
  ∀ c, Outside (findAll referencePattern value) value c → Inert c

instance (value : Str) : Decidable (Hygienic value) :=
  decidable_of_iff (∀ i : Fin value.length,
      (∀ m ∈ findAll referencePattern value, ¬ (m.start ≤ i.val ∧ i.val < m.stop)) →
        Inert value[i]) <| by
    constructor
    · rintro h c ⟨i, hi, hout⟩
      obtain ⟨hlt, rfl⟩ := List.getElem?_eq_some_iff.mp hi
      exact h ⟨i, hlt⟩ hout
    · intro h i hout
      exact h _ ⟨i, List.getElem?_eq_getElem i.isLt, hout⟩

/-- Splicing inert texts into a hygienic value leaves no reference. -/
theorem Hygienic.inert_splice {value : Str} (h : Hygienic value) {text : Reference → Str}
    (ht : ∀ ref ∈ findReferences value, ∀ c ∈ text ref, Inert c) :
    ∀ c ∈ spliceReferences (findReferences value) text value, Inert c := by
  intro c hc
  rw [spliceReferences_findReferences] at hc
  rcases mem_splice (findAll_spaced value) hc with hout | ⟨m, hm, hcm⟩
  · exact h c hout
  · exact ht _ (List.mem_map_of_mem hm) c hcm

end Comax.Secret
