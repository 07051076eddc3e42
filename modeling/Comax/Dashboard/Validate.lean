import Comax.Core.Utf16
import Comax.Server.Http

/-!
# The dashboard's check of names

`nameError` mirrors the server's `validateName` on JavaScript strings, whose length counts UTF-16
units where the server counts bytes.
-/

namespace Comax.Dashboard

open Comax.Core Comax.Server

/-- The class `[A-Za-z0-9_.+-]`. -/
def isNameUnit (u : UInt16) : Bool :=
  (0x41 ≤ u && u ≤ 0x5A) || (0x61 ≤ u && u ≤ 0x7A) || (0x30 ≤ u && u ≤ 0x39) ||
    (ofAscii (ascii "_.+-")).contains u

/-- `NAME_REGEX.test` -/
def nameRegexTest (value : JSString) : Bool := value != [] && value.all isNameUnit

/-- `MAX_NAME_LEN` -/
def maxNameUnits : ℕ := 128

/-- `isValidName` -/
def isValidName (value : JSString) : Bool :=
  if value.length = 0 || maxNameUnits < value.length then false else nameRegexTest value

/-- `nameError` -/
def nameError (field value : JSString) : Option JSString :=
  if value = [] then some (field ++ ofAscii (ascii " is required."))
  else if maxNameUnits < value.length then
    some (field ++ ofAscii (ascii " must be at most " ++ formatNat maxNameUnits ++
      ascii " characters."))
  else if !nameRegexTest value then
    some (field ++ ofAscii (ascii
      " may only contain letters, digits, period, underscore, hyphen, plus."))
  else none

/-- The codes of the class. -/
theorem isNameUnit_iff {u : UInt16} : isNameUnit u = true ↔
    48 ≤ u.toNat ∧ u.toNat ≤ 57 ∨ 65 ≤ u.toNat ∧ u.toNat ≤ 90 ∨ 97 ≤ u.toNat ∧ u.toNat ≤ 122 ∨
      u.toNat = 43 ∨ u.toNat = 45 ∨ u.toNat = 46 ∨ u.toNat = 95 := by
  have hmarks : ofAscii (ascii "_.+-") = [95, 46, 43, 45] := by decide
  simp only [isNameUnit, hmarks, Bool.or_eq_true, Bool.and_eq_true, decide_eq_true_eq,
    List.contains_iff_mem, List.mem_cons, List.not_mem_nil, or_false, UInt16.le_iff_toNat_le,
    ← UInt16.toNat_inj, UInt16.toNat_ofNat]
  omega

/-- The class has the characters that the server allows. -/
theorem isNameUnit_toUInt16 (c : UInt8) : isNameUnit c.toUInt16 = allowed c := by
  rw [Bool.eq_iff_iff, isNameUnit_iff, allowed_iff, UInt8.toNat_toUInt16]
  omega

section

variable {value : JSString}

/-- Strings of the class are ASCII. -/
theorem eq_ofAscii (h : ∀ u ∈ value, isNameUnit u = true) :
    ∃ t : Str, value = ofAscii t ∧ ∀ c ∈ t, c < 0x80 := by
  have hsmall : ∀ u ∈ value, u.toNat < 128 := by
    intro u hu
    have hcode := isNameUnit_iff.mp (h u hu)
    omega
  refine ⟨value.map UInt16.toUInt8, ?_, fun c hc => ?_⟩
  · rw [ofAscii, List.map_map]
    refine ((List.map_congr_left fun u hu => ?_).trans (List.map_id value)).symm
    have hu := hsmall u hu
    rw [Function.comp_apply, id, ← UInt16.toNat_inj, UInt8.toNat_toUInt16, UInt16.toNat_toUInt8]
    omega
  · obtain ⟨u, hu, rfl⟩ := List.mem_map.mp hc
    have hu := hsmall u hu
    have hbound : (0x80 : UInt8).toNat = 128 := rfl
    rw [UInt8.lt_iff_toNat_lt, UInt16.toNat_toUInt8, hbound]
    omega

/-- A string that is encoded as ASCII is ASCII. -/
theorem eq_of_encodeUtf8 (h : ∀ c ∈ encodeUtf8 value, c < 0x80) :
    value = ofAscii (encodeUtf8 value) := by
  refine eq_of_scalars h (utf8_injective ?_)
  rw [utf8_ascii h]
  rfl

/-- The accepted strings. -/
theorem isValidName_eq_true : isValidName value = true ↔
    value ≠ [] ∧ value.length ≤ maxNameUnits ∧ ∀ u ∈ value, isNameUnit u = true := by
  rw [isValidName, nameRegexTest]
  split
  · rename_i hlength
    simp only [Bool.or_eq_true, decide_eq_true_eq, List.length_eq_zero_iff] at hlength
    constructor
    · exact fun h => absurd h Bool.false_ne_true
    · rintro ⟨hne, hle, -⟩
      exact (hlength.elim hne fun hlt => absurd hle (Nat.not_le.mpr hlt)).elim
  · rename_i hlength
    simp only [Bool.or_eq_true, decide_eq_true_eq, not_or, Nat.not_lt] at hlength
    rw [Bool.and_eq_true, bne_iff_ne, List.all_eq_true]
    exact and_congr_right fun _ => (and_iff_right hlength.2).symm

/-- The strings without an error. -/
theorem nameError_eq_none {field : JSString} :
    nameError field value = none ↔ isValidName value = true := by
  rw [isValidName_eq_true, nameError, nameRegexTest]
  split
  · rename_i hnil
    simp [hnil]
  · rename_i hne
    split
    · rename_i hlt
      simp [Nat.not_le.mpr hlt]
    · rename_i hle
      simp [hne, Nat.not_lt.mp hle]

end

end Comax.Dashboard
