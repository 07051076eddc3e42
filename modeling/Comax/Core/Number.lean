import Comax.Core.Url
import Comax.Core.Utf16
import Mathlib.Data.Int.Log
import Mathlib.Data.List.DropRight
import Mathlib.Data.Rat.Floor
import Mathlib.Tactic.Linarith
import Mathlib.Tactic.Positivity

/-!
# JavaScript numbers

A number is a double: not a number, an infinity, or a rational with at most 53 binary
digits. `ofString` is the conversion of a string, which accepts white space on both
sides, other radices, `Infinity` and exponents, but no character outside of these.
-/

namespace Comax.Core

/-- A double; both zeros are one. -/
inductive Number where
  | nan
  | infinity (negative : Bool)
  | finite (q : ℚ)
  deriving DecidableEq

namespace Number

/-- The nearest integer, and the even one of two. -/
def roundEven (x : ℚ) : ℤ :=
  let below := ⌊x⌋
  if x - below < 1 / 2 then below
  else if 1 / 2 < x - below then below + 1
  else if below % 2 = 0 then below
  else below + 1

/-- The exponent of the last binary digit of the doubles around a number. -/
def ulpExponent (q : ℚ) : ℤ := max (Int.log 2 |q| - 52) (-1074)

/-- Doubles stay below two to this power. -/
def overflowExponent : ℕ := 1024

/-- The nearest double. -/
def round (q : ℚ) : Number :=
  let r := roundEven (|q| / 2 ^ ulpExponent q) * (2 : ℚ) ^ ulpExponent q
  if 2 ^ overflowExponent ≤ r then .infinity (decide (q < 0)) else .finite (if q < 0 then -r else r)

/-- `a > b` -/
def gt : Number → Number → Bool
  | infinity a, infinity b => !a && b
  | infinity a, finite _ => !a
  | finite _, infinity b => b
  | finite p, finite q => decide (q < p)
  | _, _ => false

/-- `a <= b` -/
def le : Number → Number → Bool
  | nan, _ => false
  | _, nan => false
  | a, b => !gt a b

/-- `a - b` -/
def sub : Number → Number → Number
  | infinity a, infinity b => if a = b then nan else infinity a
  | infinity a, finite _ => infinity a
  | finite _, infinity b => infinity (!b)
  | finite p, finite q => round (p - q)
  | _, _ => nan

/-- `Math.abs` -/
def abs : Number → Number
  | infinity _ => infinity false
  | finite q => finite |q|
  | nan => nan

/-- `Number.isInteger` -/
def isInteger : Number → Bool
  | finite q => q.isInt
  | _ => false

/-- A unit of white space or a line end. -/
def isSpace (u : UInt16) : Bool :=
  [0x09, 0x0A, 0x0B, 0x0C, 0x0D, 0x20, 0xA0, 0x1680, 0x2028, 0x2029, 0x202F, 0x205F, 0x3000,
    0xFEFF].contains u || (0x2000 ≤ u && u ≤ 0x200A)

/-- The value of digits in a radix. -/
def radixValue (radix : ℕ) (s : Str) : Option ℕ :=
  if s = [] then none
  else s.foldlM (fun n c => do
    let d ← fromHex c
    if d.toNat < radix then some (n * radix + d.toNat) else none) 0

/-- The radix that a literal starts with. -/
def radixOf (c : UInt8) : Option ℕ :=
  if c = byte 'x' ∨ c = byte 'X' then some 16
  else if c = byte 'o' ∨ c = byte 'O' then some 8
  else if c = byte 'b' ∨ c = byte 'B' then some 2
  else none

/-- A sign, and what follows it. -/
def splitSign : Str → Bool × Str
  | [] => (false, [])
  | c :: s =>
    if c = byte '-' then (true, s) else if c = byte '+' then (false, s) else (false, c :: s)

/-- The value of an exponent. -/
def exponentValue (s : Str) : Option ℤ :=
  (digitsValue (splitSign s).2).map fun n => if (splitSign s).1 then -(n : ℤ) else n

/-- The value of digits that may be missing. -/
def optionalDigits (s : Str) : Option ℕ := if s = [] then some 0 else digitsValue s

/-- A letter that opens an exponent. -/
def isExponent (c : UInt8) : Bool := c = byte 'e' || c = byte 'E'

/-- The value of decimal digits with a fraction and an exponent. -/
def decimalValue (s : Str) : Option ℚ := do
  let mantissa := s.takeWhile fun c => !isExponent c
  let exponent := s.dropWhile fun c => !isExponent c
  let whole := mantissa.takeWhile (· != byte '.')
  let fraction := (mantissa.dropWhile (· != byte '.')).tail
  if whole = [] ∧ fraction = [] then none
  else
    let i ← optionalDigits whole
    let f ← optionalDigits fraction
    let e ← if exponent = [] then some 0 else exponentValue exponent.tail
    return (i * 10 ^ fraction.length + f) * (10 : ℚ) ^ (e - fraction.length)

/-- A decimal literal with its sign. -/
def ofDecimal (s : Str) : Number :=
  let (negative, t) := splitSign s
  if t = ascii "Infinity" then .infinity negative
  else
    match decimalValue t with
    | none => .nan
    | some q => round (if negative then -q else q)

/-- A literal of ASCII characters. -/
def ofLiteral (s : Str) : Number :=
  match s with
  | a :: b :: t =>
    match if a = byte '0' then radixOf b else none with
    | some radix =>
      match radixValue radix t with
      | none => .nan
      | some n => round n
    | none => ofDecimal s
  | _ => ofDecimal s

/-- `Number(s)` -/
def ofString (s : JSString) : Number :=
  let t := (s.dropWhile isSpace).rdropWhile isSpace
  if t = [] then .finite 0
  else if t.all (· < 0x80) then ofLiteral (t.map UInt16.toUInt8)
  else .nan

/-! ## What is no number -/

section Brace

variable {s : Str} (hs : byte '{' ∈ s)
include hs

/-- A brace is no digit. -/
theorem digitsValue_brace : digitsValue s = none := by
  rw [digitsValue, if_neg]
  rw [Bool.and_eq_true, List.all_eq_true]
  exact fun h => absurd (h.2 _ hs) (by decide)

/-- A brace is no digit in any radix. -/
theorem radixValue_brace (radix : ℕ) : radixValue radix s = none := by
  have hfold : ∀ n, s.foldlM (fun n c => do
      let d ← fromHex c
      if d.toNat < radix then some (n * radix + d.toNat) else none) n = none := by
    induction s with
    | nil => cases hs
    | cons c s ih =>
      intro n
      rw [List.foldlM_cons]
      rcases List.mem_cons.mp hs with rfl | hs
      · rfl
      · cases hc : fromHex c with
        | none => rfl
        | some d =>
          by_cases hd : d.toNat < radix
          · simpa [hd] using ih hs (n * radix + d.toNat)
          · simp [hd]
  rw [radixValue, hfold, ite_self]

/-- A brace is no sign. -/
theorem mem_splitSign : byte '{' ∈ (splitSign s).2 := by
  cases s with
  | nil => cases hs
  | cons c s =>
    rw [splitSign]
    split_ifs with hminus hplus
    · exact (List.mem_cons.mp hs).resolve_left fun he => absurd (he.trans hminus) (by decide)
    · exact (List.mem_cons.mp hs).resolve_left fun he => absurd (he.trans hplus) (by decide)
    · exact hs

/-- A brace is in no exponent. -/
theorem exponentValue_brace : exponentValue s = none := by
  rw [exponentValue, digitsValue_brace (mem_splitSign hs)]
  rfl

/-- A brace is among no digits. -/
theorem optionalDigits_brace : optionalDigits s = none := by
  rw [optionalDigits, if_neg (List.ne_nil_of_mem hs), digitsValue_brace hs]

/-- A brace that is not the first byte is in the rest. -/
theorem mem_tail_of_head {p : UInt8 → Bool} (hp : ∀ c ∈ s.head?, p c = false)
    (hbrace : p (byte '{') = true) : byte '{' ∈ s.tail := by
  cases s with
  | nil => cases hs
  | cons c s =>
    refine (List.mem_cons.mp hs).resolve_left fun he => ?_
    have hc := hp c rfl
    rw [← he, hbrace] at hc
    cases hc

/-- A brace is in no decimal number. -/
theorem decimalValue_brace : decimalValue s = none := by
  have hhead : ∀ (p : UInt8 → Bool) (l : Str), ∀ c ∈ (l.dropWhile p).head?, p c = false := by
    intro p l c hc
    have hnot := List.head?_dropWhile_not p l
    rw [hc] at hnot
    simpa using hnot
  rw [← List.takeWhile_append_dropWhile (p := fun c => !isExponent c) (l := s)] at hs
  rcases List.mem_append.mp hs with h | h
  · rw [← List.takeWhile_append_dropWhile (p := (· != byte '.'))
      (l := s.takeWhile fun c => !isExponent c)] at h
    rcases List.mem_append.mp h with h | h
    · simp [decimalValue, optionalDigits_brace h]
    · have htail := mem_tail_of_head h (p := (· != byte '.')) (hhead _ _) (by decide)
      simp [decimalValue, optionalDigits_brace htail]
  · have htail := mem_tail_of_head h (p := fun c => !isExponent c) (hhead _ _) (by decide)
    have hne := List.ne_nil_of_mem h
    simp [decimalValue, exponentValue_brace htail, hne]

/-- A brace is in no decimal literal. -/
theorem ofDecimal_brace : ofDecimal s = nan := by
  have hmem := mem_splitSign hs
  have hname : (splitSign s).2 ≠ ascii "Infinity" := fun he => absurd (he ▸ hmem) (by decide)
  simp only [ofDecimal, if_neg hname, decimalValue_brace hmem]

/-- A brace is in no literal. -/
theorem ofLiteral_brace : ofLiteral s = nan := by
  have hdecimal := ofDecimal_brace hs
  unfold ofLiteral
  split
  · rename_i a b t
    split
    · rename_i radix hradix
      have ha : a = byte '0' := by
        by_contra hne
        rw [if_neg hne] at hradix
        cases hradix
      rw [if_pos ha] at hradix
      have ht : byte '{' ∈ t := by
        rcases List.mem_cons.mp hs with he | hs
        · exact absurd (he.trans ha) (by decide)
        · refine (List.mem_cons.mp hs).resolve_left fun he => ?_
          have hnone : radixOf (byte '{') = none := by decide
          rw [← he, hnone] at hradix
          cases hradix
      rw [radixValue_brace ht]
    · exact hdecimal
  · exact hdecimal

end Brace

/-- A string with a brace is not a number. -/
theorem ofString_brace {s : JSString} (hs : (byte '{').toUInt16 ∈ s) : ofString s = nan := by
  have hspace : isSpace (byte '{').toUInt16 = false := by decide
  have hkeep : ∀ l : JSString, (byte '{').toUInt16 ∈ l →
      (byte '{').toUInt16 ∈ l.dropWhile isSpace := by
    intro l hl
    rw [← List.takeWhile_append_dropWhile (p := isSpace) (l := l)] at hl
    rcases List.mem_append.mp hl with h | h
    · have hp := List.mem_takeWhile_imp h
      rw [hspace] at hp
      cases hp
    · exact h
  have hmem : (byte '{').toUInt16 ∈ (s.dropWhile isSpace).rdropWhile isSpace := by
    rw [List.rdropWhile, List.mem_reverse]
    exact hkeep _ (List.mem_reverse.mpr (hkeep s hs))
  rw [ofString]
  simp only [List.ne_nil_of_mem hmem, if_false]
  split_ifs with hall
  · exact ofLiteral_brace (List.mem_map.mpr ⟨_, hmem, by decide⟩)
  · rfl

/-! ## Natural numbers -/

/-- An integer is its own nearest integer. -/
theorem roundEven_intCast (n : ℤ) : roundEven n = n := by
  simp [roundEven]

/-- The nearest integer is not below the integral part, and at most one above. -/
theorem roundEven_bounds (x : ℚ) : ⌊x⌋ ≤ roundEven x ∧ roundEven x ≤ ⌊x⌋ + 1 := by
  simp only [roundEven]
  split_ifs <;> omega

/-- The exponent of the last binary digit around a natural number. -/
theorem ulpExponent_natCast (n : ℕ) : ulpExponent (n : ℚ) = (Nat.log 2 n : ℤ) - 52 := by
  rw [ulpExponent, abs_of_nonneg (Nat.cast_nonneg n), Int.log_natCast]
  omega

/-- A double is a whole number when its last binary digit counts whole numbers, or when the
number has no more digits than a double. -/
theorem exists_roundEven {n : ℕ} (hpos : 0 < n) : ∃ m : ℕ, 0 < m ∧ m ≤ 2 * n ∧
    (roundEven ((n : ℚ) / 2 ^ ((Nat.log 2 n : ℤ) - 52)) : ℚ) *
      2 ^ ((Nat.log 2 n : ℤ) - 52) = m := by
  have hlog := Nat.pow_log_le_self 2 hpos.ne'
  rcases le_or_gt 52 (Nat.log 2 n) with h | h
  · obtain ⟨k, hk⟩ := Nat.exists_eq_add_of_le h
    have hz : (2 : ℚ) ^ ((Nat.log 2 n : ℤ) - 52) = ((2 ^ k : ℕ) : ℚ) := by
      have he : (Nat.log 2 n : ℤ) - 52 = k := by omega
      rw [he, zpow_natCast]
      push_cast
      rfl
    have hkn : 2 ^ k ≤ n := (Nat.pow_le_pow_right (by decide) (by omega)).trans hlog
    have hfloor : ⌊(n : ℚ) / ((2 ^ k : ℕ) : ℚ)⌋ = ((n / 2 ^ k : ℕ) : ℤ) := by
      rw [Rat.floor_natCast_div_natCast, Int.natCast_ediv]
    obtain ⟨hlo, hhi⟩ := roundEven_bounds ((n : ℚ) / ((2 ^ k : ℕ) : ℚ))
    rw [hfloor] at hlo hhi
    rw [hz]
    obtain ⟨m, hm⟩ := Int.eq_ofNat_of_zero_le (le_trans (Int.natCast_nonneg _) hlo)
    have hdiv : 0 < n / 2 ^ k := Nat.div_pos hkn (by positivity)
    have hmul := Nat.div_mul_le_self n (2 ^ k)
    rw [hm] at hlo hhi ⊢
    refine ⟨m * 2 ^ k, Nat.mul_pos (by omega) (by positivity), ?_, by push_cast; rfl⟩
    have hm' : m ≤ n / 2 ^ k + 1 := by omega
    calc m * 2 ^ k ≤ (n / 2 ^ k + 1) * 2 ^ k := Nat.mul_le_mul_right _ hm'
      _ = n / 2 ^ k * 2 ^ k + 2 ^ k := Nat.succ_mul _ _
      _ ≤ 2 * n := by omega
  · obtain ⟨k, hk⟩ := Nat.exists_eq_add_of_le h.le
    have hz : (2 : ℚ) ^ ((Nat.log 2 n : ℤ) - 52) = (2 ^ k)⁻¹ := by
      have he : (Nat.log 2 n : ℤ) - 52 = -(k : ℤ) := by omega
      rw [he, zpow_neg, zpow_natCast]
    have hx : (n : ℚ) / (2 ^ k)⁻¹ = ((n * 2 ^ k : ℤ) : ℚ) := by
      rw [div_inv_eq_mul]
      push_cast
      rfl
    refine ⟨n, hpos, by omega, ?_⟩
    rw [hz, hx, roundEven_intCast]
    push_cast
    exact mul_inv_cancel_right₀ (by positivity) _

/-- A positive natural number is rounded to a positive integer. -/
theorem round_natCast {n : ℕ} (hpos : 0 < n) (hlt : 2 * n < 2 ^ overflowExponent) :
    ∃ m : ℕ, 0 < m ∧ round (n : ℚ) = finite m := by
  obtain ⟨m, hm, hle, heq⟩ := exists_roundEven hpos
  refine ⟨m, hm, ?_⟩
  have hneg : ¬(n : ℚ) < 0 := not_lt.mpr (Nat.cast_nonneg n)
  have hbound : ¬(2 : ℚ) ^ overflowExponent ≤ m := by
    have hcast : (m : ℚ) < ((2 ^ overflowExponent : ℕ) : ℚ) := Nat.cast_lt.mpr (by omega)
    rw [Nat.cast_pow, Nat.cast_two] at hcast
    exact not_le.mpr hcast
  simp only [round, ulpExponent_natCast, abs_of_nonneg (Nat.cast_nonneg (α := ℚ) n), heq,
    if_neg hneg, if_neg hbound]

section Digits

variable {s : Str} {n : ℕ} (h : digitsValue s = some n)
include h

/-- A text of decimal digits is no longer without a byte that is none. -/
theorem head_of_digits {c : UInt8} (hc : c.toNat < 48 ∨ 57 < c.toNat) (t : Str) : s ≠ c :: t := by
  rintro rfl
  have := (digits_of_digitsValue h).2 c List.mem_cons_self
  omega

/-- Decimal digits have the value that they render. -/
theorem decimalValue_digits : decimalValue s = some (n : ℚ) := by
  obtain ⟨hne, hdigits⟩ := digits_of_digitsValue h
  have hall : ∀ p : UInt8 → Bool, (∀ c : UInt8, p c = false → c.toNat < 48 ∨ 57 < c.toNat) →
      s.takeWhile p = s ∧ s.dropWhile p = [] := by
    intro p hp
    have hs : ∀ c ∈ s, p c = true := by
      intro c hc
      by_contra hpc
      have := hdigits c hc
      have := hp c (Bool.eq_false_of_not_eq_true hpc)
      omega
    exact ⟨List.takeWhile_eq_self_iff.mpr hs, List.dropWhile_eq_nil_iff.mpr hs⟩
  obtain ⟨htake, hdrop⟩ := hall (fun c => !isExponent c) (by
    intro c hc
    simp only [isExponent, Bool.not_eq_false', Bool.or_eq_true, decide_eq_true_eq] at hc
    rcases hc with rfl | rfl <;> decide)
  obtain ⟨htake', hdrop'⟩ := hall (· != byte '.') (by
    intro c hc
    simp only [bne_eq_false_iff_eq] at hc
    rw [hc]
    decide)
  simp [decimalValue, htake, hdrop, htake', hdrop', hne, optionalDigits, h]

/-- Decimal digits are a literal of their value. -/
theorem ofLiteral_digits : ofLiteral s = round n := by
  have hsign : splitSign s = (false, s) := by
    cases s with
    | nil => rfl
    | cons c t =>
      have hminus : c ≠ byte '-' := fun he => head_of_digits h (c := c) (by rw [he]; decide) t rfl
      have hplus : c ≠ byte '+' := fun he => head_of_digits h (c := c) (by rw [he]; decide) t rfl
      rw [splitSign, if_neg hminus, if_neg hplus]
  have hname : s ≠ ascii "Infinity" := head_of_digits h (by decide) _
  have hdecimal : ofDecimal s = round n := by
    simp only [ofDecimal, hsign, if_neg hname, decimalValue_digits h]
    rfl
  unfold ofLiteral
  split
  · rename_i a b t
    have hb := (digits_of_digitsValue h).2 b (by simp)
    have hnone : radixOf b = none := by
      have hno : ∀ d : UInt8, 57 < d.toNat → b ≠ d := by
        rintro d hd rfl
        omega
      simp [radixOf, hno _ (show 57 < (byte 'x').toNat by decide),
        hno _ (show 57 < (byte 'X').toNat by decide), hno _ (show 57 < (byte 'o').toNat by decide),
        hno _ (show 57 < (byte 'O').toNat by decide), hno _ (show 57 < (byte 'b').toNat by decide),
        hno _ (show 57 < (byte 'B').toNat by decide)]
    rw [hnone, ite_self]
    exact hdecimal
  · exact hdecimal

/-- A string of decimal digits is read as their double. -/
theorem ofString_digits : ofString (ofAscii s) = round n := by
  obtain ⟨hne, hdigits⟩ := digits_of_digitsValue h
  have hunit : ∀ u ∈ ofAscii s, isSpace u = false ∧ u < 0x80 := by
    intro u hu
    obtain ⟨c, hc, rfl⟩ := List.mem_map.mp hu
    have hall : ((List.range 10).all fun d =>
        !isSpace (UInt16.ofNat (48 + d)) && UInt16.ofNat (48 + d) < 0x80) = true := by decide
    have hcode := hdigits c hc
    have hd := List.all_eq_true.mp hall (c.toNat - 48) (List.mem_range.mpr (by omega))
    have he : UInt16.ofNat (48 + (c.toNat - 48)) = c.toUInt16 := by
      apply UInt16.toNat_inj.mp
      rw [UInt16.toNat_ofNat', UInt8.toNat_toUInt16]
      omega
    rw [he] at hd
    simpa using hd
  have hne' : ofAscii s ≠ [] := by simpa [ofAscii] using hne
  have hfront : (ofAscii s).dropWhile isSpace = ofAscii s := by
    rw [List.dropWhile_eq_self_iff]
    intro hlen
    simpa using (hunit _ (List.getElem_mem hlen)).1
  have hback : (ofAscii s).rdropWhile isSpace = ofAscii s := by
    rw [List.rdropWhile_eq_self_iff]
    intro hlast
    simpa using (hunit _ (List.getLast_mem hlast)).1
  have hbytes : (ofAscii s).map UInt16.toUInt8 = s := by
    rw [ofAscii, List.map_map]
    refine (List.map_congr_left fun c _ => ?_).trans (List.map_id s)
    exact UInt8.toUInt8_toUInt16 c
  have hascii : ((ofAscii s).all (· < 0x80)) = true := by
    rw [List.all_eq_true]
    exact fun u hu => decide_eq_true (hunit u hu).2
  rw [ofString]
  simp only [hfront, hback, if_neg hne', hascii, if_true, hbytes, ofLiteral_digits h]

end Digits

end Number

end Comax.Core
