import Comax.Core.Utf8

/-!
# UTF-16

A JavaScript string is a sequence of code units. A surrogate without its partner is read
as the replacement character, so an encoded string determines it up to such units.
-/

namespace Comax.Core

/-- A sequence of UTF-16 code units. -/
abbrev JSString := List UInt16

/-- A leading surrogate. -/
def isHigh (u : UInt16) : Bool := 0xD800 ≤ u && u < 0xDC00

/-- A trailing surrogate. -/
def isLow (u : UInt16) : Bool := 0xDC00 ≤ u && u < 0xE000

/-- U+FFFD, which stands for what is no character. -/
def replacement : Char := Char.ofNat 0xFFFD

/-- The character of two surrogates. -/
def pairChar (u v : UInt16) : Char :=
  Char.ofNat (0x10000 + (u.toNat - 0xD800) * 0x400 + (v.toNat - 0xDC00))

/-- The character of a unit of its own. -/
def unitChar (u : UInt16) : Char := if isHigh u || isLow u then replacement else Char.ofNat u.toNat

/-- The characters of a string. -/
def scalars : JSString → List Char
  | [] => []
  | [u] => [unitChar u]
  | u :: v :: rest =>
    if isHigh u && isLow v then pairChar u v :: scalars rest else unitChar u :: scalars (v :: rest)

/-- The code units of a character. -/
def units (c : Char) : JSString :=
  if c.toNat < 0x10000 then [UInt16.ofNat c.toNat]
  else [UInt16.ofNat (0xD800 + (c.toNat - 0x10000) / 0x400),
    UInt16.ofNat (0xDC00 + (c.toNat - 0x10000) % 0x400)]

/-- The string of some characters. -/
def utf16 (s : List Char) : JSString := s.flatMap units

/-- `TextEncoder.encode` -/
def encodeUtf8 (s : JSString) : Str := utf8 (scalars s)

/-- `String.prototype.toWellFormed` -/
def toWellFormed (s : JSString) : JSString := utf16 (scalars s)

/-- A byte string of ASCII characters as a string. -/
def ofAscii (s : Str) : JSString := s.map UInt8.toUInt16

/-- The code of a unit is below 2 ^ 16. -/
theorem isHigh_iff {u : UInt16} : isHigh u = true ↔ 0xD800 ≤ u.toNat ∧ u.toNat < 0xDC00 := by
  have hlo : (0xD800 : UInt16).toNat = 0xD800 := rfl
  have hhi : (0xDC00 : UInt16).toNat = 0xDC00 := rfl
  simp only [isHigh, Bool.and_eq_true, decide_eq_true_eq, UInt16.le_iff_toNat_le,
    UInt16.lt_iff_toNat_lt, hlo, hhi]

/-- The codes of the trailing surrogates. -/
theorem isLow_iff {u : UInt16} : isLow u = true ↔ 0xDC00 ≤ u.toNat ∧ u.toNat < 0xE000 := by
  have hlo : (0xDC00 : UInt16).toNat = 0xDC00 := rfl
  have hhi : (0xE000 : UInt16).toNat = 0xE000 := rfl
  simp only [isLow, Bool.and_eq_true, decide_eq_true_eq, UInt16.le_iff_toNat_le,
    UInt16.lt_iff_toNat_lt, hlo, hhi]

/-- A unit that no trailing surrogate completes is read on its own. -/
theorem scalars_cons {u : UInt16} {s : JSString}
    (h : isHigh u = false ∨ ∀ v ∈ s.head?, isLow v = false) :
    scalars (u :: s) = unitChar u :: scalars s := by
  cases s with
  | nil => rfl
  | cons v s =>
    have hpair : (isHigh u && isLow v) = false := by
      rw [Bool.and_eq_false_iff]
      exact h.imp id fun h => h v rfl
    rw [scalars, hpair]
    rfl

/-- The units of a character are read as the character. -/
theorem scalars_units (c : Char) (s : JSString) : scalars (units c ++ s) = c :: scalars s := by
  have hvalid : c.toNat < 0xD800 ∨ 0xDFFF < c.toNat ∧ c.toNat < 0x110000 := c.valid
  rw [units]
  split_ifs with hlt
  · have hu : (UInt16.ofNat c.toNat).toNat = c.toNat := by
      rw [UInt16.toNat_ofNat']
      omega
    have hhigh : isHigh (UInt16.ofNat c.toNat) = false := by
      rw [Bool.eq_false_iff, ne_eq, isHigh_iff, hu]
      omega
    have hlow : isLow (UInt16.ofNat c.toNat) = false := by
      rw [Bool.eq_false_iff, ne_eq, isLow_iff, hu]
      omega
    rw [List.singleton_append, scalars_cons (.inl hhigh), unitChar, hhigh, hlow, hu,
      Char.ofNat_toNat]
    rfl
  · set v := c.toNat - 0x10000 with hv
    have hhi : (UInt16.ofNat (0xD800 + v / 0x400)).toNat = 0xD800 + v / 0x400 := by
      rw [UInt16.toNat_ofNat']
      omega
    have hlo : (UInt16.ofNat (0xDC00 + v % 0x400)).toNat = 0xDC00 + v % 0x400 := by
      rw [UInt16.toNat_ofNat']
      omega
    have hhigh : isHigh (UInt16.ofNat (0xD800 + v / 0x400)) = true := by
      rw [isHigh_iff, hhi]
      omega
    have hlow : isLow (UInt16.ofNat (0xDC00 + v % 0x400)) = true := by
      rw [isLow_iff, hlo]
      omega
    have hpair : pairChar (UInt16.ofNat (0xD800 + v / 0x400)) (UInt16.ofNat (0xDC00 + v % 0x400)) =
        c := by
      have hn : 0x10000 + (0xD800 + v / 0x400 - 0xD800) * 0x400 +
          (0xDC00 + v % 0x400 - 0xDC00) = c.toNat := by omega
      rw [pairChar, hhi, hlo, hn, Char.ofNat_toNat]
    rw [List.cons_append, List.singleton_append, scalars, hhigh, hlow, hpair]
    rfl

/-- A string of characters is read back. -/
theorem scalars_utf16 (s : List Char) : scalars (utf16 s) = s := by
  induction s with
  | nil => rfl
  | cons c s ih => rw [utf16, List.flatMap_cons, scalars_units, ← utf16, ih]

/-- A unit that is no surrogate splits a string. -/
theorem scalars_append {u : UInt16} (hhigh : isHigh u = false) (hlow : isLow u = false)
    (s t : JSString) : scalars (s ++ u :: t) = scalars s ++ unitChar u :: scalars t := by
  fun_induction scalars s with
  | case1 => exact scalars_cons (.inl hhigh)
  | case2 v =>
    have hnext : ∀ w ∈ (u :: t).head?, isLow w = false := by
      intro w hw
      cases hw
      exact hlow
    rw [List.singleton_append, scalars_cons (.inr hnext), scalars_cons (.inl hhigh)]
    rfl
  | case3 v w rest hpair ih =>
    rw [List.cons_append, List.cons_append, scalars, if_pos hpair, ih]
    rfl
  | case4 v w rest hpair ih =>
    rw [List.cons_append, List.cons_append, scalars, if_neg hpair, ← List.cons_append, ih]
    rfl

/-- The code of a character made from a code. -/
theorem toNat_ofNat {n : ℕ} (h : n < 0xD800 ∨ 0xDFFF < n ∧ n < 0x110000) :
    (Char.ofNat n).toNat = n := by
  rw [Char.ofNat, dif_pos h]
  rfl

/-- A unit that reads as an ASCII character is its code. -/
theorem toNat_of_unitChar {u : UInt16} {c : UInt8} (hc : c < 0x80)
    (h : unitChar u = Char.ofNat c.toNat) : u = c.toUInt16 := by
  have hlt : c.toNat < 0x80 := UInt8.lt_iff_toNat_lt.mp hc
  have hn := congrArg Char.toNat h
  rw [toNat_ofNat (.inl (by omega)), unitChar] at hn
  split_ifs at hn with hs
  · rw [replacement, toNat_ofNat (.inr (by omega))] at hn
    omega
  · rw [Bool.or_eq_true, isHigh_iff, isLow_iff] at hs
    have hu := u.toNat_lt
    rw [toNat_ofNat (by omega)] at hn
    apply UInt16.toNat_inj.mp
    rw [hn, UInt8.toNat_toUInt16]

/-- An ASCII character of a string is one of its units. -/
theorem mem_of_mem_scalars {s : JSString} {c : UInt8} (hc : c < 0x80)
    (h : Char.ofNat c.toNat ∈ scalars s) : c.toUInt16 ∈ s := by
  have hlt : c.toNat < 0x80 := UInt8.lt_iff_toNat_lt.mp hc
  fun_induction scalars s with
  | case1 => cases h
  | case2 u =>
    rw [toNat_of_unitChar hc (List.mem_singleton.mp h).symm]
    exact List.mem_cons_self
  | case3 u v rest hpair ih =>
    rcases List.mem_cons.mp h with h | h
    · rw [Bool.and_eq_true, isHigh_iff, isLow_iff] at hpair
      have hn := congrArg Char.toNat h
      rw [pairChar, toNat_ofNat (.inl (by omega)), toNat_ofNat (by omega)] at hn
      omega
    · exact List.mem_cons_of_mem _ (List.mem_cons_of_mem _ (ih h))
  | case4 u v rest hpair ih =>
    rcases List.mem_cons.mp h with h | h
    · rw [toNat_of_unitChar hc h.symm]
      exact List.mem_cons_self
    · exact List.mem_cons_of_mem _ (ih h)

/-- The units of the character of two surrogates. -/
theorem units_pairChar {u v : UInt16} (hhigh : isHigh u = true) (hlow : isLow v = true) :
    units (pairChar u v) = [u, v] := by
  rw [isHigh_iff] at hhigh
  rw [isLow_iff] at hlow
  have hn : (pairChar u v).toNat =
      0x10000 + (u.toNat - 0xD800) * 0x400 + (v.toNat - 0xDC00) := toNat_ofNat (.inr (by omega))
  have hu : UInt16.ofNat (0xD800 + ((pairChar u v).toNat - 0x10000) / 0x400) = u := by
    apply UInt16.toNat_inj.mp
    rw [UInt16.toNat_ofNat']
    omega
  have hv : UInt16.ofNat (0xDC00 + ((pairChar u v).toNat - 0x10000) % 0x400) = v := by
    apply UInt16.toNat_inj.mp
    rw [UInt16.toNat_ofNat']
    omega
  rw [units, if_neg (by omega), hu, hv]

/-- The units of the character of a unit of its own, which is no lone surrogate when they are not
the replacement. -/
theorem units_unitChar {u : UInt16} (h : 0xFFFD ∉ units (unitChar u)) :
    units (unitChar u) = [u] := by
  have hreplacement : 0xFFFD ∈ units replacement := by decide
  have hu := u.toNat_lt
  rw [unitChar] at h ⊢
  split_ifs at h ⊢ with hs
  · exact absurd hreplacement h
  · rw [Bool.or_eq_true, isHigh_iff, isLow_iff] at hs
    rw [units, toNat_ofNat (by omega), if_pos (by omega), UInt16.ofNat_toNat]

/-- A string is what it is made to when that has no replacement. -/
theorem toWellFormed_eq_self {s : JSString} (h : 0xFFFD ∉ toWellFormed s) : toWellFormed s = s := by
  have hcons : ∀ (c : Char) (t : List Char), utf16 (c :: t) = units c ++ utf16 t :=
    fun _ _ => List.flatMap_cons
  rw [toWellFormed] at h ⊢
  fun_induction scalars s with
  | case1 => rfl
  | case2 u =>
    have hnil : utf16 [] = [] := rfl
    rw [hcons, hnil, List.append_nil] at h ⊢
    exact units_unitChar h
  | case3 u v rest hpair ih =>
    rw [Bool.and_eq_true] at hpair
    rw [hcons, List.mem_append, not_or] at h
    rw [hcons, units_pairChar hpair.1 hpair.2, ih h.2]
    rfl
  | case4 u v rest hpair ih =>
    rw [hcons, List.mem_append, not_or] at h
    rw [hcons, units_unitChar h.1, ih h.2]
    rfl

/-- A string that reads as ASCII characters consists of them. -/
theorem eq_of_scalars {s : JSString} {t : Str} (ht : ∀ c ∈ t, c < 0x80)
    (h : scalars s = t.map fun c => Char.ofNat c.toNat) : s = ofAscii t := by
  fun_induction scalars s generalizing t with
  | case1 =>
    rw [List.map_eq_nil_iff.mp h.symm]
    rfl
  | case2 u =>
    obtain ⟨c, t', rfl, hc, ht'⟩ := List.map_eq_cons_iff.mp h.symm
    rw [List.map_eq_nil_iff.mp ht', toNat_of_unitChar (ht c List.mem_cons_self) hc.symm]
    rfl
  | case3 u v rest hpair ih =>
    obtain ⟨c, t', rfl, hc, -⟩ := List.map_eq_cons_iff.mp h.symm
    have hlt : c.toNat < 0x80 := UInt8.lt_iff_toNat_lt.mp (ht c List.mem_cons_self)
    rw [Bool.and_eq_true, isHigh_iff, isLow_iff] at hpair
    have hn := congrArg Char.toNat hc
    rw [pairChar, toNat_ofNat (.inl (by omega)), toNat_ofNat (by omega)] at hn
    omega
  | case4 u v rest hpair ih =>
    obtain ⟨c, t', rfl, hc, ht'⟩ := List.map_eq_cons_iff.mp h.symm
    rw [toNat_of_unitChar (ht c List.mem_cons_self) hc.symm,
      ih (fun d hd => ht d (List.mem_cons_of_mem _ hd)) ht'.symm]
    rfl

/-- A string of ASCII characters is read as them. -/
theorem scalars_ofAscii {t : Str} (ht : ∀ c ∈ t, c < 0x80) :
    scalars (ofAscii t) = t.map fun c => Char.ofNat c.toNat := by
  induction t with
  | nil => rfl
  | cons c t ih =>
    have hlt : c.toNat < 0x80 := UInt8.lt_iff_toNat_lt.mp (ht c List.mem_cons_self)
    have hhigh : isHigh c.toUInt16 = false := by
      rw [Bool.eq_false_iff, ne_eq, isHigh_iff, UInt8.toNat_toUInt16]
      omega
    have hlow : isLow c.toUInt16 = false := by
      rw [Bool.eq_false_iff, ne_eq, isLow_iff, UInt8.toNat_toUInt16]
      omega
    rw [ofAscii, List.map_cons, scalars_cons (.inl hhigh), unitChar, hhigh, hlow,
      UInt8.toNat_toUInt16, ← ofAscii, ih fun d hd => ht d (List.mem_cons_of_mem _ hd)]
    rfl

/-- The encoding of ASCII characters is their bytes. -/
theorem utf8_ascii {t : Str} (ht : ∀ c ∈ t, c < 0x80) :
    utf8 (t.map fun c => Char.ofNat c.toNat) = t := by
  induction t with
  | nil => rfl
  | cons c t ih =>
    have hlt : c.toNat < 0x80 := UInt8.lt_iff_toNat_lt.mp (ht c List.mem_cons_self)
    have hn : (Char.ofNat c.toNat).toNat = c.toNat := toNat_ofNat (.inl (by omega))
    have hc : (Char.ofNat c.toNat).toUInt8 = c := by
      apply UInt8.toNat_inj.mp
      have hmod : ((Char.ofNat c.toNat).toUInt8).toNat = (Char.ofNat c.toNat).toNat % 256 :=
        UInt32.toNat_toUInt8 _
      omega
    rw [List.map_cons, utf8, List.flatMap_cons, utf8EncodeChar_of_lt (by omega), hc, ← utf8,
      ih fun d hd => ht d (List.mem_cons_of_mem _ hd)]
    rfl

/-- A string of ASCII characters is encoded as their bytes. -/
theorem encodeUtf8_ofAscii {t : Str} (ht : ∀ c ∈ t, c < 0x80) : encodeUtf8 (ofAscii t) = t := by
  rw [encodeUtf8, scalars_ofAscii ht, utf8_ascii ht]

end Comax.Core
