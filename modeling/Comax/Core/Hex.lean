import Comax.Core.Text

/-!
# Hexadecimal renderings

Two lower-case digits for each byte, so a rendering determines its bytes.
-/

namespace Comax

/-- The digit of a half byte. -/
def nibble (n : UInt8) : UInt8 := if n < 10 then byte '0' + n else byte 'a' + (n - 10)

/-- `hex.EncodeToString` -/
def hexEncode (s : Str) : Str := s.flatMap fun c => [nibble (c / 16), nibble (c % 16)]

/-- The digit of a half byte, as a number. -/
theorem toNat_nibble {n : UInt8} (h : n < 16) :
    (nibble n).toNat = if n.toNat < 10 then 48 + n.toNat else 87 + n.toNat := by
  have h0 : (byte '0').toNat = 48 := rfl
  have ha : (byte 'a').toNat = 97 := rfl
  have hten : (10 : UInt8).toNat = 10 := rfl
  have hlt : n.toNat < 16 := UInt8.lt_iff_toNat_lt.mp h
  rw [nibble]
  simp only [UInt8.lt_iff_toNat_lt, hten]
  split_ifs with hd
  · rw [UInt8.toNat_add, h0]
    omega
  · have hle : (10 : UInt8) ≤ n := UInt8.le_iff_toNat_le.mpr (by omega)
    rw [UInt8.toNat_add, UInt8.toNat_sub_of_le _ _ hle, ha, hten]
    omega

/-- Distinct half bytes have distinct digits. -/
theorem nibble_injective {a b : UInt8} (ha : a < 16) (hb : b < 16) (h : nibble a = nibble b) :
    a = b := by
  have hn := congrArg UInt8.toNat h
  rw [toNat_nibble ha, toNat_nibble hb] at hn
  apply UInt8.toNat_inj.mp
  split_ifs at hn <;> omega

/-- The halves of a byte. -/
theorem halves (c : UInt8) :
    c / 16 < 16 ∧ c % 16 < 16 ∧ c.toNat = 16 * (c / 16).toNat + (c % 16).toNat := by
  have h16 : (16 : UInt8).toNat = 16 := rfl
  have hc := c.toNat_lt
  simp only [UInt8.lt_iff_toNat_lt, UInt8.toNat_div, UInt8.toNat_mod, h16]
  omega

/-- Distinct texts have distinct renderings. -/
theorem hexEncode_injective : Function.Injective hexEncode := by
  intro s
  induction s with
  | nil =>
    intro t h
    cases t with
    | nil => rfl
    | cons d t => cases h
  | cons c s ih =>
    intro t h
    cases t with
    | nil => cases h
    | cons d t =>
      simp only [hexEncode, List.flatMap_cons, List.cons_append, List.nil_append,
        List.cons.injEq] at h
      obtain ⟨hhigh, hlow, hrest⟩ := h
      obtain ⟨hc, hc', hcs⟩ := halves c
      obtain ⟨hd, hd', hds⟩ := halves d
      have hcd : c = d := by
        apply UInt8.toNat_inj.mp
        rw [hcs, hds, nibble_injective hc hd hhigh, nibble_injective hc' hd' hlow]
      rw [hcd, ih hrest]

/-- A digit is a printable character. -/
theorem le_of_mem_hexEncode {s : Str} {d : UInt8} (h : d ∈ hexEncode s) : byte '0' ≤ d := by
  obtain ⟨c, -, hd⟩ := List.mem_flatMap.mp h
  have h0 : (byte '0').toNat = 48 := rfl
  obtain ⟨hhigh, hlow, -⟩ := halves c
  rw [UInt8.le_iff_toNat_le, h0]
  rcases List.mem_pair.mp hd with rfl | rfl
  · rw [toNat_nibble hhigh]
    split_ifs <;> omega
  · rw [toNat_nibble hlow]
    split_ifs <;> omega

/-- A digit is ASCII. -/
theorem hexEncode_ascii {s : Str} : ∀ d ∈ hexEncode s, d < 0x80 := by
  intro d h
  obtain ⟨c, -, hd⟩ := List.mem_flatMap.mp h
  have h128 : (0x80 : UInt8).toNat = 128 := rfl
  obtain ⟨hhigh, hlow, -⟩ := halves c
  have h16 : (16 : UInt8).toNat = 16 := rfl
  rw [UInt8.lt_iff_toNat_lt, h16] at hhigh hlow
  rw [UInt8.lt_iff_toNat_lt, h128]
  rcases List.mem_pair.mp hd with rfl | rfl
  · rw [toNat_nibble (UInt8.lt_iff_toNat_lt.mpr hhigh)]
    split_ifs <;> omega
  · rw [toNat_nibble (UInt8.lt_iff_toNat_lt.mpr hlow)]
    split_ifs <;> omega

end Comax
