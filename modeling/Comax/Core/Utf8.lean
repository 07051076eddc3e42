import Comax.Core.Text

/-!
# UTF-8

A character is a lead byte and the continuation bytes after it, so the last character of an
encoded text can be read off its end.
-/

namespace Comax.Core

/-- The UTF-8 encoding of a text. -/
def utf8 (s : List Char) : Str := s.flatMap String.utf8EncodeChar

/-- A byte inside of a character. -/
def isContinuation (c : UInt8) : Bool := 0x80 ≤ c && c < 0xC0

@[simp] theorem utf8_append (s t : List Char) : utf8 (s ++ t) = utf8 s ++ utf8 t :=
  List.flatMap_append

/-- An ASCII character is one byte. -/
theorem utf8EncodeChar_of_lt {c : Char} (h : c.toNat < 0x80) :
    String.utf8EncodeChar c = [c.toUInt8] := by
  have hle : c.val.toNat ≤ 0x7f := Nat.le_of_lt_succ h
  rw [String.utf8EncodeChar, if_pos hle]
  rfl

/-- A character is a lead byte and continuation bytes. -/
theorem utf8EncodeChar_shape (c : Char) :
    ∃ b bs, String.utf8EncodeChar c = b :: bs ∧ isContinuation b = false ∧
      ∀ d ∈ bs, isContinuation d = true := by
  have hlead : ∀ n : ℕ, n < 0x80 ∨ 0xC0 ≤ n ∧ n < 0x100 →
      isContinuation (UInt8.ofNat n) = false := by
    intro n hn
    have h80 : (0x80 : UInt8).toNat = 128 := rfl
    have hC0 : (0xC0 : UInt8).toNat = 192 := rfl
    simp only [isContinuation, Bool.and_eq_false_iff, decide_eq_false_iff_not,
      UInt8.le_iff_toNat_le, UInt8.lt_iff_toNat_lt, UInt8.toNat_ofNat', h80, hC0]
    omega
  have hcont : ∀ n : ℕ, isContinuation (UInt8.ofNat (n % 0x40 + 0x80)) = true := by
    intro n
    have h80 : (0x80 : UInt8).toNat = 128 := rfl
    have hC0 : (0xC0 : UInt8).toNat = 192 := rfl
    simp only [isContinuation, Bool.and_eq_true, decide_eq_true_eq, UInt8.le_iff_toNat_le,
      UInt8.lt_iff_toNat_lt, UInt8.toNat_ofNat', h80, hC0]
    omega
  unfold String.utf8EncodeChar
  dsimp only
  split_ifs with h1 h2 h3
  · exact ⟨_, _, rfl, hlead _ (.inl (by omega)), by simp⟩
  · exact ⟨_, _, rfl, hlead _ (.inr (by omega)), by
      simp only [List.forall_mem_cons, hcont, List.not_mem_nil, false_imp_iff, implies_true,
        and_self]⟩
  · exact ⟨_, _, rfl, hlead _ (.inr (by omega)), by
      simp only [List.forall_mem_cons, hcont, List.not_mem_nil, false_imp_iff, implies_true,
        and_self]⟩
  · exact ⟨_, _, rfl, hlead _ (.inr (by omega)), by
      simp only [List.forall_mem_cons, hcont, List.not_mem_nil, false_imp_iff, implies_true,
        and_self]⟩

/-- Other characters have no ASCII byte. -/
theorem le_of_mem_utf8EncodeChar {c : Char} (h : 0x80 ≤ c.toNat) :
    ∀ b ∈ String.utf8EncodeChar c, 0x80 ≤ b := by
  have hbyte : ∀ n : ℕ, 0x80 ≤ n → n < 0x100 → (0x80 : UInt8) ≤ UInt8.ofNat n := by
    intro n hlo hhi
    have h80 : (0x80 : UInt8).toNat = 128 := rfl
    rw [UInt8.le_iff_toNat_le, UInt8.toNat_ofNat', h80]
    omega
  have hn : ¬c.val.toNat ≤ 0x7f := Nat.not_le.mpr h
  unfold String.utf8EncodeChar
  dsimp only
  rw [if_neg hn]
  intro b hb
  split_ifs at hb <;> simp only [List.mem_cons, List.not_mem_nil, or_false] at hb
  · rcases hb with rfl | rfl <;> exact hbyte _ (by omega) (by omega)
  · rcases hb with rfl | rfl | rfl <;> exact hbyte _ (by omega) (by omega)
  · rcases hb with rfl | rfl | rfl | rfl <;> exact hbyte _ (by omega) (by omega)

/-- An ASCII byte of a character is the character. -/
theorem toNat_of_mem_utf8EncodeChar {c : Char} {b : UInt8} (h : b ∈ String.utf8EncodeChar c)
    (hb : b < 0x80) : c.toNat = b.toNat := by
  by_cases hlt : c.toNat < 0x80
  · rw [utf8EncodeChar_of_lt hlt] at h
    have hbc : b.toNat = c.toNat % 256 := by
      rw [List.mem_singleton.mp h]
      exact UInt32.toNat_toUInt8 c.val
    omega
  · exact absurd hb (UInt8.not_lt.mpr (le_of_mem_utf8EncodeChar (not_lt.mp hlt) b h))

/-- An ASCII byte of an encoded text is one of its characters. -/
theorem mem_of_mem_utf8 {s : List Char} {b : UInt8} (h : b ∈ utf8 s) (hb : b < 0x80) :
    ∃ c ∈ s, c.toNat = b.toNat := by
  obtain ⟨c, hc, hbc⟩ := List.mem_flatMap.mp h
  exact ⟨c, hc, toNat_of_mem_utf8EncodeChar hbc hb⟩

/-- A character is determined by its encoding. -/
theorem utf8EncodeChar_injective : Function.Injective String.utf8EncodeChar := by
  intro c d h
  have hc := ByteArray.utf8DecodeChar?_utf8EncodeChar_append (b := .empty) (c := c)
  have hd := ByteArray.utf8DecodeChar?_utf8EncodeChar_append (b := .empty) (c := d)
  rw [h, hd] at hc
  exact (Option.some.inj hc).symm

/-- An encoded text ends in an encoded character exactly when the text ends in that character. -/
theorem utf8EncodeChar_suffix_iff {c : Char} {s : List Char} :
    String.utf8EncodeChar c <:+ utf8 s ↔ s.getLast? = some c := by
  have hlead : ∀ {x y : Char} {u : Str}, String.utf8EncodeChar x = u ++ String.utf8EncodeChar y →
      u = [] := by
    intro x y u he
    obtain ⟨b, bs, hx, -, hbs⟩ := utf8EncodeChar_shape x
    obtain ⟨d, ds, hy, hd, -⟩ := utf8EncodeChar_shape y
    cases u with
    | nil => rfl
    | cons e u =>
      rw [hx, hy, List.cons_append] at he
      have hmem : d ∈ bs := by
        rw [(List.cons.inj he).2]
        simp
      rw [hbs d hmem] at hd
      cases hd
  constructor
  · intro h
    rcases List.eq_nil_or_concat' s with rfl | ⟨s, d, rfl⟩
    · exact absurd (List.suffix_nil.mp h) (by
        obtain ⟨b, bs, hc, -⟩ := utf8EncodeChar_shape c
        simp [hc])
    · have hd : String.utf8EncodeChar d <:+ utf8 (s ++ [d]) := by
        rw [utf8_append]
        exact ⟨utf8 s, by simp [utf8]⟩
      have hcd : String.utf8EncodeChar c = String.utf8EncodeChar d := by
        rcases List.suffix_or_suffix_of_suffix h hd with ⟨u, hu⟩ | ⟨u, hu⟩
        · rw [hlead hu.symm, List.nil_append] at hu
          exact hu
        · rw [hlead hu.symm, List.nil_append] at hu
          exact hu.symm
      rw [List.getLast?_concat, utf8EncodeChar_injective hcd]
  · intro h
    obtain ⟨u, rfl⟩ := List.getLast?_eq_some_iff.mp h
    rw [utf8_append]
    exact ⟨utf8 u, by simp [utf8]⟩

/-- A text is determined by its encoding. -/
theorem utf8_injective : Function.Injective utf8 := by
  intro s
  induction s using List.reverseRecOn with
  | nil =>
    intro t h
    rcases List.eq_nil_or_concat' t with rfl | ⟨t, d, rfl⟩
    · rfl
    · obtain ⟨b, bs, hd, -⟩ := utf8EncodeChar_shape d
      rw [utf8_append] at h
      simp [utf8, hd] at h
  | append_singleton s c ih =>
    intro t h
    have hlast : t.getLast? = some c := by
      rw [← utf8EncodeChar_suffix_iff, ← h, utf8EncodeChar_suffix_iff, List.getLast?_concat]
    obtain ⟨u, rfl⟩ := List.getLast?_eq_some_iff.mp hlast
    rw [utf8_append, utf8_append] at h
    rw [ih (List.append_cancel_right h)]

end Comax.Core
