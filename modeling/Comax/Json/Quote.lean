import Comax.Core.IpText
import Comax.Webhook.Signer

/-!
# JSON strings

How a string of a JSON text is read, and that what was written between quotes is read
back: the same bytes where they are UTF-8, and the replacement character for each byte
that is not.
-/

namespace Comax.Json

open Comax.Core Comax.Webhook

/-- The four digits of a `\u` escape, as a code unit. -/
def hexUnit : Str → Option (UInt16 × Str)
  | a :: b :: c :: d :: s =>
    if isHex a && isHex b && isHex c && isHex d then
      some (UInt16.ofNat (hexValue [a, b, c, d]), s)
    else none
  | _ => none

/-- An escaped low surrogate. -/
def lowUnit : Str → Option (UInt16 × Str)
  | a :: b :: s => if a = 0x5C ∧ b = byte 'u' then (hexUnit s).filter (isLow ·.1) else none
  | _ => none

/-- What stands after a backslash: the bytes it means, and the rest. -/
def escaped : Str → Option (Str × Str)
  | [] => none
  | c :: s =>
    if c = 0x22 ∨ c = 0x5C ∨ c = byte '/' then some ([c], s)
    else if c = byte 'b' then some ([0x08], s)
    else if c = byte 'f' then some ([0x0C], s)
    else if c = byte 'n' then some ([0x0A], s)
    else if c = byte 'r' then some ([0x0D], s)
    else if c = byte 't' then some ([0x09], s)
    else if c = byte 'u' then do
      let (u, s) ← hexUnit s
      match if isHigh u then lowUnit s else none with
      | some (v, s) => some (String.utf8EncodeChar (pairChar u v), s)
      | none => some (String.utf8EncodeChar (unitChar u), s)
    else none

/-- The encoding of the replacement character. -/
def replacementText : Str := [0xEF, 0xBF, 0xBD]

/-- One character of a string, and the rest. -/
def character (c : UInt8) (s : Str) : Option (Str × Str) :=
  if c = 0x5C then escaped s
  else if c < 0x20 then none
  else if c < 0x80 then some ([c], s)
  else
    match runeLength (c :: s) with
    | none => some (replacementText, s)
    | some n => some (c :: s.take (n - 1), s.drop (n - 1))

/-- The content of a string up to its closing quote, and the rest. -/
def content : ℕ → Str → Option (Str × Str)
  | 0, _ => none
  | _ + 1, [] => none
  | n + 1, c :: s =>
    if c = 0x22 then some ([], s)
    else do
      let (t, s) ← character c s
      let (u, s) ← content n s
      some (t ++ u, s)

/-- A text with the replacement character for each byte that is not UTF-8. The first `pending` bytes
belong to a character that is copied. -/
def coerceText (pending : ℕ) : Str → Str
  | [] => []
  | c :: s =>
    match pending with
    | n + 1 => c :: coerceText n s
    | 0 =>
      if c < 0x80 then c :: coerceText 0 s
      else
        match runeLength (c :: s) with
        | none => replacementText ++ coerceText 0 s
        | some n => c :: coerceText (n - 1) s

/-- See `coerceText`. -/
def coerced (s : Str) : Str := coerceText 0 s

/-- The bytes of a character are copied. -/
theorem coerceText_pending (n : ℕ) (s : Str) :
    coerceText n s = s.take n ++ coerceText 0 (s.drop n) := by
  induction n generalizing s with
  | zero => cases s <;> rfl
  | succ n ih =>
    cases s with
    | nil => rfl
    | cons c s =>
      rw [coerceText, ih]
      rfl

/-! ## What is written is read -/

/-- Two digits mean the byte that they were written for. -/
theorem hexUnit_byte (c : UInt8) (s : Str) :
    hexUnit (0x30 :: 0x30 :: nibble (c / 16) :: nibble (c % 16) :: s) =
      some (UInt16.ofNat c.toNat, s) := by
  obtain ⟨hhigh, hlow, hc⟩ := halves c
  have hdigit : ∀ {n : UInt8}, n < 16 → fromHex (nibble n) = some n := by
    intro n hn
    have hlt : n.toNat < 16 := UInt8.lt_iff_toNat_lt.mp hn
    have := fromHex_nibble hlt
    rwa [UInt8.ofNat_toNat] at this
  have hzero : fromHex 0x30 = some 0 := rfl
  have hvalue : hexValue [0x30, 0x30, nibble (c / 16), nibble (c % 16)] = c.toNat := by
    simp only [hexValue, List.foldl_cons, List.foldl_nil, hdigit hhigh, hdigit hlow, hzero,
      Option.getD_some]
    rw [hc]
    change (((0 * 16 + 0) * 16 + 0) * 16 + _) * 16 + _ = _
    omega
  rw [hexUnit, hvalue, if_pos]
  simp only [isHex, hdigit hhigh, hdigit hlow, hzero, Option.isSome_some, Bool.and_self]

/-- An ASCII code unit is the character it encodes. -/
theorem utf8_unitChar {c : UInt8} (hc : c < 0x80) :
    isHigh (UInt16.ofNat c.toNat) = false ∧
      String.utf8EncodeChar (unitChar (UInt16.ofNat c.toNat)) = [c] := by
  have hall : ((List.range 128).all fun n => !isHigh (UInt16.ofNat n) &&
      String.utf8EncodeChar (unitChar (UInt16.ofNat n)) == [UInt8.ofNat n]) = true := by
    decide +kernel
  have hn := List.all_eq_true.mp hall c.toNat (List.mem_range.mpr (UInt8.lt_iff_toNat_lt.mp hc))
  rw [UInt8.ofNat_toNat, Bool.and_eq_true, Bool.not_eq_true', beq_iff_eq] at hn
  exact hn

/-- An escaped ASCII character is read back. -/
theorem character_escapeByte {c : UInt8} (hc : c < 0x80) :
    ∃ d t, escapeByte c = d :: t ∧ d ≠ 0x22 ∧ ∀ s, character d (t ++ s) = some ([c], s) := by
  unfold escapeByte
  simp only [Bool.or_eq_true, decide_eq_true_eq]
  split_ifs with h1 h2 h3 h4 h5 h6 h7
  · refine ⟨_, _, rfl, by decide, fun s => ?_⟩
    rcases h1 with rfl | rfl <;> rfl
  · exact ⟨_, _, rfl, by decide, fun s => by rw [h2]; rfl⟩
  · exact ⟨_, _, rfl, by decide, fun s => by rw [h3]; rfl⟩
  · exact ⟨_, _, rfl, by decide, fun s => by rw [h4]; rfl⟩
  · exact ⟨_, _, rfl, by decide, fun s => by rw [h5]; rfl⟩
  · exact ⟨_, _, rfl, by decide, fun s => by rw [h6]; rfl⟩
  · refine ⟨_, _, rfl, by decide, fun s => ?_⟩
    obtain ⟨hhigh, hchar⟩ := utf8_unitChar hc
    have hread : character 0x5C (byte 'u' :: 0x30 :: 0x30 :: nibble (c / 16) ::
        nibble (c % 16) :: s) = (hexUnit (0x30 :: 0x30 :: nibble (c / 16) ::
          nibble (c % 16) :: s)).bind fun r =>
        match if isHigh r.1 then lowUnit r.2 else none with
        | some (v, s) => some (String.utf8EncodeChar (pairChar r.1 v), s)
        | none => some (String.utf8EncodeChar (unitChar r.1), r.2) := rfl
    refine hread.trans ?_
    rw [hexUnit_byte, Option.bind_some]
    simp only [hhigh, Bool.false_eq_true, if_false, hchar]
  · push Not at h1 h7
    refine ⟨c, [], rfl, h1.1, fun s => ?_⟩
    rw [character, if_neg h1.2, if_neg h7.1.1.1, if_pos hc]
    rfl

/-- A character is taken for one. -/
theorem runeLength_append {c : Char} (hc : 0x80 ≤ c.toNat) (s : Str) :
    runeLength (String.utf8EncodeChar c ++ s) = some (String.utf8EncodeChar c).length := by
  have hvalid : c.toNat < 0xD800 ∨ 0xDFFF < c.toNat ∧ c.toNat < 0x110000 := c.valid
  rw [← Char.ofNat_toNat c]
  generalize c.toNat = v at hc hvalid
  by_cases h2 : v < 0x800
  · rw [encode_two hc h2]
    simp only [List.cons_append, List.nil_append, runeLength]
    rw [if_pos]
    · rfl
    · simp only [Bool.and_eq_true, decide_eq_true_eq, UInt8.le_iff_toNat_le, UInt8.toNat_ofNat',
        UInt8.reduceToNat]
      omega
  · by_cases h3 : v < 0x10000
    · rw [encode_three (by omega) (by omega)]
      simp only [List.cons_append, List.nil_append, runeLength, Bool.and_eq_true,
        decide_eq_true_eq, UInt8.le_iff_toNat_le, toNat_ite, UInt8.toNat_ofNat',
        UInt8.reduceToNat]
      rw [if_neg (by omega), if_pos]
      · rfl
      · split_ifs <;> omega
    · rw [encode_four (by omega) (by omega)]
      simp only [List.cons_append, List.nil_append, runeLength, Bool.and_eq_true,
        decide_eq_true_eq, UInt8.le_iff_toNat_le, toNat_ite, UInt8.toNat_ofNat',
        UInt8.reduceToNat]
      rw [if_neg (by omega), if_neg (by omega), if_pos]
      · rfl
      · split_ifs <;> omega

/-- What is taken for a character is taken for it whatever follows. -/
theorem runeLength_take {c : UInt8} {s : Str} {k : ℕ} (hc : ¬c < 0x80)
    (h : runeLength (c :: s) = some k) :
    (s.take (k - 1)).length = k - 1 ∧
      ∀ t, runeLength (c :: (s.take (k - 1) ++ t)) = some k := by
  obtain ⟨d, rest, hs, hk⟩ := runeLength_spec h
  obtain ⟨b, bs, hd, -⟩ := utf8EncodeChar_shape d
  have hlength : (String.utf8EncodeChar d).length = bs.length + 1 := by rw [hd, List.length_cons]
  rw [hd, List.cons_append] at hs
  obtain ⟨rfl, rfl⟩ := List.cons.inj hs
  have htake : (bs ++ rest).take (k - 1) = bs := List.take_left' (by omega)
  have hbig : 0x80 ≤ d.toNat := by
    by_contra hlt
    rw [utf8EncodeChar_of_lt (Nat.lt_of_not_le hlt)] at hd
    refine hc ?_
    rw [← (List.cons.inj hd).1, UInt8.lt_iff_toNat_lt]
    exact (UInt32.toNat_toUInt8 d.val).trans_lt (by
      have : d.val.toNat = d.toNat := rfl
      change _ < 128
      omega)
  rw [htake]
  refine ⟨by omega, fun t => ?_⟩
  rw [← List.cons_append, ← hd, runeLength_append hbig, hk]

/-- The bytes of a character of three bytes. -/
theorem take_separator {c x y z : UInt8} {s : Str} {k : ℕ} (h : (c :: s).take 3 = [x, y, z])
    (hthree : ∀ t, runeLength (x :: y :: z :: t) = some 3) (hk : runeLength (c :: s) = some k) :
    c :: s.take (k - 1) = [x, y, z] := by
  have hs : [x, y, z] ++ (c :: s).drop 3 = c :: s := by
    rw [← h, List.take_append_drop]
  rw [← hs] at hk
  cases (hthree _).symm.trans hk
  exact h

/-- The content of a written string is read back, with replacement characters for what is not
UTF-8. -/
theorem content_escapeText (s rest : Str) {n : ℕ} (hn : (escapeText 0 true s).length < n) :
    content n (escapeText 0 true s ++ 0x22 :: rest) = some (coerced s, rest) := by
  -- One character is read; the rest is shorter.
  have hstep : ∀ {n : ℕ} {d : UInt8} {t u v : Str}, d ≠ 0x22 →
      character d (t ++ (u ++ 0x22 :: rest)) = some (v, u ++ 0x22 :: rest) →
      ∀ {w}, content n (u ++ 0x22 :: rest) = some (w, rest) →
      content (n + 1) (d :: (t ++ (u ++ 0x22 :: rest))) = some (v ++ w, rest) := by
    intro n d t u v hd hchar w hrest
    rw [content, if_neg hd, hchar]
    simp only [Option.bind_eq_bind, Option.bind_some, hrest]
  induction hlen : s.length using Nat.strong_induction_on generalizing s n with
  | _ m ih =>
    obtain ⟨n, rfl⟩ : ∃ k, n = k + 1 := ⟨n - 1, by omega⟩
    cases s with
    | nil => rfl
    | cons c s =>
      rw [List.length_cons] at hlen
      rw [coerced, coerceText]
      rw [escapeText] at hn ⊢
      by_cases hc : c < 0x80
      · simp only [hc, if_true] at hn ⊢
        obtain ⟨d, t, he, hd, hchar⟩ := character_escapeByte hc
        rw [he, List.cons_append, List.length_cons, List.length_append] at hn
        rw [he, List.cons_append, List.cons_append, List.append_assoc]
        exact hstep hd (hchar _) (ih s.length (by omega) s (by omega) rfl)
      · simp only [hc, if_false] at hn ⊢
        cases hrune : runeLength (c :: s) with
        | none =>
          simp only [hrune, List.length_append] at hn ⊢
          have hsix : (ascii "\\ufffd").length = 6 := rfl
          have hread : character 0x5C (ascii "ufffd" ++ (escapeText 0 true s ++ 0x22 :: rest)) =
              some (replacementText, escapeText 0 true s ++ 0x22 :: rest) := rfl
          rw [List.append_assoc]
          exact hstep (by decide) hread (ih s.length (by omega) s (by omega) rfl)
        | some k =>
          obtain ⟨hlength, hagain⟩ := runeLength_take hc hrune
          simp only [hrune, escapeText_pending (k - 1), coerceText_pending (k - 1),
            Bool.false_eq_true, if_false, if_true, List.nil_append] at hn ⊢
          have hdrop : (s.drop (k - 1)).length < m := by
            rw [List.length_drop]
            omega
          split_ifs at hn ⊢ with h1 h2
          · have hthree : c :: s.take (k - 1) = [0xE2, 0x80, 0xA8] :=
              take_separator h1 (fun _ => rfl) hrune
            rw [List.length_append] at hn
            have hsix : (ascii "\\u2028").length = 6 := rfl
            have hread : character 0x5C (ascii "u2028" ++
                (escapeText 0 true (s.drop (k - 1)) ++ 0x22 :: rest)) =
                some ([0xE2, 0x80, 0xA8], escapeText 0 true (s.drop (k - 1)) ++ 0x22 :: rest) := rfl
            rw [← List.cons_append, hthree, List.append_assoc]
            exact hstep (by decide) hread (ih _ hdrop (s.drop (k - 1)) (n := n) (by omega) rfl)
          · have hthree : c :: s.take (k - 1) = [0xE2, 0x80, 0xA9] :=
              take_separator h2 (fun _ => rfl) hrune
            rw [List.length_append] at hn
            have hsix : (ascii "\\u2029").length = 6 := rfl
            have hread : character 0x5C (ascii "u2029" ++
                (escapeText 0 true (s.drop (k - 1)) ++ 0x22 :: rest)) =
                some ([0xE2, 0x80, 0xA9], escapeText 0 true (s.drop (k - 1)) ++ 0x22 :: rest) := rfl
            rw [← List.cons_append, hthree, List.append_assoc]
            exact hstep (by decide) hread (ih _ hdrop (s.drop (k - 1)) (n := n) (by omega) rfl)
          · rw [List.cons_append, List.append_assoc]
            rw [List.length_cons, List.length_append] at hn
            have hread : character c (s.take (k - 1) ++
                (escapeText 0 true (s.drop (k - 1)) ++ 0x22 :: rest)) =
                some (c :: s.take (k - 1), escapeText 0 true (s.drop (k - 1)) ++ 0x22 :: rest) := by
              rw [character, if_neg ?_, if_neg ?_, if_neg hc, hagain]
              · simp only [List.take_left' hlength, List.drop_left' hlength]
              · exact fun h => hc (UInt8.lt_trans h (by decide : (0x20 : UInt8) < 0x80))
              · intro hslash
                rw [hslash] at hc
                exact hc (by decide)
            have hopen : c ≠ 0x22 := by
              intro hquote
              rw [hquote] at hc
              exact hc (by decide)
            exact hstep hopen hread (ih _ hdrop (s.drop (k - 1)) (n := n) (by omega) rfl)

/-! ## What is UTF-8 -/

/-- What is not UTF-8 is replaced by what is. -/
theorem isUtf8_coerced (s : Str) : IsUtf8 (coerced s) := by
  induction hlen : s.length using Nat.strong_induction_on generalizing s with
  | _ n ih =>
    cases s with
    | nil => exact ⟨[], rfl⟩
    | cons c s =>
      rw [List.length_cons] at hlen
      have hrest := ih s.length (by omega) s rfl
      rw [coerced, coerceText]
      by_cases hc : c < 0x80
      · have hone : IsUtf8 [c] := isUtf8_ascii fun d hd => by rwa [List.mem_singleton.mp hd]
        rw [if_pos hc]
        exact hone.append hrest
      · rw [if_neg hc]
        cases hrune : runeLength (c :: s) with
        | none =>
          have hreplaced : IsUtf8 replacementText := ⟨[replacement], by decide⟩
          exact hreplaced.append hrest
        | some k =>
          obtain ⟨d, hd⟩ := exists_rune hrune
          have hchar : IsUtf8 (String.utf8EncodeChar d) := ⟨[d], by simp [utf8]⟩
          have hdrop := ih (s.drop (k - 1)).length (by rw [List.length_drop]; omega) _ rfl
          simp only [coerceText_pending (k - 1)]
          rw [← List.cons_append, hd]
          exact hchar.append hdrop

/-- A text stays as it is exactly if it is UTF-8. -/
theorem coerced_eq_self_iff {s : Str} : coerced s = s ↔ IsUtf8 s := by
  refine ⟨fun h => h ▸ isUtf8_coerced s, ?_⟩
  rintro ⟨cs, rfl⟩
  induction cs with
  | nil => rfl
  | cons c cs ih =>
    rw [utf8, List.flatMap_cons, ← utf8]
    by_cases hascii : c.toNat < 0x80
    · have hlt : c.toUInt8 < 0x80 := by
        rw [UInt8.lt_iff_toNat_lt]
        refine (UInt32.toNat_toUInt8 c.val).trans_lt ?_
        have hval : c.val.toNat = c.toNat := rfl
        change _ < 128
        omega
      rw [utf8EncodeChar_of_lt hascii, List.singleton_append, coerced, coerceText, if_pos hlt,
        ← coerced, ih]
    · obtain ⟨b, bs, hc, -⟩ := utf8EncodeChar_shape c
      have hrune := runeLength_append (not_lt.mp hascii) (utf8 cs)
      have hb := le_of_mem_utf8EncodeChar (not_lt.mp hascii) b (hc ▸ List.mem_cons_self)
      rw [hc, List.cons_append] at hrune ⊢
      rw [coerced, coerceText, if_neg (UInt8.not_lt.mpr hb), hrune]
      simp only [List.length_cons, Nat.add_sub_cancel, coerceText_pending bs.length,
        List.take_left, List.drop_left]
      rw [← coerced, ih]

end Comax.Json
