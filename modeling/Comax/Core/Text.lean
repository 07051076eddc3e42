import Mathlib.Data.List.Find
import Mathlib.Data.Nat.Digits.Lemmas

/-!
# Byte strings

A Go string is a sequence of bytes, so texts are lists of bytes throughout: an
offset is a byte offset, and a value that is not UTF-8 is a value like any other.
-/

namespace Comax

/-- A byte string. -/
abbrev Str := List UInt8

instance : LawfulBEq Str := inferInstance

/-- The bytes of an ASCII literal. -/
def ascii (s : String) : Str := s.toList.map Char.toUInt8

/-- The byte of an ASCII character. -/
abbrev byte (c : Char) : UInt8 := c.toUInt8

/-- A decimal digit. -/
def isDigit (c : UInt8) : Bool := byte '0' ≤ c && c ≤ byte '9'

/-- The codes of the digits and letters, by their first and last. -/
theorem alnum_codes : (byte '0').toNat = 48 ∧ (byte '9').toNat = 57 ∧ (byte 'a').toNat = 97 ∧
    (byte 'z').toNat = 122 ∧ (byte 'A').toNat = 65 ∧ (byte 'Z').toNat = 90 :=
  ⟨rfl, rfl, rfl, rfl, rfl, rfl⟩

/-- Decimal digits of a natural number, most significant first. -/
def formatNat (n : ℕ) : Str :=
  if n = 0 then [byte '0'] else (Nat.digits 10 n).reverse.map fun d => byte '0' + UInt8.ofNat d

/-- The `%d` rendering of an integer. -/
def formatInt : Int → Str
  | .ofNat n => formatNat n
  | .negSucc n => byte '-' :: formatNat (n + 1)

private theorem digit_injective {a b : ℕ} (ha : a < 10) (hb : b < 10)
    (h : byte '0' + UInt8.ofNat a = byte '0' + UInt8.ofNat b) : a = b := by
  have hn : (byte '0' + UInt8.ofNat a).toNat = (byte '0' + UInt8.ofNat b).toNat := by rw [h]
  have h0 : (byte '0').toNat = 48 := rfl
  simp only [UInt8.toNat_add, UInt8.toNat_ofNat', h0] at hn
  omega

private theorem map_digit_injective {xs ys : List ℕ} (hx : ∀ d ∈ xs, d < 10)
    (hy : ∀ d ∈ ys, d < 10)
    (h : xs.map (fun d => byte '0' + UInt8.ofNat d) = ys.map fun d => byte '0' + UInt8.ofNat d) :
    xs = ys := by
  induction xs generalizing ys with
  | nil => simpa using h.symm
  | cons x xs ih =>
    cases ys with
    | nil => simp at h
    | cons y ys =>
      simp only [List.map_cons, List.cons.injEq] at h
      have hxy := digit_injective (hx x (by simp)) (hy y (by simp)) h.1
      rw [hxy, ih (fun d hd => hx d (by simp [hd])) (fun d hd => hy d (by simp [hd])) h.2]

/-- A positive natural is rendered without a leading zero. -/
theorem head_formatNat {n : ℕ} (hn : n ≠ 0) : (formatNat n).head? ≠ some (byte '0') := by
  have hne : Nat.digits 10 n ≠ [] := Nat.digits_ne_nil_iff_ne_zero.mpr hn
  have hzero : byte '0' = byte '0' + UInt8.ofNat 0 := rfl
  rw [formatNat, if_neg hn, List.head?_map, List.head?_reverse, List.getLast?_eq_some_getLast hne,
    Option.map_some, hzero]
  intro h
  exact Nat.getLast_digit_ne_zero 10 hn (digit_injective
    (Nat.digits_lt_base (by decide) (List.getLast_mem hne)) (by decide) (Option.some.inj h))

/-- Distinct naturals have distinct renderings. -/
theorem formatNat_injective : Function.Injective formatNat := by
  have hzero : ∀ n : ℕ, n ≠ 0 → formatNat n ≠ [byte '0'] := by
    intro n hn he
    rw [formatNat, if_neg hn] at he
    have hd : (Nat.digits 10 n).reverse = [0] :=
      map_digit_injective (fun d hd => Nat.digits_lt_base (by decide)
        (List.mem_reverse.mp hd)) (by simp) (by simpa using he)
    have hl : Nat.digits 10 n = [0] := by simpa using congrArg List.reverse hd
    exact hn (by simpa [hl] using (Nat.ofDigits_digits 10 n).symm)
  intro a b h
  by_cases ha : a = 0 <;> by_cases hb : b = 0
  · omega
  · subst ha
    exact absurd (by simpa [formatNat] using h.symm) (hzero b hb)
  · subst hb
    exact absurd (by simpa [formatNat] using h) (hzero a ha)
  · rw [formatNat, formatNat, if_neg ha, if_neg hb] at h
    have hr := map_digit_injective
      (fun d hd => Nat.digits_lt_base (by decide) (List.mem_reverse.mp hd))
      (fun d hd => Nat.digits_lt_base (by decide) (List.mem_reverse.mp hd)) h
    exact Nat.digits_inj_iff.mp (List.reverse_injective hr)

/-- Distinct integers have distinct renderings. -/
theorem formatInt_injective : Function.Injective formatInt := by
  have hsign : ∀ n s, formatNat n ≠ byte '-' :: s := by
    intro n s h
    unfold formatNat at h
    split at h
    · cases h
    · have hmem : byte '-' ∈ (Nat.digits 10 n).reverse.map fun d => byte '0' + UInt8.ofNat d := by
        rw [h]
        exact List.mem_cons_self
      obtain ⟨d, hd, he⟩ := List.mem_map.mp hmem
      have hlt : d < 10 := Nat.digits_lt_base (by decide) (List.mem_reverse.mp hd)
      have hn := congrArg UInt8.toNat he
      have h0 : (byte '0').toNat = 48 := rfl
      have hm : (byte '-').toNat = 45 := rfl
      simp only [UInt8.toNat_add, UInt8.toNat_ofNat', h0, hm] at hn
      omega
  intro a b h
  cases a with
  | ofNat m =>
    cases b with
    | ofNat n => exact congrArg Int.ofNat (formatNat_injective h)
    | negSucc n => exact absurd h (hsign m _)
  | negSucc m =>
    cases b with
    | ofNat n => exact absurd h.symm (hsign n _)
    | negSucc n =>
      have hmn := formatNat_injective (List.cons.inj h).2
      rw [Nat.succ.inj hmn]

/-- The value of a text of decimal digits. -/
def digitsValue (s : Str) : Option ℕ :=
  if s ≠ [] && s.all fun c => byte '0' ≤ c && c ≤ byte '9' then
    some (s.foldl (fun n c => n * 10 + (c.toNat - 48)) 0)
  else none

/-- `strconv.ParseInt(s, 10, 64)` -/
def parseInt64 (s : Str) : Option Int :=
  let value : Option Int :=
    match s with
    | [] => none
    | c :: rest =>
      if c = byte '-' then (digitsValue rest).map fun n => -(n : Int)
      else if c = byte '+' then (digitsValue rest).map Int.ofNat
      else (digitsValue s).map Int.ofNat
  value.filter fun n => decide (-(2 : Int) ^ 63 ≤ n) && decide (n < (2 : Int) ^ 63)

/-- A decimal digit and its value. -/
theorem digit_value {d : ℕ} (h : d < 10) :
    (byte '0' + UInt8.ofNat d).toNat = 48 + d ∧
      (byte '0' ≤ byte '0' + UInt8.ofNat d && byte '0' + UInt8.ofNat d ≤ byte '9') = true := by
  have h0 : (byte '0').toNat = 48 := rfl
  have h9 : (byte '9').toNat = 57 := rfl
  have hd : (byte '0' + UInt8.ofNat d).toNat = 48 + d := by
    rw [UInt8.toNat_add, UInt8.toNat_ofNat', h0]
    omega
  refine ⟨hd, ?_⟩
  simp only [Bool.and_eq_true, decide_eq_true_eq, UInt8.le_iff_toNat_le, hd, h0, h9]
  omega

/-- A rendering has the value that it renders. -/
theorem digitsValue_formatNat (n : ℕ) : digitsValue (formatNat n) = some n := by
  have hfold : ∀ ds : List ℕ, (∀ d ∈ ds, d < 10) →
      (ds.reverse.map fun d => byte '0' + UInt8.ofNat d).foldl
        (fun n c => n * 10 + (c.toNat - 48)) 0 = Nat.ofDigits 10 ds := by
    intro ds hds
    rw [List.foldl_map, List.foldl_reverse]
    induction ds with
    | nil => rfl
    | cons d ds ih =>
      have hd := (digit_value (hds d List.mem_cons_self)).1
      rw [List.foldr_cons, ih fun e he => hds e (List.mem_cons_of_mem _ he), hd,
        Nat.ofDigits_cons]
      omega
  by_cases hn : n = 0
  · subst hn
    decide
  have hlt : ∀ d ∈ Nat.digits 10 n, d < 10 := fun d hd => Nat.digits_lt_base (by decide) hd
  have hne : (Nat.digits 10 n).reverse.map (fun d => byte '0' + UInt8.ofNat d) ≠ [] := by
    simpa [Nat.digits_eq_nil_iff_eq_zero] using hn
  have hall : ((Nat.digits 10 n).reverse.map fun d => byte '0' + UInt8.ofNat d).all
      (fun c => byte '0' ≤ c && c ≤ byte '9') = true := by
    rw [List.all_eq_true]
    intro c hc
    obtain ⟨d, hd, rfl⟩ := List.mem_map.mp hc
    exact (digit_value (hlt d (List.mem_reverse.mp hd))).2
  rw [formatNat, if_neg hn, digitsValue, hall, decide_eq_true hne]
  simp only [Bool.and_self, if_true, hfold _ hlt, Nat.ofDigits_digits]

/-- A text of decimal digits has only digits. -/
theorem digits_of_digitsValue {s : Str} {n : ℕ} (h : digitsValue s = some n) :
    s ≠ [] ∧ ∀ c ∈ s, 48 ≤ c.toNat ∧ c.toNat ≤ 57 := by
  rw [digitsValue] at h
  split_ifs at h with hs
  simp only [Bool.and_eq_true, decide_eq_true_eq, List.all_eq_true, UInt8.le_iff_toNat_le] at hs
  exact hs

/-- The rendering of an integer is ASCII. -/
theorem formatInt_ascii (n : Int) : ∀ c ∈ formatInt n, c < 0x80 := by
  have hnat : ∀ m : ℕ, ∀ c ∈ formatNat m, c < 0x80 := by
    intro m c hc
    have hdigit := (digits_of_digitsValue (digitsValue_formatNat m)).2 c hc
    have hlt : (0x80 : UInt8).toNat = 128 := rfl
    rw [UInt8.lt_iff_toNat_lt, hlt]
    omega
  cases n with
  | ofNat m => exact hnat m
  | negSucc m =>
    intro c hc
    rcases List.mem_cons.mp hc with rfl | hc
    · decide
    · exact hnat _ c hc

/-- The rendering of a positive 64-bit integer is read back. -/
theorem parseInt64_formatInt {n : Int} (hpos : 0 < n) (hlt : n < 2 ^ 63) :
    parseInt64 (formatInt n) = some n := by
  obtain ⟨m, rfl⟩ := Int.eq_ofNat_of_zero_le hpos.le
  have hvalue := digitsValue_formatNat m
  have hformat : formatInt (m : Int) = formatNat m := rfl
  rw [hformat]
  cases hs : formatNat m with
  | nil =>
    rw [hs] at hvalue
    cases hvalue
  | cons c s =>
    have hc : byte '0' ≤ c := by
      rw [hs, digitsValue] at hvalue
      split at hvalue
      · rename_i h
        simp only [List.all_cons, Bool.and_eq_true, decide_eq_true_eq] at h
        exact h.2.1.1
      · cases hvalue
    have hminus : c ≠ byte '-' := fun he => absurd (he ▸ hc) (by decide)
    have hplus : c ≠ byte '+' := fun he => absurd (he ▸ hc) (by decide)
    rw [parseInt64]
    simp only [if_neg hminus, if_neg hplus, ← hs, hvalue, Option.map_some]
    have hlow : -(2 : Int) ^ 63 ≤ Int.ofNat m := le_trans (by decide) (Int.natCast_nonneg m)
    exact Option.filter_some_pos (Bool.and_eq_true_iff.mpr
      ⟨decide_eq_true hlow, decide_eq_true hlt⟩)

/-- The encodings of the characters of `unicode.IsSpace`. -/
def spaces : List Str :=
  [[0x09], [0x0A], [0x0B], [0x0C], [0x0D], [0x20], [0xC2, 0x85], [0xC2, 0xA0], [0xE1, 0x9A, 0x80],
    [0xE2, 0x80, 0x80], [0xE2, 0x80, 0x81], [0xE2, 0x80, 0x82], [0xE2, 0x80, 0x83],
    [0xE2, 0x80, 0x84], [0xE2, 0x80, 0x85], [0xE2, 0x80, 0x86], [0xE2, 0x80, 0x87],
    [0xE2, 0x80, 0x88], [0xE2, 0x80, 0x89], [0xE2, 0x80, 0x8A], [0xE2, 0x80, 0xA8],
    [0xE2, 0x80, 0xA9], [0xE2, 0x80, 0xAF], [0xE2, 0x81, 0x9F], [0xE3, 0x80, 0x80]]

/-- Drop the given words from the front, at most `n` of them. -/
def dropWords (words : List Str) : ℕ → Str → Str
  | 0, s => s
  | n + 1, s =>
    match words.find? fun w => w.isPrefixOf s with
    | some w => dropWords words n (s.drop w.length)
    | none => s

/-- What remains is a suffix. -/
theorem dropWords_suffix (words : List Str) (n : ℕ) (s : Str) : dropWords words n s <:+ s := by
  induction n generalizing s with
  | zero => exact List.suffix_rfl
  | succ n ih =>
    rw [dropWords]
    split
    · exact (ih _).trans (List.drop_suffix _ _)
    · exact List.suffix_rfl

/-- Nothing is dropped from a text that starts with none of the words. -/
theorem dropWords_of_none {words : List Str} {s : Str} (h : ∀ w ∈ words, ¬w <+: s) (n : ℕ) :
    dropWords words n s = s := by
  cases n with
  | zero => rfl
  | succ n =>
    have hnone : words.find? (fun w => w.isPrefixOf s) = none := by
      simpa [List.find?_eq_none] using h
    rw [dropWords, hnone]

/-- A text that starts with one of the words gets shorter. -/
theorem dropWords_ne {words : List Str} (hne : [] ∉ words) {s w : Str} (hw : w ∈ words)
    (hs : w <+: s) (n : ℕ) : dropWords words (n + 1) s ≠ s := by
  rw [dropWords]
  split
  · rename_i u hu
    have hmem := List.mem_of_find?_eq_some hu
    have hpre : u <+: s := by simpa using List.find?_some hu
    have hpos : 0 < u.length := List.length_pos_iff.mpr fun he => hne (he ▸ hmem)
    have hlen := (dropWords_suffix words n (s.drop u.length)).length_le
    rw [List.length_drop] at hlen
    intro he
    have := hpre.length_le
    rw [he] at hlen
    omega
  · rename_i hnone
    rw [List.find?_eq_none] at hnone
    exact absurd (List.isPrefixOf_iff_prefix.mpr hs) (hnone w hw)

/-- A byte of none of the words stops the dropping. -/
theorem dropWords_append {words : List Str} {c : UInt8} (hc : ∀ w ∈ words, c ∉ w) (n : ℕ)
    (s t : Str) : dropWords words n (s ++ c :: t) = dropWords words n s ++ c :: t := by
  induction n generalizing s with
  | zero => rfl
  | succ n ih =>
    have hfind : words.find? (fun w => w.isPrefixOf (s ++ c :: t)) =
        words.find? fun w => w.isPrefixOf s := by
      apply List.find?_congr
      intro w hw
      rw [Bool.eq_iff_iff, List.isPrefixOf_iff_prefix, List.isPrefixOf_iff_prefix]
      refine ⟨fun hp => ?_, fun hp => hp.trans (List.prefix_append _ _)⟩
      have hsc : s ++ [c] <+: s ++ c :: t := by simp
      rcases List.prefix_or_prefix_of_prefix hp hsc with h | h
      · rcases List.prefix_concat_iff.mp h with h | h
        · exact absurd (by simp [h]) (hc w hw)
        · exact h
      · exact absurd (h.subset (by simp)) (hc w hw)
    rw [dropWords, dropWords, hfind]
    split
    · rename_i w hw
      have hpre : w <+: s := by simpa using List.find?_some hw
      rw [List.drop_append_of_le_length hpre.length_le, ih]
    · rfl

/-- `strings.TrimSpace` -/
def trimSpace (s : Str) : Str :=
  let s := dropWords spaces s.length s
  (dropWords (spaces.map List.reverse) s.length s.reverse).reverse

example : trimSpace (ascii " secret.upsert\n") = ascii "secret.upsert" := by decide

/-- A part of a text between separators holds no separator. -/
theorem not_mem_of_mem_splitOn {sep : UInt8} {s t : Str} (h : t ∈ s.splitOn sep) : sep ∉ t := by
  induction s generalizing t with
  | nil =>
    rw [List.mem_singleton.mp h]
    exact List.not_mem_nil
  | cons c s ih =>
    rw [List.splitOn_cons_eq_if_modifyHead] at h
    split_ifs at h with hc
    · rcases List.mem_cons.mp h with rfl | h
      · exact List.not_mem_nil
      · exact ih h
    · obtain ⟨first, rest, hs⟩ := List.exists_cons_of_ne_nil (List.splitOn_ne_nil sep s)
      rw [hs] at ih
      rw [hs, List.modifyHead_cons] at h
      rcases List.mem_cons.mp h with rfl | h
      · rw [List.mem_cons, not_or]
        exact ⟨fun he => hc (by simp [← he]), ih List.mem_cons_self⟩
      · exact ih (List.mem_cons_of_mem _ h)

/-- A byte of some joined texts is the separator or a byte of one of them. -/
theorem mem_intercalate {sep c : UInt8} {texts : List Str} (h : c ∈ [sep].intercalate texts) :
    c = sep ∨ ∃ s ∈ texts, c ∈ s := by
  induction texts with
  | nil => cases h
  | cons s texts ih =>
    by_cases hnil : texts = []
    · rw [hnil, List.intercalate_singleton] at h
      exact .inr ⟨s, List.mem_cons_self, h⟩
    · rw [List.intercalate_cons_of_ne_nil hnil, List.append_assoc, List.mem_append] at h
      rcases h with h | h
      · exact .inr ⟨s, List.mem_cons_self, h⟩
      · rcases List.mem_append.mp h with h | h
        · exact .inl (List.mem_singleton.mp h)
        · exact (ih h).imp id fun ⟨t, ht, hc⟩ => ⟨t, List.mem_cons_of_mem _ ht, hc⟩

/-- What stands before a separator, or the whole text. -/
theorem takeWhile_before {sep : UInt8} {s t : Str} (hs : sep ∉ s)
    (ht : t = [] ∨ t.head? = some sep) : (s ++ t).takeWhile (· != sep) = s := by
  have hstop : t.takeWhile (· != sep) = [] := by
    rcases ht with rfl | ht
    · rfl
    · obtain ⟨t, rfl⟩ := List.head?_eq_some_iff.mp ht
      rw [List.takeWhile_cons_of_neg (by simp)]
  rw [List.takeWhile_append_of_pos, hstop, List.append_nil]
  exact fun c hc => bne_iff_ne.mpr fun he => hs (he ▸ hc)

/-- What stands from a separator on. -/
theorem dropWhile_before {sep : UInt8} {s : Str} (hs : sep ∉ s) (t : Str) :
    (s ++ sep :: t).dropWhile (· != sep) = sep :: t := by
  rw [List.dropWhile_append_of_pos, List.dropWhile_cons_of_neg (by simp)]
  exact fun c hc => bne_iff_ne.mpr fun he => hs (he ▸ hc)

end Comax
