import Comax.Core.Hex
import Comax.Core.Utf16
import Comax.Webhook.Payload

/-!
# The delivery signature

The signed bytes are the timestamp, a dot and the body. The body is UTF-8 whatever the
bytes of the payload's fields are, since `json.Marshal` replaces what is not, and it
starts with a brace.
-/

namespace Comax.Webhook

open Comax.Core

/-- The bytes that are signed. -/
def signedMaterial (ts body : Str) : Str := ts ++ byte '.' :: body

/-- `Sign`, with the signature and the timestamp header. -/
def sign (hmac : Str → Str → Str) (secret body : Str) (tsUnix : Int) : Str × Str :=
  (ascii "sha256=" ++ hexEncode (hmac secret (signedMaterial (formatInt tsUnix) body)),
    formatInt tsUnix)

/-- The text is UTF-8. -/
def IsUtf8 (s : Str) : Prop := ∃ cs, utf8 cs = s

/-- One text after another. -/
theorem IsUtf8.append {s t : Str} (hs : IsUtf8 s) (ht : IsUtf8 t) : IsUtf8 (s ++ t) := by
  obtain ⟨cs, rfl⟩ := hs
  obtain ⟨ds, rfl⟩ := ht
  exact ⟨cs ++ ds, utf8_append cs ds⟩

/-- ASCII is UTF-8. -/
theorem isUtf8_ascii {s : Str} (h : ∀ c ∈ s, c < 0x80) : IsUtf8 s := ⟨_, utf8_ascii h⟩

/-- A text whose bytes are checked to be ASCII is UTF-8. -/
theorem isUtf8_all {s : Str} (h : (s.all fun c => decide (c < 0x80)) = true) : IsUtf8 s :=
  isUtf8_ascii fun c hc => of_decide_eq_true (List.all_eq_true.mp h c hc)

/-- See `isUtf8_all`. -/
theorem isUtf8_literal (t : String) (h : ((ascii t).all fun c => decide (c < 0x80)) = true) :
    IsUtf8 (ascii t) := isUtf8_all h

/-- The encoding of a code in two bytes. -/
theorem encode_two {v : ℕ} (hlo : 0x80 ≤ v) (hhi : v < 0x800) :
    String.utf8EncodeChar (Char.ofNat v) =
      [UInt8.ofNat (v / 64 + 0xC0), UInt8.ofNat (v % 64 + 0x80)] := by
  have hv : (Char.ofNat v).val.toNat = v := toNat_ofNat (.inl (by omega))
  have hmod : v / 64 % 32 = v / 64 := Nat.mod_eq_of_lt (by omega)
  rw [String.utf8EncodeChar]
  simp only [hv]
  rw [if_neg (by omega), if_pos (by omega), hmod]

/-- The encoding of a code in three bytes. -/
theorem encode_three {v : ℕ} (hlo : 0x800 ≤ v) (hhi : v < 0xD800 ∨ 0xDFFF < v ∧ v < 0x10000) :
    String.utf8EncodeChar (Char.ofNat v) = [UInt8.ofNat (v / 4096 + 0xE0),
      UInt8.ofNat (v / 64 % 64 + 0x80), UInt8.ofNat (v % 64 + 0x80)] := by
  have hv : (Char.ofNat v).val.toNat = v := toNat_ofNat (by omega)
  have hmod : v / 4096 % 16 = v / 4096 := Nat.mod_eq_of_lt (by omega)
  rw [String.utf8EncodeChar]
  simp only [hv]
  rw [if_neg (by omega), if_neg (by omega), if_pos (by omega), hmod]

/-- The encoding of a code in four bytes. -/
theorem encode_four {v : ℕ} (hlo : 0x10000 ≤ v) (hhi : v < 0x110000) :
    String.utf8EncodeChar (Char.ofNat v) = [UInt8.ofNat (v / 262144 + 0xF0),
      UInt8.ofNat (v / 4096 % 64 + 0x80), UInt8.ofNat (v / 64 % 64 + 0x80),
      UInt8.ofNat (v % 64 + 0x80)] := by
  have hv : (Char.ofNat v).val.toNat = v := toNat_ofNat (.inr (by omega))
  have hmod : v / 262144 % 8 = v / 262144 := Nat.mod_eq_of_lt (by omega)
  rw [String.utf8EncodeChar]
  simp only [hv]
  rw [if_neg (by omega), if_neg (by omega), if_neg (by omega), hmod]

/-- The code of a byte that depends on another. -/
theorem toNat_ite {a k x y : UInt8} :
    (if a = k then x else y).toNat = if a.toNat = k.toNat then x.toNat else y.toNat := by
  simp only [← UInt8.toNat_inj]
  split_ifs <;> rfl

/-- A byte is given by its code. -/
theorem ofNat_eq {a : UInt8} {m : ℕ} (h : m = a.toNat) : UInt8.ofNat m = a := by
  rw [h]
  exact UInt8.ofNat_toNat

/-- Two bytes that encode a character. -/
theorem exists_encode_two {a b : UInt8} (ha : 194 ≤ a.toNat ∧ a.toNat ≤ 223)
    (hb : 128 ≤ b.toNat ∧ b.toNat ≤ 191) : ∃ c, String.utf8EncodeChar c = [a, b] := by
  have he := encode_two (v := (a.toNat - 0xC0) * 64 + (b.toNat - 0x80)) (by omega) (by omega)
  refine ⟨_, he.trans ?_⟩
  rw [ofNat_eq (a := a) (by omega), ofNat_eq (a := b) (by omega)]

/-- Three bytes that encode a character. -/
theorem exists_encode_three {a b c : UInt8} (ha : 224 ≤ a.toNat ∧ a.toNat ≤ 239)
    (hb : 128 ≤ b.toNat ∧ b.toNat ≤ 191) (hlow : a.toNat = 224 → 160 ≤ b.toNat)
    (hhigh : a.toNat = 237 → b.toNat ≤ 159) (hc : 128 ≤ c.toNat ∧ c.toNat ≤ 191) :
    ∃ d, String.utf8EncodeChar d = [a, b, c] := by
  have he := encode_three (v := (a.toNat - 0xE0) * 4096 + (b.toNat - 0x80) * 64 +
    (c.toNat - 0x80)) (by omega) (by omega)
  refine ⟨_, he.trans ?_⟩
  rw [ofNat_eq (a := a) (by omega), ofNat_eq (a := b) (by omega), ofNat_eq (a := c) (by omega)]

/-- Four bytes that encode a character. -/
theorem exists_encode_four {a b c d : UInt8} (ha : 240 ≤ a.toNat ∧ a.toNat ≤ 244)
    (hb : 128 ≤ b.toNat ∧ b.toNat ≤ 191) (hlow : a.toNat = 240 → 144 ≤ b.toNat)
    (hhigh : a.toNat = 244 → b.toNat ≤ 143) (hc : 128 ≤ c.toNat ∧ c.toNat ≤ 191)
    (hd : 128 ≤ d.toNat ∧ d.toNat ≤ 191) : ∃ e, String.utf8EncodeChar e = [a, b, c, d] := by
  have he := encode_four (v := (a.toNat - 0xF0) * 262144 + (b.toNat - 0x80) * 4096 +
    (c.toNat - 0x80) * 64 + (d.toNat - 0x80)) (by omega) (by omega)
  refine ⟨_, he.trans ?_⟩
  rw [ofNat_eq (a := a) (by omega), ofNat_eq (a := b) (by omega), ofNat_eq (a := c) (by omega),
    ofNat_eq (a := d) (by omega)]

/-- What is taken for a character is one. -/
theorem runeLength_spec {s : Str} {n : ℕ} (h : runeLength s = some n) :
    ∃ c t, s = String.utf8EncodeChar c ++ t ∧ (String.utf8EncodeChar c).length = n := by
  unfold runeLength at h
  split at h
  · rename_i a b s
    simp only [Bool.and_eq_true, decide_eq_true_eq, UInt8.le_iff_toNat_le, toNat_ite,
      UInt8.reduceToNat] at h
    by_cases h2 : (194 ≤ a.toNat ∧ a.toNat ≤ 223) ∧ 128 ≤ b.toNat ∧ b.toNat ≤ 191
    · rw [if_pos h2] at h
      cases h
      obtain ⟨c, hc⟩ := exists_encode_two h2.1 h2.2
      exact ⟨c, s, by rw [hc]; rfl, by rw [hc]; rfl⟩
    · rw [if_neg h2] at h
      cases s with
      | nil => cases h
      | cons c s =>
        simp only at h
        generalize hlo : (if a.toNat = 224 then 160 else 128) = lo at h
        generalize hhi : (if a.toNat = 237 then 159 else 191) = hi at h
        by_cases h3 : (((224 ≤ a.toNat ∧ a.toNat ≤ 239) ∧ lo ≤ b.toNat) ∧ b.toNat ≤ hi) ∧
            128 ≤ c.toNat ∧ c.toNat ≤ 191
        · rw [if_pos h3] at h
          cases h
          have hb : (128 ≤ b.toNat ∧ b.toNat ≤ 191) ∧ (a.toNat = 224 → 160 ≤ b.toNat) ∧
              (a.toNat = 237 → b.toNat ≤ 159) := by
            split_ifs at hlo hhi <;> omega
          obtain ⟨d, hd⟩ := exists_encode_three h3.1.1.1 hb.1 hb.2.1 hb.2.2 h3.2
          exact ⟨d, s, by rw [hd]; rfl, by rw [hd]; rfl⟩
        · rw [if_neg h3] at h
          cases s with
          | nil => cases h
          | cons d s =>
            simp only at h
            generalize hlo' : (if a.toNat = 240 then 144 else 128) = lo' at h
            generalize hhi' : (if a.toNat = 244 then 143 else 191) = hi' at h
            split_ifs at h with h4
            cases h
            have hb : (128 ≤ b.toNat ∧ b.toNat ≤ 191) ∧ (a.toNat = 240 → 144 ≤ b.toNat) ∧
                (a.toNat = 244 → b.toNat ≤ 143) := by
              split_ifs at hlo' hhi' <;> omega
            obtain ⟨e, he⟩ := exists_encode_four h4.1.1.1.1 hb.1 hb.2.1 hb.2.2 h4.1.2 h4.2
            exact ⟨e, s, by rw [he]; rfl, by rw [he]; rfl⟩
  · cases h

/-- A character at the head of a text, and the rest. -/
theorem exists_rune {c : UInt8} {s : Str} {k : ℕ} (h : runeLength (c :: s) = some k) :
    ∃ d, c :: s.take (k - 1) = String.utf8EncodeChar d := by
  obtain ⟨d, t, hs, hk⟩ := runeLength_spec h
  obtain ⟨b, bs, hd, -⟩ := utf8EncodeChar_shape d
  rw [hd, List.cons_append] at hs
  refine ⟨d, ?_⟩
  rw [(List.cons.inj hs).1, (List.cons.inj hs).2, ← hk, hd]
  exact congrArg (b :: ·) List.take_left

/-- The bytes of a character are copied, or passed over. -/
theorem escapeText_pending (n : ℕ) (copied : Bool) (s : Str) : escapeText n copied s =
    (if copied then s.take n else []) ++ escapeText 0 true (s.drop n) := by
  induction n generalizing s with
  | zero =>
    cases s with
    | nil => cases copied <;> rfl
    | cons c s => cases copied <;> simp [escapeText]
  | succ n ih =>
    cases s with
    | nil => cases copied <;> rfl
    | cons c s =>
      rw [escapeText, ih]
      cases copied <;> rfl

/-- An escaped byte is ASCII. -/
theorem escapeByte_ascii {c : UInt8} (hc : c < 0x80) : ∀ d ∈ escapeByte c, d < 0x80 := by
  have hall : ((List.range 128).all fun n =>
      (escapeByte (UInt8.ofNat n)).all fun d => decide (d < 0x80)) = true := by decide +kernel
  have hn := List.all_eq_true.mp hall c.toNat (List.mem_range.mpr (UInt8.lt_iff_toNat_lt.mp hc))
  rw [UInt8.ofNat_toNat, List.all_eq_true] at hn
  exact fun d hd => of_decide_eq_true (hn d hd)

/-- The content of a JSON string is UTF-8, whatever its bytes are. -/
theorem isUtf8_escapeText (s : Str) : IsUtf8 (escapeText 0 true s) := by
  induction hlen : s.length using Nat.strong_induction_on generalizing s with
  | _ n ih =>
    cases s with
    | nil => exact ⟨[], rfl⟩
    | cons c s =>
      rw [List.length_cons] at hlen
      have hrest := ih s.length (by omega) s rfl
      rw [escapeText]
      by_cases hc : c < 0x80
      · rw [if_pos hc]
        exact (isUtf8_ascii (escapeByte_ascii hc)).append hrest
      · rw [if_neg hc]
        cases hrune : runeLength (c :: s) with
        | none => exact (isUtf8_all (by decide)).append hrest
        | some k =>
          obtain ⟨d, hd⟩ := exists_rune hrune
          have ht : IsUtf8 (escapeText 0 true (s.drop (k - 1))) := by
            refine ih (s.drop (k - 1)).length ?_ (s.drop (k - 1)) rfl
            rw [List.length_drop]
            omega
          have hchar : IsUtf8 (String.utf8EncodeChar d) := ⟨[d], by simp [utf8]⟩
          simp only [escapeText_pending (k - 1), if_true, Bool.false_eq_true, if_false,
            List.nil_append]
          split_ifs
          · exact (isUtf8_all (by decide)).append ht
          · exact (isUtf8_all (by decide)).append ht
          · rw [← List.cons_append, hd]
            exact hchar.append ht

/-- A JSON string is UTF-8. -/
theorem isUtf8_quoteJSON (s : Str) : IsUtf8 (quoteJSON s) := by
  have hquote : IsUtf8 [0x22] := isUtf8_ascii (by simp)
  exact (hquote.append (isUtf8_escapeText s)).append hquote

/-- The body of a delivery is UTF-8 that starts with a brace. -/
theorem exists_marshal (p : Payload) : ∃ cs, utf8 ('{' :: cs) = p.marshal := by
  have hversion : IsUtf8 (if p.version = 0 then [] else ascii ",\"version\":" ++
      formatInt p.version) := by
    split_ifs
    · exact ⟨[], rfl⟩
    · exact (isUtf8_all (by decide)).append (isUtf8_ascii (formatInt_ascii _))
  have htail : IsUtf8 p.marshal.tail := by
    have hfields := (((((((isUtf8_literal "\"action\":" (by decide)).append
      (isUtf8_quoteJSON p.action)).append (isUtf8_literal ",\"project\":" (by decide))).append
      (isUtf8_quoteJSON p.project)).append (isUtf8_literal ",\"env\":" (by decide))).append
      (isUtf8_quoteJSON p.env)).append (isUtf8_literal ",\"key\":" (by decide))).append
      (isUtf8_quoteJSON p.key)
    exact (((hfields.append hversion).append (isUtf8_literal ",\"timestamp\":" (by decide))).append
      (isUtf8_ascii (formatInt_ascii p.timestamp))).append (isUtf8_literal "\x7d" (by decide))
  obtain ⟨cs, hcs⟩ := htail
  refine ⟨cs, ?_⟩
  have hhead : p.marshal = byte '{' :: p.marshal.tail := rfl
  rw [hhead, ← hcs, utf8, List.flatMap_cons, utf8EncodeChar_of_lt (by decide), ← utf8]
  rfl

end Comax.Webhook
