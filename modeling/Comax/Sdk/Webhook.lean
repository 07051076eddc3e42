import Comax.Core.Number
import Comax.Webhook.Signer

/-!
# Verifying a delivery

The verifier signs the raw timestamp header, a dot and the body again. The header is taken
for a time by `Number`, which reads more than decimal digits, but no text with a brace,
and the body that was signed starts with one: so the dot of the signed bytes is the one
that the sender put there, and a signature stands for one header and one body.
-/

namespace Comax.Sdk

open Comax.Core Comax.Webhook

/-- `VerifyWebhookInput`, without the headers' names. -/
structure VerifyWebhookInput where
  /-- `secret` -/
  secret : JSString
  /-- `signatureHeader`; `null` and `undefined` are one. -/
  signatureHeader : Option JSString
  /-- `timestampHeader` -/
  timestampHeader : Option JSString
  /-- `body` -/
  body : JSString
  /-- `toleranceSec` -/
  toleranceSec : Option Number
  /-- `nowSec` -/
  nowSec : Option Number

/-- `VerifyResult` -/
structure VerifyResult where
  /-- `valid` -/
  valid : Bool
  /-- `reason` -/
  reason : Option String
  deriving DecidableEq

/-- A refusal with its reason. -/
def VerifyResult.refuse (reason : String) : VerifyResult := ⟨false, some reason⟩

/-- `b.toString(16)` -/
def toString16 (b : UInt8) : Str :=
  if b < 16 then [nibble b] else [nibble (b / 16), nibble (b % 16)]

/-- `padStart` -/
def padStart (width : ℕ) (fill : UInt8) (s : Str) : Str :=
  List.replicate (width - s.length) fill ++ s

/-- `toHex` -/
def toHex (bytes : Str) : Str :=
  bytes.foldl (fun out b => out ++ padStart 2 (byte '0') (toString16 b)) []

/-- `computeSignature` -/
def computeSignature (hmac : Str → Str → Str) (secret ts body : JSString) : JSString :=
  ofAscii (ascii "sha256=" ++
    toHex (hmac (encodeUtf8 secret) (encodeUtf8 (ts ++ (byte '.').toUInt16 :: body))))

/-- `constantTimeEqual` -/
def constantTimeEqual (a b : JSString) : Bool :=
  let ab := encodeUtf8 a
  let bb := encodeUtf8 b
  if ab.length ≠ bb.length then false
  else (ab.zip bb).foldl (fun diff p => diff ||| (p.1 ^^^ p.2)) 0 == 0

/-- The tolerance of an input. -/
def VerifyWebhookInput.tolerance (input : VerifyWebhookInput) : Number :=
  input.toleranceSec.getD (.finite 300)

/-- A time is further from the current one than the tolerance, unless that disables the check. -/
def VerifyWebhookInput.isOutside (input : VerifyWebhookInput) (clock ts : Number) : Bool :=
  input.tolerance.gt (.finite 0) &&
    (((input.nowSec.getD clock).sub ts).abs).gt input.tolerance

/-- `verifyWebhookSignature` at a time of the clock. -/
def verifyWebhookSignature (hmac : Str → Str → Str) (clock : Number) (input : VerifyWebhookInput) :
    VerifyResult :=
  let signatureHeader := input.signatureHeader.getD []
  let timestampHeader := input.timestampHeader.getD []
  if input.secret = [] then .refuse "missing signing secret"
  else if signatureHeader = [] ∨ timestampHeader = [] then
    .refuse "missing signature or timestamp header"
  else
    let ts := Number.ofString timestampHeader
    if !ts.isInteger || ts.le (.finite 0) then .refuse "invalid timestamp"
    else if input.isOutside clock ts then .refuse "timestamp outside tolerance (possible replay)"
    else
      let expected := computeSignature hmac input.secret timestampHeader input.body
      if !constantTimeEqual expected signatureHeader then .refuse "signature mismatch"
      else ⟨true, none⟩

/-- Two digits for each byte. -/
theorem toHex_eq (bytes : Str) : toHex bytes = hexEncode bytes := by
  have hbyte : ∀ b : UInt8, padStart 2 (byte '0') (toString16 b) =
      [nibble (b / 16), nibble (b % 16)] := by
    intro b
    rw [toString16]
    split_ifs with hb
    · have hlt : b.toNat < 16 := UInt8.lt_iff_toNat_lt.mp hb
      have h16 : (16 : UInt8).toNat = 16 := rfl
      have hdiv : b / 16 = 0 := by
        apply UInt8.toNat_inj.mp
        rw [UInt8.toNat_div, h16, Nat.div_eq_of_lt hlt]
        rfl
      have hmod : b % 16 = b := by
        apply UInt8.toNat_inj.mp
        rw [UInt8.toNat_mod, h16, Nat.mod_eq_of_lt hlt]
      rw [hdiv, hmod]
      rfl
    · rfl
  rw [toHex, hexEncode, List.flatMap_eq_foldl]
  simp only [hbyte]

/-- The accumulated difference is zero when it was and no pair differs. -/
theorem foldl_diff_eq_zero (l : List (UInt8 × UInt8)) (diff : UInt8) :
    l.foldl (fun diff p => diff ||| (p.1 ^^^ p.2)) diff = 0 ↔ diff = 0 ∧ ∀ p ∈ l, p.1 = p.2 := by
  induction l generalizing diff with
  | nil => simp
  | cons p l ih =>
    rw [List.foldl_cons, ih, UInt8.or_eq_zero_iff, UInt8.xor_eq_zero_iff, and_assoc,
      List.forall_mem_cons]

/-- Strings are equal when their encodings are. -/
theorem constantTimeEqual_iff (a b : JSString) :
    constantTimeEqual a b = true ↔ encodeUtf8 a = encodeUtf8 b := by
  have hzip : ∀ s t : Str, s.length = t.length → ((∀ p ∈ s.zip t, p.1 = p.2) ↔ s = t) := by
    intro s
    induction s with
    | nil =>
      intro t ht
      simp [List.length_eq_zero_iff.mp ht.symm]
    | cons c s ih =>
      intro t ht
      cases t with
      | nil => cases ht
      | cons d t =>
        rw [List.zip_cons_cons, List.forall_mem_cons, ih t (Nat.succ.inj ht), List.cons.injEq]
  rw [constantTimeEqual]
  by_cases hlen : (encodeUtf8 a).length = (encodeUtf8 b).length
  · simp only [ne_eq, hlen, not_true_eq_false, if_false, beq_iff_eq, foldl_diff_eq_zero, true_and]
    exact hzip _ _ hlen
  · simp only [ne_eq, hlen, not_false_eq_true, if_true, Bool.false_eq_true, false_iff]
    exact fun he => hlen (congrArg List.length he)

section Verify

variable {hmac : Str → Str → Str} {clock : Number} {input : VerifyWebhookInput}

/-- A delivery is accepted exactly when every check passes. -/
theorem verifyWebhookSignature_valid :
    (verifyWebhookSignature hmac clock input).valid = true ↔
      input.secret ≠ [] ∧ input.signatureHeader.getD [] ≠ [] ∧ input.timestampHeader.getD [] ≠ [] ∧
      (Number.ofString (input.timestampHeader.getD [])).isInteger = true ∧
      (Number.ofString (input.timestampHeader.getD [])).le (.finite 0) = false ∧
      input.isOutside clock (Number.ofString (input.timestampHeader.getD [])) = false ∧
      encodeUtf8 (computeSignature hmac input.secret (input.timestampHeader.getD []) input.body) =
        encodeUtf8 (input.signatureHeader.getD []) := by
  rw [← constantTimeEqual_iff]
  simp only [verifyWebhookSignature]
  split_ifs with hsecret hheader hts houtside hmac
  · simp [VerifyResult.refuse, hsecret]
  · rcases hheader with hheader | hheader <;> simp [VerifyResult.refuse, hheader]
  · rcases Bool.or_eq_true _ _ ▸ hts with hts | hts <;> simp_all [VerifyResult.refuse]
  · simp [VerifyResult.refuse, houtside]
  · simp_all [VerifyResult.refuse]
  · simp_all

end Verify

/-- The only texts that a dot and a brace split as the signed bytes do, when the first has no
brace. -/
theorem append_dot_inj {a b d cs : List Char} (hdot : '.' ∉ d) (hbrace : '{' ∉ a)
    (h : a ++ '.' :: b = d ++ '.' :: '{' :: cs) : a = d ∧ b = '{' :: cs := by
  rcases List.append_eq_append_iff.mp h with ⟨m, hd, hb⟩ | ⟨m, ha, hb⟩
  · cases m with
    | nil => exact ⟨by rw [hd, List.append_nil], (List.cons.inj hb).2⟩
    | cons x m =>
      have hx : '.' = x := (List.cons.inj hb).1
      exact absurd (by rw [hd, hx]; simp) hdot
  · cases m with
    | nil => exact ⟨by rw [ha, List.append_nil], (List.cons.inj hb).2.symm⟩
    | cons x m =>
      cases m with
      | nil =>
        have hclash : '{' = '.' := (List.cons.inj (List.cons.inj hb).2).1
        exact absurd hclash (by decide)
      | cons y m =>
        have hy : '{' = y := (List.cons.inj (List.cons.inj hb).2).1
        exact absurd (by rw [ha, hy]; simp) hbrace

/-- The dot of a signed text is no surrogate. -/
theorem scalars_dot (s t : JSString) :
    scalars (s ++ (byte '.').toUInt16 :: t) = scalars s ++ '.' :: scalars t :=
  scalars_append (by decide) (by decide) s t

/-- The characters of a timestamp header. -/
theorem scalars_timestamp (ts : ℤ) :
    scalars (ofAscii (formatInt ts)) = (formatInt ts).map fun c => Char.ofNat c.toNat :=
  scalars_ofAscii (formatInt_ascii ts)

/-- A signature header is ASCII. -/
theorem signature_ascii (mac : Str) : ∀ c ∈ ascii "sha256=" ++ hexEncode mac, c < 0x80 := by
  intro c hc
  rcases List.mem_append.mp hc with hc | hc
  · exact of_decide_eq_true (List.all_eq_true.mp (by decide : (ascii "sha256=").all
      (fun c => decide (c < 0x80)) = true) c hc)
  · exact hexEncode_ascii c hc

section Binding

variable {hmac : Str → Str → Str} {secret : JSString} {p : Payload} {ts : ℤ}

/-- The header of a positive time is read as its double. -/
theorem ofString_timestamp (hpos : 0 < ts) :
    Number.ofString (ofAscii (formatInt ts)) = Number.round ts := by
  obtain ⟨n, rfl⟩ := Int.eq_ofNat_of_zero_le hpos.le
  exact Number.ofString_digits (digitsValue_formatNat n)

/-- A positive time is a time for the verifier. -/
theorem timestamp_valid (hpos : 0 < ts) (hlt : ts < 2 ^ 63) :
    (Number.round ts).isInteger = true ∧ (Number.round ts).le (.finite 0) = false := by
  obtain ⟨n, rfl⟩ := Int.eq_ofNat_of_zero_le hpos.le
  have hn : 0 < n := Int.natCast_pos.mp hpos
  have hbound : 2 * n < 2 ^ Number.overflowExponent := by
    have hle : 2 ^ 64 ≤ 2 ^ Number.overflowExponent := Nat.pow_le_pow_right (by decide) (by decide)
    omega
  obtain ⟨m, hm, hround⟩ := Number.round_natCast hn hbound
  have hcast : Number.round ((n : ℤ) : ℚ) = .finite m := hround
  have hq : (0 : ℚ) < m := Nat.cast_pos.mpr hm
  rw [hcast]
  exact ⟨by simp [Number.isInteger, Rat.isInt], by simp [Number.le, Number.gt, hq]⟩

/-- The header of a positive time has no dot. -/
theorem dot_notMem_timestamp (hpos : 0 < ts) :
    '.' ∉ scalars (ofAscii (formatInt ts)) := by
  obtain ⟨n, rfl⟩ := Int.eq_ofNat_of_zero_le hpos.le
  intro hmem
  obtain ⟨c, hc, he⟩ := List.mem_map.mp (mem_of_mem_scalars (c := byte '.') (by decide) hmem)
  have hdigit := (digits_of_digitsValue (digitsValue_formatNat n)).2 c hc
  have hcode : c.toNat = 46 := by
    rw [← UInt8.toNat_toUInt16, he]
    rfl
  omega

/-- The signed bytes are split by one dot only. -/
theorem eq_of_signedMaterial (hpos : 0 < ts) {cs : List Char} (hcs : utf8 ('{' :: cs) = p.marshal)
    {hdr body : JSString} (hnumber : Number.ofString hdr ≠ .nan)
    (h : encodeUtf8 (hdr ++ (byte '.').toUInt16 :: body) =
      signedMaterial (formatInt ts) p.marshal) :
    hdr = ofAscii (formatInt ts) ∧ scalars body = '{' :: cs := by
  have hascii := formatInt_ascii ts
  have hmaterial : signedMaterial (formatInt ts) p.marshal =
      utf8 (scalars (ofAscii (formatInt ts)) ++ '.' :: '{' :: cs) := by
    rw [utf8_append, scalars_timestamp, utf8_ascii hascii, signedMaterial, ← hcs]
    rfl
  have hbrace : '{' ∉ scalars hdr := fun hmem =>
    hnumber (Number.ofString_brace (mem_of_mem_scalars (c := byte '{') (by decide) hmem))
  rw [hmaterial, encodeUtf8, scalars_dot] at h
  obtain ⟨hhdr, hbody⟩ := append_dot_inj (dot_notMem_timestamp hpos) hbrace (utf8_injective h)
  rw [scalars_timestamp] at hhdr
  exact ⟨eq_of_scalars hascii hhdr, hbody⟩

/-- What is signed again for the sender's header and a body that is read as the payload. -/
theorem signedMaterial_eq {body : JSString} (hbody : encodeUtf8 body = p.marshal) :
    encodeUtf8 (ofAscii (formatInt ts) ++ (byte '.').toUInt16 :: body) =
      signedMaterial (formatInt ts) p.marshal := by
  rw [encodeUtf8, scalars_dot, utf8_append, ← encodeUtf8, encodeUtf8_ofAscii (formatInt_ascii ts),
    signedMaterial, ← hbody, encodeUtf8]
  rfl

/-- The encoding of a computed signature. -/
theorem encodeUtf8_computeSignature (hdr body : JSString) :
    encodeUtf8 (computeSignature hmac secret hdr body) = ascii "sha256=" ++
      hexEncode (hmac (encodeUtf8 secret) (encodeUtf8 (hdr ++ (byte '.').toUInt16 :: body))) := by
  rw [computeSignature, toHex_eq, encodeUtf8_ofAscii (signature_ascii _)]

/-- A delivery with the sender's signature and header and a body that is read as the payload is
accepted while its time is within the tolerance. -/
theorem verifyWebhookSignature_sign (hsecret : secret ≠ []) (hpos : 0 < ts) (hlt : ts < 2 ^ 63)
    {clock : Number} {input : VerifyWebhookInput} (hkey : input.secret = secret)
    (hsig : input.signatureHeader =
      some (ofAscii (sign hmac (encodeUtf8 secret) p.marshal ts).1))
    (hhdr : input.timestampHeader =
      some (ofAscii (sign hmac (encodeUtf8 secret) p.marshal ts).2))
    (hbody : encodeUtf8 input.body = p.marshal)
    (hnear : input.isOutside clock (Number.round ts) = false) :
    (verifyWebhookSignature hmac clock input).valid = true := by
  have hvalid := timestamp_valid hpos hlt
  have hne : ofAscii (formatInt ts) ≠ [] := by
    intro he
    have hempty : Number.ofString [] = .finite 0 := rfl
    rw [← ofString_timestamp hpos, he, hempty] at hvalid
    exact absurd hvalid.2 (by decide)
  rw [verifyWebhookSignature_valid, hsig, hhdr, Option.getD_some, Option.getD_some, hkey]
  simp only [sign]
  rw [ofString_timestamp hpos, encodeUtf8_computeSignature, signedMaterial_eq hbody,
    encodeUtf8_ofAscii (signature_ascii _)]
  exact ⟨hsecret, by simp [ofAscii, ascii], hne, hvalid.1, hvalid.2, hnear, rfl⟩

/-- A signature stands for one header and, up to lone surrogates where the payload has U+FFFD,
for one body. -/
theorem verifyWebhookSignature_binds (hmac : Str → Str → Str) (secret : JSString)
    (hsecret : secret ≠ []) (hinj : Function.Injective (hmac (encodeUtf8 secret)))
    (p : Payload) (ts : ℤ) (hpos : 0 < ts) (hlt : ts < 2 ^ 63) :
    ∃ body0 : JSString, encodeUtf8 body0 = p.marshal ∧ toWellFormed body0 = body0 ∧
      (0xFFFD ∉ body0 → ∀ body, toWellFormed body = body0 → body = body0) ∧
      ∀ (clock : Number) (toleranceSec nowSec : Option Number)
        (timestampHeader : Option JSString) (body : JSString),
        let signed := sign hmac (encodeUtf8 secret) p.marshal ts
        let input : VerifyWebhookInput :=
          ⟨secret, some (ofAscii signed.1), timestampHeader, body, toleranceSec, nowSec⟩
        (verifyWebhookSignature hmac clock input).valid = true ↔
          timestampHeader = some (ofAscii signed.2) ∧ toWellFormed body = body0 ∧
            input.isOutside clock (Number.round ts) = false := by
  obtain ⟨cs, hcs⟩ := exists_marshal p
  have hread : scalars (utf16 ('{' :: cs)) = '{' :: cs := scalars_utf16 _
  refine ⟨utf16 ('{' :: cs), by rw [encodeUtf8, hread, hcs], by rw [toWellFormed, hread], ?_, ?_⟩
  · intro hmem body hbody
    rw [← hbody] at hmem ⊢
    exact (toWellFormed_eq_self hmem).symm
  intro clock toleranceSec nowSec timestampHeader body signed input
  constructor
  · intro h
    obtain ⟨-, -, -, hinteger, -, hnear, hsig⟩ := verifyWebhookSignature_valid.mp h
    have hmac' := List.append_cancel_left
      ((encodeUtf8_computeSignature _ _).symm.trans (hsig.trans
        (encodeUtf8_ofAscii (signature_ascii _))))
    have hmaterial := hinj (hexEncode_injective hmac')
    have hnumber : Number.ofString (timestampHeader.getD []) ≠ .nan := by
      intro he
      rw [he] at hinteger
      cases hinteger
    obtain ⟨hhdr, hbody⟩ := eq_of_signedMaterial hpos hcs hnumber hmaterial
    have hsome : timestampHeader = some (ofAscii (formatInt ts)) := by
      cases timestampHeader with
      | none =>
        have hempty : Number.ofString [] = .finite 0 := rfl
        have hvalid := (timestamp_valid hpos hlt).2
        rw [← ofString_timestamp hpos, ← hhdr, Option.getD_none, hempty] at hvalid
        exact absurd hvalid (by decide)
      | some hdr => rw [← hhdr, Option.getD_some]
    refine ⟨hsome, by rw [toWellFormed, hbody], ?_⟩
    rw [← ofString_timestamp hpos, ← hhdr]
    exact hnear
  · rintro ⟨hhdr, hbody, hnear⟩
    refine verifyWebhookSignature_sign hsecret hpos hlt rfl rfl hhdr ?_ hnear
    have hscalars := congrArg scalars hbody
    rw [toWellFormed, scalars_utf16, hread] at hscalars
    rw [encodeUtf8, hscalars, hcs]

end Binding

/-- The payload of a secret whose key is U+FFFD. -/
def samplePayload : Payload :=
  ⟨ascii "secret.upsert", ascii "p", ascii "e", [0xEF, 0xBF, 0xBD], 1, 1700000000⟩

/-- The body of that payload, with a unit for the key. -/
def sampleBody (key : UInt16) : JSString :=
  ofAscii (ascii "\x7b\"action\":\"secret.upsert\",\"project\":\"p\",\"env\":\"e\",\"key\":\"") ++
    key :: ofAscii (ascii "\",\"version\":1,\"timestamp\":1700000000\x7d")

/-- HMAC-SHA256 on the signed bytes of the sample; on others something longer that is not
repeated. -/
def sampleHmac (key msg : Str) : Str :=
  if key = ascii "k" ∧ msg = signedMaterial (formatInt 1700000000) samplePayload.marshal then
    [76, 54, 64, 60, 207, 236, 92, 28, 154, 104, 159, 124, 189, 196, 134, 118, 31, 239, 84, 129,
      74, 47, 162, 17, 212, 181, 15, 223, 86, 241, 61, 182]
  else List.replicate 33 0 ++ msg

/-- The sample has no collisions. -/
theorem sampleHmac_injective (key : Str) : Function.Injective (sampleHmac key) := by
  intro a b h
  simp only [sampleHmac] at h
  split_ifs at h with ha hb hb
  · rw [ha.2, hb.2]
  · have hlen := congrArg List.length h
    simp at hlen
  · have hlen := congrArg List.length h
    simp at hlen
  · exact List.append_cancel_left h

/-- The sample's delivery, with a unit for the key and no tolerance. -/
def sampleInput (key : UInt16) : VerifyWebhookInput :=
  let signed := sign sampleHmac (ascii "k") samplePayload.marshal 1700000000
  ⟨ofAscii (ascii "k"), some (ofAscii signed.1), some (ofAscii signed.2), sampleBody key,
    some (.finite 0), none⟩

/-- The sample's body is read as the payload, with a lone surrogate too. -/
theorem encodeUtf8_sampleBody :
    encodeUtf8 (sampleBody 0xFFFD) = samplePayload.marshal ∧
      encodeUtf8 (sampleBody 0xD800) = samplePayload.marshal := by
  constructor <;> decide +kernel

/-- The sample's delivery is accepted with a body that is read as the payload. -/
theorem sampleInput_valid {key : UInt16} (h : encodeUtf8 (sampleBody key) = samplePayload.marshal) :
    (verifyWebhookSignature sampleHmac (.finite 0) (sampleInput key)).valid = true := by
  have hkey : encodeUtf8 (ofAscii (ascii "k")) = ascii "k" := by decide +kernel
  have hsecret : ofAscii (ascii "k") ≠ [] := by decide
  have hpos : (0 : ℤ) < 1700000000 := by decide
  refine verifyWebhookSignature_sign (p := samplePayload) hsecret hpos (by decide) rfl ?_ ?_ h ?_
  · rw [hkey]
    rfl
  · rw [hkey]
    rfl
  · simp [VerifyWebhookInput.isOutside, VerifyWebhookInput.tolerance, sampleInput, Number.gt]

/-- A lone surrogate in the place of U+FFFD passes for it. -/
theorem verifyWebhookSignature_loneSurrogate :
    (∀ key, Function.Injective (sampleHmac key)) ∧
      encodeUtf8 (sampleBody 0xFFFD) = samplePayload.marshal ∧
      (verifyWebhookSignature sampleHmac (.finite 0) (sampleInput 0xFFFD)).valid = true ∧
      (verifyWebhookSignature sampleHmac (.finite 0) (sampleInput 0xD800)).valid = true ∧
      (sampleInput 0xD800).body ≠ (sampleInput 0xFFFD).body :=
  ⟨sampleHmac_injective, encodeUtf8_sampleBody.1, sampleInput_valid encodeUtf8_sampleBody.1,
    sampleInput_valid encodeUtf8_sampleBody.2, by decide⟩

/-- The sample's signature stands for its header and its body. -/
theorem verifyWebhookSignature_binds_sample :
    ofAscii (ascii "k") ≠ [] ∧ (0 : ℤ) < 1700000000 ∧ (1700000000 : ℤ) < 2 ^ 63 ∧
      ∃ body0 : JSString, encodeUtf8 body0 = samplePayload.marshal ∧ toWellFormed body0 = body0 ∧
        (0xFFFD ∉ body0 → ∀ body, toWellFormed body = body0 → body = body0) ∧
        ∀ (clock : Number) (toleranceSec nowSec : Option Number)
          (timestampHeader : Option JSString) (body : JSString),
          let signed := sign sampleHmac (encodeUtf8 (ofAscii (ascii "k"))) samplePayload.marshal
            1700000000
          let input : VerifyWebhookInput :=
            ⟨ofAscii (ascii "k"), some (ofAscii signed.1), timestampHeader, body, toleranceSec,
              nowSec⟩
          (verifyWebhookSignature sampleHmac clock input).valid = true ↔
            timestampHeader = some (ofAscii signed.2) ∧ toWellFormed body = body0 ∧
              input.isOutside clock (Number.round ((1700000000 : ℤ) : ℚ)) = false :=
  ⟨by decide, by decide, by decide,
    verifyWebhookSignature_binds sampleHmac (ofAscii (ascii "k")) (by decide)
      (sampleHmac_injective _) samplePayload 1700000000 (by decide) (by decide)⟩

end Comax.Sdk
