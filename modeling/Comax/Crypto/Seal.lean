import Comax.Core.Text

/-!
# Sealed values

Layout and size checks of a sealed value: nonce, ciphertext and tag in one buffer.
The cipher itself is the standard library's AES-256-GCM and is a parameter.
-/

namespace Comax.Crypto

/-- `KeySize` -/
def keySize : ℕ := 32
/-- `NonceSize` -/
def nonceSize : ℕ := 12
/-- `TagSize` -/
def tagSize : ℕ := 16

/-- An authenticated cipher: encryption, and decryption that fails on a bad tag. -/
structure AEAD where
  /-- Key, nonce and plaintext to ciphertext with tag. -/
  sealed : Str → Str → Str → Str
  /-- Key, nonce and ciphertext with tag to the plaintext. -/
  opened : Str → Str → Str → Option Str

/-- `Seal`, with the nonce drawn by the caller. -/
def AEAD.seal (gcm : AEAD) (key nonce plaintext : Str) : Option Str :=
  if key.length = keySize then some (nonce ++ gcm.sealed key nonce plaintext) else none

/-- `Open` -/
def AEAD.open (gcm : AEAD) (key sealed : Str) : Option Str :=
  if key.length = keySize then
    if sealed.length < nonceSize + tagSize then none
    else gcm.opened key (sealed.take nonceSize) (sealed.drop nonceSize)
  else none

/-- What every authenticated cipher of these sizes does. -/
structure AEAD.Lawful (gcm : AEAD) : Prop where
  /-- A key opens what it sealed. -/
  opens : ∀ key nonce plaintext, key.length = keySize → nonce.length = nonceSize →
    gcm.opened key nonce (gcm.sealed key nonce plaintext) = some plaintext
  /-- The tag is all that is added. -/
  overhead : ∀ key nonce plaintext,
    (gcm.sealed key nonce plaintext).length = plaintext.length + tagSize

/-- What a sealed value is opened to. -/
theorem AEAD.open_sealed {gcm : AEAD} (hgcm : gcm.Lawful) {nonce : Str}
    (hnonce : nonce.length = nonceSize) (other key plaintext : Str) :
    gcm.open other (nonce ++ gcm.sealed key nonce plaintext) =
      if other.length = keySize then gcm.opened other nonce (gcm.sealed key nonce plaintext)
      else none := by
  have hlen : ¬(nonce ++ gcm.sealed key nonce plaintext).length < nonceSize + tagSize := by
    rw [List.length_append, hnonce, hgcm.overhead]
    omega
  rw [AEAD.open, if_neg hlen, ← hnonce, List.take_left, List.drop_left]

/-- A cipher that adds an empty tag, to evaluate the model with. -/
def plainGCM : AEAD where
  sealed _ _ plaintext := plaintext ++ List.replicate tagSize 0
  opened _ _ ciphertext := some (ciphertext.take (ciphertext.length - tagSize))

/-- It opens what it sealed. -/
theorem plainGCM_lawful : plainGCM.Lawful where
  opens _ _ plaintext _ _ := by simp [plainGCM]
  overhead _ _ plaintext := by simp [plainGCM]

/-- A key of the right size. -/
def plainKey : Str := List.replicate keySize 7

/-- A text as that cipher seals it, under a zero nonce. -/
def plainSealed (text : Str) : Str :=
  List.replicate nonceSize 0 ++ text ++ List.replicate tagSize 0

end Comax.Crypto
