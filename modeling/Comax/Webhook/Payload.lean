import Comax.Core.Hex

/-!
# Delivery payloads

The JSON body of a delivery, as `json.Marshal` renders it.
-/

namespace Comax.Webhook

/-- The length of the UTF-8 encoding of a non-ASCII character at the head of a text. -/
def runeLength : Str → Option ℕ
  | a :: b :: s =>
    let cont (c : UInt8) : Bool := 0x80 ≤ c && c ≤ 0xBF
    if 0xC2 ≤ a && a ≤ 0xDF && cont b then some 2
    else
      match s with
      | [] => none
      | c :: s =>
        let low : UInt8 := if a = 0xE0 then 0xA0 else 0x80
        let high : UInt8 := if a = 0xED then 0x9F else 0xBF
        if 0xE0 ≤ a && a ≤ 0xEF && low ≤ b && b ≤ high && cont c then some 3
        else
          match s with
          | [] => none
          | d :: _ =>
            let low : UInt8 := if a = 0xF0 then 0x90 else 0x80
            let high : UInt8 := if a = 0xF4 then 0x8F else 0xBF
            if 0xF0 ≤ a && a ≤ 0xF4 && low ≤ b && b ≤ high && cont c && cont d then some 4
            else none
  | _ => none

/-- An ASCII character inside a JSON string, with the characters of HTML escaped. -/
def escapeByte (c : UInt8) : Str :=
  if c = 0x22 || c = 0x5C then [0x5C, c]
  else if c = 0x08 then ascii "\\b"
  else if c = 0x0C then ascii "\\f"
  else if c = 0x0A then ascii "\\n"
  else if c = 0x0D then ascii "\\r"
  else if c = 0x09 then ascii "\\t"
  else if c < 0x20 || c = byte '<' || c = byte '>' || c = byte '&' then
    ascii "\\u00" ++ [nibble (c / 16), nibble (c % 16)]
  else [c]

/-- The content of a JSON string. The first `pending` bytes belong to a character that is
copied, or that has been escaped already. -/
def escapeText (pending : ℕ) (copied : Bool) : Str → Str
  | [] => []
  | c :: s =>
    match pending with
    | n + 1 => if copied then c :: escapeText n copied s else escapeText n copied s
    | 0 =>
      if c < 0x80 then escapeByte c ++ escapeText 0 true s
      else
        match runeLength (c :: s) with
        | none => ascii "\\ufffd" ++ escapeText 0 true s
        | some n =>
          if (c :: s).take 3 = [0xE2, 0x80, 0xA8] then ascii "\\u2028" ++ escapeText (n - 1) false s
          else if (c :: s).take 3 = [0xE2, 0x80, 0xA9] then
            ascii "\\u2029" ++ escapeText (n - 1) false s
          else c :: escapeText (n - 1) true s

/-- A JSON string. -/
def quoteJSON (s : Str) : Str := 0x22 :: escapeText 0 true s ++ [0x22]

/-- The body POSTed to a webhook. -/
structure Payload where
  action : Str
  project : Str
  env : Str
  key : Str
  version : Int
  timestamp : Int

/-- `Payload.Marshal`; the version is left out when it is zero. -/
def Payload.marshal (p : Payload) : Str :=
  ascii "\x7b\"action\":" ++ quoteJSON p.action ++
    ascii ",\"project\":" ++ quoteJSON p.project ++
    ascii ",\"env\":" ++ quoteJSON p.env ++
    ascii ",\"key\":" ++ quoteJSON p.key ++
    (if p.version = 0 then [] else ascii ",\"version\":" ++ formatInt p.version) ++
    ascii ",\"timestamp\":" ++ formatInt p.timestamp ++ ascii "\x7d"

example : (Payload.mk (ascii "secret.delete") (ascii "p") (ascii "e") (ascii "a<b") 0 7).marshal =
    ascii ("\x7b\"action\":\"secret.delete\",\"project\":\"p\",\"env\":\"e\"," ++
      "\"key\":\"a\\u003cb\",\"timestamp\":7\x7d") := by
  decide +kernel

end Comax.Webhook
