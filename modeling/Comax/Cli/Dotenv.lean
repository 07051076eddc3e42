import Comax.Core.Text
import Mathlib.Data.List.DropRight
import Mathlib.Data.List.Sort

/-!
# The `.env` parser and emitter

`Parse` scans lines with a default `bufio.Scanner`, trims Unicode white space around
each of them and reads a quoted or a bare value; `Emit` writes the entries in key
order and quotes the values that hold one of nine bytes.
-/

namespace Comax.Cli

/-- The byte of a double quote. -/
def doubleQuote : UInt8 := 0x22

/-- The byte of a single quote. -/
def singleQuote : UInt8 := 0x27

/-- The byte of a backslash. -/
def backslash : UInt8 := 0x5C

/-- One parsed pair and its line, counted from one. -/
structure Entry where
  /-- `Line` -/
  line : ℕ
  /-- `Key` -/
  key : Str
  /-- `Value` -/
  value : Str
  deriving DecidableEq

/-- How a quoted value fails. -/
inductive QuoteError
  /-- `unterminated double-quoted string` -/
  | unterminatedDouble
  /-- `unterminated single-quoted string` -/
  | unterminatedSingle
  deriving DecidableEq

/-- How a parse fails. -/
inductive ParseError
  /-- `dotenv: line %d: missing '=' (%q)` -/
  | missingEquals (lineNo : ℕ) (line : Str)
  /-- `dotenv: line %d: invalid key %q` -/
  | invalidKey (lineNo : ℕ) (key : Str)
  /-- `dotenv: line %d: %w` -/
  | quoting (lineNo : ℕ) (err : QuoteError)
  /-- `dotenv: read: %w`, of `bufio.Scanner: token too long` -/
  | read
  deriving DecidableEq

/-- `bufio.MaxScanTokenSize` -/
def maxScanTokenSize : ℕ := 64 * 1024

/-- The lines between line feeds; what follows the last one counts unless it is empty. -/
def rawLines (s : Str) : List Str :=
  let lines := s.splitOn (byte '\n')
  if lines.getLast? = some [] then lines.dropLast else lines

/-- `bufio.ScanLines` drops one carriage return at the end of a line. -/
def dropCR (line : Str) : Str :=
  if line.getLast? = some (byte '\r') then line.dropLast else line

/-- The tokens of `Scanner.Scan`, and whether it stops at a line that its buffer cannot hold. -/
def scan (s : Str) : List Str × Bool :=
  let lines := rawLines s
  let tokens := lines.takeWhile fun line => decide (line.length < maxScanTokenSize)
  (tokens.map dropCR, decide (tokens.length < lines.length))

/-- `strings.HasPrefix` -/
def hasPrefix (s p : Str) : Bool := p.isPrefixOf s

/-- `strings.TrimPrefix` -/
def trimPrefix (s p : Str) : Str := if hasPrefix s p then s.drop p.length else s

/-- `strings.IndexByte` -/
def indexByte (s : Str) (c : UInt8) : Option ℕ := s.findIdx? (· == c)

/-- A blank or a tab, the cut set of the two trims of a value. -/
def isBlank (c : UInt8) : Bool := c == byte ' ' || c == byte '\t'

/-- A letter or an underscore. -/
def isLetter (c : UInt8) : Bool :=
  (byte 'a' ≤ c && c ≤ byte 'z') || (byte 'A' ≤ c && c ≤ byte 'Z') || c == byte '_'

/-- `validKey`: the accepted runes are ASCII, so the bytes decide. -/
def validKey (k : Str) : Bool :=
  !k.isEmpty && k.zipIdx.all fun p => isLetter p.1 || (isDigit p.1 && p.2 != 0)

/-- What an escape stands for; an unknown one is kept as it is. -/
def unescape (c : UInt8) : Str :=
  if c = byte 'n' then [byte '\n']
  else if c = byte 't' then [byte '\t']
  else if c = byte 'r' then [byte '\r']
  else if c = backslash then [backslash]
  else if c = doubleQuote then [doubleQuote]
  else [backslash, c]

/-- `parseDoubleQuoted`, from the byte after the opening quote. -/
def parseDoubleQuoted : Str → Except QuoteError Str
  | [] => .error .unterminatedDouble
  | [c] => if c = doubleQuote then .ok [] else .error .unterminatedDouble
  | c :: d :: rest =>
    if c = doubleQuote then .ok []
    else if c = backslash then (unescape d ++ ·) <$> parseDoubleQuoted rest
    else (c :: ·) <$> parseDoubleQuoted (d :: rest)

/-- `parseSingleQuoted`, from the byte after the opening quote. -/
def parseSingleQuoted (s : Str) : Except QuoteError Str :=
  match indexByte s singleQuote with
  | none => .error .unterminatedSingle
  | some stop => .ok (s.take stop)

/-- `parseBare` -/
def parseBare (s : Str) : Str :=
  let s := match indexByte s (byte '#') with
    | some idx => s.take idx
    | none => s
  s.rdropWhile isBlank

/-- `parseValue` -/
def parseValue (rest : Str) : Except QuoteError Str :=
  match rest with
  | [] => .ok []
  | c :: tail =>
    if c = doubleQuote then parseDoubleQuoted tail
    else if c = singleQuote then parseSingleQuoted tail
    else .ok (parseBare rest)

/-- `parseLine` -/
def parseLine (line : Str) (lineNo : ℕ) : Except ParseError Entry := do
  let trim := trimSpace line
  let trim :=
    if hasPrefix trim (ascii "export ") then
      trimSpace (trim.drop (ascii "export ").length)
    else trim
  match indexByte trim (byte '=') with
  | none | some 0 => throw (.missingEquals lineNo line)
  | some eq =>
    let key := trimSpace (trim.take eq)
    if !validKey key then throw (.invalidKey lineNo key)
    let rest := (trim.drop (eq + 1)).dropWhile isBlank
    let value ← (parseValue rest).mapError (.quoting lineNo)
    return ⟨lineNo, key, value⟩

/-- The UTF-8 byte order mark. -/
def byteOrderMark : Str := [0xEF, 0xBB, 0xBF]

/-- The loop of `Parse`, from a line number on. -/
def parseLines (lineNo : ℕ) : List Str → Except ParseError (List Entry)
  | [] => return []
  | line :: lines => do
    let line := if lineNo = 1 then trimPrefix line byteOrderMark else line
    let trim := trimSpace line
    if trim = [] || hasPrefix trim (ascii "#") then parseLines (lineNo + 1) lines
    else
      let entry ← parseLine line lineNo
      let entries ← parseLines (lineNo + 1) lines
      return entry :: entries

/-- `Parse` -/
def parse (r : Str) : Except ParseError (List Entry) := do
  let (lines, tooLong) := scan r
  let out ← parseLines 1 lines
  if tooLong then throw .read
  return out

/-- A map from keys to values, listed in some order. -/
structure Vars where
  /-- The pairs. -/
  entries : List (Str × Str)
  /-- A key has one value. -/
  nodup : (entries.map Prod.fst).Nodup

/-- The bytes that make `Emit` quote. -/
def needsQuotingByte (c : UInt8) : Bool :=
  c == byte ' ' || c == byte '\t' || c == byte '\n' || c == byte '\r' || c == doubleQuote ||
    c == singleQuote || c == byte '#' || c == backslash || c == byte '$'

/-- `needsQuoting` -/
def needsQuoting (v : Str) : Bool := v.any needsQuotingByte

/-- One byte between quotes. -/
def escapeByte (c : UInt8) : Str :=
  if c = backslash then [backslash, backslash]
  else if c = doubleQuote then [backslash, doubleQuote]
  else if c = byte '\n' then [backslash, byte 'n']
  else if c = byte '\t' then [backslash, byte 't']
  else if c = byte '\r' then [backslash, byte 'r']
  else [c]

/-- `formatValue` -/
def formatValue (v : Str) : Str :=
  if v = [] then []
  else if !needsQuoting v then v
  else doubleQuote :: (v.flatMap escapeByte ++ [doubleQuote])

/-- The line that `Emit` writes for one pair, without its line feed. -/
def emitLine (k v : Str) : Str := k ++ byte '=' :: formatValue v

/-- The keys in the order of `sort.Strings`. -/
def Vars.keys (m : Vars) : List Str := (m.entries.map Prod.fst).insertionSort (· ≤ ·)

/-- The value of a key. -/
def Vars.value (m : Vars) (k : Str) : Str := (m.entries.lookup k).getD []

/-- `Emit`, to a writer that does not fail. -/
def emit (m : Vars) : Str := m.keys.flatMap fun k => emitLine k (m.value k) ++ [byte '\n']

end Comax.Cli
