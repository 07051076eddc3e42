import Comax.Core.Hex
import Comax.Core.Hoare
import Comax.Cli.RoundTrip

/-!
# The `$GITHUB_ENV` emitter

`Emit` writes to two sinks: one `::add-mask::` directive for each line of a value, and one
heredoc block for each key. A log keeps both in the order of the writes. The heredoc reader
is the one of the tests.
-/

namespace Comax.Cli.Ghenv

open Comax.Core

/-- What `rand.Read` fills the buffer of `randomDelimiter` with. -/
abbrev Draw := {b : Str // b.length = 16}

/-- What the outside decides while `Emit` runs. -/
structure Outside where
  /-- The answers of `rand.Read` in order; `none` is an error. -/
  draw : ℕ → Option Draw
  /-- The writes that fail, with the number of bytes written before the failure. -/
  short : ℕ → Option ℕ

/-- The two writers. -/
inductive Sink
  | mask
  | env
  deriving DecidableEq

/-- One write. -/
structure Write where
  sink : Sink
  text : Str
  deriving DecidableEq

/-- How `delimiterFor` fails. -/
inductive DelimiterError
  /-- `random delimiter: %w` -/
  | random
  /-- `could not find a collision-free delimiter after %d attempts` -/
  | collisions
  deriving DecidableEq

/-- How `Emit` fails. -/
inductive Failure
  /-- `ghenv: key %q contains a newline` -/
  | newline (key : Str)
  /-- `ghenv: mask %s: %w` -/
  | mask (key : Str)
  /-- `ghenv: %s: %w` -/
  | delimiter (key : Str) (err : DelimiterError)
  /-- `ghenv: emit %s: %w` -/
  | emit (key : Str)
  deriving DecidableEq

/-- The writes so far and the number of draws. -/
structure Output where
  log : List Write
  drawn : ℕ
  deriving DecidableEq

/-- What was written to one of the writers. -/
def Output.written (out : Output) (sink : Sink) : Str :=
  (out.log.filter fun w => w.sink = sink).flatMap Write.text

/-- A run of `Emit`; a failed one keeps what it wrote. -/
abbrev Emission := StateT Output (Except (Failure × Output))

/-- `return` of an error. -/
def refuse {α : Type} (e : Failure) : Emission α := fun out => .error (e, out)

/-- `fmt.Fprintf` -/
def fprintf (o : Outside) (sink : Sink) (text : Str) (e : Failure) : Emission Unit := fun out =>
  match o.short out.log.length with
  | none => .ok ((), { out with log := out.log ++ [⟨sink, text⟩] })
  | some n => .error (e, { out with log := out.log ++ [⟨sink, text.take n⟩] })

/-- The text of a delimiter. -/
def delimiterText (b : Draw) : Str := ascii "ghadelim_" ++ hexEncode b.val

/-- `randomDelimiter` -/
def randomDelimiter (o : Outside) (wrap : DelimiterError → Failure) : Emission Str := fun out =>
  match o.draw out.drawn with
  | none => .error (wrap .random, { out with drawn := out.drawn + 1 })
  | some b => .ok (delimiterText b, { out with drawn := out.drawn + 1 })

/-- `containsLine` -/
def containsLine (lines : List Str) (target : Str) : Bool := lines.any fun l => l = target

/-- `maxDelimiterAttempts` -/
def maxDelimiterAttempts : ℕ := 8

/-- The loop of `delimiterFor`, with the attempts that remain. -/
def attempts (o : Outside) (wrap : DelimiterError → Failure) (lines : List Str) : ℕ → Emission Str
  | 0 => refuse (wrap .collisions)
  | n + 1 => do
    let d ← randomDelimiter o wrap
    if !containsLine lines d then pure d else attempts o wrap lines n

/-- The lines of a value, `strings.Split(v, "\n")`. -/
abbrev linesOf (v : Str) : List Str := v.splitOn (byte '\n')

/-- `delimiterFor` -/
def delimiterFor (o : Outside) (wrap : DelimiterError → Failure) (value : Str) : Emission Str :=
  attempts o wrap (linesOf value) maxDelimiterAttempts

/-- The directive that registers a line. -/
def maskText (line : Str) : Str := ascii "::add-mask::" ++ (line ++ [byte '\n'])

/-- The heredoc block of a pair. -/
def heredocText (k delim v : Str) : Str :=
  k ++ (ascii "<<" ++ (delim ++ byte '\n' :: (v ++ byte '\n' :: (delim ++ [byte '\n']))))

/-- The mask loop of `Emit` over the lines of a value. -/
def maskLines (o : Outside) (k : Str) : List Str → Emission Unit
  | [] => pure ()
  | line :: lines => do
    if line ≠ [] then fprintf o .mask (maskText line) (.mask k)
    maskLines o k lines

/-- The body of the loop of `Emit`. -/
def emitKey (o : Outside) (k v : Str) : Emission Unit := do
  if k.any fun c => c == byte '\n' || c == byte '\r' then refuse (.newline k)
  maskLines o k (linesOf v)
  let delim ← delimiterFor o (.delimiter k) v
  fprintf o .env (heredocText k delim v) (.emit k)

/-- The loop of `Emit`. -/
def emitKeys (o : Outside) : List (Str × Str) → Emission Unit
  | [] => pure ()
  | p :: ps => do
    emitKey o p.1 p.2
    emitKeys o ps

/-- `Emit` -/
def emit (o : Outside) (entries : Vars) : Except (Failure × Output) Output :=
  Prod.snd <$> emitKeys o entries.written ⟨[], 0⟩

/-- How the reader of the tests fails. -/
inductive HeredocError
  /-- `malformed heredoc header: %q` -/
  | malformed (line : Str)
  /-- `unterminated heredoc for key %q (delim %q)` -/
  | unterminated (key delim : Str)
  deriving DecidableEq

/-- `strings.Index` -/
def index (sub : Str) : Str → Option ℕ
  | [] => if sub = [] then some 0 else none
  | c :: s => if sub.isPrefixOf (c :: s) then some 0 else (index sub s).map (· + 1)

/-- An open heredoc: its key, its delimiter and the lines read so far. -/
structure Opened where
  key : Str
  delim : Str
  body : List Str

/-- The loops of `parseHeredocs`, between blocks or inside of one. -/
def readBlocks : Option Opened → List Str → Except HeredocError (List (Str × Str))
  | none, [] => .ok []
  | none, line :: lines =>
    if line = [] then readBlocks none lines
    else
      match index (ascii "<<") line with
      | none => .error (.malformed line)
      | some idx => readBlocks (some ⟨line.take idx, line.drop (idx + 2), []⟩) lines
  | some h, [] => .error (.unterminated h.key h.delim)
  | some h, line :: lines =>
    if line = h.delim then
      ((h.key, [byte '\n'].intercalate h.body) :: ·) <$> readBlocks none lines
    else readBlocks (some { h with body := h.body ++ [line] }) lines

/-- `parseHeredocs`, with the pairs in the order in which they are read. -/
def parseHeredocs (s : Str) : Except HeredocError (List (Str × Str)) := readBlocks none (linesOf s)

end Comax.Cli.Ghenv
