import Comax.Secret.Reference
import Mathlib.Data.List.Dedup
import Mathlib.Data.List.Sort

/-!
# References in templates

The client's copy of the reference grammar, its sites in a template, and the rendering of a
template by snapshots of environments. `self` stands for the environment that is rendered.
-/

namespace Comax.Tmpl

open Comax.Core

/-- `pattern`, byte for byte the expression of `secret.ReferencePattern`. -/
def pattern : List (Atom UInt8) := Secret.referencePattern

/-- `Ref` -/
structure Ref where
  env : Str
  key : Str
  start : ℕ
  stop : ℕ
  deriving DecidableEq

/-- Read the two groups of a match of `tmpl`. -/
def Ref.ofMatch (tmpl : Str) (m : Match) : Ref :=
  match m.marks with
  | [a, b, c, d] => ⟨(tmpl.take b).drop a, (tmpl.take d).drop c, m.start, m.stop⟩
  | _ => ⟨[], [], m.start, m.stop⟩

/-- `References` -/
def references (tmpl : Str) : List Ref := (findAll pattern tmpl).map (Ref.ofMatch tmpl)

/-- `SelfEnv` -/
def selfEnv : Str := ascii "self"

namespace Ref

/-- `Ref.String` -/
def string (r : Ref) : Str := r.env ++ byte '.' :: r.key

/-- The environment of a reference, with `self` read as the current one. -/
def resolved (currentEnv : Str) (r : Ref) : Str := if r.env = selfEnv then currentEnv else r.env

end Ref

/-- `Envs` -/
def envs (tmpl currentEnv : Str) : List Str :=
  ((references tmpl).map (·.resolved currentEnv)).dedup.insertionSort (· ≤ ·)

/-- A map from environments to maps from keys to values. -/
abbrev Snapshots := Str → Option (Str → Option Str)

namespace Snapshots

variable (snapshots : Snapshots) (currentEnv : Str) (r : Ref)

/-- What `Render` looks up for a reference. -/
def find? : Option Str :=
  match snapshots (r.resolved currentEnv) with
  | none => none
  | some snap => snap r.key

/-- `snapshots[env][r.Key]`, which is empty where there is none. -/
def value : Str := (snapshots.find? currentEnv r).getD []

end Snapshots

/-- `joinRefs` -/
def joinRefs (refs : List Ref) : Str :=
  (ascii ", ").intercalate (refs.map fun r => ascii "$\x7b\x7b " ++ r.string ++ ascii " \x7d\x7d")

/-- The error for an environment named `self`. -/
def reservedError : Str :=
  ascii "tmpl: current env is \"self\", which is reserved as the current-env alias; rename the env"

/-- The error for missing references. -/
def unresolvedError (missing : List Ref) : Str :=
  ascii "tmpl: " ++ formatNat missing.length ++ ascii " unresolved reference(s): " ++
    joinRefs missing

/-- What `Render` returns. -/
structure Rendered where
  rendered : Str
  missing : List Ref
  err : Option Str
  deriving DecidableEq

/-- `Render` -/
def render (tmpl currentEnv : Str) (snapshots : Snapshots) : Rendered :=
  if currentEnv = selfEnv then ⟨[], [], some reservedError⟩
  else
    let refs := references tmpl
    if refs = [] then ⟨tmpl, [], none⟩
    else
      let missing := refs.filter fun r => (snapshots.find? currentEnv r).isNone
      if missing ≠ [] then ⟨[], missing, some (unresolvedError missing)⟩
      else
        -- The last reference first, so that the offsets of the others stay valid.
        let out := refs.foldr
          (fun r out => out.take r.start ++ snapshots.value currentEnv r ++ out.drop r.stop) tmpl
        ⟨out, [], none⟩

end Comax.Tmpl
