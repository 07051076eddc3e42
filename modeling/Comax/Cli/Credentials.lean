import Comax.Core.Disk
import Comax.Json.Value

/-!
# The credentials file

`secret login` writes the server and the token as a JSON object beside the file and
renames it. What any later command loads is the old or the new credentials, wherever
the writing stopped.
-/

namespace Comax.Cli

open Comax.Core Comax.Webhook

/-- The on-disk shape. -/
structure Credentials where
  server : Str
  token : Str
  deriving DecidableEq

namespace Credentials

/-- `foldName`: the upper-case letters of a name. Two other characters fold to a letter of the
names of the fields. -/
def foldName : Str → Str
  | 0xC5 :: 0xBF :: s => byte 'S' :: foldName s
  | 0xE2 :: 0x84 :: 0xAA :: s => byte 'K' :: foldName s
  | c :: s => (if byte 'a' ≤ c ∧ c ≤ byte 'z' then c - 0x20 else c) :: foldName s
  | [] => []

/-- The names of the fields. -/
def names : List Str := [ascii "server", ascii "token"]

/-- The field that a key of an object sets. -/
def fieldOf (key : Str) : Option Str :=
  if key ∈ names then some key else names.find? fun name => foldName name = foldName key

/-- A member of a string field; `null` leaves the field as it is. -/
def setString (old : Str) : Json.Value → Option Str
  | .str text => some text
  | .null => some old
  | _ => none

/-- A member of the object; a key of no field is ignored. -/
def setMember (c : Credentials) (m : Str × Json.Value) : Option Credentials :=
  match fieldOf m.1 with
  | none => some c
  | some name =>
    if name = ascii "server" then (setString c.server m.2).map fun s => { c with server := s }
    else (setString c.token m.2).map fun s => { c with token := s }

/-- `json.Unmarshal` -/
def unmarshal (raw : Str) : Option Credentials := do
  match ← Json.read raw with
  | .obj ms => ms.foldlM setMember ⟨[], []⟩
  | .null => some ⟨[], []⟩
  | _ => none

/-- How loading fails. -/
inductive LoadError
  /-- `ErrNotFound` -/
  | notFound
  | read
  | parse
  | required
  deriving DecidableEq

/-- `LoadFrom` -/
def loadFrom (path : Str) (fs : FileSystem) : Except LoadError Credentials :=
  match Disk.readFile fs path with
  | .error () => .error .read
  | .ok none => .error .notFound
  | .ok (some raw) =>
    match unmarshal raw with
    | none => .error .parse
    | some c => if c.server = [] ∨ c.token = [] then .error .required else .ok c

/-- The JSON value of credentials. -/
def json (c : Credentials) : Json.Value :=
  .obj [(ascii "server", .str c.server), (ascii "token", .str c.token)]

/-- What `SaveTo` writes: `json.MarshalIndent` and a newline. -/
def text (c : Credentials) : Str := Json.print Json.indented 0 c.json ++ [0x0A]

/-- How saving fails. -/
inductive SaveError
  | required
  | mkdir
  | step (s : Disk.Step)
  deriving DecidableEq

/-- `SaveTo`. The mode of the temporary file is set except on Windows. -/
def saveTo (windows : Bool) (path : Str) (c : Credentials) : DiskProg SaveError Unit := do
  if c.server = [] ∨ c.token = [] then .exit .required
  else
    match ← Disk.mkdirAll windows path with
    | none => .exit .mkdir
    | some () => Disk.replaceFile windows (!windows) .step path c.text

example : (Credentials.mk (ascii "http://h") (ascii "t<")).text =
    ascii ("\x7b\n  \"server\": \"http://h\",\n  \"token\": \"t\\u003c\"\n\x7d\n") := by
  decide +kernel

/-- The credentials as they are read back. -/
def coerced (c : Credentials) : Credentials := ⟨Json.coerced c.server, Json.coerced c.token⟩

/-- What is written is read back. -/
theorem unmarshal_text (c : Credentials) : unmarshal c.text = some c.coerced := by
  have hread : Json.read ([] ++ (Json.print Json.indented 0 c.json ++ [0x0A])) =
      some (Json.coerce c.json) := by
    refine Json.read_print _ ?_ ?_ (by simp) ?_
    · exact ⟨trivial, trivial, trivial⟩
    · simp [json, Json.depth, Json.depthMembers, Json.maxNestingDepth]
    · intro d hd
      rw [List.mem_singleton.mp hd]
      rfl
  rw [List.nil_append] at hread
  rw [unmarshal, text, hread]
  rfl

/-- Nothing becomes empty. -/
theorem coerced_eq_nil {s : Str} : Json.coerced s = [] ↔ s = [] := by
  constructor
  · intro h
    cases s with
    | nil => rfl
    | cons c s =>
      rw [Json.coerced, Json.coerceText] at h
      split_ifs at h
      split at h <;> cases h
  · rintro rfl
    rfl

/-- A file with what was written loads. -/
theorem loadFrom_text {path : Str} {fs : FileSystem} {c : Credentials} {mode : ℕ}
    (hserver : c.server ≠ []) (htoken : c.token ≠ [])
    (h : fs path = some (.file c.text mode)) : loadFrom path fs = .ok c.coerced := by
  have hread : Disk.readFile fs path = .ok (some c.text) := by
    rw [Disk.readFile, Disk.target, Disk.locate, h]
    simp only [h]
  have hneither : ¬(c.coerced.server = [] ∨ c.coerced.token = []) := by
    rw [not_or]
    exact ⟨fun he => hserver (coerced_eq_nil.mp he), fun he => htoken (coerced_eq_nil.mp he)⟩
  rw [loadFrom, hread]
  simp only [unmarshal_text, if_neg hneither]

/-- What is loaded depends on where the path leads and what is there. -/
theorem loadFrom_congr {path q : Str} {fs fs' : FileSystem} (h : Disk.target fs path = some q)
    (h' : Disk.target fs' path = some q) (hq : fs' q = fs q) :
    loadFrom path fs' = loadFrom path fs := by
  have hread : Disk.readFile fs' path = Disk.readFile fs path := by
    rw [Disk.readFile, Disk.readFile, h, h']
    simp only [hq]
  rw [loadFrom, loadFrom, hread]

/-- A path that is kept loads what it loaded, unless it is a link that leads nowhere. -/
theorem loadFrom_of_kept {path : Str} {fs fs' : FileSystem} (hpath : fs' path = fs path)
    (hkept : ∀ q, fs q ≠ none → fs' q = fs q) (hlink : ¬Disk.Dangling fs path) :
    loadFrom path fs' = loadFrom path fs := by
  by_cases hname : ∃ t, fs path = some (.symlink t)
  · rw [Disk.Dangling, not_and] at hlink
    obtain ⟨q, hq, hthere⟩ : ∃ q, Disk.target fs path = some q ∧ fs q ≠ none := by
      simpa using hlink hname
    have hsame : fs' q = fs q := hkept q hthere
    have hend : ∀ t, fs' q ≠ some (.symlink t) := by
      rw [hsame]
      exact Disk.target_not_link hq
    exact loadFrom_congr hq (Disk.locate_of_kept hq (fun p _ hp => hkept p hp) hend) hsame
  · have hstart : ∀ gs : FileSystem, gs path = fs path → Disk.target gs path = some path := by
      intro gs hgs
      rw [Disk.target, Disk.locate, hgs]
      split
      · rename_i t ht
        exact absurd ⟨t, ht⟩ hname
      · rfl
    exact loadFrom_congr (hstart fs rfl) (hstart fs' hpath) hpath

/-- The credentials stay as they are exactly if they are UTF-8. -/
theorem coerced_eq_self {c : Credentials} :
    c.coerced = c ↔ IsUtf8 c.server ∧ IsUtf8 c.token := by
  rw [← Json.coerced_eq_self_iff, ← Json.coerced_eq_self_iff]
  exact ⟨fun h => ⟨congrArg server h, congrArg token h⟩, fun ⟨hs, ht⟩ => by rw [coerced, hs, ht]⟩

section

variable (windows : Bool) {path : Str} (c : Credentials) {fs : FileSystem} {os : ℕ → Reply}
  {C : Prop}

/-- What saving passes through, what it leaves when it fails and what it has done. -/
theorem along_saveTo (hname : ∀ i, (os i).name ≠ path) (hC : C → Disk.OneFails os)
    (hdir : C → fs path ≠ some .dir) :
    (saveTo windows path c).Along
      (fun s => ∃ made, Disk.Made windows path fs made ∧
        Disk.Between windows (!windows) path c.text made s)
      (fun s => C → ∃ made, Disk.Made windows path fs made ∧ Disk.Base windows path made s) os fs
      fun _ _ s => c.server ≠ [] ∧ c.token ≠ [] ∧ ∃ made, Disk.Made windows path fs made ∧
        Disk.Replaced (!windows) path c.text made s := by
  have hbetween : ∀ made : FileSystem, Disk.Between windows (!windows) path c.text made made :=
    fun _ => Disk.between_base (.inl rfl)
  unfold saveTo
  split_ifs with hrequired
  · exact ⟨⟨fs, .refl, hbetween fs⟩, fun _ => ⟨fs, .refl, .inl rfl⟩⟩
  · rw [not_or] at hrequired
    refine Disk.along_mkdirAll ⟨fs, .refl, hbetween fs⟩
      (fun made hmade => ⟨⟨made, hmade, hbetween made⟩, fun _ => ⟨made, hmade, .inl rfl⟩⟩)
      fun made hmade => ?_
    have hreplace : (Disk.replaceFile windows (!windows) SaveError.step path c.text).Along
        (Disk.Between windows (!windows) path c.text made)
        (fun s => C → Disk.Base windows path made s) (fun n => os (n + 1)) made
        fun _ _ s => Disk.Replaced (!windows) path c.text made s :=
      Disk.along_replaceFile (fun i => hname (i + 1)) (fun hc => (hC hc).tail) fun hc => by
        rw [hmade.self]
        exact hdir hc
    refine (hreplace.weaken (fun s h => ⟨made, hmade, h⟩)
      fun s h hc => ⟨made, hmade, h hc⟩).mono ?_
    exact fun _ _ _ h => ⟨hrequired.1, hrequired.2, made, hmade, h⟩

end

end Credentials

end Comax.Cli
