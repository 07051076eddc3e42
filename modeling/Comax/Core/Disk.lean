import Comax.Core.Crash
import Comax.Core.Text
import Mathlib.Logic.Function.Basic

/-!
# Files

Paths name files, links and directories, and a program works on them by calls that may
fail. `replaceFile` writes a file beside its target and renames it over the target; the
states that it passes through are described once, for every crash and every failure.
-/

namespace Comax.Core

/-- What a path names; a file has a mode. -/
inductive Node where
  | file (content : Str) (mode : ℕ)
  | symlink (target : Str)
  | dir
  deriving DecidableEq

/-- The paths that name something. -/
abbrev FileSystem := Str → Option Node

/-- What the operating system decides for a call. -/
structure Reply where
  fails : Bool
  /-- A failing write has written this many bytes. -/
  taken : ℕ
  /-- The name of a temporary file. -/
  name : Str
  /-- The mode of a temporary file. -/
  mode : ℕ

/-- A program on files. -/
abbrev DiskProg := Prog FileSystem Reply

/-- The mode of a file that only its owner reads and writes. -/
def ownerOnly : ℕ := 0o600

namespace Disk

variable {ε : Type}

/-- A call that does `f` where it can, and `g` when it fails. -/
def call {α : Type} (f : Reply → FileSystem → Option (α × FileSystem))
    (g : Reply → FileSystem → FileSystem) : DiskProg ε (Option α) :=
  .act fun o fs =>
    if o.fails then (.ok none, g o fs)
    else
      match f o fs with
      | some (a, fs') => (.ok (some a), fs')
      | none => (.ok none, fs)

/-- A file with more bytes at its end. -/
def append (fs : FileSystem) (path bytes : Str) : Option FileSystem :=
  match fs path with
  | some (.file t mode) => some (Function.update fs path (some (.file (t ++ bytes) mode)))
  | _ => none

/-- `os.Lstat` -/
def lstat (path : Str) : DiskProg ε (Option Node) :=
  call (fun _ fs => (fs path).map fun n => (n, fs)) fun _ fs => fs

/-- How many links are followed. -/
def maxLinks : ℕ := 40

/-- What a path names when `n` links may be followed: a path that names no link. -/
def locate (fs : FileSystem) : ℕ → Str → Option Str
  | 0, _ => none
  | n + 1, path =>
    match fs path with
    | some (.symlink target) => locate fs n target
    | _ => some path

/-- The path that a call which follows links works on. -/
def target (fs : FileSystem) (path : Str) : Option Str := locate fs (maxLinks + 1) path

/-- `os.IsPathSeparator` -/
def isPathSeparator (windows : Bool) (c : UInt8) : Bool :=
  c == byte '/' || windows && c == byte '\\'

/-- Whether a path ends in a name of its own: in no empty component, in no dots and not in a volume
of Windows. -/
def named (windows : Bool) (path : Str) : Bool :=
  let last := (path.reverse.takeWhile fun c => !isPathSeparator windows c).reverse
  last != [] && last != ascii "." && last != ascii ".." &&
    !(windows && last.getLast? == some (byte ':'))

/-- The directories above a path, the outermost first: each is named by what stands before a
separator. -/
def above (windows : Bool) (path : Str) : List Str :=
  path.inits.filter fun d =>
    (path.drop d.length).head?.any (isPathSeparator windows) && named windows d

example : above true (ascii "C:\\a/b\\.\\f") = [ascii "C:\\a", ascii "C:\\a/b"] := by
  decide +kernel

/-- Whether a path leads to a directory. -/
def isDir (fs : FileSystem) (path : Str) : Bool :=
  match target fs path with
  | none => false
  | some q => fs q == some .dir

/-- A directory where nothing is. -/
def makeDir (fs : FileSystem) (path : Str) : FileSystem :=
  if fs path = none then Function.update fs path (some .dir) else fs

/-- `os.MkdirAll` of `filepath.Dir`, for a path without `..`. The directories above the path that
are missing are made, the outermost first, each under the name that the path has for it; when a call
fails, some of them are there. -/
def mkdirAll (windows : Bool) (path : Str) : DiskProg ε (Option Unit) :=
  call (fun _ fs =>
    if (above windows path).all fun d => fs d == none || isDir fs d then
      some ((), (above windows path).foldl makeDir fs)
    else none) fun o fs => ((above windows path).take o.taken).foldl makeDir fs

/-- A link that leads nowhere. -/
def Dangling (fs : FileSystem) (path : Str) : Prop :=
  (∃ t, fs path = some (.symlink t)) ∧ ∀ q, target fs path = some q → fs q = none

/-- What `os.ReadFile` finds at a path: `none` for nothing, and an error for what is no file. -/
def readFile (fs : FileSystem) (path : Str) : Except Unit (Option Str) :=
  match target fs path with
  | none => .error ()
  | some q =>
    match fs q with
    | none => .ok none
    | some (.file t _) => .ok (some t)
    | _ => .error ()

/-- Whether `os.Stat` finds something at a path. -/
def present (fs : FileSystem) (path : Str) : Bool :=
  match target fs path with
  | none => false
  | some q => (fs q).isSome

/-- What `os.Stat` says of a path. -/
inductive Stat
  | found (mode : ℕ)
  | missing
  | failed
  deriving DecidableEq

/-- `os.Stat`; the mode of a directory is decided by the outside. -/
def stat (path : Str) : DiskProg ε Stat :=
  .act fun o fs =>
    (.ok (if o.fails then .failed
      else
        match target fs path with
        | none => .failed
        | some q =>
          match fs q with
          | none => .missing
          | some (.file _ mode) => .found mode
          | _ => .found o.mode), fs)

/-- `os.ReadFile`, as a call. -/
def read (path : Str) : DiskProg ε (Option Str) :=
  call (fun _ fs =>
    match readFile fs path with
    | .ok (some t) => some (t, fs)
    | _ => none) fun _ fs => fs

/-- `os.CreateTemp`: a new file with a name that was not there. -/
def createTemp : DiskProg ε (Option Str) :=
  call (fun o fs =>
    if fs o.name = none then some (o.name, Function.update fs o.name (some (.file [] o.mode)))
    else none) fun _ fs => fs

/-- `os.Chmod` of a file. -/
def chmod (path : Str) (mode : ℕ) : DiskProg ε (Option Unit) :=
  call (fun _ fs =>
    match fs path with
    | some (.file t _) => some ((), Function.update fs path (some (.file t mode)))
    | _ => none) fun _ fs => fs

/-- A write to an open file. -/
def write (path bytes : Str) : DiskProg ε (Option Unit) :=
  call (fun _ fs => (append fs path bytes).map fun fs' => ((), fs'))
    fun o fs => (append fs path (bytes.take o.taken)).getD fs

/-- The closing of a file. -/
def close : DiskProg ε (Option Unit) := call (fun _ fs => some ((), fs)) fun _ fs => fs

/-- `os.OpenFile` that creates or empties a file; what it creates has the mode that is asked for, as
far as the outside lets it. -/
def openTrunc (path : Str) (perm : ℕ) : DiskProg ε (Option Str) :=
  call (fun o fs =>
    match target fs path with
    | none => none
    | some q =>
      match fs q with
      | none => some (q, Function.update fs q (some (.file [] (perm &&& o.mode))))
      | some (.file _ mode) => some (q, Function.update fs q (some (.file [] mode)))
      | _ => none) fun _ fs => fs

/-- `os.WriteFile`: whether it succeeds. -/
def writeFile (path bytes : Str) (perm : ℕ) : DiskProg ε Bool := do
  match ← openTrunc path perm with
  | none => return false
  | some q =>
    let wrote ← write q bytes
    let closed ← close
    return wrote.isSome && closed.isSome

/-- `os.Remove` -/
def remove (path : Str) : DiskProg ε (Option Unit) :=
  call (fun _ fs => if fs path = none then none else some ((), Function.update fs path none))
    fun _ fs => fs

/-- `os.Rename`: the new name names what the old one did. It replaces a link, not what it names. -/
def rename (old new : Str) : DiskProg ε (Option Unit) :=
  call (fun _ fs =>
    match fs old with
    | none => none
    | some n =>
      if fs new = some .dir then none
      else if old = new then some ((), fs)
      else some ((), Function.update (Function.update fs new (some n)) old none)) fun _ fs => fs

/-- The call that a replacement fails at. -/
inductive Step
  | createTemp
  | chmod
  | write
  | close
  | rename
  deriving DecidableEq

section

variable {α β : Type} {P E : FileSystem → Prop} {os : ℕ → Reply} {fs : FileSystem}

/-- A call and the rest of a program. -/
theorem along_call {f : Reply → FileSystem → Option (α × FileSystem)}
    {g : Reply → FileSystem → FileSystem} {k : Option α → DiskProg ε β}
    {Q : β → (ℕ → Reply) → FileSystem → Prop} (hfs : P fs)
    (hfail : (os 0).fails = true →
      (k none).Along P E (fun n => os (n + 1)) (g (os 0) fs) Q)
    (hnone : (os 0).fails = false → f (os 0) fs = none →
      (k none).Along P E (fun n => os (n + 1)) fs Q)
    (hsome : ∀ a fs', (os 0).fails = false → f (os 0) fs = some (a, fs') →
      (k (some a)).Along P E (fun n => os (n + 1)) fs' Q) :
    (call f g >>= k).Along P E os fs Q := by
  change (Prog.atomic _ k).Along P E os fs Q
  rw [Prog.Along]
  refine ⟨hfs, ?_⟩
  cases hf : (os 0).fails with
  | true => simpa only [hf, if_true] using hfail hf
  | false =>
    simp only [Bool.false_eq_true, if_false]
    cases hr : f (os 0) fs with
    | none => exact hnone hf hr
    | some r => exact hsome r.1 r.2 hf hr

end

/-! ## Making directories -/

/-- Directories above a path may be new. -/
def Made (windows : Bool) (path : Str) (fs fs' : FileSystem) : Prop :=
  ∀ q, fs' q = fs q ∨ q ∈ above windows path ∧ fs q = none ∧ fs' q = some .dir

section

variable {windows : Bool} {path : Str} {fs fs' fs'' : FileSystem}

/-- A path is not above itself. -/
theorem not_mem_above : path ∉ above windows path := by
  intro h
  rw [above, List.mem_filter, List.drop_length] at h
  cases h.2

theorem Made.refl : Made windows path fs fs := fun _ => .inl rfl

theorem Made.trans (h : Made windows path fs fs') (h' : Made windows path fs' fs'') :
    Made windows path fs fs'' := by
  intro q
  rcases h q with hq | ⟨hmem, hnone, hdir⟩
  · rw [← hq]
    exact h' q
  · refine .inr ⟨hmem, hnone, ?_⟩
    rcases h' q with hq' | ⟨-, hnone', -⟩
    · rw [hq', hdir]
    · rw [hdir] at hnone'
      cases hnone'

/-- What was there stays. -/
theorem Made.kept (h : Made windows path fs fs') {q : Str} (hq : fs q ≠ none) : fs' q = fs q := by
  rcases h q with hkept | ⟨-, hnone, -⟩
  · exact hkept
  · exact absurd hnone hq

/-- The path itself names what it named. -/
theorem Made.self (h : Made windows path fs fs') : fs' path = fs path := by
  rcases h path with hkept | ⟨hmem, -, -⟩
  · exact hkept
  · exact absurd hmem not_mem_above

theorem made_foldl {ds : List Str} (hds : ds ⊆ above windows path) :
    Made windows path fs (ds.foldl makeDir fs) := by
  induction ds generalizing fs with
  | nil => exact Made.refl
  | cons d ds ih =>
    rw [List.cons_subset] at hds
    have hfirst : Made windows path fs (makeDir fs d) := by
      intro q
      rw [makeDir]
      split_ifs with hnone
      · by_cases hq : q = d
        · rw [hq, Function.update_self]
          exact .inr ⟨hds.1, hnone, rfl⟩
        · rw [Function.update_of_ne hq]
          exact .inl rfl
      · exact .inl rfl
    exact hfirst.trans (ih hds.2)

/-- The making of the directories above a path and the rest of a program. -/
theorem along_mkdirAll {ε α : Type} {P E : FileSystem → Prop} {os : ℕ → Reply}
    {k : Option Unit → DiskProg ε α} {Q : α → (ℕ → Reply) → FileSystem → Prop} (hfs : P fs)
    (hnone : ∀ fs', Made windows path fs fs' → (k none).Along P E (fun n => os (n + 1)) fs' Q)
    (hmade : ∀ fs', Made windows path fs fs' →
      (k (some ())).Along P E (fun n => os (n + 1)) fs' Q) :
    (mkdirAll windows path >>= k).Along P E os fs Q := by
  refine along_call hfs (fun _ => hnone _ (made_foldl (List.take_subset _ _)))
    (fun _ _ => hnone fs Made.refl) fun _ fs' _ hsome => ?_
  split_ifs at hsome
  cases hsome
  exact hmade _ (made_foldl (List.Subset.refl _))

end

/-! ## Writing a file -/

/-- A path leads where it led when the links on the way are kept. -/
theorem locate_of_kept {fs fs' : FileSystem} {n : ℕ} {path q : Str}
    (h : locate fs n path = some q) (hkept : ∀ p, p ≠ q → fs p ≠ none → fs' p = fs p)
    (hlink : ∀ t, fs' q ≠ some (.symlink t)) : locate fs' n path = some q := by
  induction n generalizing path with
  | zero => cases h
  | succ n ih =>
    by_cases hpath : path = q
    · rw [locate, hpath]
      split
      · rename_i t ht
        exact absurd ht (hlink t)
      · rfl
    · rw [locate] at h
      split at h
      · rename_i t ht
        have hsame : fs' path = some (.symlink t) := by
          rw [hkept path hpath (by simp [ht]), ht]
        rw [locate, hsame]
        exact ih h
      · exact absurd (Option.some.inj h) hpath

/-- A path leads to no link. -/
theorem target_not_link {fs : FileSystem} {path q : Str} (h : target fs path = some q) :
    ∀ t, fs q ≠ some (.symlink t) := by
  rw [target] at h
  generalize maxLinks + 1 = n at h
  induction n generalizing path with
  | zero => cases h
  | succ n ih =>
    rw [locate] at h
    split at h
    · exact ih h
    · rename_i hlink
      cases h
      exact hlink

/-- A new file is where its path was. -/
theorem locate_update_file {fs : FileSystem} {n : ℕ} {path q t : Str} {mode : ℕ}
    (h : locate fs n path = some q) :
    locate (Function.update fs q (some (.file t mode))) n path = some q :=
  locate_of_kept h (fun _ hp _ => Function.update_of_ne hp _ _) fun _ => by
    rw [Function.update_self]
    simp

section

variable {ε : Type} {P E : FileSystem → Prop} {os : ℕ → Reply} {fs : FileSystem}

/-- What the writing of a new file passes through. -/
theorem along_writeFile {path bytes q : Str} {perm : ℕ} (hq : target fs path = some q)
    (hn : fs q = none) (hfs : P fs)
    (hnew : ∀ t mode, t <+: bytes → P (Function.update fs q (some (.file t mode)))) :
    (writeFile path bytes perm : DiskProg ε Bool).Along P E os fs fun ok _ fs' => P fs' ∧
      (ok = true → ∃ mode, fs' = Function.update fs q (some (.file bytes mode))) := by
  refine along_call hfs (fun _ => ⟨hfs, hfs, fun h => by cases h⟩)
    (fun _ _ => ⟨hfs, hfs, fun h => by cases h⟩) fun a fs' _ hsome => ?_
  simp only [hq, hn, Option.some.injEq, Prod.mk.injEq] at hsome
  obtain ⟨rfl, rfl⟩ := hsome
  generalize perm &&& (os 0).mode = mode
  refine along_call (hnew [] mode List.nil_prefix) (fun _ => ?_) (fun _ hnone => ?_)
    fun _ fs' _ hsome => ?_
  · rw [append, Function.update_self, Option.getD_some, List.nil_append, Function.update_idem]
    have hpart : P (Function.update fs q (some (.file (bytes.take (os 1).taken) mode))) :=
      hnew _ mode (List.take_prefix _ _)
    refine along_call hpart (fun _ => ⟨hpart, hpart, fun h => by cases h⟩)
      (fun _ hnone => by cases hnone) fun _ fs' _ hsome => ?_
    cases hsome
    exact ⟨hpart, hpart, fun h => by cases h⟩
  · rw [append, Function.update_self] at hnone
    cases hnone
  · rw [append, Function.update_self] at hsome
    cases hsome
    rw [List.nil_append, Function.update_idem]
    have hall : P (Function.update fs q (some (.file bytes mode))) := hnew _ mode List.prefix_rfl
    refine along_call hall (fun _ => ⟨hall, hall, fun _ => ⟨mode, rfl⟩⟩)
      (fun _ hnone => by cases hnone) fun _ fs' _ hsome => ?_
    cases hsome
    exact ⟨hall, hall, fun _ => ⟨mode, rfl⟩⟩

end

/-! ## Replacing a file -/

/-- Give up: the temporary file is removed. -/
def abandon (tmp : Str) (r : ε) : DiskProg ε Unit := do
  let _ ← remove tmp
  .exit r

/-- The last part of a replacement; a previous file is removed first on Windows. -/
def place (windows : Bool) (refuse : Step → ε) (tmp path : Str) : DiskProg ε Unit := do
  if windows then
    let _ ← remove path
  match ← rename tmp path with
  | none => abandon tmp (refuse .rename)
  | some () => return ()

/-- Write a file beside `path` and rename it to `path`. The temporary file gets the mode `ownerOnly`
when `chmods` says so. -/
def replaceFile (windows chmods : Bool) (refuse : Step → ε) (path content : Str) :
    DiskProg ε Unit := do
  match ← createTemp with
  | none => .exit (refuse .createTemp)
  | some tmp =>
    match ← (if chmods then chmod tmp ownerOnly else pure (some ())) with
    | none =>
      let _ ← close
      abandon tmp (refuse .chmod)
    | some () =>
      match ← write tmp content with
      | none =>
        let _ ← close
        abandon tmp (refuse .write)
      | some () =>
        match ← close with
        | none => abandon tmp (refuse .close)
        | some () => place windows refuse tmp path

/-- Between the start and the end of a replacement. -/
structure Between (windows chmods : Bool) (path content : Str) (fs fs' : FileSystem) : Prop where
  /-- Nothing else that was there has changed. -/
  others : ∀ q, q ≠ path → fs q ≠ none → fs' q = fs q
  /-- The target is as it was, or new and complete; on Windows it may be gone. -/
  target : fs' path = fs path ∨ (windows = true ∧ fs' path = none) ∨
    ∃ mode, (chmods = true → mode = ownerOnly) ∧ fs' path = some (.file content mode)
  /-- What is new is a file with a part of the content, that its owner alone can read. -/
  fresh : ∀ q, fs q = none → fs' q ≠ none → ∃ t mode, fs' q = some (.file t mode) ∧
    t <+: content ∧ (chmods = true → t ≠ [] → mode = ownerOnly)

/-- At most one call fails. -/
def OneFails (os : ℕ → Reply) : Prop :=
  ∀ i j, (os i).fails = true → (os j).fails = true → i = j

/-- What a replacement has done when it returns. -/
def Replaced (chmods : Bool) (path content : Str) (fs fs' : FileSystem) : Prop :=
  ∃ mode, (chmods = true → mode = ownerOnly) ∧
    fs' = Function.update fs path (some (.file content mode))

section

variable {windows chmods : Bool} {path content tmp : Str} {fs base : FileSystem}

/-- The files without the temporary file: as they were, or on Windows without the target. -/
def Base (windows : Bool) (path : Str) (fs base : FileSystem) : Prop :=
  base = fs ∨ windows = true ∧ base = Function.update fs path none

theorem between_base (h : Base windows path fs base) :
    Between windows chmods path content fs base := by
  rcases h with rfl | ⟨hwin, rfl⟩
  · exact ⟨fun _ _ _ => rfl, .inl rfl, fun q hq hq' => absurd hq hq'⟩
  · refine ⟨fun q hq _ => Function.update_of_ne hq _ _, .inr (.inl ⟨hwin, Function.update_self ..⟩),
      fun q hq hq' => ?_⟩
    by_cases hpath : q = path
    · rw [hpath, Function.update_self] at hq'
      exact absurd rfl hq'
    · rw [Function.update_of_ne hpath] at hq'
      exact absurd hq hq'

/-- The base beside its temporary file. -/
theorem between_temp (h : Base windows path fs base) (htmp : fs tmp = none) (hne : tmp ≠ path)
    {t : Str} {mode : ℕ} (ht : t <+: content) (hmode : chmods = true → t ≠ [] → mode = ownerOnly) :
    Between windows chmods path content fs (Function.update base tmp (some (.file t mode))) := by
  have hb : Between windows chmods path content fs base := between_base h
  refine ⟨fun q hq hfs => ?_, ?_, fun q hq hq' => ?_⟩
  · have hqt : q ≠ tmp := by
      rintro rfl
      exact hfs htmp
    rw [Function.update_of_ne hqt]
    exact hb.others q hq hfs
  · rw [Function.update_of_ne hne.symm]
    exact hb.target
  · by_cases hqt : q = tmp
    · rw [hqt, Function.update_self]
      exact ⟨t, mode, rfl, ht, hmode⟩
    · rw [Function.update_of_ne hqt] at hq' ⊢
      exact hb.fresh q hq hq'

/-- The new file in the place of the target. -/
theorem between_replaced (h : Replaced chmods path content fs base) :
    Between windows chmods path content fs base := by
  obtain ⟨mode, hmode, rfl⟩ := h
  refine ⟨fun q hq _ => Function.update_of_ne hq _ _,
    .inr (.inr ⟨mode, hmode, Function.update_self ..⟩), fun q hq hq' => ?_⟩
  by_cases hpath : q = path
  · rw [hpath, Function.update_self]
    exact ⟨content, mode, rfl, List.prefix_rfl, fun hc _ => hmode hc⟩
  · rw [Function.update_of_ne hpath] at hq'
    exact absurd hq hq'

variable {ε : Type} {os : ℕ → Reply} {r : ε} {t : Str} {mode : ℕ}

/-- A later part of a run with one failure. -/
theorem OneFails.tail (h : OneFails os) : OneFails fun n => os (n + 1) :=
  fun i j hi hj => Nat.succ_injective (h (i + 1) (j + 1) hi hj)

/-- After the failure nothing fails. -/
theorem OneFails.after (h : OneFails os) (h0 : (os 0).fails = true) (n : ℕ) :
    (os (n + 1)).fails = false := by
  cases hn : (os (n + 1)).fails with
  | false => rfl
  | true => cases h 0 (n + 1) h0 hn

variable {C : Prop} {Q : Unit → (ℕ → Reply) → FileSystem → Prop} {refuse : Step → ε}

/-- The temporary file is not part of the base. -/
theorem Base.temp (h : Base windows path fs base) (htmp : fs tmp = none) (hne : tmp ≠ path) :
    Function.update base tmp none = base := by
  have hnone : base tmp = none := by
    rcases h with rfl | ⟨-, rfl⟩
    · exact htmp
    · rwa [Function.update_of_ne hne]
  rw [← hnone, Function.update_eq_self]

/-- Giving up removes the temporary file. -/
theorem along_abandon (hb : Base windows path fs base) (htmp : fs tmp = none) (hne : tmp ≠ path)
    (ht : t <+: content) (hmode : chmods = true → t ≠ [] → mode = ownerOnly)
    (hC : C → (os 0).fails = false) :
    (abandon tmp r).Along (Between windows chmods path content fs)
      (fun s => C → Base windows path fs s) os
      (Function.update base tmp (some (.file t mode))) Q := by
  have hhere : Between windows chmods path content fs _ := between_temp hb htmp hne ht hmode
  have hthere : Function.update base tmp (some (.file t mode)) tmp ≠ none := by simp
  refine along_call hhere (fun hf => ?_) (fun _ hnone => ?_) fun a fs' _ hsome => ?_
  · refine ⟨hhere, fun hc => ?_⟩
    rw [hC hc] at hf
    cases hf
  · rw [if_neg hthere] at hnone
    cases hnone
  · rw [if_neg hthere] at hsome
    cases hsome
    rw [Function.update_idem, hb.temp htmp hne]
    exact ⟨between_base hb, fun _ => hb⟩

/-- The rename puts the complete file in the place of the target. -/
theorem along_rename (hb : Base windows path fs base) (htmp : fs tmp = none) (hne : tmp ≠ path)
    (hmode : chmods = true → mode = ownerOnly) (hC : C → OneFails os)
    (hdir : C → fs path ≠ some .dir) :
    (do match ← rename tmp path with
        | none => abandon tmp r
        | some () => return () : DiskProg ε Unit).Along (Between windows chmods path content fs)
      (fun s => C → Base windows path fs s) os
      (Function.update base tmp (some (.file content mode)))
      fun _ _ s => Replaced chmods path content fs s := by
  have hmode' : chmods = true → content ≠ [] → mode = ownerOnly := fun hc _ => hmode hc
  have hhere : Between windows chmods path content fs _ :=
    between_temp hb htmp hne List.prefix_rfl hmode'
  refine along_call hhere (fun hf => ?_) (fun hf hnone => ?_) fun a fs' hf hsome => ?_
  · exact along_abandon hb htmp hne List.prefix_rfl hmode' fun hc => (hC hc).after hf 0
  · -- Only a directory is in the way.
    refine along_abandon hb htmp hne List.prefix_rfl hmode' fun hc => ?_
    rw [Function.update_self] at hnone
    simp only [hne, if_false, ite_eq_left_iff, reduceCtorEq, imp_false, not_not] at hnone
    rw [Function.update_of_ne hne.symm] at hnone
    rcases hb with rfl | ⟨-, rfl⟩
    · exact absurd hnone (hdir hc)
    · rw [Function.update_self] at hnone
      cases hnone
  · rw [Function.update_self] at hsome
    simp only [hne, if_false] at hsome
    split_ifs at hsome
    cases hsome
    have hreplaced : Replaced chmods path content fs (Function.update (Function.update
        (Function.update base tmp (some (.file content mode))) path (some (.file content mode)))
          tmp none) := by
      refine ⟨mode, hmode, ?_⟩
      rw [Function.update_comm hne.symm, Function.update_idem, hb.temp htmp hne]
      rcases hb with rfl | ⟨-, rfl⟩
      · rfl
      · exact Function.update_idem _ _ _
    exact ⟨between_replaced hreplaced, hreplaced⟩

/-- The last part of a replacement, when the temporary file is complete. -/
theorem along_place (htmp : fs tmp = none) (hne : tmp ≠ path)
    (hmode : chmods = true → mode = ownerOnly) (hC : C → OneFails os)
    (hdir : C → fs path ≠ some .dir) :
    (place windows refuse tmp path).Along (Between windows chmods path content fs)
      (fun s => C → Base windows path fs s) os
      (Function.update fs tmp (some (.file content mode)))
      fun _ _ s => Replaced chmods path content fs s := by
  cases windows with
  | false => exact along_rename (.inl rfl) htmp hne hmode hC hdir
  | true =>
    have hmode' : chmods = true → content ≠ [] → mode = ownerOnly := fun hc _ => hmode hc
    have hC' : C → OneFails fun n => os (n + 1) := fun hc => (hC hc).tail
    refine along_call (between_temp (.inl rfl) htmp hne List.prefix_rfl hmode') (fun _ => ?_)
      (fun _ _ => ?_) fun a fs' _ hsome => ?_
    · exact along_rename (.inl rfl) htmp hne hmode hC' hdir
    · exact along_rename (.inl rfl) htmp hne hmode hC' hdir
    · split_ifs at hsome
      cases hsome
      rw [Function.update_comm hne]
      exact along_rename (.inr ⟨rfl, rfl⟩) htmp hne hmode hC' hdir

/-- Giving up before the file is closed. -/
theorem along_giveUp (htmp : fs tmp = none) (hne : tmp ≠ path) (ht : t <+: content)
    (hmode : chmods = true → t ≠ [] → mode = ownerOnly) (hC : C → (os 1).fails = false) :
    (do let _ ← close; abandon tmp r : DiskProg ε Unit).Along
      (Between windows chmods path content fs) (fun s => C → Base windows path fs s) os
      (Function.update fs tmp (some (.file t mode)))
      fun _ _ s => Replaced chmods path content fs s := by
  have hdrop : (abandon tmp r).Along (Between windows chmods path content fs)
      (fun s => C → Base windows path fs s) (fun n => os (n + 1))
      (Function.update fs tmp (some (.file t mode)))
      fun _ _ s => Replaced chmods path content fs s :=
    along_abandon (.inl rfl) htmp hne ht hmode hC
  refine along_call (between_temp (.inl rfl) htmp hne ht hmode) (fun _ => hdrop)
    (fun _ hnone => by cases hnone) fun a fs' _ hsome => ?_
  cases hsome
  exact hdrop

/-- Writing the content and what follows, when the temporary file has its mode. -/
theorem along_written (htmp : fs tmp = none) (hne : tmp ≠ path)
    (hmode : chmods = true → mode = ownerOnly) (hC : C → OneFails os)
    (hdir : C → fs path ≠ some .dir) :
    (do match ← write tmp content with
        | none =>
          let _ ← close
          abandon tmp (refuse .write)
        | some () =>
          match ← close with
          | none => abandon tmp (refuse .close)
          | some () => place windows refuse tmp path : DiskProg ε Unit).Along
      (Between windows chmods path content fs) (fun s => C → Base windows path fs s) os
      (Function.update fs tmp (some (.file [] mode)))
      fun _ _ s => Replaced chmods path content fs s := by
  have hbase : Base windows path fs fs := .inl rfl
  refine along_call (between_temp hbase htmp hne (List.nil_prefix) fun _ h => absurd rfl h)
    (fun hf => ?_) (fun _ hnone => ?_) fun a fs' _ hsome => ?_
  · rw [append, Function.update_self, Option.getD_some, List.nil_append, Function.update_idem]
    exact along_giveUp htmp hne (List.take_prefix _ _) (fun hc _ => hmode hc) fun hc =>
      (hC hc).after hf 1
  · rw [append, Function.update_self] at hnone
    cases hnone
  · rw [append, Function.update_self] at hsome
    cases hsome
    rw [List.nil_append, Function.update_idem]
    have hC' : C → OneFails fun n => os (n + 1) := fun hc => (hC hc).tail
    refine along_call (between_temp hbase htmp hne List.prefix_rfl fun hc _ => hmode hc)
      (fun hf => ?_) (fun _ hnone => by cases hnone) fun a fs' _ hsome => ?_
    · exact along_abandon hbase htmp hne List.prefix_rfl (fun hc _ => hmode hc) fun hc =>
        (hC' hc).after hf 0
    · cases hsome
      exact along_place htmp hne hmode (fun hc => (hC' hc).tail) hdir

/-- A replacement: what it passes through, what it leaves when it fails, and what it has done when
it returns. -/
theorem along_replaceFile (hname : ∀ i, (os i).name ≠ path) (hC : C → OneFails os)
    (hdir : C → fs path ≠ some .dir) :
    (replaceFile windows chmods refuse path content).Along
      (Between windows chmods path content fs) (fun s => C → Base windows path fs s) os fs
      fun _ _ s => Replaced chmods path content fs s := by
  have hstart : Between windows chmods path content fs fs := between_base (.inl rfl)
  have hC' : C → OneFails fun n => os (n + 1) := fun hc => (hC hc).tail
  refine along_call hstart (fun _ => ⟨hstart, fun _ => .inl rfl⟩)
    (fun _ _ => ⟨hstart, fun _ => .inl rfl⟩) fun tmp fs' _ hsome => ?_
  split_ifs at hsome with htmp
  cases hsome
  have hne : (os 0).name ≠ path := hname 0
  cases chmods with
  | false => exact along_written htmp hne (fun hc => by cases hc) hC' hdir
  | true =>
    have hempty : Between windows true path content fs
        (Function.update fs (os 0).name (some (.file [] (os 0).mode))) :=
      between_temp (.inl rfl) htmp hne List.nil_prefix fun _ h => absurd rfl h
    refine along_call hempty (fun hf => ?_) (fun _ hnone => ?_) fun a fs' _ hsome => ?_
    · exact along_giveUp htmp hne List.nil_prefix (fun _ h => absurd rfl h) fun hc =>
        (hC' hc).after hf 1
    · rw [Function.update_self] at hnone
      cases hnone
    · rw [Function.update_self] at hsome
      cases hsome
      rw [Function.update_idem]
      exact along_written htmp hne (fun _ => rfl) (fun hc => (hC' hc).tail) hdir

end

end Disk

end Comax.Core
