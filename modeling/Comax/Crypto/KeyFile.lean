import Comax.Core.Disk
import Comax.Crypto.Seal

/-!
# The master key file

The server makes a key when its file is missing and reads the file for every request. One
server at a time starts on a file; it may stop anywhere. A key that was read once is the
key of every later server.
-/

namespace Comax.Crypto

open Comax.Core

/-- The part of the configuration that the key file depends on. -/
structure KeyConfig where
  masterKeyPath : Str
  autoGenKey : Bool
  windows : Bool

/-- How the server fails before it serves. -/
inductive BootError
  | stat
  | missing
  | keyDir
  | write
  | load
  /-- `ErrInsecureKeyFile` -/
  | insecure
  deriving DecidableEq

/-- How `Key` fails. -/
inductive KeyError
  | read
  | size
  deriving DecidableEq

/-- `ensureMasterKey`, with the key that it draws. -/
def ensureMasterKey (cfg : KeyConfig) (raw : Str) : DiskProg BootError Unit := do
  match ← Disk.stat cfg.masterKeyPath with
  | .found _ => return ()
  | .failed => .exit .stat
  | .missing =>
    if !cfg.autoGenKey then .exit .missing
    else
      match ← Disk.mkdirAll cfg.windows cfg.masterKeyPath with
      | none => .exit .keyDir
      | some () =>
        if !(← Disk.writeFile cfg.masterKeyPath raw ownerOnly) then .exit .write
        else return ()

/-- `checkKeyFileMode` -/
def checkKeyFileMode (cfg : KeyConfig) (mode : ℕ) : DiskProg BootError Unit :=
  if cfg.windows then return ()
  else if mode ≠ ownerOnly then .exit .insecure
  else return ()

/-- `NewFileKeyProvider` -/
def newFileKeyProvider (cfg : KeyConfig) : DiskProg BootError Unit := do
  match ← Disk.stat cfg.masterKeyPath with
  | .found mode => checkKeyFileMode cfg mode
  | _ => .exit .load

/-- The start of the server, up to its key provider. -/
def boot (cfg : KeyConfig) (raw : Str) : DiskProg BootError Unit := do
  ensureMasterKey cfg raw
  newFileKeyProvider cfg

/-- `FileKeyProvider.Key` -/
def key (cfg : KeyConfig) : DiskProg KeyError Str := do
  match ← Disk.read cfg.masterKeyPath with
  | none => .exit .read
  | some raw => if raw.length ≠ keySize then .exit .size else return raw

/-- From one state of the files to another, servers start one after another and each stops
anywhere. -/
inductive Restarted (cfg : KeyConfig) : FileSystem → FileSystem → Prop
  | refl (fs : FileSystem) : Restarted cfg fs fs
  | boot {fs fs' fs'' : FileSystem} {raw : Str} {os : ℕ → Reply} (h : Restarted cfg fs fs')
      (hraw : raw.length = keySize) (hstop : fs'' ∈ (boot cfg raw).states os fs') :
      Restarted cfg fs fs''

/-- The path names something. -/
def Present (cfg : KeyConfig) (fs : FileSystem) : Prop :=
  ∀ q, Disk.target fs cfg.masterKeyPath = some q → fs q ≠ none

/-- Directories above the key file may be new. -/
abbrev Made (cfg : KeyConfig) (fs fs' : FileSystem) : Prop :=
  Disk.Made cfg.windows cfg.masterKeyPath fs fs'

/-- A new key file, whole or in part. -/
structure Created (cfg : KeyConfig) (fs fs' : FileSystem) (raw : Str) : Prop where
  size : raw.length = keySize
  file : ∃ made q t mode, Made cfg fs made ∧ Disk.target made cfg.masterKeyPath = some q ∧
    made q = none ∧ t <+: raw ∧ fs' = Function.update made q (some (.file t mode))

section

variable {cfg : KeyConfig} {raw : Str} {fs fs' : FileSystem} {os : ℕ → Reply}
  {P E : FileSystem → Prop} {Q : Unit → (ℕ → Reply) → FileSystem → Prop}

/-- A look at a path and the rest of a program. -/
theorem along_stat {ε α : Type} {path : Str} {k : Disk.Stat → DiskProg ε α}
    {R : α → (ℕ → Reply) → FileSystem → Prop} (hfs : P fs)
    (hfound : ∀ mode q n, Disk.target fs path = some q → fs q = some n →
      (∀ t m, n = .file t m → m = mode) → (k (.found mode)).Along P E (fun n => os (n + 1)) fs R)
    (hmissing : ∀ q, Disk.target fs path = some q → fs q = none →
      (k .missing).Along P E (fun n => os (n + 1)) fs R)
    (hfailed : (k .failed).Along P E (fun n => os (n + 1)) fs R) :
    (Disk.stat path >>= k).Along P E os fs R := by
  refine ⟨hfs, ?_⟩
  dsimp only
  split_ifs with hf
  · exact hfailed
  · cases ht : Disk.target fs path with
    | none => exact hfailed
    | some q =>
      cases hn : fs q with
      | none =>
        simp only [hn]
        exact hmissing q ht hn
      | some n =>
        cases n with
        | file t mode =>
          simp only [hn]
          exact hfound mode q _ ht hn fun t m h => by cases h; rfl
        | symlink t =>
          simp only [hn]
          exact hfound _ q _ ht hn fun t m h => by cases h
        | dir =>
          simp only [hn]
          exact hfound _ q _ ht hn fun t m h => by cases h

/-- The path names a file that only its owner reads and writes, or no file. -/
def Private (cfg : KeyConfig) (fs : FileSystem) : Prop :=
  cfg.windows = false → ∀ q t mode, Disk.target fs cfg.masterKeyPath = some q →
    fs q = some (.file t mode) → mode = ownerOnly

/-- The provider changes nothing; the file that it accepts is private. -/
theorem along_newFileKeyProvider (hfs : P fs) (he : E fs) :
    (newFileKeyProvider cfg).Along P E os fs fun _ _ fs' =>
      fs' = fs ∧ Present cfg fs ∧ Private cfg fs := by
  refine along_stat hfs (fun mode q n hq hn hmode => ?_) (fun _ _ _ => ⟨hfs, he⟩) ⟨hfs, he⟩
  have hpresent : Present cfg fs := by
    intro q' hq'
    rw [hq] at hq'
    cases hq'
    simp [hn]
  dsimp only [checkKeyFileMode]
  split_ifs with hwin hsecure
  · exact ⟨hfs, rfl, hpresent, fun h => by rw [hwin] at h; cases h⟩
  · exact ⟨hfs, he⟩
  · refine ⟨hfs, rfl, hpresent, fun _ q' t m hq' hfile => ?_⟩
    rw [hq] at hq'
    cases hq'
    rw [hn] at hfile
    cases hfile
    rw [hmode t m rfl]
    exact not_not.mp hsecure

/-- A start on a path that names something changes nothing. -/
theorem along_boot_present (hpresent : Present cfg fs) :
    (boot cfg raw).Along (· = fs) (fun _ => True) os fs fun _ _ fs' =>
      Present cfg fs' ∧ Private cfg fs' := by
  have hprovider : ∀ os', (newFileKeyProvider cfg).Along (· = fs) (fun _ => True) os' fs
      fun _ _ fs' => Present cfg fs' ∧ Private cfg fs' := by
    intro os'
    have h : (newFileKeyProvider cfg).Along (· = fs) (fun _ => True) os' fs
        fun _ _ fs' => fs' = fs ∧ Present cfg fs ∧ Private cfg fs :=
      along_newFileKeyProvider rfl trivial
    exact h.mono fun _ _ _ ⟨heq, hrest⟩ => heq ▸ hrest
  refine Prog.along_bind.mpr (along_stat rfl (fun _ _ _ _ _ _ => ⟨rfl, hprovider _⟩)
    (fun q hq hn => absurd hn (hpresent q hq)) ⟨rfl, trivial⟩)

/-- Where the path leads while directories are made. -/
theorem target_made {made : FileSystem} {q : Str} (hmade : Made cfg fs made)
    (hq : Disk.target fs cfg.masterKeyPath = some q) (hn : fs q = none) :
    Disk.target made cfg.masterKeyPath = some q ∧ (made q = none ∨ made q = some .dir) := by
  have hcases : made q = none ∨ made q = some .dir :=
    (hmade q).imp (fun hkept => hkept.trans hn) fun ⟨_, _, hdir⟩ => hdir
  refine ⟨Disk.locate_of_kept hq (fun p _ hp => hmade.kept hp) fun t => ?_, hcases⟩
  rcases hcases with hnone | hdir
  · simp [hnone]
  · simp [hdir]

/-- The writing of a key where nothing is, with the directories made. -/
theorem along_writeKey {made : FileSystem} {q : Str} (hraw : raw.length = keySize)
    (hmade : Made cfg fs made) (hq : Disk.target made cfg.masterKeyPath = some q)
    (hcases : made q = none ∨ made q = some .dir) {E : FileSystem → Prop} :
    (Disk.writeFile cfg.masterKeyPath raw ownerOnly : DiskProg BootError Bool).Along
      (fun fs' => Made cfg fs fs' ∨ Created cfg fs fs' raw) E os made
      fun _ _ fs' => Made cfg fs fs' ∨ Created cfg fs fs' raw := by
  rcases hcases with hn | hdir
  · refine (Disk.along_writeFile hq hn (.inl hmade) fun t mode ht =>
      .inr ⟨hraw, made, q, t, mode, hmade, hq, hn, ht, rfl⟩).mono fun ok os' fs' h => h.1
  · refine Disk.along_call (.inl hmade) (fun _ => ⟨.inl hmade, .inl hmade⟩)
      (fun _ _ => ⟨.inl hmade, .inl hmade⟩) fun _ fs' _ hsome => ?_
    simp only [hq, hdir] at hsome
    cases hsome

/-- A start on a path that names nothing makes a key or directories above it. -/
theorem along_boot_missing {q : Str} (hraw : raw.length = keySize)
    (hq : Disk.target fs cfg.masterKeyPath = some q) (hn : fs q = none) :
    (boot cfg raw).Along (fun fs' => Made cfg fs fs' ∨ Created cfg fs fs' raw) (fun _ => True) os
      fs fun _ _ fs' => Present cfg fs' ∧ Private cfg fs' := by
  have hstart : Made cfg fs fs ∨ Created cfg fs fs raw := .inl .refl
  have hprovider : ∀ os' fs', (Made cfg fs fs' ∨ Created cfg fs fs' raw) →
      (newFileKeyProvider cfg).Along (fun fs' => Made cfg fs fs' ∨ Created cfg fs fs' raw)
        (fun _ => True) os' fs' fun _ _ fs' => Present cfg fs' ∧ Private cfg fs' := by
    intro os' fs' hfs'
    have h : (newFileKeyProvider cfg).Along (fun fs' => Made cfg fs fs' ∨ Created cfg fs fs' raw)
        (fun _ => True) os' fs' fun _ _ fs'' => fs'' = fs' ∧ Present cfg fs' ∧ Private cfg fs' :=
      along_newFileKeyProvider hfs' trivial
    exact h.mono fun _ _ _ ⟨heq, hrest⟩ => heq ▸ hrest
  refine Prog.along_bind.mpr (along_stat hstart (fun _ q' n hq' hn' _ => ?_) (fun _ _ _ => ?_)
    ⟨hstart, trivial⟩)
  · rw [hq] at hq'
    cases hq'
    rw [hn] at hn'
    cases hn'
  · split_ifs
    · exact ⟨hstart, trivial⟩
    · refine Disk.along_mkdirAll hstart (fun made hmade => ⟨.inl hmade, trivial⟩)
        fun made hmade => ?_
      obtain ⟨hq', hcases⟩ := target_made hmade hq hn
      refine Prog.along_bind.mpr ((along_writeKey hraw hmade hq' hcases).mono
        fun ok os' fs' h => ?_)
      split_ifs
      · exact ⟨h, trivial⟩
      · exact ⟨h, hprovider _ _ h⟩

/-- What `Key` returns is the file, of the right size; nothing changes. -/
theorem key_outcome {k : Str} (h : (key cfg).outcome os fs = (.ok k, fs')) :
    fs' = fs ∧ k.length = keySize ∧ Disk.readFile fs cfg.masterKeyPath = .ok (some k) := by
  have halong : (key cfg).Along (fun _ => True) (fun _ => True) os fs fun k _ fs' =>
      fs' = fs ∧ k.length = keySize ∧ Disk.readFile fs cfg.masterKeyPath = .ok (some k) := by
    refine Disk.along_call trivial (fun _ => ⟨trivial, trivial⟩) (fun _ _ => ⟨trivial, trivial⟩)
      fun raw fs' _ hsome => ?_
    split at hsome
    · rename_i t hread
      cases hsome
      dsimp only
      split_ifs with hsize
      · exact ⟨trivial, trivial⟩
      · exact ⟨trivial, rfl, not_not.mp hsize, hread⟩
    · cases hsome
  exact (halong.outcome_ok h).choose_spec

/-- A path that is read names something. -/
theorem present_of_readFile {t : Str} (h : Disk.readFile fs cfg.masterKeyPath = .ok (some t)) :
    Present cfg fs := by
  intro q hq hn
  rw [Disk.readFile, hq] at h
  simp only [hn] at h
  cases h

/-- A new key file is there. -/
theorem Created.present (h : Created cfg fs fs' raw) : Present cfg fs' := by
  obtain ⟨made, q, t, mode, -, hq, -, -, rfl⟩ := h.file
  intro q' hq'
  rw [Disk.target, Disk.locate_update_file hq] at hq'
  cases hq'
  rw [Function.update_self]
  exact Option.some_ne_none _

/-- What is read from a new key file of the right size is the key that was drawn. -/
theorem Created.readFile_eq {k : Str} (h : Created cfg fs fs' raw) (hk : k.length = keySize)
    (hread : Disk.readFile fs' cfg.masterKeyPath = .ok (some k)) : k = raw := by
  obtain ⟨made, q, t, mode, -, hq, -, ht, rfl⟩ := h.file
  rw [Disk.readFile, Disk.target, Disk.locate_update_file hq] at hread
  simp only [Function.update_self, Except.ok.injEq, Option.some.injEq] at hread
  rw [← hread] at hk ⊢
  exact ht.eq_of_length (hk.trans h.size.symm)

/-- Restarts keep what the path names. -/
theorem Restarted.eq_of_present (hpresent : Present cfg fs) (h : Restarted cfg fs fs') :
    fs' = fs := by
  induction h with
  | refl => rfl
  | boot h hraw hstop ih =>
    rw [ih] at hstop
    exact (along_boot_present hpresent).of_mem_states hstop

/-- A key that is created where directories were made. -/
theorem Created.of_made (hmade : Made cfg fs fs') {fs'' : FileSystem}
    (h : Created cfg fs' fs'' raw) : Created cfg fs fs'' raw := by
  obtain ⟨made, q, t, mode, hmade', hq, hn, ht, hfs⟩ := h.file
  exact ⟨h.size, made, q, t, mode, hmade.trans hmade', hq, hn, ht, hfs⟩

/-- Restarts make a key once at most, and nothing else but directories above it. -/
theorem Restarted.cases_created (h : Restarted cfg fs fs') :
    Made cfg fs fs' ∨ ∃ raw, Created cfg fs fs' raw := by
  induction h with
  | refl => exact .inl .refl
  | @boot fs' fs'' raw os h hraw hstop ih =>
    rcases ih with hmade | ⟨raw', hcreated⟩
    · by_cases hpresent : Present cfg fs'
      · rw [(along_boot_present hpresent).of_mem_states hstop]
        exact .inl hmade
      · simp only [Present, not_forall, not_not] at hpresent
        obtain ⟨q, hq, hn⟩ := hpresent
        exact ((along_boot_missing hraw hq hn).of_mem_states hstop).imp hmade.trans
          fun hcreated => ⟨_, hcreated.of_made hmade⟩
    · rw [(along_boot_present hcreated.present).of_mem_states hstop]
      exact .inr ⟨raw', hcreated⟩

/-- The configuration of the example. -/
def exampleConfig : KeyConfig := ⟨ascii "d/k", true, false⟩

/-- Every call succeeds. -/
def exampleReplies : ℕ → Reply := fun _ => ⟨false, 0, [], ownerOnly⟩

/-- The files after the first start of the example. -/
def exampleFiles : FileSystem :=
  ((boot exampleConfig plainKey).outcome exampleReplies fun _ => none).2

end

end Comax.Crypto
