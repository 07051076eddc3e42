import Comax.Cli.Pull
import Comax.Core.Disk
import Comax.Core.ReplaceAll
import Comax.Tmpl.Render

/-!
# Rendering a template into a file

`secret render` fetches the environments that a template needs and writes the rendered text to a
path that git ignores. The path is checked before anything is fetched and again before
anything is written.
-/

namespace Comax.Cli.Render

open Comax.Core

/-- What `os.Stat` finds at the parent directory. -/
structure Parent where
  isDir : Bool
  worldWritable : Bool

/-- A run of git in the directory of a path. The path stands for its `filepath.Abs`. -/
structure GitCall where
  path : Str
  args : List Str
  deriving DecidableEq

/-- The files, the environments that the server was asked for, and the runs of git. -/
structure World where
  files : FileSystem
  sent : List Str
  git : List GitCall

/-- The world with other files. -/
def withFiles (fs : FileSystem) (w : World) : World := { w with files := fs }

/-- What the outside decides for a call. -/
structure Answer extends Reply where
  /-- `none` for an error of `os.Stat`. -/
  parent : Option Parent
  /-- The secrets of a response. -/
  secrets : List (Str × Str)
  /-- What others do to the files while a response is awaited. -/
  meanwhile : FileSystem → FileSystem

/-- How rendering fails. -/
inductive RenderError
  | templateRequired
  | outRequired
  | stdout
  | reserved
  | readTemplate
  | marker
  | component
  | parentMissing
  | parentNotDir
  | worldWritable
  | symlink
  | directory
  | notWorktree
  | notIgnored
  | client
  | fetch (env : Str)
  | render (missing : List Tmpl.Ref)
  | becameSymlink
  | becameDirectory
  | step (s : Disk.Step)
  deriving DecidableEq

/-- A program on the files and the server. -/
abbrev RenderProg := Prog World Answer RenderError

/-- Calls on the files. -/
def onFiles {α : Type} (p : DiskProg RenderError α) : RenderProg α :=
  p.zoom World.files withFiles Answer.toReply

/-! ## The path -/

/-- `{env}` -/
def envToken : Str := ascii "\x7benv\x7d"

/-- A byte of a name of an environment. -/
def isComponentByte (c : UInt8) : Bool :=
  isLetter c || isDigit c || c == byte '.' || c == byte '+' || c == byte '-'

/-- `validEnvPathComponent`. A character that is no ASCII one has no byte of these. -/
def validEnvPathComponent (env : Str) : Bool :=
  !env.all (· == byte '.') && env.all isComponentByte

/-- `strings.Contains` -/
def contains (s sub : Str) : Bool := s.tails.any sub.isPrefixOf

/-- `resolveOutPath` -/
def resolveOutPath (out env : Str) : Except RenderError Str :=
  if contains out (ascii "$\x7b") || contains out (ascii "\x7b\x7b") then .error .marker
  else if contains out envToken && !validEnvPathComponent env then .error .component
  else .ok (replaceAll envToken env out)

/-! ## The calls -/

/-- `os.Stat` of the parent directory. -/
def statParent : RenderProg (Option Parent) := .act fun o w => (.ok o.parent, w)

/-- `runGitQuiet`: whether git exits with zero. -/
def runGitQuiet (path : Str) (args : List Str) : RenderProg Bool :=
  .act fun o w => (.ok (!o.fails), { w with git := w.git ++ [⟨path, args⟩] })

/-- Look at the target: a link and a directory are refused. -/
def refuseLink (path : Str) (forLink forDir : RenderError) : RenderProg Unit := do
  match ← onFiles (Disk.lstat path) with
  | some (.symlink _) => .exit forLink
  | some .dir => .exit forDir
  | _ => return ()

/-- `assertSafeOutPath` -/
def assertSafeOutPath (windows : Bool) (path : Str) : RenderProg Unit := do
  match ← statParent with
  | none => .exit .parentMissing
  | some parent =>
    if !parent.isDir then .exit .parentNotDir
    else if !windows && parent.worldWritable then .exit .worldWritable
    else
      refuseLink path .symlink .directory
      if !(← runGitQuiet path [ascii "rev-parse", ascii "--is-inside-work-tree"]) then
        .exit .notWorktree
      else if !(← runGitQuiet path [ascii "check-ignore", ascii "-q", path]) then
        .exit .notIgnored
      else return ()

/-- `c.ListSecrets` -/
def listSecrets (env : Str) : RenderProg (List (Str × Str)) :=
  .act fun o w =>
    let w' := { w with files := o.meanwhile w.files, sent := w.sent ++ [env] }
    if o.fails then (.error (.fetch env), w') else (.ok o.secrets, w')

/-- The loop over `tmpl.Envs`. -/
def fetchAll : List Str → RenderProg (List (Str × List (Str × Str)))
  | [] => return []
  | env :: envs => do
    let secrets ← listSecrets env
    let rest ← fetchAll envs
    return (env, secrets) :: rest

/-- The map that the loop fills. -/
def snapshots (rs : List (Str × List (Str × Str))) : Tmpl.Snapshots :=
  fun env => (rs.lookup env).map fun secrets key => (pullEntries secrets).entries.lookup key

/-- `client.New` -/
def newClient : RenderProg Bool := .act fun o w => (.ok (!o.fails), w)

/-- `fileExists` -/
def fileExists (path : Str) : RenderProg Bool :=
  .act fun o w => (.ok (!o.fails && Disk.present w.files path), w)

/-- `writeRenderedSecret` -/
def writeRenderedSecret (windows : Bool) (path content : Str) : RenderProg Unit := do
  refuseLink path .becameSymlink .becameDirectory
  onFiles (Disk.replaceFile windows true .step path content)

/-- The flags of the command and the environment that `loadContext` resolves. -/
structure Command where
  template : Str
  out : Str
  env : Str

/-- `newRenderCmd`, from the resolved environment on; it returns whether the file existed. -/
def render (windows : Bool) (cmd : Command) : RenderProg Bool := do
  if cmd.template = [] then .exit .templateRequired
  else if cmd.out = [] then .exit .outRequired
  else if cmd.out = ascii "-" then .exit .stdout
  else if cmd.env = Tmpl.selfEnv then .exit .reserved
  else
    match ← onFiles (Disk.read cmd.template) with
    | none => .exit .readTemplate
    | some tmpl =>
      match resolveOutPath cmd.out cmd.env with
      | .error e => .exit e
      | .ok path =>
        assertSafeOutPath windows path
        if !(← newClient) then .exit .client
        else
          let rs ← fetchAll (Tmpl.envs tmpl cmd.env)
          let r := Tmpl.render tmpl cmd.env (snapshots rs)
          match r.err with
          | some _ => .exit (.render r.missing)
          | none =>
            assertSafeOutPath windows path
            let existed ← fileExists path
            writeRenderedSecret windows path r.rendered
            return existed

/-! ## What a path is resolved to -/

section

variable {out env path : Str} {sep : UInt8}

/-- A name that is put in the place of the token has no separator, and is no dots alone. -/
theorem component_of_valid (h : validEnvPathComponent env = true) :
    (∃ c ∈ env, c ≠ byte '.') ∧ byte '/' ∉ env ∧ byte '\\' ∉ env := by
  rw [validEnvPathComponent, Bool.and_eq_true, Bool.not_eq_true', List.all_eq_false,
    List.all_eq_true] at h
  obtain ⟨⟨c, hc, hdot⟩, hbytes⟩ := h
  refine ⟨⟨c, hc, by simpa using hdot⟩, fun hmem => ?_, fun hmem => ?_⟩
  · have hbyte := hbytes _ hmem
    revert hbyte
    decide
  · have hbyte := hbytes _ hmem
    revert hbyte
    decide

/-- A text without the token is kept. -/
theorem replaceAll_of_not_contains {old new s : Str} (h : contains s old = false) :
    replaceAll old new s = s := by
  rw [replaceAll]
  induction s with
  | nil => rfl
  | cons c s ih =>
    rw [contains, List.tails_cons, List.any_cons, Bool.or_eq_false_iff] at h
    rw [replaceFrom, if_neg (by simp [h.1]), ih h.2]

/-- The resolved path has as many components as the flag. Each is the one of the flag, or is neither
empty nor made of dots alone. -/
theorem resolveOutPath_components (h : resolveOutPath out env = .ok path)
    (hsep : sep = byte '/' ∨ sep = byte '\\') :
    ∃ f : Str → Str, path.splitOn sep = (out.splitOn sep).map f ∧
      ∀ c, f c = c ∨ ∃ b ∈ f c, b ≠ byte '.' := by
  rw [resolveOutPath] at h
  split_ifs at h with hmarker hcomponent
  cases h
  by_cases htoken : contains out envToken = true
  · rw [htoken, Bool.true_and, Bool.not_eq_true', Bool.not_eq_false] at hcomponent
    obtain ⟨⟨b, hb, hdot⟩, hslash, hback⟩ := component_of_valid hcomponent
    refine ⟨replaceAll envToken env, ?_, fun c => ?_⟩
    · rcases hsep with rfl | rfl
      · exact splitOn_replaceAll (by decide) (by decide) hslash out
      · exact splitOn_replaceAll (by decide) (by decide) hback out
    · exact (replaceFrom_cases 0 c).imp id fun hmem => ⟨b, hmem b hb, hdot⟩
  · rw [replaceAll_of_not_contains (by simpa using htoken)]
    exact ⟨id, (List.map_id _).symm, fun c => .inl rfl⟩

/-- A path with the token in two components. -/
theorem resolveOutPath_components_twice :
    ∃ f : Str → Str, (ascii "../a.b/x-a.b").splitOn (byte '/') =
        ((ascii "../\x7benv\x7d/x-\x7benv\x7d").splitOn (byte '/')).map f ∧
      ∀ c, f c = c ∨ ∃ b ∈ f c, b ≠ byte '.' :=
  have hpath : resolveOutPath (ascii "../\x7benv\x7d/x-\x7benv\x7d") (ascii "a.b") =
      .ok (ascii "../a.b/x-a.b") := by
    decide +kernel
  resolveOutPath_components hpath (.inl rfl)

end

/-! ## What a rendering passes through -/

/-- What the outside decides after the first `k` calls. -/
abbrev later (k : ℕ) (os : ℕ → Answer) : ℕ → Answer := fun n => os (n + k)

/-- The look at the target failed, or found neither a link nor a directory. -/
def Unlinked (fs : FileSystem) (path : Str) (o : Answer) : Prop :=
  o.fails = true ∨ (∀ q, fs path ≠ some (.symlink q)) ∧ fs path ≠ some .dir

/-- The looks at the parent directory and at the target have let a path pass. -/
structure Sound (windows : Bool) (fs : FileSystem) (path : Str) (os : ℕ → Answer) : Prop where
  parent : ∃ p, (os 0).parent = some p ∧ p.isDir = true ∧
    (windows = false → p.worldWritable = false)
  unlinked : Unlinked fs path (os 1)

/-- The four calls of a check have let a path pass. -/
structure Permitted (windows : Bool) (fs : FileSystem) (path : Str) (os : ℕ → Answer) : Prop
    extends Sound windows fs path os where
  worktree : (os 2).fails = false
  ignored : (os 3).fails = false

/-- The runs of git in a check. -/
def gitCheck (path : Str) : List GitCall :=
  [⟨path, [ascii "rev-parse", ascii "--is-inside-work-tree"]⟩,
    ⟨path, [ascii "check-ignore", ascii "-q", path]⟩]

/-- The files after what others do during the first `k` requests. -/
def others (os : ℕ → Answer) : ℕ → FileSystem → FileSystem
  | 0, fs => fs
  | k + 1, fs => others (later 1 os) k ((os 0).meanwhile fs)

/-- The responses to the requests for environments. -/
def responses (os : ℕ → Answer) : List Str → List (Str × List (Str × Str))
  | [] => []
  | env :: envs => (env, (os 0).secrets) :: responses (later 1 os) envs

section

variable {α : Type} {windows : Bool} {path : Str} {P E : World → Prop} {os : ℕ → Answer}
  {w : World} {Q : α → (ℕ → Answer) → World → Prop}

/-- A call that changes nothing and the rest of a program. -/
theorem along_ask {β : Type} {f : Answer → World → β} {k : β → RenderProg α} (hw : P w)
    (h : (k (f (os 0) w)).Along P E (later 1 os) w Q) :
    (Prog.act (fun o w => (.ok (f o w), w)) >>= k).Along P E os w Q := ⟨hw, h⟩

/-- What holds along calls on the files. -/
theorem along_onFiles {p : DiskProg RenderError α} {A B : FileSystem → Prop}
    {R : α → (ℕ → Reply) → FileSystem → Prop}
    (h : p.Along A B (fun n => (os n).toReply) w.files R) :
    (onFiles p).Along (fun v => ∃ s, A s ∧ v = withFiles s w)
      (fun v => ∃ s, B s ∧ v = withFiles s w) os w
      fun a os' v => ∃ s, R a (fun n => (os' n).toReply) s ∧ v = withFiles s w := by
  have hget : ∀ s v, (withFiles s v).files = s := fun _ _ => rfl
  have hput : ∀ s s' v, withFiles s (withFiles s' v) = withFiles s v := fun _ _ _ => rfl
  exact Prog.Along.zoom hget hput rfl h

/-- The look at a path changes nothing. -/
theorem along_lstat (hw : P w) :
    (onFiles (Disk.lstat path)).Along P E os w fun n os' w' =>
      n = (if (os 0).fails then none else w.files path) ∧ os' = later 1 os ∧ w' = w := by
  change (Prog.atomic _ _).Along P E os w _
  rw [Prog.Along]
  refine ⟨hw, ?_⟩
  cases hf : (os 0).fails with
  | true =>
    simp only [hf, if_true]
    exact ⟨hw, rfl, rfl, rfl⟩
  | false =>
    cases hn : w.files path with
    | none =>
      simp only [hf, hn, Bool.false_eq_true, if_false, Option.map_none]
      exact ⟨hw, rfl, rfl, rfl⟩
    | some n =>
      simp only [hf, hn, Bool.false_eq_true, if_false, Option.map_some]
      exact ⟨hw, rfl, rfl, rfl⟩

/-- The reading of a file changes nothing. -/
theorem along_read (hw : P w) :
    (onFiles (Disk.read path)).Along P E os w fun t os' w' =>
      (∀ s, t = some s → Disk.readFile w.files path = .ok (some s)) ∧
        os' = later 1 os ∧ w' = w := by
  change (Prog.atomic _ _).Along P E os w _
  rw [Prog.Along]
  refine ⟨hw, ?_⟩
  cases hf : (os 0).fails with
  | true =>
    simp only [hf, if_true]
    exact ⟨hw, by simp, rfl, rfl⟩
  | false =>
    simp only [hf, Bool.false_eq_true, if_false]
    rcases hr : Disk.readFile w.files path with _ | _ | t
    · exact ⟨hw, by simp, rfl, rfl⟩
    · exact ⟨hw, by simp, rfl, rfl⟩
    · exact ⟨hw, by simp, rfl, rfl⟩

/-- What passes the look at the target. -/
theorem along_refuseLink {forLink forDir : RenderError} (hw : P w) (he : E w) :
    (refuseLink path forLink forDir).Along P E os w fun _ os' w' =>
      os' = later 1 os ∧ w' = w ∧ Unlinked w.files path (os 0) := by
  refine Prog.along_bind.mpr ((along_lstat hw).mono fun n os' w' h => ?_)
  obtain ⟨rfl, rfl, rfl⟩ := h
  cases hf : (os 0).fails with
  | true => exact ⟨hw, rfl, rfl, .inl hf⟩
  | false =>
    cases hn : w'.files path with
    | none => exact ⟨hw, rfl, rfl, .inr ⟨by simp [hn], by simp [hn]⟩⟩
    | some n =>
      cases n with
      | file t mode => exact ⟨hw, rfl, rfl, .inr ⟨by simp [hn], by simp [hn]⟩⟩
      | symlink q => exact ⟨hw, he⟩
      | dir => exact ⟨hw, he⟩

/-- A run of git and the rest of a program. -/
theorem along_runGitQuiet {args : List Str} {k : Bool → RenderProg α} (hw : P w)
    (h : (k (!(os 0).fails)).Along P E (later 1 os)
      { w with git := w.git ++ [⟨path, args⟩] } Q) :
    (runGitQuiet path args >>= k).Along P E os w Q := ⟨hw, h⟩

/-- The world after some runs of git. -/
abbrev ran (w : World) (calls : List GitCall) : World := { w with git := w.git ++ calls }

/-- What passes the check: git is run when the looks have let the path pass. -/
theorem along_assertSafeOutPath (hw : P w) (he : E w)
    (hasked : ∀ calls, Sound windows w.files path os → calls <+: gitCheck path →
      P (ran w calls) ∧ E (ran w calls)) :
    (assertSafeOutPath windows path).Along P E os w fun _ os' w' =>
      os' = later 4 os ∧ w' = ran w (gitCheck path) ∧ Permitted windows w.files path os := by
  refine along_ask hw ?_
  cases hp : (os 0).parent with
  | none => exact ⟨hw, he⟩
  | some p =>
    dsimp only
    split_ifs with hdir hwritable
    · exact ⟨hw, he⟩
    · exact ⟨hw, he⟩
    · refine Prog.along_bind.mpr ((along_refuseLink hw he).mono fun _ os' w' h => ?_)
      obtain ⟨rfl, rfl, hunlinked⟩ := h
      have hsound : Sound windows w'.files path os := by
        refine ⟨⟨p, hp, by simpa using hdir, fun hwin => ?_⟩, hunlinked⟩
        simpa [hwin] using hwritable
      have hfirst := hasked [_] hsound ⟨_, rfl⟩
      have hsecond := hasked (gitCheck path) hsound List.prefix_rfl
      have hboth : ran w' (gitCheck path) =
          ran (ran w' [⟨path, [ascii "rev-parse", ascii "--is-inside-work-tree"]⟩])
            [⟨path, [ascii "check-ignore", ascii "-q", path]⟩] := by
        simp [ran, gitCheck]
      rw [hboth] at hsecond
      refine along_runGitQuiet hw ?_
      split_ifs with hworktree
      · exact hfirst
      · refine along_runGitQuiet hfirst.1 ?_
        split_ifs with hignored
        · exact hsecond
        · exact ⟨hsecond.1, rfl, hboth.symm, hsound, by simpa using hworktree,
            by simpa using hignored⟩

/-- What the loop over the environments passes through. -/
theorem along_fetchAll {envs : List Str} {fs : FileSystem} {sent : List Str}
    {git : List GitCall}
    (hP : ∀ k ≤ envs.length, P ⟨others os k fs, sent ++ envs.take k, git⟩)
    (hE : ∀ k ≤ envs.length, E ⟨others os k fs, sent ++ envs.take k, git⟩) :
    (fetchAll envs).Along P E os ⟨fs, sent, git⟩ fun rs os' w' => rs = responses os envs ∧
      os' = later envs.length os ∧ w' = ⟨others os envs.length fs, sent ++ envs, git⟩ ∧
      ∀ i < envs.length, (os i).fails = false := by
  induction envs generalizing os fs sent with
  | nil =>
    refine ⟨by simpa [others] using hP 0 (Nat.le_refl _), rfl, rfl, by simp [others],
      fun i hi => ?_⟩
    exact absurd hi (Nat.not_lt_zero i)
  | cons env envs ih =>
    have hstart : P ⟨fs, sent, git⟩ := by simpa [others] using hP 0 (Nat.zero_le _)
    have hshift : ∀ k, sent ++ [env] ++ envs.take k = sent ++ (env :: envs).take (k + 1) := by
      intro k
      rw [List.append_assoc, List.singleton_append, List.take_succ_cons]
    have hP' : ∀ k ≤ envs.length,
        P ⟨others (later 1 os) k ((os 0).meanwhile fs), sent ++ [env] ++ envs.take k, git⟩ := by
      intro k hk
      rw [hshift]
      exact hP (k + 1) (Nat.succ_le_succ hk)
    have hE' : ∀ k ≤ envs.length,
        E ⟨others (later 1 os) k ((os 0).meanwhile fs), sent ++ [env] ++ envs.take k, git⟩ := by
      intro k hk
      rw [hshift]
      exact hE (k + 1) (Nat.succ_le_succ hk)
    change (Prog.atomic _ _).Along P E os ⟨fs, sent, git⟩ _
    rw [Prog.Along]
    refine ⟨hstart, ?_⟩
    cases hf : (os 0).fails with
    | true =>
      simp only [if_true]
      exact ⟨by simpa [others] using hP' 0 (Nat.zero_le _),
        by simpa [others] using hE' 0 (Nat.zero_le _)⟩
    | false =>
      simp only [Bool.false_eq_true, if_false]
      change Prog.Along P E
        (fetchAll envs >>= fun rest => pure ((env, (os 0).secrets) :: rest)) (later 1 os) _ _
      refine Prog.along_bind.mpr ((ih hP' hE').mono fun rs os' w' h => ?_)
      obtain ⟨rfl, rfl, rfl, hall⟩ := h
      refine ⟨?_, rfl, rfl, ?_, fun i hi => ?_⟩
      · have hlast := hP' envs.length (Nat.le_refl _)
        rwa [List.take_length] at hlast
      · rw [List.append_assoc]
        rfl
      · cases i with
        | zero => exact hf
        | succ i => exact hall i (Nat.lt_of_succ_lt_succ hi)

/-- What the writing of the file passes through. -/
theorem along_writeRenderedSecret {content : Str} {C : Prop} (hname : ∀ i, (os i).name ≠ path)
    (hone : C → Disk.OneFails fun n => (os n).toReply)
    (hdir : C → Unlinked w.files path (os 0) → w.files path ≠ some .dir) :
    (writeRenderedSecret windows path content).Along
      (fun v => v = w ∨ Unlinked w.files path (os 0) ∧
        ∃ fs, Disk.Between windows true path content w.files fs ∧ v = withFiles fs w)
      (fun v => C → ∃ fs, Disk.Base windows path w.files fs ∧ v = withFiles fs w) os w
      fun _ _ v => Unlinked w.files path (os 0) ∧
        ∃ fs, Disk.Replaced true path content w.files fs ∧ v = withFiles fs w := by
  refine Prog.along_bind.mpr
    ((along_refuseLink (.inl rfl) fun _ => ⟨_, .inl rfl, rfl⟩).mono fun _ os' w' h => ?_)
  obtain ⟨rfl, rfl, hunlinked⟩ := h
  have hreplace : (Disk.replaceFile windows true RenderError.step path content).Along
      (Disk.Between windows true path content w'.files)
      (fun s => C → Disk.Base windows path w'.files s) (fun n => (os (n + 1)).toReply) w'.files
      fun _ _ s => Disk.Replaced true path content w'.files s :=
    Disk.along_replaceFile (fun i => hname (i + 1)) (fun hc => (hone hc).tail)
      fun hc => hdir hc hunlinked
  have hzoom : (onFiles (Disk.replaceFile windows true .step path content)).Along
      (fun v => ∃ s, Disk.Between windows true path content w'.files s ∧
        v = withFiles s w')
      (fun v => ∃ s, (C → Disk.Base windows path w'.files s) ∧ v = withFiles s w')
      (later 1 os) w' fun _ _ v => ∃ s, Disk.Replaced true path content w'.files s ∧
        v = withFiles s w' :=
    along_onFiles hreplace
  refine (hzoom.weaken ?_ ?_).mono ?_
  · rintro v ⟨fs, hb, rfl⟩
    exact .inr ⟨hunlinked, fs, hb, rfl⟩
  · rintro v ⟨fs, he, rfl⟩ hc
    exact ⟨fs, he hc, rfl⟩
  · rintro _ _ v ⟨fs, hr, rfl⟩
    exact ⟨hunlinked, fs, hr, rfl⟩

end

section

variable (windows : Bool) (cmd : Command) (fs : FileSystem) (os : ℕ → Answer)

/-- The path of a command passed the check before anything was fetched. -/
structure Cleared (tmpl path : Str) : Prop where
  template : Disk.readFile fs cmd.template = .ok (some tmpl)
  resolved : resolveOutPath cmd.out cmd.env = .ok path
  permitted : Permitted windows fs path (later 1 os)

/-- Everything that the template needs was fetched and put in. -/
structure Filled (tmpl path content : Str) (fs' : FileSystem) : Prop
    extends Cleared windows cmd fs os tmpl path where
  fetched : ∀ i < (Tmpl.envs tmpl cmd.env).length, (os (i + 6)).fails = false
  files : fs' = others (later 6 os) (Tmpl.envs tmpl cmd.env).length fs
  rendered : Tmpl.render tmpl cmd.env
    (snapshots (responses (later 6 os) (Tmpl.envs tmpl cmd.env))) = ⟨content, [], none⟩

/-- Then the path passed the check again, on the files as they are now. -/
structure Ready (tmpl path content : Str) (fs' : FileSystem) : Prop
    extends Filled windows cmd fs os tmpl path content fs' where
  fresh : Permitted windows fs' path (later (Tmpl.envs tmpl cmd.env).length (later 6 os))
  unlinked : Unlinked fs' path (os ((Tmpl.envs tmpl cmd.env).length + 11))

/-- A state that a rendering passes through. -/
inductive Reached : World → Prop
  | start : Reached ⟨fs, [], []⟩
  | checking {path : Str} {calls : List GitCall} (hpath : resolveOutPath cmd.out cmd.env = .ok path)
      (hsound : Sound windows fs path (later 1 os)) (hcalls : calls <+: gitCheck path) :
      Reached ⟨fs, [], calls⟩
  | fetching {tmpl path : Str} {k : ℕ} (h : Cleared windows cmd fs os tmpl path)
      (hk : k ≤ (Tmpl.envs tmpl cmd.env).length) :
      Reached ⟨others (later 6 os) k fs, (Tmpl.envs tmpl cmd.env).take k, gitCheck path⟩
  | rechecking {tmpl path content : Str} {fs' : FileSystem} {calls : List GitCall}
      (h : Filled windows cmd fs os tmpl path content fs')
      (hsound : Sound windows fs' path (later (Tmpl.envs tmpl cmd.env).length (later 6 os)))
      (hcalls : calls <+: gitCheck path) :
      Reached ⟨fs', Tmpl.envs tmpl cmd.env, gitCheck path ++ calls⟩
  | writing {tmpl path content : Str} {fs' files : FileSystem}
      (h : Ready windows cmd fs os tmpl path content fs')
      (hb : Disk.Between windows true path content fs' files) :
      Reached ⟨files, Tmpl.envs tmpl cmd.env, gitCheck path ++ gitCheck path⟩

/-- The files are as others left them, or on Windows without the target. -/
def Left (files : FileSystem) : Prop :=
  ∃ k, files = others (later 6 os) k fs ∨ ∃ path, resolveOutPath cmd.out cmd.env = .ok path ∧
    Disk.Base windows path (others (later 6 os) k fs) files

variable {windows cmd fs os}

/-- A rendering without an error has no missing references. -/
theorem render_of_err_none {tmpl env : Str} {snaps : Tmpl.Snapshots}
    (h : (Tmpl.render tmpl env snaps).err = none) :
    Tmpl.render tmpl env snaps = ⟨(Tmpl.render tmpl env snaps).rendered, [], none⟩ := by
  unfold Tmpl.render at h ⊢
  split_ifs at h ⊢
  dsimp only at h ⊢
  split_ifs at h ⊢
  · rfl
  · rfl

/-- A target that passed both looks at it is no directory if one call fails at most. -/
theorem not_dir_of_oneFails {tmpl path : Str} {fs' : FileSystem}
    (hfresh : Permitted windows fs' path (later (Tmpl.envs tmpl cmd.env).length (later 6 os)))
    (hunlinked : Unlinked fs' path (os ((Tmpl.envs tmpl cmd.env).length + 11)))
    (hone : Disk.OneFails fun n => (os n).toReply) : fs' path ≠ some .dir := by
  rcases hunlinked with hlast | ⟨-, hdir⟩
  · rcases hfresh.unlinked with hcheck | ⟨-, hdir⟩
    · have hsame := hone _ _ hlast hcheck
      omega
    · exact hdir
  · exact hdir

/-- The second check and the writing, with everything put in. -/
theorem along_filled {tmpl path content : Str} {fs' : FileSystem}
    (hfilled : Filled windows cmd fs os tmpl path content fs') (hname : ∀ i, (os i).name ≠ path) :
    (do
      assertSafeOutPath windows path
      let existed ← fileExists path
      writeRenderedSecret windows path content
      return existed : RenderProg Bool).Along (Reached windows cmd fs os)
      (fun w => Disk.OneFails (fun n => (os n).toReply) → Left windows cmd fs os w.files)
      (later (Tmpl.envs tmpl cmd.env).length (later 6 os))
      ⟨fs', Tmpl.envs tmpl cmd.env, gitCheck path⟩
      fun _ _ w => ∃ tmpl path content fs', Ready windows cmd fs os tmpl path content fs' ∧
        Disk.Replaced true path content fs' w.files := by
  have hP : Reached windows cmd fs os ⟨fs', Tmpl.envs tmpl cmd.env, gitCheck path⟩ := by
    have hlast := Reached.fetching hfilled.toCleared (Nat.le_refl _)
    rwa [List.take_length, ← hfilled.files] at hlast
  have hE : Disk.OneFails (fun n => (os n).toReply) → Left windows cmd fs os fs' :=
    fun _ => ⟨_, .inl hfilled.files⟩
  refine Prog.along_bind.mpr ((along_assertSafeOutPath hP hE fun calls hsound hcalls =>
    ⟨.rechecking hfilled hsound hcalls, hE⟩).mono fun _ os' w' h => ?_)
  obtain ⟨rfl, rfl, hfresh⟩ := h
  have hchecked : Reached windows cmd fs os
      ⟨fs', Tmpl.envs tmpl cmd.env, gitCheck path ++ gitCheck path⟩ :=
    .rechecking hfilled hfresh.toSound List.prefix_rfl
  refine along_ask hchecked ?_
  generalize hos : later 1 (later 4 (later (Tmpl.envs tmpl cmd.env).length (later 6 os))) = os₁
  have hlater : ∀ i, os₁ i = os (i + (Tmpl.envs tmpl cmd.env).length + 11) := by
    intro i
    simp only [← hos, later]
    congr 1
    omega
  have hready (h : Unlinked fs' path (os₁ 0)) : Ready windows cmd fs os tmpl path content fs' := by
    rw [hlater, Nat.zero_add] at h
    exact ⟨hfilled, hfresh, h⟩
  have hname₁ : ∀ i, (os₁ i).name ≠ path := fun i => by
    rw [hlater]
    exact hname _
  have hone₁ (hone : Disk.OneFails fun n => (os n).toReply) :
      Disk.OneFails fun n => (os₁ n).toReply := by
    intro i j hi hj
    simp only [hlater] at hi hj
    have hsame := hone _ _ hi hj
    omega
  have hsafe (hone : Disk.OneFails fun n => (os n).toReply) (h : Unlinked fs' path (os₁ 0)) :
      fs' path ≠ some .dir :=
    not_dir_of_oneFails hfresh (hready h).unlinked hone
  refine Prog.along_bind.mpr (((along_writeRenderedSecret (w := ran ⟨fs', _, _⟩ (gitCheck path))
    hname₁ hone₁ hsafe).weaken ?_ ?_).mono ?_)
  · rintro v (rfl | ⟨hunlinked, files, hb, rfl⟩)
    · exact hchecked
    · exact .writing (hready hunlinked) hb
  · intro v h hone
    obtain ⟨files, hbase, rfl⟩ := h hone
    exact ⟨_, .inr ⟨path, hfilled.resolved, hfilled.files ▸ hbase⟩⟩
  · rintro _ _ v ⟨hunlinked, files, hreplaced, rfl⟩
    exact ⟨.writing (hready hunlinked) (Disk.between_replaced hreplaced), _, _, _, _,
      hready hunlinked, hreplaced⟩

/-- The last part of a rendering, with every response there. -/
theorem along_rendered {tmpl path : Str} (hcleared : Cleared windows cmd fs os tmpl path)
    (hfetched : ∀ i < (Tmpl.envs tmpl cmd.env).length, (os (i + 6)).fails = false)
    (hname : ∀ i, (os i).name ≠ path) :
    (match (Tmpl.render tmpl cmd.env
        (snapshots (responses (later 6 os) (Tmpl.envs tmpl cmd.env)))).err with
      | some _ => .exit (.render (Tmpl.render tmpl cmd.env
          (snapshots (responses (later 6 os) (Tmpl.envs tmpl cmd.env)))).missing)
      | none => do
        assertSafeOutPath windows path
        let existed ← fileExists path
        writeRenderedSecret windows path (Tmpl.render tmpl cmd.env
          (snapshots (responses (later 6 os) (Tmpl.envs tmpl cmd.env)))).rendered
        return existed : RenderProg Bool).Along (Reached windows cmd fs os)
      (fun w => Disk.OneFails (fun n => (os n).toReply) → Left windows cmd fs os w.files)
      (later (Tmpl.envs tmpl cmd.env).length (later 6 os))
      ⟨others (later 6 os) (Tmpl.envs tmpl cmd.env).length fs, Tmpl.envs tmpl cmd.env,
        gitCheck path⟩
      fun _ _ w => ∃ tmpl path content fs', Ready windows cmd fs os tmpl path content fs' ∧
        Disk.Replaced true path content fs' w.files := by
  generalize hr : Tmpl.render tmpl cmd.env _ = r
  cases herr : r.err with
  | some e =>
    have hlast := Reached.fetching hcleared (Nat.le_refl _)
    rw [List.take_length] at hlast
    exact ⟨hlast, fun _ => ⟨_, .inl rfl⟩⟩
  | none =>
    have hrendered : r = ⟨r.rendered, [], none⟩ := by
      rw [← hr] at herr ⊢
      exact render_of_err_none herr
    exact along_filled ⟨hcleared, hfetched, rfl, hr.trans hrendered⟩ hname

/-- What a rendering passes through, what it leaves when it fails and what it has done when it
returns. -/
theorem along_render (hname : ∀ path, resolveOutPath cmd.out cmd.env = .ok path →
    ∀ i, (os i).name ≠ path) :
    (render windows cmd).Along (Reached windows cmd fs os)
      (fun w => Disk.OneFails (fun n => (os n).toReply) → Left windows cmd fs os w.files) os
      ⟨fs, [], []⟩
      fun _ _ w => ∃ tmpl path content fs', Ready windows cmd fs os tmpl path content fs' ∧
        Disk.Replaced true path content fs' w.files := by
  have hP : Reached windows cmd fs os ⟨fs, [], []⟩ := .start
  have hE : Disk.OneFails (fun n => (os n).toReply) → Left windows cmd fs os fs :=
    fun _ => ⟨0, .inl rfl⟩
  unfold render
  split_ifs
  · exact ⟨hP, hE⟩
  · exact ⟨hP, hE⟩
  · exact ⟨hP, hE⟩
  · exact ⟨hP, hE⟩
  refine Prog.along_bind.mpr ((along_read hP).mono fun t os' w' h => ?_)
  obtain ⟨ht, rfl, rfl⟩ := h
  cases t with
  | none => exact ⟨hP, hE⟩
  | some tmpl =>
    dsimp only
    cases hpath : resolveOutPath cmd.out cmd.env with
    | error e => exact ⟨hP, hE⟩
    | ok path =>
      refine Prog.along_bind.mpr ((along_assertSafeOutPath hP hE fun calls hsound hcalls =>
        ⟨.checking hpath hsound hcalls, hE⟩).mono fun _ os' w' h => ?_)
      obtain ⟨rfl, rfl, hpermitted⟩ := h
      have hcleared : Cleared windows cmd fs os tmpl path := ⟨ht tmpl rfl, hpath, hpermitted⟩
      have hchecked : Reached windows cmd fs os ⟨fs, [], gitCheck path⟩ :=
        .checking hpath hpermitted.toSound List.prefix_rfl
      refine along_ask hchecked ?_
      split_ifs
      · exact ⟨hchecked, hE⟩
      refine Prog.along_bind.mpr ((along_fetchAll (fun k hk => .fetching hcleared hk)
        fun k hk _ => ⟨k, .inl rfl⟩).mono fun rs os' w' h => ?_)
      obtain ⟨rfl, rfl, rfl, hfetched⟩ := h
      exact along_rendered hcleared hfetched (hname path hpath)

end

/-- The files of the example: a template that refers to the current environment. -/
def exampleFiles : FileSystem :=
  fun q => if q = ascii "t" then some (.file (ascii "p $\x7b\x7b self.A \x7d\x7d") 0o644) else none

/-- Every call succeeds; the secret `A` is `1`. -/
def exampleAnswers : ℕ → Answer := fun _ =>
  ⟨⟨false, 0, ascii "o.tmp", 0o644⟩, some ⟨true, false⟩, [(ascii "A", ascii "1")], id⟩

/-- The command of the example. -/
def exampleCommand : Command := ⟨ascii "t", ascii "o-\x7benv\x7d", ascii "dev"⟩

example : ((render false exampleCommand).outcome exampleAnswers ⟨exampleFiles, [], []⟩).2.files
    (ascii "o-dev") = some (.file (ascii "p 1") 0o600) := by
  decide +kernel

end Comax.Cli.Render
