import Comax.Cli.Pull
import Comax.Core.Crash

/-!
# Replacing the target of a pull

`writeAtomic` removes the target before it renames the temporary file. Between the two the target
is gone: a crash there, or a failing rename, loses the content it had.
-/

namespace Comax.Cli

open Comax.Core

/-- The target holds its old state or the complete new content at every moment, and its old state
after an error. -/
def ReplacesAtomically (m : Vars) (files : Files) (os : ℕ → Call) : Prop :=
  (∀ s ∈ (writeAtomic (emitTo m.written)).states os files,
    s.target = files.target ∨ s.target = some (emit m)) ∧
    ∀ e s, (writeAtomic (emitTo m.written)).outcome os files = (.error e, s) →
      s.target = files.target

section Steps

variable {α : Type} {P E : Files → Prop} {os : ℕ → Call} {s : Files}

/-- A call that is followed by the rest of a program. -/
theorem along_call_bind {f : Files → Files} {g : ℕ → Files → Files} {k : Bool → FileProg α}
    {Q : α → (ℕ → Call) → Files → Prop} : (call f g >>= k).Along P E os s Q ↔
      P s ∧ if (os 0).fails then (k false).Along P E (fun n => os (n + 1)) (g (os 0).taken s) Q
        else (k true).Along P E (fun n => os (n + 1)) (f s) Q := by
  change (Prog.atomic _ k).Along P E os s Q ↔ _
  rw [Prog.Along]
  cases (os 0).fails <;> rfl

/-- What holds along a program holds after a call that succeeds. -/
theorem along_of_call {f : Files → Files} {g : ℕ → Files → Files} {k : Bool → FileProg α}
    {Q : α → (ℕ → Call) → Files → Prop} (h : (call f g >>= k).Along P E os s Q)
    (hok : (os 0).fails = false) : (k true).Along P E (fun n => os (n + 1)) (f s) Q := by
  obtain ⟨-, hrest⟩ := along_call_bind.mp h
  rwa [hok] at hrest

/-- Two ways to go on, as a call succeeds or fails. -/
theorem along_call {f : Files → Files} {g : ℕ → Files → Files} {k : Bool → FileProg α}
    {Q : α → (ℕ → Call) → Files → Prop} (hs : P s)
    (hfail : (os 0).fails = true →
      (k false).Along P E (fun n => os (n + 1)) (g (os 0).taken s) Q)
    (hok : (os 0).fails = false → (k true).Along P E (fun n => os (n + 1)) (f s) Q) :
    (call f g >>= k).Along P E os s Q := by
  refine along_call_bind.mpr ⟨hs, ?_⟩
  cases ho : (os 0).fails with
  | false => exact hok ho
  | true => exact hfail ho

/-- Emitting leaves the target alone; after its last line every write has succeeded. -/
theorem along_emitTo (hP : ∀ s', s'.target = s.target → P s') (ps : List (Str × Str)) {t : Str}
    (ht : s.temp = some t) : (emitTo ps).Along P E os s fun r os' s' => s'.target = s.target ∧
      (r = .ok () → s'.temp = some (t ++ ps.flatMap fun p => emitLine p.1 p.2 ++ [byte '\n']) ∧
        (∀ i < ps.length, (os i).fails = false) ∧ ∀ n, os' n = os (n + ps.length)) := by
  induction ps generalizing os s t with
  | nil =>
    refine ⟨hP s rfl, rfl, fun _ => ⟨?_, fun i hi => absurd hi (Nat.not_lt_zero i), fun n => rfl⟩⟩
    rw [ht, List.flatMap_nil, List.append_nil]
  | cons p ps ih =>
    refine along_call (hP s rfl) (fun _ => ⟨hP _ rfl, rfl, fun h => by cases h⟩) fun hok => ?_
    have hwritten : s.temp.map (· ++ (emitLine p.1 p.2 ++ [byte '\n'])) =
        some (t ++ (emitLine p.1 p.2 ++ [byte '\n'])) := by rw [ht, Option.map_some]
    have hrest := @ih (fun n => os (n + 1))
      { s with temp := s.temp.map (· ++ (emitLine p.1 p.2 ++ [byte '\n'])) } hP _ hwritten
    refine hrest.mono fun r os' s' h => ⟨h.1, fun hr => ?_⟩
    obtain ⟨htemp, hwrites, hos'⟩ := h.2 hr
    refine ⟨?_, fun i hi => ?_, fun n => hos' n⟩
    · rw [htemp, List.flatMap_cons, List.append_assoc]
    · cases i with
      | zero => exact hok
      | succ i => exact hwrites i (by simpa using hi)

/-- When every write succeeds, emitting comes to its end. -/
theorem along_emitTo_ok {ps : List (Str × Str)}
    {Q : Except PullError Unit → (ℕ → Call) → Files → Prop}
    (h : (emitTo ps).Along P E os s Q) (hos : ∀ i < ps.length, (os i).fails = false) :
    ∃ s', Q (.ok ()) (fun n => os (n + ps.length)) s' := by
  induction ps generalizing os s with
  | nil => exact ⟨s, h.2⟩
  | cons p ps ih =>
    exact ih (along_of_call h (hos 0 (Nat.zero_lt_succ _))) fun i hi =>
      hos (i + 1) (Nat.succ_lt_succ hi)

end Steps

section Replace

variable {m : Vars} {files : Files} {os : ℕ → Call}

/-- The target holds its old state or the complete new content. -/
def OldOrNew (m : Vars) (files : Files) (s : Files) : Prop :=
  s.target = files.target ∨ s.target = some (emit m)

/-- The property along the program. -/
theorem replacesAtomically_iff_along : ReplacesAtomically m files os ↔
    (writeAtomic (emitTo m.written)).Along (OldOrNew m files) (fun s => s.target = files.target)
      os files fun _ _ _ => True := Prog.along_iff.symm

/-- What is written are the entries. -/
theorem length_written (m : Vars) : m.written.length = m.entries.length := by
  rw [Vars.written, List.length_map, Vars.keys, List.length_insertionSort, List.length_map]

/-- An error after the temporary file is removed, the target as it was. -/
theorem along_cleanup {s : Files} {r : PullError} (h : s.target = files.target) :
    (do let _ ← removeTemp; .exit r : FileProg Unit).Along (OldOrNew m files)
      (fun s => s.target = files.target) os s fun _ _ _ => True :=
  along_call (.inl h) (fun _ => ⟨.inl h, h⟩) fun _ => ⟨.inl h, h⟩

/-- The rename, when the target is as it was. -/
theorem along_rename {s : Files} (h : s.target = files.target) (htemp : s.temp = some (emit m)) :
    (do if !(← renameTemp) then
          let _ ← removeTemp
          .exit .rename
        else return () : FileProg Unit).Along (OldOrNew m files)
      (fun s => s.target = files.target) os s fun _ _ _ => True :=
  along_call (.inl h) (fun _ => along_cleanup h) fun _ => ⟨.inr htemp, trivial⟩

/-- Without a previous file, or with a call that fails before the target is removed, the old state
or the new content is there at every moment. -/
theorem replacesAtomically_of_fails (h : files.target = none ∨
    ∃ i ≤ m.entries.length + 2, (os i).fails = true) : ReplacesAtomically m files os := by
  rw [replacesAtomically_iff_along]
  refine along_call (.inl rfl) (fun _ => ⟨.inl rfl, rfl⟩) fun hcreate => ?_
  refine Prog.along_bind.mpr ((along_emitTo (fun s' hs' => .inl hs') m.written rfl).mono ?_)
  rintro r os' s' ⟨htarget, hend⟩
  cases r with
  | error err =>
    exact along_call (.inl htarget) (fun _ => along_cleanup htarget) fun _ => along_cleanup htarget
  | ok u =>
    obtain ⟨htemp, hwrites, hos'⟩ := hend rfl
    have htext : s'.temp = some (emit m) := by
      rw [htemp, List.nil_append, emit, Vars.written, List.flatMap_map]
    refine along_call (.inl htarget) (fun _ => along_cleanup htarget) fun hclose => ?_
    refine along_call (.inl htarget) (fun _ => along_rename htarget htext) fun hremove => ?_
    -- Nothing has failed, so there was no previous file.
    have hnone : files.target = none := by
      refine h.resolve_right ?_
      rintro ⟨i, hi, hfails⟩
      rw [hos', length_written] at hclose hremove
      rw [length_written] at hwrites
      have hok : (os i).fails = false := by
        rcases Nat.eq_zero_or_pos i with rfl | hpos
        · exact hcreate
        · obtain ⟨k, rfl⟩ : ∃ k, i = k + 1 := ⟨i - 1, by omega⟩
          rcases Nat.lt_trichotomy k m.entries.length with hlt | rfl | hgt
          · exact hwrites k hlt
          · simpa using hclose
          · obtain rfl : k = m.entries.length + 1 := by omega
            simpa [Nat.add_comm] using hremove
      rw [hok] at hfails
      cases hfails
    exact along_rename hnone.symm htext

/-- When nothing fails up to the removal of a previous file, the target is gone after it. -/
theorem not_replacesAtomically (hold : files.target ≠ none)
    (hos : ∀ i ≤ m.entries.length + 2, (os i).fails = false) : ¬ReplacesAtomically m files os := by
  rw [replacesAtomically_iff_along]
  intro h
  have hemit := Prog.along_bind.mp (along_of_call h (hos 0 (Nat.zero_le _)))
  obtain ⟨s', hclose⟩ := along_emitTo_ok hemit fun i hi => hos (i + 1) (by
    rw [length_written] at hi
    omega)
  rw [length_written] at hclose
  have hremove := along_of_call hclose (hos _ (by omega))
  have hgone := along_of_call hremove (hos _ (by omega))
  rcases hgone.here with hgone | hgone
  · exact hold hgone.symm
  · cases hgone

/-- The replacement is atomic exactly when there was no previous file or a call fails before the
target is removed: the temporary file is not created, a line is not written, the file is not
closed, or the previous file is not removed. -/
theorem replacesAtomically_iff (m : Vars) (files : Files) (os : ℕ → Call) :
    ReplacesAtomically m files os ↔
      files.target = none ∨ ∃ i ≤ m.entries.length + 2, (os i).fails = true := by
  refine ⟨fun h => ?_, replacesAtomically_of_fails⟩
  by_contra hno
  rw [not_or, not_exists] at hno
  refine not_replacesAtomically hno.1 (fun i hi => ?_) h
  have hi' := hno.2 i
  rw [not_and, Bool.not_eq_true] at hi'
  exact hi' hi

/-- Replacing a file while every call succeeds: the target is gone between the removal and the
rename, and when the rename fails it stays so after the error. -/
theorem not_replacesAtomically_overwrite :
    (∃ s ∈ (writeAtomic (emitTo (pullEntries [(ascii "B", ascii "2")]).written)).states
      (fun _ => working) ⟨some (ascii "A=1\n"), none⟩, s.target = none) ∧
    (writeAtomic (emitTo (pullEntries [(ascii "B", ascii "2")]).written)).outcome
      (fun i => ⟨i == 4, 0⟩) ⟨some (ascii "A=1\n"), none⟩ = (.error .rename, ⟨none, none⟩) ∧
    ¬ReplacesAtomically (pullEntries [(ascii "B", ascii "2")]) ⟨some (ascii "A=1\n"), none⟩
      fun _ => working := by
  have hgone : (⟨none, some (ascii "B=2\n")⟩ : Files) ∈
      (writeAtomic (emitTo (pullEntries [(ascii "B", ascii "2")]).written)).states
        (fun _ => working) ⟨some (ascii "A=1\n"), none⟩ := by
    iterate 4 refine List.mem_cons_of_mem _ ?_
    exact List.mem_cons_self
  refine ⟨⟨_, hgone, rfl⟩, rfl, fun h => ?_⟩
  rcases h.1 _ hgone with hold | hnew
  · cases hold
  · cases hnew

end Replace

end Comax.Cli
