import Comax.Cli.RoundTrip
import Comax.Core.Program
import Comax.Server.Router

/-!
# Pulling the secrets into a file

`secret pull` writes the resolved secrets with `Emit` into a temporary file, which
then takes the place of the target. Every call on the file system may fail, and a
failing write may have written a part of its bytes.
-/

namespace Comax.Cli

open Comax.Core

/-- What the target path and the temporary file hold. -/
structure Files where
  target : Option Str
  temp : Option Str

/-- What the operating system does with one call. -/
structure Call where
  /-- The call returns an error. -/
  fails : Bool
  /-- A failing write has written this many bytes. -/
  taken : ℕ

/-- How a pull fails once it has the secrets. -/
inductive PullError
  /-- `create temp: %w` -/
  | createTemp
  /-- `emit %s: %w` -/
  | emit (key : Str)
  /-- The error of `tmp.Close`. -/
  | close
  /-- `rename %q -> %q: %w` -/
  | rename
  deriving DecidableEq

/-- A program on the files. -/
abbrev FileProg := Prog Files Call PullError

/-- One call: it returns `true` and does `f`, or it fails and does `g` with the bytes it took. -/
def call (f : Files → Files) (g : ℕ → Files → Files) : FileProg Bool :=
  .act fun o s => if o.fails then (.ok false, g o.taken s) else (.ok true, f s)

/-- `os.CreateTemp` -/
def createTemp : FileProg Bool := call (fun s => { s with temp := some [] }) fun _ s => s

/-- `tmp.Write` -/
def writeTemp (bytes : Str) : FileProg Bool :=
  call (fun s => { s with temp := s.temp.map (· ++ bytes) })
    fun n s => { s with temp := s.temp.map (· ++ bytes.take n) }

/-- `tmp.Close` -/
def closeTemp : FileProg Bool := call id fun _ s => s

/-- `os.Remove(tmpPath)` -/
def removeTemp : FileProg Bool := call (fun s => { s with temp := none }) fun _ s => s

/-- `os.Remove(path)` -/
def removeTarget : FileProg Bool := call (fun s => { s with target := none }) fun _ s => s

/-- `os.Rename(tmpPath, path)` -/
def renameTemp : FileProg Bool := call (fun s => ⟨s.temp, none⟩) fun _ s => s

/-- The loop of `Emit` over the sorted pairs. -/
def emitTo : List (Str × Str) → FileProg (Except PullError Unit)
  | [] => pure (.ok ())
  | (k, v) :: rest => do
    if ← writeTemp (emitLine k v ++ [byte '\n']) then emitTo rest else return .error (.emit k)

/-- `writeAtomic` -/
def writeAtomic (fn : FileProg (Except PullError Unit)) : FileProg Unit := do
  if !(← createTemp) then .exit .createTemp
  else
    match ← fn with
    | .error err =>
      let _ ← closeTemp
      let _ ← removeTemp
      .exit err
    | .ok () =>
      if !(← closeTemp) then
        let _ ← removeTemp
        .exit .close
      else
        let _ ← removeTarget
        if !(← renameTemp) then
          let _ ← removeTemp
          .exit .rename
        else return ()

/-- `entries[k] = v` -/
def Vars.set (m : Vars) (k v : Str) : Vars where
  entries := m.entries.filter (·.1 != k) ++ [(k, v)]
  nodup := by
    have hk : k ∉ (m.entries.filter (·.1 != k)).map Prod.fst := by simp
    rw [List.map_append, List.map_singleton, ← List.concat_eq_append]
    exact (m.nodup.sublist (List.filter_sublist.map _)).concat hk

/-- The map that the pull fills with the secrets of the response. -/
def pullEntries (secrets : List (Str × Str)) : Vars :=
  secrets.foldl (fun m s => m.set s.1 s.2) ⟨[], List.nodup_nil⟩

/-- `secret pull`, from the response to the file. -/
def pull (secrets : List (Str × Str)) : FileProg Unit :=
  writeAtomic (emitTo (pullEntries secrets).written)

section Leaves

variable {α : Type} {s : Files} {E : Files → Prop}

/-- A call that is followed by the rest of a program. -/
theorem leaves_call_bind {f : Files → Files} {g : ℕ → Files → Files} {k : Bool → FileProg α}
    {Q : α → Files → Prop} (hok : (k true).Leaves (f s) Q E)
    (hfail : ∀ n, (k false).Leaves (g n s) Q E) : (call f g >>= k).Leaves s Q E := by
  intro o
  dsimp only
  split_ifs with ho
  · refine ⟨fun b hb => ?_, fun r hr => by cases hr⟩
    cases hb
    exact hfail o.taken
  · refine ⟨fun b hb => ?_, fun r hr => by cases hr⟩
    cases hb
    exact hok

/-- Emitting writes all lines to the temporary file, or fails, and leaves the target as it is. -/
theorem leaves_emitTo (ps : List (Str × Str)) {t : Str} (ht : s.temp = some t) :
    (emitTo ps).Leaves s
      (fun r s' => s'.target = s.target ∧ (r = .ok () →
        s'.temp = some (t ++ ps.flatMap fun p => emitLine p.1 p.2 ++ [byte '\n']))) E := by
  induction ps generalizing s t with
  | nil => exact ⟨rfl, fun _ => by rw [ht, List.flatMap_nil, List.append_nil]⟩
  | cons p ps ih =>
    obtain ⟨k, v⟩ := p
    refine leaves_call_bind ?_ fun n => ⟨rfl, fun h => by cases h⟩
    have hwritten : (s.temp.map (· ++ (emitLine k v ++ [byte '\n']))) =
        some (t ++ (emitLine k v ++ [byte '\n'])) := by rw [ht, Option.map_some]
    refine (ih hwritten).mono (fun r s' h => ⟨h.1, fun hr => ?_⟩) fun _ h => h
    rw [h.2 hr, List.flatMap_cons, List.append_assoc]

/-- The target takes the content over, or it keeps its own or is gone after an error. -/
theorem leaves_writeAtomic {fn : FileProg (Except PullError Unit)} {text : Str}
    (hfn : ∀ s', s'.target = s.target → s'.temp = some [] → fn.Leaves s'
      (fun r s'' => s''.target = s.target ∧ (r = .ok () → s''.temp = some text))
      fun s'' => s''.target = s.target) :
    (writeAtomic fn).Leaves s (fun _ s' => s'.target = some text)
      fun s' => s'.target = s.target ∨ s'.target = none := by
  have hcleanup : ∀ {s' : Files} {r : PullError}, (s'.target = s.target ∨ s'.target = none) →
      (do let _ ← removeTemp; .exit r : FileProg Unit).Leaves s' (fun _ s' => s'.target = some text)
        fun s' => s'.target = s.target ∨ s'.target = none := by
    intro s' r h
    exact leaves_call_bind h fun _ => h
  refine leaves_call_bind ?_ fun _ => .inl rfl
  refine Prog.Leaves.bind ((hfn { s with temp := some [] } rfl rfl).mono (fun r s' h => ?_)
    fun _ h => Or.inl h)
  obtain ⟨htarget, htemp⟩ := h
  cases r with
  | error err => exact leaves_call_bind (hcleanup (.inl htarget)) fun _ => hcleanup (.inl htarget)
  | ok u =>
    refine leaves_call_bind ?_ fun _ => hcleanup (.inl htarget)
    have hrename : ∀ s', s'.temp = some text → (s'.target = s.target ∨ s'.target = none) →
        (do if !(← renameTemp) then
              let _ ← removeTemp
              .exit .rename
            else return () : FileProg Unit).Leaves s' (fun _ s' => s'.target = some text)
          fun s' => s'.target = s.target ∨ s'.target = none := by
      intro s' htemp' h
      exact leaves_call_bind htemp' fun _ => hcleanup h
    exact leaves_call_bind (hrename _ (htemp rfl) (.inr rfl))
      fun _ => hrename _ (htemp rfl) (.inl htarget)

end Leaves

/-- The pull puts the emitted secrets in the target, or fails and puts nothing there. -/
theorem leaves_pull (secrets : List (Str × Str)) (s : Files) :
    (pull secrets).Leaves s (fun _ s' => s'.target = some (emit (pullEntries secrets)))
      fun s' => s'.target = s.target ∨ s'.target = none := by
  refine leaves_writeAtomic fun s' htarget htemp => ?_
  refine (leaves_emitTo _ htemp).mono (fun r s'' h => ⟨h.1.trans htarget, fun hr => ?_⟩)
    fun _ h => h
  rw [h.2 hr, List.nil_append, emit, Vars.written, List.flatMap_map]

/-- A file system on which every call succeeds. -/
def working : Call := ⟨false, 0⟩

/-- Emitting to a working file system writes all lines. -/
theorem alone_emitTo (ps : List (Str × Str)) (s : Files) : ∃ s', s'.target = s.target ∧
    (emitTo ps).alone working s = (.ok (.ok ()), s') := by
  induction ps generalizing s with
  | nil => exact ⟨s, rfl, rfl⟩
  | cons p ps ih =>
    obtain ⟨s', htarget, hrest⟩ :=
      ih { s with temp := s.temp.map (· ++ (emitLine p.1 p.2 ++ [byte '\n'])) }
    exact ⟨s', htarget, hrest⟩

/-- On a working file system the pull succeeds. -/
theorem alone_pull (secrets : List (Str × Str)) (s : Files) :
    ∃ s', (pull secrets).alone working s = (.ok (), s') := by
  obtain ⟨s', -, hemit⟩ := alone_emitTo (pullEntries secrets).written { s with temp := some [] }
  refine ⟨⟨s'.temp, none⟩, ?_⟩
  have hcreate : createTemp.alone working s = (.ok true, { s with temp := some [] }) := rfl
  rw [pull, writeAtomic, Prog.alone_bind hcreate]
  exact Prog.alone_bind hemit _

/-- On a working file system the target holds what was emitted. -/
theorem outcome_pull_working (secrets : List (Str × Str)) (s : Files) : ∃ s',
    (pull secrets).outcome (fun _ => working) s = (.ok (), s') ∧
      s'.target = some (emit (pullEntries secrets)) := by
  obtain ⟨s', hrun⟩ := alone_pull secrets s
  have hout := (Prog.outcome_const (pull secrets) working s).trans hrun
  exact ⟨s', hout, (leaves_pull secrets s).outcome_ok hout⟩

namespace Vars

/-- Setting a key adds it. -/
theorem mem_keys_set {m : Vars} {k v c : Str} :
    c ∈ (m.set k v).entries.map Prod.fst ↔ c ∈ m.entries.map Prod.fst ∨ c = k := by
  by_cases hc : c = k
  · simp [set, hc]
  · simp [set, hc]

end Vars

/-- The map has the keys of the response. -/
theorem mem_keys_pullEntries {secrets : List (Str × Str)} {c : Str} :
    c ∈ (pullEntries secrets).entries.map Prod.fst ↔ c ∈ secrets.map Prod.fst := by
  have hfold : ∀ m : Vars, c ∈ (secrets.foldl (fun m s => m.set s.1 s.2) m).entries.map Prod.fst ↔
      c ∈ m.entries.map Prod.fst ∨ c ∈ secrets.map Prod.fst := by
    induction secrets with
    | nil => simp
    | cons s secrets ih =>
      intro m
      rw [List.foldl_cons, ih, Vars.mem_keys_set, List.map_cons, List.mem_cons, or_assoc]
  rw [pullEntries, hfold]
  simp

/-- The map of secrets with distinct keys has their entries. -/
theorem entries_pullEntries {secrets : List (Str × Str)} (hkeys : (secrets.map Prod.fst).Nodup) :
    (pullEntries secrets).entries = secrets := by
  have hfold : ∀ (m : Vars), ((m.entries ++ secrets).map Prod.fst).Nodup →
      (secrets.foldl (fun m s => m.set s.1 s.2) m).entries = m.entries ++ secrets := by
    induction secrets with
    | nil => simp
    | cons p secrets ih =>
      intro m hnodup
      have hnew : m.entries.filter (·.1 != p.1) = m.entries := by
        refine List.filter_eq_self.mpr fun q hq => bne_iff_ne.mpr fun he => ?_
        rw [List.map_append, List.map_cons, List.nodup_append] at hnodup
        exact hnodup.2.2 _ (List.mem_map_of_mem hq) _ List.mem_cons_self he
      have hset : (m.set p.1 p.2).entries = m.entries ++ [p] := congrArg (· ++ [p]) hnew
      rw [List.foldl_cons, ih (List.nodup_cons.mp hkeys).2, hset, List.append_assoc]
      · rfl
      · rwa [hset, List.append_assoc]
  simpa [pullEntries] using hfold ⟨[], List.nodup_nil⟩ (by simpa using hkeys)

/-- The bytes that are written as two between quotes. -/
def isEscaped (c : UInt8) : Bool :=
  c == backslash || c == doubleQuote || c == byte '\n' || c == byte '\t' || c == byte '\r'

/-- The length of a line by its key and value. -/
def lineLength (k v : Str) : ℕ :=
  k.length + 1 + if needsQuoting v then v.length + v.countP isEscaped + 2 else v.length

/-- An escaped value has two bytes for each byte that is escaped. -/
theorem length_flatMap_escapeByte (v : Str) :
    (v.flatMap escapeByte).length = v.length + v.countP isEscaped := by
  have hbyte : ∀ c, (escapeByte c).length = if isEscaped c then 2 else 1 := by
    intro c
    rw [escapeByte, isEscaped]
    split_ifs <;> simp_all
  induction v with
  | nil => rfl
  | cons c v ih =>
    rw [List.flatMap_cons, List.length_append, ih, hbyte, List.length_cons, List.countP_cons]
    split_ifs <;> omega

/-- The length of an emitted line. -/
theorem length_emitLine (k v : Str) : (emitLine k v).length = lineLength k v := by
  have hvalue : (formatValue v).length =
      if needsQuoting v then v.length + v.countP isEscaped + 2 else v.length := by
    rw [formatValue]
    cases hq : needsQuoting v with
    | false => split_ifs <;> simp_all
    | true =>
      have hne : v ≠ [] := by
        rintro rfl
        cases hq
      rw [if_neg hne, if_neg (by simp), List.length_cons, List.length_append,
        length_flatMap_escapeByte]
      rfl
  rw [emitLine, List.length_append, List.length_cons, hvalue, lineLength]
  omega

/-- The pull leaves a file that is read with exactly the keys of the secrets, or fails without new
content in the target, whatever the file system does. -/
def PullsBack (secrets : List (Str × Str)) : Prop :=
  ∀ files os files',
    (∀ e, (pull secrets).outcome os files = (.error e, files') →
      files'.target = files.target ∨ files'.target = none) ∧
    ((pull secrets).outcome os files = (.ok (), files') →
      ∃ text es, files'.target = some text ∧ parse text = .ok es ∧ (es.map Entry.key).Nodup ∧
        ∀ k, k ∈ es.map Entry.key ↔ k ∈ secrets.map Prod.fst)

/-- A name is plain text. -/
theorem plain_of_name (srv : Server) (field : String) {k : Str}
    (h : Server.validateName srv field k = .ok ()) : Plain k := by
  obtain ⟨hne, -, hall⟩ := Server.validateName_ok_iff.mp h
  refine ⟨hne, fun c hc => ?_⟩
  have hcode := Server.allowed_iff.mp (hall c hc)
  have heq : (byte '=').toNat = 61 := rfl
  have hhash : (byte '#').toNat = 35 := rfl
  simp only [UInt8.le_iff_toNat_le, UInt8.lt_iff_toNat_lt, ne_eq, ← UInt8.toNat_inj, heq, hhash]
  have hlo : (0x21 : UInt8).toNat = 33 := rfl
  have hhi : (0x80 : UInt8).toNat = 128 := rfl
  omega

/-- A pull is read back exactly when its keys are those of a `.env` file and its lines fit the
scanner. -/
theorem pullsBack_iff (srv : Server) (field : String) {secrets : List (Str × Str)}
    (h : ∀ s ∈ secrets, Server.validateName srv field s.1 = .ok ()) :
    PullsBack secrets ↔ ∀ s ∈ (pullEntries secrets).entries,
      validKey s.1 = true ∧ lineLength s.1 s.2 < maxScanTokenSize := by
  have hplain : ∀ p ∈ (pullEntries secrets).entries, Plain p.1 := by
    intro p hp
    obtain ⟨s, hs, he⟩ := List.mem_map.mp (mem_keys_pullEntries.mp (List.mem_map_of_mem hp))
    rw [← he]
    exact plain_of_name srv field (h s hs)
  have hscan : (∀ s ∈ (pullEntries secrets).entries,
      validKey s.1 = true ∧ lineLength s.1 s.2 < maxScanTokenSize) ↔
        (pullEntries secrets).Scannable := by
    refine ⟨fun hall => ⟨fun p hp => (hall p hp).1, fun p hp => ?_⟩, fun hall p hp => ?_⟩
    · rw [length_emitLine]
      exact (hall p hp).2
    · rw [← length_emitLine]
      exact ⟨hall.validKey p hp, hall.fits p hp⟩
  rw [hscan]
  constructor
  · intro hback
    obtain ⟨files, hout, hemit⟩ := outcome_pull_working secrets ⟨none, none⟩
    obtain ⟨text, es, htext, hparse, -, -⟩ := (hback _ _ _).2 hout
    obtain rfl := Option.some.inj (htext.symm.trans hemit)
    exact Vars.scannable_of_parse hplain hparse
  · intro hscannable files os files'
    refine ⟨fun e hout => (leaves_pull secrets files).outcome_error hout, fun hout => ?_⟩
    obtain ⟨es, hparse, hkeys, -⟩ := Vars.parse_emit_pairs hscannable
    have hperm : (es.map Entry.key).Perm ((pullEntries secrets).entries.map Prod.fst) := by
      rw [hkeys]
      exact List.perm_insertionSort _ _
    refine ⟨_, es, (leaves_pull secrets files).outcome_ok hout, hparse, ?_, fun k => ?_⟩
    · exact hperm.nodup_iff.mpr (pullEntries secrets).nodup
    · rw [hperm.mem_iff, mem_keys_pullEntries]

/-- A key and a quoted value are read back. -/
theorem pullsBack_iff_plain :
    PullsBack [(ascii "DB_URL", ascii "a b"), (ascii "NOTE", [])] ↔
      ∀ s ∈ (pullEntries [(ascii "DB_URL", ascii "a b"), (ascii "NOTE", [])]).entries,
        validKey s.1 = true ∧ lineLength s.1 s.2 < maxScanTokenSize :=
  pullsBack_iff Server.plainServer "key" (by decide)

/-- The key `a.b` is a name, and a pull writes it to a file that does not parse. -/
theorem not_pullsBack_dotted :
    Server.validateName Server.plainServer "key" (ascii "a.b") = .ok () ∧
      emit (pullEntries [(ascii "a.b", ascii "1")]) = ascii "a.b=1\n" ∧
      parse (ascii "a.b=1\n") = .error (.invalidKey 1 (ascii "a.b")) ∧
      ¬PullsBack [(ascii "a.b", ascii "1")] := by
  have hemit : emit (pullEntries [(ascii "a.b", ascii "1")]) = ascii "a.b=1\n" := by rfl
  have hparse : parse (ascii "a.b=1\n") = .error (.invalidKey 1 (ascii "a.b")) := by rfl
  refine ⟨by rfl, hemit, hparse, fun hback => ?_⟩
  obtain ⟨files, hout, htarget⟩ := outcome_pull_working [(ascii "a.b", ascii "1")] ⟨none, none⟩
  obtain ⟨text, es, htext, hes, -, -⟩ := (hback _ _ _).2 hout
  obtain rfl := Option.some.inj (htext.symm.trans htarget)
  rw [hemit, hparse] at hes
  cases hes

end Comax.Cli
