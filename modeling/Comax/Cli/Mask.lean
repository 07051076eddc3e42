import Comax.Cli.Heredoc
import Mathlib.Data.Set.Finite.Lemmas

/-!
# What the runner registers

The runner decodes three escapes in the data of a directive. `Emit` writes a line as it is, so
a line that holds one of them is registered as a shorter text.
-/

namespace Comax.Cli.Ghenv

/-- What an escape of a workflow command stands for. -/
def escapeOf (a b c : UInt8) : Option UInt8 :=
  if [a, b, c] = ascii "%25" then some (byte '%')
  else if [a, b, c] = ascii "%0D" then some (byte '\r')
  else if [a, b, c] = ascii "%0A" then some (byte '\n')
  else none

/-- The data of a workflow command with its escapes decoded. -/
def decoded : Str → Str
  | [] => []
  | [a] => [a]
  | [a, b] => [a, b]
  | a :: b :: c :: s =>
    match escapeOf a b c with
    | some d => d :: decoded s
    | none => a :: decoded (b :: c :: s)

/-- The escapes of a workflow command. -/
def escapes : List Str := [ascii "%25", ascii "%0D", ascii "%0A"]

/-- The text holds an escape of a workflow command. -/
def Escaped (s : Str) : Prop := ∃ e ∈ escapes, e <:+: s

/-- What a line of standard output registers. -/
def directive (line : Str) : Option Str :=
  if hasPrefix line (ascii "::add-mask::") then
    some (decoded (line.drop (ascii "::add-mask::").length))
  else none

/-- The masks that the runner registers. -/
def registered (stdout : Str) : List Str := (linesOf stdout).filterMap directive

/-- Every line of every value is registered as it is. -/
def Registered (m : Vars) (out : Output) : Prop :=
  ∀ p ∈ m.entries, ∀ line ∈ linesOf p.2, line ≠ [] → line ∈ registered (out.written .mask)

/-- The masks of every value are written before its block. -/
def MasksFirst (m : Vars) (out : Output) : Prop :=
  ∀ p ∈ m.entries, ∃ before delim after,
    out.log = before ++ ⟨.env, heredocText p.1 delim p.2⟩ :: after ∧
      ∀ line ∈ masked p.2, ⟨.mask, maskText line⟩ ∈ before

/-- Decoding does not lengthen a text. -/
theorem length_decoded_le (s : Str) : (decoded s).length ≤ s.length := by
  fun_induction decoded s with
  | case1 | case2 | case3 => exact le_rfl
  | case4 a b c s d _ ih =>
    simp only [List.length_cons]
    omega
  | case5 a b c s _ ih =>
    simp only [List.length_cons] at ih ⊢
    omega

/-- Three characters are decoded when they are an escape. -/
theorem mem_escapes {a b c : UInt8} : [a, b, c] ∈ escapes ↔ escapeOf a b c ≠ none := by
  simp only [escapes, List.mem_cons, List.not_mem_nil, or_false, escapeOf]
  split_ifs with h25 h0D h0A <;> simp [*]

/-- Every escape has three characters. -/
theorem length_of_mem_escapes {e : Str} (h : e ∈ escapes) : e.length = 3 := by
  have hall : (escapes.all fun e => e.length == 3) = true := by decide
  simpa using List.all_eq_true.mp hall e h

/-- Decoding shortens a text with an escape. -/
theorem length_decoded_lt {s : Str} (h : Escaped s) : (decoded s).length < s.length := by
  obtain ⟨e, he, hs⟩ := h
  have hlen := length_of_mem_escapes he
  fun_induction decoded s with
  | case1 | case2 | case3 =>
    have := hs.length_le
    simp only [List.length_cons, List.length_nil] at this
    omega
  | case4 a b c s d _ ih =>
    have := length_decoded_le s
    simp only [List.length_cons]
    omega
  | case5 a b c s hnone ih =>
    rcases List.infix_cons_iff.mp hs with hp | htail
    · have habc : e = [a, b, c] := by
        rw [List.prefix_iff_eq_take.mp hp, hlen]
        rfl
      exact absurd hnone (mem_escapes.mp (habc ▸ he))
    · have := ih htail
      simp only [List.length_cons] at this ⊢
      omega

/-- A text without an escape is kept. -/
theorem decoded_of_not {s : Str} (h : ¬Escaped s) : decoded s = s := by
  fun_induction decoded s with
  | case1 | case2 | case3 => rfl
  | case4 a b c s d hsome _ =>
    refine absurd ⟨[a, b, c], mem_escapes.mpr ?_, ?_⟩ h
    · simp [hsome]
    · exact List.IsPrefix.isInfix ⟨s, rfl⟩
  | case5 a b c s _ ih =>
    rw [ih]
    rintro ⟨e, he, hs⟩
    exact h ⟨e, he, List.infix_cons hs⟩

/-- No line holds a line feed. -/
theorem newline_not_mem_line {v line : Str} (h : line ∈ linesOf v) : byte '\n' ∉ line :=
  not_mem_of_mem_splitOn h

/-- Directives register the lines that they are for, decoded. -/
theorem registered_maskText {lines : List Str} (h : ∀ line ∈ lines, byte '\n' ∉ line) :
    registered (lines.flatMap maskText) = lines.map decoded := by
  have hskip : directive [] = none := by decide
  induction lines with
  | nil => simp [registered, linesOf, hskip]
  | cons line lines ih =>
    have hline : byte '\n' ∉ ascii "::add-mask::" ++ line := by
      intro hm
      rcases List.mem_append.mp hm with hm | hm
      · exact absurd hm (by decide)
      · exact h line List.mem_cons_self hm
    have hdirective : directive (ascii "::add-mask::" ++ line) = some (decoded line) := by
      have hpre : hasPrefix (ascii "::add-mask::" ++ line) (ascii "::add-mask::") = true :=
        List.isPrefixOf_iff_prefix.mpr (List.prefix_append _ _)
      rw [directive, if_pos hpre, List.drop_left]
    have htext : (line :: lines).flatMap maskText =
        (ascii "::add-mask::" ++ line) ++ byte '\n' :: lines.flatMap maskText := by
      simp [maskText]
    have hrest := ih fun l hl => h l (List.mem_cons_of_mem _ hl)
    rw [registered] at hrest ⊢
    rw [htext, linesOf, List.splitOn_append_cons_self_of_not_mem hline,
      List.filterMap_cons_some hdirective, hrest, List.map_cons]

/-- The masks of every block come before it. -/
theorem masksFirst_of_blocks {m : Vars} {bs : List Block} {out : Output}
    (hbs : bs.map Block.pair = m.written) (hlog : out.log = bs.flatMap Block.writes) :
    MasksFirst m out := by
  intro p hp
  have hmem : p ∈ bs.map Block.pair := by
    rw [hbs]
    exact Vars.written_perm.mem_iff.mpr hp
  obtain ⟨b, hb, rfl⟩ := List.mem_map.mp hmem
  obtain ⟨as, cs, rfl⟩ := List.append_of_mem hb
  refine ⟨as.flatMap Block.writes ++ (masked b.value).map fun line => ⟨.mask, maskText line⟩,
    b.delim, cs.flatMap Block.writes, ?_, ?_⟩
  · simp [hlog, Block.writes, Block.pair]
  · intro line hline
    exact List.mem_append_right _ (List.mem_map_of_mem hline)

/-- The masks of a successful run are the lines of the values, decoded. -/
theorem registered_of_blocks {m : Vars} {bs : List Block} {out : Output}
    (hbs : bs.map Block.pair = m.written) (hlog : out.log = bs.flatMap Block.writes) (d : Str) :
    d ∈ registered (out.written .mask) ↔
      ∃ p ∈ m.entries, ∃ line ∈ linesOf p.2, line ≠ [] ∧ decoded line = d := by
  have hvalues : (bs.flatMap fun b => masked b.value) =
      m.written.flatMap fun p => masked p.2 := by
    rw [← hbs, List.flatMap_map]
    rfl
  rw [written_mask hlog, registered_maskText, hvalues]
  · simp only [List.mem_map, List.mem_flatMap, masked, List.mem_filter, decide_eq_true_eq,
      Vars.written_perm.mem_iff]
    constructor
    · rintro ⟨line, ⟨p, hp, hline, hne⟩, hd⟩
      exact ⟨p, hp, line, hline, hne, hd⟩
    · rintro ⟨p, hp, line, hline, hne, hd⟩
      exact ⟨line, ⟨p, hp, hline, hne⟩, hd⟩
  · intro line hline
    obtain ⟨b, -, hmem⟩ := List.mem_flatMap.mp hline
    exact newline_not_mem_line (List.mem_of_mem_filter hmem)

variable {o : Outside}

/-- When every line is the decoding of a line, none holds an escape: the longest one that does is
the decoding of a longer one. -/
theorem not_escaped_of_decoded {lines : List Str}
    (h : ∀ line ∈ lines, ∃ l ∈ lines, decoded l = line) : ∀ line ∈ lines, ¬Escaped line := by
  by_contra hex
  push Not at hex
  have hfinite : {line | line ∈ lines ∧ Escaped line}.Finite :=
    (List.finite_toSet lines).subset fun _ hl => hl.1
  obtain ⟨longest, ⟨hmem, hesc⟩, hmax⟩ :=
    Set.exists_max_image _ (fun line : Str => line.length) hfinite hex
  obtain ⟨l, hl, hdec⟩ := h longest hmem
  have hesc' : Escaped l := by
    by_contra hplain
    rw [decoded_of_not hplain] at hdec
    exact hplain (hdec ▸ hesc)
  have hlt := length_decoded_lt hesc'
  rw [hdec] at hlt
  exact absurd (hmax l ⟨hl, hesc'⟩) (Nat.not_le.mpr hlt)

/-- Every line of every value is registered as it is, before its block, exactly when no line holds
an escape of a workflow command. -/
theorem registered_iff {m : Vars} {out : Output} (h : emit o m = .ok out) :
    Registered m out ∧ MasksFirst m out ↔
      ∀ p ∈ m.entries, ∀ line ∈ linesOf p.2, ¬Escaped line := by
  obtain ⟨bs, hbs, hlog⟩ := emit_ok h
  have hmem := registered_of_blocks hbs hlog
  constructor
  · rintro ⟨hreg, -⟩
    have hlines : ∀ line, line ∈ m.entries.flatMap (fun p => masked p.2) ↔
        ∃ p ∈ m.entries, line ∈ linesOf p.2 ∧ line ≠ [] := by
      simp [masked, List.mem_flatMap]
    have hplain : ∀ line ∈ m.entries.flatMap (fun p => masked p.2), ¬Escaped line := by
      refine not_escaped_of_decoded fun line hline => ?_
      obtain ⟨p, hp, hmemp, hne⟩ := (hlines line).mp hline
      obtain ⟨q, hq, l, hl, hlne, hdec⟩ := (hmem line).mp (hreg p hp line hmemp hne)
      exact ⟨l, (hlines l).mpr ⟨q, hq, hl, hlne⟩, hdec⟩
    intro p hp line hline
    by_cases hne : line = []
    · rintro ⟨e, he, hs⟩
      have := hs.length_le
      rw [length_of_mem_escapes he, hne] at this
      cases this
    · exact hplain line ((hlines line).mpr ⟨p, hp, hline, hne⟩)
  · intro hplain
    refine ⟨fun p hp line hline hne => ?_, masksFirst_of_blocks hbs hlog⟩
    exact (hmem line).mpr ⟨p, hp, line, hline, hne, decoded_of_not (hplain p hp line hline)⟩

/-- A secret with a percent sign that the runner decodes. -/
def leaking : Vars where
  entries := [(ascii "TOKEN", ascii "a%25b")]
  nodup := by decide

/-- The run that exports the secret. -/
theorem emit_leaking : ∃ out, emit calm leaking = .ok out := by
  have hok : (emit calm leaking).toBool = true := by decide +kernel
  cases he : emit calm leaking with
  | error e =>
    rw [he] at hok
    cases hok
  | ok out => exact ⟨out, rfl⟩

/-- The equivalence on the secret. -/
theorem registered_iff_leaking : ∃ out, emit calm leaking = .ok out ∧
    (Registered leaking out ∧ MasksFirst leaking out ↔
      ∀ p ∈ leaking.entries, ∀ line ∈ linesOf p.2, ¬Escaped line) := by
  obtain ⟨out, hout⟩ := emit_leaking
  exact ⟨out, hout, registered_iff hout⟩

/-- The line of the secret is not registered: `a%b` is. -/
theorem not_registered_leaking :
    ∃ out, emit calm leaking = .ok out ∧ registered (out.written .mask) = [ascii "a%b"] ∧
      ¬Registered leaking out := by
  obtain ⟨out, hout⟩ := emit_leaking
  have hreg : (registered <$> (Output.written · .mask) <$> emit calm leaking).toOption =
      some [ascii "a%b"] := by decide +kernel
  rw [hout] at hreg
  have hmask : registered (out.written .mask) = [ascii "a%b"] := Option.some.inj hreg
  refine ⟨out, hout, hmask, fun h => ?_⟩
  have hmem := h _ List.mem_cons_self (ascii "a%25b") (by decide) (by decide)
  rw [hmask] at hmem
  exact absurd hmem (by decide)

end Comax.Cli.Ghenv
