import Comax.Cli.Ghenv
import Comax.Server.Router

/-!
# Reading back what was exported

A run of `Emit` that succeeds is a sequence of blocks whose delimiters differ from every line
of their values, so the reader finds the end of a block where the emitter wrote it.
-/

namespace Comax.Cli.Ghenv

open Comax.Core

/-- A block that a successful run has written. -/
structure Block where
  key : Str
  value : Str
  delim : Str
  /-- The delimiter is none of the lines of the value. -/
  fresh : delim ∉ linesOf value
  /-- The delimiter is one line. -/
  line : byte '\n' ∉ delim

/-- The pair of a block. -/
def Block.pair (b : Block) : Str × Str := (b.key, b.value)

/-- The lines that `Emit` masks. -/
def masked (v : Str) : List Str := (linesOf v).filter fun line => line ≠ []

/-- The writes of a block. -/
def Block.writes (b : Block) : List Write :=
  (masked b.value).map (fun line => ⟨.mask, maskText line⟩) ++
    [⟨.env, heredocText b.key b.delim b.value⟩]

/-- A text of delimiters is one line. -/
theorem newline_not_mem_delimiterText (d : Draw) : byte '\n' ∉ delimiterText d := by
  have hlt : ¬byte '0' ≤ byte '\n' := by decide
  intro h
  rcases List.mem_append.mp h with h | h
  · exact absurd h (by decide)
  · exact hlt (le_of_mem_hexEncode h)

variable {o : Outside}

/-- A write that succeeds is the last of the log. -/
theorem wp_fprintf {sink : Sink} {text : Str} {e : Failure} {out : Output}
    {Q : Unit → Output → Prop} (h : Q () { out with log := out.log ++ [⟨sink, text⟩] }) :
    wp (fprintf o sink text e) out Q fun _ => True := by
  unfold wp fprintf
  cases o.short out.log.length with
  | none => exact h
  | some n => trivial

/-- A delimiter that is returned is one line and not among the lines. -/
theorem wp_attempts {wrap : DelimiterError → Failure} {lines : List Str} (n : ℕ) (out : Output) :
    wp (attempts o wrap lines n) out
      (fun d out' => out'.log = out.log ∧ d ∉ lines ∧ byte '\n' ∉ d) fun _ => True := by
  induction n generalizing out with
  | zero => trivial
  | succ n ih =>
    rw [attempts, wp_bind]
    unfold wp randomDelimiter
    cases o.draw out.drawn with
    | none => trivial
    | some b =>
      simp only
      cases hc : containsLine lines (delimiterText b) with
      | true => exact ih _
      | false =>
        refine ⟨rfl, fun hm => ?_, newline_not_mem_delimiterText b⟩
        simp only [containsLine, List.any_eq_false, decide_eq_true_eq] at hc
        exact hc _ hm rfl

/-- The mask loop writes one directive for each line that is not empty. -/
theorem wp_maskLines (k : Str) (lines : List Str) (out : Output) :
    wp (maskLines o k lines) out
      (fun _ out' => out'.log = out.log ++
        (lines.filter fun line => line ≠ []).map fun line => ⟨.mask, maskText line⟩)
      fun _ => True := by
  induction lines generalizing out with
  | nil => exact (List.append_nil _).symm
  | cons line lines ih =>
    rw [maskLines]
    by_cases hl : line = []
    · simpa [hl] using ih out
    · rw [if_pos hl, wp_bind]
      refine wp_fprintf (wp_mono (ih _) (fun _ out' h' => ?_) fun _ he => he)
      rw [h', List.filter_cons_of_pos (by simpa using hl), List.map_cons, List.append_assoc,
        List.singleton_append]

/-- One pass of the loop writes one block. -/
theorem wp_emitKey (k v : Str) (out : Output) :
    wp (emitKey o k v) out
      (fun _ out' => ∃ b : Block, b.pair = (k, v) ∧ out'.log = out.log ++ b.writes)
      fun _ => True := by
  unfold emitKey
  split_ifs
  · trivial
  rw [wp_bind]
  refine wp_mono (wp_maskLines k (linesOf v) out) (fun _ out₁ h₁ => ?_) fun _ he => he
  rw [wp_bind]
  refine wp_mono (wp_attempts _ out₁) (fun d out₂ h₂ => ?_) fun _ he => he
  obtain ⟨hlog, hfresh, hline⟩ := h₂
  refine wp_fprintf ⟨⟨k, v, d, hfresh, hline⟩, rfl, ?_⟩
  simp only [hlog, h₁, Block.writes, masked, List.append_assoc]

/-- The loop writes one block for each pair. -/
theorem wp_emitKeys (ps : List (Str × Str)) (out : Output) :
    wp (emitKeys o ps) out
      (fun _ out' => ∃ bs : List Block, bs.map Block.pair = ps ∧
        out'.log = out.log ++ bs.flatMap Block.writes)
      fun _ => True := by
  induction ps generalizing out with
  | nil => exact ⟨[], rfl, (List.append_nil _).symm⟩
  | cons p ps ih =>
    rw [emitKeys, wp_bind]
    refine wp_mono (wp_emitKey p.1 p.2 out) (fun _ out₁ h₁ => ?_) fun _ he => he
    obtain ⟨b, hb, hlog⟩ := h₁
    refine wp_mono (ih out₁) (fun _ out₂ h₂ => ?_) fun _ he => he
    obtain ⟨bs, hbs, hlogs⟩ := h₂
    refine ⟨b :: bs, ?_, ?_⟩
    · rw [List.map_cons, hb, hbs]
    · rw [hlogs, hlog, List.flatMap_cons, List.append_assoc]

/-- A successful run is a sequence of blocks, one for each pair in key order. -/
theorem emit_ok {m : Vars} {out : Output} (h : emit o m = .ok out) :
    ∃ bs : List Block, bs.map Block.pair = m.written ∧ out.log = bs.flatMap Block.writes := by
  cases hr : emitKeys o m.written ⟨[], 0⟩ with
  | error e =>
    rw [emit, hr] at h
    cases h
  | ok r =>
    obtain ⟨bs, hbs, hlog⟩ := wp_ok (wp_emitKeys m.written ⟨[], 0⟩) hr
    rw [emit, hr] at h
    cases h
    exact ⟨bs, hbs, hlog⟩

/-- The heredoc text of a block. -/
def Block.text (b : Block) : Str := heredocText b.key b.delim b.value

/-- What a sequence of blocks writes to the env file. -/
theorem written_env {bs : List Block} {out : Output} (h : out.log = bs.flatMap Block.writes) :
    out.written .env = bs.flatMap Block.text := by
  have hblock : ∀ b : Block, (b.writes.filter fun w => w.sink = .env) = [⟨.env, b.text⟩] := by
    intro b
    simp [Block.writes, Block.text, List.filter_map, Function.comp_def]
  simp only [Output.written, h, List.filter_flatMap, hblock, List.flatMap_assoc,
    List.flatMap_singleton]

/-- What a sequence of blocks writes to standard output. -/
theorem written_mask {bs : List Block} {out : Output} (h : out.log = bs.flatMap Block.writes) :
    out.written .mask = (bs.flatMap fun b => masked b.value).flatMap maskText := by
  have hblock : ∀ b : Block, (b.writes.filter fun w => w.sink = .mask).flatMap Write.text =
      (masked b.value).flatMap maskText := by
    intro b
    simp [Block.writes, List.filter_map, Function.comp_def, List.flatMap_map]
  simp only [Output.written, h, List.filter_flatMap, List.flatMap_assoc, hblock]

/-- A text without the first character of another starts where that one is. -/
theorem index_append {c : UInt8} {sub s : Str} (hc : c ∉ s) (t : Str) :
    index (c :: sub) (s ++ c :: (sub ++ t)) = some s.length := by
  induction s with
  | nil => simp [index]
  | cons d s ih =>
    obtain ⟨hcd, hcs⟩ := List.ne_and_not_mem_of_not_mem_cons hc
    have hpre : (c :: sub).isPrefixOf (d :: (s ++ c :: (sub ++ t))) = false := by
      rw [List.isPrefixOf, beq_eq_false_iff_ne.mpr hcd, Bool.false_and]
    rw [List.cons_append, index, hpre, ih hcs]
    rfl

/-- The lines of a block, and of what follows it. -/
theorem linesOf_text (b : Block) (hkey : byte '\n' ∉ b.key) (t : Str) :
    linesOf (b.text ++ t) =
      (b.key ++ (ascii "<<" ++ b.delim)) :: (linesOf b.value ++ b.delim :: linesOf t) := by
  have hhead : byte '\n' ∉ b.key ++ (ascii "<<" ++ b.delim) := by
    intro h
    rcases List.mem_append.mp h with h | h
    · exact hkey h
    rcases List.mem_append.mp h with h | h
    · exact absurd h (by decide)
    · exact b.line h
  have htext : b.text ++ t = (b.key ++ (ascii "<<" ++ b.delim)) ++ byte '\n' ::
      (b.value ++ byte '\n' :: (b.delim ++ byte '\n' :: t)) := by
    simp [Block.text, heredocText]
  rw [linesOf, htext, List.splitOn_append_cons_self_of_not_mem hhead,
    List.splitOn_append_cons_self, List.splitOn_append_cons_self_of_not_mem b.line]

/-- Inside of a block, the lines up to the delimiter are its body. -/
theorem readBlocks_some (h : Opened) {lines : List Str} (hd : h.delim ∉ lines)
    (rest : List Str) :
    readBlocks (some h) (lines ++ h.delim :: rest) =
      ((h.key, [byte '\n'].intercalate (h.body ++ lines)) :: ·) <$> readBlocks none rest := by
  induction lines generalizing h with
  | nil => rw [List.nil_append, readBlocks, if_pos rfl, List.append_nil]
  | cons line lines ih =>
    obtain ⟨hne, hd⟩ := List.ne_and_not_mem_of_not_mem_cons hd
    rw [List.cons_append, readBlocks, if_neg hne.symm]
    refine (ih { h with body := h.body ++ [line] } hd).trans ?_
    rw [List.append_assoc, List.singleton_append]

/-- A block is read back, whatever follows it. -/
theorem readBlocks_text (b : Block) (hline : byte '\n' ∉ b.key) (hkey : byte '<' ∉ b.key)
    (t : Str) :
    readBlocks none (linesOf (b.text ++ t)) = (b.pair :: ·) <$> readBlocks none (linesOf t) := by
  have hsub : ascii "<<" = byte '<' :: [byte '<'] := by decide
  have hindex : index (ascii "<<") (b.key ++ (ascii "<<" ++ b.delim)) = some b.key.length := by
    rw [hsub]
    exact index_append hkey b.delim
  have hdrop : (b.key ++ (ascii "<<" ++ b.delim)).drop (b.key.length + 2) = b.delim := by
    rw [← List.append_assoc]
    exact List.drop_left' (by simp [hsub])
  have hne : b.key ++ (ascii "<<" ++ b.delim) ≠ [] := by simp [hsub]
  rw [linesOf_text b hline, readBlocks, if_neg hne, hindex]
  simp only [List.take_left, hdrop]
  rw [readBlocks_some ⟨b.key, b.delim, []⟩ b.fresh, List.nil_append, List.intercalate_splitOn]
  rfl

/-- A sequence of blocks is read back. -/
theorem parseHeredocs_texts {bs : List Block}
    (h : ∀ b ∈ bs, byte '\n' ∉ b.key ∧ byte '<' ∉ b.key) :
    parseHeredocs (bs.flatMap Block.text) = .ok (bs.map Block.pair) := by
  induction bs with
  | nil => rfl
  | cons b bs ih =>
    obtain ⟨hline, hkey⟩ := h b List.mem_cons_self
    rw [parseHeredocs, List.flatMap_cons, readBlocks_text b hline hkey]
    have hrest := ih fun c hc => h c (List.mem_cons_of_mem _ hc)
    rw [parseHeredocs] at hrest
    rw [hrest]
    rfl

/-- No character of a name ends its line or opens its heredoc. -/
theorem not_mem_name {srv : Server} {field : String} {k : Str}
    (h : Server.validateName srv field k = .ok ()) : byte '\n' ∉ k ∧ byte '<' ∉ k := by
  obtain ⟨-, -, hall⟩ := Server.validateName_ok_iff.mp h
  refine ⟨fun hm => ?_, fun hm => ?_⟩
  · exact absurd (hall _ hm) (by decide)
  · exact absurd (hall _ hm) (by decide)

/-- The reader finds the entries of the map, once each and in key order, whatever the values and
the delimiters drawn are. -/
theorem parseHeredocs_emit {srv : Server} {field : String} {m : Vars}
    (hm : ∀ p ∈ m.entries, Server.validateName srv field p.1 = .ok ()) {out : Output}
    (h : emit o m = .ok out) :
    ∃ es, parseHeredocs (out.written .env) = .ok es ∧ es.Perm m.entries ∧
      (es.map Prod.fst).Pairwise (· < ·) := by
  obtain ⟨bs, hbs, hlog⟩ := emit_ok h
  have hkeys : ∀ b ∈ bs, byte '\n' ∉ b.key ∧ byte '<' ∉ b.key := by
    intro b hb
    have hmem : b.pair ∈ m.written := by
      rw [← hbs]
      exact List.mem_map_of_mem hb
    exact not_mem_name (hm _ (Vars.written_perm.mem_iff.mp hmem))
  refine ⟨m.written, ?_, Vars.written_perm, ?_⟩
  · rw [written_env hlog, parseHeredocs_texts hkeys, hbs]
  · have hfst : m.written.map Prod.fst = m.keys := by
      rw [Vars.written, List.map_map]
      exact List.map_id _
    rw [hfst]
    exact Vars.keys_pairwise

/-- A map whose values look like blocks. -/
def sample : Vars where
  entries := [(ascii "PATH", ascii "a\nHOME<<E\n\nE\n"), (ascii "HOME", [])]
  nodup := by decide

/-- Draws that are all zero, and writers that take everything. -/
def calm : Outside := ⟨fun _ => some ⟨List.replicate 16 0, by decide⟩, fun _ => none⟩

/-- The values of the sample are read back. -/
theorem parseHeredocs_emit_sample : ∃ out, emit calm sample = .ok out ∧
    ∃ es, parseHeredocs (out.written .env) = .ok es ∧ es.Perm sample.entries ∧
      (es.map Prod.fst).Pairwise (· < ·) := by
  have hok : (emit calm sample).toBool = true := by decide +kernel
  have hname : ∀ p ∈ sample.entries,
      Server.validateName Server.plainServer "key" p.1 = .ok () := by
    intro p hp
    rcases List.mem_pair.mp hp with rfl | rfl <;> rfl
  cases he : emit calm sample with
  | error e =>
    rw [he] at hok
    cases hok
  | ok out => exact ⟨out, rfl, parseHeredocs_emit hname he⟩

end Comax.Cli.Ghenv
