import Comax.Cli.RoundTrip
import Comax.Core.Utf8

/-!
# The dashboard's `.env` export

`formatDotenv` sorts the entries, quotes a value that holds white space of JavaScript or one
of five other characters, and escapes four of them. Texts are lists of Unicode scalar values.
-/

namespace Comax.Dashboard

open Comax.Core

/-- `DotenvEntry` -/
structure DotenvEntry where
  key : List Char
  value : List Char
  deriving DecidableEq

/-- The character of a double quote. -/
def quoteChar : Char := Char.ofNat 0x22

/-- The character of a backslash. -/
def escapeChar : Char := Char.ofNat 0x5C

/-- The codes of the class `\s` of a JavaScript regular expression. -/
def jsSpaceCodes : List ℕ :=
  [0x09, 0x0A, 0x0B, 0x0C, 0x0D, 0x20, 0xA0, 0x1680, 0x2000, 0x2001, 0x2002, 0x2003, 0x2004,
    0x2005, 0x2006, 0x2007, 0x2008, 0x2009, 0x200A, 0x2028, 0x2029, 0x202F, 0x205F, 0x3000, 0xFEFF]

/-- The codes of the other characters of `NEEDS_QUOTE`: `"`, `#`, a single quote, `=` and `\`. -/
def quotedCodes : List ℕ := [0x22, 0x23, 0x27, 0x3D, 0x5C]

/-- `NEEDS_QUOTE.test` -/
def needsQuote (value : List Char) : Bool :=
  value.any fun c => (jsSpaceCodes ++ quotedCodes).contains c.toNat

/-- `value.replace(/c/g, text)` -/
def replaceAll (c : Char) (text value : List Char) : List Char :=
  value.flatMap fun d => if d = c then text else [d]

/-- The four replacements of `formatValue`. -/
def escaped (value : List Char) : List Char :=
  replaceAll '\r' [escapeChar, 'r'] (replaceAll '\n' [escapeChar, 'n']
    (replaceAll quoteChar [escapeChar, quoteChar]
      (replaceAll escapeChar [escapeChar, escapeChar] value)))

/-- `formatValue` -/
def formatValue (value : List Char) : List Char :=
  if value = [] then []
  else if needsQuote value then quoteChar :: (escaped value ++ [quoteChar])
  else value

/-- The line of an entry. -/
def entryLine (e : DotenvEntry) : List Char := e.key ++ '=' :: formatValue e.value

/-- The entries by key, for any `localeCompare`. -/
def sortEntries (localeCompare : List Char → List Char → Int) (entries : List DotenvEntry) :
    List DotenvEntry :=
  entries.mergeSort fun a b => localeCompare a.key b.key ≤ 0

/-- `formatDotenv` -/
def formatDotenv (localeCompare : List Char → List Char → Int) (entries : List DotenvEntry) :
    List Char :=
  if entries = [] then []
  else ['\n'].intercalate ((sortEntries localeCompare entries).map entryLine) ++ ['\n']

/-- One byte of an escaped value. -/
def escapeByte (b : UInt8) : Str :=
  if b = Cli.backslash then [Cli.backslash, Cli.backslash]
  else if b = Cli.doubleQuote then [Cli.backslash, Cli.doubleQuote]
  else if b = byte '\n' then [Cli.backslash, byte 'n']
  else if b = byte '\r' then [Cli.backslash, byte 'r']
  else [b]

/-- An escaped byte is itself, or an escape that stands for it. -/
theorem escapeByte_cases (b : UInt8) :
    (escapeByte b = [b] ∧ b ≠ Cli.doubleQuote ∧ b ≠ Cli.backslash) ∨
      ∃ d, escapeByte b = [Cli.backslash, d] ∧ Cli.unescape d = [b] := by
  rw [escapeByte]
  split_ifs with hb hq hn hr
  · exact .inr ⟨_, rfl, by rw [hb]; rfl⟩
  · exact .inr ⟨_, rfl, by rw [hq]; rfl⟩
  · exact .inr ⟨_, rfl, by rw [hn]; rfl⟩
  · exact .inr ⟨_, rfl, by rw [hr]; rfl⟩
  · exact .inl ⟨rfl, hq, hb⟩

/-- A value is escaped piece by piece. -/
theorem escaped_append (u v : List Char) : escaped (u ++ v) = escaped u ++ escaped v := by
  simp [escaped, replaceAll]

/-- A character with another code is another character. -/
theorem ne_of_mem_utf8EncodeChar {c d : Char} (hne : c ≠ d) (hd : d.toNat < 0x80) :
    d.toUInt8 ∉ String.utf8EncodeChar c := by
  have hbyte : d.toUInt8.toNat = d.toNat := by
    have := UInt32.toNat_toUInt8 d.val
    have hval : d.val.toNat = d.toNat := rfl
    rw [Char.toUInt8, this, hval]
    omega
  intro hm
  have hlt : d.toUInt8 < 0x80 := by
    rw [UInt8.lt_iff_toNat_lt, hbyte]
    exact hd
  have hcode := toNat_of_mem_utf8EncodeChar hm hlt
  rw [hbyte] at hcode
  exact hne (Char.toNat_inj.mp hcode)

/-- The encoding of an escaped value is the encoded value, escaped byte by byte. -/
theorem utf8_escaped (v : List Char) : utf8 (escaped v) = (utf8 v).flatMap escapeByte := by
  have hchar : ∀ c : Char, utf8 (escaped [c]) = (String.utf8EncodeChar c).flatMap escapeByte := by
    intro c
    by_cases hb : c = escapeChar
    · subst hb
      decide
    by_cases hq : c = quoteChar
    · subst hq
      decide
    by_cases hn : c = '\n'
    · subst hn
      decide
    by_cases hr : c = '\r'
    · subst hr
      decide
    have hself : escaped [c] = [c] := by simp [escaped, replaceAll, hb, hq, hn, hr]
    have hbytes : ∀ b ∈ String.utf8EncodeChar c, escapeByte b = [b] := by
      intro b hm
      have hspecial : ∀ d : Char, c ≠ d → d.toNat < 0x80 → b ≠ d.toUInt8 := by
        rintro d hne hd rfl
        exact ne_of_mem_utf8EncodeChar hne hd hm
      have hb' : b ≠ Cli.backslash := hspecial escapeChar hb (by decide)
      have hq' : b ≠ Cli.doubleQuote := hspecial quoteChar hq (by decide)
      rw [escapeByte, if_neg hb', if_neg hq', if_neg (hspecial _ hn (by decide)),
        if_neg (hspecial _ hr (by decide))]
    rw [hself, utf8, List.flatMap_singleton, List.flatMap_congr hbytes, List.flatMap_singleton']
  induction v with
  | nil => rfl
  | cons c v ih =>
    have hcons : c :: v = [c] ++ v := rfl
    rw [hcons, escaped_append, utf8_append, hchar, ih, utf8_append, List.flatMap_append]
    simp [utf8]

/-- A bare value has none of the bytes that the parser gives a meaning to. -/
theorem bare_bytes {v : List Char} (h : needsQuote v = false) {b : UInt8} (hb : b ∈ utf8 v) :
    Cli.isBlank b = false ∧ b ≠ Cli.doubleQuote ∧ b ≠ Cli.singleQuote ∧ b ≠ byte '#' ∧
      b ≠ byte '\n' ∧ b ≠ byte '\r' := by
  have hcode : ∀ d : UInt8, d < 0x80 → (jsSpaceCodes ++ quotedCodes).contains d.toNat = true →
      b ≠ d := by
    rintro d hlt hmem rfl
    obtain ⟨c, hc, hcb⟩ := mem_of_mem_utf8 hb hlt
    rw [needsQuote, List.any_eq_false] at h
    exact h c hc (hcb ▸ hmem)
  refine ⟨?_, hcode _ (by decide) (by decide), hcode _ (by decide) (by decide),
    hcode _ (by decide) (by decide), hcode _ (by decide) (by decide),
    hcode _ (by decide) (by decide)⟩
  simp [Cli.isBlank, hcode (byte ' ') (by decide) (by decide),
    hcode (byte '\t') (by decide) (by decide)]

/-- A quoted value between its quotes. -/
theorem utf8_formatValue_quoted {v : List Char} (h : needsQuote v = true) :
    utf8 (formatValue v) =
      Cli.doubleQuote :: ((utf8 v).flatMap escapeByte ++ [Cli.doubleQuote]) := by
  have hne : v ≠ [] := by
    rintro rfl
    cases h
  have hquote : utf8 [quoteChar] = [Cli.doubleQuote] := by decide
  have hcons : ∀ s : List Char, utf8 (quoteChar :: s) = Cli.doubleQuote :: utf8 s := by
    intro s
    have := utf8_append [quoteChar] s
    rwa [hquote] at this
  rw [formatValue, if_neg hne, if_pos h, hcons, utf8_append, utf8_escaped, hquote]

/-- A bare value as it is. -/
theorem formatValue_bare {v : List Char} (h : needsQuote v = false) : formatValue v = v := by
  rw [formatValue, h]
  by_cases hnil : v = []
  · rw [if_pos hnil, hnil]
  · rw [if_neg hnil]
    rfl

/-- What a value becomes after it was exported and read. -/
def restored (n : ℕ) (v : List Char) : Str :=
  if needsQuote v then utf8 v else Cli.trimEnd n (utf8 v)

/-- An exported value, trimmed with its line, is read back. -/
theorem parseValue_formatValue (n : ℕ) (v : List Char) :
    Cli.parseValue ((Cli.trimEnd n (utf8 (formatValue v))).dropWhile Cli.isBlank) =
      .ok (restored n v) := by
  cases h : needsQuote v with
  | false =>
    have hsub : ∀ b ∈ Cli.trimEnd n (utf8 v), b ∈ utf8 v := fun b hb =>
      (Cli.prefix_trimEnd n (utf8 v)).subset hb
    have hblank : ∀ b ∈ Cli.trimEnd n (utf8 v), Cli.isBlank b = false := fun b hb =>
      (bare_bytes h (hsub b hb)).1
    have hbyte : ∀ b ∈ Cli.trimEnd n (utf8 v),
        b ≠ Cli.doubleQuote ∧ b ≠ Cli.singleQuote ∧ b ≠ byte '#' := fun b hb => by
      obtain ⟨-, hd, hs, hh, -⟩ := bare_bytes h (hsub b hb)
      exact ⟨hd, hs, hh⟩
    rw [formatValue_bare h, Cli.dropWhile_isBlank hblank, Cli.parseValue_bare hblank hbyte,
      restored,
      h]
    rfl
  | true =>
    have hv := utf8_formatValue_quoted h
    have hend : Cli.endsInSpace (utf8 (formatValue v)) = false := by
      rw [hv, ← List.cons_append]
      exact Cli.endsInSpace_concat (Cli.not_mem_space (by decide) (by decide)) _
    rw [Cli.trimEnd_of_not hend, hv, List.dropWhile_cons_of_neg (by decide), Cli.parseValue,
      if_pos rfl, Cli.parseDoubleQuoted_flatMap escapeByte_cases, restored, h]
    rfl

/-- An exported value holds no line end. -/
theorem not_lineEnd_of_mem_formatValue (v : List Char) :
    ∀ b ∈ utf8 (formatValue v), b ≠ byte '\n' ∧ b ≠ byte '\r' := by
  intro b hb
  cases h : needsQuote v with
  | false =>
    rw [formatValue_bare h] at hb
    obtain ⟨-, -, -, -, hends⟩ := bare_bytes h hb
    exact hends
  | true =>
    rw [utf8_formatValue_quoted h] at hb
    simp only [List.mem_cons, List.mem_append, List.mem_flatMap, List.not_mem_nil, or_false] at hb
    rcases hb with rfl | ⟨c, -, hb⟩ | rfl
    · decide
    · rw [escapeByte] at hb
      split_ifs at hb with hs hq hn hr
      any_goals
        rcases List.mem_pair.mp hb with rfl | rfl <;> decide
      rw [List.mem_singleton.mp hb]
      exact ⟨hn, hr⟩
    · decide

/-- The characters of `unicode.IsSpace`. -/
def goSpaceCodes : List ℕ :=
  [0x09, 0x0A, 0x0B, 0x0C, 0x0D, 0x20, 0x85, 0xA0, 0x1680, 0x2000, 0x2001, 0x2002, 0x2003, 0x2004,
    0x2005, 0x2006, 0x2007, 0x2008, 0x2009, 0x200A, 0x2028, 0x2029, 0x202F, 0x205F, 0x3000]

/-- The control character that Go counts as white space and JavaScript does not. -/
def nextLine : Char := Char.ofNat 0x85

/-- A bare value ends in white space of Go exactly when it ends in that character. -/
theorem endsInSpace_bare {v : List Char} (h : needsQuote v = false) :
    Cli.endsInSpace (utf8 v) = true ↔ v.getLast? = some nextLine := by
  have hspaces : spaces = goSpaceCodes.map fun n => String.utf8EncodeChar (Char.ofNat n) := by
    decide
  have hrest : ∀ n ∈ goSpaceCodes, n ≠ 0x85 →
      (jsSpaceCodes ++ quotedCodes).contains (Char.ofNat n).toNat = true := by decide
  simp only [Cli.endsInSpace, hspaces, List.any_map, List.any_eq_true, Function.comp_apply,
    List.isSuffixOf_iff_suffix, utf8EncodeChar_suffix_iff]
  constructor
  · rintro ⟨n, hn, hlast⟩
    by_cases h85 : n = 0x85
    · rw [hlast, h85]
      rfl
    · rw [needsQuote, List.any_eq_false] at h
      exact absurd (hrest n hn h85) (h _ (List.mem_of_getLast? hlast))
  · intro hlast
    exact ⟨0x85, by decide, hlast⟩

/-- Joined lines, and a line feed after the last one. -/
theorem utf8_intercalate {lines : List (List Char)} (h : lines ≠ []) :
    utf8 (['\n'].intercalate lines ++ ['\n']) = (lines.map utf8).flatMap (· ++ [byte '\n']) := by
  have hfeed : utf8 ['\n'] = [byte '\n'] := by decide
  induction lines with
  | nil => exact absurd rfl h
  | cons l lines ih =>
    cases lines with
    | nil => simp [hfeed]
    | cons m lines =>
      have hrest := ih (List.cons_ne_nil _ _)
      rw [List.intercalate_cons_cons, List.append_assoc, List.append_assoc, utf8_append,
        utf8_append, hfeed, hrest]
      simp only [List.map_cons, List.flatMap_cons, List.append_assoc]

/-- The exported text is one line for each entry. -/
theorem utf8_formatDotenv (localeCompare : List Char → List Char → Int)
    (entries : List DotenvEntry) :
    utf8 (formatDotenv localeCompare entries) = ((sortEntries localeCompare entries).map fun e =>
      Cli.keyLine (utf8 e.key) (utf8 (formatValue e.value))).flatMap (· ++ [byte '\n']) := by
  have hline : ∀ e : DotenvEntry, utf8 (entryLine e) =
      Cli.keyLine (utf8 e.key) (utf8 (formatValue e.value)) := by
    intro e
    have heq : utf8 ['='] = [byte '='] := by decide
    rw [entryLine, utf8_append, ← List.singleton_append, utf8_append, heq]
    rfl
  have hperm : (sortEntries localeCompare entries).Perm entries := List.mergeSort_perm _ _
  by_cases hnil : entries = []
  · subst hnil
    rw [List.perm_nil.mp hperm]
    rfl
  · have hne : (sortEntries localeCompare entries).map entryLine ≠ [] := by
      rw [ne_eq, List.map_eq_nil_iff]
      exact fun he => hnil (List.nil_perm.mp (he ▸ hperm))
    rw [formatDotenv, if_neg hnil, utf8_intercalate hne, List.map_map]
    refine congrArg _ (List.map_congr_left fun e _ => hline e)

/-- The keys are distinct and valid, and every line fits the scanner's buffer. -/
structure Exportable (entries : List DotenvEntry) : Prop where
  /-- A key has one entry. -/
  nodup : (entries.map DotenvEntry.key).Nodup
  /-- `validKey` accepts every key. -/
  validKey : ∀ e ∈ entries, Cli.validKey (utf8 e.key) = true
  /-- No line reaches `bufio.MaxScanTokenSize`. -/
  fits : ∀ e ∈ entries,
    (Cli.keyLine (utf8 e.key) (utf8 (formatValue e.value))).length < Cli.maxScanTokenSize

/-- The parser of the command line reads the pairs that the dashboard exports. -/
def ReadsBack (localeCompare : List Char → List Char → Int) (entries : List DotenvEntry) : Prop :=
  ∃ es, Cli.parse (utf8 (formatDotenv localeCompare entries)) = .ok es ∧
    (es.map fun e => (e.key, e.value)).Perm (entries.map fun e => (utf8 e.key, utf8 e.value))

/-- A value survives exactly when it is quoted or does not end in the control character. -/
theorem restored_eq_iff (n : ℕ) (v : List Char) :
    restored (n + 1) v = utf8 v ↔ needsQuote v = true ∨ v.getLast? ≠ some nextLine := by
  cases h : needsQuote v with
  | true => simp [restored, h]
  | false =>
    have hend := endsInSpace_bare h
    simp only [restored, h, Bool.false_eq_true, if_false, false_or, ne_eq, ← hend]
    refine ⟨fun he hspace => Cli.trimEnd_ne hspace n he, fun hspace => ?_⟩
    exact Cli.trimEnd_of_not (Bool.eq_false_iff.mpr hspace) _

/-- The export is read back exactly when no bare value ends in the control character. -/
theorem readsBack_iff (localeCompare : List Char → List Char → Int) {entries : List DotenvEntry}
    (h : Exportable entries) : ReadsBack localeCompare entries ↔
      ∀ e ∈ entries, needsQuote e.value = true ∨ e.value.getLast? ≠ some nextLine := by
  have hperm : (sortEntries localeCompare entries).Perm entries := List.mergeSort_perm _ _
  have hmem : ∀ e, e ∈ sortEntries localeCompare entries ↔ e ∈ entries := fun e => hperm.mem_iff
  obtain ⟨es, hparse, -, hpairs⟩ := Cli.parse_keyLines
    (fun e he => h.validKey e ((hmem e).mp he)) (fun e _ => parseValue_formatValue _ e.value)
    (fun e _ => not_lineEnd_of_mem_formatValue e.value) fun e he => h.fits e ((hmem e).mp he)
  rw [← utf8_formatDotenv] at hparse
  have hlen : ∀ e : DotenvEntry, ∃ n,
      (Cli.keyLine (utf8 e.key) (utf8 (formatValue e.value))).length = n + 1 := by
    intro e
    exact ⟨(utf8 e.key).length + (utf8 (formatValue e.value)).length, by
      simp [Cli.keyLine]
      omega⟩
  constructor
  · rintro ⟨es', hparse', hpairs'⟩ e he
    obtain rfl : es = es' := Except.ok.inj (hparse.symm.trans hparse')
    have hpair := hpairs'.mem_iff.mpr (List.mem_map_of_mem he)
    rw [hpairs] at hpair
    obtain ⟨d, hd, hde⟩ := List.mem_map.mp hpair
    obtain ⟨hkey, hvalue⟩ := Prod.mk.inj hde
    obtain rfl : d = e :=
      List.inj_on_of_nodup_map h.nodup ((hmem d).mp hd) he (utf8_injective hkey)
    obtain ⟨n, hn⟩ := hlen d
    rw [hn] at hvalue
    exact (restored_eq_iff n d.value).mp hvalue
  · intro hall
    refine ⟨es, hparse, ?_⟩
    have hvalues : (sortEntries localeCompare entries).map (fun e => (utf8 e.key,
        restored (Cli.keyLine (utf8 e.key) (utf8 (formatValue e.value))).length e.value)) =
          (sortEntries localeCompare entries).map fun e => (utf8 e.key, utf8 e.value) := by
      refine List.map_congr_left fun e he => ?_
      obtain ⟨n, hn⟩ := hlen e
      rw [hn, (restored_eq_iff n e.value).mpr (hall e ((hmem e).mp he))]
    rw [hpairs, hvalues]
    exact hperm.map _

/-- A quoted and a bare value. -/
def plainEntries : List DotenvEntry :=
  [⟨['B'], "line\n# two".toList⟩, ⟨['A'], "$x".toList⟩]

/-- The plain entries can be exported, and their export is read back. -/
theorem readsBack_iff_plain : ReadsBack (fun _ _ => 0) plainEntries ↔
    ∀ e ∈ plainEntries, needsQuote e.value = true ∨ e.value.getLast? ≠ some nextLine :=
  readsBack_iff _ ⟨by decide, by decide +kernel, by decide +kernel⟩

/-- A value that ends in the control character. -/
def nextLineEntries : List DotenvEntry := [⟨['K'], ['v', nextLine]⟩]

/-- The control character is neither quoted nor kept. -/
theorem not_readsBack_nextLine : Exportable nextLineEntries ∧
    Cli.parse (utf8 (formatDotenv (fun _ _ => 0) nextLineEntries)) =
      .ok [⟨1, ascii "K", ascii "v"⟩] ∧ ¬ReadsBack (fun _ _ => 0) nextLineEntries := by
  have hsort : sortEntries (fun _ _ => 0) nextLineEntries = nextLineEntries :=
    List.perm_singleton.mp (List.mergeSort_perm _ _)
  have htext : utf8 (formatDotenv (fun _ _ => 0) nextLineEntries) =
      ascii "K=v" ++ [0xC2, 0x85, 0x0A] := by
    rw [utf8_formatDotenv, hsort]
    decide
  have hparse : Cli.parse (utf8 (formatDotenv (fun _ _ => 0) nextLineEntries)) =
      .ok [⟨1, ascii "K", ascii "v"⟩] := by
    rw [htext]
    rfl
  refine ⟨⟨by decide, by decide +kernel, by decide +kernel⟩, hparse, ?_⟩
  rintro ⟨es, hes, hperm⟩
  obtain rfl := Except.ok.inj (hparse.symm.trans hes)
  exact absurd (List.perm_singleton.mp hperm) (by decide)

end Comax.Dashboard
