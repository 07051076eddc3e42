import Comax.Cli.Dotenv

/-!
# Parsing what was emitted

An emitted line is read back with its key, and with its value less the Unicode white
space that a bare value ends with: `Emit` quotes for blanks, tabs and line ends only,
and `parseLine` trims the line with `strings.TrimSpace`.
-/

namespace Comax.Cli

/-- A byte of a key. -/
def isKeyByte (c : UInt8) : Bool := isLetter c || isDigit c

/-- A key has bytes, and only bytes of a key. -/
theorem validKey_bytes {k : Str} (h : validKey k = true) :
    k ≠ [] ∧ ∀ c ∈ k, isKeyByte c = true := by
  simp only [validKey, Bool.and_eq_true, Bool.not_eq_true', List.isEmpty_eq_false_iff,
    List.all_eq_true] at h
  refine ⟨h.1, fun c hc => ?_⟩
  obtain ⟨i, hi, rfl⟩ := List.getElem_of_mem hc
  have hp := h.2 (k[i], i) (List.mem_zipIdx_iff_getElem?.mpr (List.getElem?_eq_getElem hi))
  simp only [isKeyByte, Bool.or_eq_true, Bool.and_eq_true] at hp ⊢
  exact hp.imp id And.left

/-- A byte of a key is printable ASCII, and none that the line syntax uses. -/
theorem isKeyByte_iff {c : UInt8} (h : isKeyByte c = true) :
    byte '0' ≤ c ∧ c ≤ byte 'z' ∧ c ≠ byte '=' := by
  simp only [isKeyByte, isLetter, isDigit, Bool.or_eq_true, Bool.and_eq_true, decide_eq_true_eq,
    beq_iff_eq] at h
  simp only [UInt8.le_iff_toNat_le, ne_eq, ← UInt8.toNat_inj] at h ⊢
  obtain ⟨h0, h9, ha, hz, hA, hZ⟩ := alnum_codes
  have hu : (byte '_').toNat = 95 := rfl
  have he : (byte '=').toNat = 61 := rfl
  omega

/-- White space has no printable ASCII byte. -/
theorem not_mem_space {c : UInt8} (hlo : 0x21 ≤ c) (hhi : c < 0x80) : ∀ w ∈ spaces, c ∉ w := by
  have hall : (spaces.all fun w => w.all fun d => d < 0x21 || 0x80 ≤ d) = true := by decide
  intro w hw hc
  have hc' := List.all_eq_true.mp (List.all_eq_true.mp hall w hw) c hc
  simp only [Bool.or_eq_true, decide_eq_true_eq] at hc'
  rcases hc' with h | h
  · exact absurd hlo (UInt8.not_le.mpr h)
  · exact absurd hhi (UInt8.not_lt.mpr h)

/-- A text of printable ASCII without the two characters that open a comment and a value. -/
structure Plain (k : Str) : Prop where
  /-- The text has bytes. -/
  ne_nil : k ≠ []
  /-- Its bytes are printable ASCII, and none that the line syntax uses. -/
  bytes : ∀ c ∈ k, 0x21 ≤ c ∧ c < 0x80 ∧ c ≠ byte '=' ∧ c ≠ byte '#'

/-- A valid key is plain. -/
theorem plain_of_validKey {k : Str} (h : validKey k = true) : Plain k := by
  obtain ⟨hne, hbytes⟩ := validKey_bytes h
  refine ⟨hne, fun c hc => ?_⟩
  obtain ⟨hlo, hhi, heq⟩ := isKeyByte_iff (hbytes c hc)
  have hmin : (0x21 : UInt8) ≤ byte '0' := by decide
  have hmax : byte 'z' < 0x80 := by decide
  refine ⟨UInt8.le_trans hmin hlo, UInt8.lt_of_le_of_lt hhi hmax, heq, ?_⟩
  rintro rfl
  exact absurd hlo (by decide)

/-- White space has no byte of a plain text. -/
theorem Plain.not_mem_space {k : Str} (h : Plain k) {c : UInt8} (hc : c ∈ k) :
    ∀ w ∈ spaces, c ∉ w := by
  obtain ⟨hlo, hhi, -⟩ := h.bytes c hc
  exact Cli.not_mem_space hlo hhi

/-- What `strings.TrimSpace` takes off the end of a text, in at most `n` characters. -/
def trimEnd (n : ℕ) (s : Str) : Str := (dropWords (spaces.map List.reverse) n s.reverse).reverse

/-- The text ends in Unicode white space. -/
def endsInSpace (s : Str) : Bool := spaces.any fun w => w.isSuffixOf s

/-- Trimming keeps a prefix. -/
theorem prefix_trimEnd (n : ℕ) (s : Str) : trimEnd n s <+: s := by
  have h := dropWords_suffix (spaces.map List.reverse) n s.reverse
  simpa [trimEnd] using List.reverse_prefix.mpr h

/-- A text keeps its end when that is no white space. -/
theorem trimEnd_of_not {s : Str} (h : endsInSpace s = false) (n : ℕ) : trimEnd n s = s := by
  have hnone : ∀ w ∈ spaces.map List.reverse, ¬w <+: s.reverse := by
    intro w hw hp
    obtain ⟨u, hu, rfl⟩ := List.mem_map.mp hw
    have hs : u.isSuffixOf s = true := List.isSuffixOf_iff_suffix.mpr (List.reverse_prefix.mp hp)
    simp only [endsInSpace, List.any_eq_false] at h
    exact h u hu hs
  rw [trimEnd, dropWords_of_none hnone, List.reverse_reverse]

/-- White space at the end is lost. -/
theorem trimEnd_ne {s : Str} (h : endsInSpace s = true) (n : ℕ) : trimEnd (n + 1) s ≠ s := by
  simp only [endsInSpace, List.any_eq_true, List.isSuffixOf_iff_suffix] at h
  obtain ⟨w, hw, hs⟩ := h
  intro he
  have hdrop := dropWords_ne (by decide) (List.mem_map_of_mem (f := List.reverse) hw)
    (List.reverse_prefix.mpr hs) n
  exact hdrop (List.reverse_eq_iff.mp he)

/-- A text that starts and stops with printable ASCII is kept. -/
theorem trimSpace_append {c : UInt8} (hc : ∀ w ∈ spaces, c ∉ w) {d : UInt8}
    (hd : ∀ w ∈ spaces, d ∉ w) (s t : Str) :
    trimSpace (c :: (s ++ d :: t)) =
      c :: (s ++ d :: trimEnd (c :: (s ++ d :: t)).length t) := by
  have hfront : ∀ w ∈ spaces, ¬w <+: c :: (s ++ d :: t) := by
    intro w hw hp
    rcases List.prefix_cons_iff.mp hp with rfl | ⟨r, rfl, -⟩
    · exact absurd hw (by decide)
    · exact hc _ hw List.mem_cons_self
  have hback : ∀ w ∈ spaces.map List.reverse, d ∉ w := by
    intro w hw
    obtain ⟨u, hu, rfl⟩ := List.mem_map.mp hw
    simpa using hd u hu
  have hrev : (c :: (s ++ d :: t)).reverse = t.reverse ++ d :: (c :: s).reverse := by simp
  rw [trimSpace, dropWords_of_none hfront, hrev, dropWords_append hback]
  simp [trimEnd]

/-- A plain text is kept as it is. -/
theorem trimSpace_of_plain {s : Str} (h : Plain s) : trimSpace s = s := by
  have hfront : ∀ w ∈ spaces, ¬w <+: s := by
    intro w hw hp
    cases w with
    | nil => exact absurd hw (by decide)
    | cons d w => exact h.not_mem_space (hp.subset List.mem_cons_self) _ hw List.mem_cons_self
  have hback : ∀ w ∈ spaces.map List.reverse, ¬w <+: s.reverse := by
    intro w hw hp
    obtain ⟨u, hu, rfl⟩ := List.mem_map.mp hw
    cases u with
    | nil => exact absurd hu (by decide)
    | cons d u =>
      have hs : (d :: u) <:+ s := List.reverse_prefix.mp hp
      exact h.not_mem_space (hs.subset List.mem_cons_self) _ hu List.mem_cons_self
  rw [trimSpace, dropWords_of_none hfront, dropWords_of_none hback, List.reverse_reverse]

/-- An escaped byte is itself, or an escape that stands for it. -/
theorem escapeByte_cases (c : UInt8) :
    (escapeByte c = [c] ∧ c ≠ doubleQuote ∧ c ≠ backslash) ∨
      ∃ d, escapeByte c = [backslash, d] ∧ unescape d = [c] := by
  rw [escapeByte]
  split_ifs with hb hq hn ht hr
  · exact .inr ⟨_, rfl, by rw [hb]; rfl⟩
  · exact .inr ⟨_, rfl, by rw [hq]; rfl⟩
  · exact .inr ⟨_, rfl, by rw [hn]; rfl⟩
  · exact .inr ⟨_, rfl, by rw [ht]; rfl⟩
  · exact .inr ⟨_, rfl, by rw [hr]; rfl⟩
  · exact .inl ⟨rfl, hq, hb⟩

/-- A quoted value is read back up to its closing quote, when every byte is written as itself or as
an escape that stands for it. -/
theorem parseDoubleQuoted_flatMap {esc : UInt8 → Str}
    (hesc : ∀ c, (esc c = [c] ∧ c ≠ doubleQuote ∧ c ≠ backslash) ∨
      ∃ d, esc c = [backslash, d] ∧ unescape d = [c]) (v t : Str) :
    parseDoubleQuoted (v.flatMap esc ++ doubleQuote :: t) = .ok v := by
  induction v with
  | nil => cases t <;> simp [parseDoubleQuoted]
  | cons c v ih =>
    rw [List.flatMap_cons, List.append_assoc]
    rcases hesc c with ⟨he, hq, hb⟩ | ⟨d, he, hd⟩
    · obtain ⟨e, rest, hrest⟩ : ∃ e rest, v.flatMap esc ++ doubleQuote :: t = e :: rest :=
        List.exists_cons_of_ne_nil (by simp)
      rw [he, List.singleton_append, hrest, parseDoubleQuoted, if_neg hq, if_neg hb, ← hrest, ih]
      rfl
    · rw [he, List.cons_append, List.singleton_append, parseDoubleQuoted, if_neg (by decide),
        if_pos rfl, ih, hd]
      rfl

/-- Without its bytes, a byte is not found. -/
theorem indexByte_none {s : Str} {c : UInt8} (h : c ∉ s) : indexByte s c = none := by
  rw [indexByte, List.findIdx?_eq_none_iff]
  intro d hd
  simpa using fun he : d = c => h (he ▸ hd)

/-- A text that needs no quoting has neither blanks nor what starts a comment or a quote. -/
theorem needsQuoting_false {v : Str} (h : needsQuoting v = false) :
    (∀ c ∈ v, isBlank c = false) ∧ ∀ c ∈ v, c ≠ doubleQuote ∧ c ≠ singleQuote ∧ c ≠ byte '#' := by
  have hbyte : ∀ c ∈ v, needsQuotingByte c = false := by simpa [needsQuoting] using h
  refine ⟨fun c hc => ?_, fun c hc => ?_⟩
  · have := hbyte c hc
    simp only [needsQuotingByte, Bool.or_eq_false_iff] at this
    simp [isBlank, this]
  · have := hbyte c hc
    simp only [needsQuotingByte, Bool.or_eq_false_iff, beq_eq_false_iff_ne] at this
    simp [this]

/-- A part of a text that needs no quoting needs none. -/
theorem needsQuoting_mono {u v : Str} (hp : u <+: v) (h : needsQuoting v = false) :
    needsQuoting u = false := by
  simp only [needsQuoting, List.any_eq_false] at h ⊢
  exact fun c hc => h c (hp.subset hc)

/-- A text without blanks starts with none. -/
theorem dropWhile_isBlank {v : Str} (h : ∀ c ∈ v, isBlank c = false) : v.dropWhile isBlank = v := by
  rw [List.dropWhile_eq_self_iff]
  intro hlen
  simpa using h _ (List.getElem_mem hlen)

/-- A bare value is read as it is. -/
theorem parseValue_bare {v : Str} (hblank : ∀ c ∈ v, isBlank c = false)
    (hbyte : ∀ c ∈ v, c ≠ doubleQuote ∧ c ≠ singleQuote ∧ c ≠ byte '#') : parseValue v = .ok v := by
  have hhash : byte '#' ∉ v := fun hm => (hbyte _ hm).2.2 rfl
  have hbare : parseBare v = v := by
    rw [parseBare, indexByte_none hhash, List.rdropWhile_eq_self_iff]
    intro hne
    simpa using hblank _ (List.getLast_mem hne)
  cases v with
  | nil => rfl
  | cons c v =>
    obtain ⟨hq, hs, -⟩ := hbyte c List.mem_cons_self
    rw [parseValue, if_neg hq, if_neg hs, hbare]

/-- A text that stops with printable ASCII does not end in white space. -/
theorem endsInSpace_concat {d : UInt8} (hd : ∀ w ∈ spaces, d ∉ w) (s : Str) :
    endsInSpace (s ++ [d]) = false := by
  simp only [endsInSpace, List.any_eq_false, List.isSuffixOf_iff_suffix]
  intro w hw hs
  rcases List.suffix_concat_iff.mp hs with rfl | ⟨u, rfl, -⟩
  · exact absurd hw (by decide)
  · exact hd _ hw (by simp)

/-- What a value becomes after it was emitted and read back. -/
def restored (n : ℕ) (v : Str) : Str := if needsQuoting v then v else trimEnd n v

/-- An emitted value, trimmed with its line, is read back. -/
theorem parseValue_formatValue (n : ℕ) (v : Str) :
    parseValue ((trimEnd n (formatValue v)).dropWhile isBlank) = .ok (restored n v) := by
  cases hq : needsQuoting v with
  | false =>
    have hv : formatValue v = v := by
      by_cases hnil : v = []
      · rw [hnil]
        rfl
      · rw [formatValue, if_neg hnil, hq]
        rfl
    obtain ⟨hblank, hbyte⟩ :=
      needsQuoting_false (needsQuoting_mono (prefix_trimEnd n v) hq)
    rw [hv, dropWhile_isBlank hblank, parseValue_bare hblank hbyte, restored, hq]
    rfl
  | true =>
    have hne : v ≠ [] := by
      rintro rfl
      cases hq
    have hv : formatValue v = doubleQuote :: (v.flatMap escapeByte ++ [doubleQuote]) := by
      rw [formatValue, if_neg hne, hq]
      rfl
    have hend : endsInSpace (formatValue v) = false := by
      rw [hv, ← List.cons_append]
      exact endsInSpace_concat (not_mem_space (by decide) (by decide)) _
    rw [trimEnd_of_not hend, hv, List.dropWhile_cons_of_neg (by decide), parseValue, if_pos rfl,
      parseDoubleQuoted_flatMap escapeByte_cases, restored, hq]
    rfl

/-- A byte is found after the bytes that differ from it. -/
theorem indexByte_append {s : Str} {c : UInt8} (h : c ∉ s) (t : Str) :
    indexByte (s ++ c :: t) c = some s.length := by
  have hs : s.findIdx? (· == c) = none := indexByte_none h
  rw [indexByte, List.findIdx?_append, hs, List.findIdx?_cons]
  simp

/-- A line starts with its key, so with no word that holds a byte which the key does not. -/
theorem hasPrefix_key {k p : Str} {d : UInt8} (hd : d ∈ p) (hk : d ∉ k) (hne : d ≠ byte '=')
    (heq : byte '=' ∉ p) (t : Str) : hasPrefix (k ++ byte '=' :: t) p = false := by
  rw [hasPrefix, Bool.eq_false_iff, ne_eq, List.isPrefixOf_iff_prefix]
  intro hp
  have hke : k ++ [byte '='] <+: k ++ byte '=' :: t := by simp
  rcases List.prefix_or_prefix_of_prefix hp hke with h | h
  · rcases List.mem_append.mp (h.subset hd) with hm | hm
    · exact hk hm
    · exact hne (List.mem_singleton.mp hm)
  · exact heq (h.subset (by simp))

/-- The line of a key and the text of its value. -/
def keyLine (k t : Str) : Str := k ++ byte '=' :: t

section KeyLine

variable {k : Str} (hk : Plain k) (t : Str)
include hk

/-- A line that starts with a key and an equals sign is trimmed at its end. -/
theorem trimSpace_keyLine :
    trimSpace (keyLine k t) = k ++ byte '=' :: trimEnd (keyLine k t).length t := by
  obtain ⟨c, s, rfl⟩ := List.exists_cons_of_ne_nil hk.ne_nil
  exact trimSpace_append (hk.not_mem_space List.mem_cons_self)
    (not_mem_space (by decide) (by decide)) s t

/-- The key of a line is checked before its value is read. -/
theorem parseLine_keyLine_eq (lineNo : ℕ) :
    parseLine (keyLine k t) lineNo =
      if validKey k then
        (⟨lineNo, k, ·⟩) <$> (parseValue ((trimEnd (keyLine k t).length t).dropWhile
          isBlank)).mapError (.quoting lineNo)
      else throw (.invalidKey lineNo k) := by
  have heq : byte '=' ∉ k := fun hm => (hk.bytes _ hm).2.2.1 rfl
  have hblank : byte ' ' ∉ k := fun hm => absurd (hk.bytes _ hm).1 (by decide)
  have hexport : ∀ u, hasPrefix (k ++ byte '=' :: u) (ascii "export ") = false :=
    hasPrefix_key (d := byte ' ') (by decide) hblank (by decide) (by decide)
  obtain ⟨n, hn⟩ : ∃ n, k.length = n + 1 :=
    Nat.exists_eq_succ_of_ne_zero (List.length_pos_iff.mpr hk.ne_nil).ne'
  have hdrop : ∀ u : Str, (k ++ byte '=' :: u).drop (n + 1 + 1) = u := by
    intro u
    rw [← hn, List.append_cons, List.drop_left' (by simp)]
  have htake : ∀ u : Str, (k ++ byte '=' :: u).take (n + 1) = k := by
    intro u
    rw [← hn, List.take_left]
  simp only [parseLine]
  rw [trimSpace_keyLine hk, if_neg (by simp [hexport]), indexByte_append heq, hn]
  simp only [htake, hdrop]
  rw [trimSpace_of_plain hk]
  cases validKey k with
  | false => rfl
  | true => cases parseValue ((trimEnd (keyLine k t).length t).dropWhile isBlank) <;> rfl

/-- A line of a key is neither blank nor a comment. -/
theorem parseLines_keyLine_cons (lineNo : ℕ) (lines : List Str) :
    parseLines lineNo (keyLine k t :: lines) = do
      let entry ← parseLine (keyLine k t) lineNo
      let entries ← parseLines (lineNo + 1) lines
      return entry :: entries := by
  have hmark : (0xEF : UInt8) ∉ k := fun hm => absurd (hk.bytes _ hm).2.1 (by decide)
  have hhash : byte '#' ∉ k := fun hm => (hk.bytes _ hm).2.2.2 rfl
  have hbom : trimPrefix (keyLine k t) byteOrderMark = keyLine k t := by
    rw [trimPrefix, keyLine, hasPrefix_key (d := 0xEF) (by decide) hmark (by decide) (by decide)]
    rfl
  have htrim : trimSpace (keyLine k t) ≠ [] := by
    rw [trimSpace_keyLine hk]
    simp
  have hcomment : hasPrefix (trimSpace (keyLine k t)) (ascii "#") = false := by
    rw [trimSpace_keyLine hk]
    exact hasPrefix_key (d := byte '#') (by decide) hhash (by decide) (by decide) _
  rw [parseLines, hbom, ite_self]
  simp only [hcomment, htrim, decide_false, Bool.or_false, Bool.false_eq_true, if_false]

/-- A line of a key holds no line end when its text holds none. -/
theorem not_lineEnd_of_mem_keyLine (ht : ∀ d ∈ t, d ≠ byte '\n' ∧ d ≠ byte '\r') :
    ∀ d ∈ keyLine k t, d ≠ byte '\n' ∧ d ≠ byte '\r' := by
  intro d hd
  simp only [keyLine, List.mem_append, List.mem_cons] at hd
  rcases hd with hd | rfl | hd
  · have hlo := (hk.bytes d hd).1
    constructor
    · rintro rfl
      exact absurd hlo (by decide)
    · rintro rfl
      exact absurd hlo (by decide)
  · decide
  · exact ht d hd

end KeyLine

/-- A line of a valid key is read back when its text is. -/
theorem parseLine_keyLine {k t v : Str} (hk : validKey k = true)
    (hv : parseValue ((trimEnd (keyLine k t).length t).dropWhile isBlank) = .ok v) (lineNo : ℕ) :
    parseLine (keyLine k t) lineNo = .ok ⟨lineNo, k, v⟩ := by
  rw [parseLine_keyLine_eq (plain_of_validKey hk), if_pos hk, hv]
  rfl

/-- Between quotes there is no line end. -/
theorem not_lineEnd_of_mem_escapeByte {c d : UInt8} (h : d ∈ escapeByte c) :
    d ≠ byte '\n' ∧ d ≠ byte '\r' := by
  rw [escapeByte] at h
  split_ifs at h with hb hq hn ht hr
  any_goals
    rcases List.mem_pair.mp h with rfl | rfl <;> decide
  rw [List.mem_singleton.mp h]
  exact ⟨hn, hr⟩

/-- An emitted value holds no line end. -/
theorem not_lineEnd_of_mem_formatValue {v : Str} :
    ∀ d ∈ formatValue v, d ≠ byte '\n' ∧ d ≠ byte '\r' := by
  intro d h
  rw [formatValue] at h
  split_ifs at h with hnil hq
  · cases h
  · have hbyte : needsQuotingByte d = false := by
      simp only [needsQuoting, Bool.not_eq_true', List.any_eq_false] at hq
      simpa using hq d h
    simp only [needsQuotingByte, Bool.or_eq_false_iff, beq_eq_false_iff_ne] at hbyte
    simp [hbyte]
  · simp only [List.mem_cons, List.mem_append, List.mem_flatMap, List.not_mem_nil, or_false] at h
    rcases h with rfl | ⟨c, -, h⟩ | rfl
    · decide
    · exact not_lineEnd_of_mem_escapeByte h
    · decide

/-- Lines that hold no line feed are split as they were written. -/
theorem rawLines_lines {lines : List Str} (hend : ∀ l ∈ lines, byte '\n' ∉ l) :
    rawLines (lines.flatMap (· ++ [byte '\n'])) = lines := by
  have hsplit : (lines.flatMap (· ++ [byte '\n'])).splitOn (byte '\n') = lines ++ [[]] := by
    induction lines with
    | nil => rfl
    | cons l lines ih =>
      rw [List.flatMap_cons, ← List.append_cons, List.splitOn_append_cons_self_of_not_mem
        (hend l List.mem_cons_self), ih fun l hl => hend l (List.mem_cons_of_mem _ hl)]
      rfl
  rw [rawLines, hsplit]
  simp

/-- Lines that hold no line end are scanned as they were written, up to the first that is too
long. -/
theorem scan_lines {lines : List Str}
    (hend : ∀ l ∈ lines, ∀ c ∈ l, c ≠ byte '\n' ∧ c ≠ byte '\r') :
    scan (lines.flatMap (· ++ [byte '\n'])) =
      (lines.takeWhile fun line => decide (line.length < maxScanTokenSize),
        !lines.all fun line => decide (line.length < maxScanTokenSize)) := by
  have hraw := rawLines_lines fun l hl hm => (hend l hl _ hm).1 rfl
  have hcr : ∀ l ∈ lines.takeWhile (fun line => decide (line.length < maxScanTokenSize)),
      dropCR l = l := by
    intro l hl
    rw [dropCR, if_neg]
    exact fun he => (hend l ((List.takeWhile_prefix _).subset hl) _ (List.mem_of_getLast? he)).2 rfl
  have hlong : ∀ (p : Str → Bool) (l : List Str),
      decide ((l.takeWhile p).length < l.length) = !l.all p := by
    intro p l
    induction l with
    | nil => rfl
    | cons c l ih => cases hc : p c <;> simp [hc, ih]
  simp only [scan, hraw, List.map_congr_left hcr, List.map_id', hlong]

section Lines

variable {β : Type} {ls : List β} {key text value : β → Str}
  (hkey : ∀ l ∈ ls, validKey (key l) = true)
  (hvalue : ∀ l ∈ ls, parseValue ((trimEnd (keyLine (key l) (text l)).length (text l)).dropWhile
    isBlank) = .ok (value l))
include hkey hvalue

/-- The loop reads the lines of keys one by one. -/
theorem parseLines_keyLine (lineNo : ℕ) :
    parseLines lineNo (ls.map fun l => keyLine (key l) (text l)) =
      .ok ((ls.zipIdx lineNo).map fun p => ⟨p.2, key p.1, value p.1⟩) := by
  induction ls generalizing lineNo with
  | nil => rfl
  | cons l ls ih =>
    have hk := hkey l List.mem_cons_self
    rw [List.map_cons, parseLines_keyLine_cons (plain_of_validKey hk),
      parseLine_keyLine hk (hvalue l List.mem_cons_self),
      ih (fun m hm => hkey m (List.mem_cons_of_mem _ hm))
        fun m hm => hvalue m (List.mem_cons_of_mem _ hm)]
    rfl

/-- A file of lines of keys is read, when no text holds a line end and each line fits. -/
theorem parse_keyLines (hend : ∀ l ∈ ls, ∀ d ∈ text l, d ≠ byte '\n' ∧ d ≠ byte '\r')
    (hfit : ∀ l ∈ ls, (keyLine (key l) (text l)).length < maxScanTokenSize) :
    ∃ es, parse ((ls.map fun l => keyLine (key l) (text l)).flatMap (· ++ [byte '\n'])) = .ok es ∧
      es.map Entry.key = ls.map key ∧
        es.map (fun e => (e.key, e.value)) = ls.map fun l => (key l, value l) := by
  have hscan : scan ((ls.map fun l => keyLine (key l) (text l)).flatMap (· ++ [byte '\n'])) =
      (ls.map fun l => keyLine (key l) (text l), false) := by
    rw [scan_lines fun line hline => ?_]
    · have hall : ∀ line ∈ ls.map (fun l => keyLine (key l) (text l)),
          decide (line.length < maxScanTokenSize) = true := by
        intro line hline
        obtain ⟨l, hl, rfl⟩ := List.mem_map.mp hline
        exact decide_eq_true (hfit l hl)
      rw [List.takeWhile_eq_self_iff.mpr hall, List.all_eq_true.mpr hall]
      rfl
    · obtain ⟨l, hl, rfl⟩ := List.mem_map.mp hline
      exact not_lineEnd_of_mem_keyLine (plain_of_validKey (hkey l hl)) _ (hend l hl)
  have hread : ∀ {γ : Type} (f : β → γ), (ls.zipIdx 1).map (fun p => f p.1) = ls.map f := by
    intro γ f
    conv_rhs => rw [← List.zipIdx_map_fst 1 ls]
    rw [List.map_map]
    rfl
  refine ⟨(ls.zipIdx 1).map fun p => ⟨p.2, key p.1, value p.1⟩, ?_, ?_, ?_⟩
  · rw [parse, hscan]
    simp only
    rw [parseLines_keyLine hkey hvalue]
    rfl
  · rw [List.map_map]
    exact hread key
  · rw [List.map_map]
    exact hread fun l => (key l, value l)

end Lines

/-- The keys of a file that is read are valid. -/
theorem validKey_of_parseLines {β : Type} {ls : List β} {key text : β → Str}
    (hplain : ∀ l ∈ ls, Plain (key l)) {lineNo : ℕ} {es : List Entry}
    (h : parseLines lineNo (ls.map fun l => keyLine (key l) (text l)) = .ok es) :
    ∀ l ∈ ls, validKey (key l) = true := by
  induction ls generalizing lineNo es with
  | nil => simp
  | cons l ls ih =>
    have hk := hplain l List.mem_cons_self
    rw [List.map_cons, parseLines_keyLine_cons hk, parseLine_keyLine_eq hk] at h
    cases hkey : validKey (key l) with
    | false =>
      rw [hkey] at h
      cases h
    | true =>
      have hrest : ∃ es, parseLines (lineNo + 1)
          (ls.map fun l => keyLine (key l) (text l)) = .ok es := by
        cases hr : parseLines (lineNo + 1) (ls.map fun l => keyLine (key l) (text l)) with
        | ok es => exact ⟨es, rfl⟩
        | error e =>
          rw [hkey, hr] at h
          cases hv : parseValue ((trimEnd (keyLine (key l) (text l)).length
            (text l)).dropWhile isBlank) <;> rw [hv] at h <;> cases h
      obtain ⟨es, hes⟩ := hrest
      exact List.forall_mem_cons.mpr
        ⟨hkey, ih (fun m hm => hplain m (List.mem_cons_of_mem _ hm)) hes⟩

namespace Vars

variable {m : Vars}

/-- The pairs in the order in which `Emit` writes them. -/
def written (m : Vars) : List (Str × Str) := m.keys.map fun k => (k, m.value k)

/-- A pair is found under its key. -/
theorem lookup_eq_some {p : Str × Str} {ps : List (Str × Str)} (hnodup : (ps.map Prod.fst).Nodup)
    (hp : p ∈ ps) : ps.lookup p.1 = some p.2 := by
  induction ps with
  | nil => cases hp
  | cons q ps ih =>
    obtain ⟨hq, hnodup⟩ := List.nodup_cons.mp hnodup
    rcases List.mem_cons.mp hp with rfl | hp
    · exact List.lookup_cons_self
    · have hne : p.1 ≠ q.1 := fun he => hq (he ▸ List.mem_map_of_mem hp)
      rw [List.lookup_cons, beq_eq_false_iff_ne.mpr hne]
      exact ih hnodup hp

/-- The value of a pair's key is the pair's value. -/
theorem value_eq {p : Str × Str} (hp : p ∈ m.entries) : m.value p.1 = p.2 := by
  rw [value, lookup_eq_some m.nodup hp]
  rfl

/-- The written pairs are the pairs of the map. -/
theorem written_perm : m.written.Perm m.entries := by
  have hkeys : m.written.Perm ((m.entries.map Prod.fst).map fun k => (k, m.value k)) :=
    (List.perm_insertionSort _ _).map _
  have hpairs : (m.entries.map Prod.fst).map (fun k => (k, m.value k)) = m.entries := by
    have hid : ∀ p ∈ m.entries, ((fun k => (k, m.value k)) ∘ Prod.fst) p = id p := by
      intro p hp
      simp [value_eq hp]
    rw [List.map_map, List.map_congr_left hid, List.map_id]
  rwa [hpairs] at hkeys

/-- The keys are written in ascending order. -/
theorem keys_pairwise : m.keys.Pairwise (· < ·) := by
  have hsorted : m.keys.Pairwise (· ≤ ·) := List.pairwise_insertionSort _ _
  have hnodup : m.keys.Nodup := (List.perm_insertionSort _ _).nodup_iff.mpr m.nodup
  refine (hsorted.and hnodup).imp fun {a b} h => ?_
  by_contra hlt
  exact h.2 (List.le_antisymm h.1 (List.not_lt.mp hlt))

/-- The keys are valid, and every line of `Emit` fits the scanner's buffer. -/
structure Scannable (m : Vars) : Prop where
  /-- `validKey` accepts every key. -/
  validKey : ∀ p ∈ m.entries, validKey p.1 = true
  /-- No line reaches `bufio.MaxScanTokenSize`. -/
  fits : ∀ p ∈ m.entries, (emitLine p.1 p.2).length < maxScanTokenSize

/-- The parser succeeds on what the emitter wrote and returns the pairs of the map in ascending
key order. -/
def RoundTrips (m : Vars) : Prop :=
  ∃ es, parse (emit m) = .ok es ∧ (es.map fun e => (e.key, e.value)).Perm m.entries ∧
    (es.map Entry.key).Pairwise (· < ·)

/-- The emitted lines. -/
theorem emit_eq (m : Vars) : emit m =
    (m.written.map fun p => keyLine p.1 (formatValue p.2)).flatMap (· ++ [byte '\n']) := by
  rw [emit, written, List.map_map, List.flatMap_map]
  rfl

/-- An emitted file with plain keys is read only when its keys are valid and its lines fit. -/
theorem scannable_of_parse (hplain : ∀ p ∈ m.entries, Plain p.1) {es : List Entry}
    (h : parse (emit m) = .ok es) : m.Scannable := by
  have hmem : ∀ p, p ∈ m.written ↔ p ∈ m.entries := fun p => written_perm.mem_iff
  have hplain' : ∀ p ∈ m.written, Plain p.1 := fun p hp => hplain p ((hmem p).mp hp)
  have hend : ∀ l ∈ m.written.map (fun p => keyLine p.1 (formatValue p.2)),
      ∀ c ∈ l, c ≠ byte '\n' ∧ c ≠ byte '\r' := by
    intro l hl
    obtain ⟨p, hp, rfl⟩ := List.mem_map.mp hl
    exact not_lineEnd_of_mem_keyLine (hplain' p hp) _ not_lineEnd_of_mem_formatValue
  rw [parse, emit_eq, scan_lines hend] at h
  cases hfit : (m.written.map fun p => keyLine p.1 (formatValue p.2)).all
      fun line => decide (line.length < maxScanTokenSize) with
  | false =>
    rw [hfit] at h
    simp only at h
    cases hp : parseLines 1 ((m.written.map fun p => keyLine p.1 (formatValue p.2)).takeWhile
      fun line => decide (line.length < maxScanTokenSize)) <;> rw [hp] at h <;> cases h
  | true =>
    have hall := List.all_eq_true.mp hfit
    rw [List.takeWhile_eq_self_iff.mpr hall] at h
    simp only at h
    have hparse : ∃ es, parseLines 1 (m.written.map fun p => keyLine p.1 (formatValue p.2)) =
        .ok es := by
      cases hp : parseLines 1 (m.written.map fun p => keyLine p.1 (formatValue p.2)) with
      | ok es => exact ⟨es, rfl⟩
      | error e =>
        rw [hp] at h
        cases h
    obtain ⟨es, hes⟩ := hparse
    refine ⟨fun p hp => validKey_of_parseLines hplain' hes p ((hmem p).mpr hp), fun p hp => ?_⟩
    exact of_decide_eq_true (hall _ (List.mem_map_of_mem ((hmem p).mpr hp)))

/-- The pairs that the parser reads. -/
theorem parse_emit_pairs (h : m.Scannable) :
    ∃ es, parse (emit m) = .ok es ∧ es.map Entry.key = m.keys ∧
      es.map (fun e => (e.key, e.value)) =
        m.written.map fun p => (p.1, restored (emitLine p.1 p.2).length p.2) := by
  have hmem : ∀ p, p ∈ m.written ↔ p ∈ m.entries := fun p => written_perm.mem_iff
  have hkeys : m.written.map Prod.fst = m.keys := by
    rw [written, List.map_map]
    exact List.map_id _
  rw [emit_eq, ← hkeys]
  exact parse_keyLines (fun p hp => h.validKey p ((hmem p).mp hp))
    (fun p _ => parseValue_formatValue _ p.2) (fun p _ => not_lineEnd_of_mem_formatValue)
    fun p hp => h.fits p ((hmem p).mp hp)

/-- A value survives exactly when it is quoted or does not end in white space. -/
theorem restored_eq_iff (n : ℕ) (v : Str) :
    restored (n + 1) v = v ↔ needsQuoting v = true ∨ endsInSpace v = false := by
  rw [restored]
  split_ifs with hq
  · simp [hq]
  · refine ⟨fun he => .inr ?_, fun h => trimEnd_of_not (h.resolve_left hq) _⟩
    rw [Bool.eq_false_iff]
    exact fun hend => trimEnd_ne hend n he

/-- The round trip returns the map exactly when no bare value ends in white space. -/
theorem roundTrips_iff (m : Vars) (h : m.Scannable) :
    m.RoundTrips ↔ ∀ p ∈ m.entries, needsQuoting p.2 = true ∨ endsInSpace p.2 = false := by
  obtain ⟨es, hparse, hkeys, hpairs⟩ := parse_emit_pairs h
  have hlen : ∀ p : Str × Str, ∃ n, (emitLine p.1 p.2).length = n + 1 := by
    intro p
    exact ⟨p.1.length + (formatValue p.2).length, by simp [emitLine]; omega⟩
  constructor
  · rintro ⟨es', hparse', hperm, -⟩ p hp
    obtain rfl : es = es' := Except.ok.inj (hparse.symm.trans hparse')
    have hmem := hperm.mem_iff.mpr hp
    rw [hpairs] at hmem
    obtain ⟨q, hq, he⟩ := List.mem_map.mp hmem
    obtain ⟨hkey, hvalue⟩ := Prod.mk.inj he
    have hqp : q.2 = p.2 := by
      rw [← value_eq (written_perm.mem_iff.mp hq), hkey, value_eq hp]
    obtain ⟨n, hn⟩ := hlen q
    rw [hn, hqp] at hvalue
    exact (restored_eq_iff n p.2).mp hvalue
  · intro hall
    refine ⟨es, hparse, ?_, hkeys ▸ keys_pairwise⟩
    have hid : ∀ p ∈ m.written, (p.1, restored (emitLine p.1 p.2).length p.2) = id p := by
      intro p hp
      obtain ⟨n, hn⟩ := hlen p
      rw [hn, (restored_eq_iff n p.2).mpr (hall p (written_perm.mem_iff.mp hp))]
      rfl
    rw [hpairs, List.map_congr_left hid, List.map_id]
    exact written_perm

/-- A quoted and a bare value. -/
def plainVars : Vars :=
  ⟨[(ascii "NOTE", ascii "a b"), (ascii "DB_URL", ascii "db.local")], by decide⟩

/-- Both values of `plainVars` survive. -/
theorem plainVars_roundTrips : plainVars.Scannable ∧ plainVars.RoundTrips := by
  have hscan : plainVars.Scannable := ⟨by decide, by decide⟩
  exact ⟨hscan, (roundTrips_iff plainVars hscan).mpr (by decide)⟩

/-- A value that ends in a no-break space. -/
def spacedVars : Vars := ⟨[(ascii "K", [0x76, 0xC2, 0xA0])], by decide⟩

/-- The no-break space is neither quoted nor kept. -/
theorem spacedVars_loses : spacedVars.Scannable ∧
    parse (emit spacedVars) = .ok [⟨1, ascii "K", [0x76]⟩] ∧ ¬spacedVars.RoundTrips := by
  have hparse : parse (emit spacedVars) = .ok [⟨1, ascii "K", [0x76]⟩] := by rfl
  refine ⟨⟨by decide, by decide⟩, hparse, ?_⟩
  rintro ⟨es, hes, hperm, -⟩
  obtain rfl := Except.ok.inj (hparse.symm.trans hes)
  exact absurd (List.perm_singleton.mp hperm) (by decide)

end Vars

end Comax.Cli
