import Comax.Core.Like

/-!
# Labelled fields

A line of fields `label=value` with blanks between them, how it is read back, and what
a search for the beginning of a field finds in it.
-/

namespace Comax.Core

/-- A label and its value. -/
def fieldText (f : Str × Str) : Str := f.1 ++ byte '=' :: f.2

/-- The fields with blanks between them. -/
def fieldsText (fs : List (Str × Str)) : Str := [byte ' '].intercalate (fs.map fieldText)

theorem fieldsText_singleton (f : Str × Str) : fieldsText [f] = fieldText f := by
  simp [fieldsText]

theorem fieldsText_cons_cons (f g : Str × Str) (fs : List (Str × Str)) :
    fieldsText (f :: g :: fs) = fieldText f ++ byte ' ' :: fieldsText (g :: fs) := by
  simp [fieldsText]

/-- More fields after the first ones. -/
theorem fieldsText_append {fs : List (Str × Str)} (hne : fs ≠ []) (g : Str × Str)
    (gs : List (Str × Str)) :
    fieldsText (fs ++ g :: gs) = fieldsText fs ++ byte ' ' :: fieldsText (g :: gs) := by
  induction fs with
  | nil => exact absurd rfl hne
  | cons f fs ih =>
    cases fs with
    | nil =>
      rw [fieldsText_singleton]
      exact fieldsText_cons_cons f g gs
    | cons f' fs =>
      have hrest := ih (List.cons_ne_nil f' fs)
      rw [List.cons_append] at hrest
      rw [List.cons_append, List.cons_append, fieldsText_cons_cons, hrest, fieldsText_cons_cons,
        List.append_assoc]
      rfl

/-- What stands before and after the first `=`. -/
def readField (s : Str) : Str × Str :=
  (s.takeWhile (· != byte '='), (s.dropWhile (· != byte '=')).drop 1)

/-- The fields of a line. -/
def readFields (s : Str) : List (Str × Str) := (s.splitOn (byte ' ')).map readField

/-- A text that may stand in a field. -/
def Atomic (s : Str) : Prop := byte ' ' ∉ s ∧ byte '=' ∉ s

/-- A field that is told from what is around it. -/
structure Legible (f : Str × Str) : Prop where
  label : Atomic f.1
  value : Atomic f.2

/-- A field is read back. -/
theorem readField_fieldText {f : Str × Str} (h : Atomic f.1) : readField (fieldText f) = f := by
  have hlabel : ∀ c ∈ f.1, (c != byte '=') = true := by
    intro c hc
    rw [bne_iff_ne]
    rintro rfl
    exact h.2 hc
  rw [readField, fieldText, List.takeWhile_append_of_pos hlabel,
    List.dropWhile_append_of_pos hlabel]
  simp

/-- The only blanks are between the fields. -/
theorem blank_notMem_fieldText {f : Str × Str} (h : Legible f) : byte ' ' ∉ fieldText f := by
  rw [fieldText, List.mem_append, List.mem_cons]
  rintro (hm | hm | hm)
  · exact h.label.1 hm
  · exact absurd hm (by decide)
  · exact h.value.1 hm

/-- A line is read back. -/
theorem readFields_fieldsText {fs : List (Str × Str)} (hne : fs ≠ []) (h : ∀ f ∈ fs, Legible f) :
    readFields (fieldsText fs) = fs := by
  rw [readFields, fieldsText, List.splitOn_intercalate, List.map_map]
  · refine (List.map_congr_left fun f hf => ?_).trans (List.map_id fs)
    exact readField_fieldText (h f hf).label
  · intro s hs
    obtain ⟨f, hf, rfl⟩ := List.mem_map.mp hs
    exact blank_notMem_fieldText (h f hf)
  · simpa using hne

/-- What a line consists of. -/
theorem mem_fieldsText {fs : List (Str × Str)} {c : UInt8} (h : c ∈ fieldsText fs) :
    c = byte ' ' ∨ ∃ f ∈ fs, c ∈ fieldText f := by
  rw [fieldsText] at h
  induction fs with
  | nil => cases h
  | cons f fs ih =>
    cases fs with
    | nil => exact .inr ⟨f, List.mem_cons_self, by simpa using h⟩
    | cons g fs =>
      rw [List.map_cons, List.map_cons, List.intercalate_cons_cons, List.mem_append,
        List.mem_append, List.mem_singleton, ← List.map_cons] at h
      rcases h with (hc | hc) | hc
      · exact .inr ⟨f, List.mem_cons_self, hc⟩
      · exact .inl hc
      · rcases ih hc with hc | ⟨f', hf', hc⟩
        · exact .inl hc
        · exact .inr ⟨f', List.mem_cons_of_mem _ hf', hc⟩

/-! ## Numbers -/

/-- Read a decimal integer. -/
def readInt : Str → Option Int
  | [] => none
  | c :: s =>
    if c = byte '-' then (digitsValue s).map fun n => -(n : Int)
    else (digitsValue (c :: s)).map fun n => (n : Int)

/-- The bytes of a rendered integer. -/
theorem bytes_of_formatInt (n : Int) :
    ∀ c ∈ formatInt n, c = byte '-' ∨ 48 ≤ c.toNat ∧ c.toNat ≤ 57 := by
  cases n with
  | ofNat m => exact fun c hc => .inr ((digits_of_digitsValue (digitsValue_formatNat m)).2 c hc)
  | negSucc m =>
    intro c hc
    rcases List.mem_cons.mp hc with rfl | hc
    · exact .inl rfl
    · exact .inr ((digits_of_digitsValue (digitsValue_formatNat (m + 1))).2 c hc)

/-- A rendered integer may stand in a field. -/
theorem atomic_formatInt (n : Int) : Atomic (formatInt n) := by
  have hcode : ∀ c ∈ formatInt n, c ≠ byte ' ' ∧ c ≠ byte '=' := by
    intro c hc
    rcases bytes_of_formatInt n c hc with rfl | ⟨hlo, hhi⟩
    · exact ⟨by decide, by decide⟩
    · constructor
      · rintro rfl
        exact absurd hlo (by decide)
      · rintro rfl
        exact absurd hhi (by decide)
  exact ⟨fun hm => (hcode _ hm).1 rfl, fun hm => (hcode _ hm).2 rfl⟩

/-- A rendered integer is read back. -/
theorem readInt_formatInt (n : Int) : readInt (formatInt n) = some n := by
  cases n with
  | ofNat m =>
    have hvalue := digitsValue_formatNat m
    change readInt (formatNat m) = _
    cases hs : formatNat m with
    | nil =>
      rw [hs] at hvalue
      cases hvalue
    | cons c s =>
      rw [hs] at hvalue
      have hdigit := (digits_of_digitsValue hvalue).2 c List.mem_cons_self
      have hsign : c ≠ byte '-' := by
        rintro rfl
        exact absurd hdigit.1 (by decide)
      rw [readInt, if_neg hsign, hvalue]
      rfl
  | negSucc m =>
    change readInt (byte '-' :: formatNat (m + 1)) = _
    rw [readInt, if_pos rfl, digitsValue_formatNat]
    rfl

/-! ## Searching -/

/-- A text without the separator that is found in a list is found in one of its parts. -/
theorem infix_intercalate {sep : UInt8} {w : Str} (hne : w ≠ []) (hw : sep ∉ w) {l : List Str} :
    w <:+: [sep].intercalate l ↔ ∃ e ∈ l, w <:+: e := by
  induction l with
  | nil => simpa using hne
  | cons e l ih =>
    cases l with
    | nil => simp
    | cons f l =>
      rw [List.intercalate_cons_cons, List.append_assoc, List.singleton_append]
      constructor
      · rintro ⟨a, b, hab⟩
        rw [List.append_assoc] at hab
        rcases List.append_eq_append_iff.mp hab with ⟨c, he, hc⟩ | ⟨c, rfl, hc⟩
        · rcases List.append_eq_append_iff.mp hc with ⟨d, rfl, -⟩ | ⟨d, rfl, hd⟩
          · exact ⟨e, List.mem_cons_self, a, d, by rw [he, List.append_assoc]⟩
          · cases d with
            | nil => exact ⟨e, List.mem_cons_self, a, [], by simp [he]⟩
            | cons x d =>
              obtain ⟨rfl, -⟩ := List.cons.inj hd
              exact absurd (List.mem_append_right _ List.mem_cons_self) hw
        · cases c with
          | nil =>
            obtain ⟨x, w', rfl⟩ := List.exists_cons_of_ne_nil hne
            obtain ⟨rfl, -⟩ := List.cons.inj hc
            exact absurd List.mem_cons_self hw
          | cons x c =>
            obtain ⟨-, hrest⟩ := List.cons.inj hc
            obtain ⟨e', he', hin⟩ := ih.mp ⟨c, b, by rw [hrest, List.append_assoc]; rfl⟩
            exact ⟨e', List.mem_cons_of_mem _ he', hin⟩
      · rintro ⟨e', he', hin⟩
        rcases List.mem_cons.mp he' with rfl | he'
        · exact hin.trans (List.prefix_append _ _).isInfix
        · refine (ih.mpr ⟨e', he', hin⟩).trans ⟨e ++ [sep], [], ?_⟩
          simp

/-- Folding the case of letters keeps every byte below the letters apart. -/
theorem foldCase_eq_iff {c d : UInt8} (hd : d.toNat < 65) : foldCase c = d ↔ c = d := by
  rw [foldCase]
  split_ifs with hc
  · simp only [Bool.and_eq_true, decide_eq_true_eq, UInt8.le_iff_toNat_le] at hc
    obtain ⟨-, -, -, -, hA, hZ⟩ := alnum_codes
    rw [hA, hZ] at hc
    have hsum : (c + 32).toNat = c.toNat + 32 := by
      rw [UInt8.toNat_add]
      exact Nat.mod_eq_of_lt (by change c.toNat + 32 < 256; omega)
    rw [← UInt8.toNat_inj, ← UInt8.toNat_inj, hsum]
    omega
  · rfl

/-- See `foldCase_eq_iff`. -/
theorem atomic_fold {s : Str} (h : Atomic s) : Atomic (s.map foldCase) := by
  constructor
  · rintro hm
    obtain ⟨c, hc, he⟩ := List.mem_map.mp hm
    exact h.1 ((foldCase_eq_iff (by decide)).mp he ▸ hc)
  · rintro hm
    obtain ⟨c, hc, he⟩ := List.mem_map.mp hm
    exact h.2 ((foldCase_eq_iff (by decide)).mp he ▸ hc)

/-- A line in lower case. -/
theorem map_fieldsText (fs : List (Str × Str)) : (fieldsText fs).map foldCase =
    fieldsText (fs.map fun f => (f.1.map foldCase, f.2.map foldCase)) := by
  have hfield : ∀ f : Str × Str, (fieldText f).map foldCase =
      fieldText (f.1.map foldCase, f.2.map foldCase) := by
    intro f
    rw [fieldText, fieldText, List.map_append, List.map_cons]
    rfl
  rw [fieldsText, fieldsText, List.map_map]
  induction fs with
  | nil => rfl
  | cons f fs ih =>
    cases fs with
    | nil => simp [hfield]
    | cons g fs =>
      simp only [List.map_cons, List.intercalate_cons_cons, List.map_append, Function.comp_apply,
        hfield] at ih ⊢
      rw [ih]
      rfl

/-- A search for the end of a label and the beginning of a value finds it in one field. -/
theorem infix_fieldsText {fs : List (Str × Str)} (h : ∀ f ∈ fs, Legible f) {label pat : Str}
    (hlabel : Atomic label) (hpat : Atomic pat) :
    label ++ byte '=' :: pat <:+: fieldsText fs ↔ ∃ f ∈ fs, label <:+ f.1 ∧ pat <+: f.2 := by
  have hblank : byte ' ' ∉ label ++ byte '=' :: pat := by
    rw [List.mem_append, List.mem_cons]
    rintro (hm | hm | hm)
    · exact hlabel.1 hm
    · exact absurd hm (by decide)
    · exact hpat.1 hm
  rw [fieldsText, infix_intercalate (by simp) hblank]
  constructor
  · rintro ⟨_, hm, a, b, hab⟩
    obtain ⟨f, hf, rfl⟩ := List.mem_map.mp hm
    have hsplit : f.1 ++ byte '=' :: f.2 = (a ++ label) ++ byte '=' :: (pat ++ b) := by
      rw [← fieldText, ← hab]
      simp
    obtain ⟨hl, -, hv⟩ :=
      (List.append_cons_inj_of_notMem (h f hf).label.2 (h f hf).value.2).mp hsplit
    exact ⟨f, hf, ⟨a, hl.symm⟩, b, hv.symm⟩
  · rintro ⟨f, hf, ⟨a, ha⟩, b, hb⟩
    refine ⟨_, List.mem_map_of_mem hf, a, b, ?_⟩
    rw [fieldText, ← ha, ← hb]
    simp

/-! ## Searching with LIKE -/

/-- A `LIKE` search for the end of a label and the beginning of a value finds it in one field. -/
theorem resembles_fieldsText {fs : List (Str × Str)} (h : ∀ f ∈ fs, Legible f)
    (hascii : ∀ c ∈ fieldsText fs, c < 0x80) {label pat : Str} (hlabel : Atomic label)
    (hpat : Atomic pat) (hwild : byte '_' ∉ label ++ byte '=' :: pat) :
    Resembles (label ++ byte '=' :: pat) (fieldsText fs) ↔ ∃ f ∈ fs,
      label.map foldCase <:+ f.1.map foldCase ∧ pat.map foldCase <+: f.2.map foldCase := by
  have hfold : ∀ f ∈ fs.map (fun f => (f.1.map foldCase, f.2.map foldCase)), Legible f := by
    intro f hf
    obtain ⟨g, hg, rfl⟩ := List.mem_map.mp hf
    exact ⟨atomic_fold (h g hg).label, atomic_fold (h g hg).value⟩
  have hlit : (label ++ byte '=' :: pat).map foldCase =
      label.map foldCase ++ byte '=' :: pat.map foldCase := by
    rw [List.map_append, List.map_cons]
    rfl
  rw [resembles_iff hwild hascii, hlit, map_fieldsText,
    infix_fieldsText hfold (atomic_fold hlabel) (atomic_fold hpat)]
  simp

end Comax.Core
