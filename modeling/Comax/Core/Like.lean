import Comax.Core.Utf8
import Mathlib.Data.List.Infix

/-!
# SQL LIKE

The LIKE operator with default settings: `%` stands for any text, `_` for any one
character, and every other character of the pattern for itself in either case of
its ASCII letters. A pattern with a `%` on either side searches a text, and a
search for a field between its separators finds the fields of a list.
-/

namespace Comax.Core

/-- ASCII letters in lower case, every other byte as it is. -/
def foldCase (c : UInt8) : UInt8 := if byte 'A' ≤ c && c ≤ byte 'Z' then c + 32 else c

/-- The characters of a text, as SQLite reads them: a lead byte takes the bytes inside of a
character that follow it. -/
def charactersFrom : Option Str → Str → List Str
  | none, [] => []
  | some w, [] => [w]
  | none, c :: s => if 0xC0 ≤ c then charactersFrom (some [c]) s else [c] :: charactersFrom none s
  | some w, c :: s =>
    if isContinuation c then charactersFrom (some (w ++ [c])) s
    else if 0xC0 ≤ c then w :: charactersFrom (some [c]) s
    else w :: [c] :: charactersFrom none s

/-- The characters of a text. -/
def characters (s : Str) : List Str := charactersFrom none s

/-- Whether an ASCII pattern matches the characters of a text. -/
def likeCharacters : Str → List Str → Bool
  | [], s => s.isEmpty
  | p :: ps, s =>
    if p = byte '%' then s.tails.any (likeCharacters ps)
    else match s with
      | [] => false
      | c :: s => (p = byte '_' || c.map foldCase = [foldCase p]) && likeCharacters ps s

/-- `text LIKE pattern`, for an ASCII pattern. -/
def like (pattern text : Str) : Bool := likeCharacters pattern (characters text)

/-! ## Searching a text -/

/-- A character that `LIKE` takes for one of the pattern: an ASCII letter in either case, any other
only for itself, and every character for `_`. -/
def Takes (p : UInt8) (c : Str) : Prop := p = byte '_' ∨ c.map foldCase = [foldCase p]

/-- The text contains characters that `LIKE` takes for those of `lit`. -/
def Resembles (lit s : Str) : Prop :=
  ∃ before mid after, characters s = before ++ mid ++ after ∧ List.Forall₂ Takes lit mid

section Search

variable {lit : Str}

/-- A `%` takes any beginning. -/
theorem likeCharacters_percent (ps : Str) (s : List Str) :
    likeCharacters (byte '%' :: ps) s = s.tails.any (likeCharacters ps) := if_pos rfl

/-- Another character takes one character. -/
theorem likeCharacters_cons {p : UInt8} (hp : p ≠ byte '%') (ps : Str) (c : Str) (s : List Str) :
    likeCharacters (p :: ps) (c :: s) =
      ((p = byte '_' || c.map foldCase = [foldCase p]) && likeCharacters ps s) := if_neg hp

/-- Another character takes nothing from the empty text. -/
theorem likeCharacters_cons_nil {p : UInt8} (hp : p ≠ byte '%') (ps : Str) :
    likeCharacters (p :: ps) [] = false := if_neg hp

/-- A pattern without `%`, and a `%` after it, match a text that starts with characters that are
taken for it. -/
theorem likeCharacters_append_percent (hlit : ∀ c ∈ lit, c ≠ byte '%') {s : List Str} :
    likeCharacters (lit ++ [byte '%']) s = true ↔
      ∃ mid after, s = mid ++ after ∧ List.Forall₂ Takes lit mid := by
  induction lit generalizing s with
  | nil =>
    have hany : likeCharacters [byte '%'] s = true := by
      rw [likeCharacters_percent, List.any_eq_true]
      exact ⟨[], (List.mem_tails _ _).mpr List.nil_suffix, rfl⟩
    simp [hany]
  | cons p lit ih =>
    obtain ⟨hp, hlit⟩ := List.forall_mem_cons.mp hlit
    rw [List.cons_append]
    cases s with
    | nil => simp [likeCharacters_cons_nil hp]
    | cons c s =>
      rw [likeCharacters_cons hp, Bool.and_eq_true, ih hlit, Bool.or_eq_true, decide_eq_true_eq,
        decide_eq_true_eq]
      constructor
      · rintro ⟨hc, mid, after, rfl, hmid⟩
        exact ⟨c :: mid, after, rfl, .cons hc hmid⟩
      · rintro ⟨mid, after, hs, hmid⟩
        obtain ⟨c', mid, hc, hrest, rfl⟩ := List.forall₂_cons_left_iff.mp hmid
        obtain ⟨rfl, rfl⟩ := List.cons.inj hs
        exact ⟨hc, mid, after, rfl, hrest⟩

/-- A pattern without `%` between two of them matches a text that resembles it somewhere. -/
theorem like_contains (hlit : ∀ c ∈ lit, c ≠ byte '%') {s : Str} :
    like (byte '%' :: (lit ++ [byte '%'])) s = true ↔ Resembles lit s := by
  rw [like, likeCharacters_percent, List.any_eq_true]
  constructor
  · rintro ⟨t, ht, hlike⟩
    obtain ⟨before, hbefore⟩ := (List.mem_tails _ _).mp ht
    obtain ⟨mid, after, rfl, hmid⟩ := (likeCharacters_append_percent hlit).mp hlike
    exact ⟨before, mid, after, by rw [← hbefore, List.append_assoc], hmid⟩
  · rintro ⟨before, mid, after, hs, hmid⟩
    refine ⟨mid ++ after, (List.mem_tails _ _).mpr ⟨before, ?_⟩,
      (likeCharacters_append_percent hlit).mpr ⟨mid, after, rfl, hmid⟩⟩
    rw [hs, List.append_assoc]

/-- An ASCII byte is a character of its own and ends the one before it. -/
theorem charactersFrom_append_cons {c : UInt8} (hc : c < 0x80) (w : Option Str) (s t : Str) :
    charactersFrom w (s ++ c :: t) = charactersFrom w s ++ [c] :: charactersFrom none t := by
  have hlead : ¬0xC0 ≤ c := by
    rw [UInt8.le_iff_toNat_le]
    rw [UInt8.lt_iff_toNat_lt] at hc
    have hbound : (0x80 : UInt8).toNat ≤ (0xC0 : UInt8).toNat := by decide
    omega
  have hinside : isContinuation c = false := by
    rw [isContinuation]
    simp only [Bool.and_eq_false_iff, decide_eq_false_iff_not, UInt8.not_le]
    exact Or.inl hc
  induction s generalizing w with
  | nil =>
    cases w with
    | none => simp [charactersFrom, hlead]
    | some w => simp [charactersFrom, hlead, hinside]
  | cons d s ih =>
    cases w with
    | none =>
      rw [List.cons_append, charactersFrom, charactersFrom]
      split_ifs <;> simp [ih]
    | some w =>
      rw [List.cons_append, charactersFrom, charactersFrom]
      split_ifs <;> simp [ih]

/-- A text that contains an ASCII text resembles it. -/
theorem resembles_of_contains (hlit : ∀ c ∈ lit, c < 0x80) {s : Str} (h : lit <:+: s) :
    Resembles lit s := by
  obtain ⟨before, after, rfl⟩ := h
  have htake : List.Forall₂ Takes lit (lit.map fun c => [c]) :=
    List.forall₂_map_right_iff.mpr (List.forall₂_same.mpr fun c _ => Or.inr rfl)
  have hsingle : ∀ l : Str, (∀ c ∈ l, c < 0x80) →
      characters (l ++ after) = l.map (fun c => [c]) ++ characters after := by
    intro l hl
    induction l with
    | nil => rfl
    | cons c l ih =>
      obtain ⟨hc, hl⟩ := List.forall_mem_cons.mp hl
      have hcons := charactersFrom_append_cons hc none [] (l ++ after)
      rw [List.nil_append] at hcons
      rw [characters, List.cons_append, hcons, List.map_cons, List.cons_append, ← ih hl]
      rfl
  cases lit with
  | nil => exact ⟨[], [], _, rfl, .nil⟩
  | cons c lit =>
    obtain ⟨hc, hrest⟩ := List.forall_mem_cons.mp hlit
    refine ⟨characters before, (c :: lit).map fun c => [c], characters after, ?_, htake⟩
    rw [characters, List.append_assoc, List.cons_append, charactersFrom_append_cons hc,
      ← characters, ← characters, hsingle lit hrest, List.map_cons, List.append_assoc,
      List.cons_append]

/-- The characters of ASCII text are its bytes. -/
theorem characters_ascii {s : Str} (h : ∀ c ∈ s, c < 0x80) : characters s = s.map fun c => [c] := by
  induction s with
  | nil => rfl
  | cons c s ih =>
    obtain ⟨hc, hs⟩ := List.forall_mem_cons.mp h
    have hcons := charactersFrom_append_cons hc none [] s
    rw [List.nil_append] at hcons
    have htail : charactersFrom none s = s.map fun c => [c] := ih hs
    rw [characters, hcons, htail]
    rfl

/-- Without wildcards, `LIKE` takes the bytes that agree up to the case of letters. -/
theorem takes_map {s : Str} (hlit : byte '_' ∉ lit) :
    List.Forall₂ Takes lit (s.map fun c => [c]) ↔ lit.map foldCase = s.map foldCase := by
  induction lit generalizing s with
  | nil => cases s <;> simp
  | cons p lit ih =>
    obtain ⟨hp, hlit⟩ := not_or.mp (mt List.mem_cons.mpr hlit)
    cases s with
    | nil => simp
    | cons c s =>
      have htakes : Takes p [c] ↔ foldCase p = foldCase c := by
        rw [Takes, or_iff_right (Ne.symm hp), List.map_singleton, List.singleton_inj, eq_comm]
      rw [List.map_cons, List.forall₂_cons, ih hlit, htakes, List.map_cons, List.map_cons,
        List.cons.injEq]

/-- A search without wildcards in ASCII text looks for the text in either case of the letters. -/
theorem resembles_iff {s : Str} (hlit : byte '_' ∉ lit) (hs : ∀ c ∈ s, c < 0x80) :
    Resembles lit s ↔ lit.map foldCase <:+: s.map foldCase := by
  rw [Resembles, characters_ascii hs]
  constructor
  · rintro ⟨before, mid, after, hsplit, htakes⟩
    obtain ⟨s₁, s₃, rfl, h₁, rfl⟩ := List.map_eq_append_iff.mp hsplit
    obtain ⟨s₁, s₂, rfl, rfl, rfl⟩ := List.map_eq_append_iff.mp h₁
    rw [takes_map hlit] at htakes
    exact ⟨s₁.map foldCase, s₃.map foldCase, by simp [htakes]⟩
  · rintro ⟨a, c, hac⟩
    obtain ⟨s₁, s₃, rfl, h₁, rfl⟩ := List.map_eq_append_iff.mp hac.symm
    obtain ⟨s₁, s₂, rfl, rfl, h₂⟩ := List.map_eq_append_iff.mp h₁
    refine ⟨s₁.map fun c => [c], s₂.map fun c => [c], s₃.map fun c => [c], ?_,
      (takes_map hlit).mpr h₂.symm⟩
    rw [List.map_append, List.map_append]

end Search

/-- A field of a list with separators stands between two separators, when the list does. -/
theorem field_infix {sep : UInt8} {e : Str} {fields : List Str} (h : e ∈ fields) :
    sep :: e ++ [sep] <:+: sep :: [sep].intercalate fields ++ [sep] := by
  induction fields with
  | nil => cases h
  | cons f fields ih =>
    cases fields with
    | nil =>
      rw [List.mem_singleton.mp h, List.intercalate_singleton]
    | cons g fields =>
      rw [List.intercalate_cons_cons]
      rcases List.mem_cons.mp h with rfl | h
      · exact ⟨[], [sep].intercalate (g :: fields) ++ [sep], by simp⟩
      · obtain ⟨a, b, hab⟩ := ih h
        exact ⟨sep :: f ++ a, b, by simpa using hab⟩

/-- A text stands between two separators of a list if and only if it is a field of the list. -/
theorem between_separators {sep : UInt8} {e text : Str} (hne : e ≠ []) (hsep : sep ∉ e) :
    sep :: e ++ [sep] <:+: sep :: text ++ [sep] ↔ e ∈ text.splitOn sep := by
  constructor
  · rintro ⟨a, b, hab⟩
    have hsplit := congrArg (List.splitOn sep) hab
    have hleft : a ++ (sep :: e ++ [sep]) ++ b = a ++ sep :: (e ++ sep :: b) := by simp
    have hright : sep :: text ++ [sep] = [] ++ sep :: (text ++ sep :: []) := by simp
    rw [hleft, hright, List.splitOn_append_cons_self, List.splitOn_append_cons_self_of_not_mem hsep,
      List.splitOn_append_cons_self, List.splitOn_append_cons_self, List.splitOn_nil] at hsplit
    have hmem : e ∈ [[]] ++ (text.splitOn sep ++ [[]]) := by
      rw [← hsplit]
      simp
    simpa [hne] using hmem
  · intro h
    have hinfix : sep :: e ++ [sep] <:+: sep :: [sep].intercalate (text.splitOn sep) ++ [sep] :=
      field_infix h
    rwa [List.intercalate_splitOn] at hinfix

end Comax.Core
