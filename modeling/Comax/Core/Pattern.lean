import Mathlib.Data.List.Basic
import Mathlib.Data.List.Infix
import Mathlib.Order.Nat

/-!
# Linear patterns with greedy repetition

A pattern is a sequence of atoms: one element of a class, a greedy repetition of
a class, or a mark that records the current position (a group boundary). Matching
is leftmost-first: a repetition prefers to take one more element and gives it back
only when the rest of the pattern fails. `findAll` scans for successive
non-overlapping matches, and `splice` replaces each match from the last to the
first, so that the positions of the earlier ones stay valid.
-/

namespace Comax.Core

variable {α β : Type}

/-- One step of a linear pattern. -/
inductive Atom (α : Type) where
  /-- Exactly one element of the class. -/
  | one (p : α → Bool)
  /-- Greedily, any number of elements of the class. -/
  | star (p : α → Bool)
  /-- Greedily, at least one element of the class. -/
  | plus (p : α → Bool)
  /-- Record the current position. -/
  | mark

/-- A match: its range, and the positions recorded by the marks in order. -/
structure Match where
  /-- First position of the match. -/
  start : ℕ
  /-- First position after the match. -/
  stop : ℕ
  /-- Recorded positions. -/
  marks : List ℕ
  deriving DecidableEq, Repr

/-- Greedy repetition of `p`, continued by `k` at the first position that works,
longest repetition first. -/
def starThen (p : α → Bool) (k : List α → ℕ → Option β) : List α → ℕ → Option β
  | [], i => k [] i
  | c :: s, i => if p c then (starThen p k s (i + 1)).orElse fun _ => k (c :: s) i else k (c :: s) i

/-- Match a pattern at the head of the text `s`, which lies at position `i`. -/
def matchHere : List (Atom α) → List α → ℕ → Option (List ℕ × ℕ)
  | [], _, i => some ([], i)
  | .mark :: as, s, i => (matchHere as s i).map fun r => (i :: r.1, r.2)
  | .one p :: as, c :: s, i => if p c then matchHere as s (i + 1) else none
  | .one _ :: _, [], _ => none
  | .star p :: as, s, i => starThen p (matchHere as) s i
  | .plus p :: as, c :: s, i => if p c then starThen p (matchHere as) s (i + 1) else none
  | .plus _ :: _, [], _ => none

/-- Successive matches in the text `s`, which lies at position `i`; the first `skip`
elements belong to the match before. -/
def findAllFrom (pat : List (Atom α)) : List α → ℕ → ℕ → List Match
  | [], _, _ => []
  | _ :: s, i, skip + 1 => findAllFrom pat s (i + 1) skip
  | c :: s, i, 0 =>
    match matchHere pat (c :: s) i with
    | some (marks, stop) => ⟨i, stop, marks⟩ :: findAllFrom pat s (i + 1) (stop - i - 1)
    | none => findAllFrom pat s (i + 1) 0

/-- All successive matches of a pattern in a text. -/
def findAll (pat : List (Atom α)) (s : List α) : List Match := findAllFrom pat s 0 0

/-- Replace every match, the last one first. -/
def splice (ms : List Match) (f : Match → List α) (s : List α) : List α :=
  ms.foldr (fun m out => out.take m.start ++ f m ++ out.drop m.stop) s

/-- The matches lie in order, without overlap, between `lo` and `hi`. -/
def Spaced (hi : ℕ) : ℕ → List Match → Prop
  | _, [] => True
  | lo, m :: ms => lo ≤ m.start ∧ m.start < m.stop ∧ m.stop ≤ hi ∧ Spaced hi m.stop ms

/-- A later lower bound may be moved down. -/
theorem Spaced.mono {hi lo lo' : ℕ} {ms : List Match} (h : Spaced hi lo ms) (hl : lo' ≤ lo) :
    Spaced hi lo' ms := by
  cases ms with
  | nil => trivial
  | cons m ms => exact ⟨hl.trans h.1, h.2⟩

/-- The bounds of every match of a spaced list. -/
theorem Spaced.bounds {hi lo : ℕ} {ms : List Match} (h : Spaced hi lo ms) {m : Match}
    (hm : m ∈ ms) : lo ≤ m.start ∧ m.start < m.stop ∧ m.stop ≤ hi := by
  induction ms generalizing lo with
  | nil => simp at hm
  | cons x xs ih =>
    obtain ⟨hlo, hlt, hhi, hs⟩ := h
    rcases List.mem_cons.mp hm with rfl | hm
    · exact ⟨hlo, hlt, hhi⟩
    · obtain ⟨h1, h2⟩ := ih hs hm
      exact ⟨by omega, h2⟩

private theorem starThen_bounds {p : α → Bool} {k : List α → ℕ → Option (List ℕ × ℕ)}
    (hk : ∀ s i r, k s i = some r → i ≤ r.2 ∧ r.2 ≤ i + s.length) :
    ∀ s i r, starThen p k s i = some r → i ≤ r.2 ∧ r.2 ≤ i + s.length := by
  intro s
  induction s with
  | nil => intro i r h; exact hk [] i r h
  | cons c s ih =>
    intro i r h
    rw [starThen] at h
    split at h
    · rw [Option.orElse_eq_or] at h
      rcases Option.or_eq_some_iff.mp h with h' | ⟨_, h'⟩
      · obtain ⟨h1, h2⟩ := ih _ _ h'
        simp only [List.length_cons]
        omega
      · exact hk _ _ _ h'
    · exact hk _ _ _ h

/-- A match starts where it was tried and stays inside the text. -/
theorem matchHere_bounds (pat : List (Atom α)) : ∀ s i r, matchHere pat s i = some r →
    i ≤ r.2 ∧ r.2 ≤ i + s.length := by
  induction pat with
  | nil => intro s i r h; simp only [matchHere, Option.some.injEq] at h; subst h; simp
  | cons a as ih =>
    intro s i r h
    cases a with
    | mark =>
      simp only [matchHere, Option.map_eq_some_iff] at h
      obtain ⟨r', hr', rfl⟩ := h
      exact ih s i r' hr'
    | star p => exact starThen_bounds ih s i r (by simpa only [matchHere] using h)
    | one p =>
      cases s with
      | nil => simp [matchHere] at h
      | cons c s =>
        rw [matchHere] at h
        split at h
        · have hb := ih _ _ _ h
          simp only [List.length_cons]
          omega
        · cases h
    | plus p =>
      cases s with
      | nil => simp [matchHere] at h
      | cons c s =>
        rw [matchHere] at h
        split at h
        · have hb := starThen_bounds ih _ _ _ h
          simp only [List.length_cons]
          omega
        · cases h

/-- A pattern that opens with one element of a class matches only there, and takes it. -/
theorem matchHere_one {p : α → Bool} {as : List (Atom α)} {c : α} {s : List α} {i : ℕ}
    {r : List ℕ × ℕ} (h : matchHere (.one p :: as) (c :: s) i = some r) :
    p c = true ∧ i < r.2 := by
  rw [matchHere] at h
  split at h
  · exact ⟨‹_›, by have := (matchHere_bounds as _ _ _ h).1; omega⟩
  · cases h

section Scan

variable {p : α → Bool} {as : List (Atom α)}

private theorem findAllFrom_spaced (s : List α) : ∀ i skip, skip ≤ s.length →
    Spaced (i + s.length) (i + skip) (findAllFrom (.one p :: as) s i skip) := by
  induction s with
  | nil => intro i skip _; trivial
  | cons c s ih =>
    intro i skip hskip
    have hlen : i + (c :: s).length = (i + 1) + s.length := by simp only [List.length_cons]; omega
    cases skip with
    | succ skip =>
      have hrest := ih (i + 1) skip (by simpa using hskip)
      rw [findAllFrom, hlen, show i + (skip + 1) = i + 1 + skip by omega]
      exact hrest
    | zero =>
      rw [findAllFrom]
      split
      · rename_i marks stop hm
        have hb := matchHere_bounds _ _ _ _ hm
        have hlt := (matchHere_one hm).2
        simp only [List.length_cons] at hb
        have hrest := ih (i + 1) (stop - i - 1) (by omega)
        refine ⟨by simp, hlt, by simp only [List.length_cons]; omega, ?_⟩
        rw [show i + 1 + (stop - i - 1) = stop by omega] at hrest
        rw [hlen]
        exact hrest
      · have hrest := ih (i + 1) 0 (by omega)
        rw [hlen]
        exact hrest.mono (by omega)

/-- The matches of a scan are in order, disjoint and inside the text. -/
theorem findAll_spaced (s : List α) : Spaced s.length 0 (findAll (.one p :: as) s) := by
  have hs : Spaced (0 + s.length) (0 + 0) (findAllFrom (.one p :: as) s 0 0) :=
    findAllFrom_spaced s 0 0 (Nat.zero_le _)
  simpa [findAll] using hs

private theorem findAllFrom_eq_nil {s : List α} (h : ∀ c ∈ s, p c = false) (i skip : ℕ) :
    findAllFrom (.one p :: as) s i skip = [] := by
  induction s generalizing i skip with
  | nil => rfl
  | cons c s ih =>
    have hs : ∀ d ∈ s, p d = false := fun d hd => h d (by simp [hd])
    cases skip with
    | succ skip => rw [findAllFrom, ih hs]
    | zero =>
      have hc : matchHere (.one p :: as) (c :: s) i = none := by
        rw [matchHere, h c (by simp)]
        rfl
      rw [findAllFrom, hc]
      exact ih hs _ _

/-- A text without any element of the opening class has no match. -/
theorem findAll_eq_nil {s : List α} (h : ∀ c ∈ s, p c = false) :
    findAll (.one p :: as) s = [] := findAllFrom_eq_nil h 0 0

end Scan

/-- The part of a text that lies outside every match. -/
def Outside (ms : List Match) (s : List α) (c : α) : Prop :=
  ∃ i, s[i]? = some c ∧ ∀ m ∈ ms, ¬ (m.start ≤ i ∧ i < m.stop)

private theorem splice_take {f : Match → List α} {s : List α} {ms : List Match} {lo : ℕ}
    (h : Spaced s.length lo ms) (hl : lo ≤ s.length) {k : ℕ} (hk : k ≤ lo) :
    (splice ms f s).take k = s.take k ∧ k ≤ (splice ms f s).length := by
  induction ms generalizing lo k with
  | nil => exact ⟨rfl, hk.trans hl⟩
  | cons m ms ih =>
    obtain ⟨hlo, hlt, hhi, hs⟩ := h
    obtain ⟨ht, hlen⟩ := ih hs hhi (k := m.start) hlt.le
    have hin : k ≤ (List.take m.start (splice ms f s)).length := by
      rw [List.length_take]
      omega
    change (List.take m.start (splice ms f s) ++ f m ++ _).take k = _ ∧ _ ≤ List.length
      (List.take m.start (splice ms f s) ++ f m ++ _)
    constructor
    · rw [List.append_assoc, List.take_append_of_le_length hin, ht, List.take_take,
        Nat.min_eq_left (hk.trans hlo)]
    · simp only [List.length_append]
      omega

/-- Every element of a spliced text stood outside the matches or was put in by one. -/
theorem mem_splice {f : Match → List α} {s : List α} {ms : List Match}
    (h : Spaced s.length 0 ms) {c : α} (hc : c ∈ splice ms f s) :
    Outside ms s c ∨ ∃ m ∈ ms, c ∈ f m := by
  suffices hsuff : ∀ (ms : List Match) (lo : ℕ), Spaced s.length lo ms → lo ≤ s.length →
      ∀ c ∈ (splice ms f s).drop lo,
        (∃ i, lo ≤ i ∧ s[i]? = some c ∧ ∀ m ∈ ms, ¬ (m.start ≤ i ∧ i < m.stop)) ∨
          ∃ m ∈ ms, c ∈ f m by
    rcases hsuff ms 0 h (Nat.zero_le _) c (by simpa using hc) with ⟨i, _, hi⟩ | hm
    · exact Or.inl ⟨i, hi⟩
    · exact Or.inr hm
  intro ms
  induction ms with
  | nil =>
    intro lo _ _ c hc
    obtain ⟨j, hj⟩ := List.mem_iff_getElem?.mp hc
    exact Or.inl ⟨lo + j, by omega, by simpa [splice, List.getElem?_drop] using hj, by simp⟩
  | cons m ms ih =>
    intro lo hsp hl c hc
    obtain ⟨hlo, hlt, hhi, hs⟩ := hsp
    obtain ⟨ht, hlen⟩ := splice_take (f := f) hs hhi (k := m.start) hlt.le
    change c ∈ (List.take m.start (splice ms f s) ++ f m ++
      List.drop m.stop (splice ms f s)).drop lo at hc
    rw [ht, List.append_assoc, List.drop_append_of_le_length
      (by rw [List.length_take]; omega), List.mem_append, List.mem_append] at hc
    rcases hc with hc | hc | hc
    · obtain ⟨j, hj⟩ := List.mem_iff_getElem?.mp hc
      rw [List.getElem?_drop, List.getElem?_take] at hj
      split at hj
      · rename_i hjlt
        refine Or.inl ⟨lo + j, by omega, hj, fun m' hm' => ?_⟩
        rcases List.mem_cons.mp hm' with rfl | hm'
        · omega
        · have := (hs.bounds hm').1
          omega
      · cases hj
    · exact Or.inr ⟨m, by simp, hc⟩
    · rcases ih m.stop hs hhi c hc with ⟨i, hi, hget, hout⟩ | ⟨m', hm', hcm⟩
      · refine Or.inl ⟨i, by omega, hget, fun m' hm' => ?_⟩
        rcases List.mem_cons.mp hm' with rfl | hm'
        · omega
        · exact hout m' hm'
      · exact Or.inr ⟨m', by simp [hm'], hcm⟩

section Greedy

variable {p : α → Bool} {k : List α → ℕ → Option β} {t : List α}

/-- A repetition stops where the class does. -/
theorem starThen_stop (ht : ∀ c ∈ t.head?, p c = false) (i : ℕ) : starThen p k t i = k t i := by
  cases t with
  | nil => rfl
  | cons c t =>
    have hc : p c = false := ht c rfl
    rw [starThen, hc]
    rfl

/-- A repetition fails when its continuation fails at every position it reaches. -/
theorem starThen_eq_none {v : List α} (hv : ∀ c ∈ v, p c = true)
    (ht : ∀ c ∈ t.head?, p c = false) {i : ℕ}
    (hk : ∀ v₁ v₂, v = v₁ ++ v₂ → k (v₂ ++ t) (i + v₁.length) = none) :
    starThen p k (v ++ t) i = none := by
  induction v generalizing i with
  | nil => exact (starThen_stop ht i).trans (hk [] [] rfl)
  | cons c v ih =>
    have hrest : starThen p k (v ++ t) (i + 1) = none := by
      refine ih (fun d hd => hv d (List.mem_cons_of_mem _ hd)) fun v₁ v₂ he => ?_
      have := hk (c :: v₁) v₂ (by rw [he, List.cons_append])
      rwa [List.length_cons, Nat.add_comm v₁.length, ← Nat.add_assoc] at this
    rw [List.cons_append, starThen, hv c List.mem_cons_self, if_pos rfl, hrest]
    exact hk [] (c :: v) rfl

/-- A repetition gives back the least that its continuation needs. -/
theorem starThen_eq_some {u v : List α} (hu : ∀ c ∈ u, p c = true) (hv : ∀ c ∈ v, p c = true)
    (ht : ∀ c ∈ t.head?, p c = false) {i : ℕ}
    (hk : ∀ v₁ v₂, v = v₁ ++ v₂ → v₁ ≠ [] → k (v₂ ++ t) (i + u.length + v₁.length) = none)
    {r : β} (h : k (v ++ t) (i + u.length) = some r) :
    starThen p k (u ++ (v ++ t)) i = some r := by
  induction u generalizing i with
  | nil =>
    cases v with
    | nil => exact (starThen_stop ht i).trans h
    | cons c v =>
      have hrest : starThen p k (v ++ t) (i + 1) = none := by
        refine starThen_eq_none (fun d hd => hv d (List.mem_cons_of_mem _ hd)) ht
          fun v₁ v₂ he => ?_
        have := hk (c :: v₁) v₂ (by rw [he, List.cons_append]) (List.cons_ne_nil _ _)
        rwa [List.length_cons, Nat.add_comm v₁.length, ← Nat.add_assoc] at this
      rw [List.nil_append, List.cons_append, starThen, hv c List.mem_cons_self, if_pos rfl, hrest]
      exact h
  | cons c u ih =>
    have hlen : i + (c :: u).length = i + 1 + u.length := by
      rw [List.length_cons]
      omega
    rw [hlen] at h hk
    have hrest := ih (fun d hd => hu d (List.mem_cons_of_mem _ hd)) hk h
    rw [List.cons_append, starThen, hu c List.mem_cons_self, if_pos rfl, hrest]
    rfl

end Greedy

/-- Nothing is found in a text that belongs to the match before. -/
theorem findAllFrom_of_length_le {pat : List (Atom α)} {s : List α} {skip : ℕ}
    (h : s.length ≤ skip) (i : ℕ) : findAllFrom pat s i skip = [] := by
  induction s generalizing i skip with
  | nil => rfl
  | cons c s ih =>
    obtain ⟨n, rfl⟩ : ∃ n, skip = n + 1 := ⟨skip - 1, by rw [List.length_cons] at h; omega⟩
    rw [findAllFrom]
    exact ih (by simpa using h) _

/-- A match of the whole text is the only one. -/
theorem findAll_whole {pat : List (Atom α)} {s : List α} {marks : List ℕ} (hs : s ≠ [])
    (h : matchHere pat s 0 = some (marks, s.length)) :
    findAll pat s = [⟨0, s.length, marks⟩] := by
  obtain ⟨c, s, rfl⟩ := List.exists_cons_of_ne_nil hs
  have hskip : findAllFrom pat s (0 + 1) ((c :: s).length - 0 - 1) = [] :=
    findAllFrom_of_length_le (by simp) _
  rw [findAll, findAllFrom, h]
  simp only [hskip]

/-! ## Parts of a text -/

/-- A part of a text: what stands outside the matches, or a match. -/
inductive Segment (α : Type) where
  | literal (s : List α)
  | matched (m : Match)

namespace Segment

/-- A part when a text is put in for each match. -/
def text (f : Match → List α) : Segment α → List α
  | literal s => s
  | matched m => f m

/-- The match of a part. -/
def matched? : Segment α → Option Match
  | literal _ => none
  | matched m => some m

end Segment

/-- The parts of the text `s` from a position on, for matches in order. -/
def segmentsFrom (s : List α) : ℕ → List Match → List (Segment α)
  | pos, [] => [.literal (s.drop pos)]
  | pos, m :: ms => .literal ((s.take m.start).drop pos) :: .matched m :: segmentsFrom s m.stop ms

/-- What stands at a match. -/
def site (s : List α) (m : Match) : List α := (s.take m.stop).drop m.start

/-- The parts hold the matches in order. -/
theorem filterMap_segmentsFrom (s : List α) (pos : ℕ) (ms : List Match) :
    (segmentsFrom s pos ms).filterMap Segment.matched? = ms := by
  induction ms generalizing pos with
  | nil => rfl
  | cons m ms ih => simp only [segmentsFrom, List.filterMap_cons, Segment.matched?, ih]

section Parts

variable {s : List α} {lo : ℕ} {ms : List Match}

/-- The text before a position and the part after it. -/
theorem take_append_drop_take {i j : ℕ} (h : i ≤ j) :
    s.take i ++ (s.take j).drop i = s.take j := by
  have htake : (s.take j).take i = s.take i := by rw [List.take_take, Nat.min_eq_left h]
  rw [← htake, List.take_append_drop]

/-- The parts make up the text. -/
theorem flatMap_segmentsFrom_site (h : Spaced s.length lo ms) :
    s.take lo ++ (segmentsFrom s lo ms).flatMap (Segment.text (site s)) = s := by
  induction ms generalizing lo with
  | nil => simp [segmentsFrom, Segment.text]
  | cons m ms ih =>
    obtain ⟨hlo, hlt, -, hrest⟩ := h
    rw [segmentsFrom, List.flatMap_cons, List.flatMap_cons, Segment.text, Segment.text,
      ← List.append_assoc, ← List.append_assoc, take_append_drop_take hlo, site,
      take_append_drop_take hlt.le, ih hrest]

/-- Replacing the matches from the last one on replaces each part and leaves the others. -/
theorem splice_eq_flatMap {f : Match → List α} (h : Spaced s.length lo ms) (hl : lo ≤ s.length) :
    splice ms f s = s.take lo ++ (segmentsFrom s lo ms).flatMap (Segment.text f) := by
  induction ms generalizing lo with
  | nil => simp [splice, segmentsFrom, Segment.text]
  | cons m ms ih =>
    obtain ⟨hlo, hlt, hhi, hrest⟩ := h
    have htail : splice ms f s =
        s.take m.stop ++ (segmentsFrom s m.stop ms).flatMap (Segment.text f) := ih hrest hhi
    have hstop : (s.take m.stop).length = m.stop := List.length_take_of_le hhi
    have hbefore : (splice ms f s).take m.start = s.take m.start := by
      rw [htail, List.take_append_of_le_length (by omega), List.take_take,
        Nat.min_eq_left hlt.le]
    have hafter : (splice ms f s).drop m.stop =
        (segmentsFrom s m.stop ms).flatMap (Segment.text f) := by
      rw [htail, List.drop_left' hstop]
    have hcons : splice (m :: ms) f s =
        (splice ms f s).take m.start ++ f m ++ (splice ms f s).drop m.stop := rfl
    rw [hcons, hbefore, hafter, segmentsFrom, List.flatMap_cons, List.flatMap_cons, Segment.text,
      Segment.text, ← List.append_assoc, ← List.append_assoc, take_append_drop_take hlo]

end Parts

/-! ## What a match reads -/

/-- A repetition takes elements of its class and hands the rest to its continuation. -/
theorem starThen_sound {p : α → Bool} {k : List α → ℕ → Option β} {s : List α} {i : ℕ} {r : β}
    (h : starThen p k s i = some r) :
    ∃ u v, s = u ++ v ∧ (∀ c ∈ u, p c = true) ∧ k v (i + u.length) = some r := by
  induction s generalizing i with
  | nil => exact ⟨[], [], rfl, by simp, h⟩
  | cons c s ih =>
    rw [starThen] at h
    split_ifs at h with hc
    · rw [Option.orElse_eq_or] at h
      rcases Option.or_eq_some_iff.mp h with hmore | ⟨-, hstop⟩
      · obtain ⟨u, v, rfl, hu, hk⟩ := ih hmore
        refine ⟨c :: u, v, rfl, List.forall_mem_cons.mpr ⟨hc, hu⟩, ?_⟩
        rwa [List.length_cons, Nat.add_comm u.length, ← Nat.add_assoc]
      · exact ⟨[], c :: s, rfl, by simp, hstop⟩
    · exact ⟨[], c :: s, rfl, by simp, h⟩

section Sound

variable {p : α → Bool} {as : List (Atom α)} {s : List α} {i : ℕ} {r : List ℕ × ℕ}

/-- One element is read. -/
theorem matchHere_one_sound (h : matchHere (.one p :: as) s i = some r) :
    ∃ c t, s = c :: t ∧ p c = true ∧ matchHere as t (i + 1) = some r := by
  cases s with
  | nil => cases h
  | cons c t =>
    rw [matchHere] at h
    split_ifs at h with hc
    exact ⟨c, t, rfl, hc, h⟩

/-- Any number of elements is read. -/
theorem matchHere_star_sound (h : matchHere (.star p :: as) s i = some r) :
    ∃ u v, s = u ++ v ∧ (∀ c ∈ u, p c = true) ∧ matchHere as v (i + u.length) = some r := by
  rw [matchHere] at h
  exact starThen_sound h

/-- At least one element is read. -/
theorem matchHere_plus_sound (h : matchHere (.plus p :: as) s i = some r) :
    ∃ u v, s = u ++ v ∧ u ≠ [] ∧ (∀ c ∈ u, p c = true) ∧
      matchHere as v (i + u.length) = some r := by
  cases s with
  | nil => cases h
  | cons c t =>
    rw [matchHere] at h
    split_ifs at h with hc
    obtain ⟨u, v, rfl, hu, hk⟩ := starThen_sound h
    refine ⟨c :: u, v, rfl, List.cons_ne_nil _ _, List.forall_mem_cons.mpr ⟨hc, hu⟩, ?_⟩
    rwa [List.length_cons, Nat.add_comm u.length, ← Nat.add_assoc]

/-- The position is recorded. -/
theorem matchHere_mark_sound (h : matchHere (.mark :: as) s i = some r) :
    ∃ marks stop, matchHere as s i = some (marks, stop) ∧ r = (i :: marks, stop) := by
  rw [matchHere, Option.map_eq_some_iff] at h
  obtain ⟨⟨marks, stop⟩, hrest, rfl⟩ := h
  exact ⟨marks, stop, hrest, rfl⟩

end Sound

/-- A match was found where it starts. -/
theorem matchHere_of_mem_findAll {pat : List (Atom α)} {s : List α} {m : Match}
    (h : m ∈ findAll pat s) : matchHere pat (s.drop m.start) m.start = some (m.marks, m.stop) := by
  have hfrom : ∀ (t : List α) (i skip : ℕ), s.drop i = t → m ∈ findAllFrom pat t i skip →
      matchHere pat (s.drop m.start) m.start = some (m.marks, m.stop) := by
    intro t
    induction t with
    | nil =>
      intro i skip _ hm
      cases hm
    | cons c t ih =>
      intro i skip hdrop hm
      have hnext : s.drop (i + 1) = t := by
        rw [← List.drop_drop, hdrop, List.drop_one, List.tail_cons]
      cases skip with
      | succ skip => exact ih _ _ hnext hm
      | zero =>
        rw [findAllFrom] at hm
        split at hm
        · rename_i marks stop hmatch
          rcases List.mem_cons.mp hm with rfl | hm
          · rwa [hdrop]
          · exact ih _ _ hnext hm
        · exact ih _ _ hnext hm
  exact hfrom s 0 0 rfl h

/-! ## Matches in a part of a text -/

section Occurrences

variable {pat : List (Atom α)} {p : α → Bool} {k : List α → ℕ → Option β}

/-- A repetition may take nothing. -/
theorem isSome_starThen {s : List α} {i : ℕ} (h : (k s i).isSome) :
    (starThen p k s i).isSome := by
  cases s with
  | nil => exact h
  | cons c s =>
    rw [starThen]
    split_ifs
    · simp [h]
    · exact h

/-- More text after a match leaves a match, and where the text lies does not matter. -/
theorem starThen_append {t : List α}
    (hk : ∀ s i j, (k s i).isSome → (k (s ++ t) j).isSome) (s : List α) (i j : ℕ)
    (h : (starThen p k s i).isSome) : (starThen p k (s ++ t) j).isSome := by
  induction s generalizing i j with
  | nil => exact isSome_starThen (hk [] i j h)
  | cons c s ih =>
    rw [List.cons_append]
    rw [starThen] at h ⊢
    split_ifs at h ⊢
    · rw [Option.orElse_eq_or, Option.isSome_or, Bool.or_eq_true] at h ⊢
      exact h.imp (ih _ _) (hk (c :: s) i j)
    · exact hk (c :: s) i j h

/-- See `starThen_append`. -/
theorem matchHere_append (t : List α) (pat : List (Atom α)) (s : List α) (i j : ℕ)
    (h : (matchHere pat s i).isSome) : (matchHere pat (s ++ t) j).isSome := by
  induction pat generalizing s i j with
  | nil => rfl
  | cons a as ih =>
    cases a with
    | mark =>
      simp only [matchHere, Option.isSome_map] at h ⊢
      exact ih s i j h
    | star p =>
      rw [matchHere] at h ⊢
      exact starThen_append ih s i j h
    | one p =>
      cases s with
      | nil => cases h
      | cons c s =>
        rw [matchHere] at h
        rw [List.cons_append, matchHere]
        split_ifs at h ⊢
        · exact ih s _ _ h
        · cases h
    | plus p =>
      cases s with
      | nil => cases h
      | cons c s =>
        rw [matchHere] at h
        rw [List.cons_append, matchHere]
        split_ifs at h ⊢
        · exact starThen_append ih s _ _ h
        · cases h

/-- Nothing is found in a text exactly if the pattern matches at no position of it. -/
theorem findAllFrom_eq_nil_iff {s : List α} {i : ℕ} : findAllFrom pat s i 0 = [] ↔
    ∀ a b, s = a ++ b → b ≠ [] → matchHere pat b (i + a.length) = none := by
  induction s generalizing i with
  | nil =>
    refine ⟨fun _ a b hs hb => ?_, fun _ => rfl⟩
    exact absurd (List.append_eq_nil_iff.mp hs.symm).2 hb
  | cons c s ih =>
    rw [findAllFrom]
    constructor
    · intro h a b hs hb
      split at h
      · cases h
      · rename_i hnone
        cases a with
        | nil =>
          rw [List.nil_append] at hs
          rw [← hs]
          exact hnone
        | cons d a =>
          obtain ⟨-, hs⟩ := List.cons.inj hs
          have hrest := ih.mp h a b hs hb
          rwa [List.length_cons, Nat.add_comm a.length, ← Nat.add_assoc]
    · intro h
      have hhere : matchHere pat (c :: s) i = none := h [] (c :: s) rfl (List.cons_ne_nil _ _)
      rw [hhere]
      refine ih.mpr fun a b hs hb => ?_
      have hrest := h (c :: a) b (by rw [hs, List.cons_append]) hb
      rwa [List.length_cons, Nat.add_comm a.length, ← Nat.add_assoc] at hrest

/-- A text in which nothing is found has no part in which something is. -/
theorem findAll_eq_nil_of_infix {s t : List α} (h : s <:+: t) (ht : findAll pat t = []) :
    findAll pat s = [] := by
  obtain ⟨x, y, rfl⟩ := h
  rw [findAll, findAllFrom_eq_nil_iff] at ht ⊢
  rintro a b rfl hb
  have hnone := ht (x ++ a) (b ++ y) (by simp only [List.append_assoc]) (by simp [hb])
  cases hmatch : matchHere pat b (0 + a.length) with
  | none => rfl
  | some r =>
    have hsome := matchHere_append y pat b _ (0 + (x ++ a).length) (by rw [hmatch]; rfl)
    rw [hnone] at hsome
    cases hsome

/-- What is put in for a match is a part of the spliced text. -/
theorem infix_splice {f : Match → List α} {s : List α} {ms : List Match} {m : Match}
    (h : Spaced s.length 0 ms) (hm : m ∈ ms) : f m <:+: splice ms f s := by
  have hseg : Segment.matched m ∈ segmentsFrom s 0 ms := by
    rw [← filterMap_segmentsFrom s 0 ms] at hm
    obtain ⟨seg, hseg, hmatched⟩ := List.mem_filterMap.mp hm
    cases seg with
    | literal t => cases hmatched
    | matched m' =>
      cases hmatched
      exact hseg
  have htext : f m <:+: (segmentsFrom s 0 ms).flatMap (Segment.text f) :=
    List.infix_of_mem_flatten (List.mem_map_of_mem (f := Segment.text f) hseg)
  rw [splice_eq_flatMap h (Nat.zero_le _)]
  exact htext.trans (List.suffix_append _ _).isInfix

end Occurrences
end Comax.Core
