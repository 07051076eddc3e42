import Comax.Core.Text

/-!
# Replacing every occurrence

`strings.ReplaceAll`, and that it works on the parts of a text between separators.
-/

namespace Comax.Core

/-- Pass over `n` bytes, then replace. -/
def replaceFrom (old new : Str) : ℕ → Str → Str
  | _, [] => []
  | n + 1, _ :: s => replaceFrom old new n s
  | 0, c :: s =>
    if old.isPrefixOf (c :: s) then new ++ replaceFrom old new (old.length - 1) s
    else c :: replaceFrom old new 0 s

/-- `strings.ReplaceAll`, for `old` that is not empty. -/
def replaceAll (old new s : Str) : Str := replaceFrom old new 0 s

section

variable {old new : Str} {sep : UInt8}

/-- A text before a separator decides what it starts with. -/
theorem isPrefixOf_append_sep (hold : sep ∉ old) (s t : Str) :
    old.isPrefixOf (s ++ sep :: t) = old.isPrefixOf s := by
  induction old generalizing s with
  | nil => rfl
  | cons c old ih =>
    rw [List.mem_cons, not_or] at hold
    cases s with
    | nil =>
      have hc : (c == sep) = false := beq_false_of_ne (Ne.symm hold.1)
      rw [List.nil_append, List.isPrefixOf_cons_cons, hc, Bool.false_and]
      rfl
    | cons d s => rw [List.cons_append, List.isPrefixOf, List.isPrefixOf, ih hold.2]

/-- Replacing does not look past a separator. -/
theorem replaceFrom_append_sep (hne : old ≠ []) (hold : sep ∉ old) {n : ℕ} {s : Str}
    (hn : n ≤ s.length) (t : Str) :
    replaceFrom old new n (s ++ sep :: t) =
      replaceFrom old new n s ++ sep :: replaceFrom old new 0 t := by
  induction s generalizing n with
  | nil =>
    obtain rfl : n = 0 := Nat.le_zero.mp hn
    have hno : ¬old.isPrefixOf (sep :: t) = true := by
      rw [← List.nil_append (sep :: t), isPrefixOf_append_sep hold]
      simpa using hne
    rw [List.nil_append, replaceFrom.eq_def, replaceFrom.eq_def]
    simp only [if_neg hno, List.nil_append]
  | cons c s ih =>
    cases n with
    | succ n => exact ih (Nat.le_of_succ_le_succ hn)
    | zero =>
      rw [List.cons_append, replaceFrom, replaceFrom, ← List.cons_append,
        isPrefixOf_append_sep hold]
      split_ifs with hp
      · have hlen : old.length ≤ s.length + 1 := (List.isPrefixOf_iff_prefix.mp hp).length_le
        rw [ih (by omega), List.append_assoc]
      · rw [ih (Nat.zero_le _), List.cons_append]

/-- Nothing but the new text brings a byte in. -/
theorem mem_replaceFrom {c : UInt8} {n : ℕ} {s : Str} (h : c ∈ replaceFrom old new n s) :
    c ∈ new ∨ c ∈ s := by
  induction s generalizing n with
  | nil => cases n <;> cases h
  | cons d s ih =>
    cases n with
    | succ n => exact (ih h).imp_right (List.mem_cons_of_mem _)
    | zero =>
      rw [replaceFrom] at h
      split_ifs at h
      · rcases List.mem_append.mp h with h | h
        · exact .inl h
        · exact (ih h).imp_right (List.mem_cons_of_mem _)
      · rcases List.mem_cons.mp h with rfl | h
        · exact .inr List.mem_cons_self
        · exact (ih h).imp_right (List.mem_cons_of_mem _)

/-- A text either is kept or contains the new text. -/
theorem replaceFrom_cases (n : ℕ) (s : Str) :
    replaceFrom old new n s = s.drop n ∨ ∀ c ∈ new, c ∈ replaceFrom old new n s := by
  induction s generalizing n with
  | nil => cases n <;> exact .inl rfl
  | cons d s ih =>
    cases n with
    | succ n => exact ih n
    | zero =>
      rw [replaceFrom]
      split_ifs
      · exact .inr fun c hc => List.mem_append_left _ hc
      · refine (ih 0).imp (fun h => ?_) fun h c hc => List.mem_cons_of_mem _ (h c hc)
        rw [h]
        rfl

/-- Replacing works on the parts of a text between separators. -/
theorem splitOn_replaceAll (hne : old ≠ []) (hold : sep ∉ old) (hnew : sep ∉ new) (s : Str) :
    (replaceAll old new s).splitOn sep = (s.splitOn sep).map (replaceAll old new) := by
  induction hlen : s.length using Nat.strong_induction_on generalizing s with
  | _ n ih =>
    by_cases hs : sep ∈ s
    · obtain ⟨a, b, rfl, ha⟩ := List.eq_append_cons_of_mem hs
      have hfirst : sep ∉ replaceAll old new a := fun h => (mem_replaceFrom h).elim hnew ha
      have hrest := ih b.length (by rw [← hlen, List.length_append, List.length_cons]; omega) b rfl
      have hsplit : replaceAll old new (a ++ sep :: b) =
          replaceAll old new a ++ sep :: replaceAll old new b :=
        replaceFrom_append_sep hne hold (Nat.zero_le _) b
      rw [hsplit, List.splitOn_append_cons_self_of_not_mem hfirst,
        List.splitOn_append_cons_self_of_not_mem ha, hrest, List.map_cons]
    · have hnone : sep ∉ replaceAll old new s := fun h => (mem_replaceFrom h).elim hnew hs
      rw [List.splitOn_eq_singleton hnone, List.splitOn_eq_singleton hs, List.map_singleton]

end

end Comax.Core
