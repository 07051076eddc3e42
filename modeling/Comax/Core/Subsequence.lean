import Mathlib.Data.List.Basic
import Mathlib.Order.Nat

/-!
# Longest common subsequences and edit scripts

The length of a longest common subsequence of two lists, by the ends of the lists, and the
scripts that keep, remove and add elements to make one list into another. A script is shortest
when what it keeps is a longest common subsequence.
-/

namespace Comax.Core

open scoped List

variable {α : Type}

/-- A subsequence of a longer list ends with its last element or lies before it. -/
theorem sublist_concat {zs xs : List α} {c : α} (h : zs <+ xs ++ [c]) :
    zs <+ xs ∨ ∃ zs', zs = zs' ++ [c] ∧ zs' <+ xs := by
  obtain ⟨front, back, rfl, hfront, hback⟩ := List.sublist_append_iff.mp h
  rcases List.sublist_singleton.mp hback with rfl | rfl
  · exact Or.inl (by rwa [List.append_nil])
  · exact Or.inr ⟨front, rfl, hfront⟩

/-- The length of a longest common subsequence. -/
structure IsLcs (xs ys : List α) (n : ℕ) : Prop where
  attained : ∃ zs, zs <+ xs ∧ zs <+ ys ∧ zs.length = n
  greatest : ∀ zs, zs <+ xs → zs <+ ys → zs.length ≤ n

namespace IsLcs

variable {xs ys : List α} {n n' : ℕ}

/-- There is one length. -/
theorem unique (h : IsLcs xs ys n) (h' : IsLcs xs ys n') : n = n' := by
  obtain ⟨zs, hx, hy, rfl⟩ := h.attained
  obtain ⟨zs', hx', hy', rfl⟩ := h'.attained
  exact Nat.le_antisymm (h'.greatest zs hx hy) (h.greatest zs' hx' hy')

/-- The empty list has nothing in common. -/
theorem nil_left (ys : List α) : IsLcs [] ys 0 where
  attained := ⟨[], List.Sublist.refl _, List.nil_sublist _, rfl⟩
  greatest _ hx _ := hx.length_le

/-- Nothing is in common with the empty list. -/
theorem nil_right (xs : List α) : IsLcs xs [] 0 where
  attained := ⟨[], List.nil_sublist _, List.Sublist.refl _, rfl⟩
  greatest _ _ hy := hy.length_le

/-- A list has all of itself in common. -/
theorem self (xs : List α) : IsLcs xs xs xs.length where
  attained := ⟨xs, List.Sublist.refl _, List.Sublist.refl _, rfl⟩
  greatest _ hx _ := hx.length_le

/-- A common last element is in common. -/
theorem concat (h : IsLcs xs ys n) (c : α) : IsLcs (xs ++ [c]) (ys ++ [c]) (n + 1) where
  attained := by
    obtain ⟨zs, hx, hy, rfl⟩ := h.attained
    exact ⟨zs ++ [c], hx.append_right _, hy.append_right _, by simp⟩
  greatest zs hx hy := by
    rcases sublist_concat hx with hx' | ⟨front, rfl, hx'⟩
    · -- Without its last element, what is in common is no longer than before.
      have hy' : zs.dropLast <+ ys := by
        rcases sublist_concat hy with hy' | ⟨front, rfl, hy'⟩
        · exact (List.dropLast_sublist _).trans hy'
        · rwa [List.dropLast_concat]
      have hfront := h.greatest zs.dropLast ((List.dropLast_sublist _).trans hx') hy'
      rw [List.length_dropLast] at hfront
      omega
    · have hy' : front <+ ys := (List.append_sublist_append_right _).mp hy
      have hfront := h.greatest front hx' hy'
      rw [List.length_append, List.length_singleton]
      omega

/-- Of two different last elements one is not in common. -/
theorem concat_of_ne {c d : α} {a b : ℕ} (hne : c ≠ d) (ha : IsLcs xs (ys ++ [d]) a)
    (hb : IsLcs (xs ++ [c]) ys b) : IsLcs (xs ++ [c]) (ys ++ [d]) (max a b) where
  attained := by
    rcases Nat.le_total b a with hle | hle
    · obtain ⟨zs, hx, hy, hlen⟩ := ha.attained
      exact ⟨zs, hx.trans (List.sublist_append_left _ _), hy, by rw [hlen, Nat.max_eq_left hle]⟩
    · obtain ⟨zs, hx, hy, hlen⟩ := hb.attained
      exact ⟨zs, hx, hy.trans (List.sublist_append_left _ _), by rw [hlen, Nat.max_eq_right hle]⟩
  greatest zs hx hy := by
    rcases sublist_concat hx with hx' | ⟨front, rfl, -⟩
    · exact (ha.greatest zs hx' hy).trans (Nat.le_max_left _ _)
    · rcases sublist_concat hy with hy' | ⟨front', heq, -⟩
      · exact (hb.greatest _ hx hy').trans (Nat.le_max_right _ _)
      · exact absurd (List.append_inj_right' heq rfl) (by simpa using hne)

end IsLcs

/-- A step of an edit script. -/
inductive Edit (α : Type) where
  | keep (a : α)
  | remove (a : α)
  | add (a : α)

namespace Edit

/-- What a step reads of the list before. -/
def before? : Edit α → Option α
  | keep a => some a
  | remove a => some a
  | add _ => none

/-- What a step leaves in the list after. -/
def after? : Edit α → Option α
  | keep a => some a
  | remove _ => none
  | add a => some a

/-- What a step keeps. -/
def kept? : Edit α → Option α
  | keep a => some a
  | remove _ => none
  | add _ => none

/-- The steps that remove or add. -/
def changes (es : List (Edit α)) : ℕ := es.countP fun e => e.kept?.isNone

section Scripts

variable (es : List (Edit α))

/-- What is kept was there before. -/
theorem kept_sublist_before : es.filterMap kept? <+ es.filterMap before? := by
  induction es with
  | nil => exact List.Sublist.refl _
  | cons e es ih =>
    cases e with
    | keep a => exact ih.cons_cons a
    | remove a => exact ih.cons a
    | add a => exact ih

/-- What is kept is there after. -/
theorem kept_sublist_after : es.filterMap kept? <+ es.filterMap after? := by
  induction es with
  | nil => exact List.Sublist.refl _
  | cons e es ih =>
    cases e with
    | keep a => exact ih.cons_cons a
    | remove a => exact ih
    | add a => exact ih.cons a

/-- A step keeps or changes. -/
theorem kept_add_changes : (es.filterMap kept?).length + changes es = es.length := by
  induction es with
  | nil => rfl
  | cons e es ih =>
    have hcons : changes (e :: es) = changes es + if e.kept?.isNone then 1 else 0 :=
      List.countP_cons
    rw [hcons, List.length_cons]
    cases e <;> simp only [List.filterMap_cons, kept?, Option.isNone_some, Option.isNone_none,
      List.length_cons, Bool.false_eq_true, if_true, if_false] <;> omega

/-- Every element of both lists takes one step, and a kept one stands in both. -/
theorem length_add_kept : es.length + (es.filterMap kept?).length =
    (es.filterMap before?).length + (es.filterMap after?).length := by
  induction es with
  | nil => rfl
  | cons e es ih =>
    cases e <;> simp only [List.filterMap_cons, kept?, before?, after?, List.length_cons] <;> omega

end Scripts

section Shortest

variable {xs ys : List α} {es es' : List (Edit α)}

/-- A script that keeps a longest common subsequence has the fewest steps. -/
theorem length_le_of_isLcs (hlcs : IsLcs xs ys (es.filterMap kept?).length)
    (hbefore : es.filterMap before? = xs) (hafter : es.filterMap after? = ys)
    (hbefore' : es'.filterMap before? = xs) (hafter' : es'.filterMap after? = ys) :
    es.length ≤ es'.length := by
  have hkept := hlcs.greatest (es'.filterMap kept?)
    (hbefore' ▸ kept_sublist_before es') (hafter' ▸ kept_sublist_after es')
  have hlen := length_add_kept es
  have hlen' := length_add_kept es'
  rw [hbefore, hafter] at hlen
  rw [hbefore', hafter'] at hlen'
  omega

/-- And it has the fewest changes. -/
theorem changes_le_of_isLcs (hlcs : IsLcs xs ys (es.filterMap kept?).length)
    (hbefore : es.filterMap before? = xs) (hafter : es.filterMap after? = ys)
    (hbefore' : es'.filterMap before? = xs) (hafter' : es'.filterMap after? = ys) :
    changes es ≤ changes es' := by
  have hkept := hlcs.greatest (es'.filterMap kept?)
    (hbefore' ▸ kept_sublist_before es') (hafter' ▸ kept_sublist_after es')
  have hlen := length_le_of_isLcs hlcs hbefore hafter hbefore' hafter'
  have hsteps := kept_add_changes es
  have hsteps' := kept_add_changes es'
  omega

end Shortest

end Edit

end Comax.Core
