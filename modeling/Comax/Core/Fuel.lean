import Comax.Core.Hoare

/-!
# Deeper recursion does not change a result

A recursion cut off at a depth fails with one distinguished error. `Below bot m m'`
says that `m'` does what `m` does from every state in which `m` is not cut off, and
the rules carry this order through the monad operations and the two folds, so that
a body over its recursive calls is monotone in them.
-/

namespace Comax.Core

variable {σ ε α β : Type} {bot : ε}

/-- `m'` does what `m` does, wherever `m` does not end in `bot`. -/
def Below (bot : ε) (m m' : StateT σ (Except ε) α) : Prop :=
  ∀ s, m s = .error bot ∨ m' s = m s

namespace Below

/-- Every computation is below itself. -/
theorem refl (m : StateT σ (Except ε) α) : Below bot m m := fun _ => .inr rfl

/-- A run that ends elsewhere than in `bot` is the run of every larger computation. -/
theorem eq_of_ne {m m' : StateT σ (Except ε) α} (h : Below bot m m') {s : σ}
    (hs : m s ≠ .error bot) : m' s = m s :=
  (h s).resolve_left hs

/-- Sequencing is monotone in both parts. -/
theorem bind {m m' : StateT σ (Except ε) α} {f f' : α → StateT σ (Except ε) β}
    (hm : Below bot m m') (hf : ∀ a, Below bot (f a) (f' a)) :
    Below bot (m >>= f) (m' >>= f') := by
  intro s
  have hb : ∀ (m : StateT σ (Except ε) α) f, (m >>= f : StateT σ (Except ε) β) s =
      (m s).bind fun r => f r.1 r.2 := fun _ _ => rfl
  rw [hb, hb]
  rcases hm s with h | h
  · exact .inl (by rw [h]; rfl)
  · rw [h]
    cases m s with
    | error e => exact .inr rfl
    | ok r => exact hf r.1 r.2

/-- A left fold is monotone in its step. -/
theorem foldlM {f f' : β → α → StateT σ (Except ε) β} (hf : ∀ b a, Below bot (f b a) (f' b a))
    (xs : List α) (b : β) : Below bot (xs.foldlM f b) (xs.foldlM f' b) := by
  induction xs generalizing b with
  | nil => exact refl _
  | cons x xs ih =>
    rw [List.foldlM_cons, List.foldlM_cons]
    exact (hf b x).bind ih

/-- A right fold is monotone in its step. -/
theorem foldrM {f f' : α → β → StateT σ (Except ε) β} (hf : ∀ a b, Below bot (f a b) (f' a b))
    (xs : List α) (b : β) : Below bot (xs.foldrM f b) (xs.foldrM f' b) := by
  induction xs with
  | nil => exact refl _
  | cons x xs ih =>
    rw [List.foldrM_cons, List.foldrM_cons]
    exact ih.bind (hf x)

end Below

end Comax.Core
