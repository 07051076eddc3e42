import Comax.Core.Hoare

/-!
# Two computations that do the same

`Twin I R m m'` says that `m` and `m'` do the same from every state of `I`, and that
they return to `I` with a value in `R`. Two programs over different data are twins
if they are built alike from twins: the invariant is what tells the data of the one
from those of the other where it matters.
-/

namespace Comax.Core

variable {σ ε α β : Type} {I : σ → Prop} {R : α → Prop} {S : β → Prop}

/-- From every state of `I`, both do the same and return to `I` with a value in `R`. -/
def Twin (I : σ → Prop) (R : α → Prop) (m m' : StateT σ (Except ε) α) : Prop :=
  ∀ s, I s → m' s = m s ∧ wp m s (fun a s' => I s' ∧ R a) fun _ => True

namespace Twin

variable {m m' : StateT σ (Except ε) α}

/-- A computation that keeps the invariant is its own twin. -/
theorem of_wp (h : ∀ s, I s → wp m s (fun a s' => I s' ∧ R a) fun _ => True) : Twin I R m m :=
  fun s hs => ⟨rfl, h s hs⟩

/-- A value is its own twin. -/
theorem pure {a : α} (h : R a) : Twin I R (Pure.pure a : StateT σ (Except ε) α) (Pure.pure a) :=
  of_wp fun _ hs => ⟨hs, h⟩

/-- So is a failure. -/
theorem throw (e : ε) : Twin I R (MonadExcept.throw e : StateT σ (Except ε) α)
    (MonadExcept.throw e) :=
  of_wp fun _ _ => trivial

/-- Twins after twins. -/
theorem bind {f f' : α → StateT σ (Except ε) β} (hm : Twin I R m m')
    (hf : ∀ a, R a → Twin I S (f a) (f' a)) : Twin I S (m >>= f) (m' >>= f') := by
  intro s hs
  obtain ⟨heq, hwp⟩ := hm s hs
  have hb : ∀ (m : StateT σ (Except ε) α) f, (m >>= f : StateT σ (Except ε) β) s =
      (m s).bind fun r => f r.1 r.2 := fun _ _ => rfl
  rw [wp_bind]
  constructor
  · rw [hb, hb, heq]
    cases hr : m s with
    | error e => rfl
    | ok r =>
      obtain ⟨hI, hR⟩ := wp_ok hwp hr
      exact (hf r.1 hR r.2 hI).1
  · exact wp_mono hwp (fun a s' h => (hf a h.2 s' h.1).2) fun _ he => he

/-- Reading the state. -/
theorem get_bind {f f' : σ → StateT σ (Except ε) β}
    (hf : ∀ s, I s → f' s s = f s s ∧ wp (f s) s (fun b s' => I s' ∧ S b) fun _ => True) :
    Twin I S (get >>= f) (get >>= f') := by
  intro s hs
  obtain ⟨heq, hwp⟩ := hf s hs
  exact ⟨heq, hwp⟩

/-- Left folds of twins. -/
theorem foldlM {f f' : β → α → StateT σ (Except ε) β} (xs : List α)
    (hf : ∀ b, S b → ∀ x ∈ xs, Twin I S (f b x) (f' b x)) {b : β} (hb : S b) :
    Twin I S (xs.foldlM f b) (xs.foldlM f' b) := by
  induction xs generalizing b with
  | nil => exact pure hb
  | cons x xs ih =>
    rw [List.foldlM_cons, List.foldlM_cons]
    exact (hf b hb x List.mem_cons_self).bind fun b hb =>
      ih (fun b hb y hy => hf b hb y (List.mem_cons_of_mem _ hy)) hb

/-- Right folds of twins. -/
theorem foldrM {f f' : α → β → StateT σ (Except ε) β} (xs : List α)
    (hf : ∀ x ∈ xs, ∀ b, S b → Twin I S (f x b) (f' x b)) {b : β} (hb : S b) :
    Twin I S (xs.foldrM f b) (xs.foldrM f' b) := by
  induction xs with
  | nil => exact pure hb
  | cons x xs ih =>
    rw [List.foldrM_cons, List.foldrM_cons]
    exact (ih fun y hy => hf y (List.mem_cons_of_mem _ hy)).bind fun b hb =>
      hf x List.mem_cons_self b hb

end Twin

end Comax.Core
