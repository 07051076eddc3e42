import Mathlib.Control.Lawful

/-!
# Weakest preconditions for a state monad with failure

`wp m s Q E` says of one run of `m` from `s`: if it returns, its value and final
state satisfy `Q`, and if it fails, its error satisfies `E`. Each rule is an
equivalence, so `simp only` with the rules reduces a program to its conditions;
the two loop rules carry an invariant over a fold.
-/

namespace Comax.Core

variable {σ ε α β : Type}

/-- The condition on a start state under which `m` ends in `Q` or fails in `E`. -/
def wp (m : StateT σ (Except ε) α) (s : σ) (Q : α → σ → Prop) (E : ε → Prop) : Prop :=
  match m s with
  | .ok (a, s') => Q a s'
  | .error e => E e

/-- A returning run meets its postcondition. -/
theorem wp_ok {m : StateT σ (Except ε) α} {s s' : σ} {a : α} {Q : α → σ → Prop}
    {E : ε → Prop} (h : wp m s Q E) (hr : m s = .ok (a, s')) : Q a s' := by
  simpa only [wp, hr] using h

/-- A failing run meets its error condition. -/
theorem wp_error {m : StateT σ (Except ε) α} {s : σ} {e : ε} {Q : α → σ → Prop}
    {E : ε → Prop} (h : wp m s Q E) (hr : m s = .error e) : E e := by
  simpa only [wp, hr] using h

/-- Postconditions may be weakened. -/
theorem wp_mono {m : StateT σ (Except ε) α} {s : σ} {Q Q' : α → σ → Prop} {E E' : ε → Prop}
    (h : wp m s Q E) (hQ : ∀ a s', Q a s' → Q' a s') (hE : ∀ e, E e → E' e) : wp m s Q' E' := by
  unfold wp at h ⊢
  cases hm : m s with
  | ok r => rw [hm] at h; exact hQ _ _ h
  | error e => rw [hm] at h; exact hE _ h

/-- Two postconditions of one run hold together. -/
theorem wp_and {m : StateT σ (Except ε) α} {s : σ} {Q Q' : α → σ → Prop} {E E' : ε → Prop}
    (h : wp m s Q E) (h' : wp m s Q' E') :
    wp m s (fun a s' => Q a s' ∧ Q' a s') (fun e => E e ∧ E' e) := by
  unfold wp at h h' ⊢
  cases hm : m s with
  | ok r => rw [hm] at h h'; exact ⟨h, h'⟩
  | error e => rw [hm] at h h'; exact ⟨h, h'⟩

/-- What holds of the returning runs and what holds of the failing ones may come from two
arguments. -/
theorem wp_combine {m : StateT σ (Except ε) α} {s : σ} {Q : α → σ → Prop} {E E' : ε → Prop}
    (h : wp m s Q E) (h' : wp m s (fun _ _ => True) E') : wp m s Q E' :=
  wp_mono (wp_and h h') (fun _ _ hq => hq.1) fun _ he => he.2

@[simp] theorem wp_pure (a : α) (s : σ) (Q : α → σ → Prop) (E : ε → Prop) :
    wp (pure a : StateT σ (Except ε) α) s Q E ↔ Q a s := Iff.rfl

@[simp] theorem wp_get (s : σ) (Q : σ → σ → Prop) (E : ε → Prop) :
    wp (get : StateT σ (Except ε) σ) s Q E ↔ Q s s := Iff.rfl

@[simp] theorem wp_modify (f : σ → σ) (s : σ) (Q : PUnit → σ → Prop) (E : ε → Prop) :
    wp (modify f : StateT σ (Except ε) PUnit) s Q E ↔ Q ⟨⟩ (f s) := Iff.rfl

@[simp] theorem wp_bind (m : StateT σ (Except ε) α) (f : α → StateT σ (Except ε) β) (s : σ)
    (Q : β → σ → Prop) (E : ε → Prop) :
    wp (m >>= f) s Q E ↔ wp m s (fun a s' => wp (f a) s' Q E) E := by
  have hb : (m >>= f) s = (m s).bind fun r => f r.1 r.2 := rfl
  unfold wp
  rw [hb]
  cases m s with
  | ok r => exact Iff.rfl
  | error e => exact Iff.rfl

/-- The invariant rule for a left fold; the invariant sees the elements still to come. -/
theorem wp_foldlM {f : β → α → StateT σ (Except ε) β} (I : List α → β → σ → Prop)
    {E : ε → Prop} (hstep : ∀ x xs b s, I (x :: xs) b s → wp (f b x) s (I xs) E) :
    ∀ (xs : List α) (b : β) (s : σ), I xs b s → wp (xs.foldlM f b) s (I []) E := by
  intro xs
  induction xs with
  | nil => intro b s h; exact h
  | cons x xs ih =>
    intro b s h
    rw [List.foldlM_cons, wp_bind]
    exact wp_mono (hstep x xs b s h) (fun b' s' h' => ih b' s' h') (fun _ he => he)

/-- The invariant rule for a right fold; the invariant sees the elements already folded. -/
theorem wp_foldrM {f : α → β → StateT σ (Except ε) β} (I : List α → β → σ → Prop)
    {E : ε → Prop} (xs : List α)
    (hstep : ∀ pre x post b s, xs = pre ++ x :: post → I post b s → wp (f x b) s (I (x :: post)) E)
    (b : β) (s : σ) (h : I [] b s) : wp (xs.foldrM f b) s (I xs) E := by
  suffices hs : ∀ pre ys, xs = pre ++ ys → wp (ys.foldrM f b) s (I ys) E from hs [] xs rfl
  intro pre ys
  induction ys generalizing pre with
  | nil => intro _; exact h
  | cons y ys ih =>
    intro he
    rw [List.foldrM_cons, wp_bind]
    have he' : xs = (pre ++ [y]) ++ ys := by simpa using he
    exact wp_mono (ih (pre ++ [y]) he') (fun b' s' h' => hstep pre y ys b' s' he h')
      (fun _ hE => hE)

end Comax.Core
