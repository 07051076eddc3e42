import Comax.Core.Program

/-!
# Programs that may stop between two actions

The states that an uninterrupted program passes through, with what the outside decides for each of
its actions. A crash between two actions leaves the system in one of them.
-/

namespace Comax.Core.Prog

variable {σ ω ρ α β : Type}

/-- The states a program passes through, from the first to the last. -/
def states : Prog σ ω ρ α → (ℕ → ω) → σ → List σ
  | ret _, _, s => [s]
  | exit _, _, s => [s]
  | atomic t k, os, s =>
    s :: match t (os 0) s with
      | (.ok b, s') => (k b).states (fun n => os (n + 1)) s'
      | (.error _, s') => [s']

/-- The state that a program ends in is passed through. -/
theorem outcome_mem_states (p : Prog σ ω ρ α) (os : ℕ → ω) (s : σ) :
    (p.outcome os s).2 ∈ p.states os s := by
  induction p generalizing os s with
  | ret a => exact List.mem_singleton_self s
  | exit r => exact List.mem_singleton_self s
  | atomic t k ih =>
    rw [outcome, states]
    rcases t (os 0) s with ⟨_ | b, s'⟩
    · exact List.mem_cons_of_mem _ (List.mem_singleton_self s')
    · exact List.mem_cons_of_mem _ (ih b _ s')

/-- Every state passed through satisfies `P`, the state after an early result also `E`, and a
result satisfies `Q` with what the outside decides next and the state. -/
def Along (P E : σ → Prop) : Prog σ ω ρ α → (ℕ → ω) → σ → (α → (ℕ → ω) → σ → Prop) → Prop
  | ret a, os, s, Q => P s ∧ Q a os s
  | exit _, _, s, _ => P s ∧ E s
  | atomic t k, os, s, Q =>
    P s ∧ match t (os 0) s with
      | (.ok b, s') => (k b).Along P E (fun n => os (n + 1)) s' Q
      | (.error _, s') => P s' ∧ E s'

section

variable {P E : σ → Prop} {os : ℕ → ω} {s : σ}

/-- The first state is passed through. -/
theorem Along.here {p : Prog σ ω ρ α} {Q : α → (ℕ → ω) → σ → Prop} (h : p.Along P E os s Q) :
    P s := by
  cases p with
  | ret a => exact h.1
  | exit r => exact h.1
  | atomic t k =>
    rw [Along] at h
    exact h.1

/-- A postcondition may be weakened. -/
theorem Along.mono {p : Prog σ ω ρ α} {Q Q' : α → (ℕ → ω) → σ → Prop} (h : p.Along P E os s Q)
    (hQ : ∀ a os' s', Q a os' s' → Q' a os' s') : p.Along P E os s Q' := by
  induction p generalizing os s with
  | ret a => exact ⟨h.1, hQ _ _ _ h.2⟩
  | exit r => exact h
  | atomic t k ih =>
    rw [Along] at h ⊢
    obtain ⟨hs, hrest⟩ := h
    refine ⟨hs, ?_⟩
    split at hrest
    · exact ih _ hrest
    · exact hrest

/-- What holds along a program may be weakened. -/
theorem Along.weaken {P' E' : σ → Prop} {p : Prog σ ω ρ α} {Q : α → (ℕ → ω) → σ → Prop}
    (h : p.Along P E os s Q) (hP : ∀ s', P s' → P' s') (hE : ∀ s', E s' → E' s') :
    p.Along P' E' os s Q := by
  induction p generalizing os s with
  | ret a => exact ⟨hP _ h.1, h.2⟩
  | exit r => exact ⟨hP _ h.1, hE _ h.2⟩
  | atomic t k ih =>
    rw [Along] at h ⊢
    obtain ⟨hs, hrest⟩ := h
    refine ⟨hP _ hs, ?_⟩
    split at hrest
    · exact ih _ hrest
    · exact ⟨hP _ hrest.1, hE _ hrest.2⟩

/-- One part after another. -/
theorem along_bind {p : Prog σ ω ρ α} {f : α → Prog σ ω ρ β} {Q : β → (ℕ → ω) → σ → Prop} :
    (p >>= f).Along P E os s Q ↔
      p.Along P E os s fun a os' s' => (f a).Along P E os' s' Q := by
  induction p generalizing os s with
  | ret a => exact ⟨fun h => ⟨h.here, h⟩, fun h => h.2⟩
  | exit r => exact Iff.rfl
  | atomic t k ih =>
    change (atomic t fun b => k b >>= f).Along P E os s Q ↔ _
    rw [Along, Along]
    refine and_congr_right fun _ => ?_
    split
    · exact ih _
    · exact Iff.rfl

/-- What holds along a program holds of its states and after its early results. -/
theorem along_iff {p : Prog σ ω ρ α} : p.Along P E os s (fun _ _ _ => True) ↔
    (∀ s' ∈ p.states os s, P s') ∧ ∀ r s', p.outcome os s = (.error r, s') → E s' := by
  induction p generalizing os s with
  | ret a => simp [Along, states, outcome]
  | exit r => simp [Along, states, outcome]
  | atomic t k ih =>
    rw [Along, states, outcome, List.forall_mem_cons, and_assoc]
    refine and_congr_right fun _ => ?_
    rcases t (os 0) s with ⟨_ | b, s'⟩
    · simp
    · exact ih b

/-- What holds along a program holds of the states that it passes through. -/
theorem Along.of_mem_states {p : Prog σ ω ρ α} {Q : α → (ℕ → ω) → σ → Prop}
    (h : p.Along P E os s Q) {s' : σ} (hs : s' ∈ p.states os s) : P s' :=
  (along_iff.mp (h.mono fun _ _ _ _ => trivial)).1 s' hs

/-- What holds along a program that returns holds of its result. -/
theorem Along.outcome_ok {p : Prog σ ω ρ α} {Q : α → (ℕ → ω) → σ → Prop} (h : p.Along P E os s Q)
    {a : α} {s' : σ} (hend : p.outcome os s = (.ok a, s')) : ∃ os', Q a os' s' := by
  induction p generalizing os s with
  | ret b =>
    cases hend
    exact ⟨os, h.2⟩
  | exit r => cases hend
  | atomic t k ih =>
    rw [Along] at h
    rw [outcome] at hend
    split at hend
    · rename_i b s₁ hres
      have hrest := h.2
      rw [hres] at hrest
      exact ih b hrest hend
    · cases hend

end

/-! ## A program on a part of the state -/

variable {σ' ω' : Type}

/-- A program on a part of a state; `get` reads the part, `put` replaces it, and `read` is what the
outside decides for the part. -/
def zoom (get : σ' → σ) (put : σ → σ' → σ') (read : ω' → ω) :
    Prog σ ω ρ α → Prog σ' ω' ρ α
  | ret a => ret a
  | exit r => exit r
  | atomic t k => atomic (fun o w => ((t (read o) (get w)).1, put (t (read o) (get w)).2 w))
      fun b => (k b).zoom get put read

/-- What holds along a program holds along it on its part of the state. -/
theorem Along.zoom {get : σ' → σ} {put : σ → σ' → σ'} {read : ω' → ω}
    (hget : ∀ s w, get (put s w) = s) (hput : ∀ s s' w, put s (put s' w) = put s w)
    {p : Prog σ ω ρ α} {P E : σ → Prop} {os : ℕ → ω'} {w w' : σ'} {Q : α → (ℕ → ω) → σ → Prop}
    (hw : w = put (get w) w') (h : p.Along P E (fun n => read (os n)) (get w) Q) :
    (p.zoom get put read).Along (fun v => ∃ s, P s ∧ v = put s w')
      (fun v => ∃ s, E s ∧ v = put s w') os w
      fun a os' v => ∃ s, Q a (fun n => read (os' n)) s ∧ v = put s w' := by
  induction p generalizing os w with
  | ret a => exact ⟨⟨_, h.1, hw⟩, _, h.2, hw⟩
  | exit r => exact ⟨⟨_, h.1, hw⟩, _, h.2, hw⟩
  | atomic t k ih =>
    rw [Along] at h
    rw [Prog.zoom, Along]
    refine ⟨⟨_, h.1, hw⟩, ?_⟩
    have hrest := h.2
    have hkeep : ∀ s, put s w = put s w' := fun s => by rw [hw, hput]
    rcases hstep : t (read (os 0)) (get w) with ⟨_ | b, s⟩
    · rw [hstep] at hrest
      exact ⟨⟨s, hrest.1, hkeep s⟩, s, hrest.2, hkeep s⟩
    · rw [hstep] at hrest
      refine ih b ?_ ?_
      · rw [hget, hkeep]
      · rw [hget]
        exact hrest

end Comax.Core.Prog
