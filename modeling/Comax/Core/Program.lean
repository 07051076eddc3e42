import Comax.Core.Machine
import Mathlib.Data.Nat.Notation
import Mathlib.Logic.Function.Basic

/-!
# Programs over a shared state

A program works on its own between atomic actions on a state that it shares with
other programs. An action may refuse, which ends the program. In `interleave` any
number of programs take their actions in any order. A process keeps the outside
inputs and the states that its actions have met, and its continuation is replayed
from these. `Every` is what all actions of a program do to the state, and `Meets` what
they do when the others only move the state along a given relation.
-/

namespace Comax.Core

/-- A program with results in `α` and early results in `ρ`. Its actions change a state in `σ`
and are told by the outside what `ω` describes. -/
inductive Prog (σ ω ρ α : Type) : Type 1
  | ret (a : α)
  | exit (r : ρ)
  | atomic {β : Type} (t : ω → σ → Except ρ β × σ) (k : β → Prog σ ω ρ α)

namespace Prog

variable {σ ω ρ α β : Type}

/-- Sequential composition; an early result skips the rest. -/
def bind : Prog σ ω ρ α → (α → Prog σ ω ρ β) → Prog σ ω ρ β
  | ret a, f => f a
  | exit r, _ => exit r
  | atomic t k, f => atomic t fun b => (k b).bind f

instance : Monad (Prog σ ω ρ) where
  pure := ret
  bind := bind

@[simp] theorem exit_bind (r : ρ) (f : α → Prog σ ω ρ β) :
    (exit r >>= f : Prog σ ω ρ β) = exit r := rfl

@[simp] theorem atomic_bind {γ : Type} (t : ω → σ → Except ρ γ × σ) (k : γ → Prog σ ω ρ α)
    (f : α → Prog σ ω ρ β) : (atomic t k >>= f) = atomic t fun c => k c >>= f := rfl

/-- An action as a program. -/
def act (t : ω → σ → Except ρ α × σ) : Prog σ ω ρ α := atomic t ret

/-- A computation without actions as a program. -/
def lift : Except ρ α → Prog σ ω ρ α
  | .ok a => ret a
  | .error r => exit r

/-- What is left of a program after its actions have met the given inputs and states. -/
def resume : Prog σ ω ρ α → List (ω × σ) → Prog σ ω ρ α
  | p, [] => p
  | ret a, _ => ret a
  | exit r, _ => exit r
  | atomic t k, x :: xs =>
    match (t x.1 x.2).1 with
    | .ok b => (k b).resume xs
    | .error r => exit r

@[simp] theorem resume_nil (p : Prog σ ω ρ α) : p.resume [] = p := by
  cases p <;> rfl

@[simp] theorem resume_ret (a : α) (xs : List (ω × σ)) :
    (ret a : Prog σ ω ρ α).resume xs = ret a := by
  cases xs <;> rfl

@[simp] theorem resume_exit (r : ρ) (xs : List (ω × σ)) :
    (exit r : Prog σ ω ρ α).resume xs = exit r := by
  cases xs <;> rfl

/-- A program resumes in two stages. -/
theorem resume_append (p : Prog σ ω ρ α) (xs ys : List (ω × σ)) :
    p.resume (xs ++ ys) = (p.resume xs).resume ys := by
  induction p generalizing xs with
  | ret a => simp
  | exit r => simp
  | atomic t k ih =>
    cases xs with
    | nil => rfl
    | cons x xs =>
      simp only [List.cons_append, resume]
      cases (t x.1 x.2).1 with
      | ok b => exact ih b xs
      | error r => exact (resume_exit r ys).symm

/-- The program returns, having met exactly these inputs and states. -/
inductive Ends : Prog σ ω ρ α → List (ω × σ) → α → Prop
  | ret (a : α) : Ends (.ret a) [] a
  | atomic {β : Type} {t : ω → σ → Except ρ β × σ} {k : β → Prog σ ω ρ α} {x : ω × σ} {b : β}
      {xs : List (ω × σ)} {a : α} (hb : (t x.1 x.2).1 = .ok b) (h : Ends (k b) xs a) :
      Ends (.atomic t k) (x :: xs) a

/-- A finished part of a program hands over to the rest. -/
theorem Ends.resume_bind {p : Prog σ ω ρ α} {xs : List (ω × σ)} {a : α} (h : p.Ends xs a)
    (f : α → Prog σ ω ρ β) (ys : List (ω × σ)) : (p >>= f).resume (xs ++ ys) = (f a).resume ys := by
  induction h with
  | ret a => rfl
  | @atomic β t k x b xs a hb h ih =>
    rw [atomic_bind, List.cons_append, resume, hb]
    exact ih

/-- A program that returns resumes to its result. -/
theorem Ends.resume {p : Prog σ ω ρ α} {xs : List (ω × σ)} {a : α} (h : p.Ends xs a) :
    p.resume xs = .ret a := by
  induction h with
  | ret a => rfl
  | @atomic β t k x b xs a hb h ih =>
    rw [Prog.resume, hb]
    exact ih

/-- The parts of a sequence that returns return. -/
theorem Ends.of_bind {p : Prog σ ω ρ α} {f : α → Prog σ ω ρ β} {xs : List (ω × σ)} {b : β}
    (h : (p >>= f).Ends xs b) :
    ∃ ys zs a, xs = ys ++ zs ∧ p.Ends ys a ∧ (f a).Ends zs b := by
  induction p generalizing xs with
  | ret a => exact ⟨[], xs, a, rfl, .ret a, h⟩
  | exit r => cases h
  | atomic t k ih =>
    cases h with
    | @atomic _ _ _ x c xs _ hc h =>
      obtain ⟨ys, zs, a, rfl, hp, hf⟩ := ih c h
      exact ⟨x :: ys, zs, a, rfl, .atomic hc hp, hf⟩

/-- The parts of a sequence return one after the other. -/
theorem Ends.bind {p : Prog σ ω ρ α} {f : α → Prog σ ω ρ β} {xs ys : List (ω × σ)} {a : α} {b : β}
    (h : p.Ends xs a) (hf : (f a).Ends ys b) : (p >>= f).Ends (xs ++ ys) b := by
  induction h with
  | ret a => exact hf
  | atomic hb _ ih => exact .atomic hb (ih hf)

/-- An action that returns met one input and one state. -/
theorem Ends.of_act {t : ω → σ → Except ρ α × σ} {xs : List (ω × σ)} {a : α}
    (h : (act t).Ends xs a) : ∃ x, xs = [x] ∧ (t x.1 x.2).1 = .ok a := by
  cases h with
  | atomic hb h =>
    cases h
    exact ⟨_, rfl, hb⟩

/-- A computation without actions meets nothing. -/
theorem Ends.of_lift {m : Except ρ α} {xs : List (ω × σ)} {a : α}
    (h : (lift m : Prog σ ω ρ α).Ends xs a) : xs = [] ∧ m = .ok a := by
  cases m with
  | ok b =>
    cases h
    exact ⟨rfl, rfl⟩
  | error r => cases h

/-- A program that resumes to a result has returned within what it has met. -/
theorem Ends.of_resume {p : Prog σ ω ρ α} {xs : List (ω × σ)} {a : α} (h : p.resume xs = .ret a) :
    ∃ ys zs, xs = ys ++ zs ∧ p.Ends ys a := by
  induction p generalizing xs with
  | ret b =>
    rw [resume_ret] at h
    cases h
    exact ⟨[], xs, rfl, .ret a⟩
  | exit r =>
    rw [resume_exit] at h
    cases h
  | atomic t k ih =>
    cases xs with
    | nil => cases h
    | cons x xs =>
      rw [Prog.resume] at h
      cases hb : (t x.1 x.2).1 with
      | error r =>
        rw [hb] at h
        cases h
      | ok b =>
        rw [hb] at h
        obtain ⟨ys, zs, rfl, hends⟩ := ih b h
        exact ⟨x :: ys, zs, rfl, .atomic hb hends⟩

/-- A program that stood before its last action has met all of its past when it returns. -/
theorem Ends.of_last {p : Prog σ ω ρ α} {xs : List (ω × σ)} {x : ω × σ} {a : α} {γ : Type}
    {t : ω → σ → Except ρ γ × σ} {k : γ → Prog σ ω ρ α} (hat : p.resume xs = .atomic t k)
    (h : p.resume (xs ++ [x]) = .ret a) : p.Ends (xs ++ [x]) a := by
  obtain ⟨ys, zs, hxs, hends⟩ := Ends.of_resume h
  rcases List.eq_nil_or_concat zs with rfl | ⟨zs, z, rfl⟩
  · rw [List.append_nil] at hxs
    rw [hxs]
    exact hends
  · rw [List.concat_eq_append, ← List.append_assoc] at hxs
    obtain ⟨rfl, -⟩ := List.append_inj' hxs rfl
    rw [resume_append, hends.resume, resume_ret] at hat
    cases hat

/-- A sequence that stands before an action stands in its first part, or has finished it and
stands in the rest. -/
theorem resume_bind_eq_atomic {p : Prog σ ω ρ α} {f : α → Prog σ ω ρ β} {xs : List (ω × σ)}
    {γ : Type} {t : ω → σ → Except ρ γ × σ} {k : γ → Prog σ ω ρ β}
    (h : (p >>= f).resume xs = .atomic t k) :
    (∃ k', p.resume xs = .atomic t k') ∨
      ∃ ys zs a, xs = ys ++ zs ∧ p.Ends ys a ∧ (f a).resume zs = .atomic t k := by
  induction p generalizing xs with
  | ret a => exact .inr ⟨[], xs, a, rfl, .ret a, h⟩
  | exit r =>
    rw [exit_bind, resume_exit] at h
    cases h
  | atomic u l ih =>
    cases xs with
    | nil =>
      rw [atomic_bind, resume_nil] at h
      cases h
      exact .inl ⟨l, rfl⟩
    | cons x xs =>
      rw [atomic_bind, resume] at h
      rw [resume]
      cases hu : (u x.1 x.2).1 with
      | error r =>
        rw [hu] at h
        cases h
      | ok b =>
        rw [hu] at h
        rcases ih b h with hp | ⟨ys, zs, a, rfl, hends, hf⟩
        · exact .inl hp
        · exact .inr ⟨x :: ys, zs, a, rfl, .atomic hu hends, hf⟩

/-- The result of a program that has returned. -/
def returned : Prog σ ω ρ α → Option α
  | ret a => some a
  | _ => none

theorem returned_eq_some {p : Prog σ ω ρ α} {a : α} : p.returned = some a ↔ p = ret a := by
  cases p <;> simp [returned]

/-- Every action of the program relates the states before and after it. -/
def Every (R : σ → σ → Prop) : Prog σ ω ρ α → Prop
  | ret _ => True
  | exit _ => True
  | atomic t k => (∀ o s, R s (t o s).2) ∧ ∀ b, (k b).Every R

variable {R R' : σ → σ → Prop}

theorem every_true (p : Prog σ ω ρ α) : p.Every fun _ _ => True := by
  induction p with
  | ret a => trivial
  | exit r => trivial
  | atomic t k ih => exact ⟨fun _ _ => trivial, ih⟩

/-- The actions of a sequence are those of its parts. -/
theorem Every.bind {p : Prog σ ω ρ α} {f : α → Prog σ ω ρ β} (hp : p.Every R)
    (hf : ∀ a, (f a).Every R) : (p >>= f).Every R := by
  induction p with
  | ret a => exact hf a
  | exit r => trivial
  | atomic t k ih => exact ⟨hp.1, fun b => ih b (hp.2 b)⟩

/-- A program of one action. -/
theorem every_act {t : ω → σ → Except ρ α × σ} (h : ∀ o s, R s (t o s).2) : (act t).Every R :=
  ⟨h, fun _ => trivial⟩

@[simp] theorem every_lift (m : Except ρ α) : (lift m : Prog σ ω ρ α).Every R := by
  cases m <;> trivial

/-- A weaker relation holds as well. -/
theorem Every.mono {p : Prog σ ω ρ α} (hp : p.Every R) (hR : ∀ s s', R s s' → R' s s') :
    p.Every R' := by
  induction p with
  | ret a => trivial
  | exit r => trivial
  | atomic t k ih => exact ⟨fun o s => hR _ _ (hp.1 o s), fun b => ih b (hp.2 b)⟩

/-- What is left of a program has no other actions. -/
theorem Every.resume {p : Prog σ ω ρ α} (hp : p.Every R) (xs : List (ω × σ)) :
    (p.resume xs).Every R := by
  induction p generalizing xs with
  | ret a => rw [resume_ret]; trivial
  | exit r => rw [resume_exit]; trivial
  | atomic t k ih =>
    cases xs with
    | nil => exact hp
    | cons x xs =>
      rw [Prog.resume]
      cases (t x.1 x.2).1 with
      | ok b => exact ih b (hp.2 b) xs
      | error r => trivial

/-- What holds of a program started in `s` or later, when other programs move the state along `L`
between its actions: every action satisfies `R`, and a result satisfies `Q`. -/
def Meets (L R : σ → σ → Prop) : Prog σ ω ρ α → σ → (α → σ → Prop) → Prop
  | ret a, s, Q => Q a s
  | exit _, _, _ => True
  | atomic t k, s, Q => ∀ o s', L s s' →
      R s' (t o s').2 ∧ ∀ b, (t o s').1 = .ok b → (k b).Meets L R (t o s').2 Q

section

variable {L : σ → σ → Prop} {s : σ}

/-- A postcondition may be weakened. -/
theorem Meets.mono {p : Prog σ ω ρ α} {Q Q' : α → σ → Prop} (h : p.Meets L R s Q)
    (hQ : ∀ a s', Q a s' → Q' a s') : p.Meets L R s Q' := by
  induction p generalizing s with
  | ret a => exact hQ a s h
  | exit r => trivial
  | atomic t k ih =>
    intro o s' hs'
    obtain ⟨hR, hk⟩ := h o s' hs'
    exact ⟨hR, fun b hb => ih b (hk b hb)⟩

/-- What every action does may be weakened. -/
theorem Meets.imp {p : Prog σ ω ρ α} {Q : α → σ → Prop} (h : p.Meets L R s Q)
    (hR : ∀ x y, R x y → R' x y) : p.Meets L R' s Q := by
  induction p generalizing s with
  | ret a => exact h
  | exit r => trivial
  | atomic t k ih =>
    intro o s' hs'
    obtain ⟨hrel, hk⟩ := h o s' hs'
    exact ⟨hR _ _ hrel, fun b hb => ih b (hk b hb)⟩

/-- The first part of a sequence establishes what the rest starts from. -/
theorem Meets.bind {p : Prog σ ω ρ α} {f : α → Prog σ ω ρ β} {Q : β → σ → Prop}
    (h : p.Meets L R s fun a s' => (f a).Meets L R s' Q) : (p >>= f).Meets L R s Q := by
  induction p generalizing s with
  | ret a => exact h
  | exit r => trivial
  | atomic t k ih =>
    intro o s' hs'
    obtain ⟨hR, hk⟩ := h o s' hs'
    exact ⟨hR, fun b hb => ih b (hk b hb)⟩

/-- A computation without actions. -/
theorem meets_lift {m : Except ρ α} {Q : α → σ → Prop} (h : ∀ a, m = .ok a → Q a s) :
    (lift m : Prog σ ω ρ α).Meets L R s Q := by
  cases m with
  | ok a => exact h a rfl
  | error r => trivial

/-- The rest of a computation without actions only needs to be looked at for its result. -/
theorem meets_lift_bind {m : Except ρ α} {f : α → Prog σ ω ρ β} {Q : β → σ → Prop}
    (h : ∀ a, m = .ok a → (f a).Meets L R s Q) : (lift m >>= f).Meets L R s Q :=
  Meets.bind (meets_lift h)

/-- A program of one action. -/
theorem meets_act {t : ω → σ → Except ρ α × σ} {Q : α → σ → Prop}
    (h : ∀ o s', L s s' → R s' (t o s').2 ∧ ∀ a, (t o s').1 = .ok a → Q a (t o s').2) :
    (act t).Meets L R s Q :=
  h

/-- What every action of a program does, whatever its results. -/
theorem Every.meets {p : Prog σ ω ρ α} (h : p.Every R) : p.Meets L R s fun _ _ => True := by
  induction p generalizing s with
  | ret a => trivial
  | exit r => trivial
  | atomic t k ih => exact fun o s' _ => ⟨h.1 o s', fun b _ => ih b (h.2 b)⟩

end

/-- The actions of a program that keep what the others keep lead to a later state. -/
theorem Every.meets_later {L : σ → σ → Prop} {p : Prog σ ω ρ α} {s : σ} (h : p.Every R)
    (hL : p.Every L) (hrefl : ∀ x, L x x) (htrans : ∀ x y z, L x y → L y z → L x z) :
    p.Meets L R s fun _ s' => L s s' := by
  induction p generalizing s with
  | ret a => exact hrefl s
  | exit r => trivial
  | atomic t k ih =>
    intro o s' hs'
    refine ⟨h.1 o s', fun b _ => ?_⟩
    refine (ih b (h.2 b) (hL.2 b)).mono fun _ s'' hs'' => ?_
    exact htrans _ _ _ hs' (htrans _ _ _ (hL.1 o s') hs'')

section

variable {τ : Type} (get : τ → σ) (put : τ → σ → Option τ) (refuse : ρ)

/-- A program on a part of a larger state. An action ends it whose result the larger state cannot
hold. -/
def within : Prog σ ω ρ α → Prog τ ω ρ α
  | ret a => ret a
  | exit r => exit r
  | atomic t k => atomic
      (fun o x =>
        match put x (t o (get x)).2 with
        | some x' => ((t o (get x)).1, x')
        | none => (.error refuse, x))
      fun b => (k b).within

variable {get put refuse} (hput : ∀ x s x', put x s = some x' → get x' = s)
include hput

/-- What every action of a program does to its part of the state. -/
theorem Every.within {p : Prog σ ω ρ α} (h : p.Every R) (hrefl : ∀ s, R s s) :
    (p.within get put refuse).Every fun x x' => R (get x) (get x') := by
  induction p with
  | ret a => trivial
  | exit r => trivial
  | atomic t k ih =>
    refine ⟨fun o x => ?_, fun b => ih b (h.2 b)⟩
    dsimp only
    split
    · rename_i x' hx'
      rw [hput _ _ _ hx']
      exact h.1 o (get x)
    · exact hrefl (get x)

/-- What a program does to its part of a state whose other actions move that part along `L`. -/
theorem Meets.within {L : σ → σ → Prop} {p : Prog σ ω ρ α} {x : τ} {Q : α → σ → Prop}
    (h : p.Meets L R (get x) Q) (hrefl : ∀ s, R s s) :
    (p.within get put refuse).Meets (fun y y' => L (get y) (get y'))
      (fun y y' => R (get y) (get y')) x fun a y => Q a (get y) := by
  induction p generalizing x with
  | ret a => exact h
  | exit r => trivial
  | atomic t k ih =>
    intro o y hy
    obtain ⟨hR, hk⟩ := h o (get y) hy
    dsimp only
    split
    · rename_i y' hy'
      rw [hput _ _ _ hy']
      refine ⟨hR, fun b hb => ih b ?_⟩
      rw [hput _ _ _ hy']
      exact hk b hb
    · exact ⟨hrefl _, fun b hb => by cases hb⟩

end

/-- Run a program to its end with no other program in between. -/
def alone (o : ω) : Prog σ ω ρ α → σ → Except ρ α × σ
  | ret a, s => (.ok a, s)
  | exit r, s => (.error r, s)
  | atomic t k, s =>
    match t o s with
    | (.ok b, s') => (k b).alone o s'
    | (.error r, s') => (.error r, s')

/-- A part that returns hands over to the rest. -/
theorem alone_bind {p : Prog σ ω ρ α} {o : ω} {s s' : σ} {a : α} (h : p.alone o s = (.ok a, s'))
    (f : α → Prog σ ω ρ β) : (p >>= f).alone o s = (f a).alone o s' := by
  induction p generalizing s with
  | ret b =>
    cases h
    rfl
  | exit r => cases h
  | atomic t k ih =>
    rw [atomic_bind]
    rw [alone] at h ⊢
    split at h
    · exact ih _ h
    · cases h

/-- A part that ends early ends the whole. -/
theorem alone_bind_error {p : Prog σ ω ρ α} {o : ω} {s s' : σ} {r : ρ}
    (h : p.alone o s = (.error r, s')) (f : α → Prog σ ω ρ β) :
    (p >>= f).alone o s = (.error r, s') := by
  induction p generalizing s with
  | ret b => cases h
  | exit r =>
    cases h
    rfl
  | atomic t k ih =>
    rw [atomic_bind]
    rw [alone] at h ⊢
    split at h
    · exact ih _ h
    · cases h
      rfl

/-- A part that leaves the state alone, and the rest. -/
theorem alone_bind_fst {p : Prog σ ω ρ α} {o : ω} {s : σ} {m : Except ρ α}
    (h : p.alone o s = (m, s)) (f : α → Prog σ ω ρ β) :
    ((p >>= f).alone o s).1 = m >>= fun a => ((f a).alone o s).1 := by
  cases m with
  | ok a =>
    rw [alone_bind h]
    rfl
  | error r =>
    rw [alone_bind_error h]
    rfl

/-- A program of one action. -/
theorem alone_act (t : ω → σ → Except ρ α × σ) (o : ω) (s : σ) : (act t).alone o s = t o s := by
  rw [act, alone]
  split
  · rename_i h
    rw [h, alone]
  · rename_i h
    rw [h]

/-- A computation without actions. -/
theorem alone_lift (m : Except ρ α) (o : ω) (s : σ) :
    (lift m : Prog σ ω ρ α).alone o s = (m, s) := by
  cases m <;> rfl

/-- The state in which a program ends that no other program interrupts, with what the outside
decides for each of its actions. -/
def settle : Prog σ ω ρ α → (ℕ → ω) → σ → σ
  | ret _, _, s => s
  | exit _, _, s => s
  | atomic t k, os, s =>
    match t (os 0) s with
    | (.ok b, s') => (k b).settle (fun n => os (n + 1)) s'
    | (.error _, s') => s'

/-- How a program ends that no other program interrupts, with what the outside decides for each of
its actions. -/
def outcome : Prog σ ω ρ α → (ℕ → ω) → σ → Except ρ α × σ
  | ret a, _, s => (.ok a, s)
  | exit r, _, s => (.error r, s)
  | atomic t k, os, s =>
    match t (os 0) s with
    | (.ok b, s') => (k b).outcome (fun n => os (n + 1)) s'
    | (.error r, s') => (.error r, s')

/-- The outside may decide the same for each action. -/
theorem outcome_const (p : Prog σ ω ρ α) (o : ω) (s : σ) :
    p.outcome (fun _ => o) s = p.alone o s := by
  induction p generalizing s with
  | ret a => rfl
  | exit r => rfl
  | atomic t k ih =>
    rw [outcome, alone]
    split
    · exact ih _ _
    · rfl

/-- What an uninterrupted program may end in, whatever the outside decides: a result satisfies `Q`
with the state at the end, and the state after an early result satisfies `E`. -/
def Leaves : Prog σ ω ρ α → σ → (α → σ → Prop) → (σ → Prop) → Prop
  | ret a, s, Q, _ => Q a s
  | exit _, s, _, E => E s
  | atomic t k, s, Q, E => ∀ o, (∀ b, (t o s).1 = .ok b → (k b).Leaves (t o s).2 Q E) ∧
      ∀ r, (t o s).1 = .error r → E (t o s).2

section

variable {s : σ} {E : σ → Prop}

/-- Postconditions may be weakened. -/
theorem Leaves.mono {p : Prog σ ω ρ α} {Q Q' : α → σ → Prop} {E' : σ → Prop}
    (h : p.Leaves s Q E) (hQ : ∀ a s', Q a s' → Q' a s') (hE : ∀ s', E s' → E' s') :
    p.Leaves s Q' E' := by
  induction p generalizing s with
  | ret a => exact hQ a s h
  | exit r => exact hE s h
  | atomic t k ih =>
    exact fun o => ⟨fun b hb => ih b ((h o).1 b hb), fun r hr => hE _ ((h o).2 r hr)⟩

/-- One part after another. -/
theorem Leaves.bind {p : Prog σ ω ρ α} {f : α → Prog σ ω ρ β} {Q : β → σ → Prop}
    (h : p.Leaves s (fun a s' => (f a).Leaves s' Q E) E) : (p >>= f).Leaves s Q E := by
  induction p generalizing s with
  | ret a => exact h
  | exit r => exact h
  | atomic t k ih => exact fun o => ⟨fun b hb => ih b ((h o).1 b hb), (h o).2⟩

/-- A computation without actions. -/
theorem leaves_lift {m : Except ρ α} {Q : α → σ → Prop} (hE : E s) (h : ∀ a, m = .ok a → Q a s) :
    (lift m : Prog σ ω ρ α).Leaves s Q E := by
  cases m with
  | ok a => exact h a rfl
  | error r => exact hE

/-- What a program may end in, it ends in. -/
theorem Leaves.settle {p : Prog σ ω ρ α} (h : p.Leaves s (fun _ => E) E) (os : ℕ → ω) :
    E (p.settle os s) := by
  induction p generalizing s os with
  | ret a => exact h
  | exit r => exact h
  | atomic t k ih =>
    obtain ⟨hok, herror⟩ := h (os 0)
    rw [Prog.settle]
    split
    · rename_i b s' hres
      rw [hres] at hok
      exact ih b (hok b rfl) _
    · rename_i r s' hres
      rw [hres] at herror
      exact herror r rfl

/-- What a program may return, it returns. -/
theorem Leaves.outcome_ok {p : Prog σ ω ρ α} {Q : α → σ → Prop} (h : p.Leaves s Q E) {os : ℕ → ω}
    {a : α} {s' : σ} (hend : p.outcome os s = (.ok a, s')) : Q a s' := by
  induction p generalizing s os with
  | ret b =>
    cases hend
    exact h
  | exit r => cases hend
  | atomic t k ih =>
    rw [outcome] at hend
    split at hend
    · rename_i b s₁ hres
      have hok := (h (os 0)).1
      rw [hres] at hok
      exact ih b (hok b rfl) hend
    · cases hend

/-- What holds after an early result. -/
theorem Leaves.outcome_error {p : Prog σ ω ρ α} {Q : α → σ → Prop} (h : p.Leaves s Q E)
    {os : ℕ → ω} {r : ρ} {s' : σ} (hend : p.outcome os s = (.error r, s')) : E s' := by
  induction p generalizing s os with
  | ret b => cases hend
  | exit q =>
    cases hend
    exact h
  | atomic t k ih =>
    rw [outcome] at hend
    split at hend
    · rename_i b s₁ hres
      have hok := (h (os 0)).1
      rw [hres] at hok
      exact ih b (hok b rfl) hend
    · rename_i q s₁ hres
      cases hend
      have herror := (h (os 0)).2
      rw [hres] at herror
      exact herror r rfl

end

/-- One action and what its result is turned into. -/
theorem settle_act (t : ω → σ → Except ρ α × σ) (f : α → Except ρ β) (os : ℕ → ω) (s : σ) :
    (act t >>= fun a => lift (f a)).settle os s = (t (os 0) s).2 := by
  change (atomic t fun a => lift (f a)).settle os s = _
  rw [settle]
  split
  · rename_i b s' hres
    rw [hres]
    cases f b <;> rfl
  · rename_i r s' hres
    rw [hres]

end Prog

/-- A running program: its name, and what its actions have met, oldest first. -/
structure Process (ι ω σ : Type) where
  name : ι
  past : List (ω × σ)

/-- A shared state and the programs that run on it. -/
structure Shared (ι ω σ : Type) where
  state : σ
  procs : ℕ → Option (Process ι ω σ)

/-- A program starts, or takes its next action. -/
inductive Turn (ι ω : Type) where
  | arrive (i : ℕ) (name : ι)
  | advance (i : ℕ) (o : ω)

variable {ι σ ω ρ α : Type}

/-- Programs from a family, taking turns on one state. -/
def interleave (prog : ι → Prog σ ω ρ α) (start : σ → Prop) :
    Machine (Shared ι ω σ) (Turn ι ω) where
  start s := start s.state ∧ ∀ i, s.procs i = none
  next
    | .arrive i name, s =>
      match s.procs i with
      | some _ => none
      | none => some { s with procs := Function.update s.procs i (some ⟨name, []⟩) }
    | .advance i o, s =>
      match s.procs i with
      | none => none
      | some p =>
        match (prog p.name).resume p.past with
        | .atomic t _ => some ⟨(t o s.state).2,
            Function.update s.procs i (some ⟨p.name, p.past ++ [(o, s.state)]⟩)⟩
        | _ => none

namespace interleave

variable {prog : ι → Prog σ ω ρ α} {start : σ → Prop} {s s' : Shared ι ω σ}
  {ok : Shared ι ω σ → Turn ι ω → Prop} {R : σ → σ → Prop}

/-- What an arrival did. -/
theorem next_arrive {i : ℕ} {name : ι}
    (h : (interleave prog start).next (.arrive i name) s = some s') :
    s.procs i = none ∧
      s' = { s with procs := Function.update s.procs i (some ⟨name, []⟩) } := by
  simp only [interleave] at h
  split at h
  · cases h
  · rename_i hi
    cases h
    exact ⟨hi, rfl⟩

/-- What an action did. -/
theorem next_advance {i : ℕ} {o : ω}
    (h : (interleave prog start).next (.advance i o) s = some s') :
    ∃ (p : Process ι ω σ) (β : Type) (t : ω → σ → Except ρ β × σ) (k : β → Prog σ ω ρ α),
      s.procs i = some p ∧ (prog p.name).resume p.past = .atomic t k ∧
      s' = ⟨(t o s.state).2,
        Function.update s.procs i (some ⟨p.name, p.past ++ [(o, s.state)]⟩)⟩ := by
  simp only [interleave] at h
  split at h
  · cases h
  · rename_i p hp
    split at h
    · rename_i β t k hres
      cases h
      exact ⟨p, β, t, k, hp, hres, rfl⟩
    · cases h

/-- A relation that the actions of a process keep relates the states around its turn. -/
theorem advance_state {i : ℕ} {o : ω} {p : Process ι ω σ} (hp : s.procs i = some p)
    (hevery : (prog p.name).Every R)
    (h : (interleave prog start).next (.advance i o) s = some s') : R s.state s'.state := by
  obtain ⟨q, β, t, k, hq, hres, rfl⟩ := next_advance h
  cases hp.symm.trans hq
  have hrest := hevery.resume p.past
  rw [hres] at hrest
  exact hrest.1 o s.state

/-- A relation that every action keeps relates the states around a turn. -/
theorem next_state (hprog : ∀ n, (prog n).Every R) (hrefl : ∀ x, R x x) {l : Turn ι ω}
    (h : (interleave prog start).next l s = some s') : R s.state s'.state := by
  cases l with
  | arrive i name =>
    obtain ⟨-, rfl⟩ := next_arrive h
    exact hrefl _
  | advance i o =>
    obtain ⟨p, β, t, k, hp, -, -⟩ := next_advance h
    exact advance_state hp (hprog p.name) h

/-- A preorder that every action keeps relates any two states of a run. -/
theorem leads_state (hprog : ∀ n, (prog n).Every R) (hrefl : ∀ x, R x x)
    (htrans : ∀ x y z, R x y → R y z → R x z) (h : (interleave prog start).Leads ok s s') :
    R s.state s'.state := by
  induction h with
  | refl => exact hrefl _
  | tail _ hn ih =>
    obtain ⟨l, -, hn⟩ := hn
    exact htrans _ _ _ ih (next_state hprog hrefl hn)

/-- An invariant of every action holds in every state of a run. -/
theorem invariant {I : σ → Prop} (hprog : ∀ n, (prog n).Every fun x y => I x → I y)
    (hstart : ∀ x, start x → I x) (h : (interleave prog start).Reach ok s) : I s.state :=
  h.invariant (I := fun s => I s.state) (fun hs => hstart _ hs.1)
    fun _ hI _ hn => next_state (R := fun x y => I x → I y) hprog (fun _ hx => hx) hn hI

/-- How a process of the state after a turn came about. -/
theorem procs_of_next {l : Turn ι ω} {i : ℕ} {q : Process ι ω σ}
    (h : (interleave prog start).next l s = some s') (hq : s'.procs i = some q) :
    s.procs i = some q ∨ q.past = [] ∨
      ∃ p o, s.procs i = some p ∧ q = ⟨p.name, p.past ++ [(o, s.state)]⟩ ∧
        ∃ (β : Type) (t : ω → σ → Except ρ β × σ) (k : β → Prog σ ω ρ α),
          (prog p.name).resume p.past = .atomic t k ∧ s'.state = (t o s.state).2 := by
  cases l with
  | arrive j name =>
    obtain ⟨-, rfl⟩ := next_arrive h
    rcases eq_or_ne i j with rfl | hij
    · simp only [Function.update_self] at hq
      cases hq
      exact .inr (.inl rfl)
    · simp only [Function.update_of_ne hij] at hq
      exact .inl hq
  | advance j o =>
    obtain ⟨p, β, t, k, hp, hres, rfl⟩ := next_advance h
    rcases eq_or_ne i j with rfl | hij
    · simp only [Function.update_self] at hq
      cases hq
      exact .inr (.inr ⟨p, o, hp, rfl, β, t, k, hres, rfl⟩)
    · simp only [Function.update_of_ne hij] at hq
      exact .inl hq

/-- What a process has met comes before the present state. -/
theorem past_state (hprog : ∀ n, (prog n).Every R) (hrefl : ∀ x, R x x)
    (htrans : ∀ x y z, R x y → R y z → R x z) (h : (interleave prog start).Reach ok s) :
    ∀ i p, s.procs i = some p → ∀ x ∈ p.past, R x.2 s.state := by
  refine h.invariant (I := fun s => ∀ i p, s.procs i = some p → ∀ x ∈ p.past, R x.2 s.state) ?_ ?_
  · intro s hs i p hp
    rw [hs.2 i] at hp
    cases hp
  · intro s l s' _ ih _ hn i q hq x hx
    have hstep := next_state hprog hrefl hn
    rcases procs_of_next hn hq with hsame | hnew | ⟨p, o, hp, rfl, -⟩
    · exact htrans _ _ _ (ih i q hsame x hx) hstep
    · rw [hnew] at hx
      cases hx
    · rcases List.mem_append.mp hx with hx | hx
      · exact htrans _ _ _ (ih i p hp x hx) hstep
      · rw [List.mem_singleton.mp hx]
        exact hstep

/-- What is left of a process meets what its program meets. -/
theorem meets_of_reach {L : σ → σ → Prop} {name : ι} {Q : α → σ → Prop}
    (hprog : ∀ n, (prog n).Every L) (hrefl : ∀ x, L x x) (htrans : ∀ x y z, L x y → L y z → L x z)
    (hmeets : ∀ x, (prog name).Meets L R x Q) (h : (interleave prog start).Reach ok s) :
    ∀ i p, s.procs i = some p → p.name = name →
      ∃ x, L x s.state ∧ ((prog name).resume p.past).Meets L R x Q := by
  refine h.invariant (I := fun s => ∀ i p, s.procs i = some p → p.name = name →
    ∃ x, L x s.state ∧ ((prog name).resume p.past).Meets L R x Q) ?_ ?_
  · intro s hs i p hp
    rw [hs.2 i] at hp
    cases hp
  · intro s l s' _ ih _ hn i q hq hname
    rcases procs_of_next hn hq with hsame | hnew | ⟨p, o, hp, rfl, β, t, k, hres, hs'⟩
    · obtain ⟨x, hx, hrest⟩ := ih i q hsame hname
      exact ⟨x, htrans _ _ _ hx (next_state hprog hrefl hn), hrest⟩
    · rw [hnew]
      exact ⟨s'.state, hrefl _, by rw [Prog.resume_nil]; exact hmeets _⟩
    · obtain ⟨x, hx, hrest⟩ := ih i p hp hname
      rw [← hname, hres] at hrest
      refine ⟨s'.state, hrefl _, ?_⟩
      rw [← hname, Prog.resume_append, hres, Prog.resume, hs']
      cases hb : (t o s.state).1 with
      | error r => trivial
      | ok b =>
        simp only [Prog.resume_nil]
        exact (hrest o s.state hx).2 b hb

/-- An action of a process relates the states around its turn as its program promises. -/
theorem advance_meets {L : σ → σ → Prop} {Q : α → σ → Prop} (hprog : ∀ n, (prog n).Every L)
    (hrefl : ∀ x, L x x) (htrans : ∀ x y z, L x y → L y z → L x z)
    (h : (interleave prog start).Reach ok s) {i : ℕ} {o : ω} {p : Process ι ω σ}
    (hp : s.procs i = some p) (hmeets : ∀ x, (prog p.name).Meets L R x Q)
    (hn : (interleave prog start).next (.advance i o) s = some s') : R s.state s'.state := by
  obtain ⟨x, hx, hrest⟩ := meets_of_reach hprog hrefl htrans hmeets h i p hp rfl
  obtain ⟨q, β, t, k, hq, hres, rfl⟩ := next_advance hn
  cases hp.symm.trans hq
  rw [hres] at hrest
  exact (hrest o s.state hx).1

/-- An invariant that every action keeps after what its program has checked. -/
theorem invariant_meets {L : σ → σ → Prop} {I : σ → Prop} {Q : α → σ → Prop}
    (hprog : ∀ n, (prog n).Every L) (hrefl : ∀ x, L x x) (htrans : ∀ x y z, L x y → L y z → L x z)
    (hmeets : ∀ n x, (prog n).Meets L (fun x y => I x → I y) x Q) (hstart : ∀ x, start x → I x)
    (h : (interleave prog start).Reach ok s) : I s.state := by
  refine h.invariant (I := fun s => I s.state) (fun hs => hstart _ hs.1) ?_
  intro s l s' hreach hI _ hn
  cases l with
  | arrive i name =>
    obtain ⟨-, rfl⟩ := next_arrive hn
    exact hI
  | advance i o =>
    obtain ⟨p, -, -, -, hp, -, -⟩ := next_advance hn
    exact advance_meets hprog hrefl htrans hreach hp (hmeets p.name) hn hI

/-- A process that returns in a turn has its postcondition in the state after the turn. -/
theorem returns_meets {L : σ → σ → Prop} {Q : ι → α → σ → Prop} (hprog : ∀ n, (prog n).Every L)
    (hrefl : ∀ x, L x x) (htrans : ∀ x y z, L x y → L y z → L x z)
    (hmeets : ∀ n x, (prog n).Meets L R x (Q n)) (h : (interleave prog start).Reach ok s)
    {l : Turn ι ω} (hn : (interleave prog start).next l s = some s') {i : ℕ} {q : Process ι ω σ}
    (hq : s'.procs i = some q) {a : α} (hret : (prog q.name).resume q.past = .ret a) :
    s.procs i = some q ∨ Q q.name a s'.state := by
  rcases procs_of_next hn hq with hsame | hnew | ⟨p, o, hp, rfl, β, t, k, hres, hs'⟩
  · exact .inl hsame
  · have hat := hmeets q.name s'.state
    rw [hnew, Prog.resume_nil] at hret
    rw [hret] at hat
    exact .inr hat
  · obtain ⟨x, hx, hrest⟩ := meets_of_reach hprog hrefl htrans (hmeets p.name) h i p hp rfl
    rw [hres] at hrest
    rw [Prog.resume_append, hres, Prog.resume] at hret
    cases hb : (t o s.state).1 with
    | error r =>
      rw [hb] at hret
      cases hret
    | ok b =>
      have hat := (hrest o s.state hx).2 b hb
      rw [hb] at hret
      simp only [Prog.resume_nil] at hret
      rw [hret] at hat
      rw [hs']
      exact .inr hat

/-- What a process has met comes after every state in which it had not arrived. -/
theorem past_of_leads (hprog : ∀ n, (prog n).Every R) (hrefl : ∀ x, R x x)
    (htrans : ∀ x y z, R x y → R y z → R x z) (h : (interleave prog start).Leads ok s s') {i : ℕ}
    (hi : s.procs i = none) :
    ∀ p, s'.procs i = some p → ∀ x ∈ p.past, R s.state x.2 := by
  induction h with
  | refl =>
    intro p hp
    rw [hi] at hp
    cases hp
  | @tail s₁ s₂ hl hn ih =>
    obtain ⟨l, -, hn⟩ := hn
    intro q hq x hx
    rcases procs_of_next hn hq with hsame | hnew | ⟨p, o, hp, rfl, -⟩
    · exact ih q hsame x hx
    · rw [hnew] at hx
      cases hx
    · rcases List.mem_append.mp hx with hx | hx
      · exact ih p hp x hx
      · rw [List.mem_singleton.mp hx]
        exact leads_state hprog hrefl htrans hl

/-- What every admitted step keeps holds of all that a process has met that arrived later. -/
theorem past_invariant {I : σ → Prop}
    (hstep : ∀ {s l s'}, ok s l → (interleave prog start).next l s = some s' →
      I s.state → I s'.state)
    (hs : I s.state) (h : (interleave prog start).Leads ok s s') :
    I s'.state ∧ ∀ i, s.procs i = none → ∀ p, s'.procs i = some p → ∀ x ∈ p.past, I x.2 := by
  induction h with
  | refl =>
    refine ⟨hs, fun i hi p hp => ?_⟩
    rw [hi] at hp
    cases hp
  | @tail s₁ s₂ _ hn ih =>
    obtain ⟨l, hok, hn⟩ := hn
    refine ⟨hstep hok hn ih.1, fun i hi q hq x hx => ?_⟩
    rcases procs_of_next hn hq with hsame | hnew | ⟨p, o, hp, rfl, -⟩
    · exact ih.2 i hi q hsame x hx
    · rw [hnew] at hx
      cases hx
    · rcases List.mem_append.mp hx with hx | hx
      · exact ih.2 i hi p hp x hx
      · rw [List.mem_singleton.mp hx]
        exact ih.1

end interleave

end Comax.Core
