import Mathlib.Control.Monad.Basic
import Mathlib.Data.Nat.Notation

/-!
# Computations that ask the outside

A script ends with a result, or asks a question and goes on with the answer. Against
given answers it has a result and a list of questions, and other answers that agree
on those questions give the same result. A computation over a state that asks is
played against answers, and playing commutes with the monad operations and with
the loops.
-/

namespace Comax.Core

/-- A result, or a question with what follows for each answer. -/
inductive Script {Q : Type} (A : Q → Type) (ε α : Type)
  | done (r : Except ε α)
  | ask (q : Q) (k : A q → Script A ε α)

namespace Script

variable {Q : Type} {A : Q → Type} {ε α β : Type}

/-- Sequential composition; an error skips the rest. -/
def bind : Script A ε α → (α → Script A ε β) → Script A ε β
  | done (.ok a), f => f a
  | done (.error e), _ => done (.error e)
  | ask q k, f => ask q fun a => (k a).bind f

instance : Monad (Script A ε) where
  pure a := done (.ok a)
  bind := bind

instance : LawfulMonad (Script A ε) := LawfulMonad.mk' _
  (fun p => by
    induction p with
    | done r => cases r <;> rfl
    | ask q k ih => exact congrArg (ask q) (funext ih))
  (fun _ _ => rfl)
  (fun p f g => by
    induction p with
    | done r => cases r <;> rfl
    | ask q k ih => exact congrArg (ask q) (funext ih))

/-- Change the result. -/
def mapResult (g : Except ε α → Except ε β) : Script A ε α → Script A ε β
  | done r => done (g r)
  | ask q k => ask q fun a => (k a).mapResult g

variable (o : ∀ q, A q)

/-- The result against the given answers. -/
def answered : Script A ε α → Except ε α
  | done r => r
  | ask q k => (k (o q)).answered

/-- The questions that are asked, in order. -/
def asked : Script A ε α → List Q
  | done _ => []
  | ask q k => q :: (k (o q)).asked

/-- Answers compose. -/
theorem answered_bind (p : Script A ε α) (f : α → Script A ε β) :
    (p >>= f).answered o = p.answered o >>= fun a => (f a).answered o := by
  induction p with
  | done r => cases r <;> rfl
  | ask q k ih => exact ih (o q)

/-- The result is changed after the answers. -/
theorem answered_mapResult (g : Except ε α → Except ε β) (p : Script A ε α) :
    (p.mapResult g).answered o = g (p.answered o) := by
  induction p with
  | done r => rfl
  | ask q k ih => exact ih (o q)

/-- The first part asks, and then, unless it fails, the second. -/
theorem asked_bind (p : Script A ε α) (f : α → Script A ε β) :
    (p >>= f).asked o = p.asked o ++ (p.answered o).toOption.elim [] fun a => (f a).asked o := by
  induction p with
  | done r => cases r <;> rfl
  | ask q k ih => exact congrArg (q :: ·) (ih (o q))

/-- A changed result was asked for alike. -/
theorem asked_mapResult (g : Except ε α → Except ε β) (p : Script A ε α) :
    (p.mapResult g).asked o = p.asked o := by
  induction p with
  | done r => rfl
  | ask q k ih => exact congrArg (q :: ·) (ih (o q))

variable {o}

/-- Answers that agree on what is asked give the same result. -/
theorem answered_congr {o' : ∀ q, A q} {p : Script A ε α} (h : ∀ q ∈ p.asked o, o' q = o q) :
    p.answered o' = p.answered o := by
  induction p with
  | done r => rfl
  | ask q k ih =>
    have hq : o' q = o q := h q List.mem_cons_self
    have hk := ih (o q) fun q' hq' => h q' (List.mem_cons_of_mem _ hq')
    rw [answered, answered, hq, hk]

end Script

section Playing

variable {Q : Type} {A : Q → Type} {σ ε α β : Type} (o : ∀ q, A q)

/-- A computation over a state, against the given answers. -/
def playing (m : StateT σ (Script A ε) α) : StateT σ (Except ε) α := fun s => (m s).answered o

/-- A computation that asks nothing. -/
def quiet (m : StateT σ (Except ε) α) : StateT σ (Script A ε) α := fun s => .done (m s)

@[simp] theorem playing_quiet (m : StateT σ (Except ε) α) : playing o (quiet m) = m := rfl

@[simp] theorem playing_pure (a : α) :
    playing o (pure a : StateT σ (Script A ε) α) = pure a := rfl

@[simp] theorem playing_bind (m : StateT σ (Script A ε) α) (f : α → StateT σ (Script A ε) β) :
    playing o (m >>= f) = playing o m >>= fun a => playing o (f a) :=
  funext fun s => Script.answered_bind o (m s) fun r => f r.1 r.2

@[simp] theorem playing_get : playing o (get : StateT σ (Script A ε) σ) = get := rfl

@[simp] theorem playing_modify (f : σ → σ) :
    playing o (modify f : StateT σ (Script A ε) PUnit) = modify f := rfl

/-- Lists are visited step by step. -/
@[simp] theorem playing_mapM (f : α → StateT σ (Script A ε) β) (xs : List α) :
    playing o (xs.mapM f) = xs.mapM fun a => playing o (f a) := by
  induction xs with
  | nil => rfl
  | cons x xs ih => simp only [List.mapM_cons, playing_bind, playing_pure, ih]

/-- Left folds are played step by step. -/
@[simp] theorem playing_foldlM (f : β → α → StateT σ (Script A ε) β) (xs : List α) (b : β) :
    playing o (xs.foldlM f b) = xs.foldlM (fun b a => playing o (f b a)) b := by
  induction xs generalizing b with
  | nil => rfl
  | cons x xs ih => simp only [List.foldlM_cons, playing_bind, ih]

/-- Right folds are played step by step. -/
@[simp] theorem playing_foldrM (f : α → β → StateT σ (Script A ε) β) (xs : List α) (b : β) :
    playing o (xs.foldrM f b) = xs.foldrM (fun a b => playing o (f a b)) b := by
  induction xs with
  | nil => rfl
  | cons x xs ih => simp only [List.foldrM_cons, playing_bind, ih]

end Playing

end Comax.Core
