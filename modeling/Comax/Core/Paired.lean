import Comax.Core.Program
import Comax.Core.Table
import Mathlib.Data.List.Forall2

/-!
# Two runs side by side

Two runs of the same program on data that differ where the program does not look. A
relation `R` tells which states belong together, and `S` and `W` which early results and
which results. Parts that are built alike from related parts are related, and so are the
states of two systems whose programs are: what the one shows after any turns, the other
shows after the same turns.
-/

namespace Comax.Core

variable {σ ω ρ α β ε ι : Type}

/-- Two values that belong together, or two errors that do. -/
def Alike (S : ε → ε → Prop) (W : α → β → Prop) : Except ε α → Except ε β → Prop
  | .ok a, .ok b => W a b
  | .error e, .error e' => S e e'
  | _, _ => False

/-- What belongs together in a narrow sense does so in a wider one. -/
theorem Alike.mono {S S' : ε → ε → Prop} {W W' : α → β → Prop} (hS : ∀ e e', S e e' → S' e e')
    (hW : ∀ a b, W a b → W' a b) {x : Except ε α} {y : Except ε β} (h : Alike S W x y) :
    Alike S' W' x y := by
  cases x <;> cases y
  · exact hS _ _ h
  · exact h.elim
  · exact h.elim
  · exact hW _ _ h

/-- A result belongs to itself. -/
theorem Alike.refl {S : ε → ε → Prop} {W : α → α → Prop} (hS : ∀ e, S e e) (hW : ∀ a, W a a)
    (x : Except ε α) : Alike S W x x := by
  cases x
  · exact hS _
  · exact hW _

/-- Results that are the same. -/
theorem Alike.eq {x y : Except ε α} (h : Alike Eq Eq x y) : x = y := by
  cases x <;> cases y
  · exact congrArg Except.error h
  · exact h.elim
  · exact h.elim
  · exact congrArg Except.ok h

/-- A map that does not tell related values apart. -/
theorem map_eq_of_rel {R : α → α → Prop} {f : α → β} (hf : ∀ a b, R a b → f a = f b)
    {x y : Option α} (h : Option.Rel R x y) : x.map f = y.map f := by
  cases h with
  | some h => exact congrArg some (hf _ _ h)
  | none => rfl

/-- What is computed from related values. -/
theorem rel_bind {R : α → α → Prop} {R' : β → β → Prop} {f : α → Option β}
    (hf : ∀ a b, R a b → Option.Rel R' (f a) (f b)) {x y : Option α} (h : Option.Rel R x y) :
    Option.Rel R' (x.bind f) (y.bind f) := by
  cases h with
  | some h => exact hf _ _ h
  | none => exact .none

/-! ## Computations -/

/-- From related states, both end in related states with related results, or both fail. -/
def Paired (I : σ → σ → Prop) (S : ε → ε → Prop) (W : α → α → Prop)
    (m m' : StateT σ (Except ε) α) : Prop :=
  ∀ s s', I s s' → Alike S (fun r r' => W r.1 r'.1 ∧ I r.2 r'.2) (m s) (m' s')

namespace Paired

variable {I : σ → σ → Prop} {S : ε → ε → Prop} {W : α → α → Prop} {V : β → β → Prop}
  {m m' : StateT σ (Except ε) α}

/-- Computations with results that are related in a narrow sense. -/
theorem mono {W' : α → α → Prop} (hm : Paired I S W m m') (hW : ∀ a b, W a b → W' a b) :
    Paired I S W' m m' :=
  fun s s' hs => (hm s s' hs).mono (fun _ _ h => h) fun _ _ h => ⟨hW _ _ h.1, h.2⟩

/-- Related values. -/
theorem pure {a b : α} (h : W a b) :
    Paired I S W (Pure.pure a : StateT σ (Except ε) α) (Pure.pure b) := fun _ _ hs => ⟨h, hs⟩

/-- Related failures. -/
theorem throw {e e' : ε} (h : S e e') :
    Paired I S W (MonadExcept.throw e : StateT σ (Except ε) α) (MonadExcept.throw e') :=
  fun _ _ _ => h

/-- Related computations one after the other. -/
theorem bind {f f' : α → StateT σ (Except ε) β} (hm : Paired I S W m m')
    (hf : ∀ a b, W a b → Paired I S V (f a) (f' b)) : Paired I S V (m >>= f) (m' >>= f') := by
  intro s s' hs
  have hb : ∀ (m : StateT σ (Except ε) α) f s, (m >>= f : StateT σ (Except ε) β) s =
      (m s).bind fun r => f r.1 r.2 := fun _ _ _ => rfl
  have hres := hm s s' hs
  rw [hb, hb]
  cases hr : m s <;> cases hr' : m' s' <;> rw [hr, hr'] at hres
  · exact hres
  · exact hres.elim
  · exact hres.elim
  · exact hf _ _ hres.1 _ _ hres.2

end Paired

/-! ## Programs -/

namespace Prog

/-- Programs whose actions lead from related states to related states, and whose results are
related. -/
inductive Paired (R : σ → σ → Prop) (S : ρ → ρ → Prop) (W : α → α → Prop) :
    Prog σ ω ρ α → Prog σ ω ρ α → Prop
  | ret {a b : α} (h : W a b) : Paired R S W (.ret a) (.ret b)
  | exit {r q : ρ} (h : S r q) : Paired R S W (.exit r) (.exit q)
  | atomic {β : Type} {V : β → β → Prop} {t t' : ω → σ → Except ρ β × σ}
      {k k' : β → Prog σ ω ρ α}
      (ht : ∀ o s s', R s s' → Alike S V (t o s).1 (t' o s').1 ∧ R (t o s).2 (t' o s').2)
      (hk : ∀ a b, V a b → Paired R S W (k a) (k' b)) : Paired R S W (.atomic t k) (.atomic t' k')

variable {R : σ → σ → Prop} {S : ρ → ρ → Prop} {W : α → α → Prop} {V : β → β → Prop}
  {p p' : Prog σ ω ρ α}

/-- Related programs one after the other. -/
theorem Paired.bind {f f' : α → Prog σ ω ρ β} (hp : Paired R S W p p')
    (hf : ∀ a b, W a b → Paired R S V (f a) (f' b)) : Paired R S V (p >>= f) (p' >>= f') := by
  induction hp with
  | ret h => exact hf _ _ h
  | exit h => exact .exit h
  | atomic ht _ ih => exact .atomic ht ih

/-- Programs with results that are related in a narrow sense. -/
theorem Paired.mono {W' : α → α → Prop} (hp : Paired R S W p p') (hW : ∀ a b, W a b → W' a b) :
    Paired R S W' p p' := by
  induction hp with
  | ret h => exact .ret (hW _ _ h)
  | exit h => exact .exit h
  | atomic ht _ ih => exact .atomic ht ih

/-- Related actions. -/
theorem paired_act {t t' : ω → σ → Except ρ α × σ}
    (ht : ∀ o s s', R s s' → Alike S W (t o s).1 (t' o s').1 ∧ R (t o s).2 (t' o s').2) :
    Paired R S W (act t) (act t') :=
  .atomic ht fun _ _ h => .ret h

/-- Related computations without actions. -/
theorem paired_lift {x y : Except ρ α} (h : Alike S W x y) :
    Paired R S W (lift x : Prog σ ω ρ α) (lift y) := by
  cases x <;> cases y
  · exact .exit h
  · exact h.elim
  · exact h.elim
  · exact .ret h

/-- What is left of related programs that have met related states is related. -/
theorem Paired.resume (hp : Paired R S W p p') {xs ys : List (ω × σ)}
    (h : List.Forall₂ (fun x y => x.1 = y.1 ∧ R x.2 y.2) xs ys) :
    Paired R S W (p.resume xs) (p'.resume ys) := by
  induction hp generalizing xs ys with
  | ret hab =>
    rw [resume_ret, resume_ret]
    exact .ret hab
  | exit hrq =>
    rw [resume_exit, resume_exit]
    exact .exit hrq
  | @atomic β V t t' k k' ht hk ih =>
    cases h with
    | nil => exact .atomic ht hk
    | @cons x y xs ys hxy h =>
      have hres := (ht x.1 x.2 y.2 hxy.2).1
      rw [Prog.resume, Prog.resume, ← hxy.1]
      cases hx : (t x.1 x.2).1 <;> cases hy : (t' x.1 y.2).1 <;> rw [hx, hy] at hres
      · exact .exit hres
      · exact hres.elim
      · exact hres.elim
      · exact ih _ _ hres h

/-- The answer of a program that has ended, early or not. -/
def answer : Prog σ ω ρ ρ → Option ρ
  | ret a => some a
  | exit r => some r
  | atomic _ _ => none

/-- Related programs have related answers. -/
theorem Paired.answer {p p' : Prog σ ω ρ ρ} (h : Paired R S S p p') :
    Option.Rel S p.answer p'.answer := by
  cases h with
  | ret h => exact .some h
  | exit h => exact .some h
  | atomic _ _ => exact .none

end Prog

/-! ## Systems -/

/-- Turns that differ in the names of the programs that arrive. -/
inductive Turn.Paired (N : ι → ι → Prop) : Turn ι ω → Turn ι ω → Prop
  | arrive (i : ℕ) {n n' : ι} (h : N n n') : Paired N (.arrive i n) (.arrive i n')
  | advance (i : ℕ) (o : ω) : Paired N (.advance i o) (.advance i o)

/-- Processes of related programs that have met related states. -/
structure Process.Paired (R : σ → σ → Prop) (N : ι → ι → Prop) (p q : Process ι ω σ) : Prop where
  name : N p.name q.name
  past : List.Forall₂ (fun x y => x.1 = y.1 ∧ R x.2 y.2) p.past q.past

/-- Related states with related processes. -/
structure Shared.Paired (R : σ → σ → Prop) (N : ι → ι → Prop) (s t : Shared ι ω σ) : Prop where
  state : R s.state t.state
  procs : ∀ i, Option.Rel (Process.Paired R N) (s.procs i) (t.procs i)

/-- One more process on both sides. -/
theorem Shared.Paired.update {R : σ → σ → Prop} {N : ι → ι → Prop} {s t : Shared ι ω σ}
    (h : Shared.Paired R N s t) {x y : σ} (hxy : R x y) (i : ℕ) {p q : Process ι ω σ}
    (hpq : Process.Paired R N p q) :
    Shared.Paired R N ⟨x, Function.update s.procs i (some p)⟩
      ⟨y, Function.update t.procs i (some q)⟩ := by
  refine ⟨hxy, fun j => ?_⟩
  rcases eq_or_ne j i with rfl | hji
  · simpa using Option.Rel.some hpq
  · simpa [hji] using h.procs j

namespace interleave

variable {R : σ → σ → Prop} {S : ρ → ρ → Prop} {W : α → α → Prop} {N : ι → ι → Prop}
  {prog : ι → Prog σ ω ρ α} {start : σ → Prop} {s t : Shared ι ω σ}

/-- Related turns can be taken in related states only together, and lead to related states. -/
theorem paired_next (hprog : ∀ n n', N n n' → Prog.Paired R S W (prog n) (prog n'))
    (hs : Shared.Paired R N s t) {l l' : Turn ι ω} (hl : Turn.Paired N l l') :
    Option.Rel (Shared.Paired R N) ((interleave prog start).next l s)
      ((interleave prog start).next l' t) := by
  cases hl with
  | arrive i h =>
    have hi := hs.procs i
    cases hp : s.procs i <;> cases hq : t.procs i <;> rw [hp, hq] at hi
    · simp only [interleave, hp, hq]
      exact .some (hs.update hs.state i ⟨h, .nil⟩)
    · cases hi
    · cases hi
    · simp only [interleave, hp, hq]
      exact .none
  | advance i o =>
    have hi := hs.procs i
    cases hp : s.procs i <;> cases hq : t.procs i <;> rw [hp, hq] at hi
    · simp only [interleave, hp, hq]
      exact .none
    · cases hi
    · cases hi
    · rename_i p q
      cases hi with
      | some hpq =>
        have hrest := (hprog _ _ hpq.name).resume hpq.past
        simp only [interleave, hp, hq]
        generalize (prog p.name).resume p.past = x at hrest ⊢
        generalize (prog q.name).resume q.past = y at hrest ⊢
        cases hrest with
        | ret _ => exact .none
        | exit _ => exact .none
        | atomic ht hk =>
          refine .some (hs.update (ht o _ _ hs.state).2 i ⟨hpq.name, ?_⟩)
          exact List.rel_append hpq.past (.cons ⟨rfl, hs.state⟩ .nil)

/-- Related lists of turns can be taken from related states only together, and lead to related
states. -/
theorem paired_run (hprog : ∀ n n', N n n' → Prog.Paired R S W (prog n) (prog n'))
    (hs : Shared.Paired R N s t) {ls ls' : List (Turn ι ω)}
    (hls : List.Forall₂ (Turn.Paired N) ls ls') :
    Option.Rel (Shared.Paired R N) ((interleave prog start).run ls s)
      ((interleave prog start).run ls' t) := by
  induction hls generalizing s t with
  | nil => exact .some hs
  | @cons l l' ls ls' hl _ ih =>
    have hnext : Option.Rel (Shared.Paired R N) ((interleave prog start).next l s)
        ((interleave prog start).next l' t) := paired_next hprog hs hl
    rw [Machine.run, Machine.run]
    cases hx : (interleave prog start).next l s <;>
      cases hy : (interleave prog start).next l' t <;> rw [hx, hy] at hnext
    · exact .none
    · cases hnext
    · cases hnext
    · cases hnext with
      | some h => exact ih h

end interleave

/-! ## Tables -/

namespace Table

variable [Row ρ] {A : ρ → ρ → Prop} {t t' : Table ρ}

/-- Tables with related rows. -/
def Paired (A : ρ → ρ → Prop) (t t' : Table ρ) : Prop := List.Forall₂ A t.rows t'.rows

/-- A relation of rows that agree on the constrained columns. -/
def Constrained (A : ρ → ρ → Prop) : Prop :=
  ∀ a b, A a b → Row.id a = Row.id b ∧ Row.key a = Row.key b

/-- A test that agrees on related rows picks related rows. -/
theorem Paired.find? (h : t.Paired A t') {p : ρ → Bool} (hp : ∀ a b, A a b → p a = p b) :
    Option.Rel A (t.find? p) (t'.find? p) := by
  rw [Table.find?, Table.find?]
  rw [Paired] at h
  generalize t.rows = l, t'.rows = l' at h
  induction h with
  | nil => exact .none
  | @cons a b l l' hab _ ih =>
    rw [List.find?_cons, List.find?_cons, ← hp a b hab]
    cases p a
    · exact ih
    · exact .some hab

/-- A test that agrees on related rows holds of some row of both tables or of none. -/
theorem Paired.any (h : t.Paired A t') {p : ρ → Bool} (hp : ∀ a b, A a b → p a = p b) :
    t.rows.any p = t'.rows.any p := by
  rw [Paired] at h
  generalize t.rows = l, t'.rows = l' at h
  induction h with
  | nil => rfl
  | @cons a b l l' hab _ ih => rw [List.any_cons, List.any_cons, hp a b hab, ih]

/-- The next primary key. -/
theorem Paired.nextId (hA : Constrained A) (h : t.Paired A t') : t.nextId = t'.nextId := by
  have hmap : t.rows.map Row.id = t'.rows.map Row.id := by
    rw [Paired] at h
    generalize t.rows = l, t'.rows = l' at h
    induction h with
    | nil => rfl
    | @cons a b l l' hab _ ih => rw [List.map_cons, List.map_cons, (hA a b hab).1, ih]
  rw [Table.nextId, Table.nextId, hmap]

/-- Related rows are inserted into related tables only together. -/
theorem Paired.insert (hA : Constrained A) (h : t.Paired A t') {a b : ρ} (hab : A a b) :
    Option.Rel (Paired A) (t.insert a) (t'.insert b) := by
  have hall : (∀ x ∈ t.rows, Row.Apart x a) ↔ ∀ x ∈ t'.rows, Row.Apart x b := by
    rw [Paired] at h
    generalize t.rows = l, t'.rows = l' at h
    induction h with
    | nil => simp
    | @cons x y l l' hxy _ ih =>
      rw [List.forall_mem_cons, List.forall_mem_cons, ih, Row.Apart, Row.Apart, (hA x y hxy).1,
        (hA x y hxy).2, (hA a b hab).1, (hA a b hab).2]
  by_cases hx : ∀ x ∈ t.rows, Row.Apart x a
  · rw [Table.insert, Table.insert, dif_pos hx, dif_pos (hall.mp hx)]
    exact .some (List.rel_append h (.cons hab .nil))
  · rw [Table.insert, Table.insert, dif_neg hx, dif_neg (mt hall.mpr hx)]
    exact .none

/-- Related rewritings of the rows that a test picks. -/
theorem Paired.update (h : t.Paired A t') {p : ρ → Bool} (hp : ∀ a b, A a b → p a = p b)
    {f f' : ρ → ρ} (hf : ∀ a b, A a b → A (f a) (f' b)) (hkeep) (hkeep') :
    (t.update p f hkeep).Paired A (t'.update p f' hkeep') := by
  refine List.rel_map (fun a b hab => ?_) h
  rw [← hp a b hab]
  split
  · exact hf a b hab
  · exact hab

end Table

end Comax.Core
