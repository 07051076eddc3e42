import Mathlib.Logic.Relation

/-!
# Transition systems

A machine steps by labels: a label that is enabled in a state leads to one state.
`Reach ok` are the states of the runs whose every step meets `ok`, a condition on the
state before the step and on its label, and `Leads ok` relates a state to the later
states of such a run. An invariant of the steps is an invariant of the runs.
-/

namespace Comax.Core

/-- A transition system with labelled, partial, deterministic steps. -/
structure Machine (σ α : Type) where
  /-- The states a run starts from. -/
  start : σ → Prop
  /-- The state that an enabled label leads to. -/
  next : α → σ → Option σ

namespace Machine

variable {σ α : Type} (m : Machine σ α)

/-- The states of the runs whose steps all meet a condition. -/
inductive Reach (ok : σ → α → Prop) : σ → Prop
  | start {s} (h : m.start s) : Reach ok s
  | step {s a s'} (h : Reach ok s) (hok : ok s a) (hn : m.next a s = some s') : Reach ok s'

/-- The states of all runs. -/
def Reachable (s : σ) : Prop := m.Reach (fun _ _ => True) s

/-- The later states of the runs whose steps all meet a condition. -/
def Leads (ok : σ → α → Prop) : σ → σ → Prop :=
  Relation.ReflTransGen fun s s' => ∃ a, ok s a ∧ m.next a s = some s'

/-- Take a list of steps. -/
def run : List α → σ → Option σ
  | [], s => some s
  | a :: as, s => (m.next a s).bind (run as)

variable {m} {ok : σ → α → Prop} {s s' : σ}

/-- What a start establishes and every step keeps holds in every state of a run. -/
theorem Reach.invariant {I : σ → Prop} (h : m.Reach ok s) (hstart : ∀ {s}, m.start s → I s)
    (hstep : ∀ {s a s'}, m.Reach ok s → I s → ok s a → m.next a s = some s' → I s') : I s := by
  induction h with
  | start h => exact hstart h
  | step h hok hn ih => exact hstep h ih hok hn

/-- A run may go on. -/
theorem Reach.leads (h : m.Reach ok s) (hl : m.Leads ok s s') : m.Reach ok s' := by
  induction hl with
  | refl => exact h
  | tail _ hn ih =>
    obtain ⟨a, hok, hn⟩ := hn
    exact .step ih hok hn

/-- What relates the two ends of every step of a run relates any two states of it. -/
theorem Leads.preorder {R : σ → σ → Prop} (hrefl : ∀ s, R s s)
    (htrans : ∀ {s₁ s₂ s₃}, R s₁ s₂ → R s₂ s₃ → R s₁ s₃)
    (hstep : ∀ {s a s'}, m.Reach ok s → ok s a → m.next a s = some s' → R s s')
    (h : m.Reach ok s) (hl : m.Leads ok s s') : R s s' := by
  induction hl with
  | refl => exact hrefl _
  | tail hl hn ih =>
    obtain ⟨a, hok, hn⟩ := hn
    exact htrans ih (hstep (h.leads hl) hok hn)

/-- A list of admitted steps leads to a state of an admitted run. -/
theorem Reach.run {J : σ → Prop} {as : List α} (hstep : ∀ {s a s'}, J s → a ∈ as →
      m.next a s = some s' → J s' ∧ ok s a) (h : m.Reach ok s) (hJ : J s)
    (hr : m.run as s = some s') : m.Reach ok s' := by
  induction as generalizing s with
  | nil =>
    cases hr
    exact h
  | cons a as ih =>
    obtain ⟨s₁, hn, hr⟩ := Option.bind_eq_some_iff.mp hr
    obtain ⟨hJ₁, hok⟩ := hstep hJ List.mem_cons_self hn
    exact ih (fun hJ ha => hstep hJ (List.mem_cons_of_mem _ ha)) (.step h hok hn) hJ₁ hr

/-- A list of steps leads to a reachable state. -/
theorem Reachable.run {as : List α} (h : m.Reachable s) (hr : m.run as s = some s') :
    m.Reachable s' :=
  Reach.run (J := fun _ => True) (fun _ _ _ => ⟨trivial, trivial⟩) h trivial hr

/-- Every step of a run meets a condition. -/
def Along (m : Machine σ α) (ok : σ → α → Prop) : List α → σ → Prop
  | [], _ => True
  | a :: as, s => ok s a ∧ ∀ s', m.next a s = some s' → m.Along ok as s'

/-- The condition can be checked along a run. -/
instance decidableAlong [∀ s a, Decidable (ok s a)] :
    ∀ (as : List α) (s : σ), Decidable (m.Along ok as s)
  | [], _ => isTrue trivial
  | a :: as, s =>
    match h : m.next a s with
    | none => decidable_of_iff (ok s a) (by simp [Along, h])
    | some s' =>
      have := decidableAlong as s'
      decidable_of_iff (ok s a ∧ m.Along ok as s') (by simp [Along, h])

/-- A run over two lists passes a state in between. -/
theorem run_append (as bs : List α) (s : σ) :
    m.run (as ++ bs) s = (m.run as s).bind (m.run bs) := by
  induction as generalizing s with
  | nil => rfl
  | cons a as ih =>
    rw [List.cons_append, run, run, Option.bind_assoc]
    exact congrArg _ (funext ih)

/-- A run that goes on over a list whose steps all meet the condition. -/
theorem along_append {as bs : List α} :
    m.Along ok (as ++ bs) s ↔ m.Along ok as s ∧ ∀ s', m.run as s = some s' → m.Along ok bs s' := by
  induction as generalizing s with
  | nil => simp [Along, run]
  | cons a as ih =>
    simp only [List.cons_append, Along, ih, run, Option.bind_eq_some_iff]
    constructor
    · rintro ⟨ha, h⟩
      refine ⟨⟨ha, fun s₁ hn => (h s₁ hn).1⟩, ?_⟩
      rintro s' ⟨s₁, hn, hr⟩
      exact (h s₁ hn).2 s' hr
    · rintro ⟨⟨ha, h⟩, h'⟩
      exact ⟨ha, fun s₁ hn => ⟨h s₁ hn, fun s' hr => h' s' ⟨s₁, hn, hr⟩⟩⟩

/-- The condition holds at each step of the run. -/
theorem along_iff {as : List α} : m.Along ok as s ↔
    ∀ pre a post s', as = pre ++ a :: post → m.run pre s = some s' → ok s' a := by
  constructor
  · rintro h pre a post s' rfl hr
    exact ((along_append.mp h).2 s' hr).1
  · intro h
    induction as generalizing s with
    | nil => trivial
    | cons a as ih =>
      refine ⟨h [] a as s rfl rfl, fun s₁ hn => ih fun pre b post s' he hr => ?_⟩
      exact h (a :: pre) b post s' (he ▸ rfl) (by rw [run, hn]; exact hr)

/-- What every step that meets the condition keeps holds at the end of the run. -/
theorem run_invariant {I : σ → Prop} {as : List α} (halong : m.Along ok as s)
    (hstep : ∀ {s a s'}, I s → ok s a → m.next a s = some s' → I s') (hI : I s)
    (hr : m.run as s = some s') : I s' := by
  induction as generalizing s with
  | nil =>
    cases hr
    exact hI
  | cons a as ih =>
    obtain ⟨s₁, hn, hr⟩ := Option.bind_eq_some_iff.mp hr
    exact ih (halong.2 s₁ hn) (hstep hI halong.1 hn) hr

/-- A run whose steps all meet the condition leads to its end. -/
theorem Leads.of_run {as : List α} (halong : m.Along ok as s) (hr : m.run as s = some s') :
    m.Leads ok s s' := by
  induction as generalizing s with
  | nil =>
    cases hr
    exact .refl
  | cons a as ih =>
    obtain ⟨s₁, hn, hr⟩ := Option.bind_eq_some_iff.mp hr
    exact .head ⟨a, halong.1, hn⟩ (ih (halong.2 s₁ hn) hr)

/-- No condition is met along every run. -/
theorem along_true (as : List α) (s : σ) : m.Along (fun _ _ => True) as s := by
  rw [along_iff]
  exact fun _ _ _ _ _ _ => trivial

/-- The machine with a record that every step goes into. -/
def observed {γ : Type} (m : Machine σ α) (init : γ) (see : σ → α → γ → γ) :
    Machine (σ × γ) α where
  start x := m.start x.1 ∧ x.2 = init
  next a x := (m.next a x.1).map fun s => (s, see x.1 a x.2)

/-- A step of the observed machine is a step of the machine and goes into the record. -/
theorem next_observed {γ : Type} {init : γ} {see : σ → α → γ → γ} {a : α} {x y : σ × γ} :
    (m.observed init see).next a x = some y ↔ m.next a x.1 = some y.1 ∧ see x.1 a x.2 = y.2 := by
  simp only [observed, Option.map_eq_some_iff]
  constructor
  · rintro ⟨s, hn, rfl⟩
    exact ⟨hn, rfl⟩
  · rintro ⟨hn, hsee⟩
    exact ⟨y.1, hn, Prod.ext rfl hsee⟩

end Machine

end Comax.Core
