import Comax.Secret.Asking

/-!
# A resolution in a program

The queries of a resolution are numbered from zero in the order in which they are asked, so
the states that a program meets at its queries are the states of a call.
-/

namespace Comax.Secret

open Comax.Core Comax.Store

/-- The queries of a script have the numbers from `n` on; `Q` holds of the number of the next query
and the result. -/
def Numbered {α : Type} : Script (fun q : ℕ × Query => q.2.Answer) Fault α → ℕ →
    (ℕ → Except Fault α → Prop) → Prop
  | .done r, n, Q => Q n r
  | .ask q k, n, Q => q.1 = n ∧ ∀ a, Numbered (k a) (n + 1) Q

section

variable {α β : Type} {p : Script (fun q : ℕ × Query => q.2.Answer) Fault α}
  {f : α → Script (fun q : ℕ × Query => q.2.Answer) Fault β} {n : ℕ}
  {Q Q' : ℕ → Except Fault α → Prop}

/-- The postcondition may be weakened. -/
theorem Numbered.mono (h : Numbered p n Q) (hQ : ∀ n r, Q n r → Q' n r) : Numbered p n Q' := by
  induction p generalizing n with
  | done r => exact hQ n r h
  | ask q k ih => exact ⟨h.1, fun a => ih a (h.2 a)⟩

/-- One part after another. -/
theorem Numbered.bind {R : ℕ → Except Fault β → Prop} (h : Numbered p n fun n r =>
    match r with
    | .ok a => Numbered (f a) n R
    | .error e => R n (.error e)) : Numbered (p >>= f) n R := by
  induction p generalizing n with
  | done r =>
    cases r with
    | ok a => exact h
    | error e => exact h
  | ask q k ih => exact ⟨h.1, fun a => ih a (h.2 a)⟩

/-- A changed result. -/
theorem Numbered.mapResult {g : Except Fault α → Except Fault β} {R : ℕ → Except Fault β → Prop}
    (h : Numbered p n fun n r => R n (g r)) : Numbered (p.mapResult g) n R := by
  induction p generalizing n with
  | done r => exact h
  | ask q k ih => exact ⟨h.1, fun a => ih a (h.2 a)⟩

end

/-- A computation asks from the number of queries on that its context counts, and counts them. -/
def Counts {α : Type} (m : AskM α) : Prop :=
  ∀ s, Numbered (m s) s.queries fun n r => ∀ a s', r = .ok (a, s') → s'.queries = n

/-- A computation of names for an error message. -/
def Names {α : Type} (m : AskM α) (i j : ℕ) : Prop :=
  ∀ s, Numbered (m s) (s.queries + i) fun n r => ∃ a, r = .ok (a, s) ∧ n = s.queries + j

section

variable {α β : Type} {m : AskM α} {f : α → AskM β}

/-- One part after another. -/
theorem Counts.bind (hm : Counts m) (hf : ∀ a, Counts (f a)) : Counts (m >>= f) := by
  intro s
  refine Numbered.bind ((hm s).mono fun n r h => ?_)
  cases r with
  | error e => exact fun _ _ he => by cases he
  | ok r =>
    have hn : r.2.queries = n := h r.1 r.2 rfl
    change Numbered (f r.1 r.2) n _
    rw [← hn]
    exact hf r.1 r.2

/-- A computation that asks nothing and counts nothing. -/
theorem counts_quiet {m : ResolveM α} (h : ∀ s, wp m s (fun _ s' => s'.queries = s.queries)
    fun _ => True) : Counts (quiet m) := fun s _ _ hr =>
  wp_ok (Q := fun _ s' => s'.queries = s.queries) (h s) hr

/-- A query counts one. -/
theorem counts_query (q : Query) : Counts (Asking.query q) := by
  refine fun s => ⟨rfl, fun a b s' h => ?_⟩
  cases h
  rfl

theorem Counts.wrap (h : Counts m) (g : ResolveError → ResolveError) :
    Counts (Asking.wrap g m) := by
  intro s
  refine Numbered.mapResult ((h s).mono fun n r hr a s' he => ?_)
  split at he
  · cases he
  · exact hr a s' he

/-- What follows an answer, found or not. -/
theorem counts_answer {f : Except StoreError Environment → AskM β}
    (hfail : ∀ e, ∃ err, f (.error e) = Asking.fail err) (hf : ∀ env, Counts (f (.ok env)))
    (a : Except StoreError Environment) : Counts (f a) := by
  cases a with
  | ok env => exact hf env
  | error e =>
    obtain ⟨err, herr⟩ := hfail e
    rw [herr]
    intro s a s' h
    cases h

/-- The names of an error message are asked for one after another. -/
theorem names_mapM {f : α × ℕ → AskM β} (hf : ∀ a i, Names (f (a, i)) i (i + 1)) (xs : List α)
    (i : ℕ) : Names ((xs.zipIdx i).mapM f) i (i + xs.length) := by
  induction xs generalizing i with
  | nil => exact fun s => ⟨[], rfl, rfl⟩
  | cons x xs ih =>
    intro s
    rw [List.zipIdx_cons, List.mapM_cons]
    refine Numbered.bind ((hf x i s).mono fun n r h => ?_)
    obtain ⟨b, rfl, rfl⟩ := h
    refine Numbered.bind ((ih (i + 1) s).mono fun n r h => ?_)
    obtain ⟨bs, rfl, rfl⟩ := h
    exact ⟨b :: bs, rfl, by rw [List.length_cons]; omega⟩

/-- A failure with names in its message. -/
theorem counts_fail_names {g : List Str → ResolveError} {names : AskM (List Str)} {j : ℕ}
    (h : Names names 0 j) : Counts (do Asking.fail (g (← names)) : AskM α) := by
  intro s
  refine Numbered.bind ((h s).mono fun n r h => ?_)
  obtain ⟨a, rfl, -⟩ := h
  exact fun _ _ he => by cases he

end

namespace Asking

/-- A name of an error message is one query. -/
theorem names_envNameOf (i : ℕ) (id : Int) : Names (envNameOf i id) i (i + 1) := by
  refine fun s => ⟨rfl, fun a => ?_⟩
  cases a with
  | ok e => exact ⟨_, rfl, rfl⟩
  | error e => exact ⟨_, rfl, rfl⟩

theorem names_envChainNames (ids : List Int) : Names (envChainNames ids) 0 ids.length := by
  have h := names_mapM (f := fun (p : Int × ℕ) => envNameOf p.2 p.1)
    (fun id i => names_envNameOf i id) ids 0
  rwa [Nat.zero_add] at h

theorem names_refChainNames (ps : List RefPos) : Names (refChainNames ps) 0 ps.length := by
  have h := names_mapM (f := fun (p : RefPos × ℕ) => do
    return (← envNameOf p.2 p.1.envID) ++ ascii "." ++ p.1.key) (fun p i s => by
      refine Numbered.bind ((names_envNameOf i p.envID s).mono fun n r h => ?_)
      obtain ⟨a, rfl, rfl⟩ := h
      exact ⟨_, rfl, rfl⟩) ps 0
  rwa [Nat.zero_add] at h

/-- Every part of the resolver counts its queries. -/
theorem kept_counts : Kept Counts where
  bind := Counts.bind
  wrap g h := h.wrap g
  quiet := counts_quiet
  byID _ _ hfail hf := (counts_query _).bind (counts_answer hfail hf)
  byName _ _ _ hfail hf := (counts_query _).bind (counts_answer hfail hf)
  listByEnv _ := counts_query _
  envCycle _ ids := counts_fail_names (names_envChainNames ids)
  refCycle _ ps := counts_fail_names (names_refChainNames ps)

end Asking

end Comax.Secret
