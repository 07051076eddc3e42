import Comax.Secret.Asking
import Comax.Secret.Isolation

/-!
# The states that a resolution reads

A state that answers every query of a call as it was answered gives the same snapshot
on its own. A call that returns has found every environment that it asked for.
-/

namespace Comax.Secret

open Comax.Core Comax.Store

/-- The queries of a call, each with its place. -/
def Call.asked (rc : Call) (fuel : ℕ) (envID : Int) : List (ℕ × Query) :=
  ((Asking.callees rc fuel).snapshot envID [] .initial).asked (answers rc.dbs)

/-- States that answer the queries of a call alike give it the same result. -/
theorem Call.resolve_congr (rc : Call) (fuel : ℕ) (envID : Int) (dbs : ℕ → Database)
    (h : ∀ q ∈ rc.asked fuel envID, q.2.answer (dbs q.1) = q.2.answer (rc.dbs q.1)) :
    ({ rc with dbs := dbs } : Call).resolve fuel envID = rc.resolve fuel envID := by
  have hsame : (({ rc with dbs := dbs } : Call).callees fuel).snapshot envID [] .initial =
      (rc.callees fuel).snapshot envID [] .initial := by
    have hthere := (Asking.plays_callees rc dbs fuel).snapshot envID []
    have hhere := (Asking.plays_callees rc rc.dbs fuel).snapshot envID []
    rw [← hthere, ← hhere]
    exact Script.answered_congr h
  rw [resolve, resolve, hsame]

/-- A call that returned does so at every greater depth. -/
theorem Call.resolve_deeper (rc : Call) {fuel fuel' : ℕ} (hle : fuel ≤ fuel') (envID : Int)
    {snap : Snapshot} (h : rc.resolve fuel envID = .ok snap) :
    rc.resolve fuel' envID = .ok snap := by
  have hb := (rc.callees_below hle).snapshot envID []
  unfold resolve at h ⊢
  cases hr : (rc.callees fuel).snapshot envID [] .initial with
  | error e =>
    rw [hr] at h
    cases h
  | ok r =>
    have hne : (rc.callees fuel).snapshot envID [] .initial ≠ .error .outOfFuel := by
      rw [hr]
      exact fun he => by cases he
    rw [hb.eq_of_ne hne]
    exact h

/-- The queries of `Resolve`, each with its place. -/
def Resolver.asked (r : Resolver) (fuel : ℕ) (dbs : ℕ → Database) (order : MapOrder)
    (projectID envID : Int) : List (ℕ × Query) :=
  match r.masterKey with
  | none => []
  | some key => (r.call dbs order projectID key).asked fuel envID

/-- A state that answers every query of a call as it was answered gives the same snapshot on
its own. -/
theorem Resolver.resolve_of_answers (r : Resolver) {fuel : ℕ} {dbs : ℕ → Database}
    {order : MapOrder} {projectID envID : Int} {snap : Snapshot}
    (h : r.resolveWithin fuel dbs order projectID envID = .ok snap) {db : Database}
    (hdb : ∀ q ∈ r.asked fuel dbs order projectID envID,
      q.2.answer db = q.2.answer (dbs q.1)) :
    r.resolve db order projectID envID = .ok snap := by
  rw [← r.resolveWithin_eq db order projectID envID (Nat.le_max_right fuel _)]
  unfold asked at hdb
  unfold resolveWithin at h ⊢
  cases hkey : r.masterKey with
  | none =>
    rw [hkey] at h
    cases h
  | some key =>
    rw [hkey] at h hdb
    have hsame := (r.call dbs order projectID key).resolve_congr fuel envID (fun _ => db) hdb
    exact Call.resolve_deeper _ (Nat.le_max_left _ _) envID (hsame.trans h)

/-- The environment that a query asks for was found. -/
def Query.Found : (q : Query) → q.Answer → Prop
  | .byID _, a => ∃ env, a = .ok env
  | .byName _ _, a => ∃ env, a = .ok env
  | .listByEnv _, _ => True

/-- A computation that returns has found every environment that it asked for. -/
def Finds (o : ∀ q : ℕ × Query, q.2.Answer) {α : Type} (m : AskM α) : Prop :=
  ∀ s r, playing o m s = .ok r → ∀ q ∈ (m s).asked o, q.2.Found (o q)

section Finds

variable (o : ∀ q : ℕ × Query, q.2.Answer) {α β : Type} {m : AskM α} {f : α → AskM β}

/-- The first of two parts that return has returned. -/
theorem playing_bind_eq_ok {s : ResolveCtx} {r : β × ResolveCtx}
    (h : playing o (m >>= f) s = .ok r) :
    ∃ a s', playing o m s = .ok (a, s') ∧ playing o (f a) s' = .ok r ∧
      ((m >>= f) s).asked o = (m s).asked o ++ (f a s').asked o := by
  have hasked := Script.asked_bind o (m s) fun r => f r.1 r.2
  rw [playing_bind] at h
  cases hm : playing o m s with
  | error e =>
    change (playing o m s).bind _ = _ at h
    rw [hm] at h
    cases h
  | ok r' =>
    change (playing o m s).bind _ = _ at h
    rw [hm] at h
    have hanswered : (m s).answered o = .ok r' := hm
    rw [hanswered] at hasked
    exact ⟨r'.1, r'.2, rfl, h, hasked⟩

/-- A failure after other queries. -/
theorem finds_bind_fail (g : α → ResolveError) : Finds o (do Asking.fail (g (← m)) : AskM β) := by
  intro s r hr
  obtain ⟨_, _, -, hfail, -⟩ := playing_bind_eq_ok o hr
  cases hfail

/-- Where a query finds nothing, the call fails. -/
theorem finds_query_bind {q : Query} {f : q.Answer → AskM β} (hf : ∀ a, Finds o (f a))
    (hfail : ∀ a, ¬q.Found a → ∃ e, f a = Asking.fail e) : Finds o (Asking.query q >>= f) := by
  intro s r hr q' hq'
  obtain ⟨a, s', hquery, hrest, hasked⟩ := playing_bind_eq_ok o hr
  cases hquery
  rw [hasked] at hq'
  rcases List.mem_append.mp hq' with hq' | hq'
  · obtain rfl := List.mem_singleton.mp hq'
    by_contra hnone
    obtain ⟨e, he⟩ := hfail _ hnone
    rw [he] at hrest
    cases hrest
  · exact hf _ _ _ hrest q' hq'

/-- What follows an answer, found or not. -/
theorem finds_answer {f : Except StoreError Environment → AskM β}
    (hfail : ∀ e, ∃ err, f (.error e) = Asking.fail err) (hf : ∀ env, Finds o (f (.ok env)))
    (a : Except StoreError Environment) : Finds o (f a) := by
  cases a with
  | ok env => exact hf env
  | error e =>
    obtain ⟨err, herr⟩ := hfail e
    rw [herr]
    intro s r hr
    cases hr

omit o in
/-- An answer that is no environment is followed by a failure. -/
theorem fails_answer {f : Except StoreError Environment → AskM β}
    (hfail : ∀ e, ∃ err, f (.error e) = Asking.fail err) (a : Except StoreError Environment)
    (hnone : ¬∃ env, a = .ok env) : ∃ err, f a = Asking.fail err := by
  cases a with
  | ok env => exact absurd ⟨env, rfl⟩ hnone
  | error e => exact hfail e

/-- Every part of the resolver finds what it asks for. -/
theorem kept_finds : Asking.Kept (Finds o) where
  bind hm hf s r hr q hq := by
    obtain ⟨a, s', hfirst, hrest, hasked⟩ := playing_bind_eq_ok o hr
    rw [hasked] at hq
    rcases List.mem_append.mp hq with hq | hq
    · exact hm s _ hfirst q hq
    · exact hf a s' _ hrest q hq
  wrap {α m} g hm s r hr q hq := by
    rw [playing, Asking.wrap, Script.answered_mapResult] at hr
    rw [Asking.wrap, Script.asked_mapResult] at hq
    cases hrun : (m s).answered o with
    | ok r' => exact hm s r' hrun q hq
    | error e =>
      rw [hrun] at hr
      cases e with
      | outOfFuel => cases hr
      | error e => cases hr
  quiet _ _ _ _ q hq := absurd hq List.not_mem_nil
  byID id f hfail hf := finds_query_bind o (q := .byID id) (finds_answer o hfail hf)
    (fails_answer hfail)
  byName projectID name f hfail hf :=
    finds_query_bind o (q := .byName projectID name) (finds_answer o hfail hf)
      (fails_answer hfail)
  listByEnv envID s r hr q hq := by
    obtain rfl := List.mem_singleton.mp hq
    trivial
  envCycle g ids := finds_bind_fail o g
  refCycle g ps := finds_bind_fail o g

end Finds

/-- A call that returns asks for its environment first, and finds every environment that it asks
for. -/
theorem Call.asked_found (rc : Call) {fuel : ℕ} {envID : Int} {snap : Snapshot}
    (h : rc.resolve fuel envID = .ok snap) :
    (0, .byID envID) ∈ rc.asked fuel envID ∧
      ∀ q ∈ rc.asked fuel envID, q.2.Found (answers rc.dbs q) := by
  constructor
  · cases fuel with
    | zero => cases h
    | succ fuel => exact List.mem_cons_self
  · have hplays := (Asking.plays_callees rc rc.dbs fuel).snapshot envID []
    unfold resolve at h
    cases hrun : (rc.callees fuel).snapshot envID [] .initial with
    | error e =>
      rw [hrun] at h
      cases h
    | ok r =>
      have hfinds := Asking.kept_callees rc (kept_finds (answers rc.dbs)) fuel
      exact hfinds.snapshot envID [] .initial r ((congrFun hplays _).trans hrun)

/-- See `Call.asked_found`. -/
theorem Resolver.asked_found (r : Resolver) {fuel : ℕ} {dbs : ℕ → Database} {order : MapOrder}
    {projectID envID : Int} {snap : Snapshot}
    (h : r.resolveWithin fuel dbs order projectID envID = .ok snap) :
    (0, .byID envID) ∈ r.asked fuel dbs order projectID envID ∧
      ∀ q ∈ r.asked fuel dbs order projectID envID, q.2.Found (answers dbs q) := by
  unfold resolveWithin at h
  unfold asked
  cases hkey : r.masterKey with
  | none =>
    rw [hkey] at h
    cases h
  | some key =>
    rw [hkey] at h
    exact Call.asked_found _ h

end Comax.Secret
