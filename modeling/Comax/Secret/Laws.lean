import Comax.Secret.Correctness

/-!
# What `Resolve` promises

The resolver against the recursive definition, over every database state and every
order of visit: on hygienic values it is the definition; on arbitrary values its
result is independent of the order as long as no value that is read twice holds a
reference, and an entry is passed on to a child as long as its value holds none. The
database of formed references shows that the conditions are needed.
-/

namespace Comax.Secret

open Comax.Core Comax.Store Comax.Crypto

/-- What the stored values open to; nothing does without the master key. -/
def Resolver.opens (r : Resolver) (ciphertext : Str) : Option Str :=
  r.masterKey.bind fun key => r.gcm.open key ciphertext

/-- The stored state that `Resolve` reads. -/
def Resolver.source (r : Resolver) (db : Database) (projectID : Int) : Source :=
  ⟨db, projectID, r.opens⟩

/-- Both fail, or both return the same entries. -/
inductive SameOutcome : Except Fault Snapshot → Except Fault Snapshot → Prop
  | ok {m m'} (h : ∀ key, m.lookup key = m'.lookup key) : SameOutcome (.ok m) (.ok m')
  | error {e e'} : SameOutcome (.error e) (.error e')

/-- The entry of a key in a returned snapshot. -/
def entry (result : Except Fault Snapshot) (key : Str) : Option ResolvedSecret :=
  result.toOption.bind fun m => m.lookup key

/-- The result is a snapshot. -/
def Returned (result : Except Fault Snapshot) : Prop := result.toOption.isSome

instance (result : Except Fault Snapshot) : Decidable (Returned result) :=
  inferInstanceAs (Decidable (_ = true))

/-- A result that is a snapshot is one. -/
theorem Returned.exists_ok {result : Except Fault Snapshot} (h : Returned result) :
    ∃ m, result = .ok m := by
  cases result with
  | ok m => exact ⟨m, rfl⟩
  | error e => cases h

/-- Equal outcomes have equal entries. -/
theorem SameOutcome.entry_eq {a b : Except Fault Snapshot} (h : SameOutcome a b) (key : Str) :
    entry a key = entry b key := by
  cases h with
  | ok h => exact h key
  | error => rfl

section Outcome

variable (r : Resolver) (db : Database) (order : MapOrder) (projectID envID : Int)

/-- Without the master key nothing is resolved. -/
theorem Resolver.resolve_of_none (h : r.masterKey = none) :
    r.resolve db order projectID envID = .error (.error .loadMasterKey) := by
  simp only [resolve, resolveWithin, h]

/-- With the master key a resolution is a call over its source. -/
theorem Resolver.call_source {key : Str} (h : r.masterKey = some key) :
    r.call (fun _ => db) order projectID key = (r.source db projectID).call order := by
  simp only [call, Source.call, source, Call.mk.injEq, true_and]
  funext ciphertext
  simp only [opens, h, Option.bind_some]

/-- With the master key a resolution has the outcome of its source. -/
theorem Resolver.resolve_source {key : Str} (h : r.masterKey = some key) :
    (r.source db projectID).Outcome envID (r.resolve db order projectID envID) := by
  simp only [resolve, resolveWithin, h, r.call_source db order projectID h]
  exact Source.resolve_outcome order (w := r.source db projectID)

/-- A returned snapshot belongs to a resolvable environment. -/
theorem Resolver.outcome_of_ok {m : Snapshot}
    (hm : r.resolve db order projectID envID = .ok m) :
    (r.source db projectID).Outcome envID (.ok m) := by
  cases hkey : r.masterKey with
  | none =>
    rw [r.resolve_of_none db order projectID envID hkey] at hm
    cases hm
  | some key =>
    have h := r.resolve_source db order projectID envID hkey
    rwa [hm] at h

end Outcome

/-- Values are hygienic in a closure if the stored ones are. -/
theorem Source.hygienic_of_rows {w : Source}
    (h : ∀ row ∈ w.db.secrets.rows, ∀ text ∈ w.opens row.ciphertext, Hygienic text) {start : Int}
    (envID : Int) (key text : Str) (_ : w.Member start envID) (hraw : w.Raw envID key text) :
    Hygienic text := by
  obtain ⟨row, hrow, htext⟩ := hraw
  exact h row hrow.mem_rows text htext

/-- A resolver over the plain cipher. -/
def plainResolver : Resolver := ⟨plainGCM, some plainKey⟩

/-- A live row of environment 1, sealed for that resolver. -/
def plainSecret (id : Int) (key text : String) : Secret :=
  ⟨id, 1, ascii key, plainSealed (ascii text), 1, 0, 0, none⟩

/-- A base environment `P` and a child `C` that inherits it. -/
def inheritingEnvs : Table Environment :=
  ⟨[⟨1, 1, ascii "P", [], 0, 0⟩, ⟨2, 1, ascii "C", ascii "P", 0, 0⟩], by decide⟩

/-- A value with a reference to a shared value. -/
def sharedDatabase : Database :=
  { Database.empty with
    environments := inheritingEnvs
    secrets := ⟨[plainSecret 1 "HOST" "db", plainSecret 2 "URL" "pg://${{ P.HOST }}/x"],
      by decide⟩ }

/-- A database in which splicing the value of `P.X` into `P.K1` forms a new reference. -/
def formedDatabase : Database :=
  { Database.empty with
    environments := inheritingEnvs
    secrets := ⟨[plainSecret 1 "X" "{{P.Y}}", plainSecret 2 "Y" "v",
      plainSecret 3 "K1" "$${{P.X}}", plainSecret 4 "K2" "${{P.K1}}"], by decide⟩ }

/-- The recursion depth of that database. -/
theorem formedDatabase_depth : resolveDepth formedDatabase = 27 := by
  decide +kernel

/-- The recursion depth of the shared database. -/
theorem sharedDatabase_depth : resolveDepth sharedDatabase = 19 := by
  decide +kernel

/-- The stored values of the shared database are hygienic. -/
theorem sharedDatabase_hygienic :
    ∀ row ∈ (plainResolver.source sharedDatabase 1).db.secrets.rows,
      ∀ text ∈ (plainResolver.source sharedDatabase 1).opens row.ciphertext, Hygienic text := by
  decide +kernel

/-- The shared database may be read any number of times. -/
theorem sharedDatabase_rereadSafe (start : Int) :
    (plainResolver.source sharedDatabase 1).RereadSafe start :=
  Source.rereadSafe_of_hygienic (Source.hygienic_of_rows sharedDatabase_hygienic)

/-- On hygienic values `Resolve` succeeds exactly on the resolvable environments, and its
entries are the overlaid rows with the values of the recursive definition. -/
theorem Resolver.resolve_correct (r : Resolver) (db : Database) (order : MapOrder)
    (projectID start : Int)
    (hyg : ∀ envID key text, (r.source db projectID).Member start envID →
      (r.source db projectID).Raw envID key text → Hygienic text) :
    ((∃ m, r.resolve db order projectID start = .ok m) ↔
      (∃ key, r.masterKey = some key) ∧ (r.source db projectID).Resolvable start) ∧
    ∀ m, r.resolve db order projectID start = .ok m →
      (r.source db projectID).Represents start m := by
  have hsafe := Source.rereadSafe_of_hygienic hyg
  refine ⟨⟨?_, ?_⟩, fun m hm => (r.outcome_of_ok db order projectID start hm).represents hsafe⟩
  · rintro ⟨m, hm⟩
    refine ⟨?_, (r.outcome_of_ok db order projectID start hm).1⟩
    cases hkey : r.masterKey with
    | none =>
      rw [r.resolve_of_none db order projectID start hkey] at hm
      cases hm
    | some key => exact ⟨key, rfl⟩
  · rintro ⟨⟨key, hkey⟩, hres⟩
    have h := r.resolve_source db order projectID start hkey
    cases hrun : r.resolve db order projectID start with
    | ok m => exact ⟨m, rfl⟩
    | error e =>
      rw [hrun] at h
      exact absurd hres (h hsafe)

/-- The promise on the shared database. -/
theorem Resolver.resolve_correct_shared :
    ((∃ m, plainResolver.resolve sharedDatabase .plain 1 2 = .ok m) ↔
      (∃ key, plainResolver.masterKey = some key) ∧
        (plainResolver.source sharedDatabase 1).Resolvable 2) ∧
    ∀ m, plainResolver.resolve sharedDatabase .plain 1 2 = .ok m →
      (plainResolver.source sharedDatabase 1).Represents 2 m :=
  plainResolver.resolve_correct sharedDatabase .plain 1 2
    (Source.hygienic_of_rows sharedDatabase_hygienic)

/-- The order of visit does not show, if no value that is read twice holds a reference. -/
theorem Resolver.resolve_order_independent (r : Resolver) (db : Database) (projectID start : Int)
    (hcond : (r.source db projectID).Resolvable start →
      (r.source db projectID).RereadSafe start) (order order' : MapOrder) :
    SameOutcome (r.resolve db order projectID start) (r.resolve db order' projectID start) := by
  cases hkey : r.masterKey with
  | none =>
    rw [r.resolve_of_none db order projectID start hkey,
      r.resolve_of_none db order' projectID start hkey]
    exact .error
  | some key =>
    have h := r.resolve_source db order projectID start hkey
    have h' := r.resolve_source db order' projectID start hkey
    cases hrun : r.resolve db order projectID start with
    | ok m =>
      rw [hrun] at h
      have hsafe := hcond h.1
      cases hrun' : r.resolve db order' projectID start with
      | ok m' =>
        rw [hrun'] at h'
        exact .ok ((h.represents hsafe).lookup_eq (h'.represents hsafe))
      | error e =>
        rw [hrun'] at h'
        exact absurd h.1 (h' hsafe)
    | error e =>
      rw [hrun] at h
      cases hrun' : r.resolve db order' projectID start with
      | ok m' =>
        rw [hrun'] at h'
        exact absurd h'.1 (h (hcond h'.1))
      | error e' => exact .error

/-- The orders of visit of the shared database agree. -/
theorem Resolver.resolve_order_independent_shared :
    SameOutcome (plainResolver.resolve sharedDatabase .plain 1 1)
      (plainResolver.resolve sharedDatabase .reversed 1 1) :=
  plainResolver.resolve_order_independent sharedDatabase 1 1
    (fun _ => sharedDatabase_rereadSafe 1) .plain .reversed

/-- Two orders of visit give `K2` different values, for `K1` is read before or after its own
expansion. -/
theorem Resolver.resolve_order_dependent :
    ¬ SameOutcome (plainResolver.resolve formedDatabase .plain 1 1)
      (plainResolver.resolve formedDatabase .reversed 1 1) := by
  intro h
  have hentry := h.entry_eq (ascii "K2")
  rw [resolve, resolve, formedDatabase_depth] at hentry
  revert hentry
  decide +kernel

/-- A child without a row of a key passes on the entry of its parent, if the value of the key
holds no reference. -/
theorem Resolver.resolve_inherited (r : Resolver) (db : Database) (projectID : Int)
    {child parent : Int} (hparent : (r.source db projectID).Parent child parent) {key : Str}
    (hnone : ∀ row, ¬ (r.source db projectID).Own child key row)
    (hplain : ∀ text, (r.source db projectID).Value parent key text → findReferences text = [])
    (order order' : MapOrder) (hok : Returned (r.resolve db order projectID child))
    (hok' : Returned (r.resolve db order' projectID parent)) :
    entry (r.resolve db order projectID child) key =
      entry (r.resolve db order' projectID parent) key := by
  obtain ⟨m, hm⟩ := hok.exists_ok
  obtain ⟨m', hm'⟩ := hok'.exists_ok
  have hplain' : (r.source db projectID).Plain (child, key) := fun text hvalue =>
    hplain text ((Source.value_inherited_iff hnone hparent).mp hvalue)
  have hchild := (r.outcome_of_ok db order projectID child hm).2 key (.inr hplain')
  have hpar := (r.outcome_of_ok db order' projectID parent hm').2 key (.inr fun _ => hplain _)
  rw [hm, hm']
  exact hchild.lookup_eq hparent hnone hpar

/-- Environment 2 inherits environment 1 in the databases above. -/
theorem parent_of_inheritingEnvs {db : Database} (h : db.environments = inheritingEnvs) :
    (plainResolver.source db 1).Parent 2 1 := by
  refine ⟨⟨2, 1, ascii "C", ascii "P", 0, 0⟩, ?_, by decide, ⟨1, 1, ascii "P", [], 0, 0⟩, ?_, rfl⟩
  · simp only [Resolver.source, EnvRepo.byID, h]
    rfl
  · simp only [Resolver.source, EnvRepo.byName, h]
    rfl

/-- No secret of the databases above belongs to environment 2. -/
theorem not_own_of_plain {db : Database} (h : SecretRepo.listByEnv 2 db = []) (key : Str)
    (row : Secret) : ¬ (plainResolver.source db 1).Own 2 key row := by
  rintro ⟨hrow, -⟩
  change row ∈ SecretRepo.listByEnv 2 db at hrow
  rw [h] at hrow
  exact absurd hrow List.not_mem_nil

/-- The child of the shared database passes on the value of `HOST`. -/
theorem Resolver.resolve_inherited_shared :
    entry (plainResolver.resolve sharedDatabase .plain 1 2) (ascii "HOST") =
      entry (plainResolver.resolve sharedDatabase .reversed 1 1) (ascii "HOST") :=
  plainResolver.resolve_inherited sharedDatabase 1 (parent_of_inheritingEnvs rfl)
    (not_own_of_plain (by decide +kernel) _)
    (fun _ hvalue => sharedDatabase_rereadSafe 2
      (.inr ⟨2, .start, parent_of_inheritingEnvs rfl, not_own_of_plain (by decide +kernel) _⟩)
      hvalue)
    .plain .reversed (by rw [resolve, sharedDatabase_depth]; decide +kernel)
    (by rw [resolve, sharedDatabase_depth]; decide +kernel)

/-- The child reads the value of `K1` again, after the parent has expanded it. -/
theorem Resolver.resolve_inherited_formed :
    (plainResolver.source formedDatabase 1).Parent 2 1 ∧
      (∀ row, ¬ (plainResolver.source formedDatabase 1).Own 2 (ascii "K1") row) ∧
      Returned (plainResolver.resolve formedDatabase .plain 1 2) ∧
      Returned (plainResolver.resolve formedDatabase .plain 1 1) ∧
      entry (plainResolver.resolve formedDatabase .plain 1 2) (ascii "K1") ≠
        entry (plainResolver.resolve formedDatabase .plain 1 1) (ascii "K1") := by
  refine ⟨parent_of_inheritingEnvs rfl, not_own_of_plain (by decide +kernel) _, ?_⟩
  rw [resolve, resolve, formedDatabase_depth]
  decide +kernel

end Comax.Secret
