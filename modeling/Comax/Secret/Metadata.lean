import Comax.Secret.Laws

/-!
# Keys and metadata of a snapshot

A cached map has the keys of its inheritance chain from the moment it is cached, each
with the metadata of the nearest live row. Expansion only rewrites the values of
entries, and a map that is built again or copied into a child is built from the same
rows, so this holds of the result whatever the values are.
-/

namespace Comax.Secret

open Comax.Core Comax.Store Comax.Crypto Relation

namespace Source

variable (w : Source)

/-- The environment is on the inheritance chain of another, which is the first on it. -/
def OnChain (start envID : Int) : Prop := ReflTransGen w.Parent start envID

/-- The live row of a key in the nearest environment of the chain that has one. -/
structure Nearest (start : Int) (key : Str) (envID : Int) (row : Secret) : Prop where
  onChain : w.OnChain start envID
  own : w.Own envID key row
  first : ∀ {before}, w.OnChain start before → TransGen w.Parent before envID →
    ∀ row, ¬w.Own before key row

/-- The map has exactly the live keys of the chain, with the metadata of the nearest rows. -/
structure Mirrors (start : Int) (m : Snapshot) : Prop where
  keys : ∀ key, key ∈ m ↔ ∃ envID row, w.OnChain start envID ∧ w.Own envID key row
  metadata : ∀ {key v}, m.lookup key = some v → ∃ envID row, w.Nearest start key envID row ∧
    v.secretID = row.id ∧ v.version = row.version ∧ v.updatedAt = row.updatedAt

variable {w} {start : Int} {key : Str}

/-- A key is overlaid exactly when an environment of the chain has a live row of it. -/
theorem exists_overlay_iff :
    (∃ row, w.Overlay start key row) ↔
      ∃ envID row, w.OnChain start envID ∧ w.Own envID key row := by
  constructor
  · rintro ⟨row, h⟩
    induction h with
    | own hown => exact ⟨_, _, .refl, hown⟩
    | inherited _ hparent _ ih =>
      obtain ⟨envID, row, hchain, hown⟩ := ih
      exact ⟨envID, row, hchain.head hparent, hown⟩
  · rintro ⟨envID, row, hchain, hown⟩
    induction hchain using ReflTransGen.head_induction_on with
    | refl => exact ⟨row, .own hown⟩
    | @head child parent hparent _ ih =>
      by_cases hlive : ∃ row', w.Own child key row'
      · obtain ⟨row', hrow'⟩ := hlive
        exact ⟨row', .own hrow'⟩
      · obtain ⟨row', hrow'⟩ := ih
        exact ⟨row', .inherited (not_exists.mp hlive) hparent hrow'⟩

/-- On a chain without a cycle the overlaid row is the one of the nearest environment. -/
theorem Overlay.nearest {row : Secret} (h : w.Overlay start key row)
    (hacyclic : ∀ {envID}, w.OnChain start envID → ¬TransGen w.Parent envID envID) :
    ∃ envID, w.Nearest start key envID row := by
  induction h with
  | @own envID key row hown =>
    refine ⟨envID, .refl, hown, fun {before} hchain hbefore => ?_⟩
    exact absurd (hbefore.trans_left hchain) (hacyclic hchain)
  | @inherited child key parent row hnone hparent _ ih =>
    obtain ⟨envID, hchain, hown, hfirst⟩ := ih fun hc => hacyclic (hc.head hparent)
    refine ⟨envID, hchain.head hparent, hown, fun {before} hb hbefore => ?_⟩
    rcases hb.cases_head with rfl | ⟨next, hnext, hrest⟩
    · exact hnone
    · obtain rfl := hparent.unique hnext
      exact hfirst hrest hbefore

/-- A cached map mirrors the rows of its chain, at whatever point of its expansion it is. -/
theorem Faithful.mirrors {s : ResolveCtx} {m : Snapshot} (h : w.Faithful s start m) :
    w.Mirrors start m := by
  have hacyclic : ∀ {envID}, w.OnChain start envID → ¬TransGen w.Parent envID envID := by
    intro envID hchain
    have hacc : Acc (fun parent child => w.Parent child parent) envID := by
      induction hchain with
      | refl => exact h.chain
      | tail _ hparent ih => exact ih.inv hparent
    exact not_transGen_of_acc hacc
  refine ⟨fun key => ?_, fun {key v} hv => ?_⟩
  · rw [← exists_overlay_iff]
    constructor
    · intro hmem
      obtain ⟨v, hv⟩ := Option.isSome_iff_exists.mp (AList.lookup_isSome.mpr hmem)
      obtain ⟨row, hrow, -⟩ := (h.entries hv).1
      exact ⟨row, hrow⟩
    · rintro ⟨row, hrow⟩
      exact h.complete hrow
  · obtain ⟨row, hrow, hmeta⟩ := (h.entries hv).1
    obtain ⟨envID, hnearest⟩ := hrow.nearest hacyclic
    rw [hmeta]
    exact ⟨envID, row, hnearest, rfl, rfl, rfl⟩

/-- When a resolution returns, every map it cached mirrors its chain, the result among them. -/
theorem snapshot_mirrors (order : MapOrder) (fuel : ℕ) {r : ℕ} {s : ResolveCtx}
    (h : ((w.call order).callees fuel).snapshot start [] .initial = .ok (r, s)) :
    s.envCache.lookup start = some r ∧
      ∀ {envID r'}, s.envCache.lookup envID = some r' → w.Mirrors envID (s.maps.getD r' ∅) := by
  have hcorrect := (callees_correct (w := w) order fuel).snapshot ∅ start [] .initial
    Inv.initial (fun _ => .start) fun p hp => absurd hp List.not_mem_nil
  obtain ⟨hinv, hr⟩ := wp_ok hcorrect h
  exact ⟨hr, fun hr' => (hinv.faithful hr').mirrors⟩

end Source

/-- A returned snapshot has exactly the live keys of the inheritance chain, each with the metadata
of the nearest live row. -/
theorem Resolver.resolve_metadata (r : Resolver) (db : Database) (order : MapOrder)
    (projectID start : Int) {m : Snapshot} (hm : r.resolve db order projectID start = .ok m) :
    (r.source db projectID).Mirrors start m := by
  cases hkey : r.masterKey with
  | none =>
    rw [r.resolve_of_none db order projectID start hkey] at hm
    cases hm
  | some key =>
    simp only [resolve, resolveWithin, hkey, r.call_source db order projectID hkey,
      Call.resolve] at hm
    split at hm
    · rename_i a s hrun
      cases hm
      obtain ⟨hr, hall⟩ := Source.snapshot_mirrors order _ hrun
      exact hall hr
    · cases hm

/-- A child with a soft-deleted override of its parent's key, and a key of its own. -/
def uncoveredDatabase : Database :=
  { Database.empty with
    environments := inheritingEnvs
    secrets := ⟨[plainSecret 1 "HOST" "db", ⟨2, 2, ascii "HOST", [], 3, 0, 9, some 9⟩,
      ⟨3, 2, ascii "URL", plainSealed (ascii "${{ P.HOST }}"), 4, 0, 7, none⟩], by decide⟩ }

/-- The recursion depth of that database. -/
theorem uncoveredDatabase_depth : resolveDepth uncoveredDatabase = 19 := by
  decide +kernel

/-- The parent's entry shows through the deleted row. -/
theorem Resolver.resolve_metadata_uncovered :
    ∃ m, plainResolver.resolve uncoveredDatabase .plain 1 2 = .ok m ∧
      m.lookup (ascii "HOST") = some ⟨1, ascii "db", 1, 0⟩ ∧
      m.lookup (ascii "URL") = some ⟨3, ascii "db", 4, 7⟩ ∧
      (plainResolver.source uncoveredDatabase 1).Mirrors 2 m := by
  have hreturned : Returned (plainResolver.resolve uncoveredDatabase .plain 1 2) := by
    rw [resolve, uncoveredDatabase_depth]
    decide +kernel
  have hentries : entry (plainResolver.resolve uncoveredDatabase .plain 1 2) (ascii "HOST") =
        some ⟨1, ascii "db", 1, 0⟩ ∧
      entry (plainResolver.resolve uncoveredDatabase .plain 1 2) (ascii "URL") =
        some ⟨3, ascii "db", 4, 7⟩ := by
    rw [resolve, uncoveredDatabase_depth]
    decide +kernel
  obtain ⟨m, hm⟩ := hreturned.exists_ok
  rw [hm] at hentries
  exact ⟨m, hm, hentries.1, hentries.2,
    plainResolver.resolve_metadata uncoveredDatabase .plain 1 2 hm⟩

end Comax.Secret
