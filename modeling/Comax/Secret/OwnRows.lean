import Comax.Secret.Correctness

/-!
# An environment's own keys

The queries of a resolution may meet different states, and inherited keys and references
may come from any of them. The environment's own rows are read by one query, so its own keys
are the rows of one state, each with its own metadata.
-/

namespace Comax.Secret

open Comax.Core Comax.Store

/-- Every row is the entry of its key; a value without references is what the row opens to. -/
def OwnRows (opens : Str → Option Str) (rows : List Secret) (m : Snapshot) : Prop :=
  ∀ row ∈ rows, ∃ text v : Str, opens row.ciphertext = some text ∧
    m.lookup row.key = some ⟨row.id, v, row.version, row.updatedAt⟩ ∧
    (findReferences text = [] → v = text)

/-- The live rows of an environment have distinct keys. -/
theorem eq_of_listByEnv {envID : Int} {db : Database} {row row' : Secret}
    (h : row ∈ SecretRepo.listByEnv envID db) (h' : row' ∈ SecretRepo.listByEnv envID db)
    (hkey : row.key = row'.key) : row = row' := by
  have hrow : ∀ r ∈ SecretRepo.listByEnv envID db, r ∈ db.secrets.rows ∧ r.envID = envID := by
    intro r hr
    obtain ⟨hmem, hlive⟩ := List.mem_filter.mp ((List.mem_insertionSort _).mp hr)
    simp only [Bool.and_eq_true, decide_eq_true_eq] at hlive
    exact ⟨hmem, hlive.1⟩
  obtain ⟨hmem, henv⟩ := hrow row h
  obtain ⟨hmem', henv'⟩ := hrow row' h'
  exact secret_eq_of_key db hmem hmem' (henv.trans henv'.symm) hkey

namespace Call

variable (rc : Call) {self : Callees} {envID : Int} {rows : List Secret} {s : ResolveCtx}

/-- The overlay puts every row in. -/
theorem overlay_ownRows {db : Database} (base : Snapshot) :
    wp ((SecretRepo.listByEnv envID db).foldlM (rc.overlayOne envID) base) s
      (fun merged s' => s' = s ∧ OwnRows rc.opens (SecretRepo.listByEnv envID db) merged)
      (fun _ => True) := by
  have hoverlay := @Source.overlay_correct ⟨db, rc.projectID, rc.opens⟩ rc.order s envID base
    (SecretRepo.listByEnv envID db)
  refine wp_mono hoverlay (fun merged s' h => ⟨h.1, fun row hrow => ?_⟩) fun _ _ => trivial
  obtain ⟨-, -, hkeys⟩ := h
  rcases hkeys row.key with ⟨row', hrow', hkey, text, htext, hlookup⟩ | ⟨hnone, -⟩
  · obtain rfl := eq_of_listByEnv hrow' hrow hkey
    exact ⟨text, text, htext, hlookup, fun _ => rfl⟩
  · exact absurd rfl (hnone row hrow)

/-- A value without references is expanded to itself. -/
theorem expand_plain (fuel : ℕ) (key value : Str) (visited : List RefPos) :
    wp ((rc.callees fuel).expand envID key value visited) s
      (fun out s' => s.Extends s' ∧ (findReferences value = [] → out = value))
      (fun _ => True) := by
  cases fuel with
  | zero => trivial
  | succ fuel =>
    by_cases hrefs : findReferences value = []
    · change wp (rc.expandBody (rc.callees fuel) envID key value visited) s _ _
      unfold expandBody
      simp only [hrefs, if_true, wp_pure]
      exact ⟨.refl s, fun _ => trivial⟩
    · refine wp_mono ((rc.callees_framed (fuel + 1)).expand envID key value visited s)
        (fun _ _ h => ⟨h, fun h => absurd h hrefs⟩) fun _ _ => trivial

/-- The loop over a map keeps the rows in it. -/
theorem expandEntry_ownRows (fuel : ℕ) {r : ℕ} (hr : r < s.maps.length) (k : Str)
    (h : OwnRows rc.opens rows (s.maps.getD r ∅)) :
    wp (expandEntry (rc.callees fuel) envID r k) s
      (fun _ s' => r < s'.maps.length ∧ OwnRows rc.opens rows (s'.maps.getD r ∅))
      (fun _ => True) := by
  unfold expandEntry
  simp only [wp_bind, wp_deref]
  cases hk : (s.maps.getD r ∅).lookup k with
  | none => exact ⟨hr, h⟩
  | some v =>
    simp only [wp_bind, wp_write]
    refine wp_mono (rc.expand_plain fuel k v.value []) (fun out s' hs => ?_) fun _ _ => trivial
    obtain ⟨hext, hplain⟩ := hs
    have hr' : r < s'.maps.length := Nat.lt_of_lt_of_le hr hext.length_le
    refine ⟨by rwa [List.length_set], fun row hrow => ?_⟩
    rw [List.getD_eq_getElem?_getD, List.getElem?_set_self hr', Option.getD_some,
      hext.getD_maps hr]
    obtain ⟨text, value, htext, hlookup, hvalue⟩ := h row hrow
    by_cases hkey : row.key = k
    · rw [hkey, hk] at hlookup
      cases hlookup
      refine ⟨text, out, htext, ?_, fun hrefs => ?_⟩
      · rw [hkey, AList.lookup_insert]
      · have hsame : value = text := hvalue hrefs
        rw [hsame] at hplain
        exact hplain hrefs
    · refine ⟨text, value, htext, ?_, hvalue⟩
      rw [AList.lookup_insert_ne hkey, hlookup]

/-- The snapshot that a call starts with has the rows of one state. -/
theorem snapshot_ownRows (fuel : ℕ) (start : Int) :
    wp ((rc.callees fuel).snapshot start []) .initial
      (fun r s' => ∃ n, OwnRows rc.opens (SecretRepo.listByEnv start (rc.dbs n))
        (s'.maps.getD r ∅)) (fun _ => True) := by
  cases fuel with
  | zero => trivial
  | succ fuel =>
    change wp (rc.snapshotBody (rc.callees fuel) start []) .initial _ _
    unfold snapshotBody
    simp only [wp_bind, wp_get]
    have hnone : ResolveCtx.initial.envCache.lookup start = none := rfl
    simp only [hnone, List.not_mem_nil, if_false, wp_bind, wp_query]
    cases EnvRepo.byID start (rc.dbs ResolveCtx.initial.queries) with
    | error e => simp only [wp_fail]
    | ok env =>
      simp only [wp_bind, wp_query, wp_alloc, wp_modify, wp_get, wp_pure]
      refine wp_mono (rc.inherited_frame (rc.callees_framed fuel) env _ _) (fun base s₁ _ => ?_)
        fun _ _ => trivial
      refine wp_mono (rc.overlay_ownRows base) (fun merged s₂ h => ?_) fun _ _ => trivial
      obtain ⟨rfl, hrows⟩ := h
      refine wp_mono (wp_foldlM (fun _ _ s' => s₁.maps.length < s'.maps.length ∧
        OwnRows rc.opens (SecretRepo.listByEnv start (rc.dbs s₁.queries))
          (s'.maps.getD s₁.maps.length ∅))
        (fun k _ _ s' h => rc.expandEntry_ownRows fuel h.1 k h.2) _ _ _ ⟨?_, ?_⟩)
        (fun _ _ h => ⟨s₁.queries, h.2⟩) fun _ _ => trivial
      · simp
      · simpa [List.getD_eq_getElem?_getD] using hrows

/-- What a call returns has the rows of one state that it met. -/
theorem resolve_ownRows {fuel : ℕ} {start : Int} {snap : Snapshot}
    (h : rc.resolve fuel start = .ok snap) :
    ∃ n, OwnRows rc.opens (SecretRepo.listByEnv start (rc.dbs n)) snap := by
  unfold resolve at h
  split at h
  · rename_i r s' hr
    cases h
    exact wp_ok (rc.snapshot_ownRows fuel start) hr
  · cases h

end Call

end Comax.Secret
