import Comax.Store.Migrate

/-!
# Tokens with admin rights

Three mechanisms each keep a deployment from losing its last admin: the backfill of a
migration, the conditional insert of the bootstrap, and the check of a revocation. They
count different things. What holds of the tokens throughout is that there is a live
admin as soon as there is an admin, and that no token is revoked before that.
-/

namespace Comax.Store

open Comax.Core

/-- Some token is an admin, revoked or not. -/
def HasAdmin (ts : Table ServiceToken) : Prop := ∃ t ∈ ts.rows, t.isAdmin = true

/-- Some token is an admin and not revoked. -/
def LiveAdmin (ts : Table ServiceToken) : Prop :=
  ∃ t ∈ ts.rows, t.isAdmin = true ∧ t.revokedAt = none

instance (ts : Table ServiceToken) : Decidable (LiveAdmin ts) :=
  inferInstanceAs (Decidable (∃ t ∈ ts.rows, _))

/-- What holds of the tokens at any time. -/
structure Sound (ts : Table ServiceToken) : Prop where
  live : HasAdmin ts → LiveAdmin ts
  unrevoked : ¬HasAdmin ts → ∀ t ∈ ts.rows, t.revokedAt = none

/-- What a completed migration leaves behind. -/
def Ready (ts : Table ServiceToken) : Prop := ts.rows = [] ∨ HasAdmin ts

/-- What the guards of the token handlers look at. -/
def standing (t : ServiceToken) : Int × Bool × Option Int := (t.id, t.isAdmin, t.revokedAt)

/-- What one action of a request may do to the tokens. -/
inductive TokenStep (ts ts' : Table ServiceToken) : Prop
  | kept (h : ts'.rows.map standing = ts.rows.map standing)
  | bootstrapped {t : ServiceToken} (hempty : ts.rows = []) (hadmin : t.isAdmin = true)
      (hlive : t.revokedAt = none) (h : ts'.rows = [t])
  | created {t : ServiceToken} (hadmin : HasAdmin ts) (hplain : t.isAdmin = false)
      (h : ts'.rows = ts.rows ++ [t])
  | revoked {id now : Int} (hadmin : HasAdmin ts)
      (hguard : ∀ t ∈ ts.rows, t.id = id → t.isAdmin = true → t.revokedAt = none →
        1 < (ts.rows.filter fun t => t.isAdmin && t.revokedAt = none).length)
      (h : ts'.rows = ts.rows.map fun t =>
        if t.id = id && t.revokedAt = none then { t with revokedAt := some now } else t)

/-- No token gained rights, and no admin was added to other tokens. -/
structure NoEscalation (ts ts' : Table ServiceToken) : Prop where
  kept : ∀ t ∈ ts.rows, ∀ t' ∈ ts'.rows, t'.id = t.id → t'.isAdmin = true → t.isAdmin = true
  added : ts.rows ≠ [] → ∀ t' ∈ ts'.rows, t'.isAdmin = true → ∃ t ∈ ts.rows, t.id = t'.id

variable {ts ts' : Table ServiceToken}

/-- A live admin is an admin. -/
theorem LiveAdmin.hasAdmin (h : LiveAdmin ts) : HasAdmin ts := by
  obtain ⟨t, ht, hadmin, -⟩ := h
  exact ⟨t, ht, hadmin⟩

/-- A live admin is all that is asked. -/
theorem LiveAdmin.sound (h : LiveAdmin ts) : Sound ts :=
  ⟨fun _ => h, fun hno => absurd h.hasAdmin hno⟩

/-- An empty table is sound. -/
theorem sound_of_nil (h : ts.rows = []) : Sound ts := by
  refine ⟨?_, ?_⟩
  · rintro ⟨t, ht, -⟩
    rw [h] at ht
    cases ht
  · intro _ t ht
    rw [h] at ht
    cases ht

/-- Tables that agree on what the guards look at. -/
theorem exists_standing (h : ts'.rows.map standing = ts.rows.map standing) {t : ServiceToken}
    (ht : t ∈ ts.rows) :
    ∃ t' ∈ ts'.rows, t'.id = t.id ∧ t'.isAdmin = t.isAdmin ∧ t'.revokedAt = t.revokedAt := by
  have hmem : standing t ∈ ts'.rows.map standing := by
    rw [h]
    exact List.mem_map_of_mem ht
  obtain ⟨t', ht', hsame⟩ := List.mem_map.mp hmem
  simp only [standing, Prod.mk.injEq] at hsame
  exact ⟨t', ht', hsame⟩

/-- When more than one admin is live, one is left beside any given one. -/
theorem exists_other_admin {t : ServiceToken} (ht : t ∈ ts.rows)
    (hcount : 1 < (ts.rows.filter fun t => t.isAdmin && t.revokedAt = none).length) :
    ∃ u ∈ ts.rows, u.id ≠ t.id ∧ u.isAdmin = true ∧ u.revokedAt = none := by
  by_contra hno
  simp only [not_exists, not_and] at hno
  have hsame : ∀ u ∈ ts.rows.filter fun t => t.isAdmin && t.revokedAt = none, u = t := by
    intro u hu
    obtain ⟨hmem, hlive⟩ := List.mem_filter.mp hu
    simp only [Bool.and_eq_true, decide_eq_true_eq] at hlive
    refine ts.eq_of_id_eq hmem ht ?_
    by_contra hid
    exact hno u hmem hid hlive.1 hlive.2
  have hnodup : (ts.rows.filter fun t => t.isAdmin && t.revokedAt = none).Nodup :=
    (List.Nodup.of_map _ ts.nodup_id).filter _
  rw [List.eq_replicate_of_mem hsame, List.nodup_replicate] at hnodup
  omega

namespace TokenStep

/-- An admin stays an admin. -/
theorem hasAdmin (h : TokenStep ts ts') (hadmin : HasAdmin ts) : HasAdmin ts' := by
  obtain ⟨t, ht, hadmin⟩ := hadmin
  cases h with
  | kept h =>
    obtain ⟨t', ht', -, hrights, -⟩ := exists_standing h ht
    exact ⟨t', ht', hrights.trans hadmin⟩
  | bootstrapped hempty _ _ _ =>
    rw [hempty] at ht
    cases ht
  | created _ _ h => exact ⟨t, by rw [h]; exact List.mem_append_left _ ht, hadmin⟩
  | revoked _ _ h =>
    refine ⟨_, by rw [h]; exact List.mem_map_of_mem ht, ?_⟩
    split <;> exact hadmin

/-- An admin was one before, unless there was no token at all. -/
theorem admin_before (h : TokenStep ts ts') {t' : ServiceToken} (ht' : t' ∈ ts'.rows)
    (hadmin' : t'.isAdmin = true) :
    ts.rows = [] ∨ ∃ t ∈ ts.rows, t.id = t'.id ∧ t.isAdmin = true := by
  cases h with
  | kept h =>
    obtain ⟨t, ht, hid, hrights, -⟩ := exists_standing h.symm ht'
    exact .inr ⟨t, ht, hid, hrights.trans hadmin'⟩
  | bootstrapped hempty _ _ _ => exact .inl hempty
  | created _ hplain h =>
    rw [h] at ht'
    rcases List.mem_append.mp ht' with ht' | ht'
    · exact .inr ⟨t', ht', rfl, hadmin'⟩
    · rw [List.mem_singleton.mp ht', hplain] at hadmin'
      cases hadmin'
  | revoked _ _ h =>
    rw [h] at ht'
    obtain ⟨t, ht, rfl⟩ := List.mem_map.mp ht'
    refine .inr ⟨t, ht, ?_, ?_⟩
    · split <;> rfl
    · split at hadmin' <;> exact hadmin'

/-- The action of a request escalates nothing. -/
theorem noEscalation (h : TokenStep ts ts') : NoEscalation ts ts' := by
  constructor
  · intro t ht t' ht' hid hadmin'
    rcases h.admin_before ht' hadmin' with hempty | ⟨u, hu, huid, hadmin⟩
    · rw [hempty] at ht
      cases ht
    · rw [ts.eq_of_id_eq ht hu (hid.symm.trans huid.symm)]
      exact hadmin
  · intro hne t' ht' hadmin'
    rcases h.admin_before ht' hadmin' with hempty | ⟨u, hu, huid, -⟩
    · exact absurd hempty hne
    · exact ⟨u, hu, huid⟩

/-- A live admin is left. -/
theorem liveAdmin (h : TokenStep ts ts') (hlive : LiveAdmin ts) : LiveAdmin ts' := by
  obtain ⟨t, ht, hadmin, hlive⟩ := hlive
  cases h with
  | kept h =>
    obtain ⟨t', ht', -, hrights, hrevoked⟩ := exists_standing h ht
    exact ⟨t', ht', hrights.trans hadmin, hrevoked.trans hlive⟩
  | bootstrapped hempty _ _ _ =>
    rw [hempty] at ht
    cases ht
  | created _ _ h => exact ⟨t, by rw [h]; exact List.mem_append_left _ ht, hadmin, hlive⟩
  | @revoked id _ _ hguard h =>
    have hother : ∃ u ∈ ts.rows, u.id ≠ id ∧ u.isAdmin = true ∧ u.revokedAt = none := by
      by_cases hid : t.id = id
      · rw [← hid]
        exact exists_other_admin ht (hguard t ht hid hadmin hlive)
      · exact ⟨t, ht, hid, hadmin, hlive⟩
    obtain ⟨u, hu, hid, hadmin, hlive⟩ := hother
    refine ⟨u, ?_, hadmin, hlive⟩
    rw [h]
    exact List.mem_map.mpr ⟨u, hu, by simp [hid]⟩

/-- What holds at any time holds after the action. -/
theorem sound (h : TokenStep ts ts') (hs : Sound ts) : Sound ts' := by
  by_cases hadmin : HasAdmin ts
  · exact (h.liveAdmin (hs.live hadmin)).sound
  · cases h with
    | kept h =>
      have hno : ¬HasAdmin ts' := by
        rintro ⟨t', ht', hadmin'⟩
        obtain ⟨t, ht, -, hrights, -⟩ := exists_standing h.symm ht'
        exact hadmin ⟨t, ht, hrights.trans hadmin'⟩
      refine ⟨fun hadmin' => absurd hadmin' hno, fun _ t' ht' => ?_⟩
      obtain ⟨t, ht, -, -, hrevoked⟩ := exists_standing h.symm ht'
      exact hrevoked.symm.trans (hs.unrevoked hadmin t ht)
    | bootstrapped _ hadmin' hlive h =>
      exact LiveAdmin.sound ⟨_, by rw [h]; exact List.mem_singleton_self _, hadmin', hlive⟩
    | created hadmin' _ _ => exact absurd hadmin' hadmin
    | revoked hadmin' _ _ => exact absurd hadmin' hadmin

/-- What a migration leaves behind stays. -/
theorem ready (h : TokenStep ts ts') (hready : Ready ts) : Ready ts' := by
  rcases hready with hempty | hadmin
  · cases h with
    | kept h =>
      rw [hempty, List.map_nil, List.map_eq_nil_iff] at h
      exact .inl h
    | bootstrapped _ hadmin _ h =>
      exact .inr ⟨_, by rw [h]; exact List.mem_singleton_self _, hadmin⟩
    | created hadmin hplain h => exact .inr ((created hadmin hplain h).hasAdmin hadmin)
    | revoked hadmin hguard h => exact .inr ((revoked hadmin hguard h).hasAdmin hadmin)
  · exact .inr (h.hasAdmin hadmin)

end TokenStep

/-! ## The backfill -/

/-- The backfill has nothing to do once there is an admin. -/
theorem promoteFirst_of_hasAdmin (h : HasAdmin ts) : promoteFirst ts = ts := by
  have hany : ts.rows.any (·.isAdmin) = true := by
    obtain ⟨t, ht, hadmin⟩ := h
    exact List.any_eq_true.mpr ⟨t, ht, hadmin⟩
  exact Table.ext (by simp [promoteFirst, hany])

/-- The backfill of an empty table does nothing. -/
theorem promoteFirst_of_nil (h : ts.rows = []) : promoteFirst ts = ts :=
  Table.ext (by simp [promoteFirst, h])

/-- A token that the backfill promotes where there is no admin. -/
theorem exists_promoted (hne : ts.rows ≠ []) (hadmin : ¬HasAdmin ts) :
    ∃ t ∈ ts.rows, { t with isAdmin := true } ∈ (promoteFirst ts).rows := by
  have hany : ts.rows.any (·.isAdmin) = false := by
    refine List.any_eq_false.mpr fun t ht hadm => ?_
    exact hadmin ⟨t, ht, hadm⟩
  cases hmin : (ts.rows.map (·.id)).min? with
  | none =>
    rw [List.min?_eq_none_iff, List.map_eq_nil_iff] at hmin
    exact absurd hmin hne
  | some m =>
    obtain ⟨t, ht, hid⟩ := List.mem_map.mp (List.min?_mem hmin)
    refine ⟨t, ht, List.mem_map.mpr ⟨t, ht, ?_⟩⟩
    simp [hmin, hany, hid]

/-- What holds at any time holds after the backfill. -/
theorem sound_promoteFirst (h : Sound ts) : Sound (promoteFirst ts) := by
  by_cases hadmin : HasAdmin ts
  · rw [promoteFirst_of_hasAdmin hadmin]
    exact h
  · by_cases hempty : ts.rows = []
    · rw [promoteFirst_of_nil hempty]
      exact h
    · obtain ⟨t, ht, hpromoted⟩ := exists_promoted hempty hadmin
      exact LiveAdmin.sound ⟨_, hpromoted, rfl, h.unrevoked hadmin t ht⟩

/-- A completed backfill leaves no table of tokens without an admin. -/
theorem ready_promoteFirst (ts : Table ServiceToken) : Ready (promoteFirst ts) := by
  by_cases hadmin : HasAdmin ts
  · rw [promoteFirst_of_hasAdmin hadmin]
    exact .inr hadmin
  · by_cases hempty : ts.rows = []
    · rw [promoteFirst_of_nil hempty]
      exact .inl hempty
    · obtain ⟨t, -, hpromoted⟩ := exists_promoted hempty hadmin
      exact .inr ⟨_, hpromoted, rfl⟩

end Comax.Store
