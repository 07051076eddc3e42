import Comax.Server.Secrets

/-!
# The diff of two environments

What the three lists of a diff say of each key, and the diff as a program: its two
resolutions meet the database one after the other, and other requests may commit in
between. The keys of either environment itself still come from one state each.
-/

namespace Comax.Server

open Comax.Core Comax.Store Comax.Secret

/-! ## Key by key -/

namespace Reader

variable {lhs rhs : Snapshot} {k : Str} {c : EnvDiffChanged}

theorem mem_onlyIn : k ∈ onlyIn lhs rhs ↔ k ∈ lhs ∧ k ∉ rhs := by
  rw [onlyIn, List.mem_insertionSort, List.mem_filter, Option.isNone_iff_eq_none,
    AList.lookup_eq_none, ← AList.mem_keys]

theorem mem_changed : c ∈ changed lhs rhs ↔ ∃ l r, lhs.lookup c.key = some l ∧
    rhs.lookup c.key = some r ∧ r.value ≠ l.value ∧ c = ⟨c.key, l.version, r.version⟩ := by
  rw [changed, List.mem_insertionSort, List.mem_filterMap]
  constructor
  · rintro ⟨⟨k, l⟩, hl, hc⟩
    obtain ⟨r, hr, hc⟩ := Option.bind_eq_some_iff.mp hc
    split at hc
    · rename_i hne
      cases hc
      exact ⟨l, r, AList.mem_lookup_iff.mpr hl, hr, hne, rfl⟩
    · cases hc
  · rintro ⟨l, r, hl, hr, hne, hc⟩
    refine ⟨⟨c.key, l⟩, AList.mem_lookup_iff.mp hl, Option.bind_eq_some_iff.mpr ⟨r, hr, ?_⟩⟩
    rw [if_pos hne, ← hc]

/-- One list of keys is strictly sorted. -/
theorem onlyIn_sorted (lhs rhs : Snapshot) : (onlyIn lhs rhs).Pairwise (· < ·) := by
  refine pairwise_lt_insertionSort id ?_
  rw [List.map_id]
  exact lhs.keys_nodup.filter _

/-- So is the list of the keys with two versions. -/
theorem changed_sorted (lhs rhs : Snapshot) :
    (changed lhs rhs).Pairwise fun a b => a.key < b.key := by
  refine pairwise_lt_insertionSort EnvDiffChanged.key ?_
  refine List.Nodup.sublist ?_ lhs.keys_nodup
  rw [AList.keys, List.keys]
  generalize lhs.entries = entries
  induction entries with
  | nil => exact List.Sublist.refl _
  | cons l entries ih =>
    rw [List.filterMap_cons]
    cases hc : (rhs.lookup l.1).bind fun r => if r.value ≠ l.2.value then
        some (EnvDiffChanged.mk l.1 l.2.version r.version) else none with
    | none => exact ih.cons _
    | some c =>
      obtain ⟨r, -, hc⟩ := Option.bind_eq_some_iff.mp hc
      split at hc
      · cases hc
        exact ih.cons_cons _
      · cases hc

end Reader

/-! ## The program -/

/-- `handleDiffEnvs` -/
def handleDiffEnvs (srv : Server) (rq : Request) (fuel : ℕ) (order order' : MapOrder)
    (p e against : Str) : Handler EnvDiff := do
  let pe ← srv.resolveEnv p e
  check (srv.validateName "against" against)
  if against = pe.2.name then .exit (badRequest (ascii "against env must differ from path env"))
  else
    let env2 ← autocommitOr storeError (Tx.read fun _ => EnvRepo.byName pe.1.id against)
    let lhsSnap ← srv.resolve rq fuel order pe.1.id pe.2.id
    let rhsSnap ← srv.resolve rq fuel order' pe.1.id env2.id
    return ⟨pe.2.name, env2.name, Reader.onlyIn lhsSnap rhsSnap, Reader.onlyIn rhsSnap lhsSnap,
      Reader.changed lhsSnap rhsSnap⟩

/-- The lists of a diff are strictly sorted and have no key in common. -/
structure EnvDiff.Tidy (d : EnvDiff) : Prop where
  added : d.added.Pairwise (· < ·)
  removed : d.removed.Pairwise (· < ·)
  changed : d.changed.Pairwise fun a b => a.key < b.key
  apart : ∀ k ∈ d.added, k ∉ d.removed
  unchanged : ∀ c ∈ d.changed, c.key ∉ d.added ∧ c.key ∉ d.removed

/-- What a diff says of the live rows of two environments. -/
structure EnvDiff.Compares (opens : Str → Option Str) (rows rows' : List Secret) (d : EnvDiff) :
    Prop where
  lhs : ∀ row ∈ rows, row.key ∉ d.removed
  rhs : ∀ row ∈ rows', row.key ∉ d.added
  both : ∀ row ∈ rows, ∀ row' ∈ rows', row.key = row'.key →
    (∀ c ∈ d.changed, c.key = row.key → c = ⟨row.key, row.version, row'.version⟩) ∧
    ∃ text text', opens row.ciphertext = some text ∧ opens row'.ciphertext = some text' ∧
      (findReferences text = [] → findReferences text' = [] →
        (text ≠ text' ↔ ⟨row.key, row.version, row'.version⟩ ∈ d.changed))

/-- The diff of two snapshots is tidy. -/
theorem tidy_diff (lhsName rhsName : Str) (lhs rhs : Snapshot) :
    EnvDiff.Tidy ⟨lhsName, rhsName, Reader.onlyIn lhs rhs, Reader.onlyIn rhs lhs,
      Reader.changed lhs rhs⟩ where
  added := Reader.onlyIn_sorted lhs rhs
  removed := Reader.onlyIn_sorted rhs lhs
  changed := Reader.changed_sorted lhs rhs
  apart k hk hk' := (Reader.mem_onlyIn.mp hk).2 (Reader.mem_onlyIn.mp hk').1
  unchanged c hc := by
    obtain ⟨l, r, hl, hr, -, -⟩ := Reader.mem_changed.mp hc
    have hlhs : c.key ∈ lhs := AList.lookup_isSome.mp (by rw [hl]; rfl)
    have hrhs : c.key ∈ rhs := AList.lookup_isSome.mp (by rw [hr]; rfl)
    exact ⟨fun h => (Reader.mem_onlyIn.mp h).2 hrhs, fun h => (Reader.mem_onlyIn.mp h).2 hlhs⟩

/-- The diff of two snapshots compares the rows that they have as their own. -/
theorem compares_diff {opens : Str → Option Str} {rows rows' : List Secret} {lhs rhs : Snapshot}
    (h : OwnRows opens rows lhs) (h' : OwnRows opens rows' rhs) (lhsName rhsName : Str) :
    EnvDiff.Compares opens rows rows' ⟨lhsName, rhsName, Reader.onlyIn lhs rhs,
      Reader.onlyIn rhs lhs, Reader.changed lhs rhs⟩ where
  lhs row hrow hk := by
    obtain ⟨_, v, -, hv, -⟩ := h row hrow
    exact (Reader.mem_onlyIn.mp hk).2 (AList.lookup_isSome.mp (by rw [hv]; rfl))
  rhs row hrow hk := by
    obtain ⟨_, v, -, hv, -⟩ := h' row hrow
    exact (Reader.mem_onlyIn.mp hk).2 (AList.lookup_isSome.mp (by rw [hv]; rfl))
  both row hrow row' hrow' hkey := by
    obtain ⟨text, v, htext, hv, hplain⟩ := h row hrow
    obtain ⟨text', v', htext', hv', hplain'⟩ := h' row' hrow'
    rw [← hkey] at hv'
    refine ⟨fun c hc hck => ?_, text, text', htext, htext', fun hrefs hrefs' => ?_⟩
    · obtain ⟨l, r, hl, hr, -, hc⟩ := Reader.mem_changed.mp hc
      rw [hck, hv] at hl
      rw [hck, hv'] at hr
      cases hl
      cases hr
      rw [hc, hck]
    · constructor
      · intro hne
        refine Reader.mem_changed.mpr ⟨_, _, hv, hv', ?_, rfl⟩
        rw [show v = text from hplain hrefs, show v' = text' from hplain' hrefs']
        exact Ne.symm hne
      · intro hc
        obtain ⟨l, r, hl, hr, hne, -⟩ := Reader.mem_changed.mp hc
        rw [hv] at hl
        rw [hv'] at hr
        cases hl
        cases hr
        intro htexts
        exact hne ((hplain' hrefs').trans (htexts.symm.trans (hplain hrefs).symm))

/-- Whatever other requests commit between its queries: a diff is tidy, and it compares the live
rows of the one environment in a state that it met with those of the other in a state that it met
later. -/
theorem diff_own_rows (srv : Server) (rq : Request) (fuel : ℕ) (order order' : MapOrder)
    (p e against : Str) {xs : List (Moment × Database)} {d : EnvDiff}
    (h : (srv.handleDiffEnvs rq fuel order order' p e against).Ends xs d) :
    d.Tidy ∧ ∃ xp xe xa ys zs x y project env env2 master, xs = xp :: xe :: xa :: (ys ++ zs) ∧
      x ∈ ys ∧ y ∈ zs ∧ ProjectRepo.byName p xp.2 = .ok project ∧
      EnvRepo.byName project.id e xe.2 = .ok env ∧
      EnvRepo.byName project.id against xa.2 = .ok env2 ∧ rq.inputs.masterKey = some master ∧
      d.lhs = env.name ∧ d.rhs = env2.name ∧
      d.Compares (srv.gcm.open master) (SecretRepo.listByEnv env.id x.2)
        (SecretRepo.listByEnv env2.id y.2) := by
  obtain ⟨xs₁, ys, ⟨project, env⟩, rfl, henv, h₁⟩ := h.of_bind
  obtain ⟨xs₂, ys, _, rfl, hcheck, h₂⟩ := h₁.of_bind
  split at h₂
  · cases h₂
  obtain ⟨xs₃, ys, env2, rfl, hagainst, h₃⟩ := h₂.of_bind
  obtain ⟨xs₄, ys, lhs, rfl, hlhs, h₄⟩ := h₃.of_bind
  obtain ⟨xs₅, ys, rhs, rfl, hrhs, h₅⟩ := h₄.of_bind
  cases h₅
  obtain ⟨xp, xe, rfl, -, -, hproject, henv⟩ := ends_resolveEnv henv
  obtain ⟨rfl, -⟩ := ends_check hcheck
  obtain ⟨xa, rfl, henv2⟩ := ends_lookup hagainst
  obtain ⟨master, x, hmaster, hx, hrows⟩ := ends_resolve_ownRows hlhs
  obtain ⟨master', y, hmaster', hy, hrows'⟩ := ends_resolve_ownRows hrhs
  obtain rfl : master = master' := Option.some.inj (hmaster.symm.trans hmaster')
  exact ⟨tidy_diff _ _ lhs rhs, xp, xe, xa, xs₄, xs₅, x, y, project, env, env2, master, by simp, hx,
    hy, hproject, henv, henv2, hmaster, rfl, rfl, compares_diff hrows hrows' _ _⟩

/-- Two environments with a key in common and one that only the first has. -/
def comparedDatabase : Database :=
  { Database.empty with
    projects := ⟨[⟨1, ascii "p", 3, 3⟩], by decide⟩
    environments := ⟨[⟨1, 1, ascii "a", [], 0, 0⟩, ⟨2, 1, ascii "b", [], 0, 0⟩], by decide⟩
    secrets := ⟨[plainSecret 1 "K" "x", plainSecret 2 "L" "y",
      ⟨3, 2, ascii "K", Crypto.plainSealed (ascii "z"), 4, 0, 0, none⟩], by decide⟩ }

set_option maxRecDepth 4000 in
/-- Their diff. -/
theorem diff_own_rows_compared : ∃ xs d,
    (plainServer.handleDiffEnvs (bearerRequest .get [] noFields) 3 .plain .reversed (ascii "p")
      (ascii "a") (ascii "b")).Ends xs d ∧
    d = ⟨ascii "a", ascii "b", [ascii "L"], [], [⟨ascii "K", 1, 4⟩]⟩ ∧ d.Tidy := by
  have hrun : (((plainServer.handleDiffEnvs (bearerRequest .get [] noFields) 3 .plain .reversed
      (ascii "p") (ascii "a") (ascii "b")).resume
        (List.replicate 7 (.calm 20, comparedDatabase))).returned.any fun d =>
          decide (d = ⟨ascii "a", ascii "b", [ascii "L"], [], [⟨ascii "K", 1, 4⟩]⟩)) = true := by
    decide +kernel
  obtain ⟨xs, d, hends, -, htest⟩ := exists_ends hrun
  exact ⟨xs, d, hends, of_decide_eq_true htest,
    (diff_own_rows plainServer _ 3 .plain .reversed _ _ _ hends).1⟩

end Comax.Server
