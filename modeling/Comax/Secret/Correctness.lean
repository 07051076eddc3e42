import Comax.Secret.Invariant

/-!
# The resolver computes the recursive definition

The run lemma carries the invariant of half-expanded maps through `snapshot` and
`expand`, for every order of visit. When a run returns, the cached environments are
closed under inheritance and references, so the closure lacks nothing, and the
entry of a key is the value of the recursive definition if no value that the key
reads holds a reference. Where that goes for every value that is read twice, a
failure exhibits what the closure lacks.
-/

namespace Comax.Secret

open Comax.Core Comax.Store Relation

/-- Where values read twice hold no reference, an error of the source shows that the closure
lacks something. -/
def Source.Failing (w : Source) (start : Int) (e : Fault) : Prop :=
  w.RereadSafe start → e ≠ .outOfFuel → ¬ w.Resolvable start

/-- Callees that keep the invariant and compute the recursive definition. -/
structure Callees.Correct (callees : Callees) (w : Source) (start : Int) : Prop where
  snapshot : ∀ active envID visited s, w.Inv active s →
    (w.RereadSafe start → w.Member start envID) →
    (∀ p ∈ visited, TransGen w.Parent p envID) →
    wp (callees.snapshot envID visited) s
      (fun r s' => w.Inv active s' ∧ s'.envCache.lookup envID = some r) (w.Failing start)
  expand : ∀ (c : Prop) active envID key value visited s, w.Inv active s →
    (w.RereadSafe start → w.Member start envID) → (w.RereadSafe start → c) →
    (c → w.Safe (envID, key)) → w.Ready c s envID key value →
    (w.RereadSafe start → ∀ p ∈ visited, TransGen w.Edge (p.envID, p.key) (envID, key)) →
    wp (callees.expand envID key value visited) s
      (fun text s' => w.Inv active s' ∧ w.Settled c s' envID key text) (w.Failing start)

namespace Source

variable {w : Source} (order : MapOrder) {self : Callees} {start : Int} {active : Set Int}
  {s : ResolveCtx} {c : Prop}

/-- A name resolves to the environment it denotes, or to none. -/
theorem resolveEnvName_correct (name : Str) (h : w.Inv active s) :
    wp ((w.call order).resolveEnvName name) s (fun id s' => w.Inv active s' ∧ w.Named name id)
      (fun e => e ≠ .outOfFuel ∧ ∀ id, ¬ w.Named name id) := by
  unfold Call.resolveEnvName
  simp only [wp_bind, wp_get]
  cases hl : s.envByNameID.lookup name with
  | some id => exact ⟨h, h.names hl⟩
  | none =>
    simp only [wp_bind, wp_query]
    cases hn : EnvRepo.byName (w.call order).projectID name ((w.call order).dbs s.queries) with
    | error e =>
      refine ⟨Fault.noConfusion, ?_⟩
      rintro id ⟨env, henv, -⟩
      cases hn.symm.trans henv
    | ok env =>
      have hnamed : w.Named name env.id := ⟨env, hn, rfl⟩
      exact ⟨(h.queried _).named hnamed, hnamed⟩

/-- The inherited entries are those of the parent's cached map. -/
theorem inherited_correct (hc : self.Correct w start) {envID : Int}
    (hmem : w.RereadSafe start → w.Member start envID) {env : Environment}
    (henv : EnvRepo.byID envID w.db = .ok env) {visited : List Int}
    (hv : ∀ p ∈ visited, TransGen w.Parent p envID) (h : w.Inv active s) :
    wp ((w.call order).inherited self env (visited ++ [envID])) s
      (fun base s' => w.Inv active s' ∧ w.Base s' envID base) (w.Failing start) := by
  unfold Call.inherited
  by_cases hroot : env.inheritsFrom = []
  · simp only [hroot, if_true]
    have hno : ∀ parent, ¬ w.Parent envID parent := by
      rintro parent ⟨env', henv', hne, -⟩
      cases henv.symm.trans henv'
      exact hne hroot
    exact ⟨h, ⟨env, henv, fun hne => absurd hroot hne⟩,
      Acc.intro _ fun p hp => absurd hp (hno p), fun hp => absurd hp (hno _),
      fun hp => absurd hp (hno _), fun hl => (Option.some_ne_none _ hl.symm).elim⟩
  · simp only [hroot, if_false, wp_bind]
    refine wp_wrap (wp_mono (resolveEnvName_correct order env.inheritsFrom h) ?_ ?_)
    · rintro parentID s₁ ⟨h₁, hnamed⟩
      have hparent : w.Parent envID parentID := ⟨env, henv, hroot, hnamed⟩
      have hchain : ∀ p ∈ visited ++ [envID], TransGen w.Parent p parentID := by
        intro p hp
        rcases List.mem_append.mp hp with hp | hp
        · exact (hv p hp).tail hparent
        · obtain rfl := List.mem_singleton.mp hp
          exact .single hparent
      refine wp_mono (hc.snapshot active parentID _ s₁ h₁
        (fun hsafe => (hmem hsafe).parent hparent) hchain) ?_
        fun _ he => he
      rintro r s₂ ⟨h₂, hr⟩
      have hfaith := h₂.faithful hr
      have honly : ∀ {p}, w.Parent envID p → p = parentID := fun hp => hp.unique hparent
      refine ⟨h₂, ⟨env, henv, fun _ => ⟨parentID, hnamed⟩⟩, Acc.intro _ fun p hp => ?_,
        fun hp => ?_, fun hp ho => ?_, fun hl => ?_⟩
      · rw [honly hp]
        exact hfaith.chain
      · rw [honly hp]
        exact ⟨r, hr⟩
      · rw [honly hp] at ho
        exact hfaith.complete ho
      · exact ⟨parentID, hparent, hfaith.entries hl⟩
    · rintro (_ | e) ⟨he, hno⟩
      · exact absurd rfl he
      · intro hsafe _ hres
        obtain ⟨p, hp⟩ := hres.parents (hmem hsafe) henv hroot
        exact hno p hp

/-- The overlay replaces the inherited entry of every key that has a row of its own. -/
theorem overlay_correct (envID : Int) (base : Snapshot) (secrets : List Secret) :
    wp (secrets.foldlM ((w.call order).overlayOne envID) base) s
      (fun merged s' => s' = s ∧ (∀ row ∈ secrets, ∃ text, w.opens row.ciphertext = some text) ∧
        ∀ key, (∃ row ∈ secrets, row.key = key ∧ ∃ text, w.opens row.ciphertext = some text ∧
          merged.lookup key = some ⟨row.id, text, row.version, row.updatedAt⟩) ∨
          ((∀ row ∈ secrets, row.key ≠ key) ∧ merged.lookup key = base.lookup key))
      (fun e => e ≠ .outOfFuel ∧ ∃ row ∈ secrets, w.opens row.ciphertext = none) := by
  refine wp_mono (wp_foldlM (fun rest m s' => s' = s ∧ (∀ row ∈ rest, row ∈ secrets) ∧
    (∀ row ∈ secrets, row ∈ rest ∨ ∃ text, w.opens row.ciphertext = some text) ∧
    ∀ key, (∃ row ∈ secrets, row.key = key ∧ ∃ text, w.opens row.ciphertext = some text ∧
      m.lookup key = some ⟨row.id, text, row.version, row.updatedAt⟩) ∨
      ((∀ row ∈ secrets, row ∈ rest ∨ row.key ≠ key) ∧ m.lookup key = base.lookup key)) ?_
    secrets base s ⟨rfl, fun _ h => h, fun _ h => .inl h, fun _ => .inr ⟨fun _ h => .inl h, rfl⟩⟩)
    ?_ fun _ he => he
  · rintro x rest m s' ⟨rfl, hsub, hopen, hkeys⟩
    unfold Call.overlayOne
    have hx := hsub x List.mem_cons_self
    cases ho : (w.call order).opens x.ciphertext with
    | none => exact ⟨Fault.noConfusion, x, hx, ho⟩
    | some text =>
      refine ⟨rfl, fun row hrow => hsub row (List.mem_cons_of_mem x hrow), fun row hrow => ?_,
        fun key => ?_⟩
      · rcases hopen row hrow with hmem | htext
        · rcases List.mem_cons.mp hmem with rfl | hmem
          · exact .inr ⟨text, ho⟩
          · exact .inl hmem
        · exact .inr htext
      · by_cases hk : key = x.key
        · subst hk
          exact .inl ⟨x, hx, rfl, text, ho, AList.lookup_insert _⟩
        · rw [AList.lookup_insert_ne hk]
          refine (hkeys key).imp_right fun ⟨hrows, hl⟩ => ⟨fun row hrow => ?_, hl⟩
          rcases hrows row hrow with hmem | hne
          · rcases List.mem_cons.mp hmem with rfl | hmem
            · exact .inr (Ne.symm hk)
            · exact .inl hmem
          · exact .inr hne
  · rintro merged s' ⟨rfl, -, hopen, hkeys⟩
    refine ⟨rfl, fun row hrow => (hopen row hrow).resolve_left List.not_mem_nil, fun key => ?_⟩
    exact (hkeys key).imp_right fun ⟨hrows, hl⟩ =>
      ⟨fun row hrow => (hrows row hrow).resolve_left List.not_mem_nil, hl⟩

/-- The overlaid map is faithful, and each of its entries can be expanded. -/
theorem faithful_overlay {envID : Int} {base merged : Snapshot} (hbase : w.Base s envID base)
    (hopen : ∀ row ∈ SecretRepo.listByEnv envID w.db, ∃ text, w.opens row.ciphertext = some text)
    (hkeys : ∀ key, (∃ row ∈ SecretRepo.listByEnv envID w.db, row.key = key ∧
        ∃ text, w.opens row.ciphertext = some text ∧
          merged.lookup key = some ⟨row.id, text, row.version, row.updatedAt⟩) ∨
        ((∀ row ∈ SecretRepo.listByEnv envID w.db, row.key ≠ key) ∧
          merged.lookup key = base.lookup key)) :
    w.Faithful s envID merged ∧ ∀ {key v}, merged.lookup key = some v →
      w.Ready (w.Safe (envID, key)) s envID key v.value := by
  have hentry : ∀ {key v}, merged.lookup key = some v →
      w.Describes envID key v ∧ w.Ready (w.Safe (envID, key)) s envID key v.value := by
    intro key v hv
    rcases hkeys key with ⟨row, hrow, hk, text, ht, hl⟩ | ⟨hnone, hl⟩
    · have hown : w.Overlay envID key row := .own ⟨hrow, hk⟩
      rw [hl] at hv
      cases hv
      exact ⟨⟨row, hown, rfl⟩, .inl ⟨row, hown, ht⟩⟩
    · have hno : ∀ row, ¬ w.Own envID key row := fun row hrow => hnone row hrow.1 hrow.2
      obtain ⟨p, hp, ⟨row, hrow, hmeta⟩, hvalue⟩ := hbase.entries (hl ▸ hv)
      refine ⟨⟨row, .inherited hno hp hrow, hmeta⟩, ?_⟩
      rcases hvalue with hraw | hset
      · exact .inl ((raw_inherited_iff hno hp).mpr hraw)
      · have hreads : w.Reads (envID, key) (p, key) := .inr ⟨hp, rfl, hno⟩
        refine .inr ⟨⟨hset.grounded.inherited hno hp,
          fun hn => hset.cached ((edge_inherited_iff hno hp).mp hn), fun hsafe => ?_⟩,
          fun hsafe => hsafe.plain hreads (hset.value (hsafe.of_reads hreads))⟩
        exact (value_inherited_iff hno hp).mpr (hset.value (hsafe.of_reads hreads))
  refine ⟨⟨hbase.linked, hbase.chain, hbase.parent, fun hrow => hopen _ hrow, fun ho => ?_,
    fun hv => ⟨(hentry hv).1, (hentry hv).2.imp_right And.left⟩⟩, fun hv => (hentry hv).2⟩
  rename_i key row
  rcases hkeys key with ⟨row', -, -, text, -, hl⟩ | ⟨hnone, hl⟩
  · exact AList.lookup_isSome.mp (by rw [hl]; rfl)
  · have hno : ∀ row, ¬ w.Own envID key row := fun row hrow => hnone row hrow.1 hrow.2
    cases ho with
    | own hown => exact absurd hown (hno _)
    | inherited _ hp ho =>
      have hin := hbase.complete hp ho
      rw [← AList.lookup_isSome, hl]
      exact AList.lookup_isSome.mpr hin

/-- The entries of a map in the middle of its loop: the visited ones are settled. -/
def Partway (w : Source) (s : ResolveCtx) (envID : Int) (rest : List Str) (m : Snapshot) : Prop :=
  ∀ {key v}, m.lookup key = some v →
    if key ∈ rest then w.Ready (w.Safe (envID, key)) s envID key v.value
    else w.Settled (w.Safe (envID, key)) s envID key v.value

/-- The loop starts on a map whose entries can be expanded. -/
theorem partway_of_ready {s' : ResolveCtx} {envID : Int} {r : ℕ} {merged : Snapshot}
    {keys : List Str}
    (hready : ∀ {key v}, merged.lookup key = some v →
      w.Ready (w.Safe (envID, key)) s envID key v.value)
    (hkeys : keys.Perm merged.keys) (hmap : s'.maps.getD r ∅ = merged)
    (hcached : ∀ e, s.Cached e → s'.Cached e) :
    Partway w s' envID keys (s'.maps.getD r ∅) := by
  rw [hmap]
  intro key v hl
  have hin : key ∈ keys := hkeys.mem_iff.mpr (AList.lookup_isSome.mp (by rw [hl]; rfl))
  simp only [hin, if_true]
  exact (hready hl).mono hcached

/-- One entry of the loop is settled, and the others stay as they are. -/
theorem expandEntry_correct (hf : self.Framed) (hc : self.Correct w start) {envID : Int}
    (hmem : w.RereadSafe start → w.Member start envID) {r : ℕ}
    (hr : s.envCache.lookup envID = some r)
    {k : Str} {rest : List Str} (hk : k ∉ rest) (h : w.Inv active s)
    (hm : Partway w s envID (k :: rest) (s.maps.getD r ∅)) :
    wp (Call.expandEntry self envID r k) s
      (fun _ s' => w.Inv active s' ∧ s'.envCache.lookup envID = some r ∧
        Partway w s' envID rest (s'.maps.getD r ∅)) (w.Failing start) := by
  unfold Call.expandEntry
  simp only [wp_bind, wp_deref]
  cases hv : (s.maps.getD r ∅).lookup k with
  | none =>
    refine ⟨h, hr, fun {key v} hl => ?_⟩
    have hne : key ≠ k := by
      rintro rfl
      rw [hv] at hl
      cases hl
    simpa only [List.mem_cons, hne, false_or] using hm hl
  | some v =>
    simp only [wp_bind, wp_write]
    have hready : w.Ready (w.Safe (envID, k)) s envID k v.value := by
      simpa only [List.mem_cons_self, if_true] using hm hv
    refine wp_mono (wp_and (hc.expand (w.Safe (envID, k)) active envID k v.value [] s h hmem
      (fun hsafe => hsafe.safe (hmem hsafe)) id hready fun _ p hp => absurd hp List.not_mem_nil)
      (hf.expand envID k v.value [] s)) ?_ fun _ he => he.1
    rintro text s' ⟨⟨h', hset⟩, hext⟩
    have hr' := hext.cache hr
    have hmap : s'.maps.getD r ∅ = s.maps.getD r ∅ := hext.getD_maps (h.bound hr)
    have hmeta := ((h.faithful hr).entries hv).1
    have hdesc : w.Describes envID k { v with value := text } := by
      obtain ⟨row, hrow, hv⟩ := hmeta
      exact ⟨row, hrow, by rw [hv]⟩
    have hmono : ∀ e, s.Cached e → ResolveCtx.Cached { s' with
        maps := s'.maps.set r ((s'.maps.getD r ∅).insert k { v with value := text }) } e :=
      hext.cached_mono
    refine ⟨h'.written hr' hdesc hset, hr', fun {key v'} hl => ?_⟩
    change ((s'.maps.set r _).getD r ∅).lookup key = some v' at hl
    rw [List.getD_eq_getElem?_getD, List.getElem?_set_self (h'.bound hr'), Option.getD_some] at hl
    by_cases hkey : key = k
    · subst hkey
      rw [AList.lookup_insert] at hl
      cases hl
      simp only [hk, if_false]
      exact hset.of_cache rfl
    · rw [AList.lookup_insert_ne hkey, hmap] at hl
      have hold := hm hl
      simp only [List.mem_cons, hkey, false_or] at hold
      split at hold
      · rename_i hin
        simpa only [hin, if_true] using hold.mono hmono
      · rename_i hin
        simpa only [hin, if_false] using hold.mono hmono

/-- One more level of `snapshot` is correct. -/
theorem snapshotBody_correct (hf : self.Framed) (hc : self.Correct w start) {envID : Int}
    {visited : List Int} (h : w.Inv active s)
    (hmem : w.RereadSafe start → w.Member start envID)
    (hv : ∀ p ∈ visited, TransGen w.Parent p envID) :
    wp ((w.call order).snapshotBody self envID visited) s
      (fun r s' => w.Inv active s' ∧ s'.envCache.lookup envID = some r)
      (w.Failing start) := by
  unfold Call.snapshotBody
  simp only [wp_bind, wp_get]
  cases hcache : s.envCache.lookup envID with
  | some r => exact ⟨h, hcache⟩
  | none =>
    by_cases hvisited : envID ∈ visited
    · simp only [hvisited, if_true]
      exact fun hsafe _ hres => hres.chains (hmem hsafe) (hv envID hvisited)
    simp only [hvisited, if_false, wp_bind, wp_query]
    cases hid : EnvRepo.byID envID ((w.call order).dbs s.queries) with
    | error e =>
      intro hsafe _ hres
      obtain ⟨env, henv⟩ := (hmem hsafe).byID hres.stored
      cases hid.symm.trans henv
    | ok env =>
      simp only [wp_bind, wp_query, wp_alloc, wp_modify, wp_get, wp_pure]
      refine wp_mono (inherited_correct order hc hmem hid hv (h.queried _)) ?_ fun _ he => he
      rintro base s₁ ⟨h₁, hbase⟩
      refine wp_mono (overlay_correct order envID base _) ?_ ?_
      · rintro merged s₂ ⟨rfl, hopen, hkeys⟩
        obtain ⟨hfaith, hready⟩ := faithful_overlay hbase hopen hkeys
        have h₃ := (h₁.queried (s₁.queries + 1)).cached (hfaith.of_cache rfl)
        refine wp_mono (wp_foldlM (fun rest _ s' => w.Inv (insert envID active) s' ∧
          s'.envCache.lookup envID = some s₁.maps.length ∧ rest.Nodup ∧
          Partway w s' envID rest (s'.maps.getD s₁.maps.length ∅)) ?_ _ _ _
          ⟨h₃, AList.lookup_insert _, ?_, ?_⟩) ?_ fun _ he => he
        · rintro k rest _ s' ⟨h', hr', hnodup, hm⟩
          refine wp_mono (expandEntry_correct hf hc hmem hr' (List.nodup_cons.mp hnodup).1 h' hm) ?_
            fun _ he => he
          rintro _ s'' ⟨h'', hr'', hm''⟩
          exact ⟨h'', hr'', (List.nodup_cons.mp hnodup).2, hm''⟩
        · exact ((w.call order).order.perm _ _).nodup_iff.mpr merged.nodupKeys
        · refine partway_of_ready hready ((w.call order).order.perm _ _) ?_ ?_
          · simp [List.getD_eq_getElem?_getD]
          · rintro e ⟨r, hr⟩
            by_cases hne : e = envID
            · subst hne
              exact ⟨_, AList.lookup_insert _⟩
            · exact ⟨r, by rwa [AList.lookup_insert_ne hne]⟩
        · rintro _ s' ⟨h', hr', -, hm⟩
          exact ⟨h'.finished hr' fun hl => by
            simpa only [List.not_mem_nil, if_false] using hm hl, hr'⟩
      · rintro e ⟨_, row, hrow, hnone⟩ hsafe _ hres
        obtain ⟨text, htext⟩ := hres.ciphertexts (hmem hsafe) hrow
        cases hnone.symm.trans htext

/-- One reference is replaced by the value of its target. -/
theorem expandReference_correct (hf : self.Framed) (hc : self.Correct w start) {envID : Int}
    {key value : Str} (h : w.Inv active s) (hmem : w.RereadSafe start → w.Member start envID)
    (hsc : w.RereadSafe start → c) (hcs : c → w.Safe (envID, key) ∧ w.Raw envID key value)
    {visited : List RefPos}
    (hv : w.RereadSafe start → ∀ p ∈ visited, TransGen w.Edge (p.envID, p.key) (envID, key))
    {ref : Reference} (href : ref ∈ findReferences value) (out : Str) :
    wp ((w.call order).expandReference self (visited ++ [⟨envID, key⟩]) ref out) s
      (fun out' s' => w.Inv active s' ∧ ∃ target row text, w.Named ref.envName target ∧
        w.Overlay target ref.keyName row ∧ w.Settled c s' target ref.keyName text ∧
        s'.Cached target ∧ out' = out.take ref.start ++ text ++ out.drop ref.stop)
      (w.Failing start) := by
  unfold Call.expandReference
  simp only [wp_bind, wp_deref]
  refine wp_wrap (wp_mono (resolveEnvName_correct order ref.envName h) ?_ ?_)
  · rintro target s₁ ⟨h₁, hnamed⟩
    have hedge (hc : c) : w.Edge (envID, key) (target, ref.keyName) :=
      (hcs hc).2.edge href hnamed
    have htarget (hsafe : w.RereadSafe start) : w.Member start target :=
      (hmem hsafe).reference (hedge (hsc hsafe))
    have hreads (hc : c) : w.Safe (target, ref.keyName) :=
      (hcs hc).1.of_reads (.inl (hedge hc))
    refine wp_mono (hc.snapshot active target [] s₁ h₁ htarget
      fun p hp => absurd hp List.not_mem_nil) ?_ fun _ he => he
    rintro r s₂ ⟨h₂, hr⟩
    cases hl : (s₂.maps.getD r ∅).lookup ref.keyName with
    | none =>
      intro hsafe _ hres
      obtain ⟨target', row, hnamed', hrow⟩ := hres.references (hmem hsafe) (hcs (hsc hsafe)).2 href
      obtain rfl := hnamed.unique hnamed'
      have hin := AList.lookup_isSome.mpr ((h₂.faithful hr).complete hrow)
      rw [hl] at hin
      cases hin
    | some v =>
      simp only [wp_bind, wp_pure]
      obtain ⟨⟨row, hrow, -⟩, hentry⟩ := (h₂.faithful hr).entries hl
      have hready : w.Ready c s₂ target ref.keyName v.value := by
        refine hentry.imp_right fun hset => ⟨hset.weaken hreads, fun hc => ?_⟩
        exact (hcs hc).1.plain (.inl (hedge hc)) (hset.value (hreads hc))
      have hchain (hsafe : w.RereadSafe start) : ∀ p ∈ visited ++ [⟨envID, key⟩],
          TransGen w.Edge (p.envID, p.key) (target, ref.keyName) := by
        intro p hp
        rcases List.mem_append.mp hp with hp | hp
        · exact (hv hsafe p hp).tail (hedge (hsc hsafe))
        · obtain rfl := List.mem_singleton.mp hp
          exact .single (hedge (hsc hsafe))
      refine wp_mono (wp_and (hc.expand c active target ref.keyName v.value _ s₂ h₂ htarget hsc
        hreads hready hchain) (hf.expand target ref.keyName v.value _ s₂)) ?_ fun _ he => he.1
      rintro text s₃ ⟨⟨h₃, hset⟩, hext⟩
      exact ⟨h₃, target, row, text, hnamed, hrow, hset, ⟨r, hext.cache hr⟩, rfl⟩
  · rintro (_ | e) ⟨he, hno⟩
    · exact absurd rfl he
    · intro hsafe _ hres
      obtain ⟨target, row, hnamed, -⟩ := hres.references (hmem hsafe) (hcs (hsc hsafe)).2 href
      exact hno target hnamed

/-- What the splicing loop of `expand` knows of a raw value after the references `post`. -/
def Spliced (w : Source) (c : Prop) (value : Str) (s : ResolveCtx) (post : List Reference)
    (out : Str) : Prop :=
  (∀ ref ∈ post, ∃ target row text, w.Named ref.envName target ∧
    w.Overlay target ref.keyName row ∧ w.Settled c s target ref.keyName text ∧
    s.Cached target) ∧
  (c → out = spliceReferences post w.refText value)

/-- A raw value whose references are all spliced is settled. -/
theorem Spliced.settled {envID : Int} {key value out : Str} (hraw : w.Raw envID key value)
    (h : Spliced w c value s (findReferences value) out) : w.Settled c s envID key out := by
  refine ⟨hraw.grounded fun ref href => ?_, fun {n} hn => ?_, fun hc => ?_⟩
  · obtain ⟨target, row, text, hnamed, hrow, hset, -⟩ := h.1 ref href
    exact ⟨target, row, hnamed, hrow, hset.grounded⟩
  · obtain ⟨text, ref, href, hraw', hnamed, -⟩ := hn
    obtain rfl := hraw.unique hraw'
    obtain ⟨target, row, text, hnamed', -, -, hcached⟩ := h.1 ref href
    rwa [hnamed.unique hnamed']
  · rw [h.2 hc]
    refine hraw.value_splice fun ref href => ?_
    obtain ⟨target, row, text, hnamed, -, hset, -⟩ := h.1 ref href
    exact ⟨target, hnamed, refText_eq hnamed (hset.value hc) ▸ hset.value hc⟩

/-- One more level of `expand` is correct. -/
theorem expandBody_correct (hf : self.Framed) (hc : self.Correct w start) {envID : Int}
    {key value : Str} {visited : List RefPos} (h : w.Inv active s)
    (hmem : w.RereadSafe start → w.Member start envID) (hsc : w.RereadSafe start → c)
    (hcs : c → w.Safe (envID, key)) (hready : w.Ready c s envID key value)
    (hv : w.RereadSafe start → ∀ p ∈ visited, TransGen w.Edge (p.envID, p.key) (envID, key)) :
    wp ((w.call order).expandBody self envID key value visited) s
      (fun text s' => w.Inv active s' ∧ w.Settled c s' envID key text) (w.Failing start) := by
  unfold Call.expandBody
  by_cases hrefs : findReferences value = []
  · simp only [hrefs, if_true]
    refine ⟨h, ?_⟩
    rcases hready with hraw | ⟨hset, -⟩
    · refine Spliced.settled hraw ?_
      rw [hrefs]
      exact ⟨fun _ hmem => absurd hmem List.not_mem_nil, fun _ => rfl⟩
    · exact hset
  · have hraw (hc : c) : w.Raw envID key value :=
      hready.resolve_right fun hs => hrefs (hs.2 hc)
    by_cases hvisited : (⟨envID, key⟩ : RefPos) ∈ visited
    · simp only [hrefs, hvisited, if_false, if_true]
      exact fun hsafe _ hres => hres.acyclic (hmem hsafe) (hv hsafe _ hvisited)
    simp only [hrefs, hvisited, if_false]
    refine wp_mono (wp_foldrM (fun post out s' => w.Inv active s' ∧ s.Extends s' ∧
      Spliced w c value s' post out) _ ?_ _ _
      ⟨h, .refl s, fun _ hmem => absurd hmem List.not_mem_nil, fun _ => rfl⟩) ?_ fun _ he => he
    · rintro pre ref post out s' hsplit ⟨h', hs', hpost, hout⟩
      have href : ref ∈ findReferences value := by
        rw [hsplit]
        exact List.mem_append_right _ List.mem_cons_self
      refine wp_mono (wp_and (expandReference_correct order hf hc h'
        hmem hsc (fun hc => ⟨hcs hc, hraw hc⟩) hv href out)
        ((w.call order).expandReference_frame hf _ ref out s')) ?_ fun _ he => he.1
      rintro _ s'' ⟨⟨h'', target, row, text, hnamed, hrow, hset, hcached, rfl⟩, hext⟩
      refine ⟨h'', hs'.trans hext, fun ref' hmem' => ?_, fun hc => ?_⟩
      · rcases List.mem_cons.mp hmem' with rfl | hmem'
        · exact ⟨target, row, text, hnamed, hrow, hset, hcached⟩
        · obtain ⟨target, row, text, hnamed, hrow, hset, hcached⟩ := hpost ref' hmem'
          exact ⟨target, row, text, hnamed, hrow, hset.mono hext.cached_mono,
            hext.cached_mono target hcached⟩
      · rw [hout hc, ← refText_eq hnamed (hset.value hc)]
        rfl
    · rintro out s' ⟨h', hs', hspliced⟩
      refine ⟨h', ?_⟩
      rcases hready with hraw | ⟨hset, hnone⟩
      · exact hspliced.settled hraw
      · have hold := hset.mono hs'.cached_mono
        exact ⟨hold.grounded, hold.cached, fun hc => absurd (hnone hc) hrefs⟩

/-- The two functions are correct at every recursion depth. -/
theorem callees_correct (fuel : ℕ) : ((w.call order).callees fuel).Correct w start := by
  induction fuel with
  | zero =>
    exact ⟨fun _ _ _ _ _ _ _ _ he => absurd rfl he,
      fun _ _ _ _ _ _ _ _ _ _ _ _ _ _ he => absurd rfl he⟩
  | succ fuel ih =>
    have hf := (w.call order).callees_framed fuel
    exact ⟨fun _ _ _ _ h hmem hv => snapshotBody_correct order hf ih h hmem hv,
      fun _ _ _ _ _ _ _ h hmem hsc hcs hready hv =>
        expandBody_correct order hf ih h hmem hsc hcs hready hv⟩

/-- When no loop is going on, a key that has an overlaid row is settled. -/
theorem Inv.key_settled (h : w.Inv ∅ s) {envID : Int} (hs : s.Cached envID) {key : Str}
    {row : Secret} (hrow : w.Overlay envID key row) :
    ∃ text, w.Settled (w.Safe (envID, key)) s envID key text := by
  obtain ⟨r, hr⟩ := hs
  obtain ⟨v, hv⟩ := Option.isSome_iff_exists.mp
    (AList.lookup_isSome.mpr ((h.faithful hr).complete hrow))
  exact ⟨v.value, h.settled hr (Set.notMem_empty _) hv⟩

/-- When no loop is going on, the cached environments contain the closure of each of them. -/
theorem Inv.member_cached (h : w.Inv ∅ s) (hs : s.Cached start) {envID : Int}
    (hmem : w.Member start envID) : s.Cached envID := by
  induction hmem with
  | start => exact hs
  | parent _ hp ih =>
    obtain ⟨r, hr⟩ := ih
    exact (h.faithful hr).parent hp
  | reference _ he ih =>
    obtain ⟨text, ref, href, ⟨row, hrow, htext⟩, hn⟩ := he
    obtain ⟨_, hset⟩ := h.key_settled ih hrow
    exact hset.cached ⟨text, ref, href, ⟨row, hrow, htext⟩, hn⟩

/-- A finished run shows that the closure lacks nothing. -/
theorem Inv.resolvable (h : w.Inv ∅ s) (hs : s.Cached start) : w.Resolvable start := by
  have hcached {e} (hm : w.Member start e) : s.Cached e := h.member_cached hs hm
  refine ⟨?_, fun hm henv hne => ?_, fun hm => ?_, fun hm hraw href => ?_, fun hm hrow => ?_,
    fun hm hcycle => ?_⟩
  · obtain ⟨r, hr⟩ := hs
    obtain ⟨env, henv, -⟩ := (h.faithful hr).linked
    exact ⟨env, henv⟩
  · obtain ⟨r, hr⟩ := hcached hm
    obtain ⟨env', henv', hparent⟩ := (h.faithful hr).linked
    cases henv.symm.trans henv'
    exact hparent hne
  · obtain ⟨r, hr⟩ := hcached hm
    exact not_transGen_of_acc (h.faithful hr).chain
  · obtain ⟨row, hrow, htext⟩ := hraw
    obtain ⟨_, hset⟩ := h.key_settled (hcached hm) hrow
    exact hset.grounded.targets ⟨row, hrow, htext⟩ href
  · obtain ⟨r, hr⟩ := hcached hm
    exact (h.faithful hr).opened hrow
  · obtain ⟨n, hedge, -⟩ := TransGen.head'_iff.mp hcycle
    obtain ⟨text, ref, -, ⟨row, hrow, -⟩, -⟩ := hedge
    obtain ⟨_, hset⟩ := h.key_settled (hcached hm) hrow
    exact not_transGen_of_acc hset.grounded.acc hcycle

/-- When no loop is going on, an overlaid row of a cached environment opens. -/
theorem Inv.opens (h : w.Inv ∅ s) {envID : Int} (hs : s.Cached envID) {key : Str} {row : Secret}
    (hrow : w.Overlay envID key row) : ∃ text, w.opens row.ciphertext = some text := by
  induction hrow with
  | own hown =>
    obtain ⟨r, hr⟩ := hs
    exact (h.faithful hr).opened hown.1
  | inherited _ hp _ ih =>
    obtain ⟨r, hr⟩ := hs
    exact ih ((h.faithful hr).parent hp)

/-- When no loop is going on, an overlaid row of a cached environment has a value. -/
theorem Inv.valued (h : w.Inv ∅ s) {envID : Int} (hs : s.Cached envID) {key : Str} {row : Secret}
    (hrow : w.Overlay envID key row) : ∃ text, w.Value envID key text := by
  obtain ⟨_, hset⟩ := h.key_settled hs hrow
  have hall : ∀ n : Int × Str, Acc (fun n' n => w.Edge n n') n → s.Cached n.1 →
      (∃ row, w.Overlay n.1 n.2 row) → ∃ text, w.Value n.1 n.2 text := by
    intro n hacc
    induction hacc with
    | intro n _ ih =>
      rintro hcached ⟨row, hrow⟩
      obtain ⟨raw, htext⟩ := h.opens hcached hrow
      have hraw : w.Raw n.1 n.2 raw := ⟨row, hrow, htext⟩
      obtain ⟨_, hset⟩ := h.key_settled hcached hrow
      refine ⟨_, hraw.value_splice fun ref href => ?_⟩
      obtain ⟨target, row', hnamed, hrow'⟩ := hset.grounded.targets hraw href
      have hedge := hraw.edge href hnamed
      obtain ⟨text, hvalue⟩ := ih (target, ref.keyName) hedge (hset.cached hedge) ⟨row', hrow'⟩
      exact ⟨target, hnamed, refText_eq hnamed hvalue ▸ hvalue⟩
  exact hall (envID, key) hset.grounded.acc hs ⟨row, hrow⟩

/-- The entry of a key in a snapshot is the overlaid row with its value. -/
def Shows (w : Source) (envID : Int) (snapshot : Snapshot) (key : Str) : Prop :=
  ∀ v, snapshot.lookup key = some v ↔ ∃ row text, w.Overlay envID key row ∧
    w.Value envID key text ∧ v = ⟨row.id, text, row.version, row.updatedAt⟩

/-- The entries of a snapshot are the overlaid rows with their values. -/
def Represents (w : Source) (envID : Int) (snapshot : Snapshot) : Prop :=
  ∀ key, w.Shows envID snapshot key

/-- A finished map shows the value of a key, if the key reads no reference or its value holds
none. -/
theorem Inv.shows (h : w.Inv ∅ s) {envID : Int} {r : ℕ} (hr : s.envCache.lookup envID = some r)
    {key : Str} (hkey : w.Safe (envID, key) ∨ w.Plain (envID, key)) :
    w.Shows envID (s.maps.getD r ∅) key := by
  have hfaith := h.faithful hr
  have hsafe : ∀ {row}, w.Overlay envID key row → w.Safe (envID, key) := by
    intro row hrow
    refine hkey.elim id fun hplain => ?_
    obtain ⟨text, hvalue⟩ := h.valued ⟨r, hr⟩ hrow
    exact Free.safe ⟨text, hvalue, hplain hvalue⟩
  have hforward : ∀ {v}, (s.maps.getD r ∅).lookup key = some v → ∃ row text,
      w.Overlay envID key row ∧ w.Value envID key text ∧
        v = ⟨row.id, text, row.version, row.updatedAt⟩ := by
    intro v hv
    obtain ⟨row, hrow, hmeta⟩ := (hfaith.entries hv).1
    exact ⟨row, v.value, hrow, (h.settled hr (Set.notMem_empty _) hv).value (hsafe hrow), hmeta⟩
  refine fun v => ⟨hforward, ?_⟩
  rintro ⟨row, text, hrow, hval, rfl⟩
  obtain ⟨v, hv⟩ := Option.isSome_iff_exists.mp (AList.lookup_isSome.mpr (hfaith.complete hrow))
  obtain ⟨row', text', hrow', hval', rfl⟩ := hforward hv
  rw [hv, hrow.unique hrow', hval.unique hval']

/-- Two snapshots of one environment have the same entries. -/
theorem Represents.lookup_eq {envID : Int} {m m' : Snapshot} (h : w.Represents envID m)
    (h' : w.Represents envID m') (key : Str) : m.lookup key = m'.lookup key := by
  refine Option.ext fun v => ?_
  exact (h key v).trans (h' key v).symm

/-- A child and its parent show the same entry for a key that the child has no row of. -/
theorem Shows.lookup_eq {child parent : Int} {m m' : Snapshot} {key : Str}
    (hp : w.Parent child parent) (hnone : ∀ row, ¬ w.Own child key row)
    (h : w.Shows child m key) (h' : w.Shows parent m' key) : m.lookup key = m'.lookup key := by
  refine Option.ext fun v => (h v).trans (Iff.trans ?_ (h' v).symm)
  simp only [overlay_inherited_iff hnone hp, value_inherited_iff hnone hp]

/-- The outcome of a resolution: a snapshot of a resolvable environment, or an error for one
that is not. -/
def Outcome (w : Source) (envID : Int) : Except Fault Snapshot → Prop
  | .ok snapshot => w.Resolvable envID ∧
    ∀ key, w.Safe (envID, key) ∨ w.Plain (envID, key) → w.Shows envID snapshot key
  | .error _ => w.RereadSafe envID → ¬ w.Resolvable envID

/-- A snapshot has the values of the recursive definition, if no value that is read twice holds a
reference. -/
theorem Outcome.represents {envID : Int} {m : Snapshot} (h : w.Outcome envID (.ok m))
    (hsafe : w.RereadSafe envID) : w.Represents envID m :=
  fun key => h.2 key (.inl (hsafe.safe .start))

/-- Every order of visit has this outcome. -/
theorem resolve_outcome : w.Outcome start ((w.call order).resolve (resolveDepth w.db) start) := by
  have h := (callees_correct (w := w) order (resolveDepth w.db)).snapshot ∅ start [] .initial
    Inv.initial (fun _ => .start) fun p hp => absurd hp List.not_mem_nil
  have hdb : ∀ n, (w.call order).dbs n = w.db := fun _ => rfl
  have hret := (w.call order).resolve_returns hdb start
  unfold Call.resolve at hret ⊢
  cases hrun : ((w.call order).callees (resolveDepth w.db)).snapshot start [] .initial with
  | ok r =>
    obtain ⟨hinv, hr⟩ := wp_ok h hrun
    exact ⟨hinv.resolvable ⟨_, hr⟩, fun _ hkey => hinv.shows hr hkey⟩
  | error e =>
    rw [hrun] at hret
    exact fun hsafe => wp_error h hrun hsafe fun he => hret (by rw [he])

end Source

end Comax.Secret
