import Comax.Core.Script
import Comax.Secret.Frame

/-!
# The resolver asks its queries

`Resolve` runs its queries one by one outside of any transaction, so commits may land
between them. The resolver is written down once more as a script that asks its
queries, and played against a sequence of states it is the call on that sequence. A
property of asking computations that each part of the resolver keeps holds of the
whole.
-/

namespace Comax.Secret

open Comax.Core Comax.Store

/-- The queries of the resolver. -/
inductive Query where
  /-- `EnvRepo.ByID` -/
  | byID (id : Int)
  /-- `EnvRepo.ByName` -/
  | byName (projectID : Int) (name : Str)
  /-- `SecretRepo.ListByEnv` -/
  | listByEnv (envID : Int)
  deriving DecidableEq

/-- What a query returns. -/
abbrev Query.Answer : Query → Type
  | byID _ => Except StoreError Environment
  | byName _ _ => Except StoreError Environment
  | listByEnv _ => List Secret

/-- The answer of a database. -/
def Query.answer : (q : Query) → Database → q.Answer
  | byID id => EnvRepo.byID id
  | byName projectID name => EnvRepo.byName projectID name
  | listByEnv envID => SecretRepo.listByEnv envID

/-- The answers of the states that the queries of a call see, by the place of the query. -/
def answers (dbs : ℕ → Database) (q : ℕ × Query) : q.2.Answer := q.2.answer (dbs q.1)

/-- Computations of one `Resolve` call that ask their queries. -/
abbrev AskM := StateT ResolveCtx (Script (fun q : ℕ × Query => q.2.Answer) Fault)

/-- The two mutually recursive functions, asking. -/
structure AskingCallees where
  /-- `snapshot` -/
  snapshot : Int → List Int → AskM ℕ
  /-- `expand` -/
  expand : Int → Str → Str → List RefPos → AskM Str

namespace Asking

variable (rc : Call)

/-- One query. -/
def query (q : Query) : AskM q.Answer := fun s =>
  .ask (s.queries, q) fun a => .done (.ok (a, { s with queries := s.queries + 1 }))

/-- Fail with an error of the source. -/
def fail {α : Type} (e : ResolveError) : AskM α := quiet (Secret.fail e)

/-- Wrap the errors of a computation. -/
def wrap {α : Type} (f : ResolveError → ResolveError) (m : AskM α) : AskM α := fun s =>
  (m s).mapResult fun
    | .error (.error e) => .error (.error (f e))
    | r => r

/-- `resolveEnvName` -/
def resolveEnvName (name : Str) : AskM Int := do
  match (← get).envByNameID.lookup name with
  | some id => return id
  | none =>
    match ← query (.byName rc.projectID name) with
    | .error _ => fail (.unknownEnv name)
    | .ok env =>
      modify fun s => { s with envByNameID := s.envByNameID.insert name env.id }
      return env.id

/-- The name of an environment in an error message, the i-th of them. -/
def envNameOf (i : ℕ) (id : Int) : AskM Str := fun s =>
  .ask (s.queries + i, .byID id) fun
    | .ok e => .done (.ok (e.name, s))
    | .error _ => .done (.ok (ascii "id=" ++ formatInt id, s))

/-- `envChainNames` -/
def envChainNames (ids : List Int) : AskM (List Str) :=
  ids.zipIdx.mapM fun (id, i) => envNameOf i id

/-- `refChainNames` -/
def refChainNames (positions : List RefPos) : AskM (List Str) :=
  positions.zipIdx.mapM fun (p, i) => do
    return (← envNameOf i p.envID) ++ ascii "." ++ p.key

/-- Step 1 of `snapshot`. -/
def inherited (self : AskingCallees) (env : Environment) (nextVisited : List Int) :
    AskM Snapshot := do
  if env.inheritsFrom = [] then return ∅
  let parentID ← wrap (.inheritsFrom env.name env.inheritsFrom)
    (resolveEnvName rc env.inheritsFrom)
  let parent ← self.snapshot parentID nextVisited
  quiet (Call.deref parent)

/-- Step 4 of `snapshot`. -/
def expandEntry (self : AskingCallees) (envID : Int) (r : ℕ) (k : Str) : AskM Unit := do
  match (← quiet (Call.deref r)).lookup k with
  | none => return ()
  | some v =>
    let expanded ← self.expand envID k v.value []
    quiet (Call.write r k { v with value := expanded })

/-- `snapshot` -/
def snapshotBody (self : AskingCallees) (envID : Int) (visited : List Int) : AskM ℕ := do
  match (← get).envCache.lookup envID with
  | some cached => return cached
  | none =>
    if envID ∈ visited then
      fail (.cycle .inheritance (← envChainNames (visited ++ [envID])))
    else
      match ← query (.byID envID) with
      | .error _ => fail (.loadEnv envID)
      | .ok env =>
        let base ← inherited rc self env (visited ++ [envID])
        let secrets ← query (.listByEnv envID)
        let merged ← quiet (secrets.foldlM (rc.overlayOne envID) base)
        let r ← quiet (Call.alloc merged)
        modify fun s => { s with envCache := s.envCache.insert envID r }
        let keys := rc.order.visit (← get).queries merged.keys
        keys.foldlM (fun _ k => expandEntry self envID r k) ()
        return r

/-- Resolve and splice one reference of a value. -/
def expandReference (self : AskingCallees) (nextVisited : List RefPos) (ref : Reference)
    (out : Str) : AskM Str := do
  let targetEnvID ← wrap (.reference ref.envName ref.keyName) (resolveEnvName rc ref.envName)
  let target ← self.snapshot targetEnvID []
  match (← quiet (Call.deref target)).lookup ref.keyName with
  | none => fail (.reference ref.envName ref.keyName .unknownReference)
  | some targetSecret =>
    let expanded ← self.expand targetEnvID ref.keyName targetSecret.value nextVisited
    return out.take ref.start ++ expanded ++ out.drop ref.stop

/-- `expand` -/
def expandBody (self : AskingCallees) (envID : Int) (key value : Str) (visited : List RefPos) :
    AskM Str := do
  let refs := findReferences value
  if refs = [] then
    return value
  else if ⟨envID, key⟩ ∈ visited then
    fail (.cycle .reference (← refChainNames (visited ++ [⟨envID, key⟩])))
  else
    refs.foldrM (expandReference rc self (visited ++ [⟨envID, key⟩])) value

/-- The two functions, up to a recursion depth. -/
def callees : ℕ → AskingCallees
  | 0 => ⟨fun _ _ => quiet (throw .outOfFuel), fun _ _ _ _ => quiet (throw .outOfFuel)⟩
  | fuel + 1 => ⟨snapshotBody rc (callees fuel), expandBody rc (callees fuel)⟩

section Plays

/-- The asking functions are the ones of the call on the given states. -/
structure Plays (dbs : ℕ → Database) (asking : AskingCallees) (callees : Callees) : Prop where
  /-- `snapshot` -/
  snapshot : ∀ envID visited,
    playing (answers dbs) (asking.snapshot envID visited) = callees.snapshot envID visited
  /-- `expand` -/
  expand : ∀ envID key value visited,
    playing (answers dbs) (asking.expand envID key value visited) =
      callees.expand envID key value visited

variable (dbs : ℕ → Database)

@[simp] theorem playing_query (q : Query) :
    playing (answers dbs) (query q) = ({ rc with dbs := dbs } : Call).query q.answer := rfl

@[simp] theorem playing_fail {α : Type} (e : ResolveError) :
    playing (answers dbs) (fail e : AskM α) = Secret.fail e := rfl

@[simp] theorem playing_wrap {α : Type} (f : ResolveError → ResolveError) (m : AskM α) :
    playing (answers dbs) (wrap f m) = Call.wrap f (playing (answers dbs) m) := by
  funext s
  rw [playing, wrap, Script.answered_mapResult]
  rfl

/-- Names are resolved alike. -/
@[simp] theorem playing_resolveEnvName (name : Str) :
    playing (answers dbs) (resolveEnvName rc name) =
      ({ rc with dbs := dbs } : Call).resolveEnvName name := by
  rw [resolveEnvName, Call.resolveEnvName, playing_bind, playing_get]
  refine bind_congr fun s => ?_
  cases s.envByNameID.lookup name with
  | some id => rfl
  | none =>
    simp only [playing_bind, playing_query rc]
    refine bind_congr fun found => ?_
    cases found with
    | error e => rfl
    | ok env => rfl

/-- A loop that only reads the context. -/
theorem mapM_reads {α β : Type} (f : α → ResolveCtx → β) (xs : List α) (s : ResolveCtx) :
    (xs.mapM (fun x s => .ok (f x s, s) : α → ResolveM β) : ResolveM (List β)) s =
      .ok (xs.map (f · s), s) := by
  induction xs with
  | nil => rfl
  | cons x xs ih =>
    rw [List.mapM_cons]
    change ((xs.mapM _ : ResolveM (List β)) s).bind _ = _
    rw [ih]
    rfl

/-- The name in an error message is the one of the call. -/
theorem playing_envNameOf (i : ℕ) (id : Int) : playing (answers dbs) (envNameOf i id) =
    fun s => .ok (Call.envNameOf (dbs (s.queries + i)) id, s) := by
  funext s
  have hanswer : answers dbs (s.queries + i, .byID id) = EnvRepo.byID id (dbs (s.queries + i)) :=
    rfl
  rw [playing, envNameOf, Script.answered, Call.envNameOf, hanswer]
  cases EnvRepo.byID id (dbs (s.queries + i)) with
  | ok e => rfl
  | error e => rfl

/-- An inheritance cycle is reported alike. -/
theorem playing_envChainNames (ids : List Int) : playing (answers dbs) (envChainNames ids) =
    fun s => .ok (({ rc with dbs := dbs } : Call).envChainNames s ids, s) := by
  funext s
  rw [envChainNames, playing_mapM]
  simp only [playing_envNameOf]
  exact mapM_reads (fun (p : Int × ℕ) s => Call.envNameOf (dbs (s.queries + p.2)) p.1) _ s

/-- A reference cycle is reported alike. -/
theorem playing_refChainNames (ps : List RefPos) : playing (answers dbs) (refChainNames ps) =
    fun s => .ok (({ rc with dbs := dbs } : Call).refChainNames s ps, s) := by
  funext s
  rw [refChainNames, playing_mapM]
  simp only [playing_bind, playing_envNameOf, playing_pure]
  exact mapM_reads (fun (p : RefPos × ℕ) s =>
    Call.envNameOf (dbs (s.queries + p.2)) p.1.envID ++ ascii "." ++ p.1.key) _ s

variable {dbs} {self : AskingCallees} {self' : Callees} (h : Plays dbs self self')
include h

/-- The parent's entries are copied alike. -/
theorem playing_inherited (env : Environment) (visited : List Int) :
    playing (answers dbs) (inherited rc self env visited) =
      ({ rc with dbs := dbs } : Call).inherited self' env visited := by
  unfold inherited Call.inherited
  by_cases hname : env.inheritsFrom = []
  · simp only [hname, if_true]
    rfl
  · simp only [hname, if_false, playing_bind, playing_wrap, playing_resolveEnvName, h.snapshot,
      playing_quiet]

/-- An entry is expanded alike. -/
theorem playing_expandEntry (envID : Int) (r : ℕ) (k : Str) :
    playing (answers dbs) (expandEntry self envID r k) = Call.expandEntry self' envID r k := by
  rw [expandEntry, Call.expandEntry, playing_bind, playing_quiet]
  refine bind_congr fun m => ?_
  cases m.lookup k with
  | none => rfl
  | some v => simp only [playing_bind, h.expand, playing_quiet]

/-- `snapshot` is played alike. -/
theorem playing_snapshotBody (envID : Int) (visited : List Int) :
    playing (answers dbs) (snapshotBody rc self envID visited) =
      ({ rc with dbs := dbs } : Call).snapshotBody self' envID visited := by
  rw [snapshotBody, Call.snapshotBody, playing_bind, playing_get]
  refine bind_congr fun s => ?_
  cases s.envCache.lookup envID with
  | some cached => rfl
  | none =>
    by_cases hv : envID ∈ visited
    · simp only [hv, if_true, playing_bind, playing_envChainNames rc, playing_fail]
      rfl
    · simp only [hv, if_false, playing_bind, playing_query rc]
      refine bind_congr fun found => ?_
      cases found with
      | error e => rfl
      | ok env =>
        simp only [playing_bind, playing_inherited rc h, playing_query rc, playing_quiet,
          playing_modify, playing_get, playing_foldlM, playing_expandEntry h, playing_pure]
        rfl

/-- One reference is spliced alike. -/
theorem playing_expandReference (visited : List RefPos) (ref : Reference) (out : Str) :
    playing (answers dbs) (expandReference rc self visited ref out) =
      ({ rc with dbs := dbs } : Call).expandReference self' visited ref out := by
  simp only [expandReference, Call.expandReference, playing_bind, playing_wrap,
    playing_resolveEnvName, h.snapshot, playing_quiet]
  refine bind_congr fun target => bind_congr fun r => bind_congr fun m => ?_
  cases m.lookup ref.keyName with
  | none => rfl
  | some v => simp only [playing_bind, h.expand, playing_pure]

/-- `expand` is played alike. -/
theorem playing_expandBody (envID : Int) (key value : Str) (visited : List RefPos) :
    playing (answers dbs) (expandBody rc self envID key value visited) =
      ({ rc with dbs := dbs } : Call).expandBody self' envID key value visited := by
  unfold expandBody Call.expandBody
  by_cases hrefs : findReferences value = []
  · simp only [hrefs, if_true]
    rfl
  · by_cases hv : (⟨envID, key⟩ : RefPos) ∈ visited
    · simp only [hrefs, hv, if_false, if_true, playing_bind, playing_refChainNames rc,
        playing_fail]
      rfl
    · simp only [hrefs, hv, if_false, playing_foldrM, playing_expandReference rc h]

omit h in
/-- The asking functions are the ones of the call, at every depth. -/
theorem plays_callees (dbs : ℕ → Database) (fuel : ℕ) :
    Plays dbs (callees rc fuel) (({ rc with dbs := dbs } : Call).callees fuel) := by
  induction fuel with
  | zero => exact ⟨fun _ _ => rfl, fun _ _ _ _ => rfl⟩
  | succ fuel ih => exact ⟨playing_snapshotBody rc ih, playing_expandBody rc ih⟩

end Plays

/-- A property of asking computations that each part of the resolver keeps. A query for an
environment is followed by a failure if there is none. -/
structure Kept (P : ∀ {α : Type}, AskM α → Prop) : Prop where
  bind : ∀ {α β : Type} {m : AskM α} {f : α → AskM β}, P m → (∀ a, P (f a)) → P (m >>= f)
  wrap : ∀ {α : Type} {m : AskM α} (g : ResolveError → ResolveError), P m → P (wrap g m)
  quiet : ∀ {α : Type} {m : ResolveM α},
    (∀ s, wp m s (fun _ s' => s'.queries = s.queries) fun _ => True) → P (quiet m)
  byID : ∀ {α : Type} (id : Int) {f : Except StoreError Environment → AskM α},
    (∀ e, ∃ err, f (.error e) = fail err) → (∀ env, P (f (.ok env))) →
      P (query (.byID id) >>= f)
  byName : ∀ {α : Type} (projectID : Int) (name : Str)
    {f : Except StoreError Environment → AskM α},
    (∀ e, ∃ err, f (.error e) = fail err) → (∀ env, P (f (.ok env))) →
      P (query (.byName projectID name) >>= f)
  listByEnv : ∀ envID, P (query (.listByEnv envID))
  envCycle : ∀ {α : Type} (g : List Str → ResolveError) ids,
    P (do fail (g (← envChainNames ids)) : AskM α)
  refCycle : ∀ {α : Type} (g : List Str → ResolveError) ps,
    P (do fail (g (← refChainNames ps)) : AskM α)

/-- The property of the two functions. -/
structure Both (P : ∀ {α : Type}, AskM α → Prop) (callees : AskingCallees) : Prop where
  snapshot : ∀ envID visited, P (callees.snapshot envID visited)
  expand : ∀ envID key value visited, P (callees.expand envID key value visited)

section Kept

variable {α β : Type} {P : ∀ {α : Type}, AskM α → Prop} (hP : Kept P)
include hP

theorem kept_pure (a : α) : P (pure a : AskM α) :=
  hP.quiet  fun _ => rfl

theorem kept_get : P (get : AskM ResolveCtx) :=
  hP.quiet  fun _ => rfl

theorem kept_modify {g : ResolveCtx → ResolveCtx} (hg : ∀ s, (g s).queries = s.queries) :
    P (modify g : AskM PUnit) :=
  hP.quiet  hg

theorem kept_fail (e : ResolveError) : P (fail e : AskM α) :=
  hP.quiet fun _ => trivial

theorem kept_deref (r : ℕ) : P (quiet (Call.deref r)) :=
  hP.quiet fun s => (wp_deref r s _ _).mpr rfl

theorem kept_alloc (m : Snapshot) : P (quiet (Call.alloc m)) :=
  hP.quiet fun s => (wp_alloc m s _ _).mpr rfl

theorem kept_write (r : ℕ) (k : Str) (v : ResolvedSecret) : P (quiet (Call.write r k v)) :=
  hP.quiet fun s => (wp_write r k v s _ _).mpr rfl

theorem kept_foldlM {f : β → α → AskM β} (hf : ∀ b a, P (f b a)) (xs : List α) (b : β) :
    P (xs.foldlM f b) := by
  induction xs generalizing b with
  | nil => exact kept_pure hP b
  | cons x xs ih =>
    rw [List.foldlM_cons]
    exact hP.bind (hf b x) fun b' => ih b'

theorem kept_foldrM {f : α → β → AskM β} (hf : ∀ a b, P (f a b)) (xs : List α) (b : β) :
    P (xs.foldrM f b) := by
  induction xs with
  | nil => exact kept_pure hP b
  | cons x xs ih =>
    rw [List.foldrM_cons]
    exact hP.bind ih fun b' => hf x b'

theorem kept_resolveEnvName (name : Str) : P (resolveEnvName rc name) := by
  refine hP.bind (kept_get hP) fun s => ?_
  cases s.envByNameID.lookup name with
  | some id => exact kept_pure hP id
  | none =>
    exact hP.byName _ name (fun _ => ⟨_, rfl⟩) fun env =>
      hP.bind (kept_modify hP (by intro; rfl)) fun _ => kept_pure hP _

variable {self : AskingCallees} (h : Both P self)
include h

theorem kept_inherited (env : Environment) (visited : List Int) :
    P (inherited rc self env visited) := by
  unfold inherited
  split_ifs
  · exact kept_pure hP _
  · exact hP.bind (hP.wrap _ (kept_resolveEnvName rc hP _)) fun id =>
      hP.bind (h.snapshot id visited) fun r => kept_deref hP r

theorem kept_expandEntry (envID : Int) (r : ℕ) (k : Str) : P (expandEntry self envID r k) := by
  refine hP.bind (kept_deref hP r) fun m => ?_
  cases m.lookup k with
  | none => exact kept_pure hP _
  | some v => exact hP.bind (h.expand _ _ _ _) fun _ => kept_write hP r k _

theorem kept_snapshotBody (envID : Int) (visited : List Int) :
    P (snapshotBody rc self envID visited) := by
  refine hP.bind (kept_get hP) fun s => ?_
  cases s.envCache.lookup envID with
  | some r => exact kept_pure hP r
  | none =>
    dsimp only
    split_ifs
    · exact hP.envCycle _ _
    · refine hP.byID envID (fun _ => ⟨_, rfl⟩) fun env => ?_
      refine hP.bind (kept_inherited rc hP h env _) fun base =>
        hP.bind (hP.listByEnv envID) fun secrets => hP.bind (hP.quiet fun s => ?_) fun merged =>
          hP.bind (kept_alloc hP merged) fun r => hP.bind (kept_modify hP (by intro; rfl))
            fun _ => hP.bind (kept_get hP) fun s =>
              hP.bind (kept_foldlM hP (fun _ k => kept_expandEntry hP h envID r k) _ _)
                fun _ => kept_pure hP r
      exact wp_mono (rc.overlay_frame envID secrets base s) (fun _ _ hs => by rw [hs])
        fun _ _ => trivial

theorem kept_expandReference (visited : List RefPos) (ref : Reference) (out : Str) :
    P (expandReference rc self visited ref out) := by
  refine hP.bind (hP.wrap _ (kept_resolveEnvName rc hP _)) fun id =>
    hP.bind (h.snapshot id []) fun r => hP.bind (kept_deref hP r) fun m => ?_
  cases m.lookup ref.keyName with
  | none => exact kept_fail hP _
  | some target => exact hP.bind (h.expand _ _ _ _) fun _ => kept_pure hP _

theorem kept_expandBody (envID : Int) (key value : Str) (visited : List RefPos) :
    P (expandBody rc self envID key value visited) := by
  unfold expandBody
  dsimp only
  split_ifs
  · exact kept_pure hP _
  · exact hP.refCycle _ _
  · exact kept_foldrM hP (fun ref out => kept_expandReference rc hP h _ ref out) _ _

omit h in
/-- The two functions have the property at every depth. -/
theorem kept_callees (fuel : ℕ) : Both P (callees rc fuel) := by
  induction fuel with
  | zero => exact ⟨fun _ _ => hP.quiet fun _ => trivial, fun _ _ _ _ => hP.quiet fun _ => trivial⟩
  | succ fuel ih => exact ⟨kept_snapshotBody rc hP ih, kept_expandBody rc hP ih⟩

end Kept

end Asking

end Comax.Secret
