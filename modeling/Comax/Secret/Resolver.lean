import Comax.Core.Hoare
import Comax.Crypto.Seal
import Comax.Secret.Reference
import Comax.Store.Repos
import Mathlib.Data.List.AList

/-!
# The env-snapshot resolver

`snapshot` and `expand` call each other, so each is a body over the two callees,
and `callees` ties the knot up to a recursion depth. A Go map is a cell of
`ResolveCtx.maps` and is passed around as the index of its cell, which keeps the
aliasing of the source: the map that `snapshot` caches is the map its loop then
rewrites, and every later read of the cache sees the rewritten entries. The order
in which a `range` loop visits a map is `Call.order`, an arbitrary permutation for
every loop, and the database that the n-th query of a call sees is `Call.dbs n`.
-/

namespace Comax.Secret

open Comax.Core Comax.Store

/-- One fully-resolved secret: the row it came from and its final plaintext. -/
structure ResolvedSecret where
  secretID : Int
  value : Str
  version : Int
  updatedAt : Int
  deriving DecidableEq

/-- The resolved view of one environment, by key. -/
abbrev Snapshot := AList fun _ : Str => ResolvedSecret

/-- Which of the two cycle detectors fired. -/
inductive CycleKind where
  | inheritance
  | reference
  deriving DecidableEq

/-- The errors of `Resolve`, one constructor for each `fmt.Errorf` wrapper. -/
inductive ResolveError where
  /-- `load master key` -/
  | loadMasterKey
  /-- `load env id=%d`, around `store.ErrNotFound` -/
  | loadEnv (envID : Int)
  /-- `env %q inherits_from %q: %w` -/
  | inheritsFrom (env parent : Str) (cause : ResolveError)
  /-- `decrypt %s in env=%d` -/
  | decrypt (key : Str) (envID : Int)
  /-- `CycleError` -/
  | cycle (kind : CycleKind) (path : List Str)
  /-- `reference ${{ %s.%s }}: %w` -/
  | reference (envName keyName : Str) (cause : ResolveError)
  /-- `env %q: %w`, around `ErrUnknownReference` -/
  | unknownEnv (name : Str)
  /-- `ErrUnknownReference` -/
  | unknownReference
  deriving DecidableEq

/-- How a run of the model ends without a value: with an error of the source, or
because the recursion depth is used up. -/
inductive Fault where
  | outOfFuel
  | error (e : ResolveError)
  deriving DecidableEq

/-- `Resolver.Resolve` maps an order of visit to each `range` loop. -/
structure MapOrder where
  /-- The order in which the loop after the n-th query visits the keys. -/
  visit : ℕ → List Str → List Str
  /-- Every key is visited exactly once. -/
  perm : ∀ n keys, (visit n keys).Perm keys

/-- Visiting keys in the order the map lists them. -/
def MapOrder.plain : MapOrder := ⟨fun _ keys => keys, fun _ _ => List.Perm.refl _⟩

/-- Visiting keys in the reverse of that order. -/
def MapOrder.reversed : MapOrder := ⟨fun _ keys => keys.reverse, fun _ keys => keys.reverse_perm⟩

/-- One node of the reference-cycle visited list. -/
structure RefPos where
  envID : Int
  key : Str
  deriving DecidableEq

/-- The part of `resolveCtx` that the recursive descent changes. -/
structure ResolveCtx where
  /-- Queries issued so far. -/
  queries : ℕ
  /-- The maps allocated so far. -/
  maps : List Snapshot
  /-- Built snapshots, by environment id. -/
  envCache : AList fun _ : Int => ℕ
  /-- Resolved names. -/
  envByNameID : AList fun _ : Str => Int

/-- The context `Resolve` starts from. -/
def ResolveCtx.initial : ResolveCtx := ⟨0, [], ∅, ∅⟩

/-- Computations of one `Resolve` call. -/
abbrev ResolveM := StateT ResolveCtx (Except Fault)

/-- Fail with an error of the source. -/
def fail {α : Type} (e : ResolveError) : ResolveM α := throw (.error e)

/-- The fixed part of `resolveCtx`, and what the outside decides during the call. -/
structure Call where
  dbs : ℕ → Database
  order : MapOrder
  projectID : Int
  opens : Str → Option Str

/-- The two mutually recursive functions. -/
structure Callees where
  snapshot : Int → List Int → ResolveM ℕ
  expand : Int → Str → Str → List RefPos → ResolveM Str

namespace Call

variable (rc : Call)

/-- One query against the database. -/
def query {α : Type} (q : Database → α) : ResolveM α := do
  let s ← get
  set { s with queries := s.queries + 1 }
  return q (rc.dbs s.queries)

/-- Read a map. -/
def deref (r : ℕ) : ResolveM Snapshot := return (← get).maps.getD r ∅

/-- Allocate a map with the given contents. -/
def alloc (m : Snapshot) : ResolveM ℕ := do
  let s ← get
  set { s with maps := s.maps ++ [m] }
  return s.maps.length

/-- `m[key] = v` -/
def write (r : ℕ) (key : Str) (v : ResolvedSecret) : ResolveM Unit :=
  modify fun s => { s with maps := s.maps.set r ((s.maps.getD r ∅).insert key v) }

/-- `resolveEnvName` -/
def resolveEnvName (name : Str) : ResolveM Int := do
  match (← get).envByNameID.lookup name with
  | some id => return id
  | none =>
    match ← rc.query (EnvRepo.byName rc.projectID name) with
    | .error _ => fail (.unknownEnv name)
    | .ok env =>
      modify fun s => { s with envByNameID := s.envByNameID.insert name env.id }
      return env.id

/-- Wrap the errors of a computation. -/
def wrap {α : Type} (f : ResolveError → ResolveError) (m : ResolveM α) : ResolveM α := fun s =>
  match m s with
  | .error (.error e) => .error (.error (f e))
  | r => r

/-- The name of an environment in an error message. -/
def envNameOf (db : Database) (id : Int) : Str :=
  match EnvRepo.byID id db with
  | .ok e => e.name
  | .error _ => ascii "id=" ++ formatInt id

/-- `envChainNames` -/
def envChainNames (s : ResolveCtx) (ids : List Int) : List Str :=
  ids.zipIdx.map fun (id, i) => envNameOf (rc.dbs (s.queries + i)) id

/-- `refChainNames` -/
def refChainNames (s : ResolveCtx) (positions : List RefPos) : List Str :=
  positions.zipIdx.map fun (p, i) =>
    envNameOf (rc.dbs (s.queries + i)) p.envID ++ ascii "." ++ p.key

/-- Step 1 of `snapshot`: a copy of the parent snapshot when `inherits_from` is set. -/
def inherited (self : Callees) (env : Environment) (nextVisited : List Int) :
    ResolveM Snapshot := do
  if env.inheritsFrom = [] then return ∅
  let parentID ← wrap (.inheritsFrom env.name env.inheritsFrom)
    (rc.resolveEnvName env.inheritsFrom)
  let parent ← self.snapshot parentID nextVisited
  deref parent

/-- Step 2 of `snapshot`: overlay one secret of the environment. -/
def overlayOne (envID : Int) (merged : Snapshot) (s : Secret) : ResolveM Snapshot :=
  match rc.opens s.ciphertext with
  | none => fail (.decrypt s.key envID)
  | some plain => return merged.insert s.key ⟨s.id, plain, s.version, s.updatedAt⟩

/-- Step 4 of `snapshot`: expand one visited entry and write it back into the map. -/
def expandEntry (self : Callees) (envID : Int) (r : ℕ) (k : Str) : ResolveM Unit := do
  match (← deref r).lookup k with
  | none => return ()
  | some v =>
    let expanded ← self.expand envID k v.value []
    write r k { v with value := expanded }

/-- `snapshot` -/
def snapshotBody (self : Callees) (envID : Int) (visited : List Int) : ResolveM ℕ := do
  match (← get).envCache.lookup envID with
  | some cached => return cached
  | none =>
    if envID ∈ visited then
      fail (.cycle .inheritance (rc.envChainNames (← get) (visited ++ [envID])))
    else
      match ← rc.query (EnvRepo.byID envID) with
      | .error _ => fail (.loadEnv envID)
      | .ok env =>
        let base ← rc.inherited self env (visited ++ [envID])
        let secrets ← rc.query (SecretRepo.listByEnv envID)
        let merged ← secrets.foldlM (rc.overlayOne envID) base
        let r ← alloc merged
        modify fun s => { s with envCache := s.envCache.insert envID r }
        let keys := rc.order.visit (← get).queries merged.keys
        keys.foldlM (fun _ k => expandEntry self envID r k) ()
        return r

/-- Resolve and splice one reference of a value. -/
def expandReference (self : Callees) (nextVisited : List RefPos) (ref : Reference) (out : Str) :
    ResolveM Str := do
  let targetEnvID ← wrap (.reference ref.envName ref.keyName) (rc.resolveEnvName ref.envName)
  let target ← self.snapshot targetEnvID []
  match (← deref target).lookup ref.keyName with
  | none => fail (.reference ref.envName ref.keyName .unknownReference)
  | some targetSecret =>
    let expanded ← self.expand targetEnvID ref.keyName targetSecret.value nextVisited
    return out.take ref.start ++ expanded ++ out.drop ref.stop

/-- `expand` -/
def expandBody (self : Callees) (envID : Int) (key value : Str) (visited : List RefPos) :
    ResolveM Str := do
  let refs := findReferences value
  if refs = [] then
    return value
  else if ⟨envID, key⟩ ∈ visited then
    fail (.cycle .reference (rc.refChainNames (← get) (visited ++ [⟨envID, key⟩])))
  else
    refs.foldrM (rc.expandReference self (visited ++ [⟨envID, key⟩])) value

/-- The two functions, up to a recursion depth. -/
def callees : ℕ → Callees
  | 0 => ⟨fun _ _ => throw .outOfFuel, fun _ _ _ _ => throw .outOfFuel⟩
  | fuel + 1 => ⟨rc.snapshotBody (callees fuel), rc.expandBody (callees fuel)⟩

/-- `rc.snapshot(envID, nil)`, read out of the final context. -/
def resolve (fuel : ℕ) (envID : Int) : Except Fault Snapshot :=
  match (rc.callees fuel).snapshot envID [] .initial with
  | .ok (r, s) => .ok (s.maps.getD r ∅)
  | .error e => .error e

end Call

/-- The dependencies of a resolver: the cipher, and the key its provider returns. -/
structure Resolver where
  gcm : Crypto.AEAD
  masterKey : Option Str

/-- The call that `Resolve` sets up once the master key is loaded. -/
def Resolver.call (r : Resolver) (dbs : ℕ → Database) (order : MapOrder) (projectID : Int)
    (key : Str) : Call :=
  ⟨dbs, order, projectID, r.gcm.open key⟩

/-- `Resolver.Resolve`, up to a recursion depth. -/
def Resolver.resolveWithin (r : Resolver) (fuel : ℕ) (dbs : ℕ → Database) (order : MapOrder)
    (projectID envID : Int) : Except Fault Snapshot :=
  match r.masterKey with
  | none => .error (.error .loadMasterKey)
  | some key => (r.call dbs order projectID key).resolve fuel envID

end Comax.Secret
