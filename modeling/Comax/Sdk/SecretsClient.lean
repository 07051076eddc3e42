import Comax.Core.Machine
import Mathlib.Algebra.Order.Monoid.WithTop
import Mathlib.Data.Rat.Cast.Order
import Mathlib.Logic.Function.Basic

/-!
# The SDK's cached secrets client

A client holds a cache with one entry per key, a slot for the flight of each key, one
slot for the flight of the whole environment, and an epoch. JavaScript runs one
callback at a time, so a step is a call up to its return, the continuation of a fetch
when its response arrives, the cleanup that the flight's `finally` runs, or the
resumption of a caller that awaits a flight. A flight is named by its number in the
order of the fetches' starts.
-/

namespace Comax.Sdk

/-- `Secret` -/
structure Secret where
  /-- `key` -/
  key : String
  /-- `value` -/
  value : String
  /-- `version` -/
  version : ℤ
  /-- `updated_at` -/
  updatedAt : String
  deriving DecidableEq

/-- The options that the client's steps read; the top is `Infinity` or `NaN`. -/
structure SecretsClientOptions where
  /-- `ttlMs` -/
  ttlMs : WithTop ℚ
  /-- `refreshIntervalMs` -/
  refreshIntervalMs : WithTop ℚ

/-- `CacheEntry`, with the fetch that it stems from. -/
structure CacheEntry where
  /-- `secret` -/
  secret : Secret
  /-- `fetchedAt`, of `Date.now()` -/
  fetchedAt : ℤ
  /-- The number of the fetch. -/
  fetch : ℕ
  deriving DecidableEq

/-- What a fetch asks for. -/
inductive Scope
  /-- One key. -/
  | one (key : String)
  /-- The whole environment. -/
  | all
  deriving DecidableEq

/-- How far a flight is. -/
inductive Outcome
  /-- No response yet. -/
  | pending
  /-- The fetch failed or timed out. -/
  | failed
  /-- The fetch resolved. -/
  | resolved (secrets : List Secret)
  deriving DecidableEq

/-- A fetch that was started. -/
structure Flight where
  /-- What it asks for. -/
  scope : Scope
  /-- `startEpoch` -/
  startEpoch : ℕ
  /-- Its promise. -/
  outcome : Outcome
  deriving DecidableEq

/-- `SecretsClient` -/
structure SecretsClient where
  /-- `cache` -/
  cache : String → Option CacheEntry
  /-- `inflight` -/
  inflight : String → Option ℕ
  /-- `allInflight` -/
  allInflight : Option ℕ
  /-- `refreshTimer` is set. -/
  refreshTimer : Bool
  /-- `epoch` -/
  epoch : ℕ
  /-- Every fetch so far, in the order of their starts. -/
  flights : List Flight

namespace SecretsClient

/-- A client before its first call. -/
def init : SecretsClient := ⟨fun _ => none, fun _ => none, none, false, 0, []⟩

/-- `isStale` -/
def isStale (opts : SecretsClientOptions) (now fetchedAt : ℤ) : Bool :=
  if opts.ttlMs ≤ 0 then true else decide (opts.ttlMs ≤ ((now - fetchedAt : ℤ) : ℚ))

/-- The entry that a read of a key is served from. -/
def hit (opts : SecretsClientOptions) (key : String) (now : ℤ) (c : SecretsClient) :
    Option CacheEntry :=
  (c.cache key).filter fun e => !isStale opts now e.fetchedAt

/-- Start a fetch. -/
def launch (scope : Scope) (c : SecretsClient) : SecretsClient :=
  { c with flights := c.flights ++ [⟨scope, c.epoch, .pending⟩] }

/-- `getSecret`, up to its return; `get` starts the same way. -/
def getSecret (opts : SecretsClientOptions) (key : String) (now : ℤ) (c : SecretsClient) :
    SecretsClient :=
  match c.hit opts key now with
  | some _ => c
  | none =>
    match c.inflight key with
    | some _ => c
    | none => { c.launch (.one key) with
        inflight := Function.update c.inflight key (some c.flights.length) }

/-- `preload`, up to its return; `getAll` starts the same way. -/
def preload (c : SecretsClient) : SecretsClient :=
  match c.allInflight with
  | some _ => c
  | none => { c.launch .all with allInflight := some c.flights.length }

/-- `reload` -/
def reload (key : Option String) (c : SecretsClient) : SecretsClient :=
  match key with
  | some key =>
    { c with
      cache := Function.update c.cache key none
      inflight := Function.update c.inflight key none
      epoch := c.epoch + 1 }
  | none =>
    { c with
      cache := fun _ => none
      inflight := fun _ => none
      allInflight := none
      epoch := c.epoch + 1 }

/-- `startAutoRefresh` -/
def startAutoRefresh (opts : SecretsClientOptions) (c : SecretsClient) : SecretsClient :=
  if opts.refreshIntervalMs ≤ 0 || c.refreshTimer then c else { c with refreshTimer := true }

/-- `stopAutoRefresh` -/
def stopAutoRefresh (c : SecretsClient) : SecretsClient := { c with refreshTimer := false }

/-- The promise of a flight is settled. -/
def settle (f : ℕ) (flight : Flight) (outcome : Outcome) (c : SecretsClient) : SecretsClient :=
  { c with flights := c.flights.set f { flight with outcome := outcome } }

/-- `cache.set` -/
def cacheSet (f : ℕ) (now : ℤ) (key : String) (secret : Secret) (c : SecretsClient) :
    SecretsClient :=
  { c with cache := Function.update c.cache key (some ⟨secret, now, f⟩) }

/-- `fetchOne`, once its response is there. -/
def fetchOne (f : ℕ) (flight : Flight) (key : String) (secret : Secret) (now : ℤ)
    (c : SecretsClient) : SecretsClient :=
  (if c.epoch = flight.startEpoch then c.cacheSet f now key secret else c).settle f flight
    (.resolved [secret])

/-- `fetchAll`, once its response is there. -/
def fetchAll (f : ℕ) (flight : Flight) (secrets : List Secret) (now : ℤ) (c : SecretsClient) :
    SecretsClient :=
  (if c.epoch = flight.startEpoch then
    secrets.foldl (fun c s => c.cacheSet f now s.key s) c else c).settle f flight
    (.resolved secrets)

/-- The `finally` callback of a flight: its slot is freed if it is still its own. -/
def cleanup (f : ℕ) (flight : Flight) (c : SecretsClient) : SecretsClient :=
  match flight.scope with
  | .one key =>
    if c.inflight key = some f then { c with inflight := Function.update c.inflight key none }
    else c
  | .all => if c.allInflight = some f then { c with allInflight := none } else c

end SecretsClient

/-- The steps of a client and its callers. -/
inductive Label
  /-- `get` or `getSecret` is called, with a signal that is aborted or not. -/
  | getSecret (key : String) (now : ℤ) (aborted : Bool)
  /-- `getAll` or `preload` is called. -/
  | preload (aborted : Bool)
  /-- `reload` is called. -/
  | reload (key : Option String)
  /-- `startAutoRefresh` is called. -/
  | startAutoRefresh
  /-- `stopAutoRefresh` is called. -/
  | stopAutoRefresh
  /-- The refresh timer fires. -/
  | refresh
  /-- A single-key response arrives. -/
  | respondOne (f : ℕ) (secret : Secret) (now : ℤ)
  /-- A whole-environment response arrives. -/
  | respondAll (f : ℕ) (secrets : List Secret) (now : ℤ)
  /-- A fetch fails. -/
  | fail (f : ℕ)
  /-- The `finally` callback of a flight runs. -/
  | cleanup (f : ℕ)
  /-- A caller that awaits a flight resumes. -/
  | deliver (f : ℕ)
  deriving DecidableEq

open SecretsClient

/-- One step. -/
def next (opts : SecretsClientOptions) : Label → SecretsClient → Option SecretsClient
  | .getSecret key now _, c => some (c.getSecret opts key now)
  | .preload _, c => some c.preload
  | .reload key, c => some (c.reload key)
  | .startAutoRefresh, c => some (c.startAutoRefresh opts)
  | .stopAutoRefresh, c => some c.stopAutoRefresh
  | .refresh, c => if c.refreshTimer then some c.preload else none
  | .respondOne f secret now, c =>
    match c.flights[f]? with
    | some ⟨.one key, epoch, .pending⟩ =>
      some (c.fetchOne f ⟨.one key, epoch, .pending⟩ key secret now)
    | _ => none
  | .respondAll f secrets now, c =>
    match c.flights[f]? with
    | some ⟨.all, epoch, .pending⟩ => some (c.fetchAll f ⟨.all, epoch, .pending⟩ secrets now)
    | _ => none
  | .fail f, c =>
    match c.flights[f]? with
    | some ⟨scope, epoch, .pending⟩ => some (c.settle f ⟨scope, epoch, .pending⟩ .failed)
    | _ => none
  | .cleanup f, c =>
    match c.flights[f]? with
    | some flight => if flight.outcome = .pending then none else some (c.cleanup f flight)
    | none => none
  | .deliver f, c =>
    match c.flights[f]? with
    | some flight => if flight.outcome = .pending then none else some c
    | none => none

/-- A client as a transition system. -/
def client (opts : SecretsClientOptions) : Core.Machine SecretsClient Label where
  start := fun c => c = init
  next := next opts

/-- The read that a step begins, and the fetch that answers it; an aborted one is answered by
none. -/
def answeredBy (opts : SecretsClientOptions) (c : SecretsClient) : Label → Option (Scope × ℕ)
  | .getSecret key now aborted =>
    if aborted then none
    else
      match c.hit opts key now with
      | some e => some (.one key, e.fetch)
      | none => some (.one key, (c.inflight key).getD c.flights.length)
  | .preload aborted =>
    if aborted then none else some (.all, c.allInflight.getD c.flights.length)
  | _ => none

/-- The keys whose value a flight hands out. -/
def Flight.keys (flight : Flight) : List String :=
  match flight.outcome with
  | .resolved secrets =>
    match flight.scope with
    | .one key => [key]
    | .all => secrets.map Secret.key
  | _ => []

/-- The cache hit of a read: its key and the fetch that the entry stems from. -/
def cacheHit (opts : SecretsClientOptions) (c : SecretsClient) : Label → Option (String × ℕ)
  | .getSecret key now aborted =>
    if aborted then none else (c.hit opts key now).map fun e => (key, e.fetch)
  | _ => none

/-- The values that a step returns to callers: their keys and the fetch that obtained them. -/
def returned (opts : SecretsClientOptions) (c : SecretsClient) : Label → List (String × ℕ)
  | .deliver f => ((c.flights[f]?.map Flight.keys).getD []).map fun key => (key, f)
  | a => (cacheHit opts c a).toList

end Comax.Sdk
