import Comax.Core.Url

/-!
# A mux of method and path patterns

The patterns form a tree, and a path is matched from its root: at each segment a
literal goes before a wildcard for one segment, and that before a wildcard for all the
rest. The values of a match are segments of the path.
-/

namespace Comax.Core

/-- One part of a pattern. -/
inductive Part where
  /-- The segment itself. -/
  | lit (s : Str)
  /-- One segment, which becomes a value. -/
  | wild
  /-- All segments that are left. -/
  | rest
  deriving DecidableEq

variable {μ ε : Type}

/-- A pattern, for one method or for all of them, and its handler. -/
structure Pattern (μ ε : Type) where
  method : Option μ
  parts : List Part
  handler : ε

/-- The branch of a pattern below a part. -/
def follow (part : Part) : List Part × ε → Option (List Part × ε)
  | ([], _) => none
  | (p :: ps, h) => if p = part then some (ps, h) else none

/-- The handler of the most specific pattern, with the values of its wildcards. -/
def search : List (List Part × ε) → List Str → Option (ε × List Str)
  | table, [] => (table.find? fun r => r.1 = []).map fun r => (r.2, [])
  | table, seg :: segs =>
    (search (table.filterMap (follow (.lit seg))) segs).or
      ((if seg = [] then none
        else (search (table.filterMap (follow .wild)) segs).map fun r => (r.1, seg :: r.2)).or
          ((table.find? fun r => r.1 = [.rest]).map fun r => (r.2, [])))

/-- The values of a match are segments of the path. -/
theorem mem_of_search {table : List (List Part × ε)} {segs : List Str} {h : ε} {values : List Str}
    (hs : search table segs = some (h, values)) : ∀ v ∈ values, v ∈ segs := by
  induction segs generalizing table values with
  | nil =>
    rw [search] at hs
    obtain ⟨r, -, he⟩ := Option.map_eq_some_iff.mp hs
    cases he
    simp
  | cons seg segs ih =>
    rw [search, Option.or_eq_some_iff] at hs
    rcases hs with hs | ⟨-, hs⟩
    · exact fun v hv => List.mem_cons_of_mem _ (ih hs v hv)
    · rw [Option.or_eq_some_iff] at hs
      rcases hs with hs | ⟨-, hs⟩
      · split_ifs at hs with hseg
        obtain ⟨r, hr, he⟩ := Option.map_eq_some_iff.mp hs
        cases he
        intro v hv
        rcases List.mem_cons.mp hv with rfl | hv
        · exact List.mem_cons_self
        · exact List.mem_cons_of_mem _ (ih hr v hv)
      · obtain ⟨r, -, he⟩ := Option.map_eq_some_iff.mp hs
        cases he
        simp

section Search

variable {table : List (List Part × ε)} {seg : Str} {segs : List Str}

/-- Nothing is found among no patterns. -/
theorem search_nil (segs : List Str) : search ([] : List (List Part × ε)) segs = none := by
  induction segs with
  | nil => rfl
  | cons seg segs ih =>
    rw [search, List.filterMap_nil, List.filterMap_nil, ih]
    simp

/-- A match below a literal is the match. -/
theorem search_lit {r : ε × List Str}
    (h : search (table.filterMap (follow (.lit seg))) segs = some r) :
    search table (seg :: segs) = some r := by
  rw [search, h, Option.some_or]

/-- A match below a wildcard is the match where there is no literal. -/
theorem search_wild {h : ε} {values : List Str} (hseg : seg ≠ [])
    (hlit : table.filterMap (follow (.lit seg)) = [])
    (hwild : search (table.filterMap (follow .wild)) segs = some (h, values)) :
    search table (seg :: segs) = some (h, seg :: values) := by
  rw [search, hlit, search_nil, Option.none_or, if_neg hseg, hwild]
  rfl

end Search

variable [DecidableEq μ]

/-- The patterns of a method, or those without one. -/
def branch (patterns : List (Pattern μ ε)) (method : Option μ) : List (List Part × ε) :=
  patterns.filterMap fun p => if p.method = method then some (p.parts, p.handler) else none

/-- A method that another stands in for, and the patterns without a method, are tried last. -/
def lookup (patterns : List (Pattern μ ε)) (standIn : μ → Option μ) (method : μ)
    (segs : List Str) : Option (ε × List Str) :=
  (search (branch patterns (some method)) segs).or
    (((standIn method).bind fun m => search (branch patterns (some m)) segs).or
      (search (branch patterns none) segs))

/-- What becomes of a request. -/
inductive Dispatch (ε : Type) where
  | badRequest
  | redirect (path : Str)
  | unmatched
  | served (handler : ε) (values : List Str)
  deriving DecidableEq

/-- A request line is parsed, its path cleaned, and its segments unescaped and matched. -/
def dispatch (patterns : List (Pattern μ ε)) (standIn : μ → Option μ) (method : μ) (path : Str) :
    Dispatch ε :=
  match parsePath path with
  | none => .badRequest
  | some escaped =>
    if cleanPath escaped ≠ escaped then .redirect (cleanPath escaped)
    else
      match lookup patterns standIn method
        ((segments escaped).map fun s => (pathUnescape s).getD s) with
      | none => .unmatched
      | some (h, values) => .served h values

variable {patterns : List (Pattern μ ε)} {standIn : μ → Option μ} {method : μ}

/-- A match among the patterns of the method is the match. -/
theorem lookup_of_search {segs : List Str} {r : ε × List Str}
    (h : search (branch patterns (some method)) segs = some r) :
    lookup patterns standIn method segs = some r := by
  rw [lookup, h, Option.some_or]

/-- The values of a match are segments of the path. -/
theorem mem_of_lookup {segs : List Str} {h : ε} {values : List Str}
    (hl : lookup patterns standIn method segs = some (h, values)) : ∀ v ∈ values, v ∈ segs := by
  rw [lookup, Option.or_eq_some_iff] at hl
  rcases hl with hl | ⟨-, hl⟩
  · exact mem_of_search hl
  · rw [Option.or_eq_some_iff] at hl
    rcases hl with hl | ⟨-, hl⟩
    · obtain ⟨m, -, hm⟩ := Option.bind_eq_some_iff.mp hl
      exact mem_of_search hm
    · exact mem_of_search hl

/-- The values of a served request are unescaped segments of its path. -/
theorem mem_of_dispatch {path : Str} {h : ε} {values : List Str}
    (hd : dispatch patterns standIn method path = .served h values) :
    ∀ v ∈ values, ∃ s ∈ segments path, v = (pathUnescape s).getD s := by
  rw [dispatch] at hd
  split at hd
  · cases hd
  · rename_i escaped hparse
    obtain rfl : path = escaped := by
      rw [parsePath] at hparse
      split_ifs at hparse
      obtain ⟨t, -, ht⟩ := Option.map_eq_some_iff.mp hparse
      exact ht
    split_ifs at hd with hclean
    split at hd
    · cases hd
    · rename_i h' values' hl
      cases hd
      intro v hv
      obtain ⟨s, hs, rfl⟩ := List.mem_map.mp (mem_of_lookup hl v hv)
      exact ⟨s, hs, rfl⟩

end Comax.Core
