import Comax.Cli.Dotenv
import Comax.Server.Routes

/-!
# The requests of the Go client

The client escapes each name, joins the names to a path and resolves it against its
base. A name that the server accepts is a segment of its own, unless it is one of the
two dot segments, which resolution removes.
-/

namespace Comax.Client

open Comax.Core Comax.Server

/-- The client's secret and environment operations, with the names in their paths. -/
inductive Operation where
  | listEnvs (projectName : Str)
  | createEnv (projectName : Str)
  | listSecrets (projectName envName : Str)
  | getSecret (projectName envName key : Str)
  | putSecret (projectName envName key : Str)

namespace Operation

/-- The method of the request. -/
def method : Operation → Method
  | createEnv _ => .post
  | putSecret _ _ _ => .put
  | _ => .get

/-- The path that the operation hands to `do`. -/
def path : Operation → Str
  | listEnvs p | createEnv p => ascii "/api/v1/projects/" ++ (pathEscape p ++ ascii "/envs")
  | listSecrets p e => ascii "/api/v1/projects/" ++ (pathEscape p ++ (ascii "/envs/" ++
      (pathEscape e ++ ascii "/secrets")))
  | getSecret p e k | putSecret p e k => ascii "/api/v1/projects/" ++ (pathEscape p ++
      (ascii "/envs/" ++ (pathEscape e ++ (ascii "/secrets/" ++ pathEscape k))))

/-- The names in the path. -/
def names : Operation → List Str
  | listEnvs p | createEnv p => [p]
  | listSecrets p e => [p, e]
  | getSecret p e k | putSecret p e k => [p, e, k]

/-- The handler that the operation is meant for. -/
def endpoint : Operation → Endpoint
  | listEnvs _ => .handleListEnvs
  | createEnv _ => .handleCreateEnv
  | listSecrets _ _ => .handleListSecrets
  | getSecret _ _ _ => .handleGetSecret
  | putSecret _ _ _ => .handlePutSecret

/-- The path of the request that `do` builds for a base with the given path. -/
def target (base : Str) (op : Operation) : Option Str :=
  (parsePath (Cli.trimPrefix op.path (ascii "/"))).map (resolvePath base)

/-- The request reaches the operation's handler with the operation's names. -/
def Reaches (base : Str) (op : Operation) : Prop :=
  ∃ path, op.target base = some path ∧
    muxPath op.method path = .served op.endpoint op.names

/-- The segments of the path when no name is escaped. -/
def segs : Operation → List Str
  | listEnvs p | createEnv p => [ascii "api", ascii "v1", ascii "projects", p, ascii "envs"]
  | listSecrets p e =>
    [ascii "api", ascii "v1", ascii "projects", p, ascii "envs", e, ascii "secrets"]
  | getSecret p e k | putSecret p e k =>
    [ascii "api", ascii "v1", ascii "projects", p, ascii "envs", e, ascii "secrets", k]

end Operation

/-- A name that the server accepts is a plain segment. -/
theorem plainSegment_of_name {srv : Server} {field : String} {n : Str}
    (h : validateName srv field n = .ok ()) : PlainSegment n := by
  obtain ⟨hne, -, hall⟩ := validateName_ok_iff.mp h
  refine ⟨hne, fun c hc => ?_⟩
  have hmarks : ascii "_-.+" = [byte '_', byte '-', byte '.', byte '+'] := by decide
  have hmarks' : ascii "-_.+" = [byte '-', byte '_', byte '.', byte '+'] := by decide
  have hallowed := hall c hc
  simp only [allowed, Bool.or_eq_true, List.contains_iff_mem, hmarks] at hallowed
  rcases hallowed with halnum | hmark
  · exact .inl (by simpa only [isAlnum, Bool.or_eq_true] using halnum)
  · right
    simp only [hmarks', List.mem_cons, List.not_mem_nil, or_false] at hmark ⊢
    tauto

variable {op : Operation}

/-- The segments of a path are its names and literals. -/
theorem Operation.mem_segs {s : Str} (h : s ∈ op.segs) :
    s ∈ op.names ∨ s ∈ ["api", "v1", "projects", "envs", "secrets"].map ascii := by
  cases op <;> simp [segs, names] at h ⊢ <;> tauto

/-- The literals of a path are plain segments and no dot segments. -/
theorem plainSegment_literal {s : Str}
    (h : s ∈ ["api", "v1", "projects", "envs", "secrets"].map ascii) :
    PlainSegment s ∧ s ≠ dot ∧ s ≠ dotDot := by
  have hall : ((["api", "v1", "projects", "envs", "secrets"].map ascii).all fun s =>
      s != [] && s.all isAlnum && s != dot && s != dotDot) = true := by decide
  have hs := List.all_eq_true.mp hall s h
  simp only [Bool.and_eq_true, bne_iff_ne, ne_eq, List.all_eq_true] at hs
  exact ⟨⟨hs.1.1.1, fun c hc => .inl (hs.1.1.2 c hc)⟩, hs.1.2, hs.2⟩

/-- The path of the request has no dot segment. -/
theorem Operation.mem_target {t : Str}
    (ht : t ∈ if op.segs.getLast? = some dot ∨ op.segs.getLast? = some dotDot
      then op.segs.foldl removeDot [] ++ [[]] else op.segs.foldl removeDot []) :
    t = [] ∨ t ∈ op.segs ∧ t ≠ dot ∧ t ≠ dotDot := by
  split_ifs at ht
  · rcases List.mem_append.mp ht with ht | ht
    · exact .inr ((mem_foldl_removeDot ht).resolve_left List.not_mem_nil)
    · exact .inl (List.mem_singleton.mp ht)
  · exact .inr ((mem_foldl_removeDot ht).resolve_left List.not_mem_nil)

section Names

variable (hnames : ∀ n ∈ op.names, PlainSegment n)
include hnames

/-- All segments of a path with accepted names are plain. -/
theorem Operation.plainSegment : ∀ s ∈ op.segs, PlainSegment s := by
  intro s hs
  rcases mem_segs hs with h | h
  · exact hnames s h
  · exact (plainSegment_literal h).1

/-- The reference that the client resolves. -/
theorem Operation.trimPrefix_path :
    Cli.trimPrefix op.path (ascii "/") = [slash].intercalate op.segs := by
  have hescape : ∀ n ∈ op.names, pathEscape n = n := fun n hn => pathEscape_of_plain (hnames n hn)
  cases op with
  | listEnvs p | createEnv p =>
    rw [path, hescape p (by simp [names])]
    rfl
  | listSecrets p e =>
    rw [path, hescape p (by simp [names]), hescape e (by simp [names])]
    rfl
  | getSecret p e k | putSecret p e k =>
    rw [path, hescape p (by simp [names]), hescape e (by simp [names]),
      hescape k (by simp [names])]
    simp only [segs, List.intercalate_cons_cons, List.intercalate_singleton, List.append_assoc]
    rfl

/-- The path of the request: the segments, less the dot segments. -/
theorem Operation.target_eq {base : Str} (hbase : RootBase base) :
    op.target base = some (joinPath
      (if op.segs.getLast? = some dot ∨ op.segs.getLast? = some dotDot
        then op.segs.foldl removeDot [] ++ [[]] else op.segs.foldl removeDot [])) := by
  have hplain := plainSegment hnames
  have hne : op.segs ≠ [] := by cases op <;> simp [segs]
  have hsplit : ([slash].intercalate op.segs).splitOn slash = op.segs :=
    List.splitOn_intercalate slash (fun s hs => (hplain s hs).not_mem.1) hne
  have hempty : ∀ s ∈ ([slash].intercalate op.segs).splitOn slash, s ≠ [] := by
    rw [hsplit]
    exact fun s hs => (hplain s hs).ne_nil
  rw [target, trimPrefix_path hnames, parsePath_of_plain (.inl rfl) hne hplain, Option.map_some,
    resolvePath_root hbase hempty, hsplit]

/-- Without dot segments the mux finds the operation's handler with the operation's names. -/
theorem Operation.lookup_segs :
    lookup patterns standIn op.method op.segs = some (op.endpoint, op.names) := by
  have hne : ∀ n ∈ op.names, n ≠ [] := fun n hn => (hnames n hn).ne_nil
  refine lookup_of_search ?_
  cases op with
  | listEnvs p | createEnv p =>
    have hp := hne p (by simp [names])
    simp only [method, segs, endpoint, names]
    exact search_lit (search_lit (search_lit (search_wild hp rfl (search_lit rfl))))
  | listSecrets p e =>
    have hp := hne p (by simp [names])
    have he := hne e (by simp [names])
    simp only [method, segs, endpoint, names]
    refine search_lit (search_lit (search_lit (search_wild hp rfl (search_lit ?_))))
    exact search_wild he rfl (search_lit rfl)
  | getSecret p e k | putSecret p e k =>
    have hp := hne p (by simp [names])
    have he := hne e (by simp [names])
    have hk := hne k (by simp [names])
    simp only [method, segs, endpoint, names]
    refine search_lit (search_lit (search_lit (search_wild hp rfl (search_lit ?_))))
    exact search_wild he rfl (search_lit (search_wild hk rfl rfl))

end Names

/-- The request reaches its route with its names exactly when none of them is a dot segment. -/
theorem Operation.reaches_iff (srv : Server) (field : String) {base : Str} (hbase : RootBase base)
    (h : ∀ n ∈ op.names, validateName srv field n = .ok ()) :
    op.Reaches base ↔ ∀ n ∈ op.names, n ≠ dot ∧ n ≠ dotDot := by
  have hnames : ∀ n ∈ op.names, PlainSegment n := fun n hn => plainSegment_of_name (h n hn)
  have hplain := plainSegment hnames
  have htarget := target_eq hnames hbase
  constructor
  · rintro ⟨path, hpath, hserved⟩ n hn
    obtain rfl := Option.some.inj (htarget.symm.trans hpath)
    obtain ⟨s, hs, rfl⟩ := mem_of_dispatch hserved n hn
    have hslash : ∀ t, t = [] ∨ t ∈ op.segs ∧ t ≠ dot ∧ t ≠ dotDot → slash ∉ t := by
      rintro t (rfl | ⟨ht, -⟩)
      · exact List.not_mem_nil
      · exact (hplain t ht).not_mem.1
    rcases mem_segments_joinPath (fun t ht => hslash t (mem_target ht)) hs with rfl | hs
    · exact absurd rfl (hnames _ hn).ne_nil
    · rcases mem_target hs with rfl | ⟨hmem, hdots⟩
      · exact absurd rfl (hnames _ hn).ne_nil
      · rwa [pathUnescape_of_not_mem (hplain s hmem).not_mem.2]
  · intro hdots
    have hsegs : ∀ s ∈ op.segs, s ≠ dot ∧ s ≠ dotDot := by
      intro s hs
      rcases mem_segs hs with hs | hs
      · exact hdots s hs
      · exact (plainSegment_literal hs).2
    have hne : op.segs ≠ [] := by cases op <;> simp [segs]
    have hlast : ¬(op.segs.getLast? = some dot ∨ op.segs.getLast? = some dotDot) := by
      rintro (hl | hl)
      · exact (hsegs _ (List.mem_of_getLast? hl)).1 rfl
      · exact (hsegs _ (List.mem_of_getLast? hl)).2 rfl
    rw [if_neg hlast, foldl_removeDot hsegs, List.nil_append] at htarget
    refine ⟨_, htarget, ?_⟩
    have hdecode := map_pathUnescape_of_plain hplain
    have hclean := cleanPath_joinPath hne fun s hs => ⟨hplain s hs, hsegs s hs⟩
    rw [muxPath, dispatch, parsePath_of_plain (.inr rfl) hne hplain]
    simp only [hclean, segments_joinPath hne fun s hs => (hplain s hs).not_mem.1, hdecode,
      lookup_segs hnames, ne_eq, not_true_eq_false, if_false]

/-- A key with a dot and a plus sign reaches its route. -/
theorem Operation.reaches_iff_plain :
    (putSecret (ascii "p") (ascii "e+1") (ascii "..a")).Reaches [slash] ↔
      ∀ n ∈ (putSecret (ascii "p") (ascii "e+1") (ascii "..a")).names, n ≠ dot ∧ n ≠ dotDot :=
  reaches_iff plainServer "name" (.inr rfl) (by
    intro n hn
    simp only [names, List.mem_cons, List.not_mem_nil, or_false] at hn
    rcases hn with rfl | rfl | rfl <;> rfl)

/-- The key `..` is a name, and a request for it is answered by the dashboard. -/
theorem Operation.not_reaches_dotDot :
    validateName plainServer "key" dotDot = .ok () ∧
      (getSecret (ascii "p") (ascii "e") dotDot).target [] =
        some (ascii "/api/v1/projects/p/envs/e/") ∧
      muxPath .get (ascii "/api/v1/projects/p/envs/e/") = .served .handleSPA [] ∧
      ¬(getSecret (ascii "p") (ascii "e") dotDot).Reaches [] := by
  have htarget : (getSecret (ascii "p") (ascii "e") dotDot).target [] =
      some (ascii "/api/v1/projects/p/envs/e/") := by decide +kernel
  have hserved : muxPath .get (ascii "/api/v1/projects/p/envs/e/") = .served .handleSPA [] := by
    decide +kernel
  refine ⟨rfl, htarget, hserved, ?_⟩
  rintro ⟨path, hpath, hreached⟩
  obtain rfl := Option.some.inj (htarget.symm.trans hpath)
  exact absurd (hserved.symm.trans hreached) (by simp [endpoint])

end Comax.Client
