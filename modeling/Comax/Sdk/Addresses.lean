import Comax.Client.Paths
import Comax.Core.Address

/-!
# The addresses of two clients

The Go client resolves a relative path against its base; the SDK cuts the slashes at the end of its
base and puts the path behind it. Both ask for the same resource exactly when the two rules keep
the same segments of the base.
-/

namespace Comax.Sdk

open Comax.Core Comax.Client Comax.Server

/-- The bytes that `encodeURIComponent` leaves as they are. -/
def uriUnreserved (c : UInt8) : Bool := isAlnum c || (ascii "-_.!~*'()").contains c

/-- `encodeURIComponent` -/
def encodeURIComponent (s : Str) : Str :=
  s.flatMap fun c =>
    if uriUnreserved c then [c] else [byte '%', upperNibble (c / 16), upperNibble (c % 16)]

/-- `basePath` -/
def basePath (project env : Str) : Str :=
  ascii "/api/v1/projects/" ++ (encodeURIComponent project ++ (ascii "/envs/" ++
    encodeURIComponent env))

/-- A read of secrets: `preload` by `fetchAll`, or `getSecret` by `fetchOne`. -/
inductive SecretRead where
  | preload (project env : Str)
  | getSecret (project env key : Str)

namespace SecretRead

/-- The path that the read hands to `Http.get`. -/
def path : SecretRead → Str
  | preload p e => basePath p e ++ ascii "/secrets"
  | getSecret p e k => basePath p e ++ (ascii "/secrets/" ++ encodeURIComponent k)

/-- The operation of the Go client that reads the same. -/
def operation : SecretRead → Operation
  | preload p e => .listSecrets p e
  | getSecret p e k => .getSecret p e k

/-- The segments of the path. -/
def segs : SecretRead → List Str
  | preload p e => [ascii "api", ascii "v1", ascii "projects", encodeURIComponent p, ascii "envs",
      encodeURIComponent e, ascii "secrets"]
  | getSecret p e k => [ascii "api", ascii "v1", ascii "projects", encodeURIComponent p,
      ascii "envs", encodeURIComponent e, ascii "secrets", encodeURIComponent k]

end SecretRead

/-- The address of the request of `Http.request`: the constructor has cut the slashes at the end of
its base. -/
def requestAddress (baseUrl path : Str) : Option Address := do
  let (scheme, authority, path) ← splitURL (trimSlashes baseUrl ++ path)
  return ⟨scheme, authority, (urlSegments path).map decoded⟩

/-- The address of the request of `Client.do`. -/
def goRequestAddress (baseURL : Str) (op : Operation) : Option Address := do
  let (scheme, authority, path) ← splitURL baseURL
  let target ← op.target path
  return ⟨scheme, authority, (segments target).map decoded⟩

/-! ## The SDK's path -/

section Encode

variable {n : Str}

/-- A byte of a name is a plus sign, or it stays as it is and is neither a slash nor opens an
escape. -/
theorem encodeByte_cases {c : UInt8} (h : isAlnum c = true ∨ c ∈ ascii "-_.+") :
    c = byte '+' ∨ uriUnreserved c = true ∧ c ≠ byte '%' ∧ c ≠ slash := by
  have hmarks : (ascii "-_.+").all (fun c => c == byte '+' ||
      uriUnreserved c && c != byte '%' && c != slash) = true := by decide
  rcases h with halnum | hmark
  · refine .inr ⟨by rw [uriUnreserved, halnum, Bool.true_or], ?_, ?_⟩
    · rintro rfl
      exact absurd halnum (by decide)
    · rintro rfl
      exact absurd halnum (by decide)
  · have hmark' := List.all_eq_true.mp hmarks c hmark
    simp only [Bool.or_eq_true, Bool.and_eq_true, beq_iff_eq, bne_iff_ne, and_assoc] at hmark'
    exact hmark'

/-- An encoded byte of a name. -/
def encodedPlus : Str := [byte '%', byte '2', byte 'B']

/-- An encoded name begins with its first byte or the escape of a plus sign. -/
theorem encodeURIComponent_cons {c : UInt8} (h : isAlnum c = true ∨ c ∈ ascii "-_.+") (n : Str) :
    c = byte '+' ∧ encodeURIComponent (c :: n) = encodedPlus ++ encodeURIComponent n ∨
      (c ≠ byte '%' ∧ c ≠ slash) ∧ encodeURIComponent (c :: n) = c :: encodeURIComponent n := by
  rw [encodeURIComponent, List.flatMap_cons, ← encodeURIComponent]
  rcases encodeByte_cases h with rfl | ⟨hkeep, hne⟩
  · exact .inl ⟨rfl, rfl⟩
  · exact .inr ⟨hne, by rw [if_pos hkeep, List.singleton_append]⟩

/-- An encoded name is decoded to itself. -/
theorem pathUnescape_encodeURIComponent (h : ∀ c ∈ n, isAlnum c = true ∨ c ∈ ascii "-_.+") :
    pathUnescape (encodeURIComponent n) = some n := by
  induction n with
  | nil => rfl
  | cons c n ih =>
    obtain ⟨hc, hn⟩ := List.forall_mem_cons.mp h
    rcases encodeURIComponent_cons hc n with ⟨rfl, henc⟩ | ⟨hne, henc⟩
    · have hplus : fromHex (byte '2') = some 2 ∧ fromHex (byte 'B') = some 11 := by decide
      rw [henc, encodedPlus]
      simp only [List.cons_append, List.nil_append, pathUnescape, if_true, ih hn, hplus.1, hplus.2]
      rfl
    · rw [henc]
      unfold pathUnescape
      rw [if_neg hne.1, ih hn]
      rfl

/-- An encoded name has no slash. -/
theorem slash_not_mem_encodeURIComponent (h : ∀ c ∈ n, isAlnum c = true ∨ c ∈ ascii "-_.+") :
    slash ∉ encodeURIComponent n := by
  induction n with
  | nil => exact List.not_mem_nil
  | cons c n ih =>
    obtain ⟨hc, hn⟩ := List.forall_mem_cons.mp h
    rcases encodeURIComponent_cons hc n with ⟨-, henc⟩ | ⟨hne, henc⟩
    · rw [henc, List.mem_append, not_or]
      exact ⟨by decide, ih hn⟩
    · rw [henc, List.mem_cons, not_or]
      exact ⟨hne.2.symm, ih hn⟩

/-- An encoded name is a segment of its own. -/
theorem ownSegment_encodeURIComponent (h : PlainSegment n) (hdots : n ≠ dot ∧ n ≠ dotDot) :
    OwnSegment (encodeURIComponent n) ∧ decoded (encodeURIComponent n) = n := by
  have hdecode : decoded (encodeURIComponent n) = n := by
    rw [decoded, pathUnescape_encodeURIComponent h.bytes]
    rfl
  refine ⟨⟨fun hnil => ?_, slash_not_mem_encodeURIComponent h.bytes, by rwa [hdecode]⟩, hdecode⟩
  rw [hnil] at hdecode
  exact h.ne_nil hdecode.symm

end Encode

/-- A plain segment other than the dot segments is one of its own. -/
theorem ownSegment_of_plain {s : Str} (h : PlainSegment s) (hdots : s ≠ dot ∧ s ≠ dotDot) :
    OwnSegment s ∧ decoded s = s := by
  have hdecode : decoded s = s := by
    rw [decoded, pathUnescape_of_not_mem h.not_mem.2]
    rfl
  exact ⟨⟨h.ne_nil, h.not_mem.1, by rwa [hdecode]⟩, hdecode⟩

namespace SecretRead

variable {r : SecretRead}

/-- A segment of the path is an encoded name or a literal. -/
theorem mem_segs {s : Str} (h : s ∈ r.segs) :
    (∃ n ∈ r.operation.names, s = encodeURIComponent n) ∨
      s ∈ ["api", "v1", "projects", "envs", "secrets"].map ascii := by
  cases r with
  | preload p e =>
    simp only [operation, Operation.names, List.exists_mem_cons_iff, List.map_cons]
    simp only [segs, List.mem_cons] at h ⊢
    tauto
  | getSecret p e k =>
    simp only [operation, Operation.names, List.exists_mem_cons_iff, List.map_cons]
    simp only [segs, List.mem_cons] at h ⊢
    tauto

/-- The path is made of its segments. -/
theorem path_eq (r : SecretRead) : r.path = joinPath r.segs := by
  cases r <;> simp only [path, basePath, segs, joinPath, List.intercalate_cons_cons,
    List.intercalate_singleton, List.append_assoc] <;> rfl

/-- The path has segments. -/
theorem segs_ne_nil (r : SecretRead) : r.segs ≠ [] := by cases r <;> exact List.cons_ne_nil _ _

variable (hnames : ∀ n ∈ r.operation.names, PlainSegment n ∧ n ≠ dot ∧ n ≠ dotDot)
include hnames

/-- The segments of the SDK's path are segments of their own. -/
theorem ownSegment : ∀ s ∈ r.segs, OwnSegment s := by
  intro s hs
  rcases mem_segs hs with ⟨n, hn, rfl⟩ | hlit
  · exact (ownSegment_encodeURIComponent (hnames n hn).1 (hnames n hn).2).1
  · obtain ⟨hplain, hdots⟩ := plainSegment_literal hlit
    exact (ownSegment_of_plain hplain hdots).1

/-- The segments of the Go client's path are plain and no dot segments. -/
theorem plainSegment : ∀ s ∈ r.operation.segs, PlainSegment s ∧ s ≠ dot ∧ s ≠ dotDot := by
  intro s hs
  rcases Operation.mem_segs hs with hname | hlit
  · exact hnames s hname
  · exact plainSegment_literal hlit

/-- Decoded, the SDK's segments are those of the Go client. -/
theorem map_decoded_segs : r.segs.map decoded = r.operation.segs := by
  have hname : ∀ n ∈ r.operation.names, decoded (encodeURIComponent n) = n := fun n hn =>
    (ownSegment_encodeURIComponent (hnames n hn).1 (hnames n hn).2).2
  have hlit : ∀ s ∈ ["api", "v1", "projects", "envs", "secrets"], decoded (ascii s) = ascii s := by
    intro s hs
    obtain ⟨hplain, hdots⟩ := plainSegment_literal (List.mem_map_of_mem hs)
    exact (ownSegment_of_plain hplain hdots).2
  have hhead : [ascii "api", ascii "v1", ascii "projects"].map decoded =
      [ascii "api", ascii "v1", ascii "projects"] := by
    simp only [List.map_cons, List.map_nil, hlit "api" (by simp), hlit "v1" (by simp),
      hlit "projects" (by simp)]
  cases r with
  | preload p e =>
    have hp := hname p List.mem_cons_self
    have he := hname e (List.mem_cons_of_mem _ List.mem_cons_self)
    change [ascii "api", ascii "v1", ascii "projects"].map decoded ++ [_, _, _, _] = _
    rw [hhead, hp, he, hlit "envs" (by simp), hlit "secrets" (by simp)]
    rfl
  | getSecret p e k =>
    have hp := hname p List.mem_cons_self
    have he := hname e (List.mem_cons_of_mem _ List.mem_cons_self)
    have hk := hname k (List.mem_cons_of_mem _ (List.mem_cons_of_mem _ List.mem_cons_self))
    change [ascii "api", ascii "v1", ascii "projects"].map decoded ++ [_, _, _, _, _] = _
    rw [hhead, hp, he, hk, hlit "envs" (by simp), hlit "secrets" (by simp)]
    rfl

end SecretRead

/-! ## The two addresses -/

section Compare

variable {r : SecretRead}
  (hnames : ∀ n ∈ r.operation.names, PlainSegment n ∧ n ≠ dot ∧ n ≠ dotDot)
include hnames

/-- The Go client asks for what it keeps of the base and the segments of the operation. -/
theorem goRequestAddress_eq (u : HttpURL) : goRequestAddress u.text r.operation =
    some ⟨u.scheme.map foldCase, u.authority,
      (goPrefix u.path).map decoded ++ r.operation.segs⟩ := by
  have hplain := SecretRead.plainSegment hnames
  have hne : r.operation.segs ≠ [] := by cases r <;> exact List.cons_ne_nil _ _
  have htarget : r.operation.target u.path =
      some (joinPath (goPrefix u.path ++ r.operation.segs)) := by
    rw [Operation.target, Operation.trimPrefix_path fun n hn => (hnames n hn).1,
      parsePath_of_plain (.inl rfl) hne fun s hs => (hplain s hs).1, Option.map_some,
      resolvePath_intercalate _ hne hplain]
  have hsegs : segments (joinPath (goPrefix u.path ++ r.operation.segs)) =
      goPrefix u.path ++ r.operation.segs := by
    refine segments_joinPath (by simp [hne]) fun s hs => ?_
    rcases List.mem_append.mp hs with hs | hs
    · exact slash_not_mem_goPrefix s hs
    · exact (hplain s hs).1.not_mem.1
  have hdecode : r.operation.segs.map decoded = r.operation.segs :=
    map_pathUnescape_of_plain fun s hs => (hplain s hs).1
  rw [goRequestAddress, HttpURL.text, u.splitURL_eq u.rooted]
  simp only [Option.bind_eq_bind, Option.bind_some, htarget, hsegs, List.map_append, hdecode]
  rfl

/-- The SDK asks for what it keeps of its base and the same segments. -/
theorem requestAddress_eq (u : HttpURL) : requestAddress u.text r.path =
    some ⟨u.scheme.map foldCase, u.authority,
      (urlPrefix (trimSlashes u.path)).map decoded ++ r.operation.segs⟩ := by
  have htrim : trimSlashes u.path = [] ∨ (trimSlashes u.path).head? = some slash := by
    obtain ⟨n, hn⟩ := eq_trimSlashes_append u.path
    cases htrim : trimSlashes u.path with
    | nil => exact .inl rfl
    | cons c t =>
      right
      rw [htrim] at hn
      have hhead := u.rooted.resolve_left (by rw [hn]; exact List.cons_ne_nil _ _)
      rwa [hn] at hhead
  have hpath : trimSlashes u.path ++ r.path = [] ∨
      (trimSlashes u.path ++ r.path).head? = some slash := by
    right
    rw [r.path_eq]
    rcases htrim with htrim | htrim
    · rw [htrim]
      rfl
    · rw [List.head?_append, htrim, Option.some_or]
  have htext : trimSlashes u.text ++ r.path =
      u.scheme ++ (ascii "://" ++ (u.authority ++ (trimSlashes u.path ++ r.path))) := by
    rw [u.trimSlashes_text]
    simp only [List.append_assoc]
  rw [requestAddress, htext, u.splitURL_eq hpath, r.path_eq]
  simp only [Option.bind_eq_bind, Option.bind_some,
    urlSegments_append htrim r.segs_ne_nil (SecretRead.ownSegment hnames), List.map_append,
    SecretRead.map_decoded_segs hnames]
  rfl

end Compare

/-- For accepted names other than the dot segments both clients ask for the same resource exactly
when the base, up to its last slash and resolved by Go's rules, and the base without its slashes at
the end, resolved by those of the URL standard, have the same segments. For a base without dot
segments that is when its path is empty or ends in exactly one slash. -/
theorem sameAddress_iff (srv : Server) (field : String) (u : HttpURL) {r : SecretRead}
    (hnames : ∀ n ∈ r.operation.names,
      validateName srv field n = .ok () ∧ n ≠ dot ∧ n ≠ dotDot) :
    ((∃ a, goRequestAddress u.text r.operation = some a ∧ requestAddress u.text r.path = some a) ↔
      SamePrefix u.path) ∧
    ((∀ s ∈ u.path.splitOn slash, decoded s ≠ dot ∧ decoded s ≠ dotDot) →
      (SamePrefix u.path ↔ u.path = [] ∨ u.path = trimSlashes u.path ++ [slash])) := by
  have hplain : ∀ n ∈ r.operation.names, PlainSegment n ∧ n ≠ dot ∧ n ≠ dotDot := fun n hn =>
    ⟨plainSegment_of_name (hnames n hn).1, (hnames n hn).2⟩
  refine ⟨?_, samePrefix_iff u.rooted⟩
  rw [goRequestAddress_eq hplain, requestAddress_eq hplain]
  constructor
  · rintro ⟨a, hgo, hsdk⟩
    have heq := Option.some.inj (hgo.trans hsdk.symm)
    exact List.append_cancel_right (congrArg Address.segs heq)
  · intro hsame
    rw [SamePrefix] at hsame
    exact ⟨_, rfl, by rw [hsame]⟩

/-- A base behind a path prefix. -/
def behindPrefix : HttpURL where
  scheme := ascii "https"
  authority := ascii "h"
  path := ascii "/comax/"
  web := by decide
  host := by
    refine ⟨by decide, fun c hc => ?_⟩
    have hbytes : ascii "h" = [byte 'h'] := by decide
    rw [hbytes, List.mem_singleton] at hc
    rw [hc]
    decide
  rooted := by decide
  encoded := ⟨by decide, by rw [pathUnescape_of_not_mem (by decide)]; rfl⟩

/-- The prefix ends in one slash. -/
theorem sameAddress_iff_slash :
    ((∃ a, goRequestAddress behindPrefix.text
        (SecretRead.getSecret (ascii "p") (ascii "e") (ascii "A+B")).operation = some a ∧
      requestAddress behindPrefix.text
        (SecretRead.getSecret (ascii "p") (ascii "e") (ascii "A+B")).path = some a) ↔
      SamePrefix behindPrefix.path) ∧
    ((∀ s ∈ behindPrefix.path.splitOn slash, decoded s ≠ dot ∧ decoded s ≠ dotDot) →
      (SamePrefix behindPrefix.path ↔ behindPrefix.path = [] ∨
        behindPrefix.path = trimSlashes behindPrefix.path ++ [slash])) :=
  sameAddress_iff plainServer "name" behindPrefix (by
    intro n hn
    simp only [SecretRead.operation, Operation.names, List.mem_cons, List.not_mem_nil,
      or_false] at hn
    rcases hn with rfl | rfl | rfl <;> exact ⟨rfl, by decide, by decide⟩)

/-- Behind the prefix `/comax` the Go client leaves the prefix out, and the SDK does not. -/
theorem goRequestAddress_ne :
    validateName plainServer "name" (ascii "p") = .ok () ∧
    validateName plainServer "name" (ascii "e") = .ok () ∧
    goRequestAddress (ascii "https://h/comax") (.listSecrets (ascii "p") (ascii "e")) =
      some ⟨ascii "https", ascii "h", ["api", "v1", "projects", "p", "envs", "e", "secrets"].map
        ascii⟩ ∧
    requestAddress (ascii "https://h/comax") (SecretRead.preload (ascii "p") (ascii "e")).path =
      some ⟨ascii "https", ascii "h",
        ["comax", "api", "v1", "projects", "p", "envs", "e", "secrets"].map ascii⟩ := by
  refine ⟨rfl, rfl, ?_, ?_⟩ <;> decide +kernel

end Comax.Sdk
