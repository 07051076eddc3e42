import Comax.Core.Like
import Comax.Core.Url

/-!
# Addresses

An http or https URL by its scheme, authority and path, and a URL up to the percent-encoding of its
path segments. The URL standard takes an encoded dot for a dot when it removes dot segments.
-/

namespace Comax

open Comax.Core

/-- An http or https URL without query and fragment. -/
structure HttpURL where
  scheme : Str
  authority : Str
  path : Str
  web : scheme.map foldCase = ascii "http" ∨ scheme.map foldCase = ascii "https"
  host : authority ≠ [] ∧ ∀ c ∈ authority, c ≠ slash ∧ c ∉ ascii "?#\\"
  rooted : path = [] ∨ path.head? = some slash
  encoded : path.all encodedByte = true ∧ (pathUnescape path).isSome = true

/-- The text of a URL. -/
def HttpURL.text (u : HttpURL) : Str := u.scheme ++ (ascii "://" ++ (u.authority ++ u.path))

/-- The scheme, authority and path of a URL text. -/
def splitURL (s : Str) : Option (Str × Str × Str) :=
  let scheme := s.takeWhile (· != byte ':')
  let rest := s.drop scheme.length
  if (ascii "://").isPrefixOf rest then
    let rest := rest.drop 3
    let authority := rest.takeWhile (· != slash)
    if (scheme.map foldCase = ascii "http" ∨ scheme.map foldCase = ascii "https") ∧ authority ≠ []
    then some (scheme.map foldCase, authority, rest.drop authority.length)
    else none
  else none

/-- A URL up to the percent-encoding of its path segments. -/
structure Address where
  scheme : Str
  authority : Str
  segs : List Str
  deriving DecidableEq

/-- A segment with its escapes decoded. -/
def decoded (s : Str) : Str := (pathUnescape s).getD s

/-- `s.replace(/\/+$/, "")` -/
def trimSlashes (s : Str) : Str := (s.reverse.dropWhile (· == slash)).reverse

/-- A segment of the path in the parser of the URL standard. -/
def urlStep (dst : List Str) (elem : Str) : List Str :=
  if decoded elem = dot then dst else if decoded elem = dotDot then dst.dropLast else dst ++ [elem]

/-- The segments of a path that the parser of the URL standard keeps. -/
def urlSegments (path : Str) : List Str :=
  let elems := segments path
  let dst := elems.foldl urlStep []
  if (elems.getLast?.map decoded = some dot) ∨ elems.getLast?.map decoded = some dotDot
  then dst ++ [[]] else dst

/-! ## The text of a URL -/

/-- A web scheme has no colon. -/
theorem HttpURL.colon_not_mem (u : HttpURL) : byte ':' ∉ u.scheme := by
  intro hmem
  have hfold : foldCase (byte ':') = byte ':' := by decide
  have hcolon := List.mem_map_of_mem (f := foldCase) hmem
  rw [hfold] at hcolon
  rcases u.web with h | h
  · rw [h] at hcolon
    exact absurd hcolon (by decide)
  · rw [h] at hcolon
    exact absurd hcolon (by decide)

/-- A text with a scheme, an authority and a rooted path is split into them. -/
theorem HttpURL.splitURL_eq (u : HttpURL) {path : Str}
    (hpath : path = [] ∨ path.head? = some slash) :
    splitURL (u.scheme ++ (ascii "://" ++ (u.authority ++ path))) =
      some (u.scheme.map foldCase, u.authority, path) := by
  have hscheme : (u.scheme ++ (ascii "://" ++ (u.authority ++ path))).takeWhile (· != byte ':') =
      u.scheme := takeWhile_before u.colon_not_mem (.inr rfl)
  have hauthority : (u.authority ++ path).takeWhile (· != slash) = u.authority :=
    takeWhile_before (fun hmem => (u.host.2 _ hmem).1 rfl) hpath
  have hcolon : (ascii "://").isPrefixOf (ascii "://" ++ (u.authority ++ path)) = true :=
    List.isPrefixOf_iff_prefix.mpr (List.prefix_append _ _)
  have hdrop : (ascii "://" ++ (u.authority ++ path)).drop 3 = u.authority ++ path := rfl
  simp only [splitURL, hscheme, List.drop_left, hcolon, if_true, hdrop, hauthority]
  rw [if_pos ⟨u.web, u.host.1⟩]

/-- Slashes at the end of a URL are those of its path. -/
theorem HttpURL.trimSlashes_text (u : HttpURL) : trimSlashes u.text =
    u.scheme ++ (ascii "://" ++ (u.authority ++ trimSlashes u.path)) := by
  have hlast : ∀ t : Str, (u.authority.reverse ++ t).dropWhile (· == slash) =
      u.authority.reverse ++ t := by
    intro t
    obtain ⟨c, rest, hrev⟩ := List.exists_cons_of_ne_nil
      (mt List.reverse_eq_nil_iff.mp u.host.1)
    have hc : c ≠ slash := (u.host.2 c (by rw [← List.mem_reverse, hrev]; simp)).1
    rw [hrev, List.cons_append, List.dropWhile_cons_of_neg (by simpa using hc)]
  rw [trimSlashes, trimSlashes, text, List.reverse_append, List.reverse_append,
    List.reverse_append, List.append_assoc, List.append_assoc, List.dropWhile_append]
  split_ifs with hnil
  · rw [hlast, List.isEmpty_iff.mp hnil]
    simp
  · simp

/-! ## Prefixes of paths -/

section Prefixes

variable {segs : List Str}

/-- What Go's resolution keeps of a base for a relative reference. -/
def goPrefix (base : Str) : List Str :=
  dropRoot ((base.splitOn slash).dropLast.foldl resolveStep ([], true)).1

/-- What the parser of the URL standard keeps of a base that is put before a rooted path. -/
def urlPrefix (base : Str) : List Str := (base.splitOn slash).tail.foldl urlStep []

/-- A segment that stands for itself and is no dot segment. -/
structure OwnSegment (s : Str) : Prop where
  ne_nil : s ≠ []
  slash_not_mem : slash ∉ s
  not_dots : decoded s ≠ dot ∧ decoded s ≠ dotDot

/-- Without dot segments every segment is kept. -/
theorem foldl_urlStep (h : ∀ s ∈ segs, decoded s ≠ dot ∧ decoded s ≠ dotDot) (dst : List Str) :
    segs.foldl urlStep dst = dst ++ segs := by
  induction segs generalizing dst with
  | nil => rw [List.foldl_nil, List.append_nil]
  | cons s segs ih =>
    obtain ⟨⟨hdot, hdotDot⟩, hsegs⟩ := List.forall_mem_cons.mp h
    rw [List.foldl_cons, urlStep, if_neg hdot, if_neg hdotDot, ih hsegs, List.append_assoc,
      List.singleton_append]

/-- The segments of a rooted path after a base. -/
theorem segments_append_joinPath {base : Str} (hbase : base = [] ∨ base.head? = some slash)
    (hne : segs ≠ []) (hslash : ∀ s ∈ segs, slash ∉ s) :
    segments (base ++ joinPath segs) = (base.splitOn slash).tail ++ segs := by
  cases base with
  | nil =>
    rw [List.nil_append, segments_joinPath hne hslash]
    rfl
  | cons c base =>
    obtain rfl : c = slash := Option.some.inj (hbase.resolve_left (List.cons_ne_nil _ _))
    have hsplit : (slash :: base).splitOn slash = [[]] ++ base.splitOn slash :=
      List.splitOn_append_cons_self [] base
    rw [segments, List.cons_append, List.head?_cons, if_pos rfl, List.tail_cons, joinPath,
      List.splitOn_append_cons_self, List.splitOn_intercalate slash hslash hne, hsplit]
    rfl

/-- The parser keeps its prefix of the base and all segments after it. -/
theorem urlSegments_append {base : Str} (hbase : base = [] ∨ base.head? = some slash)
    (hne : segs ≠ []) (h : ∀ s ∈ segs, OwnSegment s) :
    urlSegments (base ++ joinPath segs) = urlPrefix base ++ segs := by
  have hlast : ((base.splitOn slash).tail ++ segs).getLast? = segs.getLast? :=
    List.getLast?_append_of_ne_nil _ hne
  have hdots : ¬(segs.getLast?.map decoded = some dot ∨
      segs.getLast?.map decoded = some dotDot) := by
    obtain ⟨init, s, rfl⟩ := (List.eq_nil_or_concat' segs).resolve_left hne
    have hs := (h s (by simp)).not_dots
    simpa using hs
  simp only [urlSegments, segments_append_joinPath hbase hne fun s hs => (h s hs).slash_not_mem,
    hlast, if_neg hdots, List.foldl_append, foldl_urlStep fun s hs => (h s hs).not_dots, urlPrefix]

/-- Segments that are not empty follow what is kept. -/
theorem dropRoot_append {dst : List Str} (h : ∀ s ∈ segs, s ≠ []) :
    dropRoot (dst ++ segs) = dropRoot dst ++ segs := by
  match dst with
  | [] =>
    cases segs with
    | nil => rfl
    | cons s segs =>
      obtain ⟨c, s, rfl⟩ := List.exists_cons_of_ne_nil (h s List.mem_cons_self)
      rfl
  | [] :: dst => rfl
  | (c :: s) :: dst => rfl

/-- Go keeps its prefix of the base and all segments of the reference. -/
theorem resolvePath_intercalate (base : Str) (hne : segs ≠ [])
    (h : ∀ s ∈ segs, PlainSegment s ∧ s ≠ dot ∧ s ≠ dotDot) :
    resolvePath base ([slash].intercalate segs) = joinPath (goPrefix base ++ segs) := by
  obtain ⟨c, t, ht, hc⟩ := intercalate_eq_cons hne fun s hs => (h s hs).1
  have hsplit : ([slash].intercalate segs).splitOn slash = segs :=
    List.splitOn_intercalate slash (fun s hs => (h s hs).1.not_mem.1) hne
  have hlast : ¬(segs.getLast? = some dot ∨ segs.getLast? = some dotDot) := by
    rintro (hl | hl)
    · exact (h _ (List.mem_of_getLast? hl)).2.1 rfl
    · exact (h _ (List.mem_of_getLast? hl)).2.2 rfl
  have hdst := foldl_resolveStep (fun s hs => (h s hs).2) hne
    ((base.splitOn slash).dropLast.foldl resolveStep ([], true))
  rw [← List.foldl_append, ← hsplit] at hdst
  rw [resolvePath_relative (by simp [ht]) (by simpa [ht] using hc.symm) hdst, hsplit, if_neg hlast,
    goPrefix, dropRoot_append fun s hs => (h s hs).1.ne_nil]

/-- The prefixes of a base have no slash in their segments. -/
theorem slash_not_mem_goPrefix {base : Str} : ∀ s ∈ goPrefix base, slash ∉ s := by
  have hall : ∀ s ∈ ((base.splitOn slash).dropLast.foldl resolveStep ([], true)).1, slash ∉ s :=
    not_mem_foldl_resolveStep (fun s hs => by cases hs) fun s hs =>
      not_mem_of_mem_splitOn (List.mem_of_mem_dropLast hs)
  intro s hs
  rw [goPrefix] at hs
  generalize ((base.splitOn slash).dropLast.foldl resolveStep ([], true)).1 = dst at hall hs
  match dst with
  | [] => exact hall s hs
  | [] :: dst => exact hall s (List.mem_cons_of_mem _ hs)
  | (c :: t) :: dst => exact hall s hs

/-- Of a base and of the base without its slashes at the end the same segments are kept. -/
def SamePrefix (base : Str) : Prop :=
  (goPrefix base).map decoded = (urlPrefix (trimSlashes base)).map decoded

/-- A path is what is left without its slashes at the end, and those. -/
theorem eq_trimSlashes_append (s : Str) : ∃ n, s = trimSlashes s ++ List.replicate n slash := by
  refine ⟨(s.reverse.takeWhile (· == slash)).length, ?_⟩
  have hslashes : s.reverse.takeWhile (· == slash) =
      List.replicate (s.reverse.takeWhile (· == slash)).length slash :=
    List.eq_replicate_of_mem fun c hc => by simpa using List.mem_takeWhile_imp hc
  have hsplit := congrArg List.reverse (List.takeWhile_append_dropWhile (p := (· == slash))
    (l := s.reverse))
  rw [List.reverse_append, List.reverse_reverse, hslashes, List.reverse_replicate] at hsplit
  exact hsplit.symm

/-- Each slash at the end is an empty segment. -/
theorem splitOn_append_replicate (s : Str) (n : ℕ) :
    (s ++ List.replicate n slash).splitOn slash = s.splitOn slash ++ List.replicate n [] := by
  induction n with
  | zero => simp
  | succ n ih =>
    rw [List.replicate_succ', ← List.append_assoc, List.splitOn_append_cons_self, ih,
      List.replicate_succ', List.append_assoc]
    rfl

/-- For a base without dot segments the same segments are kept exactly when its path is empty or
ends in one slash. -/
theorem samePrefix_iff {path : Str} (hpath : path = [] ∨ path.head? = some slash)
    (hdots : ∀ s ∈ path.splitOn slash, decoded s ≠ dot ∧ decoded s ≠ dotDot) :
    SamePrefix path ↔ path = [] ∨ path = trimSlashes path ++ [slash] := by
  cases path with
  | nil => exact iff_of_true rfl (.inl rfl)
  | cons c rest =>
    obtain rfl : c = slash := Option.some.inj (hpath.resolve_left (List.cons_ne_nil _ _))
    have hroot : (slash :: rest).splitOn slash = [] :: rest.splitOn slash :=
      List.splitOn_append_cons_self [] rest
    obtain ⟨n, hn⟩ := eq_trimSlashes_append (slash :: rest)
    rw [SamePrefix]
    generalize trimSlashes (slash :: rest) = t at hn ⊢
    have hsplit := congrArg (List.splitOn slash) hn
    rw [splitOn_append_replicate] at hsplit
    have hplain : ∀ s ∈ ((slash :: rest).splitOn slash).dropLast, s ≠ dot ∧ s ≠ dotDot := by
      intro s hs
      have hs' := hdots s (List.mem_of_mem_dropLast hs)
      exact ⟨fun he => hs'.1 (by rw [he]; rfl), fun he => hs'.2 (by rw [he]; rfl)⟩
    have hgo : goPrefix (slash :: rest) = ((slash :: rest).splitOn slash).dropLast.tail := by
      rw [hroot, List.dropLast_cons_of_ne_nil (List.splitOn_ne_nil _ _)] at hplain ⊢
      rw [goPrefix, hroot, List.dropLast_cons_of_ne_nil (List.splitOn_ne_nil _ _),
        foldl_resolveStep hplain (List.cons_ne_nil _ _)]
      rfl
    have hurl : urlPrefix t = (t.splitOn slash).tail := by
      refine foldl_urlStep (fun s hs => hdots s ?_) []
      rw [hsplit]
      exact List.mem_append_left _ (List.mem_of_mem_tail hs)
    rw [hgo, hurl]
    constructor
    · intro hmap
      have hlen := congrArg List.length hmap
      have htotal := congrArg List.length hsplit
      have hpos : 0 < (t.splitOn slash).length :=
        List.length_pos_of_ne_nil (List.splitOn_ne_nil _ _)
      have hpos' : 0 < (rest.splitOn slash).length :=
        List.length_pos_of_ne_nil (List.splitOn_ne_nil _ _)
      rw [List.length_append, List.length_replicate] at htotal
      rw [List.length_map, List.length_map, List.length_tail, List.length_tail,
        List.length_dropLast]
        at hlen
      have hcons := congrArg List.length hroot
      rw [List.length_cons] at hcons
      obtain rfl : n = 1 := by omega
      exact .inr hn
    · intro hend
      have hone := congrArg (List.splitOn slash) (hend.resolve_left (List.cons_ne_nil _ _))
      have hsplit' : (t ++ [slash]).splitOn slash = t.splitOn slash ++ [[]] :=
        splitOn_append_replicate t 1
      rw [hone, hsplit', List.dropLast_concat]

end Prefixes

end Comax
