import Comax.Core.Hex
import Mathlib.Data.List.TakeWhile

/-!
# Paths of URLs

Escaping and unescaping of path segments, resolution of a reference against a base
with removal of its dot segments, and path cleaning. All of them leave a path alone
whose segments are plain names.
-/

namespace Comax

/-- The byte between the segments of a path. -/
def slash : UInt8 := byte '/'

/-- The segment that stands for its parent path. -/
def dot : Str := [byte '.']

/-- The segment that goes one level up. -/
def dotDot : Str := [byte '.', byte '.']

/-- A letter or a digit. -/
def isAlnum (c : UInt8) : Bool :=
  (byte 'a' ≤ c && c ≤ byte 'z') || (byte 'A' ≤ c && c ≤ byte 'Z') ||
    (byte '0' ≤ c && c ≤ byte '9')

/-- The bytes that `url.PathEscape` leaves as they are. -/
def unescaped (c : UInt8) : Bool := isAlnum c || (ascii "-_.~$&+:=@").contains c

/-- An upper-case digit of a half byte. -/
def upperNibble (n : UInt8) : UInt8 := if n < 10 then byte '0' + n else byte 'A' + (n - 10)

/-- `url.PathEscape` -/
def pathEscape (s : Str) : Str :=
  s.flatMap fun c =>
    if unescaped c then [c] else [byte '%', upperNibble (c / 16), upperNibble (c % 16)]

/-- The half byte of a digit. -/
def fromHex (c : UInt8) : Option UInt8 :=
  if byte '0' ≤ c ∧ c ≤ byte '9' then some (c - byte '0')
  else if byte 'a' ≤ c ∧ c ≤ byte 'f' then some (c - byte 'a' + 10)
  else if byte 'A' ≤ c ∧ c ≤ byte 'F' then some (c - byte 'A' + 10)
  else none

/-- `url.PathUnescape` -/
def pathUnescape : Str → Option Str
  | [] => some []
  | c :: rest =>
    if c = byte '%' then
      match rest with
      | a :: b :: rest => do return ((← fromHex a) * 16 + (← fromHex b)) :: (← pathUnescape rest)
      | _ => none
    else (c :: ·) <$> pathUnescape rest

/-- The segments after the first slash of a path. -/
def segments (path : Str) : List Str :=
  (if path.head? = some slash then path.tail else path).splitOn slash

/-- The path of some segments. -/
def joinPath (segs : List Str) : Str := slash :: [slash].intercalate segs

/-- The path that a reference is merged with: the base up to its last slash. -/
def directory (base : Str) : Str := (base.reverse.dropWhile (· != slash)).reverse

/-- The removal of dot segments, one segment at a time. -/
def removeDot (dst : List Str) (elem : Str) : List Str :=
  if elem = dot then dst else if elem = dotDot then dst.dropLast else dst ++ [elem]

/-- A turn of the loop of Go's `resolvePath`, with the segments of what is written after the leading
slash and whether the next segment is the first one. -/
def resolveStep (st : List Str × Bool) (elem : Str) : List Str × Bool :=
  if elem = dot then (if st.2 then [[]] else st.1, false)
  else if elem = dotDot then if st.1.length ≤ 1 then ([], true) else (st.1.dropLast, st.2)
  else (st.1 ++ [elem], false)

/-- The path of a reference resolved against the path of a base. -/
def resolvePath (base ref : Str) : Str :=
  let full := if ref = [] then base else if ref.head? = some slash then ref
    else directory base ++ ref
  if full = [] then []
  else
    let elems := full.splitOn slash
    let dst := [slash].intercalate (elems.foldl resolveStep ([], true)).1 ++
      if elems.getLast? = some dot ∨ elems.getLast? = some dotDot then [slash] else []
    -- One slash is written already.
    if dst.head? = some slash then dst else slash :: dst

/-- One segment under `path.Clean`, of a rooted path. -/
def cleanStep (dst : List Str) (elem : Str) : List Str :=
  if elem = [] then dst else removeDot dst elem

/-- The path that a mux serves instead of a path. -/
def cleanPath (path : Str) : Str :=
  let dst := (segments path).foldl cleanStep []
  if dst ≠ [] ∧ path.getLast? = some slash then joinPath dst ++ [slash] else joinPath dst

/-- The bytes that may stand in an encoded path. -/
def encodedByte (c : UInt8) : Bool := isAlnum c || (ascii "-_.~$&+,/:;=@!'()*[]%").contains c

/-- The encoded path of a text that is a path and nothing else, with well-formed escapes: it
has no scheme, authority, query or fragment. -/
def parsePath (s : Str) : Option Str :=
  if s.all encodedByte && !(ascii "//").isPrefixOf s &&
      !(s.takeWhile (· != slash)).contains (byte ':') then
    (pathUnescape s).map fun _ => s
  else none

/-! ## Plain segments -/

/-- A segment of letters, digits and four marks. -/
structure PlainSegment (s : Str) : Prop where
  ne_nil : s ≠ []
  bytes : ∀ c ∈ s, isAlnum c = true ∨ c ∈ ascii "-_.+"

variable {s : Str} {segs : List Str}

/-- A plain byte is neither a slash nor opens an escape. -/
theorem PlainSegment.not_mem (h : PlainSegment s) : slash ∉ s ∧ byte '%' ∉ s := by
  have hno : ∀ {d : UInt8}, isAlnum d = false → d ∉ ascii "-_.+" → d ∉ s := by
    intro d hd hextra hm
    rcases h.bytes d hm with halnum | he
    · rw [hd] at halnum
      cases halnum
    · exact hextra he
  exact ⟨hno (by decide) (by decide), hno (by decide) (by decide)⟩

/-- A text without an escape stands for itself. -/
theorem pathUnescape_of_not_mem (h : byte '%' ∉ s) : pathUnescape s = some s := by
  induction s with
  | nil => rfl
  | cons c s ih =>
    have hc : c ≠ byte '%' := fun he => h (he ▸ List.mem_cons_self)
    unfold pathUnescape
    rw [if_neg hc, ih fun hm => h (List.mem_cons_of_mem _ hm)]
    rfl

/-- Plain segments are decoded to themselves. -/
theorem map_pathUnescape_of_plain (h : ∀ s ∈ segs, PlainSegment s) :
    segs.map (fun s => (pathUnescape s).getD s) = segs := by
  refine (List.map_congr_left fun s hs => ?_).trans (List.map_id _)
  rw [pathUnescape_of_not_mem (h s hs).not_mem.2]
  rfl

/-- A plain segment is not escaped. -/
theorem pathEscape_of_plain (h : PlainSegment s) : pathEscape s = s := by
  have hbyte : ∀ c ∈ s, (if unescaped c then [c]
      else [byte '%', upperNibble (c / 16), upperNibble (c % 16)]) = [c] := by
    intro c hc
    rw [if_pos]
    rcases h.bytes c hc with halnum | hextra
    · simp [unescaped, halnum]
    · have hall : ((ascii "-_.+").all unescaped) = true := by decide
      exact List.all_eq_true.mp hall c hextra
  rw [pathEscape, List.flatMap_congr hbyte]
  exact List.flatMap_singleton' s

/-- The segments of a joined path. -/
theorem segments_joinPath (hne : segs ≠ []) (hslash : ∀ s ∈ segs, slash ∉ s) :
    segments (joinPath segs) = segs := by
  rw [segments, joinPath, List.head?_cons, if_pos rfl, List.tail_cons]
  exact List.splitOn_intercalate slash hslash hne

/-- A segment of a joined path is empty or one of those joined. -/
theorem mem_segments_joinPath (hslash : ∀ s ∈ segs, slash ∉ s) {t : Str}
    (h : t ∈ segments (joinPath segs)) : t = [] ∨ t ∈ segs := by
  by_cases hnil : segs = []
  · rw [hnil] at h
    exact .inl (List.mem_singleton.mp h)
  · rw [segments_joinPath hnil hslash] at h
    exact .inr h

/-- Without dot segments nothing is removed. -/
theorem foldl_removeDot (h : ∀ s ∈ segs, s ≠ dot ∧ s ≠ dotDot) (dst : List Str) :
    segs.foldl removeDot dst = dst ++ segs := by
  induction segs generalizing dst with
  | nil => rw [List.foldl_nil, List.append_nil]
  | cons s segs ih =>
    obtain ⟨hdot, hdotDot⟩ := h s List.mem_cons_self
    rw [List.foldl_cons, removeDot, if_neg hdot, if_neg hdotDot,
      ih fun t ht => h t (List.mem_cons_of_mem _ ht), List.append_assoc, List.singleton_append]

/-- No dot segment is left. -/
theorem mem_foldl_removeDot {dst : List Str} {t : Str} (h : t ∈ segs.foldl removeDot dst) :
    t ∈ dst ∨ t ∈ segs ∧ t ≠ dot ∧ t ≠ dotDot := by
  induction segs generalizing dst with
  | nil => exact .inl h
  | cons s segs ih =>
    rcases ih h with hdst | ⟨hm, hne⟩
    · rw [removeDot] at hdst
      split_ifs at hdst with hdot hdotDot
      · exact .inl hdst
      · exact .inl (List.mem_of_mem_dropLast hdst)
      · rcases List.mem_append.mp hdst with hm | hm
        · exact .inl hm
        · obtain rfl := List.mem_singleton.mp hm
          exact .inr ⟨List.mem_cons_self, hdot, hdotDot⟩
    · exact .inr ⟨List.mem_cons_of_mem _ hm, hne⟩

/-- A path of plain segments starts with a byte that is no slash. -/
theorem intercalate_eq_cons (hne : segs ≠ []) (h : ∀ s ∈ segs, PlainSegment s) :
    ∃ c t, [slash].intercalate segs = c :: t ∧ slash ≠ c := by
  obtain ⟨s, rest, rfl⟩ := List.exists_cons_of_ne_nil hne
  have hs := h s List.mem_cons_self
  obtain ⟨c, s', rfl⟩ := List.exists_cons_of_ne_nil hs.ne_nil
  have hc : slash ≠ c := fun he => hs.not_mem.1 (he ▸ List.mem_cons_self)
  by_cases hnil : rest = []
  · exact ⟨c, s', by rw [hnil, List.intercalate_singleton], hc⟩
  · rw [List.intercalate_cons_of_ne_nil hnil]
    exact ⟨c, _, rfl, hc⟩

/-- The bytes of a path of plain segments. -/
theorem byte_of_plain {text : Str}
    (htext : text = [slash].intercalate segs ∨ text = joinPath segs)
    (h : ∀ s ∈ segs, PlainSegment s) {c : UInt8} (hc : c ∈ text) :
    c = slash ∨ isAlnum c = true ∨ c ∈ ascii "-_.+" := by
  have hm : c = slash ∨ c ∈ [slash].intercalate segs := by
    rcases htext with rfl | rfl
    · exact .inr hc
    · exact List.mem_cons.mp hc
  rcases hm with rfl | hm
  · exact .inl rfl
  · exact (mem_intercalate hm).imp id fun ⟨s, hs, hcs⟩ => (h s hs).bytes c hcs

/-- A path of plain segments has nothing to decode. -/
theorem parsePath_of_plain {text : Str}
    (htext : text = [slash].intercalate segs ∨ text = joinPath segs) (hne : segs ≠ [])
    (h : ∀ s ∈ segs, PlainSegment s) : parsePath text = some text := by
  have hno : ∀ {d : UInt8}, d ≠ slash → isAlnum d = false → d ∉ ascii "-_.+" → d ∉ text := by
    intro d hd halnum hextra hm
    rcases byte_of_plain htext h hm with he | he | he
    · exact hd he
    · rw [halnum] at he
      cases he
    · exact hextra he
  have hall : text.all encodedByte = true := by
    rw [List.all_eq_true]
    intro c hc
    rcases byte_of_plain htext h hc with rfl | he | he
    · decide
    · simp [encodedByte, he]
    · have hall : ((ascii "-_.+").all encodedByte) = true := by decide
      exact List.all_eq_true.mp hall c he
  have hhost : (ascii "//").isPrefixOf text = false := by
    obtain ⟨c, t, ht, hc⟩ := intercalate_eq_cons hne h
    have hslashes : ascii "//" = [slash, slash] := by decide
    rcases htext with rfl | rfl
    · simp [hslashes, ht, hc, List.isPrefixOf]
    · simp [hslashes, joinPath, ht, hc, List.isPrefixOf]
  have hcolon : (text.takeWhile (· != slash)).contains (byte ':') = false := by
    rw [List.contains_eq_mem, decide_eq_false_iff_not]
    exact fun hm => hno (by decide) (by decide) (by decide) ((List.takeWhile_prefix _).subset hm)
  rw [parsePath, hall, hhost, hcolon,
    pathUnescape_of_not_mem (hno (by decide) (by decide) (by decide))]
  rfl

/-- A base whose path is empty or a slash. -/
def RootBase (base : Str) : Prop := base = [] ∨ base = [slash]

/-- The segments after the one that stands before a leading slash. -/
def dropRoot : List Str → List Str
  | [] :: segs => segs
  | segs => segs

/-- A path gets a leading slash if it has none. -/
theorem rooted_intercalate (hslash : ∀ s ∈ segs, slash ∉ s) :
    (if ([slash].intercalate segs).head? = some slash then [slash].intercalate segs
      else slash :: [slash].intercalate segs) = joinPath (dropRoot segs) := by
  match segs with
  | [] => rfl
  | [[]] => rfl
  | [] :: s :: rest =>
    have hcons : [slash].intercalate ([] :: s :: rest) = slash :: [slash].intercalate (s :: rest) :=
      List.intercalate_cons_cons
    rw [hcons, List.head?_cons, if_pos rfl]
    rfl
  | (c :: s) :: rest =>
    have hc : c ≠ slash := fun he => hslash _ List.mem_cons_self (he ▸ List.mem_cons_self)
    have hhead : ([slash].intercalate ((c :: s) :: rest)).head? = some c := by
      cases rest with
      | nil => rw [List.intercalate_singleton, List.head?_cons]
      | cons t rest => rw [List.intercalate_cons_cons, List.append_assoc, List.cons_append,
          List.head?_cons]
    rw [hhead, if_neg fun he => hc (Option.some.inj he)]
    rfl

/-- What is written has no slash in its segments. -/
theorem not_mem_foldl_resolveStep {st : List Str × Bool} (hst : ∀ s ∈ st.1, slash ∉ s)
    (h : ∀ s ∈ segs, slash ∉ s) : ∀ s ∈ (segs.foldl resolveStep st).1, slash ∉ s := by
  induction segs generalizing st with
  | nil => exact hst
  | cons t segs ih =>
    obtain ⟨ht, hsegs⟩ := List.forall_mem_cons.mp h
    refine ih (fun s hs => ?_) hsegs
    rw [resolveStep] at hs
    split_ifs at hs
    · rw [List.mem_singleton.mp hs]
      exact List.not_mem_nil
    · exact hst s hs
    · cases hs
    · exact hst s (List.mem_of_mem_dropLast hs)
    · rcases List.mem_append.mp hs with hs | hs
      · exact hst s hs
      · rwa [List.mem_singleton.mp hs]

/-- Without dot segments every segment is written. -/
theorem foldl_resolveStep (h : ∀ s ∈ segs, s ≠ dot ∧ s ≠ dotDot) (hne : segs ≠ [])
    (st : List Str × Bool) : segs.foldl resolveStep st = (st.1 ++ segs, false) := by
  induction segs generalizing st with
  | nil => exact absurd rfl hne
  | cons s segs ih =>
    obtain ⟨⟨hdot, hdotDot⟩, hsegs⟩ := List.forall_mem_cons.mp h
    have hstep : resolveStep st s = (st.1 ++ [s], false) := by
      rw [resolveStep, if_neg hdot, if_neg hdotDot]
    rw [List.foldl_cons, hstep]
    by_cases hnil : segs = []
    · rw [hnil]
      rfl
    · rw [ih hsegs hnil, List.append_assoc, List.singleton_append]

/-- What the loop has written when `l` is left of the segments so far. -/
def Written (st : List Str × Bool) (l : List Str) : Prop :=
  (st = ([] :: l, false) ∨ st = (l, l.isEmpty)) ∧ ∀ s ∈ l, s ≠ []

/-- On segments that are not empty the loop removes the dot segments. -/
theorem Written.foldl {st : List Str × Bool} {l : List Str} (h : Written st l)
    (hne : ∀ s ∈ segs, s ≠ []) : Written (segs.foldl resolveStep st) (segs.foldl removeDot l) := by
  induction segs generalizing st l with
  | nil => exact h
  | cons s segs ih =>
    obtain ⟨hs, hsegs⟩ := List.forall_mem_cons.mp hne
    refine ih ?_ hsegs
    obtain ⟨hst, hl⟩ := h
    rw [resolveStep, removeDot]
    split_ifs with hdot hfirst hdotDot hone
    · refine ⟨.inl ?_, hl⟩
      rcases hst with rfl | rfl
      · cases hfirst
      · rw [List.isEmpty_iff.mp hfirst]
    · refine ⟨?_, hl⟩
      rcases hst with rfl | rfl
      · exact .inl rfl
      · exact .inr (by simp_all)
    · have hnil : l.dropLast = [] := by
        refine List.eq_nil_of_length_eq_zero ?_
        rw [List.length_dropLast]
        rcases hst with rfl | rfl
        · rw [List.length_cons] at hone
          omega
        · change l.length ≤ 1 at hone
          omega
      exact ⟨.inr (by rw [hnil]; rfl), fun s hs => hl s (List.mem_of_mem_dropLast hs)⟩
    · refine ⟨?_, fun s hs => hl s (List.mem_of_mem_dropLast hs)⟩
      rcases hst with rfl | rfl
      · have hpos : l ≠ [] := by
          rintro rfl
          exact hone le_rfl
        exact .inl (by rw [List.dropLast_cons_of_ne_nil hpos])
      · right
        match l, hone with
        | [], hone => exact absurd (Nat.zero_le _) hone
        | [_], hone => exact absurd le_rfl hone
        | a :: b :: l, _ => rfl
    · refine ⟨?_, ?_⟩
      · rcases hst with rfl | rfl
        · exact .inl rfl
        · exact .inr (by simp)
      · intro t ht
        rcases List.mem_append.mp ht with ht | ht
        · exact hl t ht
        · rwa [List.mem_singleton.mp ht]

/-- An empty last segment is a slash at the end. -/
theorem intercalate_concat_nil (hne : segs ≠ []) :
    [slash].intercalate (segs ++ [[]]) = [slash].intercalate segs ++ [slash] := by
  induction segs with
  | nil => exact absurd rfl hne
  | cons s segs ih =>
    by_cases hnil : segs = []
    · rw [hnil, List.intercalate_singleton]
      simp
    · rw [List.cons_append, List.intercalate_cons_of_ne_nil (by simp), ih hnil,
        List.intercalate_cons_of_ne_nil hnil]
      simp

/-- The segments of a reference follow those of the base but its last one. -/
theorem splitOn_directory (base ref : Str) :
    (directory base ++ ref).splitOn slash = (base.splitOn slash).dropLast ++ ref.splitOn slash := by
  by_cases hmem : slash ∈ base
  · obtain ⟨t, init, hrev, ht⟩ := List.eq_append_cons_of_mem (List.mem_reverse.mpr hmem)
    have hbase : base = init.reverse ++ slash :: t.reverse := by
      rw [← List.reverse_reverse base, hrev]
      simp
    have hdir : directory base = init.reverse ++ [slash] := by
      have hdrop : (t ++ slash :: init).dropWhile (· != slash) = slash :: init := by
        rw [List.dropWhile_append_of_pos, List.dropWhile_cons_of_neg (by simp)]
        exact fun c hc => bne_iff_ne.mpr fun he => ht (he ▸ hc)
      rw [directory, hrev, hdrop, List.reverse_cons]
    have hlast : t.reverse.splitOn slash = [t.reverse] :=
      List.splitOn_eq_singleton (by rwa [List.mem_reverse])
    rw [hdir, hbase, List.append_assoc, List.singleton_append, List.splitOn_append_cons_self,
      List.splitOn_append_cons_self, hlast, List.dropLast_concat]
  · have hdir : directory base = [] := by
      have hdrop : base.reverse.dropWhile (· != slash) = [] := by
        rw [List.dropWhile_eq_nil_iff]
        exact fun c hc => bne_iff_ne.mpr fun he => hmem (he ▸ List.mem_reverse.mp hc)
      rw [directory, hdrop, List.reverse_nil]
    rw [hdir, List.nil_append, List.splitOn_eq_singleton hmem]
    rfl

/-- A relative reference is resolved from the segments of the base but its last one. -/
theorem resolvePath_relative {base ref : Str} {dst : List Str × Bool} (hne : ref ≠ [])
    (hrel : ref.head? ≠ some slash)
    (hdst : ((base.splitOn slash).dropLast ++ ref.splitOn slash).foldl resolveStep ([], true) =
      dst) :
    resolvePath base ref = joinPath (dropRoot
      (if (ref.splitOn slash).getLast? = some dot ∨ (ref.splitOn slash).getLast? = some dotDot
        then dst.1 ++ [[]] else dst.1)) := by
  have hfull : directory base ++ ref ≠ [] := by simp [hne]
  have hlast : ((base.splitOn slash).dropLast ++ ref.splitOn slash).getLast? =
      (ref.splitOn slash).getLast? := List.getLast?_append_of_ne_nil _ (List.splitOn_ne_nil _ _)
  have hslash : ∀ s ∈ dst.1, slash ∉ s := by
    rw [← hdst, ← splitOn_directory]
    exact not_mem_foldl_resolveStep (fun s hs => by cases hs) fun s hs =>
      not_mem_of_mem_splitOn hs
  simp only [resolvePath, if_neg hne, if_neg hrel, if_neg hfull, splitOn_directory, hlast, hdst]
  by_cases hdots : (ref.splitOn slash).getLast? = some dot ∨
      (ref.splitOn slash).getLast? = some dotDot
  · rw [if_pos hdots, if_pos hdots]
    by_cases hnil : dst.1 = []
    · rw [hnil]
      rfl
    · rw [← intercalate_concat_nil hnil]
      refine rooted_intercalate fun s hs => ?_
      rcases List.mem_append.mp hs with hs | hs
      · exact hslash s hs
      · rw [List.mem_singleton.mp hs]
        exact List.not_mem_nil
  · rw [if_neg hdots, if_neg hdots, List.append_nil]
    exact rooted_intercalate hslash

/-- From the root, a reference without empty segments loses its dot segments. -/
theorem resolvePath_root {base ref : Str} (hbase : RootBase base)
    (hsegs : ∀ s ∈ ref.splitOn slash, s ≠ []) : resolvePath base ref =
    joinPath (if (ref.splitOn slash).getLast? = some dot ∨
      (ref.splitOn slash).getLast? = some dotDot
      then (ref.splitOn slash).foldl removeDot [] ++ [[]]
      else (ref.splitOn slash).foldl removeDot []) := by
  have hne : ref ≠ [] := by
    rintro rfl
    exact hsegs [] List.mem_cons_self rfl
  have hrel : ref.head? ≠ some slash := by
    intro hhead
    obtain ⟨c, ref, rfl⟩ := List.exists_cons_of_ne_nil hne
    obtain rfl := Option.some.inj hhead
    have hsplit : (slash :: ref).splitOn slash = [[]] ++ ref.splitOn slash :=
      List.splitOn_append_cons_self [] _
    exact hsegs [] (by rw [hsplit]; simp) rfl
  have hwritten : Written (((base.splitOn slash).dropLast ++ ref.splitOn slash).foldl resolveStep
      ([], true)) ((ref.splitOn slash).foldl removeDot []) := by
    rw [List.foldl_append]
    refine Written.foldl ⟨?_, by simp⟩ hsegs
    rcases hbase with rfl | rfl
    · exact .inr rfl
    · exact .inl rfl
  rw [resolvePath_relative hne hrel rfl]
  generalize ((base.splitOn slash).dropLast ++ ref.splitOn slash).foldl resolveStep ([], true) = st
    at hwritten
  generalize (ref.splitOn slash).foldl removeDot [] = l at hwritten
  obtain ⟨hst, hl⟩ := hwritten
  rcases hst with rfl | rfl
  · split_ifs <;> rfl
  · cases l with
    | nil => split_ifs <;> rfl
    | cons s l =>
      obtain ⟨c, s, rfl⟩ := List.exists_cons_of_ne_nil (hl s List.mem_cons_self)
      split_ifs <;> rfl

/-- A path ends with its last segment. -/
theorem suffix_joinPath (init : List Str) (s : Str) : s <:+ joinPath (init ++ [s]) := by
  refine (List.suffix_cons_iff.mpr (.inr ?_))
  induction init with
  | nil => rw [List.nil_append, List.intercalate_singleton]
  | cons t init ih =>
    rw [List.cons_append, List.intercalate_cons_of_ne_nil (by simp)]
    exact ih.trans (List.suffix_append _ _)

/-- A path of plain segments other than the dot segments is clean. -/
theorem cleanPath_joinPath (hne : segs ≠ [])
    (h : ∀ s ∈ segs, PlainSegment s ∧ s ≠ dot ∧ s ≠ dotDot) :
    cleanPath (joinPath segs) = joinPath segs := by
  have hclean : ∀ dst, segs.foldl cleanStep dst = segs.foldl removeDot dst := by
    intro dst
    refine List.foldl_ext _ _ _ fun acc s hs => ?_
    rw [cleanStep, if_neg (h s hs).1.ne_nil]
  have hsegs := segments_joinPath hne fun s hs => (h s hs).1.not_mem.1
  have hlast : (joinPath segs).getLast? ≠ some slash := by
    obtain ⟨init, s, rfl⟩ := List.eq_nil_or_concat' segs |>.resolve_left hne
    obtain ⟨t, ht⟩ := suffix_joinPath init s
    have hs := (h s (by simp)).1
    rw [← ht, List.getLast?_append_of_ne_nil _ hs.ne_nil]
    exact fun he => hs.not_mem.1 (List.mem_of_getLast? he)
  simp only [cleanPath, hsegs, hclean, foldl_removeDot fun s hs => (h s hs).2, List.nil_append,
    hlast, and_false, if_false]

end Comax
