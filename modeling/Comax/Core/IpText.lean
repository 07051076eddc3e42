import Comax.Core.Ip
import Comax.Core.Url

/-!
# Texts of IP addresses

Dotted decimal and colon-separated hexadecimal, written and read as Go's `net/netip` does, ranges
in CIDR notation, and addresses with a port. An address is read back from its text.
-/

namespace Comax

/-- The byte between the groups of an IPv6 address. -/
def colon : UInt8 := byte ':'

/-- The byte between the octets of an IPv4 address. -/
def period : UInt8 := byte '.'

/-! ## Writing -/

/-- `appendHex`: a group in lower-case digits, without leading zeros. -/
def hexGroup (x : ℕ) : Str :=
  let digit := fun d => nibble (UInt8.ofNat (d % 16))
  (if 0x1000 ≤ x then [digit (x / 0x1000)] else []) ++
    (if 0x100 ≤ x then [digit (x / 0x100)] else []) ++
    (if 0x10 ≤ x then [digit (x / 0x10)] else []) ++ [digit x]

/-- Groups between colons. -/
def groupsText (gs : List ℕ) : Str := [colon].intercalate (gs.map hexGroup)

/-- The sixteen-bit groups of an address. -/
def groups : Str → List ℕ
  | a :: b :: rest => (a.toNat * 256 + b.toNat) :: groups rest
  | _ => []

/-- The run of zero groups at an index, up to its end. -/
def runEnd (gs : List ℕ) (i : ℕ) : ℕ := i + ((gs.drop i).takeWhile (· == 0)).length

/-- The longest run of at least two zero groups, the first of them if there are several. -/
def zeroRun (gs : List ℕ) : Option (ℕ × ℕ) :=
  (List.range gs.length).foldl (fun run i =>
    let l := runEnd gs i - i
    if 2 ≤ l ∧ run.all (fun r => r.2 - r.1 < l) then some (i, runEnd gs i) else run) none

/-- `appendTo6` -/
def text6 (gs : List ℕ) : Str :=
  match zeroRun gs with
  | none => groupsText gs
  | some (start, stop) =>
    groupsText (gs.take start) ++ [colon, colon] ++ groupsText (gs.drop stop)

/-- `appendTo4` -/
def text4 (v4 : IP) : Str := [period].intercalate (v4.map fun c => formatNat c.toNat)

/-- `IP.String`, of an address. -/
def IP.string (ip : IP) : Str :=
  match ip.to4 with
  | some v4 => text4 v4
  | none => text6 (groups ip)

/-! ## Reading -/

/-- One octet of `parseIPv4Fields`. -/
def parseOctet (s : Str) : Option UInt8 :=
  if s.head? = some (byte '0') ∧ s ≠ [byte '0'] then none
  else ((digitsValue s).filter (· ≤ 255)).map UInt8.ofNat

/-- `parseIPv4Fields` -/
def parseIPv4 (s : Str) : Option IP :=
  let fields := s.splitOn period
  if fields.length = 4 then fields.mapM parseOctet else none

/-- A hexadecimal digit. -/
def isHex (c : UInt8) : Bool := (fromHex c).isSome

/-- The value of a group in hexadecimal digits. -/
def hexValue (s : Str) : ℕ := s.foldl (fun acc c => acc * 16 + ((fromHex c).getD 0).toNat) 0

/-- The loop of `parseIPv6` over the groups of an address: the groups so far, and where among them
the ellipsis stands. -/
def parseGroups : ℕ → List ℕ → Option ℕ → Str → Option (List ℕ × Option ℕ)
  | 0, gs, ellipsis, s => if s = [] then some (gs, ellipsis) else none
  | n + 1, gs, ellipsis, s =>
    let field := s.takeWhile isHex
    let rest := s.drop field.length
    if field = [] ∨ 4 < field.length then none
    else if rest.head? = some period then
      -- An IPv4 address may stand for the last two groups.
      if (ellipsis = none ∧ gs.length ≠ 6) ∨ 6 < gs.length then none
      else (parseIPv4 s).map fun v4 => (gs ++ groups v4, ellipsis)
    else
      let gs := gs ++ [hexValue field]
      match rest with
      | [] => some (gs, ellipsis)
      | [_] => none
      | c :: d :: rest =>
        if c ≠ colon then none
        else if d ≠ colon then parseGroups n gs ellipsis (d :: rest)
        else if ellipsis.isSome then none
        else if rest = [] then some (gs, some gs.length)
        else parseGroups n gs (some gs.length) rest

/-- The bytes of a group. -/
def groupBytes (x : ℕ) : Str := [UInt8.ofNat (x / 256), UInt8.ofNat (x % 256)]

/-- The end of `parseIPv6`: the ellipsis stands for the groups that are missing. -/
def expand (gs : List ℕ) (ellipsis : Option ℕ) : Option IP :=
  match ellipsis with
  | none => if gs.length = 8 then some (gs.flatMap groupBytes) else none
  | some i =>
    if gs.length < 8 then
      some ((gs.take i ++ List.replicate (8 - gs.length) 0 ++ gs.drop i).flatMap groupBytes)
    else none

/-- `parseIPv6`, of a text without zone. -/
def parseIPv6 (s : Str) : Option IP :=
  if [colon, colon] <+: s then
    if s = [colon, colon] then some (List.replicate 16 0)
    else (parseGroups 8 [] (some 0) (s.drop 2)).bind fun r => expand r.1 r.2
  else (parseGroups 8 [] none s).bind fun r => expand r.1 r.2

/-! ## Octets and groups -/

/-- An octet is read back. -/
theorem parseOctet_formatNat (c : UInt8) : parseOctet (formatNat c.toNat) = some c := by
  have hplain :
      ¬((formatNat c.toNat).head? = some (byte '0') ∧ formatNat c.toNat ≠ [byte '0']) := by
    rintro ⟨hhead, hne⟩
    by_cases hzero : c.toNat = 0
    · exact hne (by rw [formatNat, if_pos hzero])
    · exact head_formatNat hzero hhead
  have hle : c.toNat ≤ 255 := Nat.le_of_lt_succ c.toNat_lt
  rw [parseOctet, if_neg hplain, digitsValue_formatNat, Option.filter_some_pos (by simpa using hle),
    Option.map_some, UInt8.ofNat_toNat]

/-- A digit of a group has its value. -/
theorem fromHex_nibble {d : ℕ} (h : d < 16) :
    fromHex (nibble (UInt8.ofNat d)) = some (UInt8.ofNat d) := by
  interval_cases d <;> rfl

/-- The digits of a group. -/
theorem isHex_of_mem_hexGroup {x : ℕ} {c : UInt8} (h : c ∈ hexGroup x) : isHex c = true := by
  have hdigit : ∃ d, c = nibble (UInt8.ofNat (d % 16)) := by
    simp only [hexGroup, List.mem_append, List.mem_ite_nil_right, List.mem_singleton] at h
    rcases h with ((⟨-, h⟩ | ⟨-, h⟩) | ⟨-, h⟩) | h
    all_goals exact ⟨_, h⟩
  obtain ⟨d, rfl⟩ := hdigit
  rw [isHex, fromHex_nibble (Nat.mod_lt _ (by decide))]
  rfl

/-- A group has at most four digits. -/
theorem length_hexGroup (x : ℕ) : hexGroup x ≠ [] ∧ (hexGroup x).length ≤ 4 := by
  refine ⟨List.append_ne_nil_of_right_ne_nil _ (List.cons_ne_nil _ _), ?_⟩
  rw [hexGroup]
  split_ifs <;> simp

/-- The value of one more digit. -/
theorem hexValue_concat (s : Str) (d : ℕ) :
    hexValue (s ++ [nibble (UInt8.ofNat (d % 16))]) = hexValue s * 16 + d % 16 := by
  have hd : d % 16 < 16 := Nat.mod_lt _ (by decide)
  rw [hexValue, List.foldl_append, List.foldl_cons, List.foldl_nil, fromHex_nibble hd,
    Option.getD_some, UInt8.toNat_ofNat', Nat.mod_eq_of_lt (hd.trans (by decide)), ← hexValue]

/-- A group is read back. -/
theorem hexValue_hexGroup {x : ℕ} (h : x < 65536) : hexValue (hexGroup x) = x := by
  have hnil : hexValue [] = 0 := rfl
  have hfirst : ∀ d, hexValue [nibble (UInt8.ofNat (d % 16))] = d % 16 := fun d => by
    have := hexValue_concat [] d
    rwa [hnil, Nat.zero_mul, Nat.zero_add, List.nil_append] at this
  rw [hexGroup]
  split_ifs
  all_goals
    simp only [List.nil_append, hexValue_concat, hfirst]
    omega

/-- The digits of a group end where no digit follows. -/
theorem takeWhile_hexGroup (x : ℕ) {t : Str} (ht : ∀ c ∈ t.head?, isHex c = false) :
    (hexGroup x ++ t).takeWhile isHex = hexGroup x := by
  rw [List.takeWhile_append_of_pos fun c hc => isHex_of_mem_hexGroup hc]
  cases t with
  | nil => rw [List.takeWhile_nil, List.append_nil]
  | cons c t =>
    have hc : ¬isHex c = true := by rw [ht c rfl]; decide
    rw [List.takeWhile_cons_of_neg hc, List.append_nil]

/-! ## Texts of groups -/

/-- A colon is no digit. -/
theorem isHex_colon : isHex colon = false := by decide

/-- A group in front of others. -/
theorem groupsText_cons (g : ℕ) {gs : List ℕ} (hne : gs ≠ []) :
    groupsText (g :: gs) = hexGroup g ++ colon :: groupsText gs := by
  rw [groupsText, List.map_cons, List.intercalate_cons_of_ne_nil (by simpa using hne),
    ← groupsText, List.append_assoc]
  rfl

/-- A text of groups starts with a digit. -/
theorem groupsText_eq_cons {gs : List ℕ} (hne : gs ≠ []) :
    ∃ c t, groupsText gs = c :: t ∧ c ≠ colon := by
  obtain ⟨g, gs, rfl⟩ := List.exists_cons_of_ne_nil hne
  obtain ⟨c, t, hg⟩ := List.exists_cons_of_ne_nil (length_hexGroup g).1
  have hhex : isHex c = true := isHex_of_mem_hexGroup (hg ▸ List.mem_cons_self)
  have hc : c ≠ colon := fun he => by rw [he, isHex_colon] at hhex; cases hhex
  cases gs with
  | nil => exact ⟨c, t, by rw [groupsText, List.map_singleton, List.intercalate_singleton, hg], hc⟩
  | cons g' gs =>
    refine ⟨c, t ++ colon :: groupsText (g' :: gs), ?_, hc⟩
    rw [groupsText_cons g (List.cons_ne_nil _ _), hg, List.cons_append]

section Groups

variable {x : ℕ} {t : Str} (n : ℕ) (gs : List ℕ) (ellipsis : Option ℕ)

/-- No group starts with a colon. -/
theorem parseGroups_colon : parseGroups n gs ellipsis (colon :: t) = none := by
  cases n with
  | zero => rfl
  | succ n =>
    have hno : ¬isHex colon = true := by decide
    rw [parseGroups, List.takeWhile_cons_of_neg hno]
    rfl

/-- A group has digits, and not too many. -/
theorem hexGroup_accepted (x : ℕ) : ¬(hexGroup x = [] ∨ 4 < (hexGroup x).length) := by
  obtain ⟨hne, hlen⟩ := length_hexGroup x
  rintro (h | h)
  · exact hne h
  · omega

/-- A group at the end. -/
theorem parseGroups_last (hx : x < 65536) :
    parseGroups (n + 1) gs ellipsis (hexGroup x) = some (gs ++ [x], ellipsis) := by
  have htake := takeWhile_hexGroup x (t := []) nofun
  rw [List.append_nil] at htake
  rw [parseGroups]
  simp only [htake, if_neg (hexGroup_accepted x), List.drop_length, hexValue_hexGroup hx]
  rfl

/-- A group that a colon follows. -/
theorem takeWhile_hexGroup_colon (x : ℕ) (t : Str) :
    (hexGroup x ++ colon :: t).takeWhile isHex = hexGroup x := by
  refine takeWhile_hexGroup x fun c hc => ?_
  rw [← Option.some.inj hc, isHex_colon]

/-- A turn of the loop over a group, a colon and more. -/
theorem parseGroups_hexGroup (hx : x < 65536) (d : UInt8) :
    parseGroups (n + 1) gs ellipsis (hexGroup x ++ colon :: d :: t) =
      if d ≠ colon then parseGroups n (gs ++ [x]) ellipsis (d :: t)
      else if ellipsis.isSome then none
      else if t = [] then some (gs ++ [x], some (gs.length + 1))
      else parseGroups n (gs ++ [x]) (some (gs.length + 1)) t := by
  have hdot : ¬(some colon = some period) := by decide
  rw [parseGroups]
  simp only [takeWhile_hexGroup_colon, if_neg (hexGroup_accepted x), List.drop_left,
    List.head?_cons, if_neg hdot, hexValue_hexGroup hx, ne_eq, not_true_eq_false, if_false,
    List.length_append, List.length_singleton]

/-- A turn of the loop over a group and its colon. -/
theorem parseGroups_next (hx : x < 65536) {d : UInt8} (hd : d ≠ colon) :
    parseGroups (n + 1) gs ellipsis (hexGroup x ++ colon :: d :: t) =
      parseGroups n (gs ++ [x]) ellipsis (d :: t) := by
  rw [parseGroups_hexGroup n gs ellipsis hx, if_pos hd]

/-- A turn of the loop over a group and an ellipsis. -/
theorem parseGroups_ellipsis (hx : x < 65536) :
    parseGroups (n + 1) gs ellipsis (hexGroup x ++ colon :: colon :: t) =
      if ellipsis.isSome then none
      else if t = [] then some (gs ++ [x], some (gs.length + 1))
      else parseGroups n (gs ++ [x]) (some (gs.length + 1)) t := by
  rw [parseGroups_hexGroup n gs ellipsis hx, if_neg (not_not.mpr rfl)]

/-- The loop comes to the last of some groups. -/
theorem parseGroups_groupsText {front : List ℕ} (hfront : ∀ g ∈ front, g < 65536) :
    parseGroups (front.length + (n + 1)) gs ellipsis (groupsText (front ++ [x]) ++ t) =
      parseGroups (n + 1) (gs ++ front) ellipsis (hexGroup x ++ t) := by
  induction front generalizing gs with
  | nil =>
    rw [List.nil_append, groupsText, List.map_singleton, List.intercalate_singleton,
      List.length_nil, Nat.zero_add, List.append_nil]
  | cons g front ih =>
    have hne : front ++ [x] ≠ [] := List.append_ne_nil_of_right_ne_nil _ (List.cons_ne_nil _ _)
    obtain ⟨c, rest, htext, hc⟩ := groupsText_eq_cons hne
    have hg : g < 65536 := hfront g List.mem_cons_self
    have hrest := ih (gs ++ [g]) fun g hg => hfront g (List.mem_cons_of_mem _ hg)
    rw [htext] at hrest
    rw [List.cons_append, groupsText_cons g hne, htext, List.length_cons, Nat.add_right_comm,
      List.append_assoc, List.cons_append, List.cons_append, parseGroups_next _ _ _ hg hc,
      ← List.cons_append, hrest, List.append_assoc, List.singleton_append]

variable {gs' : List ℕ}

/-- The loop reads a text of groups to its end. -/
theorem parseGroups_all (hne : gs' ≠ []) (hlt : ∀ g ∈ gs', g < 65536) :
    parseGroups (gs'.length + n) gs ellipsis (groupsText gs') = some (gs ++ gs', ellipsis) := by
  obtain ⟨front, x, rfl⟩ : ∃ front x, gs' = front ++ [x] :=
    ⟨_, _, (List.dropLast_append_getLast hne).symm⟩
  have hfront : ∀ g ∈ front, g < 65536 := fun g hg => hlt g (List.mem_append_left _ hg)
  have hread := parseGroups_groupsText (x := x) (t := []) n gs ellipsis hfront
  rw [List.append_nil, List.append_nil, parseGroups_last _ _ _ (hlt x (by simp))] at hread
  rw [List.length_append, List.length_singleton, Nat.add_assoc, Nat.add_comm 1 n, hread,
    List.append_assoc]

/-- The loop reads a text of groups up to an ellipsis. -/
theorem parseGroups_all_ellipsis (hne : gs' ≠ []) (hlt : ∀ g ∈ gs', g < 65536) :
    parseGroups (gs'.length + n) gs ellipsis (groupsText gs' ++ colon :: colon :: t) =
      if ellipsis.isSome then none
      else if t = [] then some (gs ++ gs', some (gs ++ gs').length)
      else parseGroups n (gs ++ gs') (some (gs ++ gs').length) t := by
  obtain ⟨front, x, rfl⟩ : ∃ front x, gs' = front ++ [x] :=
    ⟨_, _, (List.dropLast_append_getLast hne).symm⟩
  have hfront : ∀ g ∈ front, g < 65536 := fun g hg => hlt g (List.mem_append_left _ hg)
  rw [List.length_append, List.length_singleton, Nat.add_assoc, Nat.add_comm 1 n,
    parseGroups_groupsText n gs ellipsis hfront, parseGroups_ellipsis _ _ _ (hlt x (by simp)),
    List.append_assoc]
  simp only [List.length_append, List.length_singleton, Nat.add_assoc]

end Groups

/-! ## The groups of an address -/

/-- A group is less than 65536. -/
theorem groups_lt (b : Str) : ∀ g ∈ groups b, g < 65536 := by
  induction b using groups.induct with
  | case1 c d rest ih =>
    intro g hg
    have hc := c.toNat_lt
    have hd := d.toNat_lt
    rcases List.mem_cons.mp hg with rfl | hg
    · omega
    · exact ih g hg
  | case2 b hb =>
    rw [groups]
    · exact nofun
    · exact hb

/-- The groups of an address have its bytes. -/
theorem groups_spec {b : Str} {k : ℕ} (h : b.length = 2 * k) :
    (groups b).length = k ∧ (groups b).flatMap groupBytes = b := by
  induction k generalizing b with
  | zero =>
    rw [List.length_eq_zero_iff.mp h]
    exact ⟨rfl, rfl⟩
  | succ k ih =>
    obtain ⟨c, d, rest, rfl⟩ : ∃ c d rest, b = c :: d :: rest := by
      match b, h with
      | c :: d :: rest, _ => exact ⟨c, d, rest, rfl⟩
    obtain ⟨hlen, hbytes⟩ := ih (b := rest) (by simp only [List.length_cons] at h; omega)
    have hc := c.toNat_lt
    have hd := d.toNat_lt
    have hhigh : (c.toNat * 256 + d.toNat) / 256 = c.toNat := by omega
    have hlow : (c.toNat * 256 + d.toNat) % 256 = d.toNat := by omega
    rw [groups, List.length_cons, hlen, List.flatMap_cons, hbytes, groupBytes, hhigh, hlow,
      UInt8.ofNat_toNat, UInt8.ofNat_toNat]
    exact ⟨rfl, rfl⟩

/-- A run of at least two zero groups. -/
structure ZeroRun (gs : List ℕ) (run : ℕ × ℕ) : Prop where
  long : run.1 + 2 ≤ run.2
  inside : run.2 ≤ gs.length
  zeros : (gs.drop run.1).take (run.2 - run.1) = List.replicate (run.2 - run.1) 0

/-- The zeros from an index on. -/
theorem runEnd_spec {gs : List ℕ} {i : ℕ} (hi : i < gs.length) : runEnd gs i ≤ gs.length ∧
    (gs.drop i).take (runEnd gs i - i) = List.replicate (runEnd gs i - i) 0 := by
  have hpre := List.takeWhile_prefix (l := gs.drop i) (· == 0)
  have hlen := hpre.length_le
  rw [List.length_drop] at hlen
  have hl : runEnd gs i - i = ((gs.drop i).takeWhile (· == 0)).length := by
    rw [runEnd, Nat.add_sub_cancel_left]
  rw [hl, ← List.prefix_iff_eq_take.mp hpre]
  refine ⟨by rw [runEnd]; omega, List.eq_replicate_iff.mpr ⟨rfl, fun g hg => ?_⟩⟩
  have hzero := List.mem_takeWhile_imp hg
  exact beq_iff_eq.mp hzero

/-- What a text leaves out is a run of zeros. -/
theorem zeroRun_spec {gs : List ℕ} : ∀ run ∈ zeroRun gs, ZeroRun gs run := by
  rw [zeroRun]
  refine List.foldlRecOn (motive := fun best => ∀ run ∈ best, ZeroRun gs run) _ _
    (fun _ h => by cases h) fun best hbest i hi => ?_
  dsimp only
  split_ifs with hlong
  · intro run hrun
    obtain rfl := Option.some.inj hrun
    obtain ⟨hle, hzeros⟩ := runEnd_spec (List.mem_range.mp hi)
    exact ⟨by dsimp only; omega, hle, hzeros⟩
  · exact hbest

/-- The groups around a run of zeros. -/
theorem ZeroRun.eq {gs : List ℕ} {start stop : ℕ} (h : ZeroRun gs (start, stop)) :
    gs.take start ++ List.replicate (stop - start) 0 ++ gs.drop stop = gs := by
  have hdrop : gs.drop stop = (gs.drop start).drop (stop - start) := by
    rw [List.drop_drop, Nat.add_sub_cancel' (by have := h.long; omega)]
  rw [← h.zeros, hdrop, List.append_assoc, List.take_append_drop, List.take_append_drop]

/-! ## Reading an address back -/

section ReadBack

variable {gs : List ℕ}

/-- An ellipsis stands for the missing groups. -/
theorem expand_ellipsis {a b : List ℕ} (h : a.length + b.length < 8) :
    expand (a ++ b) (some a.length) = some
      ((a ++ List.replicate (8 - (a.length + b.length)) 0 ++ b).flatMap groupBytes) := by
  rw [expand]
  simp only [List.length_append, if_pos h, List.take_left, List.drop_left]

/-- A text of groups does not start with an ellipsis. -/
theorem groupsText_not_ellipsis (hne : gs ≠ []) (t : Str) :
    ¬[colon, colon] <+: groupsText gs ++ t := by
  obtain ⟨c, rest, htext, hc⟩ := groupsText_eq_cons hne
  rw [htext, List.cons_append, List.cons_prefix_cons]
  exact fun h => hc h.1.symm

/-- The groups on both sides of an ellipsis are read. -/
theorem parseIPv6_around {a b : List ℕ} (ha : ∀ g ∈ a, g < 65536) (hb : ∀ g ∈ b, g < 65536)
    (h : a.length + b.length < 8) :
    parseIPv6 (groupsText a ++ [colon, colon] ++ groupsText b) = some
      ((a ++ List.replicate (8 - (a.length + b.length)) 0 ++ b).flatMap groupBytes) := by
  rw [parseIPv6]
  by_cases hanil : a = []
  · subst hanil
    have hdrop : ([colon, colon] ++ groupsText b).drop 2 = groupsText b := rfl
    rw [groupsText, List.map_nil, List.intercalate_nil, List.nil_append,
      if_pos (List.prefix_append _ _), hdrop]
    by_cases hbnil : b = []
    · subst hbnil
      rfl
    · obtain ⟨c, t, htext, -⟩ := groupsText_eq_cons hbnil
      have hmore : [colon, colon] ++ groupsText b ≠ [colon, colon] := by
        rw [htext]
        simp
      have hread := parseGroups_all (8 - b.length) [] (some 0) hbnil hb
      rw [Nat.add_sub_cancel' (by simp only [List.length_nil] at h; omega)] at hread
      have hexpand := expand_ellipsis h
      rw [if_neg hmore, hread, Option.bind_some]
      exact hexpand
  · rw [List.append_assoc, if_neg (groupsText_not_ellipsis hanil _)]
    have hread := parseGroups_all_ellipsis (t := groupsText b) (8 - a.length) [] none hanil ha
    rw [Nat.add_sub_cancel' (by omega)] at hread
    rw [List.cons_append, List.cons_append, List.nil_append, hread]
    simp only [Option.isSome_none, Bool.false_eq_true, if_false, List.nil_append]
    by_cases hbnil : b = []
    · subst hbnil
      have hexpand := expand_ellipsis h
      rw [List.append_nil] at hexpand
      exact hexpand
    · obtain ⟨c, t, htext, -⟩ := groupsText_eq_cons hbnil
      have hmore : groupsText b ≠ [] := by
        rw [htext]
        exact List.cons_ne_nil _ _
      have hrest := parseGroups_all (8 - a.length - b.length) a (some a.length) hbnil hb
      rw [Nat.add_sub_cancel' (by omega)] at hrest
      rw [if_neg hmore, hrest, Option.bind_some]
      exact expand_ellipsis h

/-- Groups are read back from their text. -/
theorem parseIPv6_text6 (hlen : gs.length = 8) (hlt : ∀ g ∈ gs, g < 65536) :
    parseIPv6 (text6 gs) = some (gs.flatMap groupBytes) := by
  rw [text6]
  cases hrun : zeroRun gs with
  | none =>
    have hne : gs ≠ [] := fun he => by rw [he] at hlen; cases hlen
    have hread := parseGroups_all 0 [] none hne hlt
    have hplain := groupsText_not_ellipsis hne []
    rw [List.append_nil] at hplain
    rw [Nat.add_zero, hlen, List.nil_append] at hread
    rw [parseIPv6, if_neg hplain, hread, Option.bind_some, expand, if_pos hlen]
  | some run =>
    obtain ⟨start, stop⟩ := run
    obtain ⟨hlong, hle, -⟩ := zeroRun_spec _ hrun
    dsimp only at hlong hle
    have htake : (gs.take start).length = start := List.length_take_of_le (by omega)
    have hdrop : (gs.drop stop).length = 8 - stop := by rw [List.length_drop, hlen]
    have hread := parseIPv6_around (a := gs.take start) (b := gs.drop stop)
      (fun g hg => hlt g (List.mem_of_mem_take hg)) (fun g hg => hlt g (List.mem_of_mem_drop hg))
      (by omega)
    have hmissing : 8 - ((gs.take start).length + (gs.drop stop).length) = stop - start := by omega
    rw [hmissing, (zeroRun_spec _ hrun).eq] at hread
    exact hread

end ReadBack

end Comax
