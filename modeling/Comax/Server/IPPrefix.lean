import Comax.Core.HostPort

/-!
# The stored prefix of a remote address

`IPPrefix` writes an IPv4 prefix from its octets and an IPv6 prefix from the first three pieces of
the address text. Where that text leaves out a run of zeros among the first three groups, the
pieces are not the groups.
-/

namespace Comax.Auth

/-- The host of a remote address, which may have a port. -/
def hostOf (addr : Str) : Str :=
  match splitHostPort addr with
  | some (host, _) => host
  | none => addr

/-- `IPPrefix` -/
def ipPrefix (addr : Str) : Str :=
  if addr = [] then []
  else
    match parseIP (hostOf addr) with
    | none => []
    | some ip =>
      match ip.to4 with
      | some v4 =>
        formatNat (v4.getD 0 0).toNat ++ ascii "." ++ formatNat (v4.getD 1 0).toNat ++ ascii "." ++
          formatNat (v4.getD 2 0).toNat ++ ascii ".0/24"
      | none =>
        let groups := ip.to16.string.splitOn colon
        if groups.length < 3 then []
        else [colon].intercalate (groups.take 3) ++ ascii "::/48"

/-- The bytes that the stored prefix may show: three of an IPv4 address, six of another. -/
def network (ip : IP) : Str := ip.canonical.take (if ip.canonical.length = 4 then 3 else 6)

/-- A text is a range of the addresses with the network of an address. -/
def Denotes (out : Str) (ip : IP) : Prop :=
  ∃ r, parseCIDR out = some r ∧
    ∀ x : IP, x.Valid → (r.2.contains x = true ↔ network x = network ip)

/-- An address without zone that is an IPv4 address, or whose text leaves out no run of zeros that
starts in its first three groups. -/
structure Plain (a : Addr) : Prop where
  zone : a.zone = []
  run : a.ip.to4 = none → ∀ run ∈ zeroRun (groups a.ip), 3 ≤ run.1

/-- The range of a network. -/
def networkText (n : Str) : Str :=
  if n.length = 3 then text4 (n ++ [0]) ++ slash :: formatNat 24
  else groupsText (groups n) ++ [colon, colon] ++ slash :: formatNat 48

/-! ## Addresses with and without a port -/

section Forms

variable {s port : Str} {a : Addr}

/-- A literal address without port is a host. -/
theorem hostOf_literal (h : parseAddr s = some a) : hostOf s = s := by
  rw [hostOf, splitHostPort_literal h]

/-- A host with a port is that host. -/
theorem hostOf_joinHostPort (hopen : byte '[' ∉ s) (hclose : byte ']' ∉ s)
    (hport : PlainPort port) : hostOf (joinHostPort s port) = s := by
  rw [hostOf, splitHostPort_joinHostPort hopen hclose hport]

end Forms

/-! ## The networks of addresses -/

section Networks

variable {ip x : IP}

/-- The bytes of a network in each family. -/
theorem network_spec (h : ip.Valid) : ∃ k,
    ((ip.canonical.length = 4 ∧ k = 3) ∨ ip.canonical.length = 16 ∧ k = 6) ∧
      network ip = ip.canonical.take k ∧ (network ip).length = k := by
  rcases IP.canonical_valid h with hlen | hlen
  · refine ⟨3, .inl ⟨hlen, rfl⟩, by rw [network, if_pos hlen], ?_⟩
    rw [network, if_pos hlen, List.length_take_of_le (by omega)]
  · have hne : ¬ip.canonical.length = 4 := by omega
    refine ⟨6, .inr ⟨hlen, rfl⟩, by rw [network, if_neg hne], ?_⟩
    rw [network, if_neg hne, List.length_take_of_le (by omega)]

/-- The groups of the first bytes. -/
theorem groups_take (b : Str) (k : ℕ) : groups (b.take (2 * k)) = (groups b).take k := by
  induction k generalizing b with
  | zero => rfl
  | succ k ih =>
    match b with
    | [] => rfl
    | [c] => rfl
    | c :: d :: b =>
      rw [Nat.mul_succ, List.take_succ_cons, List.take_succ_cons, groups, groups,
        List.take_succ_cons, ih]

/-- A text of the number of a network and its length denotes the network. -/
theorem denotes_of_parseAddr {s : Str} {number : IP} {k r : ℕ} (hslash : slash ∉ s)
    (ha : parseAddr s = some ⟨number, []⟩)
    (hcanon : number.canonical = number) (hlen : number.length = k + r)
    (hzeros : number = number.take k ++ List.replicate r 0) (hnet : network ip = number.take k)
    (hk : (k = 3 ∧ r = 1) ∨ k = 6 ∧ r = 10) : Denotes (s ++ slash :: formatNat (8 * k)) ip := by
  have hvalid : number.Valid := by rw [IP.Valid]; omega
  have hmask : maskBytes number (cidrMask (8 * k) number.length) = number := by
    rw [hlen, cidrMask_whole, maskBytes_append_zeros (by rw [hlen, List.length_replicate]),
      maskBytes_ones, ← hzeros]
  have hread := parseCIDR_of_parseAddr (n := 8 * k) hslash ha rfl (by dsimp only; omega)
  rw [hmask] at hread
  refine ⟨_, hread, fun x hx => ?_⟩
  have hnumber := IPNet.numberAndMask_eq hvalid hcanon (length_cidrMask (8 * k) number.length)
  rw [hlen] at hnumber
  rw [hlen, IPNet.contains_whole_iff hnumber hlen, hnet, hlen]
  have hlength : (number.take k).length = k := List.length_take_of_le (by omega)
  obtain ⟨j, hfamily, hxnet, hxlen⟩ := network_spec hx
  constructor
  · rintro ⟨hxlen', htake⟩
    obtain rfl : j = k := by omega
    rw [hxnet, htake]
  · intro htake
    rw [htake, hlength] at hxlen
    subst hxlen
    rw [← hxnet, htake]
    exact ⟨by omega, rfl⟩

/-- A text of groups and colons is read as an IPv6 address. -/
theorem parseAddr_front {s : Str} (hmem : ∀ c ∈ s, isHex c = true ∨ c = colon)
    (hcolon : colon ∈ s) : slash ∉ s ∧ parseAddr s = (parseIPv6 s).map (Addr.mk · []) :=
  ⟨not_mem_of_hex hmem (by simp),
    parseAddr_colon hcolon (not_mem_of_hex hmem (by simp)) (not_mem_of_hex hmem (by simp))⟩

/-- Six bytes and zeros are no IPv4-mapped address. -/
theorem canonical_zeros {n : Str} (h : n.length = 6) :
    IP.canonical (n ++ List.replicate 10 0) = n ++ List.replicate 10 0 := by
  have hlen : (n ++ List.replicate 10 0).length = 16 := by
    rw [List.length_append, h, List.length_replicate]
  have hno : ¬(n ++ List.replicate 10 0).take 12 = v4InV6Prefix := by
    intro htake
    have hlast := congrArg (·[11]?) htake
    simp [v4InV6Prefix, h] at hlast
  rw [IP.canonical, IP.to4, if_neg (by omega), if_neg fun h => hno h.2, Option.getD_none]

/-- The range of a network denotes it. -/
theorem denotes_networkText (h : ip.Valid) : Denotes (networkText (network ip)) ip := by
  obtain ⟨k, hfamily, hnet, hlen⟩ := network_spec h
  rcases hfamily with ⟨hfour, rfl⟩ | ⟨hsix, rfl⟩
  · have hnumber : (network ip ++ [0]).length = 4 := by rw [List.length_append, hlen]; rfl
    have hfamily := IP.to4_four hnumber
    have hcanon : IP.canonical (network ip ++ [0]) = network ip ++ [0] := by
      rw [IP.canonical, hfamily, Option.getD_some]
    have hread : parseAddr (IP.string (network ip ++ [0])) = _ := parseAddr_string (.inl hnumber)
    rw [IP.string, hfamily, hcanon] at hread
    have htake : (network ip ++ [0]).take 3 = network ip := List.take_left' hlen
    rw [networkText, if_pos hlen]
    exact denotes_of_parseAddr (k := 3) (r := 1) (not_mem_text4 (by simp) _) hread hcanon hnumber
      (by rw [htake]; rfl) htake.symm (.inl ⟨rfl, rfl⟩)
  · obtain ⟨hgroups, hbytes⟩ := groups_spec (k := 3) hlen
    have hcanon := canonical_zeros hlen
    have hnumber : (network ip ++ List.replicate 10 0).length = 6 + 10 := by
      rw [List.length_append, hlen, List.length_replicate]
    have htake : (network ip ++ List.replicate 10 0).take 6 = network ip := List.take_left' hlen
    have hnil : ∀ g ∈ ([] : List ℕ), g < 65536 := List.forall_mem_nil _
    have haround := parseIPv6_around (groups_lt (network ip)) hnil (by rw [hgroups]; decide)
    have hzeros : (List.replicate (8 - (3 + 0)) 0).flatMap groupBytes = List.replicate 10 0 := rfl
    have hempty : groupsText [] = [] := rfl
    rw [hempty, List.append_nil, List.append_nil, List.length_nil, hgroups, List.flatMap_append,
      hbytes, hzeros] at haround
    have hmem : ∀ c ∈ groupsText (groups (network ip)) ++ [colon, colon],
        isHex c = true ∨ c = colon := by
      intro c hc
      rcases List.mem_append.mp hc with hc | hc
      · exact mem_groupsText hc
      · exact .inr (by simpa using hc)
    obtain ⟨hslash, hread⟩ := parseAddr_front hmem (by simp)
    rw [haround] at hread
    rw [networkText, if_neg (by omega)]
    exact denotes_of_parseAddr (k := 6) hslash hread hcanon hnumber (by rw [htake]) htake.symm
      (.inr ⟨rfl, rfl⟩)

end Networks

/-! ## The pieces of an address text -/

section Pieces

variable {gs : List ℕ}

/-- What `IPPrefix` keeps of the groups, up to the length. -/
def kept (gs : List ℕ) : Str :=
  [colon].intercalate (((text6 gs).splitOn colon).take 3) ++ [colon, colon]

/-- The pieces of a text of groups. -/
theorem splitOn_groupsText (hne : gs ≠ []) : (groupsText gs).splitOn colon = gs.map hexGroup := by
  refine List.splitOn_intercalate colon (fun s hs hmem => ?_) (by simpa using hne)
  obtain ⟨g, -, rfl⟩ := List.mem_map.mp hs
  have hhex := isHex_of_mem_hexGroup hmem
  rw [isHex_colon] at hhex
  cases hhex

/-- The pieces of a text with an ellipsis. -/
theorem splitOn_text6 {run : ℕ × ℕ} (h : zeroRun gs = some run) :
    (text6 gs).splitOn colon = (groupsText (gs.take run.1)).splitOn colon ++
      [] :: (groupsText (gs.drop run.2)).splitOn colon := by
  rw [text6, h]
  simp only [List.append_assoc, List.cons_append, List.nil_append,
    List.splitOn_append_cons_self]
  rfl

/-- An address text has three pieces. -/
theorem three_le_pieces (hlen : gs.length = 8) : 3 ≤ ((text6 gs).splitOn colon).length := by
  have hpos : ∀ s : Str, 0 < (s.splitOn colon).length := fun s =>
    List.length_pos_iff.mpr (List.splitOn_ne_nil colon s)
  cases hrun : zeroRun gs with
  | none =>
    have hne : gs ≠ [] := fun he => by rw [he] at hlen; cases hlen
    rw [text6, hrun]
    simp only [splitOn_groupsText hne, List.length_map, hlen]
    decide
  | some run =>
    rw [splitOn_text6 hrun, List.length_append, List.length_cons]
    have hfirst := hpos (groupsText (gs.take run.1))
    have hlast := hpos (groupsText (gs.drop run.2))
    omega

/-- Where the text leaves out nothing among the first three groups, these are kept. -/
theorem kept_of_plain (hlen : gs.length = 8) (h : ∀ run ∈ zeroRun gs, 3 ≤ run.1) :
    kept gs = groupsText (gs.take 3) ++ [colon, colon] := by
  rw [kept]
  cases hrun : zeroRun gs with
  | none =>
    have hne : gs ≠ [] := fun he => by rw [he] at hlen; cases hlen
    rw [text6, hrun]
    simp only [splitOn_groupsText hne]
    rw [groupsText, List.map_take]
  | some run =>
    have hstart := h run hrun
    obtain ⟨hlong, hinside, -⟩ := zeroRun_spec run hrun
    have htake : (gs.take run.1).length = run.1 := List.length_take_of_le (by omega)
    have hne : gs.take run.1 ≠ [] := fun he => by rw [he] at htake; simp at htake; omega
    rw [splitOn_text6 hrun, splitOn_groupsText hne,
      List.take_append_of_le_length (by rw [List.length_map, htake]; exact hstart),
      ← List.map_take, List.take_take, Nat.min_eq_left hstart, groupsText]

/-- A text that no address has after an ellipsis. -/
structure Unreadable (t : Str) : Prop where
  ne_nil : t ≠ []
  bytes : ∀ c ∈ t, isHex c = true ∨ c = colon
  unread : ∀ n gs i, parseGroups n gs (some i) t = none

/-- The first piece of the groups after the ellipsis, with an ellipsis after it. -/
theorem unreadable_piece (hlt : ∀ g ∈ gs, g < 65536) :
    ∃ piece rest, (groupsText gs).splitOn colon = piece :: rest ∧
      Unreadable (piece ++ [colon, colon]) := by
  cases gs with
  | nil =>
    refine ⟨[], [], rfl, List.cons_ne_nil _ _, fun c hc => .inr (by simpa using hc), ?_⟩
    exact fun n gs i => parseGroups_colon n gs (some i)
  | cons g gs =>
    refine ⟨hexGroup g, gs.map hexGroup, splitOn_groupsText (List.cons_ne_nil _ _), by simp,
      fun c hc => ?_, fun n gs i => ?_⟩
    · rcases List.mem_append.mp hc with hc | hc
      · exact .inl (isHex_of_mem_hexGroup hc)
      · exact .inr (by simpa using hc)
    · cases n with
      | zero => rw [parseGroups, if_neg (by simp)]
      | succ n =>
        rw [parseGroups_ellipsis n gs (some i) (hlt g List.mem_cons_self)]
        rfl

/-- Where the text leaves out zeros among the first three groups, it is kept with two ellipses. -/
theorem kept_of_run {start stop : ℕ} (hlen : gs.length = 8) (hlt : ∀ g ∈ gs, g < 65536)
    (hrun : zeroRun gs = some (start, stop)) (hstart : start < 3) :
    ∃ t, kept gs = groupsText (gs.take start) ++ colon :: colon :: t ∧ Unreadable t := by
  have hdrop : ∀ g ∈ gs.drop stop, g < 65536 := fun g hg => hlt g (List.mem_of_mem_drop hg)
  obtain ⟨piece, rest, hpieces, hun⟩ := unreadable_piece hdrop
  obtain ⟨g, gs, rfl⟩ := List.exists_cons_of_length_eq_add_one hlen
  obtain ⟨g', gs, rfl⟩ := List.exists_cons_of_length_eq_add_one (Nat.succ.inj hlen)
  rw [kept, splitOn_text6 hrun, hpieces]
  interval_cases start
  · refine ⟨piece ++ [colon, colon], ?_, hun⟩
    simp [groupsText, List.intercalate_cons_cons]
  · have htake : (g :: g' :: gs).take (1, stop).1 = [g] := rfl
    refine ⟨piece ++ [colon, colon], ?_, hun⟩
    rw [htake, splitOn_groupsText (List.cons_ne_nil _ _)]
    simp [groupsText, List.intercalate_cons_cons]
  · have htake : (g :: g' :: gs).take (2, stop).1 = [g, g'] := rfl
    refine ⟨[colon], ?_, List.cons_ne_nil _ _, fun c hc => .inr (List.mem_singleton.mp hc),
      fun n gs i => parseGroups_colon n gs (some i)⟩
    rw [htake, splitOn_groupsText (List.cons_ne_nil _ _)]
    simp [groupsText, List.intercalate_cons_cons]

/-- A text with two ellipses is no address. -/
theorem parseIPv6_of_unreadable {t : Str} (hlen : gs.length ≤ 8) (hlt : ∀ g ∈ gs, g < 65536)
    (ht : Unreadable t) : parseIPv6 (groupsText gs ++ colon :: colon :: t) = none := by
  rw [parseIPv6]
  by_cases hnil : gs = []
  · subst hnil
    have hempty : groupsText [] = [] := rfl
    have hdrop : (colon :: colon :: t).drop 2 = t := rfl
    have hpre : [colon, colon] <+: colon :: colon :: t := List.prefix_append [colon, colon] t
    rw [hempty, List.nil_append, if_pos hpre, if_neg (by simpa using ht.ne_nil), hdrop, ht.unread]
    rfl
  · have hread := parseGroups_all_ellipsis (t := t) (8 - gs.length) [] none hnil hlt
    rw [Nat.add_sub_cancel' hlen, List.nil_append, if_neg ht.ne_nil, ht.unread] at hread
    rw [if_neg (groupsText_not_ellipsis hnil _), hread]
    rfl

end Pieces

/-! ## The stored prefix -/

section Stored

variable {addr : Str} {a : Addr}

/-- What is stored of an address without zone. -/
theorem ipPrefix_eq (h : parseAddr (hostOf addr) = some a) (hzone : a.zone = []) :
    ipPrefix addr =
      match a.ip.to4 with
      | some v4 => networkText (v4.take 3)
      | none => kept (groups a.ip) ++ slash :: formatNat 48 := by
  have hvalid := parseAddr_valid h
  have hne : addr ≠ [] := by
    rintro rfl
    cases h
  have hparse : parseIP (hostOf addr) = some a.ip.to16 := by
    rw [parseIP, h]
    exact if_pos hzone
  have h24 : slash :: formatNat 24 = ascii "/24" := by decide
  have h48 : slash :: formatNat 48 = ascii "/48" := by decide
  have h0 : formatNat 0 = ascii "0" := by decide
  rw [ipPrefix, if_neg hne, hparse]
  dsimp only
  rw [IP.to4_to16]
  cases hfamily : a.ip.to4 with
  | some v4 =>
    obtain ⟨x, y, z, w, rfl⟩ := eq_four (IP.to4_eq_some hfamily).1
    have hzero : (0 : UInt8).toNat = 0 := rfl
    have hlast : ascii ".0/24" = period :: (ascii "0" ++ ascii "/24") := rfl
    have hperiod : ascii "." = [period] := rfl
    simp only [networkText, List.take_succ_cons, List.take_zero, List.length_cons, List.length_nil,
      text4, List.cons_append, List.nil_append, List.map_cons, List.map_nil, hzero, h0, h24, hlast,
      hperiod, List.intercalate_cons_cons, List.intercalate_singleton, List.getD_cons_zero,
      List.getD_cons_succ, List.append_assoc, if_true]
  | none =>
    have hlen := IP.length_of_to4_eq_none hvalid hfamily
    have hsixteen : a.ip.to16 = a.ip := if_neg (by omega)
    have hstring : a.ip.string = text6 (groups a.ip) := by rw [IP.string, hfamily]
    have hpieces := three_le_pieces (groups_spec (k := 8) hlen).1
    have hlast : ascii "::/48" = [colon, colon] ++ ascii "/48" := rfl
    simp only [hsixteen, hstring, if_neg hpieces.not_gt, h48, hlast, kept, List.append_assoc]

/-- Nothing is stored of an address with a zone. -/
theorem ipPrefix_of_zone (h : parseAddr (hostOf addr) = some a) (hzone : a.zone ≠ []) :
    ipPrefix addr = [] := by
  have hnone : parseIP (hostOf addr) = none := by
    rw [parseIP, h]
    exact if_neg hzone
  rw [ipPrefix, hnone]
  exact ite_self []

/-- A plain address is stored as the range of its network. -/
theorem ipPrefix_of_plain (h : parseAddr (hostOf addr) = some a) (hplain : Plain a) :
    ipPrefix addr = networkText (network a.ip) := by
  have hvalid := parseAddr_valid h
  rw [ipPrefix_eq h hplain.zone]
  cases hfamily : a.ip.to4 with
  | some v4 =>
    have hcanon : a.ip.canonical = v4 := by rw [IP.canonical, hfamily, Option.getD_some]
    rw [network, hcanon, if_pos (IP.to4_eq_some hfamily).1]
  | none =>
    have hcanon : a.ip.canonical = a.ip := by rw [IP.canonical, hfamily, Option.getD_none]
    have hlen := IP.length_of_to4_eq_none hvalid hfamily
    have hsix : (a.ip.take 6).length = 6 := List.length_take_of_le (by omega)
    dsimp only
    rw [kept_of_plain (groups_spec (k := 8) hlen).1 (hplain.run hfamily), network, hcanon,
      if_neg (by omega), networkText, if_neg (by omega), groups_take a.ip 3]

/-- What is stored of an address that is not plain is no range. -/
theorem parseCIDR_ipPrefix (h : parseAddr (hostOf addr) = some a) (hplain : ¬Plain a) :
    parseCIDR (ipPrefix addr) = none := by
  by_cases hzone : a.zone = []
  · have hrun : ∃ hfamily : a.ip.to4 = none, ∃ run ∈ zeroRun (groups a.ip), run.1 < 3 := by
      by_contra hno
      push Not at hno
      exact hplain ⟨hzone, hno⟩
    obtain ⟨hfamily, ⟨start, stop⟩, hrun, hstart⟩ := hrun
    have hlen := IP.length_of_to4_eq_none (parseAddr_valid h) hfamily
    have hlt := groups_lt a.ip
    obtain ⟨t, hkept, ht⟩ := kept_of_run (groups_spec (k := 8) hlen).1 hlt hrun hstart
    have hmem : ∀ c ∈ kept (groups a.ip), isHex c = true ∨ c = colon := by
      intro c hc
      rw [hkept, List.mem_append, List.mem_cons, List.mem_cons] at hc
      rcases hc with hc | hc | hc | hc
      · exact mem_groupsText hc
      · exact .inr hc
      · exact .inr hc
      · exact ht.bytes c hc
    obtain ⟨hslash, hread⟩ := parseAddr_front hmem (by rw [hkept]; simp)
    have hshort : ((groups a.ip).take start).length ≤ 8 := by
      rw [List.length_take]
      omega
    have hno := parseIPv6_of_unreadable hshort (fun g hg => hlt g (List.mem_of_mem_take hg)) ht
    rw [← hkept] at hno
    rw [hno] at hread
    rw [ipPrefix_eq h hzone, hfamily]
    exact parseCIDR_eq_none hslash hread
  · rw [ipPrefix_of_zone h hzone]
    rfl

/-- What is stored denotes the network of a plain address and of no other. -/
theorem denotes_ipPrefix (h : parseAddr (hostOf addr) = some a) :
    Denotes (ipPrefix addr) a.ip ↔ Plain a := by
  constructor
  · rintro ⟨r, hr, -⟩
    by_contra hplain
    rw [parseCIDR_ipPrefix h hplain] at hr
    cases hr
  · intro hplain
    rw [ipPrefix_of_plain h hplain]
    exact denotes_networkText (parseAddr_valid h)

/-- The stored prefix of an address is the range of its network exactly when the address is plain,
and then it is the prefix of the plain addresses of that network and of no other of its
addresses. -/
theorem ipPrefix_iff (h : parseAddr (hostOf addr) = some a) :
    (Denotes (ipPrefix addr) a.ip ↔ Plain a) ∧
      (Plain a → ∀ addr' a', parseAddr (hostOf addr') = some a' → network a'.ip = network a.ip →
        (ipPrefix addr' = ipPrefix addr ↔ Plain a')) := by
  refine ⟨denotes_ipPrefix h, fun hplain addr' a' h' hnet => ⟨fun heq => ?_, fun hplain' => ?_⟩⟩
  · have hsame := (denotes_ipPrefix h).mpr hplain
    rw [← heq, Denotes, ← hnet] at hsame
    exact (denotes_ipPrefix h').mp hsame
  · rw [ipPrefix_of_plain h' hplain', ipPrefix_of_plain h hplain, hnet]

/-- The prefix of a plain address with its port. -/
theorem ipPrefix_iff_plain :
    Denotes (ipPrefix (ascii "[2001:db8:abcd:0012::1]:443"))
      [0x20, 0x01, 0x0d, 0xb8, 0xab, 0xcd, 0, 0x12, 0, 0, 0, 0, 0, 0, 0, 1] := by
  have h : parseAddr (hostOf (ascii "[2001:db8:abcd:0012::1]:443")) = some
      ⟨[0x20, 0x01, 0x0d, 0xb8, 0xab, 0xcd, 0, 0x12, 0, 0, 0, 0, 0, 0, 0, 1], []⟩ := by decide
  have hrun : zeroRun (groups [0x20, 0x01, 0x0d, 0xb8, 0xab, 0xcd, 0, 0x12, 0, 0, 0, 0, 0, 0, 0,
      1]) = some (4, 7) := by decide
  refine (ipPrefix_iff h).1.mpr ⟨rfl, fun _ run hmem => ?_⟩
  dsimp only at hmem
  rw [hrun] at hmem
  rw [← Option.some.inj hmem]
  decide

/-- The text of 2001:db8::1 leaves out its third group, so what is stored of it is no range, and
what is stored of ::1 shows the last of its groups. -/
theorem ipPrefix_not_denotes :
    (parseAddr (hostOf (ascii "[2001:db8::1]:443")) = some
        ⟨[0x20, 0x01, 0x0d, 0xb8, 0, 0, 0, 0, 0, 0, 0, 0, 0, 0, 0, 1], []⟩ ∧
      ipPrefix (ascii "[2001:db8::1]:443") = ascii "2001:db8:::/48" ∧
      ¬Denotes (ipPrefix (ascii "[2001:db8::1]:443"))
        [0x20, 0x01, 0x0d, 0xb8, 0, 0, 0, 0, 0, 0, 0, 0, 0, 0, 0, 1]) ∧
    ipPrefix (ascii "::1") = ascii "::1::/48" ∧ ipPrefix (ascii "::2") = ascii "::2::/48" := by
  have h : parseAddr (hostOf (ascii "[2001:db8::1]:443")) = some
      ⟨[0x20, 0x01, 0x0d, 0xb8, 0, 0, 0, 0, 0, 0, 0, 0, 0, 0, 0, 1], []⟩ := by decide
  have hrun : zeroRun (groups [0x20, 0x01, 0x0d, 0xb8, 0, 0, 0, 0, 0, 0, 0, 0, 0, 0, 0, 1]) =
      some (2, 7) := by decide
  refine ⟨⟨h, by decide, fun hdenotes => ?_⟩, by decide, by decide⟩
  have hplain := (denotes_ipPrefix h).mp hdenotes
  exact absurd (hplain.run rfl (2, 7) hrun) (by decide)

end Stored

end Comax.Auth
