import Comax.Core.IpText

/-!
# Literal addresses, ranges and ports

The texts that Go's `net` package takes for an address: an IP address with an optional zone, a
range in CIDR notation, and a host with a port.
-/

namespace Comax

/-- `netip.Addr`: four bytes, or sixteen bytes with a zone. -/
structure Addr where
  ip : IP
  zone : Str
  deriving DecidableEq

/-- `netip.ParseAddr` -/
def parseAddr (s : Str) : Option Addr :=
  match s.find? fun c => c == period || c == colon || c == byte '%' with
  | none => none
  | some c =>
    if c = period then (parseIPv4 s).map (Addr.mk · [])
    else if c = colon then
      match s.dropWhile (· != byte '%') with
      | [] => (parseIPv6 s).map (Addr.mk · [])
      | _ :: zone =>
        if zone = [] then none else (parseIPv6 (s.takeWhile (· != byte '%'))).map (Addr.mk · zone)
    else none

/-- `net.ParseIP` -/
def parseIP (s : Str) : Option IP :=
  match parseAddr s with
  | some a => if a.zone = [] then some a.ip.to16 else none
  | none => none

/-- `net.ParseCIDR` -/
def parseCIDR (s : Str) : Option (IP × IPNet) :=
  match s.dropWhile (· != slash) with
  | [] => none
  | _ :: mask =>
    match parseAddr (s.takeWhile (· != slash)), digitsValue mask with
    | some a, some n =>
      if a.zone = [] ∧ n ≤ 8 * a.ip.length then
        let m := cidrMask n a.ip.length
        some (a.ip.to16, ⟨maskBytes a.ip m, m⟩)
      else none
    | _, _ => none

/-- `net.SplitHostPort` -/
def splitHostPort (s : Str) : Option (Str × Str) :=
  -- The port is what follows the last colon.
  let port := (s.reverse.takeWhile (· != colon)).reverse
  let front := s.take (s.length - port.length - 1)
  if colon ∉ s then none
  else if s.head? = some (byte '[') then
    let host := s.tail.takeWhile (· != byte ']')
    if front = byte '[' :: (host ++ [byte ']']) ∧ byte '[' ∉ host ++ port ∧ byte ']' ∉ port
    then some (host, port) else none
  else if colon ∈ front ∨ byte '[' ∈ s ∨ byte ']' ∈ s then none
  else some (front, port)

/-- `net.JoinHostPort` -/
def joinHostPort (host port : Str) : Str :=
  if colon ∈ host then byte '[' :: (host ++ byte ']' :: colon :: port)
  else host ++ colon :: port

/-! ## The bytes of a text -/

/-- A text of groups has digits and colons. -/
theorem mem_groupsText {gs : List ℕ} {c : UInt8} (h : c ∈ groupsText gs) :
    isHex c = true ∨ c = colon := by
  rcases mem_intercalate h with rfl | ⟨s, hs, hc⟩
  · exact .inr rfl
  · obtain ⟨g, -, rfl⟩ := List.mem_map.mp hs
    exact .inl (isHex_of_mem_hexGroup hc)

/-- The text of an IPv6 address has digits and colons. -/
theorem mem_text6 {gs : List ℕ} {c : UInt8} (h : c ∈ text6 gs) : isHex c = true ∨ c = colon := by
  rw [text6] at h
  split at h
  · exact mem_groupsText h
  · simp only [List.mem_append, List.mem_cons, List.not_mem_nil, or_false, or_self] at h
    rcases h with (h | h) | h
    · exact mem_groupsText h
    · exact .inr h
    · exact mem_groupsText h

/-- The text of an IPv6 address has a colon. -/
theorem colon_mem_text6 {gs : List ℕ} (hlen : gs.length = 8) : colon ∈ text6 gs := by
  rw [text6]
  split
  · obtain ⟨g, gs, rfl⟩ := List.exists_cons_of_length_eq_add_one hlen
    have hne : gs ≠ [] := fun he => by rw [he] at hlen; cases hlen
    rw [groupsText_cons g hne]
    simp
  · simp

/-- The text of an IPv4 address has digits and periods. -/
theorem mem_text4 {v4 : IP} {c : UInt8} (h : c ∈ text4 v4) :
    byte '0' ≤ c ∧ c ≤ byte '9' ∨ c = period := by
  rcases mem_intercalate h with rfl | ⟨s, hs, hc⟩
  · exact .inr rfl
  · obtain ⟨d, -, rfl⟩ := List.mem_map.mp hs
    exact .inl ((digits_of_digitsValue (digitsValue_formatNat _)).2 c hc)

/-- A digit is neither a bracket nor a separator. -/
theorem isHex_no {c : UInt8} (h : c ∈ [period, byte '%', slash, byte '[', byte ']', colon]) :
    isHex c = false := by
  have hall : [period, byte '%', slash, byte '[', byte ']', colon].all (!isHex ·) = true := by
    decide
  simpa using List.all_eq_true.mp hall c h

/-- A text of digits and colons has no other byte. -/
theorem not_mem_of_hex {s : Str} (h : ∀ c ∈ s, isHex c = true ∨ c = colon) {c : UInt8}
    (hc : c ∈ [period, byte '%', slash, byte '[', byte ']']) : c ∉ s := by
  intro hmem
  rcases h c hmem with hhex | rfl
  · rw [isHex_no (List.mem_append_left [colon] hc)] at hhex
    cases hhex
  · exact absurd hc (by decide)

/-- The text of an IPv6 address has no other byte. -/
theorem not_mem_text6 {c : UInt8} (hc : c ∈ [period, byte '%', slash, byte '[', byte ']'])
    (gs : List ℕ) : c ∉ text6 gs := not_mem_of_hex (fun _ => mem_text6) hc

/-- The text of an IPv4 address has no other byte. -/
theorem not_mem_text4 {c : UInt8} (hc : c ∈ [colon, byte '%', slash, byte '[', byte ']'])
    (v4 : IP) : c ∉ text4 v4 := by
  have hall : [colon, byte '%', slash, byte '[', byte ']'].all
      (fun d => !(byte '0' ≤ d && d ≤ byte '9' || d == period)) = true := by decide
  have hno := List.all_eq_true.mp hall c hc
  intro h
  rcases mem_text4 h with ⟨hlow, hhigh⟩ | rfl
  · simp [hlow, hhigh] at hno
  · simp at hno

/-! ## Reading an address back -/

section ParseAddr

variable {s : Str}

/-- The first separator decides how a text is read. -/
theorem find_separator {c : UInt8} (hmem : c ∈ s) (hc : c ∈ [period, colon, byte '%'])
    (hother : ∀ d ∈ [period, colon, byte '%'], d ≠ c → d ∉ s) :
    s.find? (fun c => c == period || c == colon || c == byte '%') = some c := by
  have hsep : ∀ d : UInt8, (d == period || d == colon || d == byte '%') = true ↔
      d ∈ [period, colon, byte '%'] := by
    intro d
    simp [or_assoc]
  cases hfind : s.find? (fun c => c == period || c == colon || c == byte '%') with
  | none => exact absurd ((hsep c).mpr hc) (List.find?_eq_none.mp hfind c hmem)
  | some d =>
    have hd := List.find?_some hfind
    by_contra hne
    exact hother d ((hsep d).mp hd) (fun he => hne (congrArg some he))
      (List.mem_of_find?_eq_some hfind)

/-- A text with periods and neither colon nor zone is an IPv4 address. -/
theorem parseAddr_period (hperiod : period ∈ s) (hcolon : colon ∉ s) (hzone : byte '%' ∉ s) :
    parseAddr s = (parseIPv4 s).map (Addr.mk · []) := by
  have hfind := find_separator hperiod (by simp) (by simp [hcolon, hzone])
  rw [parseAddr, hfind]
  rfl

/-- A text with colons and neither period nor zone is an IPv6 address. -/
theorem parseAddr_colon (hcolon : colon ∈ s) (hperiod : period ∉ s) (hzone : byte '%' ∉ s) :
    parseAddr s = (parseIPv6 s).map (Addr.mk · []) := by
  have hfind := find_separator hcolon (by simp) (by simp [hperiod, hzone])
  have hplain : s.dropWhile (· != byte '%') = [] :=
    List.dropWhile_eq_nil_iff.mpr fun c hc => bne_iff_ne.mpr fun he => hzone (he ▸ hc)
  rw [parseAddr, hfind]
  simp only [hplain]
  rfl

/-- Octets are read back from their text. -/
theorem parseIPv4_text4 {v4 : IP} (h : v4.length = 4) : parseIPv4 (text4 v4) = some v4 := by
  have hplain : ∀ field ∈ v4.map fun c => formatNat c.toNat, period ∉ field := by
    intro field hfield hperiod
    obtain ⟨c, -, rfl⟩ := List.mem_map.mp hfield
    have hdigit := (digits_of_digitsValue (digitsValue_formatNat _)).2 _ hperiod
    exact absurd hdigit.1 (by decide)
  have hne : v4.map (fun c => formatNat c.toNat) ≠ [] := by
    intro hnil
    rw [List.map_eq_nil_iff.mp hnil] at h
    cases h
  have hsplit : (text4 v4).splitOn period = v4.map fun c => formatNat c.toNat :=
    List.splitOn_intercalate period hplain hne
  obtain ⟨a, b, c, d, rfl⟩ := eq_four h
  simp only [parseIPv4, hsplit, List.map_cons, List.map_nil, List.mapM_cons, List.mapM_nil,
    parseOctet_formatNat]
  rfl

/-- An address is read back from its text. -/
theorem parseAddr_string {ip : IP} (h : ip.Valid) :
    parseAddr ip.string = some ⟨ip.canonical, []⟩ := by
  rw [IP.string, IP.canonical]
  cases hfamily : ip.to4 with
  | some v4 =>
    have hlen := (IP.to4_eq_some hfamily).1
    have hperiod : period ∈ text4 v4 := by
      obtain ⟨a, b, c, d, rfl⟩ := eq_four hlen
      simp [text4, List.intercalate_cons_cons]
    simp only [parseAddr_period hperiod (not_mem_text4 (by simp) v4) (not_mem_text4 (by simp) v4),
      parseIPv4_text4 hlen]
    rfl
  | none =>
    have hlen := IP.length_of_to4_eq_none h hfamily
    obtain ⟨hgroups, hbytes⟩ := groups_spec (k := 8) hlen
    simp only [parseAddr_colon (colon_mem_text6 hgroups) (not_mem_text6 (by simp) _)
      (not_mem_text6 (by simp) _), parseIPv6_text6 hgroups (groups_lt ip), hbytes]
    rfl

end ParseAddr

/-! ## Hosts and ports -/

section Ports

variable {s host port : Str}

/-- A port that `SplitHostPort` returns. -/
def PlainPort (port : Str) : Prop := colon ∉ port ∧ byte '[' ∉ port ∧ byte ']' ∉ port

/-- What follows the last colon holds no colon. -/
theorem colon_not_mem_port (s : Str) : colon ∉ (s.reverse.takeWhile (· != colon)).reverse := by
  intro h
  have hne := List.mem_takeWhile_imp (List.mem_reverse.mp h)
  simp at hne

/-- `SplitHostPort` returns a plain port. -/
theorem splitHostPort_port (h : splitHostPort s = some (host, port)) : PlainPort port := by
  have hcolon := colon_not_mem_port s
  have hsub : ∀ c ∈ (s.reverse.takeWhile (· != colon)).reverse, c ∈ s := fun c hc =>
    List.mem_reverse.mp ((List.takeWhile_sublist _).subset (List.mem_reverse.mp hc))
  rw [splitHostPort] at h
  dsimp only at h
  split_ifs at h with hno hopen hbracket hplain
  · obtain ⟨-, rfl⟩ := Prod.mk.inj (Option.some.inj h)
    exact ⟨hcolon, fun hc => hbracket.2.1 (List.mem_append_right _ hc), hbracket.2.2⟩
  · obtain ⟨-, rfl⟩ := Prod.mk.inj (Option.some.inj h)
    rw [not_or, not_or] at hplain
    exact ⟨hcolon, fun hc => hplain.2.1 (hsub _ hc), fun hc => hplain.2.2 (hsub _ hc)⟩

/-- The port of a text. -/
theorem port_append (front : Str) (h : colon ∉ port) :
    ((front ++ colon :: port).reverse.takeWhile (· != colon)).reverse = port := by
  have hport : colon ∉ port.reverse := mt List.mem_reverse.mp h
  rw [List.reverse_append, List.reverse_cons, List.append_assoc, List.singleton_append,
    takeWhile_before hport (.inr rfl), List.reverse_reverse]

/-- The text in front of the port. -/
theorem front_append (front port : Str) :
    (front ++ colon :: port).take ((front ++ colon :: port).length - port.length - 1) = front := by
  have hlen : (front ++ colon :: port).length - port.length - 1 = front.length := by
    rw [List.length_append, List.length_cons]
    omega
  rw [hlen, List.take_left]

/-- A host and a port are read back. -/
theorem splitHostPort_joinHostPort (hopen : byte '[' ∉ host) (hclose : byte ']' ∉ host)
    (hport : PlainPort port) : splitHostPort (joinHostPort host port) = some (host, port) := by
  obtain ⟨hcolon, hopen', hclose'⟩ := hport
  rw [joinHostPort]
  split_ifs with hsix
  · have hform : byte '[' :: (host ++ byte ']' :: colon :: port) =
        (byte '[' :: (host ++ [byte ']'])) ++ colon :: port := by simp
    have hhost : (byte '[' :: (host ++ [byte ']']) ++ colon :: port).tail.takeWhile
        (· != byte ']') = host := by
      rw [List.cons_append, List.tail_cons, List.append_assoc, takeWhile_before hclose (.inr rfl)]
    have hhead : (byte '[' :: (host ++ [byte ']']) ++ colon :: port).head? = some (byte '[') := rfl
    have hplain : byte '[' ∉ host ++ port := by simp [hopen, hopen']
    rw [hform, splitHostPort]
    simp only [port_append _ hcolon, front_append, hhost]
    rw [if_neg (by simp), if_pos hhead, if_pos ⟨trivial, hplain, hclose'⟩]
  · have hhead : ¬(host ++ colon :: port).head? = some (byte '[') := by
      cases host with
      | nil =>
        have hne : colon ≠ byte '[' := by decide
        exact fun he => hne (Option.some.inj he)
      | cons c host =>
        intro he
        exact hopen (Option.some.inj he ▸ List.mem_cons_self)
    have hbracket : byte '[' ≠ colon ∧ byte ']' ≠ colon := by decide
    rw [splitHostPort]
    simp only [port_append _ hcolon, front_append, if_neg hhead]
    rw [if_neg (by simp), if_neg]
    simp [hsix, hopen, hclose, hopen', hclose', hbracket]

end Ports

/-! ## Ranges -/

section Ranges

variable {s : Str} {a : Addr}

/-- As many values as texts are read, and every text is read. -/
theorem mapM_spec {α β : Type} {f : α → Option β} {l : List α} {r : List β}
    (h : l.mapM f = some r) : r.length = l.length ∧ ∀ x ∈ l, ∃ y, f x = some y := by
  induction l generalizing r with
  | nil =>
    rw [List.mapM_nil] at h
    obtain rfl := Option.some.inj h
    exact ⟨rfl, nofun⟩
  | cons x l ih =>
    rw [List.mapM_cons] at h
    obtain ⟨y, hy, h⟩ := Option.bind_eq_some_iff.mp h
    obtain ⟨ys, hys, h⟩ := Option.bind_eq_some_iff.mp h
    obtain rfl := Option.some.inj h
    obtain ⟨hlen, hread⟩ := ih hys
    exact ⟨by rw [List.length_cons, List.length_cons, hlen],
      List.forall_mem_cons.mpr ⟨⟨y, hy⟩, hread⟩⟩

/-- Four octets are read. -/
theorem length_parseIPv4 {v4 : IP} (h : parseIPv4 s = some v4) : v4.length = 4 := by
  rw [parseIPv4] at h
  split_ifs at h with hlen
  exact (mapM_spec h).1.trans hlen

/-- Eight groups have sixteen bytes. -/
theorem length_groupBytes (gs : List ℕ) : (gs.flatMap groupBytes).length = 2 * gs.length := by
  induction gs with
  | nil => rfl
  | cons g gs ih =>
    rw [List.flatMap_cons, List.length_append, ih, List.length_cons]
    exact (Nat.add_comm _ _).trans (Nat.mul_succ 2 _).symm

/-- The groups make sixteen bytes. -/
theorem length_expand {gs : List ℕ} {ellipsis : Option ℕ} {v6 : IP}
    (h : expand gs ellipsis = some v6) : v6.length = 16 := by
  unfold expand at h
  split at h
  · split_ifs at h with hlen
    rw [← Option.some.inj h, length_groupBytes, hlen]
  · rename_i i
    split_ifs at h with hlen
    have hsplit := congrArg List.length (List.take_append_drop i gs)
    rw [List.length_append] at hsplit
    rw [← Option.some.inj h, length_groupBytes, List.length_append, List.length_append,
      List.length_replicate]
    omega

/-- Sixteen bytes are read. -/
theorem length_parseIPv6 {v6 : IP} (h : parseIPv6 s = some v6) : v6.length = 16 := by
  rw [parseIPv6] at h
  split_ifs at h
  · rw [← Option.some.inj h, List.length_replicate]
  · obtain ⟨r, -, hr⟩ := Option.bind_eq_some_iff.mp h
    exact length_expand hr
  · obtain ⟨r, -, hr⟩ := Option.bind_eq_some_iff.mp h
    exact length_expand hr

/-- An address that is read has four bytes or sixteen. -/
theorem parseAddr_valid (h : parseAddr s = some a) : a.ip.Valid := by
  have hsix : ∀ {t zone}, (parseIPv6 t).map (Addr.mk · zone) = some a → a.ip.Valid := by
    intro t zone h
    obtain ⟨v6, hv6, rfl⟩ := Option.map_eq_some_iff.mp h
    exact .inr (length_parseIPv6 hv6)
  rw [parseAddr] at h
  split at h
  · cases h
  · split_ifs at h
    · obtain ⟨v4, hv4, rfl⟩ := Option.map_eq_some_iff.mp h
      exact .inl (length_parseIPv4 hv4)
    · split at h
      · exact hsix h
      · split_ifs at h
        exact hsix h

/-- `ParseIP` returns sixteen bytes. -/
theorem parseIP_valid {ip : IP} (h : parseIP s = some ip) : ip.Valid := by
  rw [parseIP] at h
  split at h
  · rename_i a ha
    split_ifs at h
    obtain rfl := Option.some.inj h
    exact .inr (IP.length_to16 (parseAddr_valid ha))
  · cases h

/-- A range is read from the text of its address. -/
theorem parseCIDR_of_parseAddr {n : ℕ} (hslash : slash ∉ s) (ha : parseAddr s = some a)
    (hzone : a.zone = []) (hn : n ≤ 8 * a.ip.length) :
    parseCIDR (s ++ slash :: formatNat n) = some
      (a.ip.to16, ⟨maskBytes a.ip (cidrMask n a.ip.length), cidrMask n a.ip.length⟩) := by
  rw [parseCIDR, dropWhile_before hslash, takeWhile_before hslash (.inr rfl)]
  simp only [ha, digitsValue_formatNat, if_pos (And.intro hzone hn)]

/-- A text that is no address is no range. -/
theorem parseCIDR_eq_none {mask : Str} (hslash : slash ∉ s) (ha : parseAddr s = none) :
    parseCIDR (s ++ slash :: mask) = none := by
  rw [parseCIDR, dropWhile_before hslash, takeWhile_before hslash (.inr rfl), ha]

end Ranges

/-! ## Literal addresses have no port -/

section Literal

variable {s : Str} {a : Addr}

/-- The loop reads a colon for all but two of the groups, and two for an ellipsis. -/
theorem parseGroups_colons {n : ℕ} {gs gs' : List ℕ} {ellipsis ellipsis' : Option ℕ}
    (h : parseGroups n gs ellipsis s = some (gs', ellipsis')) :
    gs'.length ≤ gs.length + s.count colon + 2 ∧
      (ellipsis' = ellipsis ∨ 2 ≤ s.count colon) := by
  induction n generalizing gs ellipsis s with
  | zero =>
    rw [parseGroups] at h
    split_ifs at h
    obtain ⟨rfl, rfl⟩ := Prod.mk.inj (Option.some.inj h)
    exact ⟨by omega, .inl rfl⟩
  | succ n ih =>
    have hdrop := (List.drop_sublist (s.takeWhile isHex).length s).count_le colon
    rw [parseGroups] at h
    dsimp only at h
    split at h
    · cases h
    split at h
    · split_ifs at h
      obtain ⟨v4, hv4, hr⟩ := Option.map_eq_some_iff.mp h
      obtain ⟨rfl, rfl⟩ := Prod.mk.inj hr
      have hlen := (groups_spec (k := 2) (length_parseIPv4 hv4)).1
      rw [List.length_append, hlen]
      exact ⟨by omega, .inl rfl⟩
    · split at h
      · obtain ⟨rfl, rfl⟩ := Prod.mk.inj (Option.some.inj h)
        rw [List.length_append, List.length_singleton]
        exact ⟨by omega, .inl rfl⟩
      · cases h
      · rename_i c d rest hrest
        rw [hrest] at hdrop
        split_ifs at h with hc hd
        · rw [not_not] at hc
          obtain ⟨hlen, hellipsis⟩ := ih h
          rw [hc, List.count_cons_self] at hdrop
          rw [List.length_append, List.length_singleton] at hlen
          exact ⟨by omega, hellipsis.imp id fun h => by omega⟩
        · rw [not_not] at hc hd
          obtain ⟨rfl, rfl⟩ := Prod.mk.inj (Option.some.inj h)
          rw [hc, hd, List.count_cons_self, List.count_cons_self] at hdrop
          rw [List.length_append, List.length_singleton]
          exact ⟨by omega, .inr (by omega)⟩
        · rw [not_not] at hc hd
          obtain ⟨hlen, -⟩ := ih h
          rw [hc, hd, List.count_cons_self, List.count_cons_self] at hdrop
          rw [List.length_append, List.length_singleton] at hlen
          exact ⟨by omega, .inr (by omega)⟩

/-- An IPv6 address has two colons and starts with no bracket. -/
theorem parseIPv6_colons {v6 : IP} (h : parseIPv6 s = some v6) :
    2 ≤ s.count colon ∧ s.head? ≠ some (byte '[') := by
  rw [parseIPv6] at h
  by_cases hpre : [colon, colon] <+: s
  · obtain ⟨t, rfl⟩ := hpre
    have hne : some colon ≠ some (byte '[') := by decide
    exact ⟨by simp, hne⟩
  · rw [if_neg hpre] at h
    obtain ⟨⟨gs, ellipsis⟩, hr, hexpand⟩ := Option.bind_eq_some_iff.mp h
    obtain ⟨hlen, hellipsis⟩ := parseGroups_colons hr
    have hcount : 2 ≤ s.count colon := by
      rcases hellipsis with rfl | hcount
      · unfold expand at hexpand
        dsimp only at hexpand
        split_ifs at hexpand with height
        rw [List.length_nil] at hlen
        omega
      · exact hcount
    refine ⟨hcount, fun hhead => ?_⟩
    obtain ⟨t, rfl⟩ := List.head?_eq_some_iff.mp hhead
    have hno : ¬isHex (byte '[') = true := by decide
    rw [parseGroups, List.takeWhile_cons_of_neg hno] at hr
    cases hr

/-- A text with two colons that starts with no bracket has no port. -/
theorem splitHostPort_colons (hcount : 2 ≤ s.count colon) (hhead : s.head? ≠ some (byte '[')) :
    splitHostPort s = none := by
  have hmem : colon ∈ s := List.count_pos_iff.mp (by omega)
  obtain ⟨port, front, hsplit, hport⟩ := List.eq_append_cons_of_mem (List.mem_reverse.mpr hmem)
  obtain rfl : s = front.reverse ++ colon :: port.reverse := by
    rw [← List.reverse_reverse s, hsplit]
    simp
  have hport' : colon ∉ port.reverse := mt List.mem_reverse.mp hport
  have hfront : colon ∈ front.reverse := by
    rw [List.count_append, List.count_cons_self, List.count_eq_zero.mpr hport'] at hcount
    exact List.count_pos_iff.mp (by omega)
  rw [splitHostPort]
  simp only [port_append _ hport', front_append, if_neg hhead]
  rw [if_neg (not_not.mpr hmem), if_pos (.inl hfront)]

/-- An IPv4 address has no colon. -/
theorem colon_not_mem_of_parseIPv4 {v4 : IP} (h : parseIPv4 s = some v4) : colon ∉ s := by
  rw [parseIPv4] at h
  split_ifs at h
  intro hmem
  have hjoin : [period].intercalate (s.splitOn period) = s := List.intercalate_splitOn period
  rw [← hjoin] at hmem
  rcases mem_intercalate hmem with hc | ⟨field, hfield, hc⟩
  · exact absurd hc (by decide)
  · obtain ⟨c, hread⟩ := (mapM_spec h).2 field hfield
    rw [parseOctet] at hread
    split_ifs at hread
    obtain ⟨n, hn, -⟩ := Option.map_eq_some_iff.mp hread
    have hdigit := (digits_of_digitsValue (Option.filter_eq_some_iff.mp hn).1).2 colon hc
    exact absurd hdigit.2 (by decide)

/-- A literal address has no port. -/
theorem splitHostPort_literal (h : parseAddr s = some a) : splitHostPort s = none := by
  have hsix : ∀ {t u zone}, s = t ++ u → (parseIPv6 t).map (Addr.mk · zone) = some a →
      splitHostPort s = none := by
    rintro t u zone rfl h
    obtain ⟨v6, hv6, -⟩ := Option.map_eq_some_iff.mp h
    obtain ⟨hcount, hhead⟩ := parseIPv6_colons hv6
    refine splitHostPort_colons ?_ ?_
    · rw [List.count_append]
      omega
    · cases t with
      | nil => simp at hcount
      | cons c t => exact hhead
  rw [parseAddr] at h
  split at h
  · cases h
  · split_ifs at h
    · obtain ⟨v4, hv4, -⟩ := Option.map_eq_some_iff.mp h
      rw [splitHostPort]
      exact if_pos (colon_not_mem_of_parseIPv4 hv4)
    · split at h
      · exact hsix (List.append_nil s).symm h
      · split_ifs at h
        exact hsix List.takeWhile_append_dropWhile.symm h

end Literal

end Comax
