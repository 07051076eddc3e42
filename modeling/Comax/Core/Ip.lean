import Comax.Core.Text

/-!
# IP addresses and their ranges

The four or sixteen bytes of an address and the ranges of addresses, as Go's `net` package keeps
them. An IPv4 address and its IPv4-mapped form are one address, and it lies in IPv4 ranges only.
-/

namespace Comax

/-- The bytes of an address. -/
abbrev IP := Str

/-- `v4InV6Prefix` -/
def v4InV6Prefix : Str := List.replicate 10 0 ++ [0xff, 0xff]

/-- `IP.To4` -/
def IP.to4 (ip : IP) : Option IP :=
  if ip.length = 4 then some ip
  else if ip.length = 16 ∧ ip.take 12 = v4InV6Prefix then some (ip.drop 12) else none

/-- `IP.To16`, of an address. -/
def IP.to16 (ip : IP) : IP := if ip.length = 4 then v4InV6Prefix ++ ip else ip

/-- An address has four bytes or sixteen. -/
def IP.Valid (ip : IP) : Prop := ip.length = 4 ∨ ip.length = 16

/-- The bytes of an address in its own family. -/
def IP.canonical (ip : IP) : IP := ip.to4.getD ip

/-- `IP.Equal` -/
def IP.equal (ip x : IP) : Bool :=
  if ip.length = x.length then ip == x
  else if ip.length = 4 ∧ x.length = 16 then x.take 12 == v4InV6Prefix && ip == x.drop 12
  else if ip.length = 16 ∧ x.length = 4 then ip.take 12 == v4InV6Prefix && ip.drop 12 == x
  else false

/-- The bytes of an address that a mask keeps. -/
def maskBytes (ip mask : Str) : Str := List.zipWith (· &&& ·) ip mask

/-- `net.CIDRMask`, of some bytes. -/
def cidrMask (ones : ℕ) : ℕ → Str
  | 0 => []
  | l + 1 =>
    (if 8 ≤ ones then 0xff else ~~~((0xff : UInt8) >>> UInt8.ofNat ones)) :: cidrMask (ones - 8) l

/-- `IPNet` -/
structure IPNet where
  ip : IP
  mask : Str
  deriving DecidableEq

/-- `networkNumberAndMask` -/
def IPNet.numberAndMask (n : IPNet) : IP × Str :=
  match n.ip.to4 with
  | some number =>
    if n.mask.length = 4 then (number, n.mask)
    else if n.mask.length = 16 then (number, n.mask.drop 12)
    else ([], [])
  | none => if n.ip.length = 16 ∧ n.mask.length = 16 then (n.ip, n.mask) else ([], [])

/-- `IPNet.Contains` -/
def IPNet.contains (n : IPNet) (ip : IP) : Bool :=
  let (number, mask) := n.numberAndMask
  let ip := ip.to4.getD ip
  ip.length == number.length && maskBytes number mask == maskBytes ip mask

/-- `IP.IsLinkLocalUnicast` -/
def IP.isLinkLocalUnicast (ip : IP) : Bool :=
  match ip.to4 with
  | some v4 => v4[0]? == some 169 && v4[1]? == some 254
  | none => ip.length == 16 && ip[0]? == some 0xfe && ip[1]?.map (· &&& 0xc0) == some 0x80

/-- `IP.IsLinkLocalMulticast` -/
def IP.isLinkLocalMulticast (ip : IP) : Bool :=
  match ip.to4 with
  | some v4 => v4[0]? == some 224 && v4[1]? == some 0 && v4[2]? == some 0
  | none => ip.length == 16 && ip[0]? == some 0xff && ip[1]?.map (· &&& 0x0f) == some 0x02

/-- `IP.IsUnspecified` -/
def IP.isUnspecified (ip : IP) : Bool :=
  ip.equal (v4InV6Prefix ++ List.replicate 4 0) || ip.equal (List.replicate 16 0)

/-- The link-local unicast ranges, 169.254.0.0/16 and fe80::/10. -/
def linkLocalUnicast : List IPNet :=
  [⟨[169, 254, 0, 0], cidrMask 16 4⟩, ⟨[0xfe, 0x80] ++ List.replicate 14 0, cidrMask 10 16⟩]

/-- The link-local multicast ranges, 224.0.0.0/24 and ffX2::/16 with any flags. -/
def linkLocalMulticast : List IPNet :=
  [⟨[224, 0, 0, 0], cidrMask 24 4⟩,
    ⟨[0xff, 0x02] ++ List.replicate 14 0, [0xff, 0x0f] ++ List.replicate 14 0⟩]

/-- The unspecified addresses, 0.0.0.0/32 and ::/128. -/
def unspecified : List IPNet :=
  [⟨List.replicate 4 0, cidrMask 32 4⟩, ⟨List.replicate 16 0, cidrMask 128 16⟩]

/-! ## The family of an address -/

variable {ip x : IP}

/-- The bytes that stand for an IPv4 address. -/
theorem IP.to4_eq_some {v4 : IP} (h : ip.to4 = some v4) :
    v4.length = 4 ∧ (ip = v4 ∨ ip = v4InV6Prefix ++ v4) := by
  rw [to4] at h
  split_ifs at h with hfour hmapped
  · obtain rfl := Option.some.inj h
    exact ⟨hfour, .inl rfl⟩
  · obtain rfl := Option.some.inj h
    refine ⟨by rw [List.length_drop, hmapped.1], .inr ?_⟩
    rw [← hmapped.2, List.take_append_drop]

/-- Four bytes are an IPv4 address. -/
theorem IP.to4_four {v4 : IP} (h : v4.length = 4) : v4.to4 = some v4 := by
  rw [to4, if_pos h]

/-- An IPv4-mapped address is the IPv4 address. -/
theorem IP.to4_mapped {v4 : IP} (h : v4.length = 4) :
    to4 (v4InV6Prefix ++ v4) = some v4 := by
  have hlen : (v4InV6Prefix ++ v4).length = 16 := by
    rw [List.length_append, h]
    rfl
  have htake : (v4InV6Prefix ++ v4).take 12 = v4InV6Prefix := List.take_left' rfl
  have hdrop : (v4InV6Prefix ++ v4).drop 12 = v4 := List.drop_left' rfl
  rw [to4, if_neg (by rw [hlen]; decide), if_pos ⟨hlen, htake⟩, hdrop]

/-- The sixteen-byte form stands for the same IPv4 address. -/
theorem IP.to4_to16 (ip : IP) : ip.to16.to4 = ip.to4 := by
  rw [to16]
  split_ifs with h
  · rw [to4_mapped h, to4_four h]
  · rfl

/-- The sixteen-byte form is the same address. -/
theorem IP.canonical_to16 (h : ip.Valid) : ip.to16.canonical = ip.canonical := by
  rw [canonical, canonical, to4_to16]
  rcases h with h | h
  · rw [to4_four h]
    rfl
  · rw [to16, if_neg (by rw [h]; decide)]

/-- The sixteen-byte form has sixteen bytes. -/
theorem IP.length_to16 (h : ip.Valid) : ip.to16.length = 16 := by
  rw [to16]
  split_ifs with hfour
  · rw [List.length_append, hfour]
    rfl
  · exact h.resolve_left hfour

/-- An address of the other family has sixteen bytes. -/
theorem IP.length_of_to4_eq_none (hvalid : ip.Valid) (h : ip.to4 = none) : ip.length = 16 := by
  refine hvalid.resolve_left fun hfour => ?_
  rw [to4_four hfour] at h
  cases h

/-- An address has the sixteen-byte form of its bytes in its own family. -/
theorem IP.to16_canonical (h : ip.Valid) : ip.canonical.to16 = ip.to16 := by
  cases hfamily : ip.to4 with
  | some v4 =>
    obtain ⟨hlen, rfl | rfl⟩ := to4_eq_some hfamily
    · rw [canonical, hfamily]
      rfl
    · rw [canonical, hfamily, Option.getD_some, to16, if_pos hlen, to16, if_neg]
      rw [List.length_append, hlen]
      decide
  | none =>
    rw [canonical, hfamily]
    rfl

/-- `IP.Equal` compares sixteen-byte forms. -/
theorem IP.equal_iff_to16 (hip : ip.Valid) (hx : x.Valid) :
    ip.equal x = true ↔ ip.to16 = x.to16 := by
  have hmapped : ∀ {v y : Str}, (y.take 12 = v4InV6Prefix ∧ v = y.drop 12) ↔
      v4InV6Prefix ++ v = y := by
    intro v y
    constructor
    · rintro ⟨htake, rfl⟩
      rw [← htake, List.take_append_drop]
    · rintro rfl
      exact ⟨List.take_left' rfl, (@List.drop_left _ v4InV6Prefix _).symm⟩
  rcases hip with hip | hip
  · rcases hx with hx | hx
    · rw [equal, if_pos (hip.trans hx.symm), beq_iff_eq, to16, if_pos hip, to16, if_pos hx,
        List.append_right_inj]
    · simp [equal, to16, hip, hx, hmapped]
  · rcases hx with hx | hx
    · simp [equal, to16, hip, hx, hmapped, eq_comm (b := x), eq_comm (a := ip)]
    · rw [equal, if_pos (hip.trans hx.symm), beq_iff_eq, to16, if_neg (by rw [hip]; decide), to16,
        if_neg (by rw [hx]; decide)]

/-- `IP.Equal` compares addresses in their own family. -/
theorem IP.equal_iff (hip : ip.Valid) (hx : x.Valid) :
    ip.equal x = true ↔ ip.canonical = x.canonical := by
  rw [equal_iff_to16 hip hx]
  constructor
  · intro h
    rw [← canonical_to16 hip, h, canonical_to16 hx]
  · intro h
    rw [← to16_canonical hip, h, to16_canonical hx]

/-- The bytes of an address in its own family are an address. -/
theorem IP.canonical_valid (h : ip.Valid) : ip.canonical.Valid := by
  cases hfamily : ip.to4 with
  | some v4 =>
    rw [canonical, hfamily]
    exact .inl (to4_eq_some hfamily).1
  | none =>
    rw [canonical, hfamily]
    exact h

/-- A range holds an address in all its forms or in none. -/
theorem IPNet.contains_congr (n : IPNet) (h : ip.canonical = x.canonical) :
    n.contains ip = n.contains x := by
  have hform : ∀ y : IP, n.contains y = (y.canonical.length == n.numberAndMask.1.length &&
      maskBytes n.numberAndMask.1 n.numberAndMask.2 ==
        maskBytes y.canonical n.numberAndMask.2) := fun y => rfl
  rw [hform, hform, h]

/-! ## The addresses of a range -/

section Range

variable {n : IPNet} {number : IP} {mask y : Str} {k r : ℕ}

/-- A mask of zeros keeps nothing. -/
theorem maskBytes_zeros (h : y.length = r) :
    maskBytes y (List.replicate r 0) = List.replicate r 0 := by
  induction r generalizing y with
  | zero => rw [List.length_eq_zero_iff.mp h]; rfl
  | succ r ih =>
    obtain ⟨c, y, rfl⟩ := List.exists_cons_of_length_eq_add_one h
    have hzero : c &&& 0 = 0 := UInt8.and_zero
    rw [maskBytes, List.replicate_succ, List.zipWith_cons_cons, hzero, ← maskBytes,
      ih (Nat.succ.inj h)]

/-- A mask of ones keeps as many bytes as it has. -/
theorem maskBytes_ones (y : Str) (k : ℕ) : maskBytes y (List.replicate k 0xff) = y.take k := by
  induction k generalizing y with
  | zero => rw [List.replicate_zero, maskBytes, List.zipWith_nil_right, List.take_zero]
  | succ k ih =>
    cases y with
    | nil => rfl
    | cons c y =>
      have hone : c &&& 0xff = c := UInt8.and_neg_one
      rw [maskBytes, List.replicate_succ, List.zipWith_cons_cons, hone, ← maskBytes, ih,
        List.take_succ_cons]

/-- What a mask with zeros at its end keeps. -/
theorem maskBytes_append_zeros (h : y.length = mask.length + r) :
    maskBytes y (mask ++ List.replicate r 0) = maskBytes y mask ++ List.replicate r 0 := by
  induction mask generalizing y with
  | nil =>
    rw [List.nil_append, maskBytes_zeros (by simpa using h), maskBytes, List.zipWith_nil_right,
      List.nil_append]
  | cons b mask ih =>
    rw [List.length_cons, Nat.add_right_comm] at h
    obtain ⟨c, y, rfl⟩ := List.exists_cons_of_length_eq_add_one h
    have hrest := ih (Nat.succ.inj h)
    rw [maskBytes, maskBytes] at hrest
    rw [maskBytes, maskBytes, List.cons_append, List.zipWith_cons_cons, List.zipWith_cons_cons,
      hrest, List.cons_append]

/-- A mask of whole bytes. -/
theorem cidrMask_whole (k r : ℕ) :
    cidrMask (8 * k) (k + r) = List.replicate k 0xff ++ List.replicate r 0 := by
  induction k with
  | zero =>
    rw [Nat.mul_zero, Nat.zero_add, List.replicate_zero, List.nil_append]
    induction r with
    | zero => rfl
    | succ r ih => rw [cidrMask, Nat.zero_sub, ih]; rfl
  | succ k ih =>
    rw [Nat.add_right_comm, cidrMask, if_pos (by omega), Nat.mul_succ, Nat.add_sub_cancel, ih]
    rfl

/-- A mask has as many bytes as are asked for. -/
theorem length_cidrMask (ones l : ℕ) : (cidrMask ones l).length = l := by
  induction l generalizing ones with
  | zero => rfl
  | succ l ih => rw [cidrMask, List.length_cons, ih]

/-- The number and the mask of a range that is written in its own family. -/
theorem IPNet.numberAndMask_eq (hvalid : number.Valid) (hcanon : number.canonical = number)
    (hmask : mask.length = number.length) :
    numberAndMask ⟨number, mask⟩ = (number, mask) := by
  rw [numberAndMask]
  cases hfamily : number.to4 with
  | some v4 =>
    rw [IP.canonical, hfamily] at hcanon
    obtain rfl : v4 = number := hcanon
    exact if_pos (hmask.trans (IP.to4_eq_some hfamily).1)
  | none =>
    have hlen := IP.length_of_to4_eq_none hvalid hfamily
    exact if_pos ⟨hlen, hmask.trans hlen⟩

/-- The addresses of a range whose mask ends in zeros. -/
theorem IPNet.contains_iff (hnet : n.numberAndMask = (number, mask ++ List.replicate r 0))
    (hlen : number.length = mask.length + r) :
    n.contains ip = true ↔
      ip.canonical.length = number.length ∧
        maskBytes ip.canonical mask = maskBytes number mask := by
  have hform : n.contains ip = (ip.canonical.length == n.numberAndMask.1.length &&
      maskBytes n.numberAndMask.1 n.numberAndMask.2 ==
        maskBytes ip.canonical n.numberAndMask.2) := rfl
  rw [hform, hnet, Bool.and_eq_true, beq_iff_eq, beq_iff_eq]
  refine and_congr_right fun h => ?_
  rw [maskBytes_append_zeros hlen, maskBytes_append_zeros (h.trans hlen), List.append_left_inj,
    eq_comm]

/-- The addresses of a range of whole bytes have its bytes in front. -/
theorem IPNet.contains_whole_iff
    (hnet : n.numberAndMask = (number, cidrMask (8 * k) (k + r)))
    (hlen : number.length = k + r) :
    n.contains ip = true ↔
      ip.canonical.length = number.length ∧ ip.canonical.take k = number.take k := by
  rw [cidrMask_whole] at hnet
  rw [contains_iff hnet (by rw [List.length_replicate, hlen]), maskBytes_ones, maskBytes_ones]

/-- A mask of ones leaves a range of a single address. -/
theorem IPNet.contains_single_iff (hnet : n.numberAndMask = (number, cidrMask (8 * k) (k + 0)))
    (hlen : number.length = k) : n.contains ip = true ↔ ip.canonical = number := by
  rw [contains_whole_iff hnet hlen, hlen]
  constructor
  · rintro ⟨hip, htake⟩
    rwa [List.take_of_length_le hip.le, List.take_of_length_le hlen.le] at htake
  · rintro rfl
    exact ⟨hlen, rfl⟩

end Range

/-! ## The reserved ranges -/

/-- Four bytes. -/
theorem eq_four {y : Str} (h : y.length = 4) : ∃ a b c d, y = [a, b, c, d] := by
  obtain ⟨a, y, rfl⟩ := List.exists_cons_of_length_eq_add_one h
  obtain ⟨b, y, rfl⟩ := List.exists_cons_of_length_eq_add_one (Nat.succ.inj h)
  obtain ⟨c, d, rfl⟩ := List.length_eq_two.mp (Nat.succ.inj (Nat.succ.inj h))
  exact ⟨a, b, c, d, rfl⟩

/-- The first two bytes of sixteen. -/
theorem eq_sixteen {y : Str} (h : y.length = 16) : ∃ a b t, y = a :: b :: t := by
  obtain ⟨a, y, rfl⟩ := List.exists_cons_of_length_eq_add_one h
  obtain ⟨b, y, rfl⟩ := List.exists_cons_of_length_eq_add_one (Nat.succ.inj h)
  exact ⟨a, b, y, rfl⟩

/-- A byte under a mask of ones. -/
theorem and_ones (a : UInt8) : a &&& 255 = a := UInt8.and_neg_one

/-- The addresses of two ranges, one of each family, by the bytes that their masks keep. -/
theorem contains_pair_iff (n₄ n₆ : IPNet) (mask₄ mask₆ : Str) (r₄ r₆ : ℕ)
    {number₄ number₆ : Str}
    (h₄ : n₄.numberAndMask = (number₄, mask₄ ++ List.replicate r₄ 0))
    (h₆ : n₆.numberAndMask = (number₆, mask₆ ++ List.replicate r₆ 0))
    (hlen₄ : number₄.length = 4 ∧ mask₄.length + r₄ = 4)
    (hlen₆ : number₆.length = 16 ∧ mask₆.length + r₆ = 16) (hip : ip.Valid) :
    (∃ n ∈ [n₄, n₆], n.contains ip = true) ↔
      match ip.to4 with
      | some v4 => maskBytes v4 mask₄ = maskBytes number₄ mask₄
      | none => maskBytes ip mask₆ = maskBytes number₆ mask₆ := by
  rw [List.exists_mem_cons_iff, List.exists_mem_cons_iff,
    IPNet.contains_iff h₄ (hlen₄.1.trans hlen₄.2.symm),
    IPNet.contains_iff h₆ (hlen₆.1.trans hlen₆.2.symm), hlen₄.1, hlen₆.1, IP.canonical]
  cases hfamily : ip.to4 with
  | some v4 => simp [(IP.to4_eq_some hfamily).1]
  | none => simp [IP.length_of_to4_eq_none hip hfamily]

/-- The tests for a link-local unicast address are its ranges. -/
theorem IP.isLinkLocalUnicast_iff (h : ip.Valid) :
    ip.isLinkLocalUnicast = true ↔ ∃ n ∈ linkLocalUnicast, n.contains ip = true := by
  have hscope : (0x80 : UInt8) &&& 0xc0 = 0x80 := by decide
  rw [linkLocalUnicast, isLinkLocalUnicast, contains_pair_iff ⟨[169, 254, 0, 0], _⟩
    ⟨[0xfe, 0x80] ++ List.replicate 14 0, _⟩ [0xff, 0xff] [0xff, 0xc0] 2 14
    rfl rfl ⟨rfl, rfl⟩ ⟨rfl, rfl⟩ h]
  cases hfamily : ip.to4 with
  | some v4 =>
    obtain ⟨a, b, c, d, rfl⟩ := eq_four (IP.to4_eq_some hfamily).1
    simp [maskBytes, and_ones]
  | none =>
    have hlen := IP.length_of_to4_eq_none h hfamily
    obtain ⟨a, b, t, rfl⟩ := eq_sixteen hlen
    simp [maskBytes, and_ones, hlen, hscope]

/-- The tests for a link-local multicast address are its ranges. -/
theorem IP.isLinkLocalMulticast_iff (h : ip.Valid) :
    ip.isLinkLocalMulticast = true ↔ ∃ n ∈ linkLocalMulticast, n.contains ip = true := by
  have hscope : (0x02 : UInt8) &&& 0x0f = 0x02 := by decide
  rw [linkLocalMulticast, isLinkLocalMulticast, contains_pair_iff ⟨[224, 0, 0, 0], _⟩
    ⟨[0xff, 0x02] ++ List.replicate 14 0, _⟩ [0xff, 0xff, 0xff] [0xff, 0x0f] 1 14
    rfl rfl ⟨rfl, rfl⟩ ⟨rfl, rfl⟩ h]
  cases hfamily : ip.to4 with
  | some v4 =>
    obtain ⟨a, b, c, d, rfl⟩ := eq_four (IP.to4_eq_some hfamily).1
    simp [maskBytes, and_ones, and_assoc]
  | none =>
    have hlen := IP.length_of_to4_eq_none h hfamily
    obtain ⟨a, b, t, rfl⟩ := eq_sixteen hlen
    simp [maskBytes, and_ones, hlen, hscope]

/-- The tests for an unspecified address are its ranges. -/
theorem IP.isUnspecified_iff (h : ip.Valid) :
    ip.isUnspecified = true ↔ ∃ n ∈ unspecified, n.contains ip = true := by
  have hzero₄ : IP.canonical (v4InV6Prefix ++ List.replicate 4 0) = List.replicate 4 0 := rfl
  have hzero₆ : IP.canonical (List.replicate 16 0) = List.replicate 16 0 := rfl
  rw [isUnspecified, Bool.or_eq_true, equal_iff h (.inr rfl), equal_iff h (.inr rfl), hzero₄,
    hzero₆, unspecified, contains_pair_iff ⟨List.replicate 4 0, _⟩ ⟨List.replicate 16 0, _⟩
    (List.replicate 4 0xff) (List.replicate 16 0xff) 0 0 rfl rfl ⟨rfl, rfl⟩ ⟨rfl, rfl⟩ h, canonical]
  simp only [maskBytes_ones]
  cases hfamily : ip.to4 with
  | some v4 =>
    obtain ⟨a, b, c, d, rfl⟩ := eq_four (IP.to4_eq_some hfamily).1
    simp [List.replicate]
  | none =>
    have hlen := IP.length_of_to4_eq_none h hfamily
    have htake : ip.take 16 = ip := List.take_of_length_le hlen.le
    have hfour : ip ≠ [0, 0, 0, 0] := fun he => by simp [he] at hlen
    simp [htake, hfour]

end Comax
