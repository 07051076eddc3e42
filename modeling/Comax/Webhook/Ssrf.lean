import Comax.Core.HostPort
import Comax.Webhook.Worker

/-!
# The policy on webhook addresses

The policy, the check of a URL, and the client that delivers. The answer of every lookup comes from
outside: the check before a delivery and each dial look up the host anew.
-/

namespace Comax.Webhook

/-! ## The policy -/

/-- `Policy` -/
structure Policy where
  allow : List IPNet
  deny : List IPNet

/-- One entry of a list of ranges. -/
def parseEntry (tok : Str) : Option IPNet :=
  match parseCIDR tok with
  | some (_, n) => some n
  | none =>
    match parseIP tok with
    | none => none
    | some ip =>
      let bits := if ip.to4 = none then 128 else 32
      some ⟨ip, cidrMask bits (bits / 8)⟩

/-- `parseCIDRList` -/
def parseCIDRList (raw : Str) : Option (List IPNet) :=
  let raw := trimSpace raw
  if raw = [] then some []
  else (((raw.splitOn (byte ',')).map trimSpace).filter (· ≠ [])).mapM parseEntry

/-- `PolicyFromEnv`, of the values of the two variables. -/
def policyFromEnv (allow deny : Str) : Option Policy := do
  let allow ← parseCIDRList allow
  let deny ← parseCIDRList deny
  return ⟨allow, deny⟩

namespace Policy

variable (p : Policy)

/-- `allows`, with the reason when not. -/
def allows (ip : IP) : Bool × Str :=
  if p.allow.any (·.contains ip) then (true, [])
  else if p.deny.any (·.contains ip) then (false, ascii "denied by COMAX_WEBHOOK_DENY policy")
  else if ip.isLinkLocalUnicast || ip.isLinkLocalMulticast then
    (false, ascii "link-local / cloud-metadata address blocked")
  else if ip.isUnspecified then (false, ascii "unspecified address blocked")
  else (true, [])

/-- The first address that is not allowed, with the reason. -/
def firstBlocked (ips : List IP) : Option (IP × Str) :=
  ips.findSome? fun ip => if (p.allows ip).1 then none else some (ip, (p.allows ip).2)

/-- An address that the policy permits: one of an allowed range, or one of no denied range that is
neither link-local nor unspecified. -/
def Permitted (ip : IP) : Prop :=
  (∃ n ∈ p.allow, n.contains ip = true) ∨
    (∀ n ∈ p.deny, n.contains ip = false) ∧
      ∀ n ∈ linkLocalUnicast ++ linkLocalMulticast ++ unspecified, n.contains ip = false

end Policy

/-! ## The check of a URL -/

/-- The addresses of a successful lookup. -/
structure Answer where
  ips : List IP
  ne_nil : ips ≠ []
  valid : ∀ ip ∈ ips, ip.Valid

/-- The errors of `ValidateURL`. -/
inductive URLError where
  /-- `ErrInvalidURL`, of a text that does not parse, of a scheme or of a missing host. -/
  | unparsed
  | scheme (scheme : Str)
  | missingHost
  /-- `ErrResolve` -/
  | resolve (host : Str)
  /-- `ErrBlockedAddress` -/
  | blocked (host : Str) (ip : IP) (reason : Str)

/-- `ValidateURL`, given how the URL parses into a scheme and a host name, and the resolver. -/
def validateURL (parse : Str → Option (Str × Str)) (lookup : Str → Option Answer) (raw : Str)
    (policy : Policy) : Except URLError Unit :=
  match parse raw with
  | none => .error .unparsed
  | some (scheme, host) =>
    if scheme ≠ ascii "http" ∧ scheme ≠ ascii "https" then .error (.scheme scheme)
    else if host = [] then .error .missingHost
    else
      match lookup host with
      | none => .error (.resolve host)
      | some answer =>
        match policy.firstBlocked answer.ips with
        | some (ip, reason) => .error (.blocked host ip reason)
        | none => .ok ()

/-! ## The client -/

/-- What one call of `DialContext` meets: the text that it is called with, the answer of its lookup,
and the error of each connection that it tries. -/
structure Dial where
  addr : Str
  answer : Option Answer
  refused : ℕ → Option Str

/-- A connection that is tried: where it goes, if that is known, and whether it opens. -/
structure Attempt where
  target : Option IP
  opened : Bool
  deriving DecidableEq

/-- The errors of `DialContext`. -/
inductive DialError where
  /-- `SplitHostPort` fails. -/
  | address
  /-- `ErrResolve` -/
  | resolve (host : Str)
  /-- `ErrBlockedAddress` -/
  | blocked (host : Str) (ip : IP) (reason : Str)
  /-- The last connection that was tried fails. -/
  | refused (lastErr : Option Str)

/-- Where the dialer connects to. It looks up a text that is no literal address once more, and then
nothing is known. -/
def dialTarget (address : Str) : Option IP :=
  match splitHostPort address with
  | none => none
  | some (host, _) => (parseAddr host).map (·.ip.to16)

/-- The loop of `DialContext` over the checked addresses, from an index on. -/
def dialEach (port : Str) (refused : ℕ → Option Str) :
    ℕ → Option Str → List IP → List Attempt × Except DialError (Option IP)
  | _, lastErr, [] => ([], .error (.refused lastErr))
  | i, _, ip :: ips =>
    let target := dialTarget (joinHostPort ip.string port)
    match refused i with
    | none => ([⟨target, true⟩], .ok target)
    | some err =>
      let r := dialEach port refused (i + 1) (some err) ips
      (⟨target, false⟩ :: r.1, r.2)

/-- `DialContext` -/
def Policy.dialContext (p : Policy) (d : Dial) : List Attempt × Except DialError (Option IP) :=
  match splitHostPort d.addr with
  | none => ([], .error .address)
  | some (host, port) =>
    match d.answer with
    | none => ([], .error (.resolve host))
    | some answer =>
      match p.firstBlocked answer.ips with
      | some (ip, reason) => ([], .error (.blocked host ip reason))
      | none => dialEach port d.refused 0 none answer.ips

/-- The status and the location of a response. -/
structure Response where
  statusCode : Int
  location : Str

/-- One round trip of the transport: the dials that it makes, and the response or the text of its
error. -/
structure Exchange where
  dials : List Dial
  response : Except Str Response

/-- The errors of `Client.Do`. -/
inductive DoError where
  /-- `ErrRedirect` -/
  | redirect
  /-- Any other error, with its text. -/
  | other (text : Str)

/-- `transportReason` -/
def transportReason : DoError → Str
  | .redirect => ascii "redirect refused"
  | .other text => ascii "transport: " ++ text

/-- The client: how it dials, and the error of its `CheckRedirect`. -/
structure Client where
  dial : Dial → List Attempt × Except DialError (Option IP)
  checkRedirect : Option DoError

/-- `SafeClient` -/
def safeClient (policy : Policy) : Client where
  dial := policy.dialContext
  checkRedirect := some .redirect

/-- What a delivery does on the network. -/
inductive NetEvent where
  | dial (d : Dial) (attempts : List Attempt)
  | response (r : Response)

/-- A status that the client follows, for a request whose body can be sent again. -/
def Response.redirects (r : Response) : Bool := [301, 302, 303, 307, 308].contains r.statusCode

/-- What happens on the network while a delivery runs, in the order in which it happens. -/
structure Surroundings where
  /-- The scheme and the host name of a URL text. -/
  parse : Str → Option (Str × Str)
  /-- The lookup of `ValidateURL`. -/
  lookup : Str → Option Answer
  /-- Whether `http.NewRequestWithContext` succeeds. -/
  builds : Bool
  /-- The error of a location that does not parse. -/
  locationErr : Str → Option Str
  /-- The round trips that the transport has made so far. -/
  exchanges : List Exchange

/-- The loop of `Client.Do`, over the round trips so far. There is no result while the next round
trip is not over. -/
def Client.followFrom (c : Client) (locationErr : Str → Option Str) :
    List Exchange → List NetEvent × Option (Except DoError Response)
  | [] => ([], none)
  | x :: exchanges =>
    let dials := x.dials.map fun d => .dial d (c.dial d).1
    match x.response with
    | .error text => (dials, some (.error (.other text)))
    | .ok r =>
      let events := dials ++ [.response r]
      if r.redirects = false ∨ r.location = [] then (events, some (.ok r))
      else
        match locationErr r.location, c.checkRedirect with
        | some text, _ => (events, some (.error (.other text)))
        | none, some err => (events, some (.error err))
        | none, none =>
          let next := followFrom c locationErr exchanges
          (events ++ next.1, next.2)

/-- The check and the POST of `deliverOne`. -/
def deliver (policy : Policy) (o : Surroundings) (url : Str) :
    List NetEvent × Option PostOutcome :=
  match validateURL o.parse o.lookup url policy with
  | .error _ => ([], some .blocked)
  | .ok () =>
    if o.builds = false then ([], some .unbuilt)
    else
      let r := (safeClient policy).followFrom o.locationErr o.exchanges
      (r.1, r.2.map fun
        | .ok r => .response r.statusCode
        | .error err => .transport (transportReason err))

/-! ## What the policy permits -/

section Policy

variable {p : Policy} {ip : IP}

/-- A bare address in a list stands for itself in all its forms. -/
theorem parseEntry_bare {tok : Str} (hcidr : parseCIDR tok = none) (hip : parseIP tok = some ip) :
    ∃ n, parseEntry tok = some n ∧
      ∀ x : IP, n.contains x = true ↔ x.canonical = ip.canonical := by
  rw [parseEntry, hcidr, hip]
  refine ⟨_, rfl, fun x => ?_⟩
  cases hfamily : ip.to4 with
  | some v4 =>
    have hcanon : ip.canonical = v4 := by rw [IP.canonical, hfamily, Option.getD_some]
    have hnet : IPNet.numberAndMask ⟨ip, cidrMask 32 4⟩ = (v4, cidrMask (8 * 4) (4 + 0)) := by
      rw [IPNet.numberAndMask, hfamily]
      rfl
    rw [if_neg (Option.some_ne_none v4), hcanon]
    exact IPNet.contains_single_iff hnet (IP.to4_eq_some hfamily).1
  | none =>
    have hcanon : ip.canonical = ip := by rw [IP.canonical, hfamily, Option.getD_none]
    have hlen := IP.length_of_to4_eq_none (parseIP_valid hip) hfamily
    have hnet : IPNet.numberAndMask ⟨ip, cidrMask 128 16⟩ = (ip, cidrMask (8 * 16) (16 + 0)) := by
      rw [IPNet.numberAndMask, hfamily]
      exact if_pos ⟨hlen, rfl⟩
    rw [if_pos rfl, hcanon]
    exact IPNet.contains_single_iff hnet hlen

/-- The decision of `allows`, without the reason. -/
theorem Policy.allows_eq (p : Policy) (ip : IP) :
    (p.allows ip).1 = (p.allow.any (·.contains ip) || !p.deny.any (·.contains ip) &&
      (!(ip.isLinkLocalUnicast || ip.isLinkLocalMulticast) && !ip.isUnspecified)) := by
  rw [allows]
  split_ifs with hallow hdeny hlocal hzero
  · rw [hallow, Bool.true_or]
  · rw [hdeny, Bool.not_true, Bool.false_and, Bool.or_false, Bool.eq_false_iff.mpr hallow]
  · rw [hlocal, Bool.not_true, Bool.false_and, Bool.and_false, Bool.or_false,
      Bool.eq_false_iff.mpr hallow]
  · rw [hzero, Bool.not_true, Bool.and_false, Bool.and_false, Bool.or_false,
      Bool.eq_false_iff.mpr hallow]
  · rw [Bool.eq_false_iff.mpr hdeny, Bool.eq_false_iff.mpr hlocal, Bool.eq_false_iff.mpr hzero,
      Bool.not_false, Bool.and_self, Bool.and_self, Bool.or_true]

/-- The checks allow what the policy permits. -/
theorem Policy.allows_iff (h : ip.Valid) : (p.allows ip).1 = true ↔ p.Permitted ip := by
  have hblock : (∀ n ∈ linkLocalUnicast ++ linkLocalMulticast ++ unspecified,
      n.contains ip = false) ↔ ip.isLinkLocalUnicast = false ∧
        ip.isLinkLocalMulticast = false ∧ ip.isUnspecified = false := by
    rw [← Bool.not_eq_true, ← Bool.not_eq_true, ← Bool.not_eq_true, IP.isLinkLocalUnicast_iff h,
      IP.isLinkLocalMulticast_iff h, IP.isUnspecified_iff h]
    simp only [List.mem_append, or_imp, forall_and, not_exists, not_and, Bool.not_eq_true,
      and_assoc]
  rw [Permitted, hblock, allows_eq]
  simp [and_assoc]

/-- No address of a list is blocked exactly when all are permitted. -/
theorem Policy.firstBlocked_eq_none {ips : List IP} (hvalid : ∀ ip ∈ ips, ip.Valid) :
    p.firstBlocked ips = none ↔ ∀ ip ∈ ips, p.Permitted ip := by
  rw [firstBlocked, List.findSome?_eq_none_iff]
  refine forall₂_congr fun ip hip => ?_
  rw [← allows_iff (hvalid ip hip)]
  split_ifs with hallowed
  · simp [hallowed]
  · simp [hallowed]

/-- The policy holds an address in all its forms. -/
theorem Policy.permitted_to16 (h : ip.Valid) : p.Permitted ip.to16 ↔ p.Permitted ip := by
  have hform : ∀ n : IPNet, n.contains ip.to16 = n.contains ip := fun n =>
    n.contains_congr (IP.canonical_to16 h)
  simp only [Permitted, hform]

end Policy

/-! ## One dial -/

section Dials

variable {p : Policy} {port : Str}

/-- The dialer connects to the address that it is given as a text. -/
theorem dialTarget_string {ip : IP} (h : ip.Valid) (hport : PlainPort port) :
    dialTarget (joinHostPort ip.string port) = some ip.to16 := by
  have hplain : byte '[' ∉ ip.string ∧ byte ']' ∉ ip.string := by
    rw [IP.string]
    cases ip.to4 with
    | some v4 => exact ⟨not_mem_text4 (by simp) v4, not_mem_text4 (by simp) v4⟩
    | none => exact ⟨not_mem_text6 (by simp) _, not_mem_text6 (by simp) _⟩
  rw [dialTarget, splitHostPort_joinHostPort hplain.1 hplain.2 hport]
  simp only [parseAddr_string h, Option.map_some, IP.to16_canonical h]

/-- The connections that are tried go to the first addresses of the list, in its order. -/
theorem dialEach_targets {ips : List IP} (hvalid : ∀ ip ∈ ips, ip.Valid) (hport : PlainPort port)
    (refused : ℕ → Option Str) (i : ℕ) (lastErr : Option Str) :
    (dialEach port refused i lastErr ips).1.map (·.target) <+: ips.map fun ip => some ip.to16 := by
  induction ips generalizing i lastErr with
  | nil => exact List.nil_prefix
  | cons ip ips ih =>
    obtain ⟨hip, hips⟩ := List.forall_mem_cons.mp hvalid
    have hrest := ih hips (i + 1)
    rw [dialEach]
    simp only [dialTarget_string hip hport]
    cases refused i with
    | none => simp
    | some err => simpa using hrest (some err)

/-- A dial tries addresses of its own answer, in order, and none unless all are permitted. -/
theorem dialContext_spec (d : Dial) :
    (p.dialContext d).1 = [] ∨ ∃ answer ∈ d.answer, (∀ ip ∈ answer.ips, p.Permitted ip) ∧
      (p.dialContext d).1.map (·.target) <+: answer.ips.map fun ip => some ip.to16 := by
  rw [Policy.dialContext]
  cases hsplit : splitHostPort d.addr with
  | none => exact .inl rfl
  | some r =>
    obtain ⟨host, port⟩ := r
    cases d.answer with
    | none => exact .inl rfl
    | some answer =>
      cases hblocked : p.firstBlocked answer.ips with
      | some r =>
        simp only [hblocked]
        exact .inl trivial
      | none =>
        simp only [hblocked]
        exact .inr ⟨answer, rfl, (Policy.firstBlocked_eq_none answer.valid).mp hblocked,
          dialEach_targets answer.valid (splitHostPort_port hsplit) _ _ _⟩

example : (Policy.dialContext ⟨[], []⟩ ⟨ascii "hooks:443", some ⟨[[10, 0, 0, 1], [10, 0, 0, 2]],
    by simp, by simp [IP.Valid]⟩, fun i => if i = 0 then some (ascii "timeout") else none⟩).1 =
    [⟨some (v4InV6Prefix ++ [10, 0, 0, 1]), false⟩,
      ⟨some (v4InV6Prefix ++ [10, 0, 0, 2]), true⟩] := by decide

example : (Policy.dialContext ⟨[], []⟩ ⟨ascii "hooks:443", some ⟨[[10, 0, 0, 1],
    [169, 254, 169, 254]], by simp, by simp [IP.Valid]⟩, fun _ => none⟩).1 = [] := by decide

end Dials

/-! ## Deliveries -/

section Deliveries

variable {c : Client} {locationErr : Str → Option Str}

/-- A turn of the loop: the dials of a round trip, its response, and what follows if the client
follows a redirect. -/
theorem followFrom_cons (c : Client) (locationErr : Str → Option Str) (x : Exchange)
    (exchanges : List Exchange) : ∃ tail,
    (c.followFrom locationErr (x :: exchanges)).1 =
      (x.dials.map fun d => .dial d (c.dial d).1) ++ tail ∧
    (tail = [] ∨ ∃ r, tail = [.response r] ∨ c.checkRedirect = none ∧
      tail = .response r :: (c.followFrom locationErr exchanges).1) := by
  rw [Client.followFrom]
  cases x.response with
  | error text => exact ⟨[], (List.append_nil _).symm, .inl rfl⟩
  | ok r =>
    dsimp only
    split_ifs
    · exact ⟨[.response r], rfl, .inr ⟨r, .inl rfl⟩⟩
    cases locationErr r.location with
    | some text => exact ⟨[.response r], rfl, .inr ⟨r, .inl rfl⟩⟩
    | none =>
      cases hcheck : c.checkRedirect with
      | some err => exact ⟨[.response r], rfl, .inr ⟨r, .inl rfl⟩⟩
      | none =>
        exact ⟨_, by rw [List.append_assoc]; rfl, .inr ⟨r, .inr ⟨rfl, rfl⟩⟩⟩

/-- A dial tries the connections that the client's dialing tries. -/
theorem followFrom_dials {exchanges : List Exchange} {d : Dial} {attempts : List Attempt}
    (h : .dial d attempts ∈ (c.followFrom locationErr exchanges).1) : attempts = (c.dial d).1 := by
  induction exchanges with
  | nil => cases h
  | cons x exchanges ih =>
    obtain ⟨tail, hevents, htail⟩ := followFrom_cons c locationErr x exchanges
    rw [hevents, List.mem_append, List.mem_map] at h
    rcases h with ⟨d', -, hd⟩ | h
    · obtain ⟨rfl, rfl⟩ := NetEvent.dial.inj hd
      rfl
    · rcases htail with rfl | ⟨r, rfl | ⟨-, rfl⟩⟩
      · cases h
      · cases List.mem_singleton.mp h
      · rcases List.mem_cons.mp h with h | h
        · cases h
        · exact ih h

/-- A client that refuses every redirect does nothing after a response. -/
theorem followFrom_response (hrefuse : c.checkRedirect ≠ none) {exchanges : List Exchange}
    {before after : List NetEvent} {r : Response}
    (h : (c.followFrom locationErr exchanges).1 = before ++ .response r :: after) : after = [] := by
  cases exchanges with
  | nil => simp [Client.followFrom] at h
  | cons x exchanges =>
    obtain ⟨tail, hevents, htail⟩ := followFrom_cons c locationErr x exchanges
    have hdial : .response r ∉ x.dials.map fun d => NetEvent.dial d (c.dial d).1 := by simp
    have hshort : tail.length ≤ 1 := by
      rcases htail with rfl | ⟨r', rfl | ⟨hnone, -⟩⟩
      · exact Nat.zero_le 1
      · exact le_rfl
      · exact absurd hnone hrefuse
    rw [hevents] at h
    rcases List.append_eq_append_iff.mp h with ⟨mid, -, hmid⟩ | ⟨mid, hmid, hrest⟩
    · rw [hmid, List.length_append, List.length_cons] at hshort
      exact List.length_eq_zero_iff.mp (by omega)
    · cases mid with
      | nil =>
        rw [List.nil_append] at hrest
        rw [← hrest, List.length_cons] at hshort
        exact List.length_eq_zero_iff.mp (by omega)
      | cons e mid =>
        obtain ⟨rfl, -⟩ := List.cons.inj hrest
        exact absurd (by rw [hmid]; simp) hdial

/-- A delivery does what the client does, or nothing. -/
theorem deliver_events (p : Policy) (o : Surroundings) (url : Str) :
    (deliver p o url).1 = [] ∨
      (deliver p o url).1 = ((safeClient p).followFrom o.locationErr o.exchanges).1 := by
  rw [deliver]
  split
  · exact .inl rfl
  · split_ifs
    · exact .inl rfl
    · exact .inr rfl

/-- Every connection that a delivery tries goes to an address of the answer of its own dial, every
address of that answer is permitted, and nothing is done after a response. -/
theorem deliver_respects_policy (p : Policy) (o : Surroundings) (url : Str) :
    (∀ d attempts, .dial d attempts ∈ (deliver p o url).1 → ∀ a ∈ attempts,
      ∃ answer ∈ d.answer, (∃ ip ∈ answer.ips, a.target = some ip.to16) ∧
        ∀ ip ∈ answer.ips, p.Permitted ip) ∧
      ∀ before r after, (deliver p o url).1 = before ++ .response r :: after → after = [] := by
  rcases deliver_events p o url with hnone | hclient
  · rw [hnone]
    exact ⟨nofun, fun before r after h => by simp at h⟩
  · rw [hclient]
    have hrefuse : (safeClient p).checkRedirect ≠ none := Option.some_ne_none _
    refine ⟨fun d attempts h a ha => ?_, fun before r after h => followFrom_response hrefuse h⟩
    obtain rfl := followFrom_dials h
    rcases dialContext_spec (p := p) d with hempty | ⟨answer, hanswer, hpermitted, htargets⟩
    · rw [safeClient] at ha
      dsimp only at ha
      rw [hempty] at ha
      cases ha
    · have htarget := htargets.subset (List.mem_map_of_mem ha)
      obtain ⟨ip, hip, htarget⟩ := List.mem_map.mp htarget
      exact ⟨answer, hanswer, ⟨ip, hip, htarget.symm⟩, hpermitted⟩

end Deliveries

end Comax.Webhook
