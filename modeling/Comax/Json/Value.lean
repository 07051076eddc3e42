import Comax.Json.Quote

/-!
# JSON texts

Values, how a text is read as one, and how a value is printed with line breaks and
indents between its parts. Whatever the layout, what is printed is read back.
-/

namespace Comax.Json

open Comax.Core Comax.Webhook

/-- A JSON value. The text of a number is kept, and every member of an object. -/
inductive Value where
  | null
  | bool (b : Bool)
  | num (text : Str)
  | str (text : Str)
  | arr (items : List Value)
  | obj (members : List (Str × Value))

/-! ## Reading -/

/-- The blanks between tokens. -/
def isBlank (c : UInt8) : Bool := c = 0x20 || c = 0x09 || c = 0x0A || c = 0x0D

/-- Pass over blanks. -/
def skip (s : Str) : Str := s.dropWhile isBlank

/-- One digit or more, and the rest. -/
def digits (s : Str) : Option (Str × Str) :=
  if s.takeWhile isDigit = [] then none else some (s.takeWhile isDigit, s.dropWhile isDigit)

/-- The digits before the point: a zero, or digits that start with another one. -/
def integer : Str → Option (Str × Str)
  | [] => none
  | c :: s => if c = byte '0' then some ([c], s) else digits (c :: s)

/-- The point and the digits after it, if there is a point. -/
def fraction : Str → Option (Str × Str)
  | [] => some ([], [])
  | c :: s => if c = byte '.' then (digits s).map fun r => (c :: r.1, r.2) else some ([], c :: s)

/-- Digits with or without a sign. -/
def signedDigits : Str → Option (Str × Str)
  | [] => none
  | c :: s =>
    if c = byte '+' ∨ c = byte '-' then (digits s).map fun r => (c :: r.1, r.2)
    else digits (c :: s)

/-- The exponent, if there is one. -/
def exponent : Str → Option (Str × Str)
  | [] => some ([], [])
  | c :: s =>
    if c = byte 'e' ∨ c = byte 'E' then (signedDigits s).map fun r => (c :: r.1, r.2)
    else some ([], c :: s)

/-- The number without its sign, and the rest. -/
def magnitude (s : Str) : Option (Str × Str) := do
  let (whole, s) ← integer s
  let (part, s) ← fraction s
  let (power, s) ← exponent s
  return (whole ++ part ++ power, s)

/-- A number at the head of a text, and the rest. -/
def number : Str → Option (Str × Str)
  | [] => none
  | c :: s =>
    if c = byte '-' then (magnitude s).map fun r => (c :: r.1, r.2) else magnitude (c :: s)

mutual

/-- A value at the head of a text, and the rest. -/
def value : ℕ → Str → Option (Value × Str)
  | 0, _ => none
  | n + 1, s =>
    match s with
    | [] => none
    | c :: t =>
      if c = 0x22 then (content (t.length + 1) t).map fun r => (.str r.1, r.2)
      else if c = byte '{' then
        if (skip t).head? = some (byte '}') then some (.obj [], (skip t).tail)
        else (members n (skip t)).map fun r => (.obj r.1, r.2)
      else if c = byte '[' then
        if (skip t).head? = some (byte ']') then some (.arr [], (skip t).tail)
        else (items n (skip t)).map fun r => (.arr r.1, r.2)
      else if s.take 4 = ascii "true" then some (.bool true, s.drop 4)
      else if s.take 5 = ascii "false" then some (.bool false, s.drop 5)
      else if s.take 4 = ascii "null" then some (.null, s.drop 4)
      else (number s).map fun r => (.num r.1, r.2)

/-- The rest of an array that starts at a value. -/
def items : ℕ → Str → Option (List Value × Str)
  | 0, _ => none
  | n + 1, s => do
    let (v, s) ← value n s
    match skip s with
    | [] => none
    | c :: s =>
      if c = byte ']' then some ([v], s)
      else if c = byte ',' then (items n (skip s)).map fun r => (v :: r.1, r.2)
      else none

/-- The rest of an object that starts at a key. -/
def members : ℕ → Str → Option (List (Str × Value) × Str)
  | 0, _ => none
  | _ + 1, [] => none
  | n + 1, c :: s =>
    if c ≠ 0x22 then none
    else do
      let (k, s) ← content (s.length + 1) s
      match skip s with
      | [] => none
      | c :: s =>
        if c ≠ byte ':' then none
        else do
          let (v, s) ← value n (skip s)
          match skip s with
          | [] => none
          | c :: s =>
            if c = byte '}' then some ([(k, v)], s)
            else if c = byte ',' then (members n (skip s)).map fun r => ((k, v) :: r.1, r.2)
            else none

end

mutual

/-- How deep arrays and objects are nested. -/
def depth : Value → ℕ
  | .null | .bool _ | .num _ | .str _ => 0
  | .arr js => depthItems js + 1
  | .obj fs => depthMembers fs + 1

/-- See `depth`. -/
def depthItems : List Value → ℕ
  | [] => 0
  | j :: js => max (depth j) (depthItems js)

/-- See `depth`. -/
def depthMembers : List (Str × Value) → ℕ
  | [] => 0
  | (_, j) :: fs => max (depth j) (depthMembers fs)

end

/-- `maxNestingDepth` -/
def maxNestingDepth : ℕ := 10000

/-- A text as one value. -/
def read (s : Str) : Option Value := do
  let (v, rest) ← value (s.length + 1) (skip s)
  if skip rest = [] ∧ depth v ≤ maxNestingDepth then some v else none

/-! ## Printing -/

/-- What is printed between the parts of a value: a break before a line at a depth, and a gap after
a colon. -/
structure Layout where
  line : ℕ → Str
  gap : Str
  line_blank : ∀ d, ∀ c ∈ line d, isBlank c = true
  gap_blank : ∀ c ∈ gap, isBlank c = true

/-- Lines with an indent of two spaces. -/
def indented : Layout where
  line d := 0x0A :: List.replicate (2 * d) 0x20
  gap := [0x20]
  line_blank d c hc := by
    rcases List.mem_cons.mp hc with rfl | hc
    · rfl
    · rw [List.eq_of_mem_replicate hc]
      rfl
  gap_blank c hc := by
    rw [List.mem_singleton.mp hc]
    rfl

mutual

/-- The text of a value at a depth. -/
def print (L : Layout) (d : ℕ) : Value → Str
  | .null => ascii "null"
  | .bool true => ascii "true"
  | .bool false => ascii "false"
  | .num text => text
  | .str text => quoteJSON text
  | .arr [] => [byte '[', byte ']']
  | .arr (v :: vs) => byte '[' :: (L.line (d + 1) ++ print L (d + 1) v ++ printItems L d vs)
  | .obj [] => [byte '{', byte '}']
  | .obj ((k, v) :: ms) =>
    byte '{' :: (L.line (d + 1) ++ quoteJSON k ++ byte ':' :: (L.gap ++ print L (d + 1) v) ++
      printMembers L d ms)

/-- What follows an item of an array. -/
def printItems (L : Layout) (d : ℕ) : List Value → Str
  | [] => L.line d ++ [byte ']']
  | v :: vs => byte ',' :: (L.line (d + 1) ++ print L (d + 1) v ++ printItems L d vs)

/-- What follows a member of an object. -/
def printMembers (L : Layout) (d : ℕ) : List (Str × Value) → Str
  | [] => L.line d ++ [byte '}']
  | (k, v) :: ms =>
    byte ',' :: (L.line (d + 1) ++ quoteJSON k ++ byte ':' :: (L.gap ++ print L (d + 1) v) ++
      printMembers L d ms)

end

mutual

/-- The value with its strings as they are read back. -/
def coerce : Value → Value
  | .null => .null
  | .bool b => .bool b
  | .num text => .num text
  | .str text => .str (coerced text)
  | .arr vs => .arr (coerceItems vs)
  | .obj ms => .obj (coerceMembers ms)

/-- See `coerce`. -/
def coerceItems : List Value → List Value
  | [] => []
  | v :: vs => coerce v :: coerceItems vs

/-- See `coerce`. -/
def coerceMembers : List (Str × Value) → List (Str × Value)
  | [] => []
  | (k, v) :: ms => (coerced k, coerce v) :: coerceMembers ms

end

/-! ## Scanning -/

/-- What may stand after a value: a blank, or what separates or closes, or nothing. -/
def Stops (rest : Str) : Prop :=
  ∀ c ∈ rest.head?, isBlank c = true ∨ c = byte ',' ∨ c = byte ']' ∨ c = byte '}'

/-- The part of a number that a scanner takes stays the same before what stops it. -/
def Extends (scan : Str → Option (Str × Str)) : Prop :=
  ∀ {s t r rest : Str}, scan s = some (t, r) → Stops rest → scan (s ++ rest) = some (t, r ++ rest)

/-- What stops a value belongs to no number. -/
theorem Stops.not_numeric {c : UInt8} {rest : Str} (h : Stops (c :: rest)) :
    isDigit c = false ∧ c ≠ byte '.' ∧ c ≠ byte 'e' ∧ c ≠ byte 'E' := by
  have hc := h c rfl
  simp only [isBlank, Bool.or_eq_true, decide_eq_true_eq] at hc
  rcases hc with ((((rfl | rfl) | rfl) | rfl) | rfl | rfl | rfl) <;> decide

/-- The part of a text that satisfies `p` ends before what does not start with it. -/
theorem span_append {p : UInt8 → Bool} (s : Str) {rest : Str}
    (hrest : ∀ c ∈ rest.head?, p c = false) : (s ++ rest).takeWhile p = s.takeWhile p ∧
      (s ++ rest).dropWhile p = s.dropWhile p ++ rest := by
  induction s with
  | nil =>
    cases rest with
    | nil => exact ⟨rfl, rfl⟩
    | cons c rest => simp [hrest c rfl]
  | cons c s ih =>
    cases hc : p c with
    | false => simp [hc]
    | true => simp [hc, ih]

theorem extends_digits : Extends digits := by
  intro s t r rest h hrest
  have hhead : ∀ c ∈ rest.head?, isDigit c = false := by
    cases rest with
    | nil => simp
    | cons c rest => simpa using hrest.not_numeric.1
  have hspan := span_append s hhead
  unfold digits at h ⊢
  rw [hspan.1, hspan.2]
  split_ifs at h ⊢
  cases h
  rfl

theorem extends_integer : Extends integer := by
  intro s t r rest h hrest
  cases s with
  | nil => cases h
  | cons c s =>
    rw [integer] at h
    rw [List.cons_append, integer]
    split_ifs at h ⊢
    · cases h
      rfl
    · exact extends_digits h hrest

theorem extends_fraction : Extends fraction := by
  intro s t r rest h hrest
  cases s with
  | nil =>
    cases h
    cases rest with
    | nil => rfl
    | cons c rest => rw [List.nil_append, fraction, if_neg hrest.not_numeric.2.1]
  | cons c s =>
    rw [fraction] at h
    rw [List.cons_append, fraction]
    split_ifs at h ⊢
    · obtain ⟨x, hx, he⟩ := Option.map_eq_some_iff.mp h
      cases he
      rw [extends_digits hx hrest]
      rfl
    · cases h
      rfl

theorem extends_signedDigits : Extends signedDigits := by
  intro s t r rest h hrest
  cases s with
  | nil => cases h
  | cons c s =>
    rw [signedDigits] at h
    rw [List.cons_append, signedDigits]
    split_ifs at h ⊢
    · obtain ⟨x, hx, he⟩ := Option.map_eq_some_iff.mp h
      cases he
      rw [extends_digits hx hrest]
      rfl
    · exact extends_digits h hrest

theorem extends_exponent : Extends exponent := by
  intro s t r rest h hrest
  cases s with
  | nil =>
    cases h
    cases rest with
    | nil => rfl
    | cons c rest => rw [List.nil_append, exponent, if_neg (not_or.mpr hrest.not_numeric.2.2)]
  | cons c s =>
    rw [exponent] at h
    rw [List.cons_append, exponent]
    split_ifs at h ⊢
    · obtain ⟨x, hx, he⟩ := Option.map_eq_some_iff.mp h
      cases he
      rw [extends_signedDigits hx hrest]
      rfl
    · cases h
      rfl

theorem extends_magnitude : Extends magnitude := by
  intro s t r rest h hrest
  unfold magnitude at h ⊢
  obtain ⟨⟨whole, s₁⟩, hwhole, h⟩ := Option.bind_eq_some_iff.mp h
  obtain ⟨⟨part, s₂⟩, hpart, h⟩ := Option.bind_eq_some_iff.mp h
  obtain ⟨⟨power, s₃⟩, hpower, h⟩ := Option.bind_eq_some_iff.mp h
  cases h
  simp only [extends_integer hwhole hrest, extends_fraction hpart hrest,
    extends_exponent hpower hrest, Option.bind_eq_bind, Option.bind_some]
  rfl

theorem extends_number : Extends number := by
  intro s t r rest h hrest
  cases s with
  | nil => cases h
  | cons c s =>
    rw [number] at h
    rw [List.cons_append, number]
    split_ifs at h ⊢
    · obtain ⟨x, hx, he⟩ := Option.map_eq_some_iff.mp h
      cases he
      rw [extends_magnitude hx hrest]
      rfl
    · exact extends_magnitude h hrest

/-- A number starts with a sign or a digit. -/
theorem head_number {c : UInt8} {s : Str} {r : Str × Str} (h : number (c :: s) = some r) :
    c = byte '-' ∨ isDigit c = true := by
  rw [number] at h
  split_ifs at h with hc
  · exact .inl hc
  · refine .inr ?_
    unfold magnitude at h
    obtain ⟨⟨whole, s₁⟩, hwhole, -⟩ := Option.bind_eq_some_iff.mp h
    rw [integer] at hwhole
    split_ifs at hwhole with hzero
    · rw [hzero]
      rfl
    · unfold digits at hwhole
      split_ifs at hwhole with hne
      by_contra hno
      exact hne (by simp [hno])

/-- Passing over blanks that something else follows. -/
theorem skip_append {blanks : Str} (hblank : ∀ c ∈ blanks, isBlank c = true) {c : UInt8}
    (hc : isBlank c = false) (s : Str) : skip (blanks ++ c :: s) = c :: s := by
  rw [skip, List.dropWhile_append_of_pos hblank, List.dropWhile_cons, if_neg (by simp [hc])]

/-- There are no blanks to pass over. -/
theorem skip_cons {c : UInt8} (hc : isBlank c = false) (s : Str) : skip (c :: s) = c :: s := by
  rw [skip, List.dropWhile_cons, if_neg (by simp [hc])]

/-! ## What is printed is read -/

mutual

/-- Every number has the text of one. -/
def WellFormed : Value → Prop
  | .null | .bool _ | .str _ => True
  | .num text => number text = some (text, [])
  | .arr vs => WellFormedItems vs
  | .obj ms => WellFormedMembers ms

/-- See `WellFormed`. -/
def WellFormedItems : List Value → Prop
  | [] => True
  | v :: vs => WellFormed v ∧ WellFormedItems vs

/-- See `WellFormed`. -/
def WellFormedMembers : List (Str × Value) → Prop
  | [] => True
  | (_, v) :: ms => WellFormed v ∧ WellFormedMembers ms

end

/-- The text reads as the value before whatever stops it. -/
structure ReadsAs (text : Str) (v : Value) : Prop where
  head : ∃ c t, text = c :: t ∧ isBlank c = false ∧ c ≠ byte ']'
  value : ∀ {n : ℕ} {rest : Str}, text.length < n → Stops rest →
    value n (text ++ rest) = some (v, rest)

/-- Passing over blanks before a value. -/
theorem ReadsAs.skip {text : Str} {v : Value} (h : ReadsAs text v) {blanks : Str}
    (hblank : ∀ c ∈ blanks, isBlank c = true) (rest : Str) :
    Json.skip (blanks ++ (text ++ rest)) = text ++ rest := by
  obtain ⟨c, t, rfl, hc, -⟩ := h.head
  exact skip_append hblank hc (t ++ rest)

/-- Blanks and what closes or separates stop a value. -/
theorem stops_append {blanks : Str} (hblank : ∀ c ∈ blanks, isBlank c = true) {c : UInt8}
    (hc : c = byte ',' ∨ c = byte ']' ∨ c = byte '}') (rest : Str) :
    Stops (blanks ++ c :: rest) := by
  intro d hd
  cases blanks with
  | nil =>
    cases hd
    exact .inr hc
  | cons b blanks =>
    cases hd
    exact .inl (hblank _ List.mem_cons_self)

/-- See `stops_append`. -/
theorem stops_cons {c : UInt8} (hc : c = byte ',' ∨ c = byte ']' ∨ c = byte '}') (rest : Str) :
    Stops (c :: rest) := by
  rintro _ ⟨⟩
  exact .inr hc

/-- A string reads as what `coerced` makes of it. -/
theorem readsAs_quoteJSON (text : Str) : ReadsAs (quoteJSON text) (.str (coerced text)) := by
  refine ⟨⟨0x22, _, rfl, rfl, by decide⟩, fun {n rest} hn _ => ?_⟩
  obtain ⟨n, rfl⟩ : ∃ k, n = k + 1 := ⟨n - 1, by omega⟩
  have hcontent : content ((escapeText 0 true text ++ 0x22 :: rest).length + 1)
      (escapeText 0 true text ++ 0x22 :: rest) = some (coerced text, rest) :=
    content_escapeText text rest (by rw [List.length_append]; omega)
  have hquote : quoteJSON text ++ rest = 0x22 :: (escapeText 0 true text ++ 0x22 :: rest) := by
    rw [quoteJSON, List.append_assoc]
    rfl
  rw [hquote, Json.value, if_pos rfl, hcontent]
  rfl

/-- A number starts with no other token. -/
theorem plain_of_head_number {c : UInt8} (h : c = byte '-' ∨ isDigit c = true) :
    c ≠ 0x22 ∧ c ≠ byte '{' ∧ c ≠ byte '[' ∧ c ≠ byte 't' ∧ c ≠ byte 'f' ∧ c ≠ byte 'n' ∧
      c ≠ byte ']' ∧ isBlank c = false := by
  have hall : ((List.range 256).all fun n => let c := UInt8.ofNat n
      !(c = byte '-' || isDigit c) || (c ≠ 0x22 && c ≠ byte '{' && c ≠ byte '[' && c ≠ byte 't' &&
        c ≠ byte 'f' && c ≠ byte 'n' && c ≠ byte ']' && !isBlank c)) = true := by decide +kernel
  have hc := List.all_eq_true.mp hall c.toNat (List.mem_range.mpr c.toNat_lt)
  simp only [UInt8.ofNat_toNat, Bool.or_eq_true, Bool.not_eq_true', Bool.or_eq_false_iff,
    Bool.and_eq_true, decide_eq_true_eq, decide_eq_false_iff_not] at hc
  have := hc.resolve_left fun hno => h.elim hno.1 (by simp [hno.2])
  exact ⟨this.1.1.1.1.1.1.1, this.1.1.1.1.1.1.2, this.1.1.1.1.1.2, this.1.1.1.1.2, this.1.1.1.2,
    this.1.1.2, this.1.2, this.2⟩

/-- A number reads as itself. -/
theorem readsAs_num {text : Str} (h : number text = some (text, [])) :
    ReadsAs text (.num text) := by
  cases text with
  | nil => cases h
  | cons c t =>
    obtain ⟨hquote, hbrace, hbracket, ht, hf, hn, hclose, hblank⟩ :=
      plain_of_head_number (head_number h)
    refine ⟨⟨c, t, rfl, hblank, hclose⟩, fun {n rest} hlt hrest => ?_⟩
    obtain ⟨n, rfl⟩ : ∃ k, n = k + 1 := ⟨n - 1, by omega⟩
    have hliteral : ∀ {m : ℕ} {d : UInt8} {l : Str}, c ≠ d →
        (c :: (t ++ rest)).take (m + 1) ≠ d :: l := fun hd he => hd (List.cons.inj he).1
    have htrue : (c :: (t ++ rest)).take 4 ≠ ascii "true" := hliteral ht
    have hfalse : (c :: (t ++ rest)).take 5 ≠ ascii "false" := hliteral hf
    have hnull : (c :: (t ++ rest)).take 4 ≠ ascii "null" := hliteral hn
    rw [List.cons_append, Json.value, if_neg hquote, if_neg hbrace, if_neg hbracket, if_neg htrue,
      if_neg hfalse, if_neg hnull, ← List.cons_append, extends_number h hrest]
    rfl

/-- The items of an array, from the first on. -/
theorem items_print (L : Layout) {vs : List Value}
    (ih : ∀ v ∈ vs, ∀ d, ReadsAs (print L d v) (coerce v)) {d n : ℕ} {w : Str} {u : Value}
    (rest : Str) (hw : ReadsAs w u) (hn : (w ++ printItems L d vs).length < n) :
    items n (w ++ (printItems L d vs ++ rest)) = some (u :: coerceItems vs, rest) := by
  induction vs generalizing n w u with
  | nil =>
    obtain ⟨n, rfl⟩ : ∃ k, n = k + 1 := ⟨n - 1, by omega⟩
    rw [printItems] at hn ⊢
    rw [List.length_append, List.length_append] at hn
    have hstop : Stops (L.line d ++ byte ']' :: rest) :=
      stops_append (L.line_blank d) (.inr (.inl rfl)) rest
    rw [items, List.append_assoc, List.singleton_append, hw.value (by simp at hn; omega) hstop]
    simp only [Option.bind_eq_bind, Option.bind_some,
      skip_append (L.line_blank d) (rfl : isBlank (byte ']') = false)]
    rfl
  | cons v vs ihs =>
    obtain ⟨n, rfl⟩ : ∃ k, n = k + 1 := ⟨n - 1, by omega⟩
    have hv := ih v List.mem_cons_self (d + 1)
    obtain ⟨c, t, hc, -⟩ := hw.head
    rw [printItems] at hn ⊢
    simp only [List.length_append, List.length_cons, hc] at hn
    have hrest := ihs (fun v hv => ih v (List.mem_cons_of_mem _ hv)) hv (n := n)
      (by rw [List.length_append]; omega)
    have hstop : Stops (byte ',' :: (L.line (d + 1) ++ (print L (d + 1) v ++
        (printItems L d vs ++ rest)))) :=
      stops_cons (.inl rfl) _
    have hsep : Json.skip (byte ',' :: (L.line (d + 1) ++ (print L (d + 1) v ++
        (printItems L d vs ++ rest)))) = _ := skip_cons rfl _
    rw [items, List.cons_append, List.append_assoc, List.append_assoc,
      hw.value (by rw [hc, List.length_cons]; omega) hstop]
    simp only [Option.bind_eq_bind, Option.bind_some, hsep]
    rw [if_neg (by decide), if_pos trivial, hv.skip (L.line_blank _), hrest]
    rfl

/-- One member of an object. -/
theorem member_print (L : Layout) {n : ℕ} {k w rest : Str} {u : Value} (hw : ReadsAs w u)
    (hn : w.length < n) (hrest : Stops rest) :
    members (n + 1) (quoteJSON k ++ byte ':' :: (L.gap ++ w) ++ rest) =
      match skip rest with
      | [] => none
      | c :: s =>
        if c = byte '}' then some ([(coerced k, u)], s)
        else if c = byte ',' then (members n (skip s)).map fun r => ((coerced k, u) :: r.1, r.2)
        else none := by
  have hquote : quoteJSON k ++ byte ':' :: (L.gap ++ w) ++ rest =
      0x22 :: (escapeText 0 true k ++ 0x22 :: (byte ':' :: (L.gap ++ (w ++ rest)))) := by
    rw [quoteJSON, List.append_assoc, List.append_assoc]
    simp
  have hcontent := content_escapeText k (byte ':' :: (L.gap ++ (w ++ rest)))
    (n := (escapeText 0 true k ++ 0x22 :: (byte ':' :: (L.gap ++ (w ++ rest)))).length + 1)
    (by rw [List.length_append]; omega)
  have hcolon : skip (byte ':' :: (L.gap ++ (w ++ rest))) = byte ':' :: (L.gap ++ (w ++ rest)) :=
    skip_cons rfl _
  rw [hquote, members, if_neg (by simp), hcontent]
  simp only [Option.bind_eq_bind, Option.bind_some, hcolon]
  rw [if_neg (by simp), hw.skip L.gap_blank, hw.value hn hrest]
  rfl

/-- The members of an object, from the first on. -/
theorem members_print (L : Layout) {ms : List (Str × Value)}
    (ih : ∀ m ∈ ms, ∀ d, ReadsAs (print L d m.2) (coerce m.2)) {d n : ℕ} {k w : Str} {u : Value}
    (rest : Str) (hw : ReadsAs w u)
    (hn : (quoteJSON k ++ byte ':' :: (L.gap ++ w) ++ printMembers L d ms).length < n) :
    members n (quoteJSON k ++ byte ':' :: (L.gap ++ w) ++ (printMembers L d ms ++ rest)) =
      some ((coerced k, u) :: coerceMembers ms, rest) := by
  induction ms generalizing n k w u with
  | nil =>
    obtain ⟨n, rfl⟩ : ∃ k, n = k + 1 := ⟨n - 1, by omega⟩
    rw [printMembers] at hn ⊢
    simp only [List.length_append, List.length_cons, List.length_nil] at hn
    have hstop : Stops (L.line d ++ byte '}' :: rest) :=
      stops_append (L.line_blank d) (.inr (.inr rfl)) rest
    rw [List.append_assoc (L.line d), List.singleton_append, member_print L hw (by omega) hstop,
      skip_append (L.line_blank d) (rfl : isBlank (byte '}') = false)]
    rfl
  | cons m ms ihs =>
    obtain ⟨n, rfl⟩ : ∃ k, n = k + 1 := ⟨n - 1, by omega⟩
    obtain ⟨k', v⟩ := m
    have hv := ih (k', v) List.mem_cons_self (d + 1)
    have hopen : 0 < (quoteJSON k).length := by
      rw [quoteJSON]
      simp
    rw [printMembers] at hn ⊢
    simp only [List.length_append, List.length_cons] at hn
    have hrest := ihs (fun m hm => ih m (List.mem_cons_of_mem _ hm)) (k := k') hv (n := n)
      (by simp only [List.length_append, List.length_cons]; omega)
    have hstop : Stops (byte ',' :: (L.line (d + 1) ++ (quoteJSON k' ++
        byte ':' :: (L.gap ++ print L (d + 1) v) ++ (printMembers L d ms ++ rest)))) :=
      stops_cons (.inl rfl) _
    have hsep : Json.skip (byte ',' :: (L.line (d + 1) ++ (quoteJSON k' ++
        byte ':' :: (L.gap ++ print L (d + 1) v) ++ (printMembers L d ms ++ rest)))) = _ :=
      skip_cons rfl _
    have hkey : Json.skip (L.line (d + 1) ++ (quoteJSON k' ++
        byte ':' :: (L.gap ++ print L (d + 1) v) ++ (printMembers L d ms ++ rest))) =
        quoteJSON k' ++ byte ':' :: (L.gap ++ print L (d + 1) v) ++
          (printMembers L d ms ++ rest) :=
      skip_append (L.line_blank _) (rfl : isBlank 0x22 = false) _
    have htext : byte ',' :: (L.line (d + 1) ++ quoteJSON k' ++
        byte ':' :: (L.gap ++ print L (d + 1) v) ++ printMembers L d ms) ++ rest =
        byte ',' :: (L.line (d + 1) ++ (quoteJSON k' ++
          byte ':' :: (L.gap ++ print L (d + 1) v) ++ (printMembers L d ms ++ rest))) := by
      simp only [List.cons_append, List.append_assoc]
    rw [htext, member_print L hw (by omega) hstop, hsep]
    simp only []
    rw [if_neg (by decide), if_pos trivial, hkey, hrest]
    rfl

/-- A literal reads as what it names. -/
theorem readsAs_literal (L : Layout) (d : ℕ) :
    ReadsAs (print L d .null) .null ∧ ∀ b, ReadsAs (print L d (.bool b)) (.bool b) := by
  refine ⟨⟨⟨byte 'n', ascii "ull", rfl, rfl, by decide⟩, fun {n rest} hn _ => ?_⟩, fun b => ?_⟩
  · obtain ⟨n, rfl⟩ : ∃ k, n = k + 1 := ⟨n - 1, by omega⟩
    rfl
  · cases b with
    | false =>
      refine ⟨⟨byte 'f', ascii "alse", rfl, rfl, by decide⟩, fun {n rest} hn _ => ?_⟩
      obtain ⟨n, rfl⟩ : ∃ k, n = k + 1 := ⟨n - 1, by omega⟩
      rfl
    | true =>
      refine ⟨⟨byte 't', ascii "rue", rfl, rfl, by decide⟩, fun {n rest} hn _ => ?_⟩
      obtain ⟨n, rfl⟩ : ∃ k, n = k + 1 := ⟨n - 1, by omega⟩
      rfl

/-- An array reads as its items. -/
theorem readsAs_arr (L : Layout) {vs : List Value}
    (ih : ∀ v ∈ vs, ∀ d, ReadsAs (print L d v) (coerce v)) (d : ℕ) :
    ReadsAs (print L d (.arr vs)) (.arr (coerceItems vs)) := by
  cases vs with
  | nil =>
    refine ⟨⟨_, _, rfl, rfl, by decide⟩, fun {n rest} hn _ => ?_⟩
    obtain ⟨n, rfl⟩ : ∃ k, n = k + 1 := ⟨n - 1, by omega⟩
    rfl
  | cons v vs =>
    refine ⟨⟨byte '[', _, rfl, rfl, by decide⟩, fun {n rest} hn _ => ?_⟩
    obtain ⟨n, rfl⟩ : ∃ k, n = k + 1 := ⟨n - 1, by omega⟩
    have hv := ih v List.mem_cons_self (d + 1)
    obtain ⟨c, t, hc, hblank, hclose⟩ := hv.head
    rw [print] at hn ⊢
    simp only [List.length_append, List.length_cons] at hn
    have hitems := items_print L (fun v hv => ih v (List.mem_cons_of_mem _ hv)) (d := d) (n := n)
      rest hv (by rw [List.length_append]; omega)
    have hskip : skip (L.line (d + 1) ++ print L (d + 1) v ++ printItems L d vs ++ rest) =
        print L (d + 1) v ++ (printItems L d vs ++ rest) := by
      rw [List.append_assoc, List.append_assoc, hv.skip (L.line_blank _)]
    have hhead : (print L (d + 1) v ++ (printItems L d vs ++ rest)).head? ≠ some (byte ']') := by
      rw [hc]
      simpa using hclose
    rw [List.cons_append, Json.value, if_neg (by decide), if_neg (by decide), if_pos rfl, hskip,
      if_neg hhead, hitems]
    rfl

/-- An object reads as its members. -/
theorem readsAs_obj (L : Layout) {ms : List (Str × Value)}
    (ih : ∀ m ∈ ms, ∀ d, ReadsAs (print L d m.2) (coerce m.2)) (d : ℕ) :
    ReadsAs (print L d (.obj ms)) (.obj (coerceMembers ms)) := by
  cases ms with
  | nil =>
    refine ⟨⟨_, _, rfl, rfl, by decide⟩, fun {n rest} hn _ => ?_⟩
    obtain ⟨n, rfl⟩ : ∃ k, n = k + 1 := ⟨n - 1, by omega⟩
    rfl
  | cons m ms =>
    obtain ⟨k, v⟩ := m
    refine ⟨⟨byte '{', _, rfl, rfl, by decide⟩, fun {n rest} hn _ => ?_⟩
    obtain ⟨n, rfl⟩ : ∃ k, n = k + 1 := ⟨n - 1, by omega⟩
    have hv := ih (k, v) List.mem_cons_self (d + 1)
    rw [print] at hn ⊢
    simp only [List.length_append, List.length_cons] at hn
    have hmembers := members_print L (fun m hm => ih m (List.mem_cons_of_mem _ hm)) (d := d)
      (n := n) (k := k) rest hv (by simp only [List.length_append, List.length_cons]; omega)
    have hskip : skip (L.line (d + 1) ++ quoteJSON k ++
        byte ':' :: (L.gap ++ print L (d + 1) v) ++ printMembers L d ms ++ rest) =
        quoteJSON k ++ byte ':' :: (L.gap ++ print L (d + 1) v) ++
          (printMembers L d ms ++ rest) := by
      simp only [List.append_assoc]
      exact skip_append (L.line_blank _) (rfl : isBlank 0x22 = false) _
    rw [List.cons_append, Json.value, if_neg (by decide), if_pos rfl, hskip, if_neg ?_, hmembers]
    · rfl
    · rw [quoteJSON]
      simp only [List.cons_append, List.head?_cons, Option.some.injEq]
      decide

mutual

/-- Every printed value reads as what `coerce` makes of it. -/
theorem readsAs_print (L : Layout) :
    ∀ v : Value, WellFormed v → ∀ d, ReadsAs (print L d v) (coerce v)
  | .null, _, d => (readsAs_literal L d).1
  | .bool b, _, d => (readsAs_literal L d).2 b
  | .num _, h, _ => readsAs_num h
  | .str text, _, _ => readsAs_quoteJSON text
  | .arr vs, h, d => readsAs_arr L (readsAs_items L vs h) d
  | .obj ms, h, d => readsAs_obj L (readsAs_members L ms h) d

/-- See `readsAs_print`. -/
theorem readsAs_items (L : Layout) :
    ∀ vs : List Value, WellFormedItems vs → ∀ v ∈ vs, ∀ d, ReadsAs (print L d v) (coerce v)
  | [], _, _, hv => absurd hv List.not_mem_nil
  | v :: vs, h, w, hw => by
    rcases List.mem_cons.mp hw with heq | hw
    · rw [heq]
      exact readsAs_print L v h.1
    · exact readsAs_items L vs h.2 w hw

/-- See `readsAs_print`. -/
theorem readsAs_members (L : Layout) :
    ∀ ms : List (Str × Value), WellFormedMembers ms →
      ∀ m ∈ ms, ∀ d, ReadsAs (print L d m.2) (coerce m.2)
  | [], _, _, hm => absurd hm List.not_mem_nil
  | (k, v) :: ms, h, m, hm => by
    rcases List.mem_cons.mp hm with heq | hm
    · rw [heq]
      exact readsAs_print L v h.1
    · exact readsAs_members L ms h.2 m hm

end

mutual

/-- Strings have no depth. -/
theorem depth_coerce : ∀ v : Value, depth (coerce v) = depth v
  | .null | .bool _ | .num _ | .str _ => rfl
  | .arr vs => congrArg (· + 1) (depth_coerceItems vs)
  | .obj ms => congrArg (· + 1) (depth_coerceMembers ms)

/-- See `depth_coerce`. -/
theorem depth_coerceItems : ∀ vs : List Value, depthItems (coerceItems vs) = depthItems vs
  | [] => rfl
  | v :: vs => congrArg₂ max (depth_coerce v) (depth_coerceItems vs)

/-- See `depth_coerce`. -/
theorem depth_coerceMembers :
    ∀ ms : List (Str × Value), depthMembers (coerceMembers ms) = depthMembers ms
  | [] => rfl
  | (_, v) :: ms => congrArg₂ max (depth_coerce v) (depth_coerceMembers ms)

end

/-- What is printed, with blanks around it, is read as one value. -/
theorem read_print (L : Layout) {v : Value} (h : WellFormed v) (hdepth : depth v ≤ maxNestingDepth)
    {lead trail : Str} (hlead : ∀ c ∈ lead, isBlank c = true)
    (htrail : ∀ c ∈ trail, isBlank c = true) :
    read (lead ++ (print L 0 v ++ trail)) = some (coerce v) := by
  have hv := readsAs_print L v h 0
  have hstop : Stops trail := fun c hc => .inl (htrail c (List.mem_of_mem_head? hc))
  have hskip : skip trail = [] := List.dropWhile_eq_nil_iff.mpr htrail
  rw [read, hv.skip hlead,
    hv.value (by rw [List.length_append, List.length_append]; omega) hstop]
  simp only [Option.bind_eq_bind, Option.bind_some, hskip, depth_coerce, hdepth, and_self, if_true]

end Comax.Json
