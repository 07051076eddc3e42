import Comax.Server.Router
import Comax.Tmpl.Render

/-!
# Names between the braces

The environment group takes as much as it can, so a site is split at the last dot that
leaves something for the key. A key with a dot before its last character is therefore not
addressed by its own text.
-/

namespace Comax.Tmpl

open Comax.Core Comax.Secret

/-- The dollar sign and the braces that a reference opens with. -/
def opened : Str := [byte '$', byte '{', byte '{']

/-- The braces that close a reference. -/
def closed : Str := [byte '}', byte '}']

/-- The text of a reference. -/
def referenceText (ws env key ws' : Str) : Str :=
  opened ++ (ws ++ (env ++ byte '.' :: (key ++ (ws' ++ closed))))

/-- What the pattern reads from the end of the key on. -/
def closing : List (Atom UInt8) := [.mark, .star isSpace, only (byte '}'), only (byte '}')]

/-- What the pattern reads from the start of the key on. -/
def keyGroup : List (Atom UInt8) := .mark :: .plus isNameByte :: closing

/-- What the pattern reads from the end of the environment on. -/
def separator : List (Atom UInt8) := .mark :: only (byte '.') :: keyGroup

/-- What the pattern reads from the start of the environment on. -/
def envGroup : List (Atom UInt8) := .mark :: .plus isNameByte :: separator

/-- No white space is a byte of a name. -/
theorem isNameByte_of_isSpace {c : UInt8} (h : isSpace c = true) : isNameByte c = false := by
  simp only [isSpace, Bool.or_eq_true, decide_eq_true_eq] at h
  rcases h with (((rfl | rfl) | rfl) | rfl) | rfl <;> rfl

/-- After the key there is no byte of a name. -/
theorem head_closing {ws : Str} (hws : ∀ c ∈ ws, isSpace c = true) :
    ∀ c ∈ (ws ++ closed).head?, isNameByte c = false := by
  intro c hc
  cases ws with
  | nil =>
    cases hc
    rfl
  | cons d ws =>
    cases hc
    exact isNameByte_of_isSpace (hws _ List.mem_cons_self)

section Groups

variable {q ws : Str} (hq : ∀ c ∈ q, isNameByte c = true) (hws : ∀ c ∈ ws, isSpace c = true)
include hws

/-- The white space and the braces after the key are read. -/
theorem matchHere_closing (i : ℕ) :
    matchHere closing (ws ++ closed) i = some ([i], i + ws.length + 2) := by
  have hbraces : ∀ j, matchHere [only (byte '}'), only (byte '}')] (closed) j =
      some ([], j + 2) := fun j => rfl
  have hstar : starThen isSpace (matchHere [only (byte '}'), only (byte '}')])
      (ws ++ ([] ++ closed)) i = some ([], i + ws.length + 2) := by
    refine starThen_eq_some hws (by simp) (fun c hc => ?_) (fun v₁ v₂ he hne => ?_) (hbraces _)
    · cases hc
      rfl
    · exact absurd (List.append_eq_nil_iff.mp he.symm).1 hne
  rw [List.nil_append] at hstar
  rw [closing, matchHere, matchHere, hstar]
  rfl

/-- No key is read where there is none. -/
theorem matchHere_keyGroup_none (i : ℕ) : matchHere keyGroup (ws ++ closed) i = none := by
  obtain ⟨c, s, hs⟩ : ∃ c s, ws ++ closed = c :: s :=
    List.exists_cons_of_ne_nil (by simp [closed])
  have hc : isNameByte c = false := head_closing hws c (by rw [hs]; rfl)
  rw [hs, keyGroup, matchHere, matchHere, hc]
  rfl

include hq

/-- The key is read to its end. -/
theorem matchHere_keyGroup (hne : q ≠ []) (i : ℕ) :
    matchHere keyGroup (q ++ (ws ++ closed)) i =
      some ([i, i + q.length], i + q.length + ws.length + 2) := by
  obtain ⟨c, s, rfl⟩ := List.exists_cons_of_ne_nil hne
  have hplus : starThen isNameByte (matchHere closing) (s ++ ([] ++ (ws ++ closed))) (i + 1) =
      some ([i + 1 + s.length], i + 1 + s.length + ws.length + 2) := by
    refine starThen_eq_some (fun d hd => hq d (List.mem_cons_of_mem _ hd)) (by simp)
      (head_closing hws) (fun v₁ v₂ he hne => ?_) (matchHere_closing hws _)
    exact absurd (List.append_eq_nil_iff.mp he.symm).1 hne
  rw [List.nil_append] at hplus
  have hlen : i + (c :: s).length = i + 1 + s.length := by
    rw [List.length_cons]
    omega
  rw [keyGroup, matchHere, List.cons_append, matchHere, hq c List.mem_cons_self, if_pos rfl, hplus,
    hlen]
  rfl

/-- The dot and the key are read. -/
theorem matchHere_separator (hne : q ≠ []) (i : ℕ) :
    matchHere separator ((byte '.' :: q) ++ (ws ++ closed)) i =
      some ([i, i + 1, i + 1 + q.length], i + 1 + q.length + ws.length + 2) := by
  rw [separator, matchHere, List.cons_append, only, matchHere, decide_eq_true rfl, if_pos rfl,
    matchHere_keyGroup hq hws hne]
  rfl

omit hq in
/-- Inside of a key without a dot before its last character, no dot is followed by a key. -/
theorem matchHere_separator_none (hdot : byte '.' ∉ q.dropLast) {v₁ v₂ : Str} (hv : q = v₁ ++ v₂)
    (i : ℕ) : matchHere separator (v₂ ++ (ws ++ closed)) i = none := by
  have hone : ∀ {c : UInt8} {s : Str} {j : ℕ},
      (c = byte '.' → matchHere keyGroup s (j + 1) = none) →
        matchHere (only (byte '.') :: keyGroup) (c :: s) j = none := by
    intro c s j h
    rw [only, matchHere]
    split_ifs with hc
    · exact h (of_decide_eq_true hc)
    · rfl
  have hnone : matchHere (only (byte '.') :: keyGroup) (v₂ ++ (ws ++ closed)) i = none := by
    cases v₂ with
    | nil =>
      obtain ⟨c, s, hs⟩ : ∃ c s, ws ++ closed = c :: s :=
        List.exists_cons_of_ne_nil (by simp [closed])
      rw [List.nil_append, hs]
      refine hone fun hc => ?_
      have := head_closing hws c (by rw [hs]; rfl)
      rw [hc] at this
      cases this
    | cons c v =>
      refine hone fun hc => ?_
      cases v with
      | nil => exact matchHere_keyGroup_none hws _
      | cons d v =>
        refine absurd ?_ hdot
        rw [hv, hc, List.dropLast_append_of_ne_nil (List.cons_ne_nil _ _)]
        exact List.mem_append_right _ List.mem_cons_self
  rw [separator, matchHere, hnone]
  rfl

end Groups

/-- Both names are read, split at a dot after which only the last character can be one. -/
theorem matchHere_envGroup {p q ws : Str} (hp : p ≠ [] ∧ ∀ c ∈ p, isNameByte c = true)
    (hq : q ≠ [] ∧ ∀ c ∈ q, isNameByte c = true) (hws : ∀ c ∈ ws, isSpace c = true)
    (hdot : byte '.' ∉ q.dropLast) (i : ℕ) :
    matchHere envGroup (p ++ ((byte '.' :: q) ++ (ws ++ closed))) i =
      some ([i, i + p.length, i + p.length + 1, i + p.length + 1 + q.length],
        i + p.length + 1 + q.length + ws.length + 2) := by
  obtain ⟨c, s, rfl⟩ := List.exists_cons_of_ne_nil hp.1
  have hsep : ∀ d ∈ byte '.' :: q, isNameByte d = true := by
    intro d hd
    rcases List.mem_cons.mp hd with rfl | hd
    · rfl
    · exact hq.2 d hd
  have hplus : starThen isNameByte (matchHere separator)
      (s ++ ((byte '.' :: q) ++ (ws ++ closed))) (i + 1) =
        some ([i + 1 + s.length, i + 1 + s.length + 1, i + 1 + s.length + 1 + q.length],
          i + 1 + s.length + 1 + q.length + ws.length + 2) := by
    refine starThen_eq_some (fun d hd => hp.2 d (List.mem_cons_of_mem _ hd)) hsep
      (head_closing hws) (fun v₁ v₂ he hne => ?_) (matchHere_separator hq.2 hws hq.1 _)
    obtain ⟨d, v, rfl⟩ := List.exists_cons_of_ne_nil hne
    exact matchHere_separator_none hws hdot (List.cons.inj he).2 _
  have hlen : i + (c :: s).length = i + 1 + s.length := by
    rw [List.length_cons]
    omega
  rw [envGroup, matchHere, List.cons_append, matchHere, hp.2 c List.mem_cons_self, if_pos rfl,
    hplus, hlen]
  rfl

/-- The whole text of a reference is read. -/
theorem matchHere_reference {ws p q ws' : Str} (hws : ∀ c ∈ ws, isSpace c = true)
    (hp : p ≠ [] ∧ ∀ c ∈ p, isNameByte c = true) (hq : q ≠ [] ∧ ∀ c ∈ q, isNameByte c = true)
    (hws' : ∀ c ∈ ws', isSpace c = true) (hdot : byte '.' ∉ q.dropLast) :
    matchHere referencePattern (referenceText ws p q ws') 0 =
      some ([3 + ws.length, 3 + ws.length + p.length, 3 + ws.length + p.length + 1,
        3 + ws.length + p.length + 1 + q.length], (referenceText ws p q ws').length) := by
  have hhead : ∀ d ∈ (p ++ ((byte '.' :: q) ++ (ws' ++ closed))).head?, isSpace d = false := by
    obtain ⟨c, s, rfl⟩ := List.exists_cons_of_ne_nil hp.1
    intro d hd
    cases hd
    by_contra hspace
    have := isNameByte_of_isSpace (Bool.eq_true_of_not_eq_false hspace)
    rw [hp.2 _ List.mem_cons_self] at this
    cases this
  have hstar := starThen_eq_some (v := []) hws (by simp) hhead (i := 3) (k := matchHere envGroup)
    (fun v₁ v₂ he hne => absurd (List.append_eq_nil_iff.mp he.symm).1 hne)
    (matchHere_envGroup hp hq hws' hdot _)
  have hlength : (referenceText ws p q ws').length =
      3 + ws.length + p.length + 1 + q.length + ws'.length + 2 := by
    simp [referenceText, opened, closed]
    omega
  rw [hlength]
  exact hstar

/-- The part of a text between two offsets. -/
theorem slice_append (s t u : Str) {i j : ℕ} (hi : i = s.length) (hj : j = i + t.length) :
    ((s ++ (t ++ u)).take j).drop i = t := by
  rw [List.drop_take, hi, List.drop_left, List.take_left' (by omega)]

/-- The site is the only one, with the names on both sides of its dot. -/
theorem findReferences_reference {ws p q ws' : Str} (hws : ∀ c ∈ ws, isSpace c = true)
    (hp : p ≠ [] ∧ ∀ c ∈ p, isNameByte c = true) (hq : q ≠ [] ∧ ∀ c ∈ q, isNameByte c = true)
    (hws' : ∀ c ∈ ws', isSpace c = true) (hdot : byte '.' ∉ q.dropLast) :
    findReferences (referenceText ws p q ws') =
      [⟨p, q, 0, (referenceText ws p q ws').length⟩] := by
  have hne : referenceText ws p q ws' ≠ [] := by simp [referenceText, opened]
  have hall := findAll_whole hne (matchHere_reference hws hp hq hws' hdot)
  have henv : ((referenceText ws p q ws').take (3 + ws.length + p.length)).drop (3 + ws.length) =
      p := by
    rw [referenceText, opened, ← List.append_assoc]
    refine slice_append _ p _ ?_ rfl
    simp only [List.length_append, List.length_cons, List.length_nil]
  have hkey : ((referenceText ws p q ws').take (3 + ws.length + p.length + 1 + q.length)).drop
      (3 + ws.length + p.length + 1) = q := by
    rw [referenceText, opened, ← List.append_assoc, List.append_cons, ← List.append_assoc]
    refine slice_append _ q _ ?_ rfl
    simp only [List.length_append, List.length_cons, List.length_nil]
    omega
  rw [findReferences, hall, List.map_singleton, Reference.ofMatch]
  simp only [henv, hkey]

/-- The client's copy finds what the server finds. -/
theorem references_eq (tmpl : Str) :
    references tmpl =
      (findReferences tmpl).map fun r => ⟨r.envName, r.keyName, r.start, r.stop⟩ := by
  rw [references, findReferences, List.map_map]
  refine List.map_congr_left fun m _ => ?_
  obtain ⟨start, stop, marks⟩ := m
  rcases marks with _ | ⟨a, _ | ⟨b, _ | ⟨c, _ | ⟨d, _ | _⟩⟩⟩⟩ <;> rfl

/-- The site of two names is found whole, by the server and by the client. -/
def Addresses (env key text : Str) : Prop :=
  findReferences text = [⟨env, key, 0, text.length⟩] ∧
    references text = [⟨env, key, 0, text.length⟩]

/-- Accepted names are bytes of names. -/
theorem isNameByte_of_name {srv : Server} {field : String} {name : Str}
    (h : Server.validateName srv field name = .ok ()) :
    name ≠ [] ∧ ∀ c ∈ name, isNameByte c = true := by
  obtain ⟨hne, -, hall⟩ := Server.validateName_ok_iff.mp h
  refine ⟨hne, fun c hc => ?_⟩
  have hcode := Server.allowed_iff.mp (hall c hc)
  obtain ⟨h0, h9, ha, hz, hA, hZ⟩ := alnum_codes
  have hu : (byte '_').toNat = 95 := rfl
  have hd : (byte '.').toNat = 46 := rfl
  have hp : (byte '+').toNat = 43 := rfl
  have hm : (byte '-').toNat = 45 := rfl
  simp only [isNameByte, Bool.or_eq_true, Bool.and_eq_true, decide_eq_true_eq,
    UInt8.le_iff_toNat_le, ← UInt8.toNat_inj, h0, h9, ha, hz, hA, hZ, hu, hd, hp, hm]
  omega

/-- A dot before the last character can be taken as the last one of these. -/
theorem exists_last_dot {key : Str} (h : byte '.' ∈ key.dropLast) :
    ∃ u q, key = u ++ byte '.' :: q ∧ q ≠ [] ∧ byte '.' ∉ q.dropLast := by
  induction key with
  | nil => cases h
  | cons c key ih =>
    by_cases hrest : byte '.' ∈ key.dropLast
    · obtain ⟨u, q, hkey, hq⟩ := ih hrest
      exact ⟨c :: u, q, by rw [hkey, List.cons_append], hq⟩
    · cases key with
      | nil => cases h
      | cons d key =>
        rw [List.dropLast_cons_of_ne_nil (List.cons_ne_nil d key)] at h
        rcases List.mem_cons.mp h with hc | hmem
        · exact ⟨[], d :: key, by rw [← hc, List.nil_append], List.cons_ne_nil _ _, hrest⟩
        · exact absurd hmem hrest

/-- The text of two accepted names addresses them exactly when the key has no dot before its last
character. -/
theorem addresses_iff (srv : Server) (field field' : String) {env key ws ws' : Str}
    (henv : Server.validateName srv field env = .ok ())
    (hkey : Server.validateName srv field' key = .ok ()) (hws : ∀ c ∈ ws, isSpace c = true)
    (hws' : ∀ c ∈ ws', isSpace c = true) :
    Addresses env key (referenceText ws env key ws') ↔ byte '.' ∉ key.dropLast := by
  have he := isNameByte_of_name henv
  have hk := isNameByte_of_name hkey
  constructor
  · rintro ⟨hfind, -⟩ hdot
    obtain ⟨u, q, rfl, hq, hlast⟩ := exists_last_dot hdot
    have hp : env ++ byte '.' :: u ≠ [] ∧ ∀ c ∈ env ++ byte '.' :: u, isNameByte c = true := by
      refine ⟨by simp, fun c hc => ?_⟩
      rcases List.mem_append.mp hc with hc | hc
      · exact he.2 c hc
      · rcases List.mem_cons.mp hc with rfl | hc
        · rfl
        · exact hk.2 c (List.mem_append_left _ hc)
    have hq' : ∀ c ∈ q, isNameByte c = true := fun c hc =>
      hk.2 c (List.mem_append_right _ (List.mem_cons_of_mem _ hc))
    have htext : referenceText ws env (u ++ byte '.' :: q) ws' =
        referenceText ws (env ++ byte '.' :: u) q ws' := by simp [referenceText]
    rw [htext, findReferences_reference hws hp ⟨hq, hq'⟩ hws' hlast] at hfind
    have hlen := congrArg (fun r => (r.map fun x => x.envName.length)) hfind
    simp at hlen
  · intro hdot
    have hfind := findReferences_reference hws he hk hws' hdot
    refine ⟨hfind, ?_⟩
    rw [references_eq, hfind]
    rfl

/-- A plain pair of names is addressed by its text. -/
theorem addresses_iff_plain :
    Addresses (ascii "prod.eu") (ascii "DB_URL.")
        (referenceText (ascii " ") (ascii "prod.eu") (ascii "DB_URL.") []) ↔
      byte '.' ∉ (ascii "DB_URL.").dropLast :=
  addresses_iff Server.plainServer "env" "key" rfl rfl (List.all_eq_true.mp (by decide)) (by simp)

/-- The text for the key `db.url` of `dev` is read as the key `url` of `dev.db`. -/
theorem not_addresses_dotted :
    findReferences (referenceText (ascii " ") (ascii "dev") (ascii "db.url") (ascii " ")) =
        [⟨ascii "dev.db", ascii "url", 0, 17⟩] ∧
      ¬Addresses (ascii "dev") (ascii "db.url")
        (referenceText (ascii " ") (ascii "dev") (ascii "db.url") (ascii " ")) := by
  have hread : findReferences (referenceText (ascii " ") (ascii "dev") (ascii "db.url")
      (ascii " ")) = [⟨ascii "dev.db", ascii "url", 0, 17⟩] := by decide +kernel
  refine ⟨hread, fun h => ?_⟩
  have hfind := h.1
  rw [hread] at hfind
  exact absurd hfind (by decide)

end Comax.Tmpl
