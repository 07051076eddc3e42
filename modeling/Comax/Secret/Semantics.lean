import Comax.Secret.Reference
import Comax.Store.Repos
import Mathlib.Logic.Relation

/-!
# What a resolved value is

The recursive definition that the resolver computes, over the rows of one database
state: the row of a key is the live one in the nearest environment of the
inheritance chain, and its value is its plaintext with every reference replaced by
the value of its target. No map, no cache and no order of visit occurs here.
-/

namespace Comax.Secret

open Comax.Core Comax.Store

/-- Splicing reads its texts at the spliced references only. -/
theorem spliceReferences_congr {refs : List Reference} {text text' : Reference → Str}
    (h : ∀ ref ∈ refs, text ref = text' ref) (value : Str) :
    spliceReferences refs text value = spliceReferences refs text' value := by
  induction refs with
  | nil => rfl
  | cons ref refs ih =>
    have hrest := ih fun r hr => h r (List.mem_cons_of_mem _ hr)
    simp only [spliceReferences, List.foldr_cons] at hrest ⊢
    rw [hrest, h ref List.mem_cons_self]

/-- An accessible point lies on no cycle. -/
theorem not_transGen_of_acc {α : Type} {r : α → α → Prop} {a : α}
    (h : Acc (fun y x => r x y) a) : ¬ Relation.TransGen r a a := by
  induction h with
  | intro a _ ih =>
    intro hcycle
    obtain ⟨b, hab, hba⟩ := Relation.TransGen.head'_iff.mp hcycle
    exact ih b hab (.tail' hba hab)

/-- The stored state that one resolution reads, and the cipher it opens values with. -/
structure Source where
  db : Database
  projectID : Int
  opens : Str → Option Str

namespace Source

variable (w : Source)

/-- The environment a name denotes in the project. -/
def Named (name : Str) (envID : Int) : Prop :=
  ∃ env, EnvRepo.byName w.projectID name w.db = .ok env ∧ env.id = envID

/-- One `inherits_from` link. -/
def Parent (child parent : Int) : Prop :=
  ∃ env, EnvRepo.byID child w.db = .ok env ∧ env.inheritsFrom ≠ [] ∧
    w.Named env.inheritsFrom parent

/-- The live row of a key in an environment itself. -/
def Own (envID : Int) (key : Str) (row : Secret) : Prop :=
  row ∈ SecretRepo.listByEnv envID w.db ∧ row.key = key

/-- The live row of a key in the nearest environment on the inheritance chain. -/
inductive Overlay : Int → Str → Secret → Prop
  | own {envID key row} (h : w.Own envID key row) : Overlay envID key row
  | inherited {envID key parent row} (hnone : ∀ row, ¬ w.Own envID key row)
      (hparent : w.Parent envID parent) (h : Overlay parent key row) : Overlay envID key row

/-- The raw overlaid value of a key. -/
def Raw (envID : Int) (key text : Str) : Prop :=
  ∃ row, w.Overlay envID key row ∧ w.opens row.ciphertext = some text

/-- One reference of a raw overlaid value, between nodes of environment and key. -/
def Edge (n n' : Int × Str) : Prop :=
  ∃ text, ∃ ref ∈ findReferences text, w.Raw n.1 n.2 text ∧ w.Named ref.envName n'.1 ∧
    ref.keyName = n'.2

/-- The closure of an environment under inheritance and references. -/
inductive Member (start : Int) : Int → Prop
  | start : Member start start
  | parent {envID parent} (h : Member start envID) (hp : w.Parent envID parent) :
      Member start parent
  | reference {envID key node} (h : Member start envID) (he : w.Edge (envID, key) node) :
      Member start node.1

/-- The raw overlaid value of a key with each reference replaced recursively. -/
inductive Value : Int → Str → Str → Prop
  | mk {envID key text} (hraw : w.Raw envID key text) (target : Reference → Int)
      (value : Reference → Str)
      (hnamed : ∀ ref ∈ findReferences text, w.Named ref.envName (target ref))
      (hvalue : ∀ ref ∈ findReferences text, Value (target ref) ref.keyName (value ref)) :
      Value envID key (spliceReferences (findReferences text) value text)

/-- What the closure of an environment must satisfy for the recursive definition to give every
key a value. -/
structure Resolvable (start : Int) : Prop where
  stored : ∃ env, EnvRepo.byID start w.db = .ok env
  parents : ∀ {envID env}, w.Member start envID → EnvRepo.byID envID w.db = .ok env →
    env.inheritsFrom ≠ [] → ∃ parent, w.Named env.inheritsFrom parent
  chains : ∀ {envID}, w.Member start envID → ¬ Relation.TransGen w.Parent envID envID
  references : ∀ {envID key text ref}, w.Member start envID → w.Raw envID key text →
    ref ∈ findReferences text →
    ∃ target row, w.Named ref.envName target ∧ w.Overlay target ref.keyName row
  ciphertexts : ∀ {envID row}, w.Member start envID → row ∈ SecretRepo.listByEnv envID w.db →
    ∃ text, w.opens row.ciphertext = some text
  acyclic : ∀ {envID key}, w.Member start envID →
    ¬ Relation.TransGen w.Edge (envID, key) (envID, key)

/-- A node that a resolution from `start` reads more than once: through a reference, or as an
inherited entry of a child. -/
def Reread (start envID : Int) (key : Str) : Prop :=
  (∃ node : Int × Str, w.Member start node.1 ∧ w.Edge node (envID, key)) ∨
    ∃ child, w.Member start child ∧ w.Parent child envID ∧ ∀ row, ¬ w.Own child key row

/-- No value that is read more than once contains a reference. -/
def RereadSafe (start : Int) : Prop :=
  ∀ ⦃envID key text⦄, w.Reread start envID key → w.Value envID key text → findReferences text = []

/-- A node reads the targets of its references, and without a row of its own the node of its
parent. -/
def Reads (n n' : Int × Str) : Prop :=
  w.Edge n n' ∨ w.Parent n.1 n'.1 ∧ n'.2 = n.2 ∧ ∀ row, ¬ w.Own n.1 n.2 row

/-- The value of a node contains no reference. -/
def Plain (n : Int × Str) : Prop := ∀ ⦃text⦄, w.Value n.1 n.2 text → findReferences text = []

/-- No value that a node reads, at any depth, contains a reference. -/
def Safe (n : Int × Str) : Prop := ∀ ⦃n'⦄, Relation.TransGen w.Reads n n' → w.Plain n'

/-- The references of a node lead to stored rows, and following them ends. -/
structure Grounded (envID : Int) (key : Str) : Prop where
  acc : Acc (fun n' n => w.Edge n n') (envID, key)
  targets : ∀ {text ref}, w.Raw envID key text → ref ∈ findReferences text →
    ∃ target row, w.Named ref.envName target ∧ w.Overlay target ref.keyName row

section Functional

variable {w}

/-- A name denotes one environment. -/
theorem Named.unique {name : Str} {e e' : Int} (h : w.Named name e) (h' : w.Named name e') :
    e = e' := by
  obtain ⟨env, hn, rfl⟩ := h
  obtain ⟨env', hn', rfl⟩ := h'
  rw [hn] at hn'
  cases hn'
  rfl

/-- A named environment is stored. -/
theorem Named.byID {name : Str} {e : Int} (h : w.Named name e) :
    ∃ env, EnvRepo.byID e w.db = .ok env := by
  obtain ⟨env, hn, rfl⟩ := h
  obtain ⟨hmem, -⟩ := Table.of_find?_eq_some (found_eq_ok.mp hn)
  refine ⟨env, found_eq_ok.mpr (Table.find?_eq_some _ hmem (decide_eq_true rfl) ?_)⟩
  intro x hx hid
  exact environment_eq_of_id w.db hx hmem (of_decide_eq_true hid)

/-- An environment has at most one parent. -/
theorem Parent.unique {c p p' : Int} (h : w.Parent c p) (h' : w.Parent c p') : p = p' := by
  obtain ⟨env, hid, -, hn⟩ := h
  obtain ⟨env', hid', -, hn'⟩ := h'
  rw [hid] at hid'
  cases hid'
  exact hn.unique hn'

/-- An environment has at most one live row of a key. -/
theorem Own.unique {e : Int} {k : Str} {row row' : Secret} (h : w.Own e k row)
    (h' : w.Own e k row') : row = row' := by
  obtain ⟨hrow, hkey⟩ := h
  obtain ⟨hrow', hkey'⟩ := h'
  have hmem := List.mem_filter.mp ((List.perm_insertionSort _ _).mem_iff.mp hrow)
  have hmem' := List.mem_filter.mp ((List.perm_insertionSort _ _).mem_iff.mp hrow')
  simp only [Bool.and_eq_true, decide_eq_true_eq] at hmem hmem'
  exact secret_eq_of_key w.db hmem.1 hmem'.1 (hmem.2.1.trans hmem'.2.1.symm)
    (hkey.trans hkey'.symm)

/-- A key has at most one row on an inheritance chain. -/
theorem Overlay.unique {e : Int} {k : Str} {row row' : Secret} (h : w.Overlay e k row)
    (h' : w.Overlay e k row') : row = row' := by
  induction h with
  | own hown =>
    cases h' with
    | own hown' => exact hown.unique hown'
    | inherited hnone _ _ => exact absurd hown (hnone _)
  | inherited hnone hparent _ ih =>
    cases h' with
    | own hown' => exact absurd hown' (hnone _)
    | inherited _ hparent' h' =>
      obtain rfl := hparent.unique hparent'
      exact ih h'

/-- An overlaid row is stored. -/
theorem Overlay.mem_rows {e : Int} {k : Str} {row : Secret} (h : w.Overlay e k row) :
    row ∈ w.db.secrets.rows := by
  induction h with
  | own hown =>
    exact (List.mem_filter.mp ((List.perm_insertionSort _ _).mem_iff.mp hown.1)).1
  | inherited _ _ _ ih => exact ih

/-- A key has at most one raw value. -/
theorem Raw.unique {e : Int} {k t t' : Str} (h : w.Raw e k t) (h' : w.Raw e k t') : t = t' := by
  obtain ⟨row, hrow, ht⟩ := h
  obtain ⟨row', hrow', ht'⟩ := h'
  obtain rfl := hrow.unique hrow'
  rw [ht] at ht'
  cases ht'
  rfl

/-- The recursive definition gives a key at most one value. -/
theorem Value.unique {e : Int} {k t t' : Str} (h : w.Value e k t) (h' : w.Value e k t') :
    t = t' := by
  induction h generalizing t' with
  | mk hraw target value hnamed _ ih =>
    cases h' with
    | mk hraw' target' value' hnamed' hvalue' =>
      obtain rfl := hraw.unique hraw'
      refine spliceReferences_congr (fun ref href => ih ref href ?_) _
      rw [(hnamed ref href).unique (hnamed' ref href)]
      exact hvalue' ref href

/-- A key without a row of its own has the row of the parent. -/
theorem overlay_inherited_iff {e p : Int} {k : Str} {row : Secret}
    (hnone : ∀ row, ¬ w.Own e k row) (hp : w.Parent e p) :
    w.Overlay e k row ↔ w.Overlay p k row := by
  constructor
  · intro h
    cases h with
    | own hown => exact absurd hown (hnone _)
    | inherited _ hp' h =>
      obtain rfl := hp.unique hp'
      exact h
  · exact .inherited hnone hp

/-- A key without a row of its own has the raw value of the parent. -/
theorem raw_inherited_iff {e p : Int} {k t : Str} (hnone : ∀ row, ¬ w.Own e k row)
    (hp : w.Parent e p) : w.Raw e k t ↔ w.Raw p k t := by
  simp only [Raw, overlay_inherited_iff hnone hp]

/-- A key without a row of its own has the references of the parent. -/
theorem edge_inherited_iff {e p : Int} {k : Str} {n : Int × Str} (hnone : ∀ row, ¬ w.Own e k row)
    (hp : w.Parent e p) : w.Edge (e, k) n ↔ w.Edge (p, k) n := by
  simp only [Edge, raw_inherited_iff hnone hp]

/-- A key without a row of its own has the value of the parent. -/
theorem value_inherited_iff {e p : Int} {k t : Str} (hnone : ∀ row, ¬ w.Own e k row)
    (hp : w.Parent e p) : w.Value e k t ↔ w.Value p k t := by
  constructor
  · rintro ⟨hraw, target, value, hnamed, hvalue⟩
    exact .mk ((raw_inherited_iff hnone hp).mp hraw) target value hnamed hvalue
  · rintro ⟨hraw, target, value, hnamed, hvalue⟩
    exact .mk ((raw_inherited_iff hnone hp).mpr hraw) target value hnamed hvalue

/-- A key without a row of its own is as grounded as at the parent. -/
theorem Grounded.inherited {e p : Int} {k : Str} (hnone : ∀ row, ¬ w.Own e k row)
    (hp : w.Parent e p) (h : w.Grounded p k) : w.Grounded e k :=
  ⟨Acc.intro _ fun _ hn => h.acc.inv ((edge_inherited_iff hnone hp).mp hn),
    fun hraw => h.targets ((raw_inherited_iff hnone hp).mp hraw)⟩

/-- A raw value is grounded if the targets of its references are. -/
theorem Raw.grounded {e : Int} {k t : Str} (h : w.Raw e k t)
    (hrefs : ∀ ref ∈ findReferences t, ∃ target row, w.Named ref.envName target ∧
      w.Overlay target ref.keyName row ∧ w.Grounded target ref.keyName) : w.Grounded e k := by
  refine ⟨Acc.intro _ ?_, fun {t' ref} hraw href => ?_⟩
  · rintro ⟨e', k'⟩ ⟨t', ref, href, hraw, hnamed, rfl⟩
    obtain rfl := h.unique hraw
    obtain ⟨target, row, hnamed', -, hground⟩ := hrefs ref href
    obtain rfl : target = e' := hnamed'.unique hnamed
    exact hground.acc
  · obtain rfl := h.unique hraw
    obtain ⟨target, row, hnamed, hrow, -⟩ := hrefs ref href
    exact ⟨target, row, hnamed, hrow⟩

/-- A raw value without references is the value. -/
theorem Raw.value {e : Int} {k t : Str} (h : w.Raw e k t) (hrefs : findReferences t = []) :
    w.Value e k t := by
  have hv := Value.mk (w := w) h (fun _ => 0) (fun _ => []) (by simp [hrefs]) (by simp [hrefs])
  rwa [hrefs] at hv

/-- A raw value with a reference is the start of an edge. -/
theorem Raw.edge {e e' : Int} {k t : Str} (h : w.Raw e k t) {ref : Reference}
    (href : ref ∈ findReferences t) (hn : w.Named ref.envName e') :
    w.Edge (e, k) (e', ref.keyName) :=
  ⟨t, ref, href, h, hn, rfl⟩

end Functional

/-- The text that replaces a reference. -/
noncomputable def refText (ref : Reference) : Str :=
  open Classical in
  if h : ∃ text target, w.Named ref.envName target ∧ w.Value target ref.keyName text then h.choose
  else []

section Texts

variable {w}

/-- A reference is replaced by the value of its target. -/
theorem refText_eq {ref : Reference} {target : Int} {text : Str}
    (hn : w.Named ref.envName target) (hv : w.Value target ref.keyName text) :
    w.refText ref = text := by
  have h : ∃ text target, w.Named ref.envName target ∧ w.Value target ref.keyName text :=
    ⟨text, target, hn, hv⟩
  obtain ⟨target', hn', hv'⟩ := h.choose_spec
  obtain rfl := hn.unique hn'
  rw [refText, dif_pos h]
  exact hv'.unique hv

/-- The value of a raw value whose references all have values. -/
theorem Raw.value_splice {e : Int} {k t : Str} (h : w.Raw e k t)
    (hrefs : ∀ ref ∈ findReferences t, ∃ target, w.Named ref.envName target ∧
      w.Value target ref.keyName (w.refText ref)) :
    w.Value e k (spliceReferences (findReferences t) w.refText t) := by
  have hex : ∀ ref, ∃ target, ref ∈ findReferences t → w.Named ref.envName target ∧
      w.Value target ref.keyName (w.refText ref) := by
    intro ref
    by_cases href : ref ∈ findReferences t
    · obtain ⟨target, ht⟩ := hrefs ref href
      exact ⟨target, fun _ => ht⟩
    · exact ⟨0, fun h => absurd h href⟩
  choose target htarget using hex
  exact .mk h target w.refText (fun ref href => (htarget ref href).1)
    fun ref href => (htarget ref href).2

/-- Members of the closure are stored, if the start is. -/
theorem Member.byID {start e : Int} (hs : ∃ env, EnvRepo.byID start w.db = .ok env)
    (h : w.Member start e) : ∃ env, EnvRepo.byID e w.db = .ok env := by
  cases h with
  | start => exact hs
  | parent _ hp =>
    obtain ⟨env, -, -, hn⟩ := hp
    exact hn.byID
  | reference _ he =>
    obtain ⟨text, ref, -, -, hn, -⟩ := he
    exact hn.byID

/-- What a safe node reads is safe. -/
theorem Safe.of_reads {n n' : Int × Str} (h : w.Safe n) (hr : w.Reads n n') : w.Safe n' :=
  fun _ ht => h (.head hr ht)

/-- What a safe node reads is plain. -/
theorem Safe.plain {n n' : Int × Str} (h : w.Safe n) (hr : w.Reads n n') : w.Plain n' :=
  h (.single hr)

/-- Every node of a closure is safe in which values that are read twice hold no reference. -/
theorem RereadSafe.safe {start : Int} {n : Int × Str} (h : w.RereadSafe start)
    (hn : w.Member start n.1) : w.Safe n := by
  have hstep : ∀ {a b : Int × Str}, w.Member start a.1 → w.Reads a b →
      w.Member start b.1 ∧ w.Plain b := by
    rintro a ⟨e, k⟩ ha (he | ⟨hp, hk, hnone⟩)
    · exact ⟨ha.reference he, fun _ hv => h (.inl ⟨a, ha, he⟩) hv⟩
    · cases hk
      exact ⟨ha.parent hp, fun _ hv => h (.inr ⟨a.1, ha, hp, hnone⟩) hv⟩
  have hall : ∀ {b}, Relation.TransGen w.Reads n b → w.Member start b.1 ∧ w.Plain b := by
    intro b hb
    induction hb with
    | single hr => exact hstep hn hr
    | tail _ hr ih => exact hstep ih.1 hr
  exact fun _ hb => (hall hb).2

/-- A node with a value that contains no reference. -/
def Free (w : Source) (n : Int × Str) : Prop :=
  ∃ text, w.Value n.1 n.2 text ∧ findReferences text = []

theorem Free.plain {n : Int × Str} (h : w.Free n) : w.Plain n := by
  obtain ⟨text, hv, hrefs⟩ := h
  intro text' hv'
  rwa [hv'.unique hv]

/-- A reference in a value that another reads would be one in the value that reads it. -/
theorem Free.of_reads {n n' : Int × Str} (h : w.Free n) (hr : w.Reads n n') : w.Free n' := by
  obtain ⟨text, hv, hrefs⟩ := h
  obtain ⟨e', k'⟩ := n'
  rcases hr with ⟨raw, ref, href, hraw, hn, rfl⟩ | ⟨hp, rfl, hnone⟩
  · obtain ⟨hraw', target, value, hnamed, hvalue⟩ := hv
    obtain rfl := hraw.unique hraw'
    refine ⟨value ref, ?_, findReferences_eq_nil_of_splice hrefs href⟩
    have htarget : target ref = e' := (hnamed ref href).unique hn
    rw [← htarget]
    exact hvalue ref href
  · exact ⟨text, (value_inherited_iff hnone hp).mp hv, hrefs⟩

/-- A node with a value without references is safe. -/
theorem Free.safe {n : Int × Str} (h : w.Free n) : w.Safe n := by
  intro n' ht
  have hfree : w.Free n' := by
    induction ht with
    | single hr => exact h.of_reads hr
    | tail _ hr ih => exact ih.of_reads hr
  exact hfree.plain

/-- On hygienic raw values, a value contains no character of a reference's delimiters. -/
theorem Value.inert {start e : Int} {k t : Str}
    (hyg : ∀ e k t, w.Member start e → w.Raw e k t → Hygienic t) (h : w.Value e k t)
    (he : w.Member start e) : ∀ c ∈ t, Inert c := by
  induction h with
  | mk hraw target value hnamed _ ih =>
    refine (hyg _ _ _ he hraw).inert_splice fun ref href => ih ref href ?_
    exact he.reference (hraw.edge href (hnamed ref href))

/-- Hygienic raw values may be read any number of times. -/
theorem rereadSafe_of_hygienic {start : Int}
    (hyg : ∀ e k t, w.Member start e → w.Raw e k t → Hygienic t) : w.RereadSafe start := by
  intro e k t hre hv
  have he : w.Member start e := by
    rcases hre with ⟨n, hn, hedge⟩ | ⟨c, hc, hp, -⟩
    · exact hn.reference hedge
    · exact hc.parent hp
  exact findReferences_eq_nil fun hd => (hv.inert hyg he _ hd).1 rfl

end Texts

end Source

end Comax.Secret
