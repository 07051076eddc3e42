import Mathlib.Data.List.Basic
import Mathlib.Data.List.Nodup
import Mathlib.Logic.Function.Basic
import Mathlib.Order.Nat

/-!
# Relational tables

A table is a list of rows, in order of insertion, that carries its own
constraints: primary keys are distinct, and no two rows clash on a UNIQUE
constraint. The four statements of the library keep them, so a table that
violates a constraint cannot be built. New primary keys follow the rule of a plain
integer primary key: one more than the largest key present.
-/

namespace Comax.Core

/-- The constraints of a row type: a primary key, and the columns under UNIQUE
constraints with the pairs of their values that may not stand side by side. -/
class Row (ρ : Type) where
  /-- The primary key. -/
  id : ρ → Int
  /-- The values of the columns under UNIQUE constraints. -/
  Key : Type
  /-- Those values, read off a row. -/
  key : ρ → Key
  /-- Whether two rows with these values violate a UNIQUE constraint. -/
  clash : Key → Key → Bool

/-- Two rows that no constraint keeps apart. -/
def Row.Apart {ρ : Type} [Row ρ] (a b : ρ) : Prop :=
  Row.id a ≠ Row.id b ∧ Row.clash (Row.key a) (Row.key b) = false

instance {ρ : Type} [Row ρ] (a b : ρ) : Decidable (Row.Apart a b) :=
  inferInstanceAs (Decidable (_ ∧ _))

/-- A table whose rows respect its constraints. -/
structure Table (ρ : Type) [Row ρ] where
  /-- The rows, oldest first. -/
  rows : List ρ
  /-- Every constraint holds between every row and the rows after it. -/
  apart : rows.Pairwise Row.Apart

namespace Table

variable {ρ : Type} [Row ρ]

@[ext] theorem ext {t t' : Table ρ} (h : t.rows = t'.rows) : t = t' := by
  cases t; cases t'; cases h; rfl

instance [DecidableEq ρ] : DecidableEq (Table ρ) := fun t t' =>
  decidable_of_iff (t.rows = t'.rows) ⟨ext, congrArg rows⟩

/-- The empty table. -/
def empty : Table ρ := ⟨[], List.Pairwise.nil⟩

/-- The primary key of the next row: one more than the largest, and 1 in an empty table. -/
def nextId (t : Table ρ) : Int := (t.rows.map Row.id).max?.elim 1 (· + 1)

/-- Add a row at the end; `none` when a constraint rejects it. -/
def insert (t : Table ρ) (r : ρ) : Option (Table ρ) :=
  if h : ∀ x ∈ t.rows, Row.Apart x r then
    some ⟨t.rows ++ [r], List.pairwise_append.mpr ⟨t.apart, List.pairwise_singleton _ _,
      fun x hx y hy => by rw [List.mem_singleton.mp hy]; exact h x hx⟩⟩
  else none

/-- Rewrite the rows that satisfy `p` by a map that keeps the constrained columns. -/
def update (t : Table ρ) (p : ρ → Bool) (f : ρ → ρ)
    (hf : ∀ a, Row.id (f a) = Row.id a ∧ Row.key (f a) = Row.key a) : Table ρ :=
  ⟨t.rows.map fun r => if p r then f r else r, by
    have hkeep : ∀ a, Row.id (if p a then f a else a) = Row.id a ∧
        Row.key (if p a then f a else a) = Row.key a := by
      intro a
      split
      · exact hf a
      · exact ⟨rfl, rfl⟩
    refine List.pairwise_map.mpr (t.apart.imp ?_)
    intro a b hab
    rw [Row.Apart, (hkeep a).1, (hkeep a).2, (hkeep b).1, (hkeep b).2]
    exact hab⟩

/-- Remove the rows that satisfy `p`. -/
def delete (t : Table ρ) (p : ρ → Bool) : Table ρ :=
  ⟨t.rows.filter fun r => !p r, t.apart.sublist List.filter_sublist⟩

/-- The first row that satisfies `p`. -/
def find? (t : Table ρ) (p : ρ → Bool) : Option ρ := t.rows.find? p

@[simp] theorem rows_update (t : Table ρ) (p : ρ → Bool) (f : ρ → ρ)
    (hf : ∀ a, Row.id (f a) = Row.id a ∧ Row.key (f a) = Row.key a) :
    (t.update p f hf).rows = t.rows.map fun r => if p r then f r else r := rfl

/-- What an accepted insertion did. -/
theorem insert_eq_some {t t' : Table ρ} {r : ρ} :
    t.insert r = some t' ↔ (∀ x ∈ t.rows, Row.Apart x r) ∧ t'.rows = t.rows ++ [r] := by
  unfold insert
  constructor
  · intro h
    split at h
    · rename_i hx
      cases h
      exact ⟨hx, rfl⟩
    · cases h
  · rintro ⟨hx, ht⟩
    rw [dif_pos hx]
    exact congrArg some (ext ht.symm)

/-- Rows at two positions of a table are apart. -/
theorem apart_of_lt (t : Table ρ) {i j : ℕ} {a b : ρ} (hij : i < j)
    (ha : t.rows[i]? = some a) (hb : t.rows[j]? = some b) : Row.Apart a b := by
  obtain ⟨hi, rfl⟩ := List.getElem?_eq_some_iff.mp ha
  obtain ⟨hj, rfl⟩ := List.getElem?_eq_some_iff.mp hb
  exact List.pairwise_iff_getElem.mp t.apart i j hi hj hij

/-- A primary key determines its row. -/
theorem eq_of_id_eq (t : Table ρ) {a b : ρ} (ha : a ∈ t.rows) (hb : b ∈ t.rows)
    (h : Row.id a = Row.id b) : a = b := by
  obtain ⟨i, hi⟩ := List.mem_iff_getElem?.mp ha
  obtain ⟨j, hj⟩ := List.mem_iff_getElem?.mp hb
  rcases lt_trichotomy i j with hij | rfl | hij
  · exact absurd h (t.apart_of_lt hij hi hj).1
  · exact Option.some.inj (hi.symm.trans hj)
  · exact absurd h.symm (t.apart_of_lt hij hj hi).1

/-- Two rows that clash, in either order, are the same row. -/
theorem eq_of_clash (t : Table ρ) {a b : ρ} (ha : a ∈ t.rows) (hb : b ∈ t.rows)
    (h : Row.clash (Row.key a) (Row.key b) = true)
    (h' : Row.clash (Row.key b) (Row.key a) = true) : a = b := by
  obtain ⟨i, hi⟩ := List.mem_iff_getElem?.mp ha
  obtain ⟨j, hj⟩ := List.mem_iff_getElem?.mp hb
  rcases lt_trichotomy i j with hij | rfl | hij
  · exact absurd h (by simp [(t.apart_of_lt hij hi hj).2])
  · exact Option.some.inj (hi.symm.trans hj)
  · exact absurd h' (by simp [(t.apart_of_lt hij hj hi).2])

/-- The primary keys of a table are distinct. -/
theorem nodup_id (t : Table ρ) : (t.rows.map Row.id).Nodup :=
  List.pairwise_map.mpr (t.apart.imp fun h => h.1)

/-- A search that only one row of the table can answer finds that row. -/
theorem find?_eq_some (t : Table ρ) {p : ρ → Bool} {r : ρ} (hr : r ∈ t.rows) (hp : p r = true)
    (hu : ∀ x ∈ t.rows, p x = true → x = r) : t.find? p = some r := by
  unfold find?
  cases hf : t.rows.find? p with
  | none => exact absurd hp (by simpa using List.find?_eq_none.mp hf r hr)
  | some x => rw [hu x (List.mem_of_find?_eq_some hf) (List.find?_some hf)]

/-- What a search returns is a row with the property searched for. -/
theorem of_find?_eq_some {t : Table ρ} {p : ρ → Bool} {r : ρ} (h : t.find? p = some r) :
    r ∈ t.rows ∧ p r = true :=
  ⟨List.mem_of_find?_eq_some h, List.find?_some h⟩

/-- A search that one row can answer has the same answer in every table with the same candidates. -/
theorem find?_congr {t t' : Table ρ} {p : ρ → Bool}
    (hmem : ∀ x, p x = true → (x ∈ t'.rows ↔ x ∈ t.rows))
    (hu : ∀ x ∈ t.rows, ∀ y ∈ t.rows, p x = true → p y = true → x = y) :
    t'.find? p = t.find? p := by
  cases h : t.find? p with
  | none =>
    refine List.find?_eq_none.mpr fun x hx hp => ?_
    exact List.find?_eq_none.mp h x ((hmem x hp).mp hx) hp
  | some r =>
    obtain ⟨hr, hp⟩ := of_find?_eq_some h
    exact find?_eq_some t' ((hmem r hp).mpr hr) hp fun x hx hx' =>
      hu x ((hmem x hx').mp hx) r hr hx' hp

/-- A search after an insertion. -/
theorem find?_insert {t t' : Table ρ} {r : ρ} (h : t.insert r = some t') (p : ρ → Bool) :
    t'.find? p = (t.find? p).or (if p r then some r else none) := by
  rw [find?, (insert_eq_some.mp h).2, List.find?_append, List.find?_singleton]
  rfl

/-- A search after an update that it does not see. -/
theorem find?_update {t : Table ρ} {p q : ρ → Bool} {f : ρ → ρ}
    (hf : ∀ a, Row.id (f a) = Row.id a ∧ Row.key (f a) = Row.key a) (hq : ∀ a, q (f a) = q a) :
    (t.update p f hf).find? q = (t.find? q).map fun r => if p r then f r else r := by
  have hsame : (fun r => q (if p r then f r else r)) = q := by
    funext r
    split
    · exact hq r
    · rfl
  rw [find?, rows_update, List.find?_map]
  change (t.rows.find? fun r => q (if p r then f r else r)).map _ = _
  rw [hsame]
  rfl

/-- Rows that an update does not touch, before and after, are filtered alike. -/
theorem filter_rows_update {t : Table ρ} {p q : ρ → Bool} {f : ρ → ρ}
    (hf : ∀ a, Row.id (f a) = Row.id a ∧ Row.key (f a) = Row.key a)
    (hq : ∀ a, p a = true → q a = false ∧ q (f a) = false) :
    (t.update p f hf).rows.filter q = t.rows.filter q := by
  have hsame : (fun a => q (if p a then f a else a)) = q := by
    funext a
    split
    · rename_i hp
      exact (hq a hp).2.trans (hq a hp).1.symm
    · rfl
  rw [rows_update, List.filter_map]
  change List.map _ (List.filter (fun a => q (if p a then f a else a)) t.rows) = _
  rw [hsame]
  refine (List.map_congr_left fun a ha => if_neg fun hp => ?_).trans (List.map_id' _)
  rw [List.mem_filter, (hq a hp).1] at ha
  cases ha.2

/-- What is read by primary key, after an insertion. -/
theorem map_find?_id_insert {α : Type} {t t' : Table ρ} {r : ρ} (h : t.insert r = some t')
    (g : ρ → α) :
    (fun i => (t'.find? fun x => Row.id x = i).map g) =
      Function.update (fun i => (t.find? fun x => Row.id x = i).map g) (Row.id r)
        (some (g r)) := by
  funext i
  rw [find?_insert h, Function.update_apply]
  split
  · rename_i hi
    have hid : i = Row.id r := (of_decide_eq_true hi).symm
    have hnone : t.find? (fun x => Row.id x = i) = none := by
      refine List.find?_eq_none.mpr fun x hx => ?_
      rw [hid]
      simpa using ((insert_eq_some.mp h).1 x hx).1
    rw [hnone, if_pos hid]
    rfl
  · rename_i hi
    rw [Option.or_none, if_neg fun he => hi (decide_eq_true he.symm)]

/-- What is read by primary key, after an update of one row. -/
theorem map_find?_id_update {α : Type} {t : Table ρ} {p : ρ → Bool} (f : ρ → ρ)
    (hf : ∀ a, Row.id (f a) = Row.id a ∧ Row.key (f a) = Row.key a) {r : ρ} (hr : r ∈ t.rows)
    (hp : p r = true) (honly : ∀ x, p x = true → Row.id x = Row.id r) (g : ρ → α) :
    (fun i => ((t.update p f hf).find? fun x => Row.id x = i).map g) =
      Function.update (fun i => (t.find? fun x => Row.id x = i).map g) (Row.id r)
        (some (g (f r))) := by
  funext i
  have hsame : ∀ a, decide (Row.id (f a) = i) = decide (Row.id a = i) := fun a => by
    rw [(hf a).1]
  rw [find?_update hf hsame, Function.update_apply]
  split
  · rename_i hi
    have hfound : t.find? (fun x => Row.id x = i) = some r :=
      t.find?_eq_some hr (decide_eq_true hi.symm) fun x hx hxi =>
        t.eq_of_id_eq hx hr ((of_decide_eq_true hxi).trans hi)
    rw [hfound, Option.map_some, if_pos hp]
    rfl
  · rename_i hi
    cases hfound : t.find? fun x => Row.id x = i with
    | none => rfl
    | some x =>
      have hx := of_decide_eq_true (of_find?_eq_some hfound).2
      rw [Option.map_some, if_neg fun hpx => hi (hx.symm.trans (honly x hpx))]

/-- What is read by primary key, after a deletion of the row with one. -/
theorem map_find?_id_delete {α : Type} (t : Table ρ) (id : Int) (g : ρ → α) :
    (fun i => ((t.delete fun x => Row.id x = id).find? fun x => Row.id x = i).map g) =
      Function.update (fun i => (t.find? fun x => Row.id x = i).map g) id none := by
  funext i
  rw [Function.update_apply]
  split
  · rename_i hi
    rw [Option.map_eq_none_iff, hi]
    refine List.find?_eq_none.mpr fun x hx => ?_
    simpa using (List.mem_filter.mp hx).2
  · rename_i hi
    congr 1
    refine find?_congr (fun x hx => ?_) fun x hx y hy hxi hyi => ?_
    · have hne : Row.id x ≠ id := fun he => hi ((of_decide_eq_true hx).symm.trans he)
      exact ⟨fun hm => (List.mem_filter.mp hm).1,
        fun hm => List.mem_filter.mpr ⟨hm, by simp [hne]⟩⟩
    · exact t.eq_of_id_eq hx hy ((of_decide_eq_true hxi).trans (of_decide_eq_true hyi).symm)

/-- The next primary key is larger than every key present. -/
theorem lt_nextId (t : Table ρ) {r : ρ} (hr : r ∈ t.rows) : Row.id r < t.nextId := by
  unfold nextId
  have hm : Row.id r ∈ t.rows.map Row.id := List.mem_map_of_mem hr
  cases hmax : (t.rows.map Row.id).max? with
  | none => simp [List.max?_eq_none_iff.mp hmax] at hm
  | some m =>
    have hle := (List.max?_eq_some_iff.mp hmax).2 _ hm
    simp only [Option.elim_some]
    omega

/-- Every row of a table has a related row in another one. -/
def Carried (P : ρ → ρ → Prop) (t t' : Table ρ) : Prop := ∀ r ∈ t.rows, ∃ r' ∈ t'.rows, P r r'

namespace Carried

variable {P : ρ → ρ → Prop} {t t' t'' : Table ρ}

/-- Every row is related to itself. -/
theorem refl (hrefl : ∀ r, P r r) (t : Table ρ) : Carried P t t := fun r hr => ⟨r, hr, hrefl r⟩

/-- Related rows of related rows are related. -/
theorem trans (htrans : ∀ a b c, P a b → P b c → P a c) (h : Carried P t t')
    (h' : Carried P t' t'') : Carried P t t'' := by
  intro r hr
  obtain ⟨r', hr', hp⟩ := h r hr
  obtain ⟨r'', hr'', hp'⟩ := h' r' hr'
  exact ⟨r'', hr'', htrans _ _ _ hp hp'⟩

/-- An insertion keeps the rows. -/
theorem of_insert (hrefl : ∀ r, P r r) {r : ρ} (h : t.insert r = some t') : Carried P t t' := by
  intro x hx
  refine ⟨x, ?_, hrefl x⟩
  rw [(insert_eq_some.mp h).2]
  exact List.mem_append_left _ hx

/-- An update relates the rows it rewrites. -/
theorem of_update (hrefl : ∀ r, P r r) (t : Table ρ) {p : ρ → Bool} {f : ρ → ρ}
    (hf : ∀ a, Row.id (f a) = Row.id a ∧ Row.key (f a) = Row.key a)
    (hP : ∀ r, p r = true → P r (f r)) : Carried P t (t.update p f hf) := by
  intro r hr
  refine ⟨if p r then f r else r, List.mem_map_of_mem hr, ?_⟩
  split
  · rename_i hp
    exact hP r hp
  · exact hrefl r

end Carried

/-- An insertion extends the rows. -/
theorem prefix_of_insert {t t' : Table ρ} {r : ρ} (h : t.insert r = some t') :
    t.rows <+: t'.rows := by
  rw [(insert_eq_some.mp h).2]
  exact List.prefix_append _ _

/-- What a search finds, it finds among more rows as well. -/
theorem find?_of_prefix {t t' : Table ρ} (h : t.rows <+: t'.rows) {p : ρ → Bool} {r : ρ}
    (hr : t.find? p = some r) : t'.find? p = some r := by
  obtain ⟨rest, hrest⟩ := h
  unfold find? at hr ⊢
  rw [← hrest, List.find?_append, hr]
  rfl

end Table

end Comax.Core
