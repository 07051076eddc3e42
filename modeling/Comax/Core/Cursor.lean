import Mathlib.Data.List.Basic
import Mathlib.Data.List.Nodup
import Mathlib.Order.Basic
import Mathlib.Tactic.Ring

/-!
# Pages behind a cursor

A list is read in pages of `n` elements. After a full page the rest is what lies below the
key of its last element, whatever the order of the list is; a page that is not full is the
last one. The pages add up to the list exactly when, at the end of every full page, the keys
before it are larger and the keys after it are smaller.
-/

namespace Comax.Core

variable {α κ : Type} [LinearOrder κ]

/-- The pages of a list, one after the other. -/
inductive Pages (key : α → κ) (n : ℕ) : List α → List α → Prop
  | last {l : List α} (h : l.length < n) : Pages key n l l
  | next {a c out : List α} {x : α} (h : a.length + 1 = n)
      (hrest : Pages key n ((a ++ x :: c).filter fun y => key y < key x) out) :
      Pages key n (a ++ x :: c) (a ++ x :: out)

/-- At the end of every full page, the keys before it are larger and the keys after it smaller. -/
def CursorsSplit (key : α → κ) (n : ℕ) (l : List α) : Prop :=
  ∀ k a x c, l = a ++ x :: c → a.length + 1 = (k + 1) * n →
    (∀ y ∈ a, key x < key y) ∧ ∀ y ∈ c, key y < key x

variable {key : α → κ} {n : ℕ}

/-- A list with descending keys is split. -/
theorem cursorsSplit_of_pairwise {l : List α} (h : l.Pairwise fun a b => key b < key a) :
    CursorsSplit key n l := by
  rintro k a x c rfl -
  obtain ⟨-, htail, hcross⟩ := List.pairwise_append.mp h
  exact ⟨fun y hy => hcross y hy x List.mem_cons_self, (List.pairwise_cons.mp htail).1⟩

/-- A list with a full page is that page and what follows it. -/
theorem exists_page (hn : 0 < n) {l : List α} (h : n ≤ l.length) :
    ∃ a x c, l = a ++ x :: c ∧ a.length + 1 = n := by
  have hlt : n - 1 < l.length := by omega
  refine ⟨l.take (n - 1), l[n - 1], l.drop (n - 1 + 1), ?_, ?_⟩
  · rw [← List.drop_eq_getElem_cons hlt, List.take_append_drop]
  · rw [List.length_take]
    omega

/-- What lies below the last element of a page is shorter. -/
theorem length_below_lt (a c : List α) (x : α) :
    ((a ++ x :: c).filter fun y => key y < key x).length < (a ++ x :: c).length := by
  exact List.length_filter_lt_length_iff_exists.mpr ⟨x, by simp, by simp⟩

/-- Every list is read to an end. -/
theorem exists_pages (hn : 0 < n) (l : List α) : ∃ out, Pages key n l out := by
  induction hlen : l.length using Nat.strong_induction_on generalizing l with
  | _ m ih =>
    by_cases h : l.length < n
    · exact ⟨l, .last h⟩
    · obtain ⟨a, x, c, rfl, ha⟩ := exists_page hn (Nat.not_lt.mp h)
      have hlt : ((a ++ x :: c).filter fun y => key y < key x).length < m :=
        hlen ▸ length_below_lt a c x
      obtain ⟨out, hout⟩ := ih _ hlt _ rfl
      exact ⟨a ++ x :: out, .next ha hout⟩

/-- What is read comes from the list. -/
theorem Pages.mem {l out : List α} (h : Pages key n l out) {y : α} (hy : y ∈ out) : y ∈ l := by
  induction h with
  | last => exact hy
  | @next a c out x _ _ ih =>
    rcases List.mem_append.mp hy with hy | hy
    · exact List.mem_append_left _ hy
    rcases List.mem_cons.mp hy with rfl | hy
    · simp
    · exact List.mem_of_mem_filter (ih hy)

/-- What is read starts as the list does. -/
theorem Pages.head {l out : List α} (h : Pages key n l out) :
    out.head? = l.head? := by
  cases h with
  | last => rfl
  | @next a c out x _ _ => cases a <;> rfl

/-- The cursors of a list are those of its first page and those of the rest. -/
theorem cursorsSplit_append {a c : List α} {x : α} (ha : a.length + 1 = n) :
    CursorsSplit key n (a ++ x :: c) ↔
      (∀ y ∈ a, key x < key y) ∧ (∀ y ∈ c, key y < key x) ∧ CursorsSplit key n c := by
  constructor
  · intro h
    obtain ⟨hbefore, hafter⟩ := h 0 a x c rfl (by omega)
    refine ⟨hbefore, hafter, ?_⟩
    rintro k b y d rfl hb
    have hlen : (a ++ x :: b).length + 1 = (k + 1 + 1) * n := by
      rw [List.length_append, List.length_cons, Nat.succ_mul (k + 1), ← hb]
      omega
    obtain ⟨hlarger, hsmaller⟩ := h (k + 1) (a ++ x :: b) y d (by simp) hlen
    exact ⟨fun z hz => hlarger z (by simp [hz]), hsmaller⟩
  · rintro ⟨hbefore, hafter, hrest⟩ k b y d he hb
    cases k with
    | zero =>
      have hlen : a.length = b.length := by omega
      obtain ⟨rfl, htail⟩ := List.append_inj he hlen
      obtain ⟨rfl, rfl⟩ := List.cons.inj htail
      exact ⟨hbefore, hafter⟩
    | succ k =>
      rw [Nat.succ_mul (k + 1)] at hb
      have hlonger : n ≤ (k + 1) * n := Nat.le_mul_of_pos_left n (Nat.succ_pos k)
      rcases List.append_eq_append_iff.mp he with ⟨b', rfl, htail⟩ | ⟨a', rfl, -⟩
      · rw [List.length_append] at hb
        cases b' with
        | nil =>
          rw [List.length_nil] at hb
          omega
        | cons x' b =>
          obtain ⟨rfl, rfl⟩ := List.cons.inj htail
          rw [List.length_cons] at hb
          obtain ⟨hlarger, hsmaller⟩ := hrest k b y d rfl (by omega)
          refine ⟨fun z hz => ?_, hsmaller⟩
          have hyx : key y < key x := hafter y (by simp)
          rcases List.mem_append.mp hz with hz | hz
          · exact hyx.trans (hbefore z hz)
          rcases List.mem_cons.mp hz with rfl | hz
          · exact hyx
          · exact hlarger z hz
      · rw [List.length_append] at ha
        omega

/-- Between larger and smaller keys, what lies below a page is what follows it. -/
theorem below_eq {a c : List α} {x : α} (ha : ∀ y ∈ a, key x < key y)
    (hc : ∀ y ∈ c, key y < key x) : ((a ++ x :: c).filter fun y => key y < key x) = c := by
  have hnone : (a.filter fun y => key y < key x) = [] := by
    rw [List.filter_eq_nil_iff]
    intro y hy
    simpa using (ha y hy).le
  have hall : (c.filter fun y => key y < key x) = c := by
    rw [List.filter_eq_self]
    intro y hy
    simpa using hc y hy
  rw [List.filter_append, hnone, List.filter_cons_of_neg (by simp), hall, List.nil_append]

/-- The pages are the list exactly when its cursors split it. -/
theorem Pages.eq_iff {l out : List α} (h : Pages key n l out)
    (hnodup : (l.map key).Nodup) : out = l ↔ CursorsSplit key n l := by
  induction h with
  | @last l h =>
    refine ⟨fun _ => ?_, fun _ => rfl⟩
    rintro k a x c rfl hlen
    have hle : n ≤ (k + 1) * n := Nat.le_mul_of_pos_left n (Nat.succ_pos k)
    rw [List.length_append, List.length_cons] at h
    omega
  | @next a c out x ha hrest ih =>
    rw [cursorsSplit_append ha]
    have hsub : (((a ++ x :: c).filter fun y => key y < key x).map key).Nodup :=
      hnodup.sublist (List.filter_sublist.map key)
    constructor
    · intro he
      obtain ⟨-, hout⟩ := List.cons.inj (List.append_cancel_left he)
      subst hout
      have hafter : ∀ y ∈ out, key y < key x := fun y hy => by
        simpa using List.of_mem_filter (hrest.mem hy)
      have hbefore : ∀ y ∈ a, key x < key y := by
        by_contra hex
        push Not at hex
        obtain ⟨y, hy, hle⟩ := hex
        rw [List.map_append, List.map_cons, List.nodup_append] at hnodup
        obtain ⟨-, -, hdisj⟩ := hnodup
        have hne : key y ≠ key x := hdisj _ (List.mem_map_of_mem hy) _ List.mem_cons_self
        have hbelow : y ∈ a.filter fun z => key z < key x :=
          List.mem_filter.mpr ⟨hy, by simpa using lt_of_le_of_ne hle hne⟩
        obtain ⟨z, rest, hz⟩ := List.exists_cons_of_ne_nil (List.ne_nil_of_mem hbelow)
        have hza : z ∈ a := List.mem_of_mem_filter (hz ▸ List.mem_cons_self)
        have hhead := hrest.head
        rw [List.filter_append, hz] at hhead
        have hzout : z ∈ out := List.mem_of_head? hhead
        exact hdisj _ (List.mem_map_of_mem hza) _
          (List.mem_cons_of_mem _ (List.mem_map_of_mem hzout)) rfl
      have hbelow := below_eq hbefore hafter
      rw [hbelow] at ih hsub
      exact ⟨hbefore, hafter, (ih hsub).mp rfl⟩
    · rintro ⟨hbefore, hafter, hsplit⟩
      have hbelow := below_eq hbefore hafter
      rw [hbelow] at ih hsub
      rw [(ih hsub).mpr hsplit]

end Comax.Core
