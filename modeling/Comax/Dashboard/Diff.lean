import Comax.Core.Subsequence
import Comax.Core.Utf16

/-!
# The dashboard's line diff

`diffLines` fills the table of the longest common subsequences of all beginnings of two lists of
lines, row by row, and walks it back from the end. Texts are lists of UTF-16 code units.
-/

namespace Comax.Dashboard

open Comax.Core

/-- `DiffOp` -/
inductive DiffOp where
  | equal (left right : JSString) (leftLine rightLine : ℕ)
  | removed (left : JSString) (leftLine : ℕ)
  | added (right : JSString) (rightLine : ℕ)
  deriving DecidableEq

namespace DiffOp

/-- The left line of an operation, with its number. -/
def left? : DiffOp → Option (JSString × ℕ)
  | equal left _ leftLine _ => some (left, leftLine)
  | removed left leftLine => some (left, leftLine)
  | added _ _ => none

/-- The right line of an operation, with its number. -/
def right? : DiffOp → Option (JSString × ℕ)
  | equal _ right _ rightLine => some (right, rightLine)
  | removed _ _ => none
  | added right rightLine => some (right, rightLine)

/-- `kind === 'equal'` -/
def isEqual : DiffOp → Bool
  | equal _ _ _ _ => true
  | removed _ _ => false
  | added _ _ => false

/-- An equal operation has the same text on both sides. -/
def Same : DiffOp → Prop
  | equal left right _ _ => left = right
  | removed _ _ => True
  | added _ _ => True

/-- The step of an edit script that an operation shows. -/
def edit : DiffOp → Edit JSString
  | equal left _ _ _ => .keep left
  | removed left _ => .remove left
  | added right _ => .add right

end DiffOp

/-- `s === '' ? [] : s.split('\n')` -/
def lines (s : JSString) : List JSString := if s = [] then [] else s.splitOn (byte '\n').toUInt16

section Diff

variable (leftLines rightLines : List JSString)

/-- `leftLines[i - 1] === rightLines[j - 1]` -/
def sameLine (i j : ℕ) : Bool := leftLines[i - 1]? = rightLines[j - 1]?

/-- The entry that the inner loop writes to `lcs[i][j]`. -/
def entry (lcs : ℕ → ℕ → ℕ) (i j : ℕ) : ℕ :=
  if sameLine leftLines rightLines i j then lcs (i - 1) (j - 1) + 1
  else max (lcs (i - 1) j) (lcs i (j - 1))

/-- `lcs[i][j] = v` -/
def write (lcs : ℕ → ℕ → ℕ) (i j v : ℕ) : ℕ → ℕ → ℕ :=
  fun i' j' => if i' = i ∧ j' = j then v else lcs i' j'

/-- The inner loop, over the columns of row `i`. -/
def fillRow (lcs : ℕ → ℕ → ℕ) (i m : ℕ) : ℕ → ℕ → ℕ :=
  (List.range' 1 m).foldl (fun lcs j => write lcs i j (entry leftLines rightLines lcs i j)) lcs

/-- The outer loop, over the rows of a table of zeros. -/
def fillTable (n m : ℕ) : ℕ → ℕ → ℕ :=
  (List.range' 1 n).foldl (fun lcs i => fillRow leftLines rightLines lcs i m) fun _ _ => 0

/-- The loop that walks the table back, with its operations in the order they are pushed. -/
def walk (lcs : ℕ → ℕ → ℕ) (i j : ℕ) : List DiffOp :=
  if hmore : 0 < i ∨ 0 < j then
    if hsame : 0 < i ∧ 0 < j ∧ sameLine leftLines rightLines i j = true then
      .equal (leftLines.getD (i - 1) []) (rightLines.getD (j - 1) []) i j ::
        walk lcs (i - 1) (j - 1)
    else if hadd : 0 < j ∧ (i = 0 ∨ lcs i (j - 1) ≥ lcs (i - 1) j) then
      .added (rightLines.getD (j - 1) []) j :: walk lcs i (j - 1)
    else .removed (leftLines.getD (i - 1) []) i :: walk lcs (i - 1) j
  else []
termination_by i + j

end Diff

/-- `diffLines` -/
def diffLines (left right : JSString) : List DiffOp :=
  let leftLines := lines left
  let rightLines := lines right
  let n := leftLines.length
  let m := rightLines.length
  (walk leftLines rightLines (fillTable leftLines rightLines n m) n m).reverse

/-! ## The table -/

section Table

variable {leftLines rightLines : List JSString} {lcs : ℕ → ℕ → ℕ} {i j : ℕ}

/-- Two lines are the same where they are equal and both are there. -/
theorem sameLine_succ (hi : i < leftLines.length) (hj : j < rightLines.length) :
    sameLine leftLines rightLines (i + 1) (j + 1) = true ↔ leftLines[i] = rightLines[j] := by
  rw [sameLine, decide_eq_true_iff, Nat.add_sub_cancel, Nat.add_sub_cancel,
    List.getElem?_eq_getElem hi, List.getElem?_eq_getElem hj, Option.some.injEq]

/-- The entry of the table for two beginnings of the texts. -/
def Right (leftLines rightLines : List JSString) (lcs : ℕ → ℕ → ℕ) (i j : ℕ) : Prop :=
  IsLcs (leftLines.take i) (rightLines.take j) (lcs i j)

/-- An entry is right when its three neighbours are. -/
theorem isLcs_entry (hi : i < leftLines.length) (hj : j < rightLines.length)
    (hdiag : Right leftLines rightLines lcs i j) (habove : Right leftLines rightLines lcs i (j + 1))
    (hbefore : Right leftLines rightLines lcs (i + 1) j) :
    IsLcs (leftLines.take (i + 1)) (rightLines.take (j + 1))
      (entry leftLines rightLines lcs (i + 1) (j + 1)) := by
  have hleft : leftLines.take (i + 1) = leftLines.take i ++ [leftLines[i]] := by simp
  have hright : rightLines.take (j + 1) = rightLines.take j ++ [rightLines[j]] := by simp
  rw [entry, Nat.add_sub_cancel, Nat.add_sub_cancel]
  split_ifs with hsame
  · rw [hleft, hright, (sameLine_succ hi hj).mp hsame]
    exact hdiag.concat _
  · rw [Right, hright] at habove
    rw [Right, hleft] at hbefore
    rw [hleft, hright]
    exact IsLcs.concat_of_ne (mt (sameLine_succ hi hj).mpr hsame) habove hbefore

/-- The table is right before row `i` and, in that row, up to column `j`. -/
structure Filled (leftLines rightLines : List JSString) (lcs : ℕ → ℕ → ℕ) (i j : ℕ) : Prop where
  column : ∀ k, lcs k 0 = 0
  above : ∀ i' j', i' < i → j' ≤ rightLines.length → Right leftLines rightLines lcs i' j'
  before : ∀ j', j' ≤ j → Right leftLines rightLines lcs i j'

/-- One entry more is right. -/
theorem Filled.step (h : Filled leftLines rightLines lcs (i + 1) j) (hi : i < leftLines.length)
    (hj : j < rightLines.length) :
    Filled leftLines rightLines
      (write lcs (i + 1) (j + 1) (entry leftLines rightLines lcs (i + 1) (j + 1)))
      (i + 1) (j + 1) where
  column k := by simp [write, h.column]
  above i' j' hi' hj' := by
    have hkeep := h.above i' j' hi' hj'
    rwa [Right, write, if_neg (by omega)]
  before j' hj' := by
    rw [Right, write]
    rcases Nat.lt_or_eq_of_le hj' with hlt | rfl
    · rw [if_neg (by omega)]
      exact h.before j' (by omega)
    · rw [if_pos ⟨rfl, rfl⟩]
      exact isLcs_entry hi hj (h.above i j (by omega) hj.le) (h.above i (j + 1) (by omega) hj)
        (h.before j le_rfl)

/-- The inner loop makes its row right. -/
theorem Filled.fillRow (h : Filled leftLines rightLines lcs (i + 1) 0) (hi : i < leftLines.length)
    {m : ℕ} (hm : m ≤ rightLines.length) :
    Filled leftLines rightLines (fillRow leftLines rightLines lcs (i + 1) m) (i + 1) m := by
  induction m with
  | zero => exact h
  | succ m ih =>
    rw [Dashboard.fillRow, List.range'_1_concat, List.foldl_append, List.foldl_cons, List.foldl_nil,
      Nat.add_comm 1 m]
    exact (ih (by omega)).step hi hm

/-- The next row starts right. -/
theorem Filled.next (h : Filled leftLines rightLines lcs i rightLines.length) :
    Filled leftLines rightLines lcs (i + 1) 0 where
  column := h.column
  above i' j' hi' hj' := by
    rcases Nat.lt_succ_iff_lt_or_eq.mp hi' with hlt | rfl
    · exact h.above i' j' hlt hj'
    · exact h.before j' hj'
  before j' hj' := by
    obtain rfl : j' = 0 := by omega
    rw [Right, h.column, List.take_zero]
    exact IsLcs.nil_right _

/-- The outer loop makes all its rows right. -/
theorem filled_fillTable {n : ℕ} (hn : n ≤ leftLines.length) :
    Filled leftLines rightLines (fillTable leftLines rightLines n rightLines.length)
      n rightLines.length := by
  induction n with
  | zero =>
    refine ⟨fun k => rfl, fun i' j' hi' => absurd hi' (Nat.not_lt_zero _), fun j' _ => ?_⟩
    exact IsLcs.nil_left _
  | succ n ih =>
    rw [fillTable, List.range'_1_concat, List.foldl_append, List.foldl_cons, List.foldl_nil,
      Nat.add_comm 1 n]
    exact (ih (by omega)).next.fillRow hn le_rfl

/-- The whole table is right. -/
theorem right_fillTable (hi : i ≤ leftLines.length) (hj : j ≤ rightLines.length) :
    Right leftLines rightLines
      (fillTable leftLines rightLines leftLines.length rightLines.length) i j := by
  have hfilled : Filled leftLines rightLines
      (fillTable leftLines rightLines leftLines.length rightLines.length)
      leftLines.length rightLines.length := filled_fillTable le_rfl
  rcases Nat.lt_or_eq_of_le hi with hlt | rfl
  · exact hfilled.above i j hlt hj
  · exact hfilled.before j hj

end Table

/-! ## The walk -/

section Walk

variable {leftLines rightLines : List JSString} {lcs : ℕ → ℕ → ℕ} {i j : ℕ}

/-- The numbered lines up to a line. -/
theorem zipIdx_take {ls : List JSString} (hi : 0 < i) (hlen : i ≤ ls.length) :
    (ls.take i).zipIdx 1 = (ls.take (i - 1)).zipIdx 1 ++ [(ls.getD (i - 1) [], i)] := by
  obtain ⟨k, rfl⟩ : ∃ k, i = k + 1 := ⟨i - 1, by omega⟩
  have htake : ls.take (k + 1) = ls.take k ++ [ls[k]] := by simp
  have hget : ls.getD k [] = ls[k] := by
    rw [List.getD_eq_getElem?_getD, List.getElem?_eq_getElem hlen, Option.getD_some]
  rw [htake, List.zipIdx_append, Nat.add_sub_cancel, hget, List.length_take_of_le (by omega),
    Nat.add_comm 1 k]
  rfl

/-- The equal and removed operations read the left lines in order. -/
theorem left_walk (hi : i ≤ leftLines.length) :
    (walk leftLines rightLines lcs i j).reverse.filterMap DiffOp.left? =
      (leftLines.take i).zipIdx 1 := by
  fun_induction walk leftLines rightLines lcs i j with
  | case1 i j hmore hsame ih =>
    rw [List.reverse_cons, List.filterMap_append, ih (by omega), zipIdx_take hsame.1 hi]
    rfl
  | case2 i j hmore hsame hadd ih =>
    rw [List.reverse_cons, List.filterMap_append, ih hi]
    simp [DiffOp.left?]
  | case3 i j hmore hsame hadd ih =>
    have hpos : 0 < i := by omega
    rw [List.reverse_cons, List.filterMap_append, ih (by omega), zipIdx_take hpos hi]
    rfl
  | case4 i j hstop =>
    obtain rfl : i = 0 := by omega
    rfl

/-- The equal and added operations read the right lines in order. -/
theorem right_walk (hj : j ≤ rightLines.length) :
    (walk leftLines rightLines lcs i j).reverse.filterMap DiffOp.right? =
      (rightLines.take j).zipIdx 1 := by
  fun_induction walk leftLines rightLines lcs i j with
  | case1 i j hmore hsame ih =>
    rw [List.reverse_cons, List.filterMap_append, ih (by omega), zipIdx_take hsame.2.1 hj]
    rfl
  | case2 i j hmore hsame hadd ih =>
    rw [List.reverse_cons, List.filterMap_append, ih (by omega), zipIdx_take hadd.1 hj]
    rfl
  | case3 i j hmore hsame hadd ih =>
    rw [List.reverse_cons, List.filterMap_append, ih hj]
    simp [DiffOp.right?]
  | case4 i j hstop =>
    obtain rfl : j = 0 := by omega
    rfl

/-- Equal operations have the same text on both sides. -/
theorem same_walk : ∀ op ∈ walk leftLines rightLines lcs i j, op.Same := by
  fun_induction walk leftLines rightLines lcs i j with
  | case1 i j hmore hsame ih =>
    refine List.forall_mem_cons.mpr ⟨?_, ih⟩
    rw [DiffOp.Same, List.getD_eq_getElem?_getD, List.getD_eq_getElem?_getD,
      of_decide_eq_true hsame.2.2]
  | case2 i j hmore hsame hadd ih => exact List.forall_mem_cons.mpr ⟨trivial, ih⟩
  | case3 i j hmore hsame hadd ih => exact List.forall_mem_cons.mpr ⟨trivial, ih⟩
  | case4 i j hstop => simp

/-- Where the lines differ, the better of the two neighbours gives the length. -/
theorem isLcs_of_not_sameLine (hright : ∀ i j, i ≤ leftLines.length → j ≤ rightLines.length →
    Right leftLines rightLines lcs i j) (hi : 0 < i) (hilen : i ≤ leftLines.length) (hj : 0 < j)
    (hjlen : j ≤ rightLines.length) (hne : ¬ sameLine leftLines rightLines i j = true) :
    IsLcs (leftLines.take i) (rightLines.take j) (max (lcs (i - 1) j) (lcs i (j - 1))) := by
  obtain ⟨k, rfl⟩ : ∃ k, i = k + 1 := ⟨i - 1, by omega⟩
  obtain ⟨l, rfl⟩ : ∃ l, j = l + 1 := ⟨j - 1, by omega⟩
  have hentry := isLcs_entry hilen hjlen (hright k l (by omega) (by omega))
    (hright k (l + 1) (by omega) hjlen) (hright (k + 1) l hilen (by omega))
  rwa [entry, if_neg hne] at hentry

/-- On a right table the walk keeps a longest common subsequence. -/
theorem isLcs_walk (hright : ∀ i j, i ≤ leftLines.length → j ≤ rightLines.length →
    Right leftLines rightLines lcs i j) (hi : i ≤ leftLines.length) (hj : j ≤ rightLines.length) :
    IsLcs (leftLines.take i) (rightLines.take j)
      ((walk leftLines rightLines lcs i j).countP DiffOp.isEqual) := by
  fun_induction walk leftLines rightLines lcs i j with
  | case1 i j hmore hsame ih =>
    obtain ⟨k, rfl⟩ : ∃ k, i = k + 1 := ⟨i - 1, by omega⟩
    obtain ⟨l, rfl⟩ : ∃ l, j = l + 1 := ⟨j - 1, by omega⟩
    have hleft : leftLines.take (k + 1) = leftLines.take k ++ [leftLines[k]] := by simp
    have hright' : rightLines.take (l + 1) = rightLines.take l ++ [rightLines[l]] := by simp
    rw [List.countP_cons_of_pos rfl, hleft, hright', (sameLine_succ hi hj).mp hsame.2.2]
    exact (ih (by omega) (by omega)).concat _
  | case2 i j hmore hsame hadd ih =>
    have hrest := ih hi (by omega)
    rw [List.countP_cons_of_neg (by simp [DiffOp.isEqual])]
    rcases Nat.eq_zero_or_pos i with rfl | hpos
    · rw [hrest.unique (IsLcs.nil_left _)]
      exact IsLcs.nil_left _
    · have hle : lcs (i - 1) j ≤ lcs i (j - 1) := by omega
      have hne := isLcs_of_not_sameLine hright hpos hi hadd.1 hj
        fun h => hsame ⟨hpos, hadd.1, h⟩
      rwa [Nat.max_eq_right hle, ← hrest.unique (hright i (j - 1) hi (by omega))] at hne
  | case3 i j hmore hsame hadd ih =>
    have hpos : 0 < i := by omega
    have hrest := ih (by omega) hj
    rw [List.countP_cons_of_neg (by simp [DiffOp.isEqual])]
    rcases Nat.eq_zero_or_pos j with rfl | hjpos
    · rw [List.take_zero] at hrest ⊢
      rw [hrest.unique (IsLcs.nil_right _)]
      exact IsLcs.nil_right _
    · have hle : lcs i (j - 1) ≤ lcs (i - 1) j := by omega
      have hne := isLcs_of_not_sameLine hright hpos hi hjpos hj fun h => hsame ⟨hpos, hjpos, h⟩
      rwa [Nat.max_eq_left hle, ← hrest.unique (hright (i - 1) j (by omega) hj)] at hne
  | case4 i j hstop =>
    obtain rfl : i = 0 := by omega
    exact IsLcs.nil_left _

end Walk

/-! ## The diff -/

section Readings

variable {ops : List DiffOp}

/-- Reading the left lines is reading the list before the script. -/
theorem filterMap_before (ops : List DiffOp) :
    (ops.map DiffOp.edit).filterMap Edit.before? = (ops.filterMap DiffOp.left?).map Prod.fst := by
  rw [List.filterMap_map, List.map_filterMap]
  refine List.filterMap_congr fun op _ => ?_
  cases op <;> rfl

/-- Reading the right lines is reading the list after the script. -/
theorem filterMap_after (hsame : ∀ op ∈ ops, op.Same) :
    (ops.map DiffOp.edit).filterMap Edit.after? = (ops.filterMap DiffOp.right?).map Prod.fst := by
  rw [List.filterMap_map, List.map_filterMap]
  refine List.filterMap_congr fun op hop => ?_
  have heq := hsame op hop
  cases op with
  | equal left right leftLine rightLine => exact congrArg some heq
  | removed left leftLine => rfl
  | added right rightLine => rfl

/-- The script keeps one line for each equal operation. -/
theorem length_kept (ops : List DiffOp) :
    ((ops.map DiffOp.edit).filterMap Edit.kept?).length = ops.countP DiffOp.isEqual := by
  rw [List.filterMap_map, List.length_filterMap_eq_countP]
  refine List.countP_congr fun op _ => ?_
  cases op <;> simp [DiffOp.edit, Edit.kept?, DiffOp.isEqual]

/-- Without changes both sides read the same. -/
theorem map_left_eq_right (hsame : ∀ op ∈ ops, op.Same) (hequal : ∀ op ∈ ops, op.isEqual = true) :
    (ops.filterMap DiffOp.left?).map Prod.fst = (ops.filterMap DiffOp.right?).map Prod.fst := by
  rw [List.map_filterMap, List.map_filterMap]
  refine List.filterMap_congr fun op hop => ?_
  have heq := hsame op hop
  have hkind := hequal op hop
  cases op with
  | equal left right leftLine rightLine => exact congrArg some heq
  | removed left leftLine => cases hkind
  | added right rightLine => cases hkind

end Readings

/-- A line diff: both texts are read off in order with their line numbers, what is equal has the
same text on both sides, and as many lines as possible are equal. -/
structure LineDiff (leftLines rightLines : List JSString) (ops : List DiffOp) : Prop where
  left : ops.filterMap DiffOp.left? = leftLines.zipIdx 1
  right : ops.filterMap DiffOp.right? = rightLines.zipIdx 1
  same : ∀ op ∈ ops, op.Same
  longest : IsLcs leftLines rightLines (ops.countP DiffOp.isEqual)

namespace LineDiff

variable {leftLines rightLines : List JSString} {ops : List DiffOp}

/-- The script makes the left lines into the right ones. -/
theorem script (h : LineDiff leftLines rightLines ops) :
    (ops.map DiffOp.edit).filterMap Edit.before? = leftLines ∧
      (ops.map DiffOp.edit).filterMap Edit.after? = rightLines := by
  rw [filterMap_before, filterMap_after h.same, h.left, h.right]
  exact ⟨List.zipIdx_map_fst _ _, List.zipIdx_map_fst _ _⟩

/-- No script has fewer steps or fewer changes. -/
theorem shortest (h : LineDiff leftLines rightLines ops) {es : List (Edit JSString)}
    (hbefore : es.filterMap Edit.before? = leftLines)
    (hafter : es.filterMap Edit.after? = rightLines) :
    ops.length ≤ es.length ∧ Edit.changes (ops.map DiffOp.edit) ≤ Edit.changes es := by
  have hlcs := h.longest
  rw [← length_kept] at hlcs
  have hlen := Edit.length_le_of_isLcs hlcs h.script.1 h.script.2 hbefore hafter
  rw [List.length_map] at hlen
  exact ⟨hlen, Edit.changes_le_of_isLcs hlcs h.script.1 h.script.2 hbefore hafter⟩

/-- Nothing is removed or added exactly when the lines are the same. -/
theorem forall_isEqual_iff (h : LineDiff leftLines rightLines ops) :
    (∀ op ∈ ops, op.isEqual = true) ↔ leftLines = rightLines := by
  constructor
  · intro hequal
    have hread := map_left_eq_right h.same hequal
    rwa [h.left, h.right, List.zipIdx_map_fst, List.zipIdx_map_fst] at hread
  · rintro rfl
    have hcount := h.longest.unique (IsLcs.self _)
    have hlen := Edit.length_add_kept (ops.map DiffOp.edit)
    rw [length_kept, List.length_map, h.script.1, h.script.2] at hlen
    exact List.countP_eq_length.mp (by omega)

end LineDiff

/-- `diffLines` makes a line diff of the lines of its arguments. -/
theorem lineDiff_diffLines (left right : JSString) :
    LineDiff (lines left) (lines right) (diffLines left right) where
  left := by rw [diffLines, left_walk le_rfl, List.take_length]
  right := by rw [diffLines, right_walk le_rfl, List.take_length]
  same op hop := same_walk op (List.mem_reverse.mp hop)
  longest := by
    have hwalk := isLcs_walk (fun i j hi hj => right_fillTable hi hj)
      (le_refl (lines left).length) (le_refl (lines right).length)
    rw [List.take_length, List.take_length] at hwalk
    rwa [diffLines, List.countP_reverse]

/-- The lines of a text determine it. -/
theorem lines_inj {left right : JSString} : lines left = lines right ↔ left = right := by
  refine ⟨fun h => ?_, congrArg lines⟩
  have hsplit (s : JSString) : [(byte '\n').toUInt16].intercalate (lines s) = s := by
    rw [lines]
    split_ifs with hs
    · rw [hs]
      rfl
    · exact List.intercalate_splitOn _
  rw [← hsplit left, h, hsplit]

/-- The diff reads both texts off line by line with their numbers, equal lines are the same on both
sides and as many as a longest common subsequence has, no edit script is shorter, and nothing is
added or removed exactly when the texts are equal. -/
theorem diffLines_minimal (left right : JSString) :
    LineDiff (lines left) (lines right) (diffLines left right) ∧
      (∀ es : List (Edit JSString), es.filterMap Edit.before? = lines left →
        es.filterMap Edit.after? = lines right → (diffLines left right).length ≤ es.length ∧
          Edit.changes ((diffLines left right).map DiffOp.edit) ≤ Edit.changes es) ∧
      ((∀ op ∈ diffLines left right, op.isEqual = true) ↔ left = right) := by
  have hdiff := lineDiff_diffLines left right
  exact ⟨hdiff, fun es => hdiff.shortest, hdiff.forall_isEqual_iff.trans lines_inj⟩

end Comax.Dashboard
