import Owl.Model.Lists.Slice
import Owl.Proofs.Lists.Lookup

/-! # Cutting trees

Both cuts replace one child on every level. What remains has the shape of the tree it was cut from; a cut on
the left leaves size tables whose last entry may be too large.
-/

namespace Owl.Lists

open Blocks
open Option (Yields)
open Node (toList Dense Shaped Totals WellFormed)

variable {α : Type} {height i k : ℕ} {node last : Node α} {child : List (Node α)} {table : List ℕ}
  {fits : ℕ → ℕ → Prop}

/-- A condition on the last entry of a size table under which lookup is right and that cuts keep. -/
structure Admissible (fits : ℕ → ℕ → Prop) : Prop where
  covers : ∀ {total entry}, fits total entry → total ≤ entry
  word : ∀ {total entry}, fits total entry → total < 2 ^ 32 → entry < 2 ^ 32
  exact : ∀ {total}, total < 2 ^ 32 → fits total total
  shrink : ∀ {total entry k}, fits (total + k) entry → fits total (entry - k)

/-- Every entry of a size table is exact. -/
def Exact (total entry : ℕ) : Prop := entry = total

/-- The last entry of a size table covers all children. -/
def Covers (total entry : ℕ) : Prop := total ≤ entry ∧ entry < 2 ^ 32

theorem exact_admissible : Admissible Exact where
  covers := fun same => same.ge
  word := fun same small => same.trans_lt small
  exact := fun _ => rfl
  shrink := fun same => by rw [Exact] at same ⊢; omega

theorem covers_admissible : Admissible Covers where
  covers := fun covers => covers.1
  word := fun covers _ => covers.2
  exact := fun small => ⟨le_rfl, small⟩
  shrink := fun covers => by rw [Covers] at covers ⊢; omega

theorem Node.Shaped.covers (admissible : Admissible fits) : ∀ {height} {node : Node α},
    node.Shaped fits height → node.size height < 2 ^ 32 → node.Shaped Covers height := by
  intro height
  induction height with
  | zero => exact fun shaped _ => shaped
  | succ height ih =>
    intro node shaped word
    rcases node with _ | _ | ⟨_ | table, child⟩
    · exact shaped.elim
    · exact shaped.elim
    · exact shaped
    · refine ⟨shaped.1, ?_, shaped.2.2.inner, ?_⟩
      · exact fun node member => ih (shaped.2.1 node member) ((Node.size_le_of_mem (some table) member).trans_lt word)
      · obtain ⟨entry, found, fit⟩ := shaped.2.2.last
        rw [← Node.before_size (some table)] at word
        exact ⟨entry, found, admissible.covers fit, admissible.word fit word⟩

theorem Node.Totals.length_le {fits : ℕ → ℕ → Prop} (totals : Totals fits height child table) :
    child.length ≤ table.length := by
  obtain ⟨entry, found, -⟩ := totals.last
  have := (List.getElem?_eq_some_iff.mp found).1
  omega

theorem Node.Totals.cut {fits fits' : ℕ → ℕ → Prop} (totals : Totals fits height child table)
    (inside : i < child.length) {entry : ℕ} (fit : fits' (before (toList height) child i + last.size height) entry) :
    Totals fits' height (child.take i ++ [last]) (table.take i ++ [entry]) := by
  have whole := totals.length_le
  have length : (child.take i ++ [last]).length = i + 1 := by simp; omega
  have tableLength : (table.take i).length = i := by simp; omega
  constructor
  · intro j inner
    rw [length] at inner
    rw [List.getElem?_append_left (by omega), List.getElem?_take, if_pos (by omega), totals.inner j (by omega),
      before_append (by simp; omega), before_take (by omega)]
  · refine ⟨entry, ?_, ?_⟩
    · rw [length, Nat.add_sub_cancel, List.getElem?_append_right (by omega), tableLength, Nat.sub_self]
      rfl
    · rw [length, before_replaced]
      exact fit

theorem Node.Dense.cut (dense : (Node.internal none child).Dense (height + 1)) (inside : i < child.length)
    (lastDense : last.Dense height) : (Node.internal none (child.take i ++ [last])).Dense (height + 1) := by
  have length : (child.take i ++ [last]).length = i + 1 := by simp; omega
  refine ⟨by rw [length]; have := dense.1; omega, ?_, ?_⟩
  · intro node member
    obtain member | member := List.mem_append.mp member
    · exact dense.2.1 node (List.mem_of_mem_take member)
    · rw [List.mem_singleton.mp member]
      exact lastDense
  · intro node member
    rw [List.dropLast_concat] at member
    apply dense.2.2 node
    rw [List.dropLast_eq_take]
    exact List.take_subset_take_left child (by omega) member

/-- A tree with the elements of a list; without size tables when the tree that it was cut from has none. -/
structure CutFrom (fits : ℕ → ℕ → Prop) (from' : Node α) (fromHeight : ℕ) (elements : List α) (height : ℕ)
    (node : Node α) : Prop where
  shaped : node.Shaped fits height
  dense : from'.Dense fromHeight → node.Dense height
  elements : node.toList height = elements

/-- The elements up to a position in a child. -/
private theorem toList_cut (sizeTable sizeTable' : Option (List ℕ)) (found : child[i]? = some node)
    (within : k < node.size height) (cut : last.toList height = (node.toList height).take (k + 1)) :
    (Node.internal sizeTable' (child.take i ++ [last])).toList (height + 1) =
      ((Node.internal sizeTable child).toList (height + 1)).take (before (toList height) child i + k + 1) := by
  have taken : (child.flatMap (toList height)).take (before (toList height) child i + (k + 1)) =
      (child.take i).flatMap (toList height) ++ (node.toList height).take (k + 1) := take_flatMap found within
  rw [toList, toList, Nat.add_assoc, taken, List.flatMap_append, List.flatMap_singleton, cut]

private theorem cut_size (within : k < node.size height) (cut : last.toList height = (node.toList height).take (k + 1)) :
    last.size height = k + 1 := by
  rw [Node.size, cut, List.length_take]
  exact Nat.min_eq_left within

theorem Node.Dense.member {sizeTable : Option (List ℕ)} (dense : (Node.internal sizeTable child).Dense (height + 1))
    (member : node ∈ child) : node.Dense height := by
  cases sizeTable with
  | none => exact dense.2.1 node member
  | some => exact dense.elim

section Right

variable {sizeTable : Option (List ℕ)} {lastHeight : ℕ} (found : child[i]? = some node)
  (within : k < node.size height)

include found within

/-- In the first slot the cut child stands for the whole. -/
private theorem cutFrom_first (first : i = 0)
    (cut : CutFrom fits node height ((node.toList height).take (k + 1)) lastHeight last) :
    CutFrom fits (.internal sizeTable child) (height + 1)
      (((Node.internal sizeTable child).toList (height + 1)).take (before (toList height) child i + k + 1))
      lastHeight last := by
  have taken : (child.flatMap (toList height)).take (before (toList height) child i + (k + 1)) =
      (child.take i).flatMap (toList height) ++ (node.toList height).take (k + 1) := take_flatMap found within
  refine ⟨cut.shaped, fun dense => cut.dense (dense.member (List.mem_of_getElem? found)), ?_⟩
  subst first
  rw [cut.elements, toList, Nat.add_assoc, taken]
  rfl

private theorem cutFrom_dense (dense : (Node.internal none child).Dense (height + 1))
    (cut : CutFrom fits node height ((node.toList height).take (k + 1)) height last) :
    CutFrom fits (.internal none child) (height + 1)
      (((Node.internal none child).toList (height + 1)).take (before (toList height) child i + k + 1))
      (height + 1) (.internal none (child.take i ++ [last])) := by
  have bound := (List.getElem?_eq_some_iff.mp found).1
  have remains := dense.cut bound (cut.dense (dense.2.1 node (List.mem_of_getElem? found)))
  exact ⟨remains.shaped, fun _ => remains, toList_cut none none found within cut.elements⟩

private theorem cutFrom_sized (admissible : Admissible fits)
    (shaped : (Node.internal (some table) child).Shaped fits (height + 1))
    (word : (Node.internal (some table) child).size (height + 1) < 2 ^ 32)
    (cut : CutFrom fits node height ((node.toList height).take (k + 1)) height last) :
    CutFrom fits (.internal (some table) child) (height + 1)
      (((Node.internal (some table) child).toList (height + 1)).take (before (toList height) child i + k + 1))
      (height + 1)
      (.internal (some (table.take i ++ [before (toList height) child i + k + 1])) (child.take i ++ [last])) := by
  have bound := (List.getElem?_eq_some_iff.mp found).1
  have total : before (toList height) child i + last.size height = before (toList height) child i + k + 1 := by
    rw [cut_size within cut.elements, Nat.add_assoc]
  have fit : fits (before (toList height) child i + last.size height) (before (toList height) child i + k + 1) := by
    have next : before (toList height) child (i + 1) = before (toList height) child i + node.size height :=
      before_succ found
    have le : before (toList height) child (i + 1) ≤ before (toList height) child child.length := before_mono bound
    rw [Node.before_size (some table)] at le
    rw [total]
    exact admissible.exact (by omega)
  refine ⟨⟨?_, ?_, shaped.2.2.cut bound fit⟩, fun impossible => impossible.elim,
    toList_cut (some table) _ found within cut.elements⟩
  · have slots := shaped.1
    simp only [List.length_append, List.length_take, List.length_singleton]
    omega
  · intro other member
    obtain member | member := List.mem_append.mp member
    · exact shaped.2.1 other (List.mem_of_mem_take member)
    · rw [List.mem_singleton.mp member]
      exact cut.shaped

end Right

/-- A tree cut behind an index; with something on the left of it the tree keeps its height. -/
private theorem sliceRightRec_yields (admissible : Admissible fits) : ∀ {height} {node : Node α}, height ≤ RRB_MAX_HEIGHT →
    node.Shaped fits height → node.size height < 2 ^ 32 → ∀ right hasLeft, right < node.size height →
      (sliceRightRec height node right hasLeft).Yields fun sliced =>
        CutFrom fits node height ((node.toList height).take (right + 1)) sliced.2 sliced.1 ∧
          sliced.2 ≤ height ∧ (hasLeft = true → sliced.2 = height) := by
  intro height
  induction height with
  | zero =>
    intro node _ shaped _ right hasLeft inside
    obtain ⟨child, rfl, slots⟩ := shaped.isLeaf
    have length : (child.take (right + 1)).length = right + 1 := by
      rw [List.length_take]
      exact Nat.min_eq_left inside
    have dense : (Node.leaf (child.take (right + 1))).Dense 0 := by
      change 1 ≤ (child.take (right + 1)).length ∧ _
      rw [length]
      change right < child.length at inside
      omega
    rw [sliceRightRec, leafNodeCreate, if_pos length]
    exact .some ⟨⟨dense.shaped, fun _ => dense, rfl⟩, le_rfl, fun _ => rfl⟩
  | succ height ih =>
    intro node low shaped word right hasLeft inside
    rcases node with _ | _ | ⟨_ | table, child⟩
    · exact shaped.elim
    · exact shaped.elim
    · have dense : (Node.internal none child).Dense (height + 1) := shaped
      obtain ⟨i, node, k, found, within, rfl⟩ := exists_block inside
      have member := List.mem_of_getElem? found
      have bound := (List.getElem?_eq_some_iff.mp found).1
      have unit : k < RRB_BRANCHING ^ (height + 1) := within.trans_le (dense.2.1 node member).size_le
      have digit : (i * RRB_BRANCHING ^ (height + 1) + k) / RRB_BRANCHING ^ (height + 1) = i := (digit_eq unit).1
      have start := dense.before_eq bound
      have small : node.size height ≤ (Node.internal none child).size (height + 1) := Node.size_le_of_mem none member
      rw [sliceRightRec, shr_eq low, start, digit]
      dsimp only [Option.bind_eq_bind, Option.bind_some]
      rw [shl_eq low, u32_of_lt (by omega)]
      dsimp only [Option.bind_some]
      rw [u32Sub_of_le (by omega) (by omega), Nat.add_sub_cancel_left, slot_eq found, ← start]
      refine .bind (ih (by omega) (dense.2.1 node member).shaped (by omega) k _ within) ?_
      rintro ⟨last, lastHeight⟩ ⟨cut, le, kept⟩
      dsimp only at cut le kept ⊢
      by_cases first : i = 0
      · cases hasLeft with
        | false =>
          rw [if_pos first, if_neg Bool.false_ne_true]
          exact .some ⟨cutFrom_first found within first cut, Nat.le_succ_of_le le, fun impossible => nomatch impossible⟩
        | true =>
          have same : lastHeight = height := kept (by simp)
          subst same
          have remains := cutFrom_dense found within dense cut
          rw [if_pos first, if_pos rfl]
          subst first
          exact .some ⟨remains, le_rfl, fun _ => rfl⟩
      · have same : lastHeight = height := kept (by simp [first])
        subst same
        rw [if_neg first]
        exact .some ⟨cutFrom_dense found within dense cut, le_rfl, fun _ => rfl⟩
    · obtain ⟨i, node, k, found, within, rfl⟩ := exists_block inside
      have member := List.mem_of_getElem? found
      have small : node.size height ≤ (Node.internal (some table) child).size (height + 1) :=
        Node.size_le_of_mem (some table) member
      have position := shaped.2.2.sizedPos low (fun _ _ => admissible.covers)
        (fun node member => (shaped.2.1 node member).size_le) found within
      rw [sliceRightRec, position]
      dsimp only [Option.bind_eq_bind, Option.bind_some]
      rw [slot_eq found]
      refine .bind (ih (by omega) (shaped.2.1 node member) (by omega) k _ within) ?_
      rintro ⟨last, lastHeight⟩ ⟨cut, le, kept⟩
      dsimp only at cut le kept ⊢
      rw [u32_of_lt (show before (toList height) child i + k + 1 < 2 ^ 32 by omega)]
      by_cases first : i = 0
      · cases hasLeft with
        | false =>
          rw [if_pos first, if_neg Bool.false_ne_true]
          exact .some ⟨cutFrom_first found within first cut, Nat.le_succ_of_le le, fun impossible => nomatch impossible⟩
        | true =>
          have same : lastHeight = height := kept (by simp)
          subst same
          have remains := cutFrom_sized found within admissible shaped word cut
          rw [if_pos first, if_pos rfl]
          subst first
          exact .some ⟨remains, le_rfl, fun _ => rfl⟩
      · have same : lastHeight = height := kept (by simp [first])
        subst same
        rw [if_neg first]
        exact .some ⟨cutFrom_sized found within admissible shaped word cut, le_rfl, fun _ => rfl⟩

/-- What remains of a tree without a leaf at its end, `NULL` when nothing does. -/
inductive Remains (fits : ℕ → ℕ → Prop) (height : ℕ) (node : Node α) (leaf : List α) : Node α → Prop
  | nothing (elements : node.toList height = leaf) : Remains fits height node leaf .null
  | tree {rest : Node α} (shaped : rest.Shaped fits height) (dense : node.Dense height → rest.Dense height)
      (elements : node.toList height = rest.toList height ++ leaf) : Remains fits height node leaf rest

theorem toList_last (sizeTable : Option (List ℕ)) (split : child = child.dropLast ++ [last]) :
    (Node.internal sizeTable child).toList (height + 1) =
      child.dropLast.flatMap (toList height) ++ last.toList height := by
  rw [toList]
  conv_lhs => rw [split]
  rw [List.flatMap_append, List.flatMap_singleton]

theorem Node.Dense.dropLast (dense : (Node.internal none child).Dense (height + 1)) (more : 2 ≤ child.length) :
    (Node.internal none child.dropLast).Dense (height + 1) := by
  refine ⟨?_, fun node member => dense.2.1 node (List.dropLast_subset _ member), ?_⟩
  · have := dense.1
    rw [List.length_dropLast]
    omega
  · exact fun node member => dense.2.2 node (List.dropLast_subset _ member)

theorem Node.Totals.dropLast (admissible : Admissible fits) (totals : Totals fits height child table)
    (word : before (toList height) child child.length < 2 ^ 32) (more : 2 ≤ child.length) :
    Totals fits height child.dropLast table := by
  have length : child.dropLast.length = child.length - 1 := List.length_dropLast
  have same (i : ℕ) (le : i ≤ child.length - 1) :
      before (toList height) child.dropLast i = before (toList height) child i := by
    rw [List.dropLast_eq_take, before_take le]
  constructor
  · intro i inner
    rw [same (i + 1) (by omega)]
    exact totals.inner i (by omega)
  · refine ⟨before (toList height) child (child.length - 1), ?_, ?_⟩
    · have entry := totals.inner (child.length - 2) (by omega)
      rwa [show child.length - 2 + 1 = child.length - 1 by omega,
        show child.length - 2 = child.dropLast.length - 1 by omega] at entry
    · rw [length, same _ le_rfl]
      have le : before (toList height) child (child.length - 1) ≤ before (toList height) child child.length :=
        before_mono (Nat.sub_le ..)
      exact admissible.exact (by omega)

theorem Node.Shaped.dropLast (admissible : Admissible fits) {sizeTable : Option (List ℕ)}
    (shaped : (Node.internal sizeTable child).Shaped fits (height + 1))
    (word : (Node.internal sizeTable child).size (height + 1) < 2 ^ 32) (more : 2 ≤ child.length) :
    (Node.internal sizeTable child.dropLast).Shaped fits (height + 1) := by
  cases sizeTable with
  | none => exact Node.Dense.shaped (Node.Dense.dropLast shaped more)
  | some table =>
    rw [← Node.before_size (some table)] at word
    refine ⟨?_, ?_, shaped.2.2.dropLast admissible word more⟩
    · have := shaped.1
      rw [List.length_dropLast]
      omega
    · exact fun node member => shaped.2.1 node (List.dropLast_subset _ member)

theorem Node.Shaped.present (shaped : node.Shaped fits height) : node ≠ .null := by
  rintro rfl
  cases height with
  | zero | succ => exact shaped.elim

section Detach

variable {leaf : List α} {rest : Node α}

private theorem shrunk_none (present : rest ≠ .null) (tailLen : ℕ) :
    shrunk none child tailLen rest = some (.internal none (child.dropLast ++ [rest])) := by
  cases rest with
  | null => exact absurd rfl present
  | leaf | internal => rfl

private theorem shrunk_some (present : rest ≠ .null) {entry : ℕ} (found : table[child.length - 1]? = some entry)
    (tailLen : ℕ) : shrunk (some table) child tailLen rest =
      some (.internal (some (table.take (child.length - 1) ++ [u32Sub entry tailLen])) (child.dropLast ++ [rest])) := by
  cases rest with
  | null => exact absurd rfl present
  | leaf | internal => simp only [shrunk, found]; rfl

private theorem shrunk_yields (admissible : Admissible fits) {sizeTable : Option (List ℕ)}
    (shaped : (Node.internal sizeTable child).Shaped fits (height + 1))
    (word : (Node.internal sizeTable child).size (height + 1) < 2 ^ 32) (split : child = child.dropLast ++ [last])
    (remains : Remains fits height last leaf rest) :
    (shrunk sizeTable child leaf.length rest).Yields (Remains fits (height + 1) (.internal sizeTable child) leaf) := by
  have slots := shaped.slots
  have bound : child.length - 1 < child.length := by omega
  have whole : (Node.internal sizeTable child).toList (height + 1) = _ := toList_last sizeTable split
  obtain ⟨elements⟩ | ⟨restShaped, restDense, elements⟩ := remains
  · rw [elements] at whole
    by_cases single : child.length = 1
    · have front : child.dropLast = [] := by
        apply List.eq_nil_of_length_eq_zero
        rw [List.length_dropLast, single]
      rw [front] at whole
      rw [shrunk, if_pos single]
      exact .some (.nothing whole)
    · rw [shrunk, if_neg single]
      refine .some (.tree (shaped.dropLast admissible word (by omega)) ?_ whole)
      intro dense
      cases sizeTable with
      | none => exact Node.Dense.dropLast dense (by omega)
      | some => exact dense.elim
  · have present := restShaped.present
    cases sizeTable with
    | none =>
      have dense : (Node.internal none child).Dense (height + 1) := shaped
      have member : last ∈ child := by
        rw [split]
        exact List.mem_append_right _ List.mem_cons_self
      have cut := dense.cut bound (restDense (dense.member member))
      rw [← List.dropLast_eq_take] at cut
      rw [shrunk_none present]
      refine .some (.tree cut.shaped (fun _ => cut) ?_)
      rw [whole, elements, toList, List.flatMap_append, List.flatMap_singleton, List.append_assoc]
    | some table =>
      obtain ⟨entry, found, fit⟩ := shaped.2.2.last
      have lastFound : child[child.length - 1]? = some last := by
        conv_lhs => rw [split]
        rw [List.getElem?_append_right (by simp)]
        simp
      have next : before (toList height) child (child.length - 1 + 1) =
          before (toList height) child (child.length - 1) + (last.toList height).length := before_succ lastFound
      rw [Nat.sub_add_cancel slots.1, elements, List.length_append] at next
      have below := admissible.word fit (by rwa [Node.before_size (some table)])
      have covered := admissible.covers fit
      rw [next, ← Nat.add_assoc] at fit
      have cut := shaped.2.2.cut bound (admissible.shrink fit)
      rw [← u32Sub_of_le (by omega) below, ← List.dropLast_eq_take] at cut
      rw [shrunk_some present found]
      refine .some (.tree ⟨?_, ?_, cut⟩ (fun impossible => impossible.elim) ?_)
      · simp only [List.length_append, List.length_dropLast, List.length_singleton]
        omega
      · intro other member
        obtain member | member := List.mem_append.mp member
        · exact shaped.2.1 other (List.dropLast_subset _ member)
        · rw [List.mem_singleton.mp member]
          exact restShaped
      · rw [whole, elements, toList, List.flatMap_append, List.flatMap_singleton, List.append_assoc]

/-- The rightmost leaf of a tree. -/
structure Detached (fits : ℕ → ℕ → Prop) (height : ℕ) (node : Node α) (leaf : List α)
    (detached : Node α × Node α) : Prop where
  content : detached.1 = .leaf leaf
  slots : 1 ≤ leaf.length ∧ leaf.length ≤ RRB_BRANCHING
  remains : Remains fits height node leaf detached.2

theorem Node.Shaped.exists_last {sizeTable : Option (List ℕ)}
    (shaped : (Node.internal sizeTable child).Shaped fits (height + 1)) :
    ∃ last, child = child.dropLast ++ [last] ∧ slot child (child.length - 1) = last ∧ last ∈ child := by
  have slots := shaped.slots
  have bound : child.length - 1 < child.length := by omega
  have found := List.getElem?_eq_getElem bound
  refine ⟨child[child.length - 1], ?_, slot_eq found, List.getElem_mem bound⟩
  rw [List.dropLast_eq_take, ← take_succ found, Nat.sub_add_cancel slots.1, List.take_length]

private theorem detachRight_yields (admissible : Admissible fits) : ∀ {height} {node : Node α}, node.Shaped fits height →
    node.size height < 2 ^ 32 → (detachRight height node).Yields fun detached =>
      ∃ leaf, Detached fits height node leaf detached := by
  intro height
  induction height with
  | zero =>
    intro node shaped _
    obtain ⟨child, rfl, slots⟩ := shaped.isLeaf
    exact .some ⟨child, rfl, slots, .nothing rfl⟩
  | succ height ih =>
    intro node shaped word
    obtain ⟨sizeTable, child, rfl, _, below⟩ := shaped.isInternal
    obtain ⟨last, split, found, member⟩ := shaped.exists_last
    have small : last.size height < 2 ^ 32 := (Node.size_le_of_mem sizeTable member).trans_lt word
    rw [detachRight, found]
    refine .bind (ih (below last member) small) ?_
    rintro ⟨_, rest⟩ ⟨leaf, rfl, slots, remains⟩
    change Yields (shrunk sizeTable child leaf.length rest >>= _) _
    refine .bind (shrunk_yields admissible shaped word split remains) ?_
    exact fun rest remains => .some ⟨leaf, rfl, slots, remains⟩

end Detach

/-- A list with these elements in its tree and in its tail. -/
structure Rrb.Contains (fits : ℕ → ℕ → Prop) (rrb : Rrb α) (inTree inTail : List α) : Prop where
  tail : rrb.tail = .leaf inTail
  tailLen : rrb.tailLen = inTail.length
  cnt : rrb.cnt = inTree.length + inTail.length
  slots : inTail.length ≤ RRB_BRANCHING
  word : rrb.cnt < 2 ^ 32
  low : rrb.height ≤ RRB_MAX_HEIGHT
  tree : (inTree = [] ∧ rrb.root = .null) ∨
    (rrb.root.Shaped fits rrb.height ∧ rrb.root.toList rrb.height = inTree)

variable {rrb : Rrb α} {inTree inTail : List α}

/-- What remains of a tree, with the leaf as tail. -/
theorem Remains.contains {leaf : List α} {rest : Node α} (remains : Remains fits height node leaf rest)
    (slots : 1 ≤ leaf.length ∧ leaf.length ≤ RRB_BRANCHING) (low : height ≤ RRB_MAX_HEIGHT)
    (word : node.size height < 2 ^ 32) :
    ∃ inTree inTail, Rrb.Contains fits ⟨node.size height, height, leaf.length, .leaf leaf, rest⟩ inTree inTail ∧
      inTail ≠ [] ∧ inTree ++ inTail = node.toList height := by
  have filled : leaf ≠ [] := List.ne_nil_of_length_pos slots.1
  obtain ⟨elements⟩ | ⟨shaped, _, elements⟩ := remains
  · refine ⟨[], leaf, ⟨rfl, rfl, ?_, slots.2, word, low, .inl ⟨rfl, rfl⟩⟩, filled, elements.symm⟩
    rw [Node.size, elements, List.length_nil, Nat.zero_add]
  · refine ⟨_, leaf, ⟨rfl, rfl, ?_, slots.2, word, low, .inr ⟨shaped, rfl⟩⟩, filled, elements.symm⟩
    rw [Node.size, elements, List.length_append]

/-- The rightmost leaf of a tree becomes the tail. -/
theorem promoteRightmostLeaf_yields (admissible : Admissible fits) (low : rrb.height ≤ RRB_MAX_HEIGHT)
    (shaped : rrb.root.Shaped fits rrb.height) (cnt : rrb.cnt = rrb.root.size rrb.height) (word : rrb.cnt < 2 ^ 32) :
    (promoteRightmostLeaf rrb).Yields fun rrb' => ∃ inTree inTail, rrb'.Contains fits inTree inTail ∧
      inTail ≠ [] ∧ inTree ++ inTail = rrb.root.toList rrb.height := by
  obtain ⟨count, height, tailLen, tail, root⟩ := rrb
  dsimp only at low shaped cnt word ⊢
  subst cnt
  rw [promoteRightmostLeaf, if_neg (Nat.not_lt_of_le low)]
  cases height with
  | zero =>
    obtain ⟨child, rfl, slots⟩ := shaped.isLeaf
    exact .some ((Remains.nothing rfl).contains slots low word)
  | succ height =>
    obtain ⟨sizeTable, child, rfl, _, below⟩ := shaped.isInternal
    obtain ⟨last, split, found, member⟩ := shaped.exists_last
    have small : last.size height < 2 ^ 32 := (Node.size_le_of_mem sizeTable member).trans_lt word
    dsimp only
    rw [found]
    refine .bind (detachRight_yields admissible (below last member) small) ?_
    rintro ⟨_, rest⟩ ⟨leaf, rfl, slots, remains⟩
    have shrinks := shrunk_yields admissible shaped word split remains
    refine .bind (show ((Node.leaf leaf).len).Yields (· = leaf.length) from .some rfl) ?_
    rintro _ rfl
    cases rest with
    | leaf | internal => exact .bind shrinks fun root remains => .some (remains.contains slots low word)
    | null =>
      rcases child with _ | ⟨first, _ | ⟨second, _ | ⟨third, more⟩⟩⟩
      · exact nomatch member
      · exact .bind shrinks fun root remains => .some (remains.contains slots low word)
      · -- the root had one child besides the leaf's
        have whole : (Node.internal sizeTable [first, second]).toList (height + 1) = _ := toList_last sizeTable split
        obtain elements : last.toList height = leaf := by
          cases remains with
          | nothing elements => exact elements
          | tree shaped => exact absurd rfl shaped.present
        have filled : leaf ≠ [] := List.ne_nil_of_length_pos slots.1
        have contents : (Node.internal sizeTable [first, second]).toList (height + 1) = first.toList height ++ leaf := by
          rw [whole, elements]
          simp
        refine .some ⟨first.toList height, leaf, ⟨rfl, rfl, ?_, slots.2, word, ?_, .inr ⟨?_, rfl⟩⟩, filled, contents.symm⟩
        · exact (congrArg List.length contents).trans List.length_append
        · exact Nat.le_of_succ_le low
        · exact below first List.mem_cons_self
      · exact .bind shrinks fun root remains => .some (remains.contains slots low word)

/-- A right slice keeps the elements in front of an index, and a tail with elements. -/
theorem sliceRight_yields (admissible : Admissible fits) (contains : rrb.Contains fits inTree inTail) {right : ℕ}
    (positive : right ≠ 0) : (sliceRight rrb right).Yields fun rrb' => ∃ inTree' inTail',
      rrb'.Contains fits inTree' inTail' ∧ (inTail ≠ [] → inTail' ≠ []) ∧
        inTree' ++ inTail' = (inTree ++ inTail).take right := by
  have cnt := contains.cnt
  have word := contains.word
  have offset : u32Sub rrb.cnt rrb.tailLen = inTree.length := by
    rw [contains.tailLen, u32Sub_of_le (by omega) word]
    omega
  rw [sliceRight, if_neg positive]
  by_cases inside : right < rrb.cnt
  · rw [if_pos inside, offset]
    by_cases short : inTree.length < right
    · -- the cut is in the tail
      have length : (inTail.take (right - inTree.length)).length = right - inTree.length := by
        rw [List.length_take]
        omega
      rw [if_pos short, contains.tail]
      change Yields (leafNodeCreate (right - inTree.length) (inTail.take (right - inTree.length)) >>= _) _
      rw [leafNodeCreate, if_pos length]
      refine .some ⟨inTree, inTail.take (right - inTree.length), ?_, ?_, ?_⟩
      · refine { contains with tail := rfl, tailLen := length.symm, cnt := ?_, slots := ?_, word := ?_ }
        · rw [length]
          dsimp only
          omega
        · have := contains.slots
          rw [length]
          omega
        · dsimp only
          omega
      · exact fun _ => List.ne_nil_of_length_pos (by omega)
      · rw [List.take_append, List.take_of_length_le short.le]
    · rw [if_neg short]
      obtain ⟨rfl, _⟩ | ⟨shaped, elements⟩ := contains.tree
      · exact absurd (Nat.pos_of_ne_zero positive) short
      · have size : rrb.root.size rrb.height = inTree.length := by rw [Node.size, elements]
        refine .bind (sliceRightRec_yields admissible contains.low shaped (by omega) (right - 1) false (by omega)) ?_
        rintro ⟨root, height⟩ ⟨cut, le, -⟩
        dsimp only at cut le ⊢
        rw [Nat.sub_add_cancel (Nat.pos_of_ne_zero positive), elements] at cut
        have length : root.size height = right := by
          rw [Node.size, cut.elements, List.length_take]
          omega
        have small : right < 2 ^ 32 := inside.trans word
        refine .mono (promoteRightmostLeaf_yields admissible (le.trans contains.low) cut.shaped length.symm small) ?_
        rintro rrb' ⟨inTree', inTail', contains', filled, same⟩
        refine ⟨inTree', inTail', contains', fun _ => filled, ?_⟩
        rw [same, cut.elements, List.take_append_of_le_length (by omega)]
  · rw [if_neg inside]
    refine .some ⟨inTree, inTail, contains, id, ?_⟩
    rw [List.take_of_length_le]
    rw [List.length_append]
    omega

end Owl.Lists
