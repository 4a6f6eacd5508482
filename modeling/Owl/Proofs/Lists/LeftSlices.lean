import Owl.Proofs.Lists.Cutting

/-! # Cutting trees on the left

The totals of the slots that stay are reduced by the number of elements that are cut off. A node without a
size table gets one, whose last entry counts a full last child.
-/

namespace Owl.Lists

open Blocks
open Option (Yields)
open Node (toList Dense Shaped Totals)

variable {α : Type} {height i k left : ℕ} {node sliced : Node α} {child : List (Node α)} {table : List ℕ}
  {sizeTable : Option (List ℕ)}

private theorem leftPos_eq (low : height < RRB_MAX_HEIGHT)
    (shaped : (Node.internal sizeTable child).Shaped Covers (height + 1))
    (word : (Node.internal sizeTable child).size (height + 1) < 2 ^ 32) (found : child[i]? = some node)
    (within : k < node.size height) :
    sliceLeftRec.leftPos sizeTable (before (toList height) child i + k) (height + 1) = some (i, k) := by
  have member := List.mem_of_getElem? found
  have bound := (List.getElem?_eq_some_iff.mp found).1
  cases sizeTable with
  | none =>
    have dense : (Node.internal none child).Dense (height + 1) := shaped
    have unit : k < RRB_BRANCHING ^ (height + 1) := within.trans_le (dense.2.1 node member).size_le
    have next : before (toList height) child (i + 1) = before (toList height) child i + node.size height :=
      before_succ found
    have le : before (toList height) child (i + 1) ≤ before (toList height) child child.length := before_mono bound
    rw [Node.before_size none] at le
    rw [sliceLeftRec.leftPos, shr_eq (show height + 1 ≤ RRB_MAX_HEIGHT from low), dense.before_eq bound,
      (digit_eq unit).1]
    dsimp only [Option.bind_eq_bind, Option.bind_some]
    rw [shl_eq (show height + 1 ≤ RRB_MAX_HEIGHT from low), ← dense.before_eq bound, u32_of_lt (by omega)]
    dsimp only [Option.bind_some]
    rw [u32Sub_of_le (by omega) (by omega), Nat.add_sub_cancel_left]
    rfl
  | some table =>
    exact shaped.2.2.sizedPos low (fun _ _ => covers_admissible.covers)
      (fun node member => (shaped.2.1 node member).size_le) found within

/-- The size table above one sliced child. -/
private theorem aboveTable_yields (shaped : sliced.Shaped Covers height) :
    (sliceLeftRec.aboveTable height sliced).Yields fun table =>
      (Node.internal table [sliced]).Shaped Covers (height + 1) := by
  cases height with
  | zero => exact .some (dense_above shaped).shaped
  | succ height =>
    rcases sliced with _ | _ | ⟨_ | table, child⟩
    · exact shaped.elim
    · exact shaped.elim
    · exact .some (dense_above shaped).shaped
    · obtain ⟨entry, found, fit⟩ := shaped.2.2.last
      rw [sliceLeftRec.aboveTable, found]
      refine .some ⟨show 1 ≤ 1 ∧ 1 ≤ RRB_BRANCHING by decide, ?_, ?_, entry, rfl, ?_⟩
      · intro other member
        rw [List.mem_singleton.mp member]
        exact shaped
      · exact fun i inner => absurd inner (by simp)
      · rw [Node.before_size (some table)] at fit
        rw [Node.before_size (none : Option (List ℕ)), Node.size, toList, List.flatMap_singleton]
        exact fit

/-- The totals of the slots that stay. -/
private theorem totals_sliced (found : child[i]? = some node) (within : k < node.size height)
    (cut : sliced.toList height = (node.toList height).drop k)
    (word : before (toList height) child child.length < 2 ^ 32)
    (inner : ∀ j, i + j + 1 < child.length → table[j]? = some (before (toList height) child (i + j + 1)))
    (last : ∃ entry, table[child.length - 1 - i]? = some entry ∧
      Covers (before (toList height) child child.length - (before (toList height) child i + k))
        (u32Sub entry (before (toList height) child i + k))) :
    Totals Covers height (sliced :: child.drop (i + 1))
      (table.map (u32Sub · (before (toList height) child i + k))) := by
  have bound := (List.getElem?_eq_some_iff.mp found).1
  have rest : (sliced.toList height).length + k = (node.toList height).length := by
    rw [cut, List.length_drop]
    exact Nat.sub_add_cancel within.le
  have length : (sliced :: child.drop (i + 1)).length = child.length - i := by
    rw [List.length_cons, List.length_drop]
    omega
  have total (j : ℕ) : before (toList height) (sliced :: child.drop (i + 1)) (j + 1) +
      (before (toList height) child i + k) = before (toList height) child (i + j + 1) := by
    rw [before_cut found rest, Nat.add_right_comm]
  constructor
  · intro j inside
    have le : before (toList height) child (i + j + 1) ≤ before (toList height) child child.length :=
      before_mono (by omega)
    have := total j
    rw [List.getElem?_map, inner j (by omega), Option.map_some, u32Sub_of_le (by omega) (by omega)]
    congr 1
    omega
  · obtain ⟨entry, entryFound, covers⟩ := last
    refine ⟨u32Sub entry (before (toList height) child i + k), ?_, ?_⟩
    · rw [length, List.getElem?_map, Nat.sub_right_comm, entryFound, Option.map_some]
    · have := total (child.length - 1 - i)
      rw [show i + (child.length - 1 - i) + 1 = child.length by omega] at this
      rw [length, show child.length - i = child.length - 1 - i + 1 by omega]
      rwa [← this, Nat.add_sub_cancel] at covers

/-- The entry behind a full last child, as a word, less what is cut off. -/
private theorem u32Sub_word {total : ℕ} (fits : total ≤ 2 ^ 32) (le : left ≤ total) (positive : total < 2 ^ 32 ∨ 0 < left) :
    u32Sub (u32 total) left = total - left := by
  rw [u32Sub, u32, u32]
  omega

/-- A full last child ends within a word. -/
private theorem full_le_word (low : height < RRB_MAX_HEIGHT) {len : ℕ} (slots : 1 ≤ len ∧ len ≤ RRB_BRANCHING)
    (word : (len - 1) * RRB_BRANCHING ^ (height + 1) < 2 ^ 32) :
    len * RRB_BRANCHING ^ (height + 1) ≤ 2 ^ 32 ∧
      (height + 1 < RRB_MAX_HEIGHT → len * RRB_BRANCHING ^ (height + 1) < 2 ^ 32) := by
  constructor
  · have unit : RRB_BRANCHING ^ (height + 1) ∣ 2 ^ 32 :=
      (Nat.pow_dvd_pow RRB_BRANCHING (show height + 1 ≤ RRB_MAX_HEIGHT from low)).trans (by decide)
    obtain ⟨units, same⟩ := unit
    rw [same, Nat.mul_comm] at word
    have le : len ≤ units := by
      have := Nat.lt_of_mul_lt_mul_left word
      omega
    rw [same, Nat.mul_comm]
    exact Nat.mul_le_mul_left _ le
  · intro lower
    calc len * RRB_BRANCHING ^ (height + 1) ≤ RRB_BRANCHING * RRB_BRANCHING ^ (height + 1) :=
          Nat.mul_le_mul_right _ slots.2
      _ = RRB_BRANCHING ^ (height + 1 + 1) := (Nat.pow_succ').symm
      _ < 2 ^ 32 := branching_pow_lt lower

private theorem slicedTable_yields (low : height < RRB_MAX_HEIGHT)
    (shaped : (Node.internal sizeTable child).Shaped Covers (height + 1))
    (word : (Node.internal sizeTable child).size (height + 1) < 2 ^ 32) (found : child[i]? = some node)
    (within : k < node.size height) (cut : sliced.toList height = (node.toList height).drop k)
    (positive : 0 < before (toList height) child i + k ∨ height + 1 < RRB_MAX_HEIGHT) :
    (sliceLeftRec.slicedTable sizeTable i child.length (height + 1)).Yields fun table =>
      Totals Covers height (sliced :: child.drop (i + 1))
        (table.map (u32Sub · (before (toList height) child i + k))) := by
  have bound := (List.getElem?_eq_some_iff.mp found).1
  have slots := shaped.slots
  have next : before (toList height) child (i + 1) = before (toList height) child i + node.size height :=
    before_succ found
  have le : before (toList height) child (i + 1) ≤ before (toList height) child child.length := before_mono bound
  rw [← Node.before_size sizeTable] at word
  cases sizeTable with
  | none =>
    have dense : (Node.internal none child).Dense (height + 1) := shaped
    have shifted : sliceLeftRec.slicedTable none i child.length (height + 1) =
        some ((List.range (child.length - i)).map fun j => u32 ((i + 1 + j) * RRB_BRANCHING ^ (height + 1))) := by
      rw [sliceLeftRec.slicedTable]
      simp only [shl_eq (show height + 1 ≤ RRB_MAX_HEIGHT from low)]
      exact List.mapM_pure ..
    rw [shifted]
    refine .some (totals_sliced found within cut word ?_ ?_)
    · intro j inner
      have total := dense.before_eq inner
      have le : before (toList height) child (i + j + 1) ≤ before (toList height) child child.length :=
        before_mono inner.le
      rw [List.getElem?_map, List.getElem?_range (by omega), Option.map_some, Nat.add_right_comm, ← total,
        u32_of_lt (by omega)]
    · have start := dense.before_eq (show child.length - 1 < child.length by omega)
      have front : before (toList height) child (child.length - 1) ≤ before (toList height) child child.length :=
        before_mono (Nat.sub_le ..)
      have whole := before_le_mul (fun node member => (dense.2.1 node member).size_le) child.length
      obtain ⟨fits, lower⟩ := full_le_word low slots (by omega)
      refine ⟨u32 (child.length * RRB_BRANCHING ^ (height + 1)), ?_, ?_⟩
      · rw [List.getElem?_map, List.getElem?_range (by omega), Option.map_some,
          show i + 1 + (child.length - 1 - i) = child.length by omega]
      · have room : child.length * RRB_BRANCHING ^ (height + 1) < 2 ^ 32 ∨
            0 < before (toList height) child i + k := positive.symm.imp_left lower
        rw [u32Sub_word fits (by omega) room, Covers]
        omega
  | some table =>
    refine .some (totals_sliced found within cut word ?_ ?_)
    · intro j inner
      rw [List.getElem?_take, if_pos (by omega), List.getElem?_drop]
      exact shaped.2.2.inner (i + j) inner
    · obtain ⟨entry, entryFound, covers⟩ := shaped.2.2.last
      refine ⟨entry, ?_, ?_⟩
      · rw [List.getElem?_take, if_pos (by omega), List.getElem?_drop,
          show i + (child.length - 1 - i) = child.length - 1 by omega, entryFound]
      · have := covers.1
        have := covers.2
        rw [u32Sub_of_le (by omega) (by omega), Covers]
        omega

/-- A tree cut in front of an index; with something on the right of it the tree keeps its height. -/
private theorem sliceLeftRec_yields : ∀ {height} {node : Node α}, height ≤ RRB_MAX_HEIGHT → node.Shaped Covers height →
    node.size height < 2 ^ 32 → ∀ left hasRight, left < node.size height → 0 < left ∨ height < RRB_MAX_HEIGHT →
      (sliceLeftRec height node left hasRight).Yields fun sliced =>
        sliced.1.Shaped Covers sliced.2 ∧ sliced.1.toList sliced.2 = (node.toList height).drop left ∧
          sliced.2 ≤ height ∧ (hasRight = true → sliced.2 = height) := by
  intro height
  induction height with
  | zero =>
    intro node _ shaped _ left hasRight inside _
    obtain ⟨child, rfl, slots⟩ := shaped.isLeaf
    have bound : left < child.length := inside
    have rest : (Node.leaf (child.drop left)).Shaped Covers 0 := by
      change 1 ≤ (child.drop left).length ∧ (child.drop left).length ≤ RRB_BRANCHING
      rw [List.length_drop]
      omega
    rw [sliceLeftRec, if_pos bound.le]
    exact .some ⟨rest, rfl, le_rfl, fun _ => rfl⟩
  | succ height ih =>
    intro node low shaped word left hasRight inside positive
    obtain ⟨sizeTable, child, rfl, slots, below⟩ := shaped.isInternal
    obtain ⟨i, node, k, found, within, rfl⟩ := exists_block inside
    have member := List.mem_of_getElem? found
    have bound := (List.getElem?_eq_some_iff.mp found).1
    have small : node.size height < 2 ^ 32 := (Node.size_le_of_mem sizeTable member).trans_lt word
    have dropped : ((Node.internal sizeTable child).toList (height + 1)).drop (before (toList height) child i + k) =
        (node.toList height).drop k ++ (child.drop (i + 1)).flatMap (toList height) :=
      drop_flatMap found (show k ≤ (node.toList height).length from within.le)
    rw [sliceLeftRec, leftPos_eq low shaped word found within]
    dsimp only [Option.bind_eq_bind, Option.bind_some]
    rw [slot_eq found]
    refine .bind (ih (Nat.le_of_succ_le low) (below node member) small k _ within (.inr low)) ?_
    rintro ⟨sliced, slicedHeight⟩ ⟨slicedShaped, cut, le, kept⟩
    dsimp only at slicedShaped cut le kept ⊢
    by_cases last : i = child.length - 1
    · have nothing : child.drop (i + 1) = [] := List.drop_eq_nil_of_le (by omega)
      rw [nothing, List.flatMap_nil, List.append_nil] at dropped
      rw [if_pos last]
      cases hasRight with
      | false => exact .some ⟨slicedShaped, cut.trans dropped.symm, Nat.le_succ_of_le le, fun impossible =>
          nomatch impossible⟩
      | true =>
        have same : slicedHeight = height := kept (by simp)
        subst same
        rw [if_pos rfl]
        refine .bind (aboveTable_yields slicedShaped) ?_
        intro table tableShaped
        refine .some ⟨tableShaped, ?_, le_rfl, fun _ => rfl⟩
        rw [toList, List.flatMap_singleton, cut, dropped]
    · have same : slicedHeight = height := kept (by simp [last])
      subst same
      rw [if_neg last]
      refine .bind (slicedTable_yields low shaped word found within cut positive) ?_
      intro table totals
      refine .some ⟨⟨?_, ?_, totals⟩, ?_, le_rfl, fun _ => rfl⟩
      · rw [List.length_cons, List.length_drop]
        omega
      · intro other member
        obtain rfl | member := List.mem_cons.mp member
        · exact slicedShaped
        · exact below other (List.mem_of_mem_drop member)
      · rw [toList, List.flatMap_cons, cut, dropped]

/-- The exact size of the root, where it has a size table. -/
private theorem setLastSize_shaped {size : ℕ} (shaped : node.Shaped Covers height) (exact : node.size height = size)
    (word : size < 2 ^ 32) :
    (setLastSize size node).Shaped Covers height ∧ (setLastSize size node).toList height = node.toList height := by
  rcases node with _ | _ | ⟨_ | table, child⟩
  · exact ⟨shaped, rfl⟩
  · exact ⟨shaped, rfl⟩
  · exact ⟨shaped, rfl⟩
  · cases height with
    | zero => exact shaped.elim
    | succ height =>
      refine ⟨⟨shaped.1, shaped.2.1, ?_, size, ?_, ?_⟩, rfl⟩
      · intro i inner
        rw [List.getElem?_set_ne (by omega)]
        exact shaped.2.2.inner i inner
      · have := shaped.2.2.length_le
        have := shaped.1
        rw [List.getElem?_set_self (by omega)]
      · rw [Node.before_size (some table), exact]
        exact ⟨le_rfl, word⟩

variable {rrb : Rrb α} {inTree inTail : List α}

/-- The refilled root holds the same elements, and the tail keeps some. -/
private theorem fillRootLeaf_yields (contains : rrb.Contains Covers inTree inTail) :
    (fillRootLeaf rrb).Yields fun rrb' => ∃ inTree' inTail', rrb'.Contains Covers inTree' inTail' ∧
      (inTail ≠ [] → inTail' ≠ []) ∧ inTree' ++ inTail' = inTree ++ inTail := by
  have tree := contains.tree
  have cnt := contains.cnt
  obtain ⟨count, height, tailLen, tail, root⟩ := rrb
  obtain rfl : tail = .leaf inTail := contains.tail
  obtain rfl : tailLen = inTail.length := contains.tailLen
  have keeps : ∃ inTree' inTail', Rrb.Contains Covers ⟨count, height, inTail.length, .leaf inTail, root⟩ inTree' inTail' ∧
      (inTail ≠ [] → inTail' ≠ []) ∧ inTree' ++ inTail' = inTree ++ inTail := ⟨inTree, inTail, contains, id, rfl⟩
  dsimp only at tree cnt
  obtain ⟨_, rfl⟩ | ⟨shaped, elements⟩ := tree
  · cases height with
    | zero | succ => exact .some keeps
  · cases height with
    | succ height =>
      obtain ⟨_, _, rfl, _⟩ := shaped.isInternal
      exact .some keeps
    | zero =>
      obtain ⟨child, rfl, slots⟩ := shaped.isLeaf
      obtain rfl : child = inTree := elements
      have word : count < 2 ^ 32 := contains.word
      have offset : u32Sub count inTail.length = child.length := by
        rw [u32Sub_of_le (by omega) word]
        omega
      simp only [fillRootLeaf, Node.elements, Option.bind_eq_bind, Option.bind_some]
      by_cases short : count ≤ RRB_BRANCHING
      · -- everything fits the tail
        have length : (child ++ inTail.take inTail.length).length = count := by
          rw [List.take_length, List.length_append, cnt]
        rw [if_pos short, leafNodeCreate, if_pos length, List.take_length]
        refine .some ⟨[], child ++ inTail, ⟨rfl, ?_, ?_, ?_, word, contains.low, .inl ⟨rfl, rfl⟩⟩,
          fun filled => by simp [filled], rfl⟩
        · rw [List.length_append, cnt]
        · rw [List.length_append, List.length_nil, Nat.zero_add]
          exact cnt
        · rw [List.length_append, ← cnt]
          exact short
      · rw [if_neg short, offset]
        by_cases fills : child.length < RRB_BRANCHING
        · have room := contains.slots
          have rootLength : (child ++ inTail.take (RRB_BRANCHING - child.length)).length = RRB_BRANCHING := by
            rw [List.length_append, List.length_take]
            omega
          have tailLength : ((inTail.drop (RRB_BRANCHING - child.length)).take
              (inTail.length - (RRB_BRANCHING - child.length))).length =
              inTail.length - (RRB_BRANCHING - child.length) := by
            rw [List.length_take, List.length_drop]
            exact Nat.min_self _
          have whole : (inTail.drop (RRB_BRANCHING - child.length)).take
              (inTail.length - (RRB_BRANCHING - child.length)) = inTail.drop (RRB_BRANCHING - child.length) := by
            apply List.take_of_length_le
            rw [List.length_drop]
          rw [if_pos fills, leafNodeCreate, if_pos rootLength, Option.bind_some]
          rw [leafNodeCreate, if_pos tailLength, whole]
          refine .some ⟨child ++ inTail.take (RRB_BRANCHING - child.length),
            inTail.drop (RRB_BRANCHING - child.length), ⟨rfl, ?_, ?_, ?_, word, contains.low, .inr ⟨?_, rfl⟩⟩, ?_, ?_⟩
          · rw [List.length_drop]
          · rw [rootLength, List.length_drop]
            dsimp only
            omega
          · rw [List.length_drop]
            omega
          · change 1 ≤ _ ∧ _ ≤ RRB_BRANCHING
            rw [rootLength]
            decide
          · exact fun _ => List.ne_nil_of_length_pos (by rw [List.length_drop]; omega)
          · rw [List.append_assoc, List.take_append_drop]
        · rw [if_neg fills]
          exact .some keeps

/-- A left slice keeps the elements from an index on, and a tail with elements. -/
theorem sliceLeft_yields (contains : rrb.Contains Covers inTree inTail) {left : ℕ} (inside : left < rrb.cnt) :
    (sliceLeft rrb left).Yields fun rrb' => ∃ inTree' inTail', rrb'.Contains Covers inTree' inTail' ∧
      (inTail ≠ [] → inTail' ≠ []) ∧ inTree' ++ inTail' = (inTree ++ inTail).drop left := by
  have cnt := contains.cnt
  have word := contains.word
  rw [sliceLeft, if_neg (Nat.not_le_of_lt inside)]
  by_cases positive : 0 < left
  · rw [if_pos positive]
    dsimp only
    by_cases short : rrb.cnt - left ≤ rrb.tailLen
    · -- the cut is in the tail
      rw [contains.tailLen] at short
      have front : inTail.length - (rrb.cnt - left) = left - inTree.length := by omega
      have whole : (inTail.drop (left - inTree.length)).take (rrb.cnt - left) = inTail.drop (left - inTree.length) := by
        apply List.take_of_length_le
        rw [List.length_drop]
        omega
      have length : (inTail.drop (left - inTree.length)).length = rrb.cnt - left := by
        rw [List.length_drop]
        omega
      rw [contains.tailLen, if_pos short, contains.tail, front]
      change Yields (leafNodeCreate (rrb.cnt - left) ((inTail.drop (left - inTree.length)).take (rrb.cnt - left)) >>= _) _
      rw [whole, leafNodeCreate, if_pos length]
      refine .some ⟨[], inTail.drop (left - inTree.length),
        ⟨rfl, length.symm, ?_, ?_, ?_, Nat.zero_le _, .inl ⟨rfl, rfl⟩⟩, ?_, ?_⟩
      · rw [length, List.length_nil, Nat.zero_add]
      · have := contains.slots
        rw [List.length_drop]
        omega
      · dsimp only
        omega
      · exact fun _ => List.ne_nil_of_length_pos (by omega)
      · rw [List.drop_append, List.drop_eq_nil_of_le (show inTree.length ≤ left by omega)]
    · rw [contains.tailLen] at short
      obtain ⟨rfl, _⟩ | ⟨shaped, elements⟩ := contains.tree
      · rw [List.length_nil] at cnt
        omega
      · have size : rrb.root.size rrb.height = inTree.length := by rw [Node.size, elements]
        have room : u32Sub (rrb.cnt - left) inTail.length = inTree.length - left := by
          rw [u32Sub_of_le (by omega) (by omega)]
          omega
        rw [contains.tailLen, if_neg short, room]
        refine .bind (sliceLeftRec_yields contains.low shaped (by omega) left false (by omega) (.inl positive)) ?_
        rintro ⟨root, height⟩ ⟨rootShaped, cut, le, -⟩
        dsimp only at rootShaped cut le ⊢
        rw [elements] at cut
        have length : root.size height = inTree.length - left := by rw [Node.size, cut, List.length_drop]
        obtain ⟨sizedShaped, sizedElements⟩ := setLastSize_shaped rootShaped length (by omega)
        have sized : (if height = 0 then root else setLastSize (inTree.length - left) root).Shaped Covers height ∧
            (if height = 0 then root else setLastSize (inTree.length - left) root).toList height = inTree.drop left := by
          split
          · exact ⟨rootShaped, cut⟩
          · exact ⟨sizedShaped, sizedElements.trans cut⟩
        rw [List.drop_append_of_le_length (by omega)]
        refine fillRootLeaf_yields ⟨contains.tail, rfl, ?_, contains.slots, ?_, le.trans contains.low, .inr sized⟩
        · rw [List.length_drop]
          dsimp only
          omega
        · dsimp only
          omega
  · obtain rfl : left = 0 := Nat.eq_zero_of_not_pos positive
    rw [if_neg positive]
    exact fillRootLeaf_yields contains

end Owl.Lists
