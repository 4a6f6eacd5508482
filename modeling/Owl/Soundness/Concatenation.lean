import Owl.Soundness.Lookups
import Owl.Soundness.Rebalancing

/-! # Joining trees

The right edge of the left tree meets the left edge of the right one. On the way back up every level makes at most
two well-formed nodes of what meets there, and only the highest level decides whether the tree grows.
-/

namespace Owl.Lists

open Blocks
open Option (Yields)
open Node (toList WellFormed)

variable {α : Type} {height leftHeight rightHeight : ℕ} {left right centre node : Node α} {child all : List (Node α)}
  {elements : List α} {isTop : Bool}

/-- A node without a size table above well-formed nodes with these elements. Below the top there are at most two
of them, at the height of the higher tree. -/
structure Joined (isTop : Bool) (height : ℕ) (elements : List α) (below : ℕ) (child : List (Node α)) : Prop where
  low : below ≤ height
  slots : 1 ≤ child.length ∧ child.length ≤ RRB_BRANCHING
  wellFormed : ∀ node ∈ child, node.WellFormed below
  elements : child.flatMap (toList below) = elements
  inner : isTop = false → below = height ∧ child.length ≤ 2

/-- A tree whose nodes beside the right edge are well-formed. The join opens the nodes on the edge, and does not read
their size tables. -/
def Node.OpenRight : ℕ → Node α → Prop
  | 0, .leaf child => 1 ≤ child.length ∧ child.length ≤ RRB_BRANCHING
  | height + 1, .internal _ child =>
      (1 ≤ child.length ∧ child.length ≤ RRB_BRANCHING) ∧ (∀ node ∈ child.dropLast, node.WellFormed height) ∧
        (slot child (child.length - 1)).OpenRight height
  | _, _ => False

theorem Node.WellFormed.openRight : ∀ {height} {node : Node α}, node.WellFormed height → node.OpenRight height := by
  intro height
  induction height with
  | zero =>
    intro node wellFormed
    obtain ⟨child, rfl, slots⟩ := wellFormed.isLeaf
    exact slots
  | succ height ih =>
    intro node wellFormed
    obtain ⟨sizeTable, child, rfl, slots, below⟩ := wellFormed.isInternal
    exact ⟨slots, fun node member => below node (List.dropLast_subset _ member), ih (below _ (slot_mem (by omega)))⟩

theorem Node.OpenRight.leaf (opened : node.OpenRight 0) : node.WellFormed 0 := by
  cases node with
  | leaf => exact opened
  | null | internal => exact opened.elim

theorem Node.OpenRight.isInternal (opened : node.OpenRight (height + 1)) : ∃ sizeTable child,
    node = .internal sizeTable child ∧ (1 ≤ child.length ∧ child.length ≤ RRB_BRANCHING) ∧
      (∀ node ∈ child.dropLast, node.WellFormed height) ∧ (slot child (child.length - 1)).OpenRight height := by
  cases node with
  | internal sizeTable child => exact ⟨sizeTable, child, rfl, opened⟩
  | null | leaf => exact opened.elim

/-- The slots of a root that stands at a level. -/
def slotsAt (level height : ℕ) (root : Node α) : ℕ := if height = level then root.len.getD 0 else 0

theorem slotsAt_internal (level : ℕ) (sizeTable : Option (List ℕ)) :
    slotsAt level level (.internal sizeTable child) = child.length := if_pos rfl

/-- The elements of a slot of a node at a height. -/
def slotElements : ℕ → α ⊕ Node α → List α
  | 0, .inl elem => [elem]
  | height + 1, .inr node => node.toList height
  | _, _ => []

private theorem toList_slots (levelled : node.Levelled height) : node.toList height = node.slots.flatMap
    (slotElements height) := by
  cases height with
  | zero => cases node with
    | leaf child => simp [toList, Node.slots, List.flatMap_map, slotElements]
    | null | internal => exact levelled.elim
  | succ => cases node with
    | internal sizeTable child => simp [toList, Node.slots, List.flatMap_map, slotElements]
    | null | leaf => exact levelled.elim

/-- Nodes with the same slots have the same elements. -/
private theorem flatMap_toList {nodes : List (Node α)} (levelled : ∀ node ∈ nodes, node.Levelled height) :
    nodes.flatMap (toList height) = (nodes.flatMap Node.slots).flatMap (slotElements height) := by
  rw [List.flatMap_assoc]
  exact List.flatMap_congr fun node member => toList_slots (levelled node member)

/-- Nodes of a height that take the slots of well-formed nodes. -/
private theorem rebuilt_yields (low : height < RRB_MAX_HEIGHT) (wellFormed : ∀ node ∈ all, node.WellFormed height)
    {plan : List ℕ} (slotted : Slotted plan) (sum : plan.sum = (all.flatMap Node.slots).length) :
    (executeConcatPlan all plan (height + 1)).Yields (Rebuilt (WellFormed height) plan all) := by
  refine executeConcatPlan_yields (fun node member => (wellFormed node member).levelled) wellFormed slotted sum ?_ ?_
  · rintro rfl piece one many
    exact ⟨one, many⟩
  · rintro below rfl piece one many inside
    have below' : ∀ node ∈ piece, node.WellFormed below := by
      intro node member
      obtain ⟨sizeTable, child, above, within⟩ := inside node member
      exact (wellFormed _ above).below node within
    apply setSizes_wellFormed (by omega) ⟨one, many⟩ below'
    have bound := before_le_mul (fun node member => (below' node member).size_le) piece.length
    rw [before_length] at bound
    calc (piece.flatMap (toList below)).length ≤ piece.length * RRB_BRANCHING ^ (below + 1) := bound
      _ ≤ RRB_BRANCHING * RRB_BRANCHING ^ (below + 1) := Nat.mul_le_mul_right _ many
      _ = RRB_BRANCHING ^ (below + 1 + 1) := (Nat.pow_succ').symm
      _ < 2 ^ 32 := branching_pow_lt low

private theorem rebalance_yields (merged : internalNodeMerge left centre right = some all) (low : height < RRB_MAX_HEIGHT)
    (some' : all ≠ []) (few : all.length ≤ 2 * RRB_BRANCHING) (wellFormed : ∀ node ∈ all, node.WellFormed height)
    (elements' : all.flatMap (toList height) = elements) (word : elements.length < 2 ^ 32) :
    (rebalance left centre right (height + 1) isTop).Yields fun node =>
      ∃ below child, node = .internal none child ∧ Joined isTop (height + 1) elements below child ∧
        (isTop = true → all.length ≤ RRB_BRANCHING → below = height) := by
  have levelled : ∀ node ∈ all, node.Levelled height := fun node member => (wellFormed node member).levelled
  obtain ⟨lens, counted⟩ := levelled_counts levelled
  have slots : (all.flatMap Node.slots).length ≤ 2 * RRB_BRANCHING * RRB_BRANCHING := by
    rw [List.length_flatMap]
    calc (all.map fun node => node.slots.length).sum ≤ (all.map fun node => node.slots.length).length * RRB_BRANCHING :=
        counted.sum_le
      _ ≤ 2 * RRB_BRANCHING * RRB_BRANCHING := by
        rw [List.length_map]
        exact Nat.mul_le_mul_right _ few
  obtain ⟨plan, created, slotted, sum, shorter, -⟩ := createConcatPlan_yields lens counted
    (by rw [List.length_map]; exact List.length_pos_of_ne_nil some')
    (by rw [← List.length_flatMap]; exact slots.trans_lt (by decide))
  obtain ⟨nodes, executed, rebuilt⟩ := rebuilt_yields low wellFormed slotted (by rw [sum, List.length_flatMap])
  have same : nodes.flatMap (toList height) = elements := by
    rw [← elements', flatMap_toList fun node member => (rebuilt.good node member).levelled, flatMap_toList levelled,
      rebuilt.slots]
  have length : nodes.length = plan.length := by rw [← rebuilt.counts, List.length_map]
  have positive : 1 ≤ plan.length := by
    apply List.length_pos_of_ne_nil
    rintro rfl
    have := counted.sum_pos (by rw [List.length_map]; exact List.length_pos_of_ne_nil some')
    rw [← sum] at this
    exact Nat.not_succ_le_zero _ this
  rw [List.length_map] at shorter
  rw [rebalance, merged]
  dsimp only [Option.bind_eq_bind, Option.bind_some]
  rw [created]
  dsimp only [Option.bind_some]
  rw [executed]
  dsimp only [Option.bind_some]
  split_ifs with one top
  · exact .some ⟨height, nodes, rfl, ⟨Nat.le_succ _, by omega, rebuilt.good, same, by simp [top]⟩, fun _ _ => rfl⟩
  · obtain ⟨table, sized, exact⟩ := setSizes_wellFormed low.le (by omega) rebuilt.good (by rwa [same])
    rw [sized]
    refine .some ⟨height + 1, _, rfl, ⟨le_rfl, (by decide : 1 ≤ 1 ∧ 1 ≤ RRB_BRANCHING),
      List.forall_mem_singleton.mpr exact, ?_, fun _ => ⟨rfl, (by decide : 1 ≤ 2)⟩⟩, fun above => absurd above top⟩
    rw [List.flatMap_singleton, toList, same]
  · -- the nodes do not fit one node above them
    have split : (nodes.take RRB_BRANCHING).flatMap (toList height) ++ (nodes.drop RRB_BRANCHING).flatMap (toList height) =
        elements := by rw [← List.flatMap_append, List.take_append_drop, same]
    have words := congrArg List.length split
    rw [List.length_append] at words
    have leftSlots : 1 ≤ (nodes.take RRB_BRANCHING).length ∧ (nodes.take RRB_BRANCHING).length ≤ RRB_BRANCHING := by
      rw [List.length_take]
      omega
    have rightSlots : 1 ≤ (nodes.drop RRB_BRANCHING).length ∧ (nodes.drop RRB_BRANCHING).length ≤ RRB_BRANCHING := by
      rw [List.length_drop]
      omega
    obtain ⟨leftTable, leftSized, leftExact⟩ := setSizes_wellFormed low.le leftSlots
      (fun node member => rebuilt.good node (List.mem_of_mem_take member)) (by omega)
    obtain ⟨rightTable, rightSized, rightExact⟩ := setSizes_wellFormed low.le rightSlots
      (fun node member => rebuilt.good node (List.mem_of_mem_drop member)) (by omega)
    rw [leftSized, rightSized]
    refine .some ⟨height + 1, _, rfl, ⟨le_rfl, (by decide : 1 ≤ 2 ∧ 2 ≤ RRB_BRANCHING), ?_, ?_, fun _ => ⟨rfl, le_rfl⟩⟩,
      fun _ fits => absurd (shorter.trans fits) one⟩
    · exact List.forall_mem_cons.mpr ⟨leftExact, List.forall_mem_singleton.mpr rightExact⟩
    · rw [List.flatMap_cons, List.flatMap_singleton, toList, toList, split]

section Merge

variable {sizeTable sizeTable' : Option (List ℕ)} {first : Node α} {rest merged : List (Node α)}

private theorem internalNodeMerge_left (some' : child ≠ []) :
    internalNodeMerge (.internal sizeTable child) (.internal none merged) .null =
      some (child.dropLast ++ merged ++ []) := by
  cases child with
  | nil => contradiction
  | cons => rfl

private theorem internalNodeMerge_right :
    internalNodeMerge .null (.internal none merged) (.internal sizeTable (first :: rest)) =
      some ([] ++ merged ++ rest) := rfl

private theorem internalNodeMerge_both (some' : child ≠ []) :
    internalNodeMerge (.internal sizeTable child) (.internal none merged) (.internal sizeTable' (first :: rest)) =
      some (child.dropLast ++ merged ++ rest) := by
  cases child with
  | nil => contradiction
  | cons => rfl

end Merge

/-- A level of the join: the nodes before and behind those that have been made of the levels below. -/
theorem rebalance_joined {below : ℕ} {front back : List (Node α)} {inner : List α}
    (joined : Joined false height inner below child)
    (merged : internalNodeMerge left (.internal none child) right = some (front ++ child ++ back))
    (low : height < RRB_MAX_HEIGHT) (frontFew : front.length < RRB_BRANCHING) (backFew : back.length < RRB_BRANCHING)
    (frontFormed : ∀ node ∈ front, node.WellFormed height) (backFormed : ∀ node ∈ back, node.WellFormed height)
    (elements' : front.flatMap (toList height) ++ inner ++ back.flatMap (toList height) = elements)
    (word : elements.length < 2 ^ 32) :
    (rebalance left (.internal none child) right (height + 1) isTop).Yields fun node =>
      ∃ below child, node = .internal none child ∧ Joined isTop (height + 1) elements below child ∧
        (isTop = true → front.length + back.length + 2 ≤ RRB_BRANCHING → below = height) := by
  obtain ⟨rfl, two⟩ := joined.inner rfl
  have one := joined.slots.1
  have length : (front ++ child ++ back).length = front.length + child.length + back.length := by
    rw [List.length_append, List.length_append]
  have branching : RRB_BRANCHING = 32 := rfl
  have formed : ∀ node ∈ front ++ child ++ back, node.WellFormed below :=
    List.forall_mem_append.mpr ⟨List.forall_mem_append.mpr ⟨frontFormed, joined.wellFormed⟩, backFormed⟩
  have contents : (front ++ child ++ back).flatMap (toList below) = elements := by
    rw [List.flatMap_append, List.flatMap_append, joined.elements, elements']
  refine Yields.mono
    (rebalance_yields merged low (List.ne_nil_of_length_pos (by omega)) (by omega) formed contents word) ?_
  rintro node ⟨below', child', same, joined', flat⟩
  exact ⟨below', child', same, joined', fun top fits => flat top (by omega)⟩

private theorem concatSubTree_yields (height : ℕ) : ∀ {leftHeight rightHeight : ℕ} {left right : Node α} (isTop : Bool),
    max leftHeight rightHeight = height → height ≤ RRB_MAX_HEIGHT → left.OpenRight leftHeight →
      right.WellFormed rightHeight → left.size leftHeight + right.size rightHeight < 2 ^ 32 →
        (concatSubTree left leftHeight right rightHeight isTop).Yields fun node => ∃ below child,
          node = .internal none child ∧
            Joined isTop height (left.toList leftHeight ++ right.toList rightHeight) below child ∧
              (isTop = true → 0 < height →
                slotsAt height leftHeight left + slotsAt height rightHeight right < RRB_BRANCHING → below < height) := by
  induction height with
  | zero =>
    intro leftHeight rightHeight left right isTop highest _ leftFormed rightFormed _
    obtain ⟨rfl, rfl⟩ : leftHeight = 0 ∧ rightHeight = 0 := by omega
    have above : Joined isTop 0 (left.toList 0 ++ right.toList 0) 0 [left, right] :=
      ⟨le_rfl, (by decide : 1 ≤ 2 ∧ 2 ≤ RRB_BRANCHING),
        List.forall_mem_cons.mpr ⟨leftFormed.leaf, List.forall_mem_singleton.mpr rightFormed⟩,
        by rw [List.flatMap_cons, List.flatMap_singleton], fun _ => ⟨rfl, le_rfl⟩⟩
    rw [concatSubTree, if_neg (lt_irrefl 0), if_neg (lt_irrefl 0), if_pos rfl]
    split_ifs with top
    · obtain ⟨leftChild, rfl, leftSlots⟩ := leftFormed.leaf.isLeaf
      obtain ⟨rightChild, rfl, rightSlots⟩ := rightFormed.isLeaf
      dsimp only [Node.elements, Option.bind_eq_bind, Option.bind_some]
      split_ifs with few
      · refine .some ⟨0, [.leaf (leftChild ++ rightChild)], rfl,
          ⟨le_rfl, (by decide : 1 ≤ 1 ∧ 1 ≤ RRB_BRANCHING), ?_, ?_, by simp [top]⟩,
          fun _ impossible => absurd impossible (lt_irrefl 0)⟩
        · rw [← List.length_append] at few
          exact List.forall_mem_singleton.mpr ⟨by rw [List.length_append]; omega, few⟩
        · rw [List.flatMap_singleton]
          rfl
      · exact .some ⟨0, _, rfl, above, fun _ impossible => absurd impossible (lt_irrefl 0)⟩
    · exact .some ⟨0, _, rfl, above, fun _ impossible => absurd impossible (lt_irrefl 0)⟩
  | succ height ih =>
    intro leftHeight rightHeight left right isTop highest low leftFormed rightFormed word
    have branching : RRB_BRANCHING = 32 := rfl
    obtain higher | same | lower := lt_trichotomy rightHeight leftHeight
    · obtain rfl : leftHeight = height + 1 := by omega
      obtain ⟨sizeTable, child, rfl, slots, front, opened⟩ := leftFormed.isInternal
      have split := split_last slots.1
      have lastSize : (slot child (child.length - 1)).size height ≤ _ :=
        Node.size_le_of_mem sizeTable (slot_mem (by omega))
      rw [concatSubTree, if_pos higher, toList_last sizeTable split]
      dsimp only [Node.children, Option.bind_eq_bind, Option.bind_some]
      rw [Nat.add_sub_cancel]
      refine .bind (ih false (by omega) (by omega) opened rightFormed (by omega)) ?_
      rintro _ ⟨_, centre, rfl, joined, -⟩
      have contents : child.dropLast.flatMap (toList height) ++ ((slot child (child.length - 1)).toList height ++
          right.toList rightHeight) ++ List.flatMap (toList height) [] = child.dropLast.flatMap (toList height) ++
            (slot child (child.length - 1)).toList height ++ right.toList rightHeight := by
        rw [List.flatMap_nil, List.append_nil, List.append_assoc]
      refine Yields.mono (rebalance_joined joined (internalNodeMerge_left (List.ne_nil_of_length_pos slots.1)) low ?_
        (by decide : 0 < RRB_BRANCHING) front (List.forall_mem_nil _) contents ?_) ?_
      · rw [List.length_dropLast]
        omega
      · rw [← toList_last sizeTable split, List.length_append]
        exact word
      · rintro _ ⟨below, nodes, rfl, joined, flat⟩
        refine ⟨below, nodes, rfl, joined, fun top _ few => Nat.lt_succ_of_le (flat top ?_).le⟩
        rw [slotsAt_internal] at few
        rw [List.length_dropLast, List.length_nil]
        omega
    · obtain rfl : leftHeight = height + 1 := by omega
      obtain rfl : rightHeight = height + 1 := by omega
      obtain ⟨sizeTable, child, rfl, slots, front, opened⟩ := leftFormed.isInternal
      obtain ⟨sizeTable', child', rfl, slots', below'⟩ := rightFormed.isInternal
      obtain ⟨first, rest, rfl⟩ := List.exists_cons_of_length_pos slots'.1
      have split := split_last slots.1
      have lastSize : (slot child (child.length - 1)).size height ≤ _ :=
        Node.size_le_of_mem sizeTable (slot_mem (by omega))
      have firstSize : first.size height ≤ (Node.internal sizeTable' (first :: rest)).size (height + 1) :=
        Node.size_le_of_mem sizeTable' List.mem_cons_self
      rw [concatSubTree, if_neg (lt_irrefl _), if_neg (lt_irrefl _), if_neg (Nat.succ_ne_zero _),
        toList_last sizeTable split]
      dsimp only [Node.children, Option.bind_eq_bind, Option.bind_some]
      rw [show slot (first :: rest) 0 = first from rfl, Nat.add_sub_cancel]
      refine .bind (ih false (max_self _) (by omega) opened (below' first List.mem_cons_self) (by omega)) ?_
      rintro _ ⟨_, centre, rfl, joined, -⟩
      have contents : child.dropLast.flatMap (toList height) ++ ((slot child (child.length - 1)).toList height ++
          first.toList height) ++ rest.flatMap (toList height) = child.dropLast.flatMap (toList height) ++
            (slot child (child.length - 1)).toList height ++
              (Node.internal sizeTable' (first :: rest)).toList (height + 1) := by
        rw [toList, List.flatMap_cons]
        simp only [List.append_assoc]
      refine Yields.mono (rebalance_joined joined (internalNodeMerge_both (List.ne_nil_of_length_pos slots.1)) low ?_ ?_
        front (fun node member => below' node (List.mem_cons_of_mem _ member)) contents ?_) ?_
      · rw [List.length_dropLast]
        omega
      · rw [List.length_cons] at slots'
        omega
      · rw [← toList_last sizeTable split, List.length_append]
        exact word
      · rintro _ ⟨below, nodes, rfl, joined, flat⟩
        refine ⟨below, nodes, rfl, joined, fun top _ few => Nat.lt_succ_of_le (flat top ?_).le⟩
        rw [slotsAt_internal, slotsAt_internal, List.length_cons] at few
        rw [List.length_dropLast]
        omega
    · obtain rfl : rightHeight = height + 1 := by omega
      obtain ⟨sizeTable, child, rfl, slots, below⟩ := rightFormed.isInternal
      obtain ⟨first, rest, rfl⟩ := List.exists_cons_of_length_pos slots.1
      have firstSize : first.size height ≤ (Node.internal sizeTable (first :: rest)).size (height + 1) :=
        Node.size_le_of_mem sizeTable List.mem_cons_self
      rw [concatSubTree, if_neg (by omega), if_pos lower]
      dsimp only [Node.children, Option.bind_eq_bind, Option.bind_some]
      rw [show slot (first :: rest) 0 = first from rfl, Nat.add_sub_cancel]
      refine .bind (ih false (by omega) (by omega) leftFormed (below first List.mem_cons_self) (by omega)) ?_
      rintro _ ⟨_, centre, rfl, joined, -⟩
      have contents : List.flatMap (toList height) [] ++ (left.toList leftHeight ++ first.toList height) ++
          rest.flatMap (toList height) =
            left.toList leftHeight ++ (Node.internal sizeTable (first :: rest)).toList (height + 1) := by
        rw [toList, List.flatMap_cons, List.flatMap_nil, List.nil_append, List.append_assoc]
      refine Yields.mono (rebalance_joined joined internalNodeMerge_right low (by decide : 0 < RRB_BRANCHING) ?_
        (List.forall_mem_nil _) (fun node member => below node (List.mem_cons_of_mem _ member)) contents ?_) ?_
      · rw [List.length_cons] at slots
        omega
      · rw [List.length_append]
        exact word
      · rintro _ ⟨below, nodes, rfl, joined, flat⟩
        refine ⟨below, nodes, rfl, joined, fun top _ few => Nat.lt_succ_of_le (flat top ?_).le⟩
        rw [slotsAt_internal, List.length_cons] at few
        rw [List.length_nil]
        omega

/-- The root of a concatenation is higher than both trees only when many slots meet at the top. -/
theorem concatRoots_yields (leftLow : leftHeight ≤ RRB_MAX_HEIGHT) (rightLow : rightHeight ≤ RRB_MAX_HEIGHT)
    (leftFormed : left.OpenRight leftHeight) (rightFormed : right.WellFormed rightHeight)
    (word : left.size leftHeight + right.size rightHeight < 2 ^ 32) :
    (concatRoots left leftHeight right rightHeight).Yields fun joined => joined.1.WellFormed joined.2 ∧
      joined.1.toList joined.2 = left.toList leftHeight ++ right.toList rightHeight ∧
        joined.2 ≤ max leftHeight rightHeight + 1 ∧ (0 < max leftHeight rightHeight →
          slotsAt (max leftHeight rightHeight) leftHeight left + slotsAt (max leftHeight rightHeight) rightHeight right <
            RRB_BRANCHING → joined.2 ≤ max leftHeight rightHeight) := by
  obtain ⟨_, joined', below, child, rfl, joined, flat⟩ :=
    concatSubTree_yields _ true rfl (max_le leftLow rightLow) leftFormed rightFormed word
  have low : below ≤ RRB_MAX_HEIGHT := joined.low.trans (max_le leftLow rightLow)
  obtain ⟨first, rest, rfl⟩ := List.exists_cons_of_length_pos joined.slots.1
  have shift : findShift (.internal none (first :: rest)) = some (below + 1) := by
    rw [findShift, (joined.wellFormed first List.mem_cons_self).findShift, Option.map_some, Nat.add_comm]
  obtain ⟨table, sized, exact⟩ := setSizes_wellFormed low joined.slots joined.wellFormed
    (by rwa [joined.elements, List.length_append])
  refine ⟨(.internal (some table) (first :: rest), below + 1), ?_, exact, joined.elements,
    Nat.succ_le_succ joined.low, flat rfl⟩
  rw [concatRoots, joined']
  dsimp only [Option.bind_eq_bind, Option.bind_some]
  rw [shift]
  dsimp only [Option.bind_some]
  rw [sized]
  rfl

/-- The root of a concatenation is well-formed, spells both trees and is at most one level higher. -/
theorem concatRoots_sound (leftLow : leftHeight ≤ RRB_MAX_HEIGHT) (rightLow : rightHeight ≤ RRB_MAX_HEIGHT)
    (leftFormed : left.WellFormed leftHeight) (rightFormed : right.WellFormed rightHeight)
    (word : left.size leftHeight + right.size rightHeight < 2 ^ 32) :
    ∃ root height, concatRoots left leftHeight right rightHeight = some (root, height) ∧ root.WellFormed height ∧
      root.toList height = left.toList leftHeight ++ right.toList rightHeight ∧
      height ≤ max leftHeight rightHeight + 1 := by
  obtain ⟨⟨root, height⟩, done, wellFormed, contents, low, -⟩ :=
    concatRoots_yields leftLow rightLow leftFormed.openRight rightFormed word
  exact ⟨root, height, done, wellFormed, contents, low⟩

/-- A tree with a size table above two leaves, and a leaf. -/
theorem concatRoots_sound_sized :
    ∃ root height, concatRoots sizedRrb.root 1 (.leaf [9, 10]) 0 = some (root, height) ∧ root.WellFormed height ∧
      root.toList height = sizedRrb.root.toList 1 ++ (Node.leaf [9, 10]).toList 0 ∧ height ≤ max 1 0 + 1 :=
  concatRoots_sound (by decide) (by decide) (contains_sizedRrb.tree.resolve_left (by simp)).1
    (show 1 ≤ 2 ∧ 2 ≤ RRB_BRANCHING by decide) (by decide)

end Owl.Lists
