import Mathlib.Algebra.Order.Floor.Div
import Owl.Proofs.Lists.Executing
import Owl.Proofs.Lists.Sizing

/-! # Rebalancing siblings

The plan has a place for every slot and at most two nodes more than the slots need. Executing it copies the
slots in order: the leaves of a lowest node, or the children of a higher node under new size tables.
-/

namespace Owl.Lists

open Node (Levelled)

variable {α β : Type} {height : ℕ} {all nodes : List (Node α)} {plan : List ℕ} {good : Node α → Prop}

/-- What the slots of a node hold, elements or nodes. -/
def Node.slots : Node α → List (α ⊕ Node α)
  | .null => []
  | .leaf child => child.map .inl
  | .internal _ child => child.map .inr

/-- Nodes with the planned numbers of slots that hold what the slots of other nodes held. -/
structure Rebuilt (good : Node α → Prop) (plan : List ℕ) (all nodes : List (Node α)) : Prop where
  good : ∀ node ∈ nodes, good node
  counts : nodes.map (fun node => node.slots.length) = plan
  slots : nodes.flatMap Node.slots = all.flatMap Node.slots

section Kinds

variable {slots : Node α → Option (List β)} {embed : β → α ⊕ Node α} {rest : List β} {node : Node α}

theorem Slots.flatMap (kind : ∀ node child, slots node = some child → node.slots = child.map embed)
    (whole : Slots slots nodes rest) : nodes.flatMap Node.slots = rest.map embed := by
  induction whole with
  | nil => rfl
  | cons found _ _ ih => rw [List.flatMap_cons, kind _ _ found, ih, List.map_append]

theorem Slots.exists (found : ∀ node ∈ nodes, ∃ child, slots node = some child ∧ 1 ≤ child.length) :
    ∃ rest, Slots slots nodes rest := by
  induction nodes with
  | nil => exact ⟨[], .nil⟩
  | cons node nodes ih =>
    obtain ⟨child, here, positive⟩ := found node List.mem_cons_self
    obtain ⟨rest, behind⟩ := ih fun node member => found node (List.mem_cons_of_mem _ member)
    exact ⟨child ++ rest, .cons here positive behind⟩

theorem Slots.mem (whole : Slots slots nodes rest) {slot : β} (member : slot ∈ rest) :
    ∃ node ∈ nodes, ∃ child, slots node = some child ∧ slot ∈ child := by
  induction whole with
  | nil => cases member
  | cons found _ _ ih =>
    obtain here | behind := List.mem_append.mp member
    · exact ⟨_, List.mem_cons_self, _, found, here⟩
    · obtain ⟨node, inside, child, found', within⟩ := ih behind
      exact ⟨node, List.mem_cons_of_mem _ inside, child, found', within⟩

private theorem Node.len_of_slots {count : ℕ} (len : node.len = some count) : node.slots.length = count := by
  cases node with
  | null => cases len
  | leaf | internal =>
    obtain rfl := Option.some.inj len
    exact List.length_map _

private theorem counts_of_lens (lens : nodes.map Node.len = plan.map some) :
    nodes.map (fun node => node.slots.length) = plan := by
  induction nodes generalizing plan with
  | nil => exact (List.map_eq_nil_iff.mp lens.symm).symm
  | cons node nodes ih =>
    cases plan with
    | nil => cases lens
    | cons count plan =>
      obtain ⟨first, rest⟩ := List.cons.inj lens
      rw [List.map_cons, ih rest, Node.len_of_slots first]

/-- The loop over the plan, for one kind of slots. -/
private theorem executeFrom_rebuilt (embed : β → α ⊕ Node α) {finish : List β → Option (Node α)}
    (kind : ∀ node child, slots node = some child → node.slots = child.map embed)
    (lens : ∀ node child, slots node = some child → node.len = some child.length)
    (found : ∀ node ∈ all, ∃ child, slots node = some child ∧ 1 ≤ child.length) (goods : ∀ node ∈ all, good node)
    (slotted : Slotted plan) (sum : plan.sum = (all.flatMap Node.slots).length)
    (finished : ∀ piece, 1 ≤ piece.length → piece.length ≤ RRB_BRANCHING →
      (∀ slot ∈ piece, ∃ node ∈ all, ∃ child, slots node = some child ∧ slot ∈ child) →
        (finish piece).Yields fun node => good node ∧ slots node = some piece) :
    (executeFrom slots finish plan all 0).Yields (Rebuilt good plan all) := by
  obtain ⟨rest, whole⟩ := Slots.exists found
  have same := whole.flatMap kind
  have length : plan.sum = rest.length := by rw [sum, same, List.length_map]
  refine (executeFrom_yields lens goods whole.left slotted length.le fun piece one many inside =>
    finished piece one many fun slot member => whole.mem (inside slot member)).mono ?_
  rintro nodes ⟨newGoods, newLens, newWhole⟩
  rw [length, List.take_length] at newWhole
  exact ⟨newGoods, counts_of_lens newLens, (newWhole.flatMap kind).trans same.symm⟩

end Kinds

/-- `execute_concat_plan` on siblings. The new nodes meet a condition that holds of the siblings, of a leaf and of
a node that gets its size table. -/
theorem executeConcatPlan_yields (levelled : ∀ node ∈ all, node.Levelled height) (goods : ∀ node ∈ all, good node)
    (slotted : Slotted plan) (sum : plan.sum = (all.flatMap Node.slots).length)
    (leaf : height = 0 → ∀ piece, 1 ≤ piece.length → piece.length ≤ RRB_BRANCHING → good (.leaf piece))
    (inner : ∀ below, height = below + 1 → ∀ piece, 1 ≤ piece.length → piece.length ≤ RRB_BRANCHING →
      (∀ node ∈ piece, ∃ sizeTable child, .internal sizeTable child ∈ all ∧ node ∈ child) →
        ∃ table, setSizes (.internal none piece) (below + 1) = some (.internal (some table) piece) ∧
          good (.internal (some table) piece)) :
    (executeConcatPlan all plan (height + 1)).Yields (Rebuilt good plan all) := by
  cases height with
  | zero =>
    refine executeFrom_rebuilt Sum.inl ?_ ?_ ?_ goods slotted sum ?_
    · rintro node child found
      rw [elements_eq found, Node.slots]
    · rintro node child found
      rw [elements_eq found, Node.len]
    · intro node member
      have here := levelled node member
      cases node with
      | leaf child => exact ⟨child, rfl, here.1⟩
      | null | internal => exact here.elim
    · exact fun piece one many _ => .some ⟨leaf rfl piece one many, rfl⟩
  | succ below =>
    refine executeFrom_rebuilt Sum.inr ?_ ?_ ?_ goods slotted sum ?_
    · rintro node child found
      obtain ⟨sizeTable, rfl⟩ := children_eq found
      rw [Node.slots]
    · rintro node child found
      obtain ⟨sizeTable, rfl⟩ := children_eq found
      rw [Node.len]
    · intro node member
      have here := levelled node member
      cases node with
      | internal sizeTable child => exact ⟨child, rfl, here.1.1⟩
      | null | leaf => exact here.elim
    · intro piece one many inside
      obtain ⟨table, sized, holds⟩ := inner below rfl piece one many fun slot member => by
        obtain ⟨node, nodeMember, child, found, within⟩ := inside slot member
        obtain ⟨sizeTable, rfl⟩ := children_eq found
        exact ⟨sizeTable, child, nodeMember, within⟩
      exact ⟨_, sized, holds, rfl⟩

theorem levelled_counts (levelled : ∀ node ∈ all, node.Levelled height) :
    all.mapM Node.len = some (all.map fun node => node.slots.length) ∧
      Slotted (all.map fun node => node.slots.length) := by
  induction all with
  | nil => exact ⟨rfl, List.forall_mem_nil _⟩
  | cons node all ih =>
    obtain ⟨lens, slotted⟩ := ih fun node member => levelled node (List.mem_cons_of_mem _ member)
    have here := levelled node List.mem_cons_self
    obtain ⟨count, len, bounds⟩ : ∃ count, node.len = some count ∧ 1 ≤ count ∧ count ≤ RRB_BRANCHING := by
      cases height with
      | zero => cases node with
        | leaf child => exact ⟨_, rfl, here⟩
        | null | internal => exact here.elim
      | succ => cases node with
        | internal sizeTable child => exact ⟨_, rfl, here.1⟩
        | null | leaf => exact here.elim
    rw [List.map_cons, List.mapM_cons, len, lens, Node.len_of_slots len]
    exact ⟨rfl, slotted_cons.mpr ⟨bounds, slotted⟩⟩

/-- The plan for siblings whose slots can be counted, and the nodes that it makes of them. -/
theorem plan_sound (low : height ≤ RRB_MAX_HEIGHT) (some' : all ≠ []) (levelled : ∀ node ∈ all, node.Levelled height)
    (word : (all.flatMap Node.slots).length < 2 ^ 32) :
    ∃ plan nodes, createConcatPlan all = some plan ∧ (∀ count ∈ plan, 1 ≤ count ∧ count ≤ RRB_BRANCHING) ∧
      plan.sum = (all.flatMap Node.slots).length ∧
      plan.length ≤ (all.flatMap Node.slots).length ⌈/⌉ RRB_BRANCHING + 2 ∧
      executeConcatPlan all plan (height + 1) = some nodes ∧ (∀ node ∈ nodes, node.Levelled height) ∧
      nodes.map (fun node => node.slots.length) = plan ∧ nodes.flatMap Node.slots = all.flatMap Node.slots := by
  obtain ⟨lens, slotted⟩ := levelled_counts levelled
  rw [List.length_flatMap] at word ⊢
  have inhabited : 1 ≤ (all.map fun node => node.slots.length).length := by
    rw [List.length_map]
    exact List.length_pos_of_ne_nil some'
  have positive := slotted.sum_pos inhabited
  obtain ⟨plan, created, planSlotted, sum, -, length⟩ := createConcatPlan_yields lens slotted inhabited word
  have executed : (executeConcatPlan all plan (height + 1)).Yields (Rebuilt (Node.Levelled height) plan all) := by
    refine executeConcatPlan_yields levelled levelled planSlotted (by rw [sum, List.length_flatMap]) ?_ ?_
    · rintro rfl piece one many
      exact ⟨one, many⟩
    · rintro below rfl piece one many inside
      apply setSizes_levelled (by omega) ⟨one, many⟩
      intro node member
      obtain ⟨sizeTable, child, above, within⟩ := inside node member
      exact (levelled _ above).2.1 node within
  obtain ⟨nodes, done, rebuilt⟩ := executed
  refine ⟨plan, nodes, created, planSlotted, sum, ?_, done, rebuilt.good, rebuilt.counts, rebuilt.slots⟩
  rw [Nat.ceilDiv_eq_add_pred_div]
  simp only [RRB_BRANCHING, RRB_EXTRAS] at length ⊢
  omega

/-- Four leaves with one element each. -/
def shortLeaves : List (Node ℕ) := [.leaf [5], .leaf [6], .leaf [7], .leaf [8]]

/-- The plan puts two of the leaves together. -/
theorem plan_sound_shortLeaves :
    ∃ plan nodes, createConcatPlan shortLeaves = some plan ∧ (∀ count ∈ plan, 1 ≤ count ∧ count ≤ RRB_BRANCHING) ∧
      plan.sum = (shortLeaves.flatMap Node.slots).length ∧
      plan.length ≤ (shortLeaves.flatMap Node.slots).length ⌈/⌉ RRB_BRANCHING + 2 ∧
      executeConcatPlan shortLeaves plan 1 = some nodes ∧ (∀ node ∈ nodes, node.Levelled 0) ∧
      nodes.map (fun node => node.slots.length) = plan ∧
      nodes.flatMap Node.slots = shortLeaves.flatMap Node.slots := by
  refine plan_sound (Nat.zero_le _) (List.cons_ne_nil _ _) ?_ (show 4 < 2 ^ 32 by decide)
  intro node member
  obtain rfl | rfl | rfl | rfl : node = .leaf [5] ∨ node = .leaf [6] ∨ node = .leaf [7] ∨ node = .leaf [8] := by
    simpa [shortLeaves] using member
  all_goals exact (by decide : 1 ≤ 1 ∧ 1 ≤ RRB_BRANCHING)

example : createConcatPlan shortLeaves = some [2, 1, 1] := by decide

end Owl.Lists
