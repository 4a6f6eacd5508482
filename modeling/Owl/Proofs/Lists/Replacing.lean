import Owl.Model.Lists.Edit
import Owl.Soundness.Slices

/-! # Replacing an element

The nodes on the way to an element are copied, and the size of no node changes: the tree keeps its shape, and its
sequence differs at the index only.
-/

namespace Owl.Lists

open Blocks
open Option (Yields)
open Node (toList Dense Shaped Totals)

variable {α : Type} {height index i k : ℕ} {node node' : Node α} {child : List (Node α)} {table : List ℕ}
  {fits : ℕ → ℕ → Prop} {elt : α}

private theorem size_replaced (replaced : node'.toList height = (node.toList height).set k elt) :
    node'.size height = node.size height := by
  rw [Node.size, Node.size, replaced, List.length_set]

private theorem toList_replaced (sizeTable : Option (List ℕ)) (found : child[i]? = some node)
    (within : k < node.size height)
    (replaced : node'.toList height = (node.toList height).set k elt) :
    (Node.internal sizeTable (child.set i node')).toList (height + 1) =
      ((Node.internal sizeTable child).toList (height + 1)).set (before (toList height) child i + k) elt :=
  flatMap_set found within replaced

private theorem forall_mem_set {property : Node α → Prop} (all : ∀ node ∈ child, property node) (holds : property node') :
    ∀ node ∈ child.set i node', property node := by
  intro node member
  obtain member | rfl := List.mem_or_eq_of_mem_set member
  · exact all node member
  · exact holds

theorem Node.Dense.replaced (dense : (Node.internal none child).Dense (height + 1)) (found : child[i]? = some node)
    (below : node'.Dense height) (same : node'.size height = node.size height) :
    (Node.internal none (child.set i node')).Dense (height + 1) := by
  refine ⟨by rw [List.length_set]; exact dense.1, forall_mem_set dense.2.1 below, ?_⟩
  intro other member
  rw [List.dropLast_eq_take, List.length_set, List.take_set] at member
  have full := dense.2.2
  rw [List.dropLast_eq_take] at full
  obtain member | rfl := List.mem_or_eq_of_mem_set member
  · exact full other member
  · by_cases inside : i < child.length - 1
    · rw [same]
      exact full node (List.mem_of_getElem? (by rw [List.getElem?_take, if_pos inside]; exact found))
    · rw [List.set_eq_of_length_le (by rw [List.length_take]; omega)] at member
      exact full other member

theorem Node.Totals.replaced (totals : Totals fits height child table) (found : child[i]? = some node)
    (same : node'.size height = node.size height) : Totals fits height (child.set i node') table := by
  have kept (j : ℕ) : before (toList height) (child.set i node') j = before (toList height) child j :=
    before_set found same j
  constructor
  · intro j inside
    rw [List.length_set] at inside
    rw [kept]
    exact totals.inner j inside
  · rw [List.length_set, kept]
    exact totals.last

/-- What an update makes of a tree. -/
structure Replaced (shape : Node α → Prop) (height : ℕ) (node : Node α) (position : ℕ) (elt : α) (node' : Node α) :
    Prop where
  shape : shape node'
  elements : node'.toList height = (node.toList height).set position elt

theorem Node.Dense.updateFrom : ∀ {height} {node : Node α}, height ≤ RRB_MAX_HEIGHT → node.Dense height → ∀ index,
    index % RRB_BRANCHING ^ (height + 1) < node.size height →
      (Lists.updateFrom elt height node index).Yields
        (Replaced (Node.Dense height) height node (index % RRB_BRANCHING ^ (height + 1)) elt) := by
  intro height
  induction height with
  | zero =>
    intro node _ dense index inside
    cases node with
    | leaf child =>
      rw [Nat.zero_add, Nat.pow_one] at inside ⊢
      rw [Lists.updateFrom, and_mask, if_pos (show index % RRB_BRANCHING < child.length from inside)]
      refine .some ⟨?_, rfl⟩
      change 1 ≤ (child.set _ elt).length ∧ (child.set _ elt).length ≤ RRB_BRANCHING
      rw [List.length_set]
      exact dense
    | null | internal => exact dense.elim
  | succ height ih =>
    intro node low dense index inside
    rcases node with _ | _ | ⟨_ | table, child⟩
    · exact dense.elim
    · exact dense.elim
    · obtain ⟨i, node, k, found, within, same⟩ := exists_block inside
      have member := List.mem_of_getElem? found
      have bound := (List.getElem?_eq_some_iff.mp found).1
      have below := within.trans_le (dense.2.1 node member).size_le
      have position := same
      rw [dense.before_eq bound] at same
      obtain ⟨digit, rest⟩ := digit_of_mod same below
      rw [Lists.updateFrom, radix_eq low, digit]
      dsimp only [Option.bind_eq_bind, Option.bind_some]
      rw [slot_eq found]
      refine .bind (ih (by omega) (dense.2.1 node member) index (by rw [rest]; exact within)) ?_
      rintro node' ⟨shape, elements⟩
      rw [rest] at elements
      rw [position]
      exact .some ⟨dense.replaced found shape (size_replaced elements), toList_replaced none found within elements⟩
    · exact dense.elim

/-- The search needs only that the last entry of a size table covers all children. -/
theorem Node.Shaped.updateFrom (covers : ∀ total entry, fits total entry → total ≤ entry) :
    ∀ {height} {node : Node α}, height ≤ RRB_MAX_HEIGHT → node.Shaped fits height → ∀ index,
      index < node.size height →
        (Lists.updateFrom elt height node index).Yields (Replaced (Node.Shaped fits height) height node index elt) := by
  have plain {height : ℕ} {node : Node α} (low : height ≤ RRB_MAX_HEIGHT) (dense : node.Dense height) (index : ℕ)
      (inside : index < node.size height) :
      (Lists.updateFrom elt height node index).Yields (Replaced (Node.Shaped fits height) height node index elt) := by
    have reduced := Nat.mod_eq_of_lt (inside.trans_le dense.size_le)
    refine (dense.updateFrom low index (by rw [reduced]; exact inside)).mono fun node' replaced => ?_
    rw [reduced] at replaced
    exact ⟨replaced.shape.shaped, replaced.elements⟩
  intro height
  induction height with
  | zero => exact fun low shaped => plain low shaped
  | succ height ih =>
    intro node low shaped index inside
    rcases node with _ | _ | ⟨_ | table, child⟩
    · exact shaped.elim
    · exact shaped.elim
    · exact plain low shaped index inside
    · obtain ⟨i, node, k, found, within, rfl⟩ := exists_block inside
      have member := List.mem_of_getElem? found
      rw [Lists.updateFrom,
        shaped.2.2.sizedPos low covers (fun node member => (shaped.2.1 node member).size_le) found within]
      dsimp only [Option.bind_eq_bind, Option.bind_some]
      rw [slot_eq found]
      refine .bind (ih (by omega) (shaped.2.1 node member) k within) ?_
      rintro node' ⟨shape, elements⟩
      refine .some ⟨⟨?_, forall_mem_set shaped.2.1 shape, ?_⟩, toList_replaced (some table) found within elements⟩
      · rw [List.length_set]
        exact shaped.1
      · exact shaped.2.2.replaced found (size_replaced elements)

variable {rrb : Rrb α} {inTree inTail : List α}

/-- An update of an element keeps what a list is made of, and its sequence differs at the index only. -/
theorem Rrb.Contains.update (admissible : Admissible fits) (contains : rrb.Contains fits inTree inTail)
    (inside : index < rrb.cnt) (elt : α) : (rrbUpdate rrb index elt).Yields fun list => ∃ rrb' inTree' inTail',
      list = some (.allocated rrb') ∧ rrb'.Contains fits inTree' inTail' ∧ inTail'.length = inTail.length ∧
        inTree' ++ inTail' = (inTree ++ inTail).set index elt := by
  have cnt := contains.cnt
  have offset : u32Sub rrb.cnt rrb.tailLen = inTree.length := by
    rw [u32Sub_of_le (by rw [contains.tailLen]; omega) contains.word, contains.tailLen]
    omega
  rw [rrbUpdate, if_pos inside]
  dsimp only
  rw [offset]
  split
  next behind =>
    rw [contains.tail]
    dsimp only [Node.elements, Option.bind_eq_bind, Option.bind_some]
    rw [if_pos (by omega)]
    refine .some ⟨_, inTree, inTail.set (index - inTree.length) elt, rfl, ?_, List.length_set, ?_⟩
    · exact { contains with
        tail := rfl
        tailLen := by rw [List.length_set]; exact contains.tailLen
        cnt := by rw [List.length_set]; exact contains.cnt
        slots := by rw [List.length_set]; exact contains.slots }
    · rw [List.set_append_right _ _ behind]
  next front =>
    obtain ⟨rfl, -⟩ | ⟨shaped, elements⟩ := contains.tree
    · exact absurd (Nat.zero_le index) front
    · have within : index < rrb.root.size rrb.height := by
        rw [Node.size, elements]
        omega
      refine .bind (shaped.updateFrom (fun _ _ => admissible.covers) contains.low index within) ?_
      rintro root ⟨shape, replaced⟩
      refine .some ⟨_, inTree.set index elt, inTail, rfl, ?_, rfl, ?_⟩
      · exact { contains with
          cnt := by rw [List.length_set]; exact contains.cnt
          tree := .inr ⟨shape, by rw [replaced, elements]⟩ }
      · rw [List.set_append_left _ _ (by omega)]

end Owl.Lists
