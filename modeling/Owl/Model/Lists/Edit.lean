import Owl.Model.Lists.Heads

/-! # Replacing and removing elements

A replacement copies the head and the nodes on the way to the element. The last element is removed from the tail;
when it was alone there, the rightmost leaf of the tree becomes the tail.
-/

namespace Owl.Lists

variable {α : Type}

/-- The loop of `rrb_update` from a node on. The copy of a node keeps its size table. -/
def updateFrom (elt : α) : ℕ → Node α → ℕ → Option (Node α)
  | 0, .leaf child, index =>
      if index &&& RRB_MASK < child.length then some (.leaf (child.set (index &&& RRB_MASK) elt)) else none
  | height + 1, .internal none child, index => do
      let childIndex ← radix index (height + 1)
      let node ← updateFrom elt height (slot child childIndex) index
      return .internal none (child.set childIndex node)
  | height + 1, .internal (some table) child, index => do
      let pos ← sizedPos table index (height + 1)
      let node ← updateFrom elt height (slot child pos.1) pos.2
      return .internal (some table) (child.set pos.1 node)
  | _, _, _ => none

/-- `rrb_update`; the inner `none` is `NULL`. -/
def rrbUpdate (rrb : Rrb α) (index : ℕ) (elt : α) : Option (Option (RrbPtr α)) :=
  if index < rrb.cnt then
    let tailOffset := u32Sub rrb.cnt rrb.tailLen
    if tailOffset ≤ index then do
      let child ← rrb.tail.elements
      if index - tailOffset < child.length then
        return some (.allocated { rrb with tail := .leaf (child.set (index - tailOffset) elt) })
      else
        none
    else do
      let root ← updateFrom elt rrb.height rrb.root index
      return some (.allocated { rrb with root })
  else
    some none

/-- `leaf_node_dec`. -/
def leafNodeDec : Node α → Option (Node α)
  | .leaf child => if child = [] then none else some (.leaf child.dropLast)
  | _ => none

/-- `rrb_pop`. -/
def rrbPop (rrb : Rrb α) : Option (RrbPtr α) :=
  if rrb.cnt = 1 then
    some .emptyRrb
  else
    let newRrb := { rrb with cnt := u32Sub rrb.cnt 1 }
    if rrb.tailLen = 1 then
      (promoteRightmostLeaf newRrb).map .allocated
    else do
      let newTail ← leafNodeDec rrb.tail
      return .allocated { newRrb with tailLen := u32Sub rrb.tailLen 1, tail := newTail }

end Owl.Lists
