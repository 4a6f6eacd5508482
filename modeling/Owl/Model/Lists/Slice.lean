import Owl.Model.Lists.Node

/-! # Slices

A slice is cut on the right and then on the left. Both cuts walk down one path of the tree and return the
new root with its height, which the code leaves in `total_shift`.
-/

namespace Owl.Lists

variable {α : Type}

/-- A node whose last child has been replaced by what remains of it without its rightmost leaf. -/
def shrunk (sizeTable : Option (List ℕ)) (child : List (Node α)) (tailLen : ℕ) : Node α → Option (Node α)
  | .null => some (if child.length = 1 then .null else .internal sizeTable child.dropLast)
  | rest =>
      match sizeTable with
      | none => some (.internal none (child.dropLast ++ [rest]))
      | some table => do
          let last ← table[child.length - 1]?
          return .internal (some (table.take (child.length - 1) ++ [u32Sub last tailLen])) (child.dropLast ++ [rest])

/-- The loops of `promote_rightmost_leaf` below the root: the rightmost leaf of a node, and what remains of
the node, `NULL` when nothing does. -/
def detachRight : ℕ → Node α → Option (Node α × Node α)
  | 0, node => some (node, .null)
  | height + 1, .internal sizeTable child => do
      let detached ← detachRight height (slot child (child.length - 1))
      let tailLen ← detached.1.len
      let rest ← shrunk sizeTable child tailLen detached.2
      return (detached.1, rest)
  | _ + 1, _ => none

/-- `promote_rightmost_leaf`. -/
def promoteRightmostLeaf (rrb : Rrb α) : Option (Rrb α) :=
  if RRB_MAX_HEIGHT < rrb.height then none
  else
    match rrb.height, rrb.root with
    | 0, root => do
        let tailLen ← root.len
        return { rrb with tail := root, tailLen, root := .null }
    | height + 1, .internal sizeTable child => do
        let detached ← detachRight height (slot child (child.length - 1))
        let tailLen ← detached.1.len
        match detached.2, child with
        | .null, [first, _] => return { rrb with tail := detached.1, tailLen, root := first, height }
        | rest, child =>
            let root ← shrunk sizeTable child tailLen rest
            return { rrb with tail := detached.1, tailLen, root }
    | _, _ => none

/-- `slice_right_rec`. -/
def sliceRightRec : ℕ → Node α → ℕ → Bool → Option (Node α × ℕ)
  | 0, .leaf child, right, _ => do
      let leftVals ← leafNodeCreate (right + 1) (child.take (right + 1))
      return (leftVals, 0)
  | height + 1, .internal none child, right, hasLeft => do
      let subidx ← shr right (height + 1)
      let before ← shl subidx (height + 1)
      let sliced ← sliceRightRec height (slot child subidx) (u32Sub right before) (subidx ≠ 0 || hasLeft)
      if subidx = 0 then
        if hasLeft then
          return (.internal none [sliced.1], height + 1)
        else
          return sliced
      else
        return (.internal none (child.take subidx ++ [sliced.1]), height + 1)
  | height + 1, .internal (some table) child, right, hasLeft => do
      -- the code has its own copy of the loop of `sized_pos`
      let pos ← sizedPos table right (height + 1)
      let sliced ← sliceRightRec height (slot child pos.1) pos.2 (pos.1 ≠ 0 || hasLeft)
      if pos.1 = 0 then
        if hasLeft then
          return (.internal (some [u32 (right + 1)]) [sliced.1], height + 1)
        else
          return sliced
      else
        return (.internal (some (table.take pos.1 ++ [u32 (right + 1)])) (child.take pos.1 ++ [sliced.1]), height + 1)
  | _, _, _, _ => none

/-- `slice_right`. -/
def sliceRight (rrb : Rrb α) (right : ℕ) : Option (Rrb α) :=
  if right = 0 then
    some rrbCreate
  else if right < rrb.cnt then
    let tailOffset := u32Sub rrb.cnt rrb.tailLen
    if tailOffset < right then do
      let child ← rrb.tail.elements
      let newTailLen := right - tailOffset
      let tail ← leafNodeCreate newTailLen (child.take newTailLen)
      return { rrb with cnt := right, tail, tailLen := newTailLen }
    else do
      let sliced ← sliceRightRec rrb.height rrb.root (right - 1) false
      promoteRightmostLeaf { rrbMutableCreate with cnt := right, root := sliced.1, height := sliced.2 }
  else
    some rrb

/-- `slice_left_rec`. -/
def sliceLeftRec : ℕ → Node α → ℕ → Bool → Option (Node α × ℕ)
  | 0, .leaf child, left, _ =>
      if left ≤ child.length then some (.leaf (child.drop left), 0) else none
  | height + 1, .internal sizeTable child, left, hasRight => do
      let pos ← leftPos sizeTable left (height + 1)
      let lastSlot := child.length - 1
      let sliced ← sliceLeftRec height (slot child pos.1) pos.2 (pos.1 ≠ lastSlot || hasRight)
      if pos.1 = lastSlot then
        if hasRight then
          let table ← aboveTable height sliced.1
          return (.internal table [sliced.1], height + 1)
        else
          return sliced
      else
        let table ← slicedTable sizeTable pos.1 child.length (height + 1)
        return (.internal (some (table.map (u32Sub · left))) (sliced.1 :: child.drop (pos.1 + 1)), height + 1)
  | _, _, _, _ => none
where
  /-- The slot of an index, and the index in that slot. -/
  leftPos (sizeTable : Option (List ℕ)) (left height : ℕ) : Option (ℕ × ℕ) :=
    match sizeTable with
    | none => do
        let subidx ← shr left height
        let before ← shl subidx height
        return (subidx, u32Sub left before)
    | some table => sizedPos table left height
  /-- The size table of a node above one sliced child of a height. -/
  aboveTable (height : ℕ) (sliced : Node α) : Option (Option (List ℕ)) :=
    match height, sliced with
    | _ + 1, .internal (some table) child => do
        let last ← table[child.length - 1]?
        return some [last]
    | _, _ => some none
  /-- The entries of the slots that stay, before the elements that are cut off are subtracted. -/
  slicedTable (sizeTable : Option (List ℕ)) (subidx len height : ℕ) : Option (List ℕ) :=
    match sizeTable with
    | none => (List.range (len - subidx)).mapM fun i => shl (subidx + 1 + i) height
    | some table => some ((table.drop subidx).take (len - subidx))

/-- Write the last entry of the size table of a node that has one. -/
def setLastSize (size : ℕ) : Node α → Node α
  | .internal (some table) child => .internal (some (table.set (child.length - 1) size)) child
  | node => node

/-- The end of `slice_left`: a root that is a short leaf is filled from the tail. -/
def fillRootLeaf (rrb : Rrb α) : Option (Rrb α) :=
  match rrb.height, rrb.root with
  | 0, .leaf root => do
      let child ← rrb.tail.elements
      if rrb.cnt ≤ RRB_BRANCHING then
        let tail ← leafNodeCreate rrb.cnt (root ++ child.take rrb.tailLen)
        return { rrb with tail, tailLen := rrb.cnt, root := .null }
      else if u32Sub rrb.cnt rrb.tailLen < RRB_BRANCHING then
        let tailCut := RRB_BRANCHING - root.length
        let newRoot ← leafNodeCreate RRB_BRANCHING (root ++ child.take tailCut)
        let tail ← leafNodeCreate (rrb.tailLen - tailCut) ((child.drop tailCut).take (rrb.tailLen - tailCut))
        return { rrb with tail, tailLen := rrb.tailLen - tailCut, root := newRoot }
      else
        return rrb
  | 0, .internal _ _ => none
  | _, _ => some rrb

/-- `slice_left`. -/
def sliceLeft (rrb : Rrb α) (left : ℕ) : Option (Rrb α) :=
  if rrb.cnt ≤ left then
    some rrbCreate
  else if 0 < left then
    let remaining := rrb.cnt - left
    if remaining ≤ rrb.tailLen then do
      let child ← rrb.tail.elements
      let tail ← leafNodeCreate remaining ((child.drop (rrb.tailLen - remaining)).take remaining)
      return { rrbMutableCreate with cnt := remaining, tail, tailLen := remaining }
    else do
      let sliced ← sliceLeftRec rrb.height rrb.root left false
      let root := if sliced.2 = 0 then sliced.1 else setLastSize (u32Sub remaining rrb.tailLen) sliced.1
      fillRootLeaf { cnt := remaining, height := sliced.2, tailLen := rrb.tailLen, tail := rrb.tail, root }
  else
    fillRootLeaf rrb

/-- `rrb_slice`. -/
def rrbSlice (rrb : Rrb α) (start stop : ℕ) : Option (Rrb α) := do
  let sliced ← sliceRight rrb stop
  sliceLeft sliced start

end Owl.Lists
