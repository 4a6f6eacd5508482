import Owl.Model.Lists.Node

/-! # Appending

A push goes to the tail while there is room. A full tail becomes a leaf of the tree, and the search for its
place goes down the right edge of the tree by the index of the last element. Where the slot of that index is
behind the slots of its node, the search reads memory that belongs to no list: `behind` is what it finds
there. The code expects `NULL`.
-/

namespace Owl.Lists

variable {α : Type}

/-- A slot that the search reads, with the `len` of its node. -/
structure SlotRead where
  len : ℕ
  childIndex : ℕ
deriving DecidableEq, Repr

/-- The slot lies in its node. -/
def SlotRead.Inside (read : SlotRead) : Prop := read.childIndex < read.len

instance (read : SlotRead) : Decidable read.Inside := inferInstanceAs (Decidable (_ < _))

/-- What the search has counted; nothing reads its third variable, `pos`. -/
structure Copyable where
  nodesVisited : ℕ
  nodesToCopy : ℕ
deriving DecidableEq, Repr

/-- A node is visited and left through one of its slots. -/
def Copyable.follow (counts : Copyable) (childIndex : ℕ) : Copyable where
  nodesVisited := counts.nodesVisited + 1
  nodesToCopy := if childIndex < RRB_MASK then counts.nodesVisited + 1 else counts.nodesToCopy

/-- `index & ~(RRB_MASK << shift)`. -/
def clearDigit (index height : ℕ) : Option ℕ :=
  (shl RRB_MASK height).map fun mask => index &&& (mask ^^^ (2 ^ 32 - 1))

/-- The slot in which the search goes on and the index there; the inner `none` when the index is too large for
the node. -/
def searchSlot (sizeTable : Option (List ℕ)) (len index height : ℕ) : Option (Option (ℕ × ℕ)) :=
  match sizeTable with
  | none => do
      let above ← shr index (height + 1)
      if 0 < above then
        return none
      else
        let childIndex ← radix index height
        let index ← clearDigit index height
        return some (childIndex, index)
  | some table =>
      if len - 1 = 0 then
        some (some (0, index))
      else do
        let before ← table[len - 2]?
        return some (len - 1, u32Sub index before)

/-- The loop of `push_down_tail` and the code up to the loop at `copyable_count_end`, with the slots that are
read. -/
def search (behind : Node α) : ℕ → Node α → ℕ → Copyable → List SlotRead × Option Copyable
  | 0, _, _, counts => ([], some counts)
  | 1, current, _, counts =>
      ([], current.len.map fun len =>
        let nodesVisited := counts.nodesVisited + 1
        { nodesVisited, nodesToCopy := if len < RRB_BRANCHING then nodesVisited else counts.nodesToCopy })
  | height + 2, .internal sizeTable child, index, counts =>
      let nodesVisited := counts.nodesVisited + 1
      match searchSlot sizeTable child.length index (height + 2) with
      | none => ([], none)
      -- the loop at `copyable_count_end` visits the levels that are left
      | some none => ([], some { counts with nodesVisited := nodesVisited + (height + 1) })
      | some (some (childIndex, index)) =>
          let read : SlotRead := { len := child.length, childIndex }
          match child.getD childIndex behind with
          | .null => ([read], some { nodesVisited := nodesVisited + (height + 1), nodesToCopy := nodesVisited })
          | current =>
              let rest := search behind (height + 1) current index (counts.follow childIndex)
              (read :: rest.1, rest.2)
  | _ + 2, _, _, _ => ([], none)

/-- `append_empty`, with the node that is then written to the pointer it returns. -/
def appendEmpty : ℕ → Node α → Node α
  | 0, node => node
  | emptyHeight + 1, node => .internal none [appendEmpty emptyHeight node]

/-- The size table of a copied node. -/
def grownTable (tailSize : ℕ) (table : List ℕ) (len : ℕ) : Option (List ℕ) := do
  let last ← table[len - 1]?
  return table.set (len - 1) (u32 (last + tailSize))

/-- The size table of a node that gets one more slot. -/
def longerTable (tailSize : ℕ) (table : List ℕ) (len : ℕ) : Option (List ℕ) := do
  let last ← table[len - 1]?
  return table.take len ++ [u32 (last + tailSize)]

/-- `copy_first_k`, with the node that is then written to the pointer it returns. The last of the copied nodes
gets one more slot. -/
def copyFirstK (tailSize : ℕ) (node : Node α) : ℕ → ℕ → Node α → ℕ → Option (Node α)
  | 0, _, _, _ => some node
  | _ + 1, 0, _, _ => some node
  | 1, height + 1, .internal none child, index => do
      let childIndex ← radix index (height + 1)
      if childIndex ≤ child.length then
        return .internal none ((child ++ [Node.null]).set childIndex node)
      else
        none
  | 1, _ + 1, .internal (some table) child, _ => do
      let table ← longerTable tailSize table child.length
      return .internal (some table) (child ++ [node])
  | k + 2, height + 1, .internal none child, index => do
      let childIndex ← radix index (height + 1)
      if childIndex < child.length then
        let copied ← copyFirstK tailSize node (k + 1) height (slot child childIndex) index
        return .internal none (child.set childIndex copied)
      else
        none
  | k + 2, height + 1, .internal (some table) child, index => do
      let table' ← grownTable tailSize table child.length
      let childIndex := child.length - 1
      let before ← if childIndex = 0 then some 0 else table[childIndex - 1]?
      let copied ← copyFirstK tailSize node (k + 1) height (slot child childIndex) (u32Sub index before)
      return .internal (some table') (child.set childIndex copied)
  | _ + 1, _ + 1, _, _ => none

/-- The size table of a new root above a root. -/
def tableAbove (root : Node α) (cnt tailLen : ℕ) : Option (Option (List ℕ)) :=
  match root with
  | .null => none
  | .internal (some _) _ => some (some [u32Sub cnt tailLen, cnt])
  | _ => some none

/-- The search of `push_down_tail`. -/
def searchTail (behind : Node α) (rrb : Rrb α) : List SlotRead × Option Copyable :=
  search behind rrb.height rrb.root (u32Sub rrb.cnt 1) { nodesVisited := 0, nodesToCopy := 0 }

/-- `push_down_tail`. -/
def pushDownTail (behind : Node α) (rrb newRrb : Rrb α) (newTail : Node α) : Option (Rrb α) :=
  let oldTail := newRrb.tail
  if rrb.cnt ≤ RRB_BRANCHING then
    some { newRrb with tail := newTail, height := 0, root := oldTail }
  else do
    let counts ← (searchTail behind rrb).2
    let tailLen ← oldTail.len
    if counts.nodesToCopy = 0 then
      let table ← tableAbove rrb.root rrb.cnt tailLen
      let root := .internal table [rrb.root, appendEmpty counts.nodesVisited oldTail]
      return { newRrb with tail := newTail, height := newRrb.height + 1, root }
    else
      let empties := appendEmpty (counts.nodesVisited - counts.nodesToCopy) oldTail
      let root ← copyFirstK tailLen empties counts.nodesToCopy rrb.height rrb.root (u32Sub rrb.cnt 1)
      return { newRrb with tail := newTail, root }

/-- `rrb_tail_push`. -/
def rrbTailPush (rrb : Rrb α) (elt : α) : Option (Rrb α) := do
  let child ← rrb.tail.elements
  let tail ← leafNodeCreate (rrb.tailLen + 1) (child ++ [elt])
  return { rrb with cnt := u32 (rrb.cnt + 1), tail, tailLen := rrb.tailLen + 1 }

/-- `rrb_push`. -/
def rrbPush (behind : Node α) (rrb : Rrb α) (elt : α) : Option (Rrb α) :=
  if rrb.tailLen < RRB_BRANCHING then
    rrbTailPush rrb elt
  else
    pushDownTail behind rrb { rrb with cnt := u32 (rrb.cnt + 1), tailLen := 1 } (.leaf [elt])

/-- The slots that the search of a push reads. -/
def pushReads (behind : Node α) (rrb : Rrb α) : List SlotRead :=
  if rrb.tailLen < RRB_BRANCHING ∨ rrb.cnt ≤ RRB_BRANCHING then [] else (searchTail behind rrb).1

end Owl.Lists
