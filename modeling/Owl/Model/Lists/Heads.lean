import Owl.Model.Lists.Append
import Owl.Model.Lists.Concat
import Owl.Model.Lists.Slice

/-! # List heads

The empty list is one static object, and the code finds out whether a list is empty by the address of its head.
A list is therefore the address of a head. The leaf of the static head is static too; it has no elements and
nothing is written to it, so it is told from other leaves by its length.
-/

namespace Owl.Lists

variable {α : Type}

/-- `EMPTY_LEAF`. -/
def emptyLeaf : Node α := .leaf []

/-- The address of a list head, and the head in memory that the program has allocated. -/
inductive RrbPtr (α : Type) where
  | emptyRrb
  | allocated (rrb : Rrb α)
deriving Repr

/-- The head at an address. -/
def RrbPtr.head : RrbPtr α → Rrb α
  | emptyRrb => rrbCreate
  | allocated rrb => rrb

/-- The part of `rrb_concat` for a list on the right that is all tail. -/
def concatTails (behind : Node α) (left right : Rrb α) : Option (Rrb α) :=
  let newRrb := { left with cnt := u32 (left.cnt + right.cnt) }
  if left.tailLen = RRB_BRANCHING then
    pushDownTail behind left { newRrb with tailLen := right.tailLen } right.tail
  else if left.tailLen + right.tailLen ≤ RRB_BRANCHING then do
    -- `leaf_node_merge`
    let leftChild ← left.tail.elements
    let rightChild ← right.tail.elements
    return { newRrb with tail := .leaf (leftChild ++ rightChild), tailLen := left.tailLen + right.tailLen }
  else do
    let leftChild ← left.tail.elements
    let rightChild ← right.tail.elements
    let rightCut := u32Sub RRB_BRANCHING left.tailLen
    let pushDown ← leafNodeCreate RRB_BRANCHING (leftChild.take left.tailLen ++ rightChild.take rightCut)
    let newTailLen := u32Sub right.tailLen rightCut
    let newTail ← leafNodeCreate newTailLen ((rightChild.drop rightCut).take newTailLen)
    let leftImitation := { left with cnt := u32Sub newRrb.cnt newTailLen }
    pushDownTail behind leftImitation { newRrb with tail := pushDown, tailLen := newTailLen } newTail

/-- The part of `rrb_concat` for two trees. The tail of the left list goes down into its tree, and the new list
takes over the tail of the right one. -/
def concatTrees (behind : Node α) (left right : Rrb α) : Option (Rrb α) := do
  let left ← pushDownTail behind left left .null
  let (root, height) ← concatRoots left.root left.height right.root right.height
  return { cnt := u32 (left.cnt + right.cnt), height, tailLen := right.tailLen, tail := right.tail, root }

/-- `rrb_concat`. -/
def rrbConcat (behind : Node α) (left right : RrbPtr α) : Option (RrbPtr α) :=
  if left.head.cnt = 0 then some right
  else if right.head.cnt = 0 then some left
  else
    match right.head.root with
    | .null => (concatTails behind left.head right.head).map .allocated
    | _ => (concatTrees behind left.head right.head).map .allocated

/-- The slots that `push_down_tail` reads. -/
def downReads (behind : Node α) (rrb : Rrb α) : List SlotRead :=
  if rrb.cnt ≤ RRB_BRANCHING then [] else (searchTail behind rrb).1

/-- The slots that the search of a concatenation reads. -/
def concatReads (behind : Node α) (left right : Rrb α) : List SlotRead :=
  if left.cnt = 0 ∨ right.cnt = 0 then []
  else
    match right.root with
    | .null =>
        if left.tailLen = RRB_BRANCHING then downReads behind left
        else if left.tailLen + right.tailLen ≤ RRB_BRANCHING then []
        else
          let newTailLen := u32Sub right.tailLen (u32Sub RRB_BRANCHING left.tailLen)
          downReads behind { left with cnt := u32Sub (u32 (left.cnt + right.cnt)) newTailLen }
    | _ => downReads behind left

/-- `rrb_push`: the new list has a head of its own. -/
def rrbPushAt (behind : Node α) (list : RrbPtr α) (elt : α) : Option (RrbPtr α) :=
  (rrbPush behind list.head elt).map .allocated

/-- The address that `slice_right` returns. -/
def sliceRightAt (list : RrbPtr α) (right : ℕ) : Option (RrbPtr α) :=
  if right = 0 then some .emptyRrb
  else if right < list.head.cnt then (sliceRight list.head right).map .allocated
  else some list

/-- The address that `slice_left` returns. Where nothing is cut off, the root is filled in place. -/
def sliceLeftAt (list : RrbPtr α) (left : ℕ) : Option (RrbPtr α) :=
  if list.head.cnt ≤ left then some .emptyRrb
  else (sliceLeft list.head left).map .allocated

/-- `rrb_slice`. -/
def rrbSliceAt (list : RrbPtr α) (start stop : ℕ) : Option (RrbPtr α) := do
  let sliced ← sliceRightAt list stop
  sliceLeftAt sliced start

/-- `owl_list_is_empty`. -/
def owlListIsEmpty : RrbPtr α → Bool
  | .emptyRrb => true
  | .allocated _ => false

/-- The nodes that `copy_list_node` forwards when it is called with a node. -/
inductive Forwards : Node α → Node α → Prop
  | here (node : Node α) : Forwards node node
  | child {sizeTable : Option (List ℕ)} {child : List (Node α)} {below node : Node α} (member : below ∈ child)
      (forwards : Forwards below node) : Forwards (.internal sizeTable child) node

/-- The nodes that `copy_refs` forwards for a list. -/
def copyRefsForwards (rrb : Rrb α) (node : Node α) : Prop :=
  (rrb.root ≠ .null ∧ Forwards rrb.root node) ∨ Forwards rrb.tail node

/-- The nodes that `copy` forwards for a list: `heap_size_of` is zero for the static head. -/
def copyForwards (list : RrbPtr α) (node : Node α) : Prop :=
  ¬owlListIsEmpty list ∧ copyRefsForwards list.head node

end Owl.Lists
