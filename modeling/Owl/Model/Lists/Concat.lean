import Owl.Model.Lists.Node

/-! # Concatenation of trees

Two trees are joined along the right edge of the left one and the left edge of the right one. At every
level the nodes that meet are rebalanced: a plan says how many slots each new node gets, and the slots
are copied in order.
-/

namespace Owl.Lists

variable {α : Type}

/-- `size_sub_trie`. -/
def sizeSubTrie : ℕ → Node α → Option ℕ
  | 0, node => node.len
  | height + 1, .internal none child => do
      let lastSize ← sizeSubTrie height (slot child (child.length - 1))
      let full ← shl (child.length - 1) (height + 1)
      return u32 (full + lastSize)
  | _ + 1, .internal (some table) child => table[child.length - 1]?
  | _ + 1, _ => none

/-- The loop of `set_sizes`: the running sums of the sizes of the children. -/
def sizesFrom (height : ℕ) : ℕ → List (Node α) → Option (List ℕ)
  | _, [] => some []
  | sum, node :: nodes => do
      let size ← sizeSubTrie height node
      let sizes ← sizesFrom height (u32 (sum + size)) nodes
      return u32 (sum + size) :: sizes

/-- `set_sizes`. -/
def setSizes (node : Node α) : ℕ → Option (Node α)
  | 0 => none
  | height + 1 => do
      let child ← node.children
      let table ← sizesFrom height 0 child
      return .internal (some table) child

/-- `find_shift`, as a height. -/
def findShift : Node α → Option ℕ
  | .null => none
  | .leaf _ => some 0
  | .internal _ [] => none
  | .internal _ (first :: _) => (findShift first).map (1 + ·)

/-- Skip over the counts that are large enough. -/
def skipFull : ℕ → List ℕ → Option ℕ
  | _, [] => none
  | i, count :: counts => if RRB_BRANCHING - RRB_INVARIANT < count then skipFull (i + 1) counts else some i

/-- Redistribute the slots of a short node over the counts behind it. The count at which nothing remains
takes the place of the one before it, as all counts behind move up: the first result says how many
counts were filled before that one. -/
def redistribute : ℕ → List ℕ → Option (ℕ × List ℕ)
  | _, [] => none
  | remaining, next :: counts =>
      let minSize := min (remaining + next) RRB_BRANCHING
      let remaining := remaining + next - minSize
      if remaining = 0 then
        some (0, minSize :: counts)
      else
        (redistribute remaining counts).map fun filled => (filled.1 + 1, minSize :: filled.2)

/-- The outer loop of `create_concat_plan`. Each round removes one count, so the first argument, at the
start the number of counts, does not run out. -/
def shuffle (optimalSlots : ℕ) : ℕ → ℕ → List ℕ → Option (List ℕ)
  | 0, _, counts => some counts
  | rounds + 1, i, counts =>
      if optimalSlots + RRB_EXTRAS < counts.length then do
        let i ← skipFull i (counts.drop i)
        let remaining ← counts[i]?
        let filled ← redistribute remaining (counts.drop (i + 1))
        shuffle optimalSlots rounds (i + filled.1) (counts.take i ++ filled.2)
      else
        some counts

/-- `create_concat_plan`: the counts up to `top_len`. -/
def createConcatPlan (all : List (Node α)) : Option (List ℕ) := do
  let nodeCount ← all.mapM Node.len
  let totalNodes := nodeCount.sum
  let optimalSlots := u32Sub totalNodes 1 / RRB_BRANCHING + 1
  shuffle optimalSlots nodeCount.length 0 nodeCount

-- The loops for leaf nodes and for internal nodes differ in what a slot is and in how a new node is finished.
section Execute

variable {β : Type}

/-- Copy slots into a new node, from an offset in the first of the old nodes on. The result is followed by
the old nodes that are left and the offset in the first of them. -/
def copySlots (slots : Node α → Option (List β)) :
    List (Node α) → ℕ → ℕ → Option (List β × List (Node α) × ℕ)
  | old, offset, 0 => some ([], old, offset)
  | [], _, _ + 1 => none
  | oldNode :: old, offset, missing + 1 => do
      let child ← slots oldNode
      if child.length - offset ≤ missing + 1 then
        let copied ← copySlots slots old 0 (missing + 1 - (child.length - offset))
        return (child.drop offset ++ copied.1, copied.2)
      else
        return ((child.drop offset).take (missing + 1), oldNode :: old, offset + (missing + 1))

/-- The loop over the plan. An old node with the planned length is taken as it is. -/
def executeFrom (slots : Node α → Option (List β)) (finish : List β → Option (Node α)) :
    List ℕ → List (Node α) → ℕ → Option (List (Node α))
  | [], _, _ => some []
  | newSize :: nodeSize, old, offset => do
      let oldNode ← old.head?
      let oldLen ← oldNode.len
      if offset = 0 ∧ newSize = oldLen then
        let nodes ← executeFrom slots finish nodeSize old.tail 0
        return oldNode :: nodes
      else
        let copied ← copySlots slots old offset newSize
        let newNode ← finish copied.1
        let nodes ← executeFrom slots finish nodeSize copied.2.1 copied.2.2
        return newNode :: nodes

end Execute

/-- `execute_concat_plan`, for the children of a node of a height. -/
def executeConcatPlan (all : List (Node α)) (nodeSize : List ℕ) : ℕ → Option (List (Node α))
  | 0 => none
  | 1 => executeFrom Node.elements (fun child => some (.leaf child)) nodeSize all 0
  | height + 2 => executeFrom Node.children (fun child => setSizes (.internal none child) (height + 1)) nodeSize all 0

/-- `internal_node_merge`; a missing node has no children. -/
def internalNodeMerge (left centre right : Node α) : Option (List (Node α)) := do
  let leftChild ← match left with
    | .null => some []
    | .internal _ (first :: child) => some (first :: child).dropLast
    | _ => none
  let centreChild ← match centre with
    | .null => some []
    | node => node.children
  let rightChild ← match right with
    | .null => some []
    | .internal _ (_ :: child) => some child
    | _ => none
  return leftChild ++ centreChild ++ rightChild

/-- `internal_node_new_above1`. -/
def internalNodeNewAbove1 (child : Node α) : Node α := .internal none [child]

/-- `internal_node_new_above`. -/
def internalNodeNewAbove (left right : Node α) : Node α := .internal none [left, right]

/-- `rebalance`. -/
def rebalance (left centre right : Node α) (height : ℕ) (isTop : Bool) : Option (Node α) := do
  let all ← internalNodeMerge left centre right
  let nodeCount ← createConcatPlan all
  let newAll ← executeConcatPlan all nodeCount height
  if nodeCount.length ≤ RRB_BRANCHING then
    if isTop then
      return .internal none newAll
    else
      let sized ← setSizes (.internal none newAll) height
      return internalNodeNewAbove1 sized
  else
    let newLeft ← setSizes (.internal none (newAll.take RRB_BRANCHING)) height
    let newRight ← setSizes (.internal none (newAll.drop RRB_BRANCHING)) height
    return internalNodeNewAbove newLeft newRight

/-- `concat_sub_tree`. -/
def concatSubTree (left : Node α) (leftHeight : ℕ) (right : Node α) (rightHeight : ℕ) (isTop : Bool) :
    Option (Node α) :=
  if rightHeight < leftHeight then do
    let leftChild ← left.children
    let centre ← concatSubTree (slot leftChild (leftChild.length - 1)) (leftHeight - 1) right rightHeight false
    rebalance left centre .null leftHeight isTop
  else if leftHeight < rightHeight then do
    let rightChild ← right.children
    let centre ← concatSubTree left leftHeight (slot rightChild 0) (rightHeight - 1) false
    rebalance .null centre right rightHeight isTop
  else if leftHeight = 0 then
    if isTop then do
      let leftLeaf ← left.elements
      let rightLeaf ← right.elements
      if leftLeaf.length + rightLeaf.length ≤ RRB_BRANCHING then
        return internalNodeNewAbove1 (.leaf (leftLeaf ++ rightLeaf))
      else
        return internalNodeNewAbove left right
    else
      return internalNodeNewAbove left right
  else do
    let leftChild ← left.children
    let rightChild ← right.children
    let centre ← concatSubTree (slot leftChild (leftChild.length - 1)) (leftHeight - 1)
      (slot rightChild 0) (rightHeight - 1) false
    rebalance left centre right leftHeight isTop
termination_by leftHeight + rightHeight

/-- The root of a concatenation and its height, as `rrb_concat` sets them. -/
def concatRoots (left : Node α) (leftHeight : ℕ) (right : Node α) (rightHeight : ℕ) : Option (Node α × ℕ) := do
  let rootCandidate ← concatSubTree left leftHeight right rightHeight true
  let height ← findShift rootCandidate
  let root ← setSizes rootCandidate height
  return (root, height)

end Owl.Lists
