import Owl.Model.Lists.Heads
import Owl.Model.Runtime.Machine
import Owl.Model.Runtime.Value

/-! # Lists in memory

The functions on lists are modelled on trees. Here the tree of a list is read from the nodes on the heap, and
the tree of a result is put back. A node that an operand has already is shared, every other node becomes a new
object, and so does the head of the list. What a function allocates besides and drops again is left open: such
blocks may be allocated before every block that stays.
-/

namespace Owl.Lists

open Owl.Runtime (Term)

mutual

/-- Two nodes with the same slots all the way down. -/
def Node.same : Node Term → Node Term → Bool
  | .null, .null => true
  | .leaf child, .leaf child' => child = child'
  | .internal sizeTable child, .internal sizeTable' child' => sizeTable = sizeTable' && Node.sameAll child child'
  | _, _ => false

def Node.sameAll : List (Node Term) → List (Node Term) → Bool
  | [], [] => true
  | node :: nodes, node' :: nodes' => node.same node' && Node.sameAll nodes nodes'
  | _, _ => false

end

def RrbPtr.same : RrbPtr Term → RrbPtr Term → Bool
  | .emptyRrb, .emptyRrb => true
  | .allocated rrb, .allocated rrb' =>
      rrb.cnt = rrb'.cnt && rrb.height = rrb'.height && rrb.tailLen = rrb'.tailLen && rrb.tail.same rrb'.tail &&
        rrb.root.same rrb'.root
  | _, _ => false

end Owl.Lists

namespace Owl.Runtime

open Owl.Lists

/-- A computation that allocates: the heap, and the blocks that have been allocated so far. -/
abbrev Allocating := StateT (Heap × List Bytes) (Except Stop)

namespace Allocating

/-- Look something up on the heap. -/
def read {α : Type} (look : Heap → Except Stop α) : Allocating α := do
  let (heap, _) ← get
  look heap

def allocAll (blocks : List Bytes) : Allocating Unit := do
  let (heap, earlier) ← get
  let heap ← heap.allocBlocks blocks
  set (heap, earlier ++ blocks)

/-- The address of a new block with its contents, behind any blocks that are dropped again. -/
def alloc (scratch : Heap → List Bytes) (block : Bytes) : Allocating ℕ := do
  let (heap, _) ← get
  allocAll (scratch heap)
  let (heap, _) ← get
  allocAll [block]
  return heap.allocPtr + 1

end Allocating

/-- Nodes and their addresses. -/
abbrev Places := List (Node Term × ℕ)

/-- A list in memory, with its nodes. -/
structure ListAt where
  address : ℕ
  list : RrbPtr Term
  nodes : Places

namespace Heap

def readTerms (heap : Heap) (address n : ℕ) : List Term :=
  (List.range n).map fun i => heap.readTerm (address + 8 * i)

/-- The node of a height at an address, and all nodes below it. -/
def nodeAt (heap : Heap) : ℕ → ℕ → Option (Node Term × Places)
  | 0, address =>
      if address ≠ 0 && heap.isLeaf address then
        let node := .leaf (heap.readTerms (address + sizeofLeafNode) (heap.nodeLen address))
        some (node, [(node, address)])
      else none
  | height + 1, address =>
      if address ≠ 0 && !heap.isLeaf address then do
        let child ← (List.range (heap.nodeLen address)).mapM fun i =>
          heap.nodeAt height (heap.mem.readNat (address + sizeofInternalNode + 8 * i) 8)
        let table := heap.mem.readNat (address + 16) 8
        let sizeTable := if table = 0 then none else some (heap.sizesAt table (heap.nodeLen address))
        let node := .internal sizeTable (child.map Prod.fst)
        return (node, (node, address) :: child.flatMap Prod.snd)
      else none

/-- `list_to_rrb`. The shift of a list is a multiple of `RRB_BITS`. -/
def listAt (heap : Heap) (emptyRrb address : ℕ) : Option ListAt :=
  if address = emptyRrb then some { address, list := .emptyRrb, nodes := [] }
  else do
    let shift := heap.mem.readNat (address + 4) 4
    let root := heap.mem.readNat (address + 24) 8
    if address = 0 || shift % RRB_BITS ≠ 0 then none
    else do
      let (tail, tailNodes) ← heap.nodeAt 0 (heap.mem.readNat (address + 16) 8)
      let (root, rootNodes) ← if root = 0 then some (.null, []) else heap.nodeAt (shift / RRB_BITS) root
      let list := .allocated
        { cnt := heap.mem.readNat address 4, height := shift / RRB_BITS,
          tailLen := heap.mem.readNat (address + 8) 4, tail, root }
      return { address, list, nodes := tailNodes ++ rootNodes }

end Heap

/-- `LeafNode`: its type, its length, a word that nothing reads, and its elements. -/
def leafBlock (child : List Term) : Bytes :=
  littleEndian 4 0 ++ littleEndian 4 child.length ++ littleEndian 8 0 ++
    child.flatMap fun term => littleEndian 8 term.toNat

/-- `InternalNode`. -/
def internalBlock (table : ℕ) (child : List ℕ) : Bytes :=
  littleEndian 4 1 ++ littleEndian 4 child.length ++ littleEndian 8 0 ++ littleEndian 8 table ++
    child.flatMap fun node => littleEndian 8 node

/-- `RRBSizeTable`. -/
def tableBlock (entries : List ℕ) : Bytes := littleEndian 8 0 ++ entries.flatMap fun entry => littleEndian 4 entry

/-- `RRB`. -/
def headBlock (cnt height tailLen tail root : ℕ) : Bytes :=
  littleEndian 4 cnt ++ littleEndian 4 (RRB_BITS * height) ++ littleEndian 8 tailLen ++ littleEndian 8 tail ++
    littleEndian 8 root

def Places.find (known : Places) (node : Node Term) : Option ℕ :=
  (List.find? (fun entry => entry.1.same node) known).map Prod.snd

section Placing

variable (scratch : Heap → List Bytes)

/-- A size table has an entry for each slot of its node; zero stands for `NULL`. -/
def placeTable (len : ℕ) : Option (List ℕ) → Allocating ℕ
  | none => return 0
  | some entries =>
      if entries.length < len then throw .outOfBounds
      else Allocating.alloc scratch (tableBlock (entries.take len))

/-- A new node behind its size table. -/
def placeInternal (sizeTable : Option (List ℕ)) (child : List ℕ) : Allocating ℕ := do
  let table ← placeTable scratch child.length sizeTable
  Allocating.alloc scratch (internalBlock table child)

mutual

/-- The address of a node. The slots of a node that stays are never `NULL`. -/
def placeNode (known : Places) : Node Term → Allocating ℕ
  | .null => throw .outOfBounds
  | .leaf child =>
      match known.find (.leaf child) with
      | some address => return address
      | none => Allocating.alloc scratch (leafBlock child)
  | .internal sizeTable child =>
      match known.find (.internal sizeTable child) with
      | some address => return address
      | none => do
          let child ← placeNodes known child
          placeInternal scratch sizeTable child

def placeNodes (known : Places) : List (Node Term) → Allocating (List ℕ)
  | [] => return []
  | node :: nodes => do
      let address ← placeNode known node
      let addresses ← placeNodes known nodes
      return address :: addresses

end

/-- The root of a list without a tree is `NULL`. -/
def placeRoot (known : Places) : Node Term → Allocating ℕ
  | .null => return 0
  | root => placeNode scratch known root

/-- The address of a list. -/
def placeList (emptyRrb : ℕ) (operands : List ListAt) (result : RrbPtr Term) : Allocating ℕ :=
  match operands.find? fun operand => operand.list.same result with
  | some operand => return operand.address
  | none =>
      match result with
      | .emptyRrb => return emptyRrb
      | .allocated rrb => do
          let known := operands.flatMap ListAt.nodes
          let tail ← placeNode scratch known rrb.tail
          let root ← placeRoot scratch known rrb.root
          Allocating.alloc scratch (headBlock rrb.cnt rrb.height rrb.tailLen tail root)

end Placing

end Owl.Runtime
