import Mathlib.Data.Nat.Bitwise

/-! # List trees

The language's lists are relaxed radix balanced trees with a tail. Nodes are never changed once an
operation has returned, so a pointer to a node is modelled by the node itself, and `NULL` by a node of
its own. The slots behind the `len` of a node read as `NULL`. Every shift in the code is a multiple of
`RRB_BITS`; a height `h` stands for the shift `RRB_BITS * h`. Following `NULL`, reading a size table
behind its end, and shifting a 32-bit word by 32 or more have no result.
-/

namespace Owl.Lists

def RRB_BITS : ℕ := 5
def RRB_MAX_HEIGHT : ℕ := 6
def RRB_BRANCHING : ℕ := 32
def RRB_MASK : ℕ := 31
def RRB_INVARIANT : ℕ := 1
def RRB_EXTRAS : ℕ := 2

def u32 (n : ℕ) : ℕ := n % 2 ^ 32

/-- Subtraction of words. -/
def u32Sub (left right : ℕ) : ℕ := u32 (left + 2 ^ 32 - right)

/-- `word >> shift`, for the shift of a height. -/
def shr (word height : ℕ) : Option ℕ :=
  if RRB_BITS * height < 32 then some (word >>> (RRB_BITS * height)) else none

/-- `word << shift`, for the shift of a height. -/
def shl (word height : ℕ) : Option ℕ :=
  if RRB_BITS * height < 32 then some (u32 (word <<< (RRB_BITS * height))) else none

/-- `(index >> shift) & RRB_MASK`. -/
def radix (index height : ℕ) : Option ℕ := (shr index height).map (· &&& RRB_MASK)

/-- A `TreeNode` pointer: `NULL`, a `LeafNode` or an `InternalNode`. -/
inductive Node (α : Type) where
  | null
  | leaf (child : List α)
  | internal (sizeTable : Option (List ℕ)) (child : List (Node α))
deriving Repr

variable {α : Type}

namespace Node

/-- `node->len`. -/
def len : Node α → Option ℕ
  | null => none
  | leaf child => some child.length
  | internal _ child => some child.length

/-- The elements of a leaf node. -/
def elements : Node α → Option (List α)
  | leaf child => some child
  | _ => none

/-- The children of an internal node. -/
def children : Node α → Option (List (Node α))
  | internal _ child => some child
  | _ => none

end Node

/-- `child[i]`. -/
def slot (child : List (Node α)) (i : ℕ) : Node α := child.getD i .null

/-- `leaf_node_create` and the copies that fill the new node: they set each of its slots once. -/
def leafNodeCreate (len : ℕ) (child : List α) : Option (Node α) :=
  if child.length = len then some (.leaf child) else none

/-- `RRB`. -/
structure Rrb (α : Type) where
  cnt : ℕ
  height : ℕ
  tailLen : ℕ
  tail : Node α
  root : Node α
deriving Repr

/-- `EMPTY_RRB`, the result of `rrb_create`. -/
def rrbCreate : Rrb α where
  cnt := 0
  height := 0
  tailLen := 0
  tail := .leaf []
  root := .null

/-- `rrb_mutable_create`: a list in zeroed memory. -/
def rrbMutableCreate : Rrb α := { rrbCreate with tail := .null }

/-- The loop of `sized_pos`: the first entry of a size table above an index, from a slot on. -/
def scan (index : ℕ) : ℕ → List ℕ → Option ℕ
  | _, [] => none
  | is, entry :: entries => if entry ≤ index then scan index (is + 1) entries else some is

/-- `sized_pos`: the slot of an index, and the index in that slot. -/
def sizedPos (table : List ℕ) (index height : ℕ) : Option (ℕ × ℕ) := do
  let guess ← shr index height
  let is ← scan index guess (table.drop guess)
  if is = 0 then
    return (is, index)
  else
    let before ← table[is - 1]?
    return (is, u32Sub index before)

/-- The descent of `rrb_nth` from a node. -/
def nthFrom : ℕ → Node α → ℕ → Option (Option α)
  | 0, .leaf child, index => some child[index &&& RRB_MASK]?
  | height + 1, .internal none child, index => do
      let subidx ← radix index (height + 1)
      nthFrom height (slot child subidx) index
  | height + 1, .internal (some table) child, index => do
      let pos ← sizedPos table index (height + 1)
      nthFrom height (slot child pos.1) pos.2
  | _, _, _ => none

/-- `rrb_nth`; the inner `none` is `NULL`. -/
def rrbNth (rrb : Rrb α) (index : ℕ) : Option (Option α) :=
  if rrb.cnt ≤ index then
    some none
  else
    let tailOffset := u32Sub rrb.cnt rrb.tailLen
    if tailOffset ≤ index then
      rrb.tail.elements.map fun child => child[index - tailOffset]?
    else
      nthFrom rrb.height rrb.root index

/-- `rrb_count`. -/
def rrbCount (rrb : Rrb α) : ℕ := rrb.cnt

end Owl.Lists
