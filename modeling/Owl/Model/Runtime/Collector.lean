import Owl.Model.Runtime.Heap

/-! # The copying collector

`copy` moves an object to the other semispace and leaves its new address behind. The recursion follows
the C call stack, so running out of `stack` is a crash. Offsets are those of the C structs: a leaf holds
its children at offset 16, an internal node its size table at 16 and its children at 24, a size table
its entries at 8, and a list head its tail at 16 and its root at 24.
-/

namespace Owl.Runtime

namespace Heap

/-- `FORWARD_FLAG`. -/
def forwardFlag (heap : Heap) (ptr : ℕ) : Bool := heap.mem (ptr - 1) ≠ 0

/-- `FORWARD_ADDRESS`. -/
def forwardAddress (heap : Heap) (ptr : ℕ) : ℕ := heap.mem.readNat ptr 8

def setForwardFlag (heap : Heap) (ptr : ℕ) (val : Bool) : Heap :=
  { heap with mem := heap.mem.writeBytes (ptr - 1) [if val then 1 else 0] }

/-- The range covers the size of both semispaces, and its upper end. -/
def onHeap (heap : Heap) (ptr : ℕ) : Bool :=
  heap.fromSpace ≤ ptr && ptr ≤ heap.fromSpace + heap.size

def forward (heap : Heap) (old new : ℕ) : Heap :=
  let heap := heap.setForwardFlag new false
  let heap := { heap with mem := heap.mem.writeNat old 8 new }
  heap.setForwardFlag old true

/-- Search for the terminator among the next `limit` bytes. -/
def strlenWithin (mem : ByteMemory) : ℕ → ℕ → Except Stop ℕ
  | 0, _ => .error .outOfBounds
  | limit + 1, ptr =>
      if mem ptr = 0 then .ok 0 else do return (← strlenWithin mem limit (ptr + 1)) + 1

def strlen (heap : Heap) (ptr : ℕ) : Except Stop ℕ := strlenWithin heap.mem (2 ^ 64) ptr

def sizeofRrb : ℕ := 32
def sizeofLeafNode : ℕ := 16
def sizeofInternalNode : ℕ := 24
def sizeofSizeTable : ℕ := 8

/-- `heap_size_of`; `emptyRrb` is the address of the static empty list. -/
def sizeOf (heap : Heap) (emptyRrb : ℕ) (term : Term) : Except Stop ℕ :=
  if term = OWL_FALSE || term = OWL_TRUE || term = OWL_NIL then .ok 0
  else
    let object := extractPtr term
    if tagOf term = Tag.tuple.bits then .ok (align ((heap.mem.readNat object 8 + 1) * 8))
    else if tagOf term = Tag.string.bits then do return align (← heap.strlen object)
    else if tagOf term = Tag.function.bits then
      .ok (align (sizeofFunction + (heap.mem (object + 16)).toNat * 8))
    else if tagOf term = Tag.list.bits then
      .ok (if object = emptyRrb then 0 else align sizeofRrb)
    else if tagOf term = Tag.pointer.bits then .error .die
    else .ok 0

/-- `memcpy` between objects that do not overlap. -/
def memcpy (heap : Heap) (dst src n : ℕ) : Heap :=
  { heap with mem := heap.mem.writeBytes dst (heap.mem.readBytes src n) }

/-- `bump_cpy`. -/
def bumpCpy (heap : Heap) (src size : ℕ) : Except Stop (ℕ × Heap) := do
  let blockSize := if size < 8 then 8 else size
  heap.checkOverflow (blockSize + 1)
  let copied := heap.allocPtr + 1
  let heap := { heap with allocPtr := heap.allocPtr + (blockSize + 1) }
  let heap := heap.memcpy copied src blockSize
  return (copied, heap.forward src copied)

/-- Replace `n` consecutive words by their copies, in order. -/
def mapWords (copyWord : Heap → Term → Except Stop (Term × Heap)) :
    ℕ → ℕ → Heap → Except Stop Heap
  | _, 0, heap => .ok heap
  | address, n + 1, heap => do
      let (word, heap) ← copyWord heap (heap.readTerm address)
      mapWords copyWord (address + 8) n (heap.writeTerm address word)

section Recursion

variable (emptyRrb : ℕ) (copy : Heap → Term → Except Stop (Term × Heap))
  (copyListNode : Heap → ℕ → Except Stop (ℕ × Heap))

/-- A word that holds the address of a node. -/
def copyPointer (heap : Heap) (word : Term) : Except Stop (Term × Heap) := do
  let (node, heap) ← copyListNode heap word.toNat
  return (UInt64.ofNat node, heap)

/-- `copy_list_node`: the children of a node are copied into the old node, which is then moved. -/
def copyListNodeBody (heap : Heap) (node : ℕ) : Except Stop (ℕ × Heap) :=
  if heap.forwardFlag node then .ok (heap.forwardAddress node, heap)
  else
    let len := heap.mem.readNat (node + 4) 4
    if heap.mem.readNat node 4 = 0 then do
      let heap ← heap.mapWords copy (node + sizeofLeafNode) len
      heap.bumpCpy node (sizeofLeafNode + len * 8)
    else do
      let heap ← heap.mapWords (copyPointer copyListNode) (node + sizeofInternalNode) len
      let heap ← if heap.mem.readNat (node + 16) 8 ≠ 0 then do
          let (table, heap) ←
            heap.bumpCpy (heap.mem.readNat (node + 16) 8) (sizeofSizeTable + len * 4)
          pure (heap.writeTerm (node + 16) (UInt64.ofNat table))
        else pure heap
      heap.bumpCpy node (sizeofInternalNode + len * 8)

/-- The guard of captured terms: a register never written holds no term. -/
def copyNonNull (heap : Heap) (word : Term) : Except Stop (Term × Heap) :=
  if word = 0 then .ok (word, heap) else copy heap word

/-- `copy_refs`, on the object that has just been copied. -/
def copyRefs (heap : Heap) (term : Term) : Except Stop Heap :=
  let object := extractPtr term
  if tagOf term = Tag.string.bits then .ok heap
  else if tagOf term = Tag.tuple.bits then
    heap.mapWords copy (object + 8) (heap.mem.readNat object 8 % 2 ^ 32)
  else if tagOf term = Tag.function.bits then
    heap.mapWords (copyNonNull copy) (upvalueAddress object 0) (heap.mem (object + 16)).toNat
  else if tagOf term = Tag.list.bits then do
    let heap ← if heap.mem.readNat (object + 24) 8 ≠ 0 then heap.mapWords (copyPointer copyListNode) (object + 24) 1
      else .ok heap
    heap.mapWords (copyPointer copyListNode) (object + 16) 1
  else .error .die

/-- `copy`. -/
def copyBody (heap : Heap) (term : Term) : Except Stop (Term × Heap) := do
  let object := extractPtr term
  if !heap.onHeap object then return (term, heap)
  else if heap.forwardFlag object then
    return ((UInt64.ofNat (heap.forwardAddress object) <<< 3) ||| tagOf term, heap)
  else
    let heapSize ← heap.sizeOf emptyRrb term
    if heapSize = 0 then return (term, heap)
    else
      heap.checkOverflow heapSize
      let copied := heap.allocPtr + 1
      let heap := { heap with allocPtr := heap.allocPtr + (heapSize + 1) }
      let heap := heap.memcpy copied object heapSize
      let copiedTerm := (UInt64.ofNat copied <<< 3) ||| tagOf term
      let heap ← heap.copyRefs copy copyListNode copiedTerm
      return (copiedTerm, heap.forward object copied)

end Recursion

mutual

def copy (emptyRrb : ℕ) : ℕ → Heap → Term → Except Stop (Term × Heap)
  | 0, _, _ => .error .stackOverflow
  | stack + 1, heap, term => heap.copyBody emptyRrb (copy emptyRrb stack) (copyListNode emptyRrb stack) term

def copyListNode (emptyRrb : ℕ) : ℕ → Heap → ℕ → Except Stop (ℕ × Heap)
  | 0, _, _ => .error .stackOverflow
  | stack + 1, heap, node =>
      heap.copyListNodeBody (copy emptyRrb stack) (copyListNode emptyRrb stack) node

end

def swapSpaces (heap : Heap) : Heap :=
  { heap with toSpace := heap.fromSpace, fromSpace := heap.toSpace, allocPtr := heap.fromSpace }

end Heap

end Owl.Runtime
