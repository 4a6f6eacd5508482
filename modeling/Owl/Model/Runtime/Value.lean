import Owl.Model.Runtime.Collector

/-! # What a term stands for

A value is a finite tree. A term that refers to the heap stands for an object: its plain data and the
values of the words that it holds, in order. Every other term stands for itself. Reading follows words
to a bounded depth and fails on what is not an object in allocated memory, so that a value that can be
read lies wholly in allocated blocks.
-/

namespace Owl.Runtime

/-- The kinds of heap objects. Terms refer to the first four by their tags; nodes are inside lists. -/
inductive Form where
  | tuple
  | string
  | function
  | list
  | node
deriving DecidableEq, Repr

def Form.ofTag (bits : UInt64) : Option Form :=
  if bits = Tag.tuple.bits then some .tuple
  else if bits = Tag.string.bits then some .string
  else if bits = Tag.function.bits then some .function
  else if bits = Tag.list.bits then some .list
  else none

structure Object where
  form : Form
  address : ℕ
deriving DecidableEq, Repr

/-- A word of an object is a term or the address of a node. -/
inductive Ref where
  | term (term : Term)
  | node (address : ℕ)
deriving DecidableEq, Repr

/-- Where an object holds a word, from its start, and whether the word is the address of a node. -/
structure Slot where
  offset : ℕ
  isNode : Bool
deriving DecidableEq, Repr

/-- The plain data of an object. -/
inductive Head where
  | tuple
  | string (text : Bytes)
  | function (location name : ℕ)
  | list (cnt shift tailLen : ℕ)
  | leaf
  | internal (sizes : Option (List ℕ))
deriving DecidableEq, Repr

inductive Value where
  | atom (term : Term)
  | object (head : Head) (parts : List Value)
deriving Repr

/-- A reference that stands for itself. -/
def Ref.atom : Ref → Option Value
  | .term word => some (.atom word)
  | .node _ => none

mutual

/-- All atoms and all heads of a value meet a condition. -/
def Value.all (atomOk : Term → Bool) (headOk : Head → Bool) : Value → Bool
  | .atom term => atomOk term
  | .object head parts => headOk head && Value.allParts atomOk headOk parts

def Value.allParts (atomOk : Term → Bool) (headOk : Head → Bool) : List Value → Bool
  | [] => true
  | part :: parts => part.all atomOk headOk && Value.allParts atomOk headOk parts

end

mutual

/-- A value with other atoms. -/
def Value.mapAtoms (f : Term → Term) : Value → Value
  | .atom term => .atom (f term)
  | .object head parts => .object head (Value.mapParts f parts)

def Value.mapParts (f : Term → Term) : List Value → List Value
  | [] => []
  | part :: parts => part.mapAtoms f :: Value.mapParts f parts

end

/-- Forget the integers of a value. -/
def Value.references (value : Value) : Value :=
  value.mapAtoms fun term => if tagOf term = Tag.int.bits then 0 else term

/-- Text on the heap whose copy keeps its terminator: the collector copies the bytes of a text up to a
multiple of eight. -/
def Head.whole : Head → Bool
  | .string text => text.length % 8 ≠ 0
  | _ => true

def Value.whole (value : Value) : Bool := value.all (fun _ => true) Head.whole

namespace Heap

/-- The two semispaces. -/
def inArena (heap : Heap) (ptr : ℕ) : Bool :=
  min heap.toSpace heap.fromSpace ≤ ptr && ptr < min heap.toSpace heap.fromSpace + heap.size

/-- The object that a word refers to. -/
def target (heap : Heap) : Ref → Option Object
  | .term term =>
      if heap.inArena (extractPtr term) then (Form.ofTag (tagOf term)).map (⟨·, extractPtr term⟩)
      else none
  | .node address => some ⟨.node, address⟩

/-- The length of the text at an address; text that does not end is longer than the heap. -/
def textLength (heap : Heap) (address : ℕ) : ℕ :=
  (strlenWithin heap.mem heap.size address).toOption.getD heap.size

def isLeaf (heap : Heap) (node : ℕ) : Bool := heap.mem.readNat node 4 = 0

def nodeLen (heap : Heap) (node : ℕ) : ℕ := heap.mem.readNat (node + 4) 4

/-- The size table of an object, or zero. -/
def table (heap : Heap) (object : Object) : ℕ :=
  if object.form = .node ∧ !heap.isLeaf object.address then heap.mem.readNat (object.address + 16) 8 else 0

/-- The bytes of an object, without its flag and its size table. -/
def extent (heap : Heap) (object : Object) : ℕ :=
  match object.form with
  | .tuple => 8 + 8 * heap.mem.readNat object.address 8
  | .string => (heap.textLength object.address / 8 + 1) * 8
  | .function => sizeofFunction + 8 * heap.nUpvalues object.address
  | .list => sizeofRrb
  | .node => (if heap.isLeaf object.address then sizeofLeafNode else sizeofInternalNode) +
      8 * heap.nodeLen object.address

/-- The bytes of a size table with `n` entries. -/
def tableExtent (n : ℕ) : ℕ := sizeofSizeTable + 4 * n

def slotsFrom (offset n : ℕ) (isNode : Bool) : List Slot :=
  (List.range n).map fun i => ⟨offset + 8 * i, isNode⟩

/-- The words that an object holds, in the order in which the collector visits them. -/
def slots (heap : Heap) (object : Object) : List Slot :=
  match object.form with
  | .tuple => slotsFrom 8 (heap.mem.readNat object.address 8) false
  | .string => []
  | .function => slotsFrom sizeofFunction (heap.nUpvalues object.address) false
  | .list => (if heap.mem.readNat (object.address + 24) 8 ≠ 0 then [⟨24, true⟩] else []) ++ [⟨16, true⟩]
  | .node => if heap.isLeaf object.address then slotsFrom sizeofLeafNode (heap.nodeLen object.address) false
      else slotsFrom sizeofInternalNode (heap.nodeLen object.address) true

/-- The reference at an address. -/
def refAt (heap : Heap) (address : ℕ) (isNode : Bool) : Ref :=
  if isNode then .node (heap.mem.readNat address 8) else .term (heap.readTerm address)

/-- The entries of a size table. -/
def sizesAt (heap : Heap) (table n : ℕ) : List ℕ :=
  (List.range n).map fun i => heap.mem.readNat (table + sizeofSizeTable + 4 * i) 4

def head (heap : Heap) (object : Object) : Head :=
  let address := object.address
  match object.form with
  | .tuple => .tuple
  | .string => .string (heap.mem.readBytes address (heap.textLength address))
  | .function => .function (heap.mem.readNat address 8) (heap.mem.readNat (address + 8) 8)
  | .list => .list (heap.mem.readNat address 4) (heap.mem.readNat (address + 4) 4)
      (heap.mem.readNat (address + 8) 4)
  | .node =>
      if heap.isLeaf address then .leaf
      else .internal (if heap.table object = 0 then none
        else some (heap.sizesAt (heap.table object) (heap.nodeLen address)))

/-- The object and its size table lie in allocated blocks. -/
def holds (heap : Heap) (object : Object) : Bool :=
  heap.toSpace < object.address && object.address + heap.extent object ≤ heap.allocPtr &&
    (heap.table object = 0 || heap.toSpace < heap.table object &&
      heap.table object + tableExtent (heap.nodeLen object.address) ≤ heap.allocPtr)

/-- Read an object, given how to read the words that it holds. -/
def readObject (heap : Heap) (read : Ref → Option Value) (object : Object) : Option Value :=
  if heap.holds object then
    ((heap.slots object).mapM fun slot => read (heap.refAt (object.address + slot.offset) slot.isNode)).map
      (.object (heap.head object))
  else none

/-- Read a value to a depth. -/
def decode (heap : Heap) : ℕ → Ref → Option Value
  | 0, _ => none
  | depth + 1, ref =>
      match heap.target ref with
      | some object => heap.readObject (heap.decode depth) object
      | none => ref.atom

/-- A reference stands for a value. -/
def Denotes (heap : Heap) (ref : Ref) (value : Value) : Prop := ∃ depth, heap.decode depth ref = some value

end Heap

end Owl.Runtime
