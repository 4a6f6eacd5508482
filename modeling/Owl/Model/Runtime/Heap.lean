import Owl.Model.Compiler.Ast
import Owl.Model.Runtime.Term
import Owl.ToMathlib.ByteMemory

/-! # The heap

The arena is split into two semispaces. Objects are allocated upwards in the current one, each behind
a flag byte that the collector uses; a block therefore has an odd size and objects are not aligned.
-/

namespace Owl.Runtime

export Compiler (Bytes Name bytes)

/-- What stops the virtual machine. An access outside an array or a block is undefined in C and
stops the model. -/
inductive Stop where
  | exit (code : UInt8)
  | unknownOpcode
  | assertion
  | undefinedFunction
  | typeError
  | insufficientMemory
  | die
  | outOfBounds
  | pastEnd
  | unterminated
  | stackOverflow
deriving DecidableEq, Repr

/-- Memory with the state of the collector. -/
structure Heap where
  mem : ByteMemory
  toSpace : ℕ
  fromSpace : ℕ
  allocPtr : ℕ
  size : ℕ

/-- `gc_init`, with the arena at an address chosen by the system allocator. -/
def Heap.init (mem : ByteMemory) (arena size : ℕ) : Heap :=
  { mem, toSpace := arena, fromSpace := arena + size / 2, allocPtr := arena, size }

/-- `align`, on 32-bit sizes. -/
def align (size : ℕ) : ℕ :=
  let size := size % 2 ^ 32
  (if size % 8 = 0 then size else size + (8 - size % 8)) % 2 ^ 32

/-- `gc_check_overlflow`. -/
def Heap.checkOverflow (heap : Heap) (blockSize : ℕ) : Except Stop Unit :=
  if heap.toSpace + heap.size / 2 < heap.allocPtr + blockSize then .error .insufficientMemory
  else .ok ()

/-- `owl_alloc`: the address of a zeroed object, behind a zeroed flag byte. -/
def Heap.owlAlloc (heap : Heap) (n : ℕ) : Except Stop (ℕ × Heap) := do
  let blockSize := align n + 1
  heap.checkOverflow blockSize
  let object := heap.allocPtr
  return (object + 1, { heap with
    mem := heap.mem.writeBytes object (List.replicate blockSize 0)
    allocPtr := heap.allocPtr + blockSize })

/-- A term of memory. -/
def Heap.readTerm (heap : Heap) (address : ℕ) : Term := UInt64.ofNat (heap.mem.readNat address 8)

def Heap.writeTerm (heap : Heap) (address : ℕ) (term : Term) : Heap :=
  { heap with mem := heap.mem.writeNat address 8 term.toNat }

/-- `gc_usage`. -/
def Heap.usage (heap : Heap) : ℕ := heap.allocPtr - heap.toSpace

/-- `location` and `name` are words at the start of a function record, `n_upvalues` is a byte after them, and the
captured terms follow at offset 24. -/
def sizeofFunction : ℕ := 24

def upvalueAddress (function i : ℕ) : ℕ := function + sizeofFunction + 8 * i

/-- `owl_anon_function_init`. -/
def Heap.anonFunctionInit (heap : Heap) (name location : ℕ) (nUpvalues : UInt8) :
    Except Stop (ℕ × Heap) := do
  let (function, heap) ← heap.owlAlloc (sizeofFunction + nUpvalues.toNat * 8)
  let mem := heap.mem.writeNat function 8 location
  let mem := mem.writeNat (function + 8) 8 name
  let mem := mem.writeBytes (function + 16) [nUpvalues]
  return (function, { heap with mem })

/-- `owl_function_set_upvalue`. -/
def Heap.setUpvalue (heap : Heap) (function i : ℕ) (value : Term) : Heap :=
  heap.writeTerm (upvalueAddress function i) value

/-- `fun->n_upvalues`. -/
def Heap.nUpvalues (heap : Heap) (function : ℕ) : ℕ := (heap.mem (function + 16)).toNat

/-- `fun->upvalues[i]`. -/
def Heap.upvalue (heap : Heap) (function i : ℕ) : Term := heap.readTerm (upvalueAddress function i)

end Owl.Runtime
