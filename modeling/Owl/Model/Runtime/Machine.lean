import Owl.Model.Runtime.Collector

/-! # The virtual machine

Frames, code, the function table and the heap, with the accessors that the instructions are written in.
The interning library, the system allocator, the file system and the addresses of the string literals in
the C code are parameters, and so are the routines of the runtime library: a routine computes its result and
the contents of the blocks it allocates, and it writes to no other memory.
-/

namespace Owl.Runtime

def REGISTER_COUNT : ℕ := 100
def STACK_DEPTH : ℕ := 300
def MAX_FUNCTIONS : ℕ := 255
def NO_FUNCTION : ℕ := 2 ^ 64 - 1

/-- `frame_t`. Functions are referred to by address, and `NULL` is zero. -/
structure Frame where
  retAddress : ℕ
  retRegister : ℕ
  function : ℕ
  registers : ℕ → Term

/-- A record that `owl_function_init` allocates outside the heap; it has no upvalues. -/
structure StaticFunction where
  location : ℕ
  name : ℕ
deriving DecidableEq, Repr

/-- The two interning tables. -/
inductive Pool where
  | functionNames
  | internPool
deriving DecidableEq, Repr

/-- `vm_t`. Bytes of `code` beyond the loaded code are zero in a new machine. -/
structure Vm (World : Type) where
  frames : ℕ → Frame
  currentFrame : ℕ
  ip : ℕ
  code : ByteMemory
  codeSize : ℕ
  functions : ℕ → ℕ
  currentFunction : ℕ
  heap : Heap
  statics : ℕ → Option StaticFunction
  world : World

/-- The result of a library routine and the contents of the blocks it allocates, in order. -/
structure Reply (World : Type) where
  result : Term
  blocks : List Bytes
  world : World

/-- What a routine reads: the heap, and the function records outside it. -/
structure Memory where
  heap : Heap
  statics : ℕ → Option StaticFunction

def Vm.memory {World : Type} (vm : Vm World) : Memory := ⟨vm.heap, vm.statics⟩

abbrev Routine (World : Type) := Memory → World → List Term → Except Stop (Reply World)

/-- The string literals in the C code that terms and function records refer to. -/
def literals : List Bytes :=
  [bytes "Anonymous", bytes "true", bytes "false", bytes "nil", bytes ""]

/-- What the machine uses of the system and of the runtime library. -/
structure Host (World : Type) where
  stack : ℕ
  emptyRrb : ℕ
  literal : Bytes → ℕ
  malloc : World → ℕ × World
  intern : World → Pool → Bytes → ℕ × World
  lookup : World → Pool → Bytes → ℕ
  lookupId : World → Pool → ℕ → ℕ
  text : World → Pool → ℕ → Bytes
  moduleFile : World → Bytes → Option Bytes
  compileFile : World → Heap → Term → Bytes
  termPrint : Memory → World → Term → Except Stop World
  termsEq : Memory → World → Term → Term → Except Stop Bool
  concat : Routine World
  termToString : Routine World
  listPush : Routine World
  listNth : Routine World
  listCount : Routine World
  listSlice : Routine World
  stringSlice : Routine World
  stringCount : Routine World
  stringContains : Routine World
  filePwd : Routine World
  fileLs : Routine World

variable {World : Type}

/-- A computation of the machine. -/
abbrev Exec (World : Type) := StateT (Vm World) (Except Stop)

/-- `next_byte`. -/
def nextByte : Exec World UInt8 := do
  modify fun vm => { vm with ip := vm.ip + 1 }
  let vm ← get
  return vm.code vm.ip

/-- `next_int`. -/
def nextInt : Exec World Term := do
  let val1 ← nextByte
  let val2 ← nextByte
  let actualVal : UInt16 := val1.toUInt16 + 256 * val2.toUInt16
  return intFrom actualVal.toUInt64

/-- `fun->upvalues[index]`, an array of `n_upvalues` terms; records outside the heap have none. -/
def upvalueOf (function index : ℕ) : Exec World Term := do
  let vm ← get
  if function = 0 || (vm.statics function).isSome then throw .outOfBounds
  else if vm.heap.nUpvalues function ≤ index then throw .outOfBounds
  else return vm.heap.upvalue function index

/-- `get_var`. -/
def getVar (reg : UInt8) : Exec World Term := do
  let vm ← get
  if 128 ≤ reg then upvalueOf vm.currentFunction (reg - 128).toNat
  else if REGISTER_COUNT ≤ reg.toNat then throw .outOfBounds
  else return (vm.frames vm.currentFrame).registers reg.toNat

/-- An assignment to one frame. -/
def Vm.setFrame (vm : Vm World) (i : ℕ) (frame : Frame) : Vm World :=
  { vm with frames := Function.update vm.frames i frame }

def Frame.setRegister (frame : Frame) (reg : ℕ) (term : Term) : Frame :=
  { frame with registers := Function.update frame.registers reg term }

/-- `set_reg`. -/
def setReg (reg : UInt8) (term : Term) : Exec World Unit := do
  let vm ← get
  if REGISTER_COUNT ≤ reg.toNat then throw .outOfBounds
  else set (vm.setFrame vm.currentFrame ((vm.frames vm.currentFrame).setRegister reg.toNat term))

/-- `vm->ip += n`. -/
def advance (n : ℕ) : Exec World Unit := modify fun vm => { vm with ip := vm.ip + n }

/-- `fun->location`. -/
def locationOf (function : ℕ) : Exec World ℕ := do
  let vm ← get
  match vm.statics function with
  | some record => return record.location
  | none => return vm.heap.mem.readNat function 8

/-- `fun->name`. -/
def nameOf (function : ℕ) : Exec World ℕ := do
  let vm ← get
  match vm.statics function with
  | some record => return record.name
  | none => return vm.heap.mem.readNat (function + 8) 8

/-- Lift an allocation. -/
def onHeap {α : Type} (run : Heap → Except Stop (α × Heap)) : Exec World α := do
  let vm ← get
  let (result, heap) ← run vm.heap
  set { vm with heap }
  return result

/-- The blocks of a routine are allocated one after the other. A size that does not fit its 32-bit
parameter gives a block that is too short for its contents. -/
def Heap.allocBlocks (heap : Heap) : List Bytes → Except Stop Heap
  | [] => .ok heap
  | block :: blocks => do
      let (object, heap) ← heap.owlAlloc block.length
      if align block.length < block.length then throw .outOfBounds
      else Heap.allocBlocks { heap with mem := heap.mem.writeBytes object block } blocks

/-- Call a library routine. -/
def call (routine : Routine World) (args : List Term) : Exec World Term := do
  let vm ← get
  let reply ← routine vm.memory vm.world args
  let heap ← vm.heap.allocBlocks reply.blocks
  set { vm with heap, world := reply.world }
  return reply.result

/-- One step of the root scan: a register that was never written holds no term. -/
def copyRegister (host : Host World) (i j : ℕ) : Exec World Unit := do
  let vm ← get
  let object := (vm.frames i).registers j
  if object ≠ 0 then
    let copied ← onHeap fun heap => heap.copy host.emptyRrb host.stack object
    modify fun vm => vm.setFrame i ((vm.frames i).setRegister j copied)

/-- Apply an action to `start`, `start + 1`, up to `n` of them. -/
def forFrom (action : ℕ → Exec World Unit) : ℕ → ℕ → Exec World Unit
  | _, 0 => return ()
  | start, n + 1 => do
      action start
      forFrom action (start + 1) n

/-- `gc_collect`. -/
def gcCollect (host : Host World) : Exec World Unit := do
  modify fun vm => { vm with heap := vm.heap.swapSpaces }
  let vm ← get
  forFrom (fun i => forFrom (copyRegister host i) 0 REGISTER_COUNT) 0 (vm.currentFrame + 1)

/-- `gc_safepoint`: collect when less than a tenth of the space is left. -/
def gcSafepoint (host : Host World) : Exec World Unit := do
  let vm ← get
  let spaceSize := vm.heap.size / 2
  let buffer := spaceSize / 10
  if vm.heap.toSpace + spaceSize < vm.heap.allocPtr + buffer then gcCollect host

end Owl.Runtime
