import Owl.Model.Runtime.Loader

/-! # The instructions

Every handler starts with `ip` at its opcode. It reads its operand bytes with `next_byte`, and an
instruction that falls through leaves `ip` at the byte after the last one it read.
-/

namespace Owl.Runtime

variable {World : Type}

/-- The text before the first dot. -/
def moduleOf (fname : Bytes) : Bytes := fname.takeWhile (· ≠ 46)

/-- An entry of the function table. -/
def functionEntry (functionId : UInt8) : Exec World ℕ := do
  let vm ← get
  if functionId.toNat < MAX_FUNCTIONS then return vm.functions functionId.toNat
  else throw .outOfBounds

/-- `load_function`: an unknown function is looked for in the file of its module. -/
def loadFunction (host : Host World) (functionId : UInt8) : Exec World ℕ := do
  let function ← functionEntry functionId
  if function ≠ NO_FUNCTION then return function
  else
    let vm ← get
    loadModuleNamed host (moduleOf (host.text vm.world .functionNames functionId.toNat))
    let function ← functionEntry functionId
    if function ≠ NO_FUNCTION then return function else throw .undefinedFunction

/-- The arguments of a call, from the caller's operands into the callee's registers. -/
def passArguments (nextFrame : ℕ) : ℕ → ℕ → Exec World Unit
  | _, 0 => return ()
  | i, n + 1 => do
      let arg ← getVar (← nextByte)
      if REGISTER_COUNT ≤ i + 1 then throw .outOfBounds
      else
        modify fun vm => vm.setFrame nextFrame ((vm.frames nextFrame).setRegister (i + 1) arg)
        passArguments nextFrame (i + 1) n

/-- `setup_next_stackframe`. -/
def setupNextStackframe (function : ℕ) (arity retReg : UInt8) : Exec World Unit := do
  let vm ← get
  if STACK_DEPTH ≤ vm.currentFrame + 1 then throw .assertion
  else
    let nextFrame := vm.currentFrame + 1
    passArguments nextFrame 0 arity.toNat
    modify fun vm =>
      { vm.setFrame nextFrame { vm.frames nextFrame with
          retAddress := vm.ip + 1, retRegister := retReg.toNat, function } with
        currentFrame := vm.currentFrame + 1 }

def opExit : Exec World Unit := do
  let exitCode ← nextByte
  throw (.exit exitCode)

def opStoreInt : Exec World Unit := do
  let reg ← nextByte
  setReg reg (← nextInt)
  advance 1

def opPrint (host : Host World) : Exec World Unit := do
  let reg ← nextByte
  let term ← getVar reg
  let vm ← get
  let world ← host.termPrint vm.memory vm.world term
  set { vm with world }
  advance 1

def opTest : Exec World Unit := do
  let reg ← nextByte
  let instr ← nextByte
  if truthy (← getVar reg) then advance instr.toNat else advance 1

/-- Instructions that compute a word from two registers. -/
def opBinary (operation : Term → Term → Term) : Exec World Unit := do
  let reg1 ← nextByte
  let reg2 ← nextByte
  let reg3 ← nextByte
  let val1 ← getVar reg2
  let val2 ← getVar reg3
  setReg reg1 (operation val1 val2)
  advance 1

def opAdd : Exec World Unit := opBinary fun val1 val2 => intFrom (intOf val1 + intOf val2)

def opSub : Exec World Unit := opBinary fun val1 val2 => intFrom (intOf val1 - intOf val2)

def opGreaterThan : Exec World Unit := opBinary fun val1 val2 => ofBool (intOf val2 < intOf val1)

def opCall (host : Host World) : Exec World Unit := do
  let retReg ← nextByte
  let functionId ← nextByte
  let arity ← nextByte
  gcSafepoint host
  let function ← loadFunction host functionId
  modify fun vm => { vm with currentFunction := function }
  setupNextStackframe function arity retReg
  let location ← locationOf function
  modify fun vm => { vm with ip := location }

def opReturn : Exec World Unit := do
  let vm ← get
  let currFrame := vm.frames vm.currentFrame
  if vm.currentFrame = 0 || REGISTER_COUNT ≤ currFrame.retRegister then throw .outOfBounds
  else
    let previous := vm.currentFrame - 1
    let vm := vm.setFrame previous
      ((vm.frames previous).setRegister currFrame.retRegister (currFrame.registers 0))
    let vm := vm.setFrame vm.currentFrame { vm.frames vm.currentFrame with registers := fun _ => 0 }
    set { vm with currentFrame := vm.currentFrame - 1, ip := currFrame.retAddress }

def opMov : Exec World Unit := do
  let reg1 ← nextByte
  let reg2 ← nextByte
  setReg reg1 (← getVar reg2)
  advance 1

def opJmp : Exec World Unit := do
  let loc ← nextByte
  advance loc.toNat

/-- The elements of a tuple, into the words after its size. -/
def storeElements (address : ℕ) : ℕ → Exec World Unit
  | 0 => return ()
  | n + 1 => do
      let elem ← getVar (← nextByte)
      modify fun vm => { vm with heap := vm.heap.writeTerm address elem }
      storeElements (address + 8) n

/-- The loop of `op_tuple` counts in a byte: with 255 elements it never ends, and reads past the code. -/
def fillTuple (ary : ℕ) (size : UInt8) : Exec World Unit :=
  if size = 255 then throw .outOfBounds else storeElements (ary + 8) size.toNat

def opTuple : Exec World Unit := do
  let reg ← nextByte
  let size ← nextByte
  let ary ← onHeap fun heap => heap.owlAlloc (8 * (size.toNat + 1))
  modify fun vm => { vm with heap := vm.heap.writeTerm ary size.toUInt64 }
  fillTuple ary size
  setReg reg (tagAs (UInt64.ofNat ary) .tuple)
  advance 1

/-- Push the elements of a list literal, one after the other. -/
def pushElements (host : Host World) : ℕ → Term → Exec World Term
  | 0, list => return list
  | n + 1, list => do
      let elem ← getVar (← nextByte)
      let list ← call host.listPush [list, elem]
      pushElements host n list

def opList (host : Host World) : Exec World Unit := do
  let reg ← nextByte
  let size ← nextByte
  let list ← pushElements host size.toNat (tagAs (UInt64.ofNat host.emptyRrb) .list)
  setReg reg list
  advance 1

/-- `owl_tuple_nth`. -/
def tupleNth (tuple : Term) (index : UInt8) : Exec World Term := do
  let vm ← get
  let ary := extractPtr tuple
  if index.toNat < vm.heap.mem.readNat ary 8 then return vm.heap.readTerm (ary + 8 * (index.toNat + 1))
  else return OWL_NIL

def opTupleNth : Exec World Unit := do
  let reg ← nextByte
  let tuple ← nextByte
  let indexReg ← nextByte
  let index := intOf (← getVar indexReg)
  let elem ← tupleNth (← getVar tuple) index.toUInt8
  setReg reg elem
  advance 1

/-- The two comparisons differ in the sense of the answer. -/
def opCompare (host : Host World) (answer : Bool → Bool) : Exec World Unit := do
  let resultReg ← nextByte
  let reg1 ← nextByte
  let reg2 ← nextByte
  let left ← getVar reg1
  let right ← getVar reg2
  let vm ← get
  let equal ← host.termsEq vm.memory vm.world left right
  setReg resultReg (ofBool (answer equal))
  advance 1

def opEq (host : Host World) : Exec World Unit := opCompare host id

def opNotEq (host : Host World) : Exec World Unit := opCompare host (! ·)

def opNot : Exec World Unit := do
  let resultReg ← nextByte
  let reg ← nextByte
  let value ← getVar reg
  setReg resultReg (negate value)
  advance 1

/-- Instructions that store a constant. -/
def opStore (term : Term) : Exec World Unit := do
  let reg ← nextByte
  setReg reg term
  advance 1

def opStoreTrue : Exec World Unit := opStore OWL_TRUE

def opStoreFalse : Exec World Unit := opStore OWL_FALSE

def opStoreNil : Exec World Unit := opStore OWL_NIL

def opLoadString (host : Host World) : Exec World Unit := do
  let reg ← nextByte
  let stringId ← nextByte
  let vm ← get
  let string := host.lookupId vm.world .internPool stringId.toNat
  setReg reg (tagAs (UInt64.ofNat string) .string)
  advance 1

/-- Operand terms, in the order of their bytes. -/
def getVars : ℕ → Exec World (List Term)
  | 0 => return []
  | n + 1 => do
      let term ← getVar (← nextByte)
      return term :: (← getVars n)

/-- Instructions that call a library routine on `n` operands. -/
def opRoutine (routine : Routine World) (n : ℕ) : Exec World Unit := do
  let retReg ← nextByte
  let args ← getVars n
  let result ← call routine args
  setReg retReg result
  advance 1

def opFilePwd (host : Host World) : Exec World Unit := opRoutine host.filePwd 0

def opFileLs (host : Host World) : Exec World Unit := opRoutine host.fileLs 1

def opConcat (host : Host World) : Exec World Unit := opRoutine host.concat 2

def opListNth (host : Host World) : Exec World Unit := opRoutine host.listNth 2

def opListCount (host : Host World) : Exec World Unit := opRoutine host.listCount 1

def opListSlice (host : Host World) : Exec World Unit := opRoutine host.listSlice 3

def opStringSlice (host : Host World) : Exec World Unit := opRoutine host.stringSlice 3

def opStringCount (host : Host World) : Exec World Unit := opRoutine host.stringCount 1

def opStringContains (host : Host World) : Exec World Unit := opRoutine host.stringContains 2

def opToString (host : Host World) : Exec World Unit := opRoutine host.termToString 1

def opCapture (host : Host World) : Exec World Unit := do
  let resultReg ← nextByte
  let functionId ← nextByte
  let function ← loadFunction host functionId
  setReg resultReg (tagAs (UInt64.ofNat function) .function)
  advance 1

def opCallLocal : Exec World Unit := do
  let retReg ← nextByte
  let function ← getVar (← nextByte)
  let arity ← nextByte
  if tagOf function ≠ Tag.function.bits then throw .typeError
  else
    let callee := extractPtr function
    modify fun vm => { vm with currentFunction := callee }
    setupNextStackframe callee arity retReg
    let location ← locationOf callee
    modify fun vm => { vm with ip := location }

/-- `owl_code_load`. -/
def opCodeLoad (host : Host World) : Exec World Unit := do
  let retReg ← nextByte
  let filename ← getVar (← nextByte)
  let vm ← get
  let compiled ← loadModule host (host.compileFile vm.world vm.heap filename)
  setReg retReg compiled
  advance 1

def opFunctionName : Exec World Unit := do
  let retReg ← nextByte
  let function ← nextByte
  let name ← nameOf (extractPtr (← getVar function))
  setReg retReg (tagAs (UInt64.ofNat name) .string)
  advance 1

/-- Capture `n` operands, the first as upvalue `i`. -/
def captureUpvalues (function : ℕ) : ℕ → ℕ → Exec World Unit
  | _, 0 => return ()
  | i, n + 1 => do
      let value ← getVar (← nextByte)
      modify fun vm => { vm with heap := vm.heap.setUpvalue function i value }
      captureUpvalues function (i + 1) n

def opAnonFn (host : Host World) : Exec World Unit := do
  let retReg ← nextByte
  let jmp ← nextByte
  discard nextByte
  let nUpvals ← nextByte
  let vm ← get
  let function ← onHeap fun heap =>
    heap.anonFunctionInit (host.literal (bytes "Anonymous")) (vm.ip + nUpvals.toNat + 1) nUpvals
  captureUpvalues function 0 nUpvals.toNat
  setReg retReg (tagAs (UInt64.ofNat function) .function)
  advance jmp.toNat

def opGcCollect (host : Host World) : Exec World Unit := do
  let retReg ← nextByte
  let usageBefore := UInt32.ofNat (← get).heap.usage
  gcCollect host
  let usageAfter := UInt32.ofNat (← get).heap.usage
  -- The macro casts its argument as it is written: only the first operand is widened before the subtraction.
  let collectedBytes := intFrom (usageBefore.toUInt64 - usageAfter.toUInt64)
  setReg retReg collectedBytes
  advance 1

def opUnknown : Exec World Unit := throw .unknownOpcode

/-- The entries that `opcode_init` fills in; all others are `op_unknown`. -/
def handlers (host : Host World) : List (UInt8 × Exec World Unit) :=
  [(OP_EXIT, opExit),
   (OP_STORE_INT, opStoreInt),
   (OP_PRINT, opPrint host),
   (OP_ADD, opAdd),
   (OP_SUB, opSub),
   (OP_CALL, opCall host),
   (OP_RETURN, opReturn),
   (OP_MOV, opMov),
   (OP_JMP, opJmp),
   (OP_TUPLE, opTuple),
   (OP_TUPLE_NTH, opTupleNth),
   (OP_LIST, opList host),
   (OP_STORE_TRUE, opStoreTrue),
   (OP_STORE_FALSE, opStoreFalse),
   (OP_TEST, opTest),
   (OP_EQ, opEq host),
   (OP_NOT_EQ, opNotEq host),
   (OP_NOT, opNot),
   (OP_STORE_NIL, opStoreNil),
   (OP_GREATER_THAN, opGreaterThan),
   (OP_LOAD_STRING, opLoadString host),
   (OP_FILE_PWD, opFilePwd host),
   (OP_CONCAT, opConcat host),
   (OP_FILE_LS, opFileLs host),
   (OP_CAPTURE, opCapture host),
   (OP_CALL_LOCAL, opCallLocal),
   (OP_LIST_NTH, opListNth host),
   (OP_LIST_COUNT, opListCount host),
   (OP_LIST_SLICE, opListSlice host),
   (OP_STRING_SLICE, opStringSlice host),
   (OP_CODE_LOAD, opCodeLoad host),
   (OP_FUNCTION_NAME, opFunctionName),
   (OP_STRING_COUNT, opStringCount host),
   (OP_STRING_CONTAINS, opStringContains host),
   (OP_TO_STRING, opToString host),
   (OP_ANON_FN, opAnonFn host),
   (OP_GC_COLLECT, opGcCollect host)]

/-- One round of `vm_run`; the table has no entry for the last byte. -/
def step (host : Host World) : Exec World Unit := do
  let vm ← get
  let opcode := vm.code vm.ip
  if opcode = 255 then throw .outOfBounds
  else ((handlers host).lookup opcode).getD opUnknown

/-- `vm_new`, with the arena at an address that the system allocator chose. -/
def Vm.new (world : World) (mem : ByteMemory) (arena : ℕ) : Vm World where
  frames _ := { retAddress := 0, retRegister := 0, function := 0, registers := fun _ => 0 }
  currentFrame := 0
  ip := 0
  code _ := 0
  codeSize := 0
  functions _ := NO_FUNCTION
  currentFunction := 0
  heap := Heap.init mem arena (0xFFFF * 2)
  statics _ := none
  world := world

/-- `vm_run_function`, up to the first instruction: a call to the function followed by an exit. -/
def enterFunction (host : Host World) (functionName : Bytes) : Exec World Unit := do
  let vm ← get
  let functionId := UInt8.ofNat (host.lookup vm.world .functionNames functionName)
  if functionId = 0 then throw (.exit 1)
  else
    let callCode : Bytes := [OP_CALL, 0, functionId, 0, OP_EXIT, 0]
    set { vm with
      code := ByteMemory.writeBytes vm.code vm.codeSize callCode
      ip := vm.codeSize
      codeSize := vm.codeSize + 6 }

end Owl.Runtime
