import Owl.Model.Runtime.Machine

/-! # Loading a module

The loader copies emitted bytecode behind the code that is already loaded. Texts are replaced by the
ids that the interning library gives them, and a function header becomes an entry of the function table
that points to the next byte of code. The scanner is the input that has not been read.
-/

namespace Owl.Runtime

def OP_EXIT : UInt8 := 0
def OP_STORE_INT : UInt8 := 1
def OP_PRINT : UInt8 := 2
def OP_ADD : UInt8 := 3
def OP_SUB : UInt8 := 4
def OP_CALL : UInt8 := 5
def OP_RETURN : UInt8 := 6
def OP_MOV : UInt8 := 7
def OP_JMP : UInt8 := 8
def OP_TUPLE : UInt8 := 9
def OP_TUPLE_NTH : UInt8 := 10
def OP_LIST : UInt8 := 11
def OP_PUB_FN : UInt8 := 12
def OP_STORE_TRUE : UInt8 := 13
def OP_STORE_FALSE : UInt8 := 14
def OP_TEST : UInt8 := 15
def OP_EQ : UInt8 := 16
def OP_NOT_EQ : UInt8 := 17
def OP_NOT : UInt8 := 18
def OP_STORE_NIL : UInt8 := 19
def OP_GREATER_THAN : UInt8 := 20
def OP_LOAD_STRING : UInt8 := 21
def OP_FILE_PWD : UInt8 := 22
def OP_CONCAT : UInt8 := 23
def OP_FILE_LS : UInt8 := 24
def OP_CAPTURE : UInt8 := 25
def OP_CALL_LOCAL : UInt8 := 26
def OP_LIST_NTH : UInt8 := 27
def OP_LIST_COUNT : UInt8 := 28
def OP_LIST_SLICE : UInt8 := 29
def OP_STRING_SLICE : UInt8 := 30
def OP_CODE_LOAD : UInt8 := 31
def OP_FUNCTION_NAME : UInt8 := 32
def OP_STRING_COUNT : UInt8 := 33
def OP_STRING_CONTAINS : UInt8 := 34
def OP_TO_STRING : UInt8 := 35
def OP_ANON_FN : UInt8 := 36
def OP_GC_COLLECT : UInt8 := 37

variable {World : Type}

/-- The state of `owl_load_module` at the head of its loop. -/
structure Loader (World : Type) where
  scanner : Bytes
  codePtr : ℕ
  functionList : Term
  vm : Vm World

abbrev LoadM (World : Type) := StateT (Loader World) (Except Stop)

/-- `scanner_next`. -/
def scannerNext : LoadM World UInt8 := do
  let loader ← get
  match loader.scanner with
  | [] => throw .pastEnd
  | byte :: scanner =>
      set { loader with scanner }
      return byte

/-- `scanner_read`. -/
def scannerRead (n : ℕ) : LoadM World Bytes := do
  let loader ← get
  if loader.scanner.length < n then throw .pastEnd
  else
    set { loader with scanner := loader.scanner.drop n }
    return loader.scanner.take n

/-- `*code_ptr++ = ch`. -/
def pushCode (ch : UInt8) : LoadM World Unit := modify fun loader =>
  { loader with
    codePtr := loader.codePtr + 1
    vm := { loader.vm with code := Function.update loader.vm.code loader.codePtr ch } }

/-- `vm->code_size += n`. -/
def growCode (n : ℕ) : LoadM World Unit := modify fun loader =>
  { loader with vm := { loader.vm with codeSize := loader.vm.codeSize + n } }

/-- `*code_ptr++ = scanner_next(scanner)`, `n` times. -/
def copyBytes : ℕ → LoadM World Unit
  | 0 => return ()
  | n + 1 => do
      pushCode (← scannerNext)
      copyBytes n

/-- The operands of an instruction with a count, one by one. -/
def copyOperands : ℕ → LoadM World Unit
  | 0 => return ()
  | n + 1 => do
      pushCode (← scannerNext)
      growCode 1
      copyOperands n

/-- The text that a C string function reads from a buffer. -/
def cString (buffer : Bytes) : Except Stop Bytes :=
  if 0 ∈ buffer then .ok (buffer.takeWhile (· ≠ 0)) else .error .unterminated

/-- A text behind its length byte, and the id that the interning library gives it. -/
def internText (host : Host World) (pool : Pool) : LoadM World ℕ := do
  let size ← scannerNext
  let buffer ← scannerRead size.toNat
  let text ← cString buffer
  let loader ← get
  let (id, world) := host.intern loader.vm.world pool text
  set { loader with vm := { loader.vm with world } }
  return id

/-- `owl_function_init`, and its entry in the function table. -/
def publish (host : Host World) (id : ℕ) : LoadM World Unit := do
  let loader ← get
  let name := host.lookupId loader.vm.world .functionNames id
  let (function, world) := host.malloc loader.vm.world
  let vm := { loader.vm with
    world
    statics := Function.update loader.vm.statics function (some { location := loader.codePtr, name }) }
  let (functionList, vm) ← (call host.listPush [loader.functionList, tagAs (UInt64.ofNat function) .function]).run vm
  set { loader with
    functionList
    vm := { vm with functions := Function.update vm.functions id function } }

/-- One round of the loop. -/
def loadStep (host : Host World) : LoadM World Unit := do
  let ch ← scannerNext
  if ch = OP_RETURN then
    pushCode ch
    growCode 1
  else if ch ∈ [OP_EXIT, OP_PRINT, OP_FILE_PWD, OP_STORE_TRUE, OP_STORE_FALSE, OP_STORE_NIL, OP_JMP,
      OP_GC_COLLECT] then
    pushCode ch
    copyBytes 1
    growCode 2
  else if ch ∈ [OP_MOV, OP_FILE_LS, OP_NOT, OP_LIST_COUNT, OP_STRING_COUNT, OP_CODE_LOAD, OP_TEST,
      OP_FUNCTION_NAME, OP_TO_STRING] then
    pushCode ch
    copyBytes 2
    growCode 3
  else if ch ∈ [OP_TUPLE_NTH, OP_STORE_INT, OP_ADD, OP_SUB, OP_EQ, OP_NOT_EQ, OP_GREATER_THAN,
      OP_LIST_NTH, OP_CONCAT, OP_STRING_CONTAINS] then
    pushCode ch
    copyBytes 3
    growCode 4
  else if ch ∈ [OP_LIST_SLICE, OP_STRING_SLICE] then
    pushCode ch
    copyBytes 4
    growCode 5
  else if ch ∈ [OP_TUPLE, OP_LIST] then
    pushCode ch
    copyBytes 1
    let size ← scannerNext
    pushCode size
    growCode 3
    copyOperands size.toNat
  else if ch = OP_ANON_FN then
    pushCode ch
    copyBytes 3
    let nUpvals ← scannerNext
    pushCode nUpvals
    growCode 5
    copyOperands nUpvals.toNat
  else if ch = OP_CAPTURE then
    pushCode OP_CAPTURE
    copyBytes 1
    let id ← internText host .functionNames
    pushCode (UInt8.ofNat id)
    growCode 3
  else if ch = OP_PUB_FN then
    let id ← internText host .functionNames
    if id < MAX_FUNCTIONS then publish host id else throw .assertion
  else if ch = OP_LOAD_STRING then
    pushCode OP_LOAD_STRING
    copyBytes 1
    let id ← internText host .internPool
    if id < 255 then
      pushCode (UInt8.ofNat id)
      growCode 3
    else throw .assertion
  else if ch = OP_CALL_LOCAL then
    pushCode OP_CALL_LOCAL
    copyBytes 2
    let funcArity ← scannerNext
    pushCode funcArity
    growCode 4
    copyOperands funcArity.toNat
  else if ch = OP_CALL then
    pushCode OP_CALL
    copyBytes 1
    let id ← internText host .functionNames
    if id < MAX_FUNCTIONS then
      pushCode (UInt8.ofNat id)
      let arity ← scannerNext
      pushCode arity
      growCode 4
      copyOperands arity.toNat
    else throw .assertion
  else throw .unknownOpcode

/-- The loop; every round reads at least one byte, so the length of the input bounds their number. -/
def loadLoop (host : Host World) : ℕ → LoadM World Unit
  | 0 => return ()
  | n + 1 => do
      let loader ← get
      if loader.scanner.isEmpty then return ()
      else
        loadStep host
        loadLoop host n

/-- `owl_load_module`. -/
def loadModule (host : Host World) (bytecode : Bytes) : Exec World Term := do
  let vm ← get
  let start : Loader World :=
    { scanner := bytecode, codePtr := vm.codeSize,
      functionList := tagAs (UInt64.ofNat host.emptyRrb) .list, vm }
  let (_, loader) ← (loadLoop host bytecode.length).run start
  set loader.vm
  return loader.functionList

/-- `vm_load_module`: a module without a file is not an error. -/
def loadModuleNamed (host : Host World) (moduleName : Bytes) : Exec World Unit := do
  let vm ← get
  match host.moduleFile vm.world moduleName with
  | some bytecode => discard (loadModule host bytecode)
  | none => return ()

end Owl.Runtime
