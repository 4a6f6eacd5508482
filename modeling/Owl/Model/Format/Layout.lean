import Owl.Model.Compiler.Instruction
import Owl.Model.Runtime.Loader

/-! # The layout of emitted code

What the compiler writes and the loader reads, stated once for both. An item of the format is the header
of a function or an instruction, and an instruction has fixed operands, operands behind a count, or a
text that the loader replaces by an id.
-/

namespace Owl.Format

open Owl.Compiler Owl.Runtime

inductive Layout where
  | header (name : Bytes)
  | plain (opcode : UInt8) (operands : Bytes)
  | counted (opcode : UInt8) (fixed operands : Bytes)
  | capture (dst : UInt8) (name : Bytes)
  | loadString (dst : UInt8) (content : Bytes)
  | call (dst : UInt8) (name operands : Bytes)
deriving DecidableEq, Repr

namespace Layout

/-- A text behind a byte for its length with the terminator. -/
def textBytes (text : Bytes) : Bytes := UInt8.ofNat (text.length + 1) :: text ++ [0]

/-- Operands behind a byte for their number. -/
def countedBytes (operands : Bytes) : Bytes := UInt8.ofNat operands.length :: operands

/-- The bytes of an item in an emitted module. -/
def emitted : Layout → Bytes
  | header name => OP_PUB_FN :: textBytes name
  | plain opcode operands => opcode :: operands
  | counted opcode fixed operands => opcode :: fixed ++ countedBytes operands
  | capture dst name => OP_CAPTURE :: dst :: textBytes name
  | loadString dst content => OP_LOAD_STRING :: dst :: textBytes content
  | call dst name operands => OP_CALL :: dst :: textBytes name ++ countedBytes operands

/-- The bytes of an item in loaded code, where a text has been given an id. -/
def loaded (id : UInt8) : Layout → Bytes
  | header _ => []
  | plain opcode operands => opcode :: operands
  | counted opcode fixed operands => opcode :: fixed ++ countedBytes operands
  | capture dst _ => [OP_CAPTURE, dst, id]
  | loadString dst _ => [OP_LOAD_STRING, dst, id]
  | call dst _ operands => [OP_CALL, dst, id] ++ countedBytes operands

/-- The pool and the text that an item asks the interning library about. -/
def text? : Layout → Option (Pool × Bytes)
  | header name => some (.functionNames, name)
  | plain _ _ => none
  | counted _ _ _ => none
  | capture _ name => some (.functionNames, name)
  | loadString _ content => some (.internPool, content)
  | call _ name _ => some (.functionNames, name)

/-- The number of operand bytes of an opcode whose operands are all fixed. -/
def plainOperands (opcode : UInt8) : Option ℕ :=
  if opcode = OP_RETURN then some 0
  else if opcode ∈ [OP_EXIT, OP_PRINT, OP_FILE_PWD, OP_STORE_TRUE, OP_STORE_FALSE, OP_STORE_NIL, OP_JMP,
      OP_GC_COLLECT] then some 1
  else if opcode ∈ [OP_MOV, OP_FILE_LS, OP_NOT, OP_LIST_COUNT, OP_STRING_COUNT, OP_CODE_LOAD, OP_TEST,
      OP_FUNCTION_NAME, OP_TO_STRING] then some 2
  else if opcode ∈ [OP_TUPLE_NTH, OP_STORE_INT, OP_ADD, OP_SUB, OP_EQ, OP_NOT_EQ, OP_GREATER_THAN,
      OP_LIST_NTH, OP_CONCAT, OP_STRING_CONTAINS] then some 3
  else if opcode ∈ [OP_LIST_SLICE, OP_STRING_SLICE] then some 4
  else none

/-- The number of operand bytes before the count. -/
def fixedOperands (opcode : UInt8) : Option ℕ :=
  if opcode ∈ [OP_TUPLE, OP_LIST] then some 1
  else if opcode = OP_CALL_LOCAL then some 2
  else if opcode = OP_ANON_FN then some 3
  else none

/-- The opcodes and the operands fit, and the number of operands fits its byte. -/
def Valid : Layout → Prop
  | header _ => True
  | plain opcode operands => plainOperands opcode = some operands.length
  | counted opcode fixed operands => fixedOperands opcode = some fixed.length ∧ operands.length < 256
  | capture _ _ => True
  | loadString _ _ => True
  | call _ _ operands => operands.length < 256

end Layout

section Loading

variable {World : Type}

/-- Bytes behind the loaded code. -/
def append (loader : Loader World) (code : Bytes) : Loader World :=
  { loader with
    codePtr := loader.codePtr + code.length
    vm := { loader.vm with
      code := ByteMemory.writeBytes loader.vm.code loader.codePtr code
      codeSize := loader.vm.codeSize + code.length } }

/-- Ask the interning library for the id of a text. -/
def request (host : Host World) (pool : Pool) (text : Bytes) : LoadM World ℕ := do
  let loader ← get
  let (id, world) := host.intern loader.vm.world pool text
  set { loader with vm := { loader.vm with world } }
  return id

/-- What loading an item means: its whole text goes to the pool, and its loaded form behind the code.
The bounds on ids are the loader's assertions. -/
def Layout.load (host : Host World) : Layout → LoadM World Unit
  | .header name => do
      let id ← request host .functionNames name
      if id < MAX_FUNCTIONS then publish host id else throw .assertion
  | .plain opcode operands => modify (append · (opcode :: operands))
  | .counted opcode fixed operands => modify (append · (opcode :: fixed ++ countedBytes operands))
  | .capture dst name => do
      let id ← request host .functionNames name
      modify (append · [OP_CAPTURE, dst, UInt8.ofNat id])
  | .loadString dst content => do
      let id ← request host .internPool content
      if id < 255 then modify (append · [OP_LOAD_STRING, dst, UInt8.ofNat id]) else throw .assertion
  | .call dst name operands => do
      let id ← request host .functionNames name
      if id < MAX_FUNCTIONS then
        modify (append · ([OP_CALL, dst, UInt8.ofNat id] ++ countedBytes operands))
      else throw .assertion

/-- An item as C string functions see it, whose text ends at the first zero. -/
def Layout.cut : Layout → Layout
  | .header name => .header (name.takeWhile (· ≠ 0))
  | .plain opcode operands => .plain opcode operands
  | .counted opcode fixed operands => .counted opcode fixed operands
  | .capture dst name => .capture dst (name.takeWhile (· ≠ 0))
  | .loadString dst content => .loadString dst (content.takeWhile (· ≠ 0))
  | .call dst name operands => .call dst (name.takeWhile (· ≠ 0)) operands

/-- The bytes of consecutive items. -/
def emittedAll (items : List Layout) : Bytes := items.flatMap Layout.emitted

/-- A loader before the given input. -/
def feed (loader : Loader World) (scanner : Bytes) : Loader World := { loader with scanner }

/-- Load items in order; after each, the input begins with the next one. -/
def loadItems (host : Host World) : List Layout → LoadM World Unit
  | [] => return ()
  | item :: items => do
      modify (feed · (emittedAll items))
      item.load host
      loadItems host items

end Loading

/-- The operand byte of a reference that has one. -/
def operand : VarRef → UInt8
  | .register reg => reg
  | .upvalue idx => idx + 128

def operands (regs : List VarRef) : Bytes := regs.map operand

/-- The two bytes of an integer literal. -/
def literalBytes (val : UInt16) : Bytes := [(val % 250).toUInt8, (val / 250).toUInt8]

def layout : Instruction → Layout
  | .add dst arg1 arg2 => .plain OP_ADD (operands [dst, arg1, arg2])
  | .sub dst arg1 arg2 => .plain OP_SUB (operands [dst, arg1, arg2])
  | .storeInt dst val => .plain OP_STORE_INT (operand dst :: literalBytes val)
  | .mov dst src => .plain OP_MOV (operands [dst, src])
  | .concat dst left right => .plain OP_CONCAT (operands [dst, left, right])
  | .functionName result arg => .plain OP_FUNCTION_NAME (operands [result, arg])
  | .print reg => .plain OP_PRINT (operands [reg])
  | .test reg jump => .plain OP_TEST [operand reg, jump]
  | .exit reg => .plain OP_EXIT (operands [reg])
  | .filePwd reg => .plain OP_FILE_PWD (operands [reg])
  | .fileLs reg path => .plain OP_FILE_LS (operands [reg, path])
  | .call retLoc name arity regs => .call (operand retLoc) (fullName name arity) (operands regs)
  | .callLocal retLoc funcLoc regs => .counted OP_CALL_LOCAL (operands [retLoc, funcLoc]) (operands regs)
  | .capture retLoc name arity => .capture (operand retLoc) (fullName name arity)
  | .jmp loc => .plain OP_JMP [loc]
  | .return => .plain OP_RETURN []
  | .tuple reg _ elems => .counted OP_TUPLE (operands [reg]) (operands elems)
  | .tupleNth dest reg nth => .plain OP_TUPLE_NTH (operands [dest, reg, nth])
  | .listNth dest reg1 reg2 => .plain OP_LIST_NTH (operands [dest, reg1, reg2])
  | .list reg _ elems => .counted OP_LIST (operands [reg]) (operands elems)
  | .storeTrue reg => .plain OP_STORE_TRUE (operands [reg])
  | .gcCollect reg => .plain OP_GC_COLLECT (operands [reg])
  | .storeFalse reg => .plain OP_STORE_FALSE (operands [reg])
  | .storeNil reg => .plain OP_STORE_NIL (operands [reg])
  | .eq dst reg1 reg2 => .plain OP_EQ (operands [dst, reg1, reg2])
  | .notEq dst reg1 reg2 => .plain OP_NOT_EQ (operands [dst, reg1, reg2])
  | .not dst reg => .plain OP_NOT (operands [dst, reg])
  | .listCount dst reg => .plain OP_LIST_COUNT (operands [dst, reg])
  | .stringCount dst reg => .plain OP_STRING_COUNT (operands [dst, reg])
  | .stringContains dst string substr => .plain OP_STRING_CONTAINS (operands [dst, string, substr])
  | .codeLoad dst reg => .plain OP_CODE_LOAD (operands [dst, reg])
  | .listSlice ret reg start stop => .plain OP_LIST_SLICE (operands [ret, reg, start, stop])
  | .stringSlice ret reg start stop => .plain OP_STRING_SLICE (operands [ret, reg, start, stop])
  | .loadString dst content => .loadString (operand dst) content
  | .greaterThan dst arg1 arg2 => .plain OP_GREATER_THAN (operands [dst, arg1, arg2])
  | .toString dst reg => .plain OP_TO_STRING (operands [dst, reg])
  | .anonFn dst jump arity upvals =>
      .counted OP_ANON_FN [operand dst, jump, arity] (operands upvals)

/-- The number of operands that an instruction announces is the number that it has. -/
def Counted : Instruction → Prop
  | .call _ _ arity regs => arity.toNat = regs.length
  | .tuple _ size elems => size.toNat = elems.length
  | .list _ size elems => size.toNat = elems.length
  | .callLocal _ _ regs => regs.length < 256
  | .anonFn _ _ _ upvals => upvals.length < 256
  | _ => True

/-- The items of a module, function by function. -/
def functionItems (function : Compiler.Function) : List Layout :=
  .header (fullName function.name function.arity) :: function.code.map layout

def moduleItems (module : Module) : List Layout := module.functions.flatMap functionItems

/-- The names and literals of a module, with the pools that they go to. -/
def moduleTexts (module : Module) : List (Pool × Bytes) := (moduleItems module).filterMap Layout.text?

end Owl.Format
