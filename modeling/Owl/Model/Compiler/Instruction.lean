import Owl.Model.Compiler.Ast

/-! # Bytecode instructions, their sizes and their encoding

The compiler is built in the debug profile, so every `u8` addition is checked: an overflow stops
it. A panic is an `Except.error`; a narrowing cast (`as u8`) is `UInt8.ofNat` and never stops.
-/

namespace Owl.Compiler

/-- What stops the compiler. -/
inductive Panic where
  | overflow
  | indexOutOfBounds
  | parseInt
  | undefinedVariable (name : Name)
  | rebindVariable (name : Name)
deriving DecidableEq, Repr

def checkedAdd (left right : UInt8) : Except Panic UInt8 :=
  if left.toNat + right.toNat < 256 then .ok (left + right) else .error .overflow

def checkedSub (left right : UInt8) : Except Panic UInt8 :=
  if right.toNat ≤ left.toNat then .ok (left - right) else .error .overflow

/-- Where an operand lives: a register of the frame or an upvalue of the running closure. -/
inductive VarRef where
  | register (reg : UInt8)
  | upvalue (idx : UInt8)
deriving DecidableEq, Repr

/-- The most significant bit tells registers from upvalues. -/
def VarRef.byte : VarRef → Except Panic UInt8
  | register reg => .ok reg
  | upvalue idx => checkedAdd idx 128

inductive Instruction where
  | exit (reg : VarRef)
  | storeInt (dst : VarRef) (val : UInt16)
  | print (reg : VarRef)
  | test (reg : VarRef) (jump : UInt8)
  | add (dst arg1 arg2 : VarRef)
  | sub (dst arg1 arg2 : VarRef)
  | call (retLoc : VarRef) (name : Name) (arity : UInt8) (regs : List VarRef)
  | «return»
  | mov (dst src : VarRef)
  | jmp (loc : UInt8)
  | tuple (reg : VarRef) (size : UInt8) (elems : List VarRef)
  | tupleNth (dest reg nth : VarRef)
  | list (reg : VarRef) (size : UInt8) (elems : List VarRef)
  | listNth (dest reg1 reg2 : VarRef)
  | storeTrue (reg : VarRef)
  | storeFalse (reg : VarRef)
  | storeNil (reg : VarRef)
  | eq (dst reg1 reg2 : VarRef)
  | notEq (dst reg1 reg2 : VarRef)
  | not (dst reg : VarRef)
  | greaterThan (dst arg1 arg2 : VarRef)
  | loadString (dst : VarRef) (content : Bytes)
  | filePwd (reg : VarRef)
  | fileLs (reg path : VarRef)
  | concat (dst left right : VarRef)
  | capture (retLoc : VarRef) (name : Name) (arity : UInt8)
  | callLocal (retLoc funcLoc : VarRef) (regs : List VarRef)
  | listCount (dst reg : VarRef)
  | listSlice (ret reg start stop : VarRef)
  | stringSlice (ret reg start stop : VarRef)
  | codeLoad (dst reg : VarRef)
  | functionName (result arg : VarRef)
  | stringCount (dst reg : VarRef)
  | stringContains (dst string substr : VarRef)
  | toString (dst reg : VarRef)
  | anonFn (dst : VarRef) (jump arity : UInt8) (upvals : List VarRef)
  | gcCollect (reg : VarRef)
deriving DecidableEq, Repr

abbrev Bytecode := List Instruction

namespace Opcodes

def EXIT : UInt8 := 0x00
def STORE_INT : UInt8 := 0x01
def PRINT : UInt8 := 0x02
def ADD : UInt8 := 0x03
def SUB : UInt8 := 0x04
def CALL : UInt8 := 0x05
def RETURN : UInt8 := 0x06
def MOV : UInt8 := 0x07
def JMP : UInt8 := 0x08
def TUPLE : UInt8 := 0x09
def TUPLE_NTH : UInt8 := 0x0a
def LIST : UInt8 := 0x0b
def PUB_FN : UInt8 := 0x0c
def STORE_TRUE : UInt8 := 0x0d
def STORE_FALSE : UInt8 := 0x0e
def TEST : UInt8 := 0x0f
def EQ : UInt8 := 0x10
def NOT_EQ : UInt8 := 0x11
def NOT : UInt8 := 0x12
def STORE_NIL : UInt8 := 0x13
def GREATER_THAN : UInt8 := 0x14
def LOAD_STRING : UInt8 := 0x15
def FILE_PWD : UInt8 := 0x16
def CONCAT : UInt8 := 0x17
def FILE_LS : UInt8 := 0x18
def CAPTURE : UInt8 := 0x19
def CALL_LOCAL : UInt8 := 0x1a
def LIST_NTH : UInt8 := 0x1b
def LIST_COUNT : UInt8 := 0x1c
def LIST_SLICE : UInt8 := 0x1d
def STRING_SLICE : UInt8 := 0x1e
def CODE_LOAD : UInt8 := 0x1f
def FUNCTION_NAME : UInt8 := 0x20
def STRING_COUNT : UInt8 := 0x21
def STRING_CONTAINS : UInt8 := 0x22
def TO_STRING : UInt8 := 0x23
def ANON_FN : UInt8 := 0x24
def GC_COLLECT : UInt8 := 0x25

end Opcodes

/-- `fixed + (regs.len() as u8)`: the length is truncated before the checked addition. -/
def sizeWithOperands (fixed : UInt8) (regs : List VarRef) : Except Panic UInt8 :=
  checkedAdd fixed (UInt8.ofNat regs.length)

def Instruction.byteSize : Instruction → Except Panic UInt8
  | add _ _ _ => .ok 4
  | sub _ _ _ => .ok 4
  | concat _ _ _ => .ok 4
  | functionName _ _ => .ok 3
  | storeInt _ _ => .ok 4
  | mov _ _ => .ok 3
  | print _ => .ok 2
  | test _ _ => .ok 3
  | exit _ => .ok 2
  | filePwd _ => .ok 2
  | fileLs _ _ => .ok 3
  | call _ _ _ regs => sizeWithOperands 4 regs
  | capture _ _ _ => .ok 4
  | callLocal _ _ regs => sizeWithOperands 4 regs
  | jmp _ => .ok 2
  | tuple _ _ regs => sizeWithOperands 3 regs
  | tupleNth _ _ _ => .ok 4
  | listNth _ _ _ => .ok 4
  | .return => .ok 1
  | list _ _ regs => sizeWithOperands 3 regs
  | storeTrue _ => .ok 2
  | storeFalse _ => .ok 2
  | storeNil _ => .ok 2
  | eq _ _ _ => .ok 4
  | notEq _ _ _ => .ok 4
  | not _ _ => .ok 3
  | listCount _ _ => .ok 3
  | stringCount _ _ => .ok 3
  | stringContains _ _ _ => .ok 4
  | codeLoad _ _ => .ok 3
  | listSlice _ _ _ _ => .ok 5
  | stringSlice _ _ _ _ => .ok 5
  | greaterThan _ _ _ => .ok 4
  | loadString _ _ => .ok 3
  | toString _ _ => .ok 3
  | anonFn _ _ _ upvals => sizeWithOperands 5 upvals
  | gcCollect _ => .ok 2

def byteSizeOf (instructions : Bytecode) : Except Panic UInt8 :=
  instructions.foldlM (fun acc instr => do checkedAdd acc (← instr.byteSize)) 0

/-- Decimal digits of a number, as `format!` prints it. -/
def decimal (n : ℕ) : Bytes := (Nat.toDigits 10 n).map fun c => UInt8.ofNat c.toNat

/-- `format!("{}\\{}", name, arity)`. -/
def fullName (name : Name) (arity : UInt8) : Bytes := name ++ bytes "\\" ++ decimal arity.toNat

/-- An opcode followed by fixed operands. -/
def emitFixed (opcode : UInt8) (regs : List VarRef) : Except Panic Bytes := do
  return opcode :: (← regs.mapM VarRef.byte)

/-- A text behind its length byte: the length is narrowed to a byte and then incremented for the
terminating zero, while the text itself is written in full. -/
def emitText (text : Bytes) : Except Panic Bytes := do
  return (← checkedAdd (UInt8.ofNat text.length) 1) :: text ++ [0]

def Instruction.emit : Instruction → Except Panic Bytes
  | add dst arg1 arg2 => emitFixed Opcodes.ADD [dst, arg1, arg2]
  | sub dst arg1 arg2 => emitFixed Opcodes.SUB [dst, arg1, arg2]
  | storeInt dst val => do
      return (← emitFixed Opcodes.STORE_INT [dst]) ++ [(val % 250).toUInt8, (val / 250).toUInt8]
  | mov dst src => emitFixed Opcodes.MOV [dst, src]
  | concat dst left right => emitFixed Opcodes.CONCAT [dst, left, right]
  | functionName result arg => emitFixed Opcodes.FUNCTION_NAME [result, arg]
  | print reg => emitFixed Opcodes.PRINT [reg]
  | test reg jump => do return (← emitFixed Opcodes.TEST [reg]) ++ [jump]
  | exit reg => emitFixed Opcodes.EXIT [reg]
  | filePwd reg => emitFixed Opcodes.FILE_PWD [reg]
  | fileLs reg path => emitFixed Opcodes.FILE_LS [reg, path]
  | call retLoc name arity regs => do
      return (← emitFixed Opcodes.CALL [retLoc]) ++ (← emitText (fullName name arity)) ++
        arity :: (← regs.mapM VarRef.byte)
  | callLocal retLoc funcLoc regs => do
      return (← emitFixed Opcodes.CALL_LOCAL [retLoc, funcLoc]) ++
        UInt8.ofNat regs.length :: (← regs.mapM VarRef.byte)
  | capture retLoc name arity => do
      return (← emitFixed Opcodes.CAPTURE [retLoc]) ++ (← emitText (fullName name arity))
  | jmp loc => .ok [Opcodes.JMP, loc]
  | .return => .ok [Opcodes.RETURN]
  | tuple reg size elems => do
      return (← emitFixed Opcodes.TUPLE [reg]) ++ size :: (← elems.mapM VarRef.byte)
  | tupleNth dest reg nth => emitFixed Opcodes.TUPLE_NTH [dest, reg, nth]
  | listNth dest reg1 reg2 => emitFixed Opcodes.LIST_NTH [dest, reg1, reg2]
  | list reg size elems => do
      return (← emitFixed Opcodes.LIST [reg]) ++ size :: (← elems.mapM VarRef.byte)
  | storeTrue reg => emitFixed Opcodes.STORE_TRUE [reg]
  | gcCollect reg => emitFixed Opcodes.GC_COLLECT [reg]
  | storeFalse reg => emitFixed Opcodes.STORE_FALSE [reg]
  | storeNil reg => emitFixed Opcodes.STORE_NIL [reg]
  | eq dst reg1 reg2 => emitFixed Opcodes.EQ [dst, reg1, reg2]
  | notEq dst reg1 reg2 => emitFixed Opcodes.NOT_EQ [dst, reg1, reg2]
  | not dst reg => emitFixed Opcodes.NOT [dst, reg]
  | listCount dst reg => emitFixed Opcodes.LIST_COUNT [dst, reg]
  | stringCount dst reg => emitFixed Opcodes.STRING_COUNT [dst, reg]
  | stringContains dst string substr => emitFixed Opcodes.STRING_CONTAINS [dst, string, substr]
  | codeLoad dst reg => emitFixed Opcodes.CODE_LOAD [dst, reg]
  | listSlice ret reg start stop => emitFixed Opcodes.LIST_SLICE [ret, reg, start, stop]
  | stringSlice ret reg start stop => emitFixed Opcodes.STRING_SLICE [ret, reg, start, stop]
  | loadString dst content => do
      return (← emitFixed Opcodes.LOAD_STRING [dst]) ++ (← emitText content)
  | greaterThan dst arg1 arg2 => emitFixed Opcodes.GREATER_THAN [dst, arg1, arg2]
  | toString dst reg => emitFixed Opcodes.TO_STRING [dst, reg]
  | anonFn dst jump arity upvals => do
      return (← emitFixed Opcodes.ANON_FN [dst]) ++ [jump, arity, UInt8.ofNat upvals.length] ++
        (← upvals.mapM VarRef.byte)

/-- A generated function with its qualified name. -/
structure Function where
  name : Name
  arity : UInt8
  code : Bytecode
deriving DecidableEq, Repr

def Function.emit (function : Function) : Except Panic Bytes := do
  let header ← emitText (fullName function.name function.arity)
  let body ← function.code.mapM Instruction.emit
  return Opcodes.PUB_FN :: header ++ body.flatten

structure Module where
  name : Name
  functions : List Function
deriving DecidableEq, Repr

def Module.emit (module : Module) : Except Panic Bytes := do
  return (← module.functions.mapM Function.emit).flatten

end Owl.Compiler
