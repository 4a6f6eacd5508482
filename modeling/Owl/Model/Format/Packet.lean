import Owl.Model.Format.Layout
import Owl.ToMathlib.Codecs

/-! # Bytecode as the loader takes it

The loader is given bytes, whoever wrote them. It takes them in packets: an item, and the bytes of its buffer
behind the terminator of the text, which are skipped. The decoder reads packets without a machine, and linking loads
items without an input.
-/

namespace Owl.Format

open Owl.Compiler Owl.Runtime Parser

structure Packet where
  item : Layout
  spare : Bytes
deriving DecidableEq, Repr

namespace Packet

/-- A text in a buffer behind a byte for the length of the buffer. -/
def bufferBytes (text spare : Bytes) : Bytes := UInt8.ofNat (text.length + 1 + spare.length) :: (text ++ 0 :: spare)

def opcode (packet : Packet) : UInt8 :=
  match packet.item with
  | .header _ => OP_PUB_FN
  | .plain opcode _ => opcode
  | .counted opcode _ _ => opcode
  | .capture _ _ => OP_CAPTURE
  | .loadString _ _ => OP_LOAD_STRING
  | .call _ _ _ => OP_CALL

def body (packet : Packet) : Bytes :=
  match packet.item with
  | .header name => bufferBytes name packet.spare
  | .plain _ operands => operands
  | .counted _ fixed operands => fixed ++ Layout.countedBytes operands
  | .capture dst name => dst :: bufferBytes name packet.spare
  | .loadString dst content => dst :: bufferBytes content packet.spare
  | .call dst name operands => dst :: (bufferBytes name packet.spare ++ Layout.countedBytes operands)

def bytes (packet : Packet) : Bytes := packet.opcode :: packet.body

/-- A text that ends at the first zero of a buffer whose length fits its byte. -/
def Buffered (text spare : Bytes) : Prop := 0 ∉ text ∧ text.length + 1 + spare.length < 256

/-- The opcodes, the operands and the buffers fit, and only a text has a buffer. -/
def Valid (packet : Packet) : Prop :=
  packet.item.Valid ∧ match packet.item.text? with
    | some (_, text) => Buffered text packet.spare
    | none => packet.spare = []

end Packet

def byte : Parser UInt8 UInt8 := satisfy fun _ => true

/-- Operands behind their number. -/
def counted : Parser UInt8 Bytes := do
  let size ← byte
  count size.toNat

/-- The text of a buffer and the bytes behind its terminator. -/
def buffer : Parser UInt8 (Bytes × Bytes) := do
  let size ← byte
  let buffer ← count size.toNat
  if buffer.contains 0 then return (buffer.takeWhile (· ≠ 0), (buffer.dropWhile (· ≠ 0)).tail) else failure

def packetBody (opcode : UInt8) : Parser UInt8 Packet :=
  if opcode = OP_PUB_FN then do
    let text ← buffer
    return ⟨.header text.1, text.2⟩
  else if opcode = OP_CAPTURE then do
    let parts ← byte.andThen buffer
    return ⟨.capture parts.1 parts.2.1, parts.2.2⟩
  else if opcode = OP_LOAD_STRING then do
    let parts ← byte.andThen buffer
    return ⟨.loadString parts.1 parts.2.1, parts.2.2⟩
  else if opcode = OP_CALL then do
    let parts ← byte.andThen (buffer.andThen counted)
    return ⟨.call parts.1 parts.2.1.1 parts.2.2, parts.2.1.2⟩
  else match Layout.plainOperands opcode, Layout.fixedOperands opcode with
    | some n, _ => do
        let operands ← count n
        return ⟨.plain opcode operands, []⟩
    | none, some n => do
        let parts ← (count n).andThen counted
        return ⟨.counted opcode parts.1 parts.2, []⟩
    | none, none => failure

def packet : Parser UInt8 Packet := do
  let opcode ← byte
  packetBody opcode

/-- The packets of an input. -/
def decode (bytecode : Bytes) : Option (List Packet) := whole packet bytecode.length bytecode

section Linking

variable {World : Type}

/-- Load items in order, with no input. -/
def link (host : Host World) : List Layout → LoadM World Unit
  | [] => return ()
  | item :: items => do
      item.load host
      link host items

/-- Load the items of a module into a machine: the list of its functions, and the machine. -/
def linkModule (host : Host World) (items : List Layout) : Exec World Term := do
  let vm ← get
  let start : Loader World :=
    { scanner := [], codePtr := vm.codeSize, functionList := tagAs (UInt64.ofNat host.emptyRrb) .list, vm }
  let (_, loader) ← (link host items).run start
  set loader.vm
  return loader.functionList

end Linking

end Owl.Format
