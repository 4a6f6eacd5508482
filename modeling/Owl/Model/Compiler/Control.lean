import Owl.Model.Compiler.Instruction
import Mathlib.Data.Nat.Notation

/-! # Control in generated code

Generated code is laid out instruction after instruction, `byte_size` bytes each. A machine goes through
it as the handlers of `Test`, `Jmp` and `AnonFn` say; what the other instructions do to its state is left
open. An instruction that does not end normally cuts a run short; the run up to it is the same.
-/

namespace Owl.Compiler

/-- `byte_size` before its overflow check. -/
def Instruction.span : Instruction → ℕ
  | .call _ _ _ regs => 4 + (UInt8.ofNat regs.length).toNat
  | .callLocal _ _ regs => 4 + (UInt8.ofNat regs.length).toNat
  | .tuple _ _ elems => 3 + (UInt8.ofNat elems.length).toNat
  | .list _ _ elems => 3 + (UInt8.ofNat elems.length).toNat
  | .anonFn _ _ _ upvals => 5 + (UInt8.ofNat upvals.length).toNat
  | instr =>
      match instr.byteSize with
      | .ok size => size.toNat
      | .error _ => 0

def spanOf (code : Bytecode) : ℕ := (code.map Instruction.span).sum

/-- The instruction that starts at a position. -/
def instrAt : Bytecode → ℕ → Option Instruction
  | [], _ => none
  | instr :: code, position =>
      if position = 0 then some instr
      else if position < instr.span then none
      else instrAt code (position - instr.span)

/-- What instructions do to a state of type `σ`. -/
structure Machine (σ : Type) where
  /-- Instructions that compute, calls included. -/
  act : Instruction → σ → σ
  /-- Creates a closure from its destination, the position of its body and its captured variables. -/
  create : VarRef → ℕ → List VarRef → σ → σ
  truthy : σ → VarRef → Bool

section Machine

variable {σ : Type} (m : Machine σ)

/-- The position and the state behind an instruction. The handlers of `Test`, `Jmp` and `AnonFn` add
their offset to the position of the operand that they have read last. -/
def Machine.next (position : ℕ) (s : σ) : Instruction → ℕ × σ
  | .test reg jump => (if m.truthy s reg then position + 2 + jump.toNat else position + 2 + 1, s)
  | .jmp loc => (position + 1 + loc.toNat, s)
  | .anonFn dst jump _ upvals =>
      (position + 4 + (UInt8.ofNat upvals.length).toNat + jump.toNat,
        m.create dst (position + 4 + (UInt8.ofNat upvals.length).toNat + 1) upvals s)
  | instr => (position + instr.span, m.act instr s)

/-- A run through code, with the instructions it goes through and their positions. -/
inductive Machine.Runs (code : Bytecode) : ℕ → σ → List (ℕ × Instruction) → ℕ → σ → Prop
  | done (position : ℕ) (s : σ) : Runs code position s [] position s
  | step {position stop : ℕ} {s s' : σ} {instr : Instruction} {visited : List (ℕ × Instruction)}
      (found : instrAt code position = some instr)
      (rest : Runs code (m.next position s instr).1 (m.next position s instr).2 visited stop s') :
      Runs code position s ((position, instr) :: visited) stop s'

end Machine

def Instruction.isJump : Instruction → Bool
  | .test _ _ => true
  | .jmp _ => true
  | _ => false

/-- The instructions of a run that do more than choose the next one. -/
def ordinary (visited : List (ℕ × Instruction)) : List (ℕ × Instruction) := visited.filter fun v => !v.2.isJump

end Owl.Compiler
