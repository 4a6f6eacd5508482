import Owl.Model.Format.Layout
import Owl.ToMathlib.Except

/-! # Emitted bytes follow the layout

Every instruction with a truthful operand count is emitted in its layout, and the size that jumps are
computed from is the size of the layout in loaded code, except for a capture.
-/

namespace Owl.Format

open Owl.Compiler Owl.Runtime

private theorem byte_eq_ok {reg : VarRef} {byte : UInt8} (success : reg.byte = .ok byte) : byte = operand reg := by
  cases reg with
  | register reg => exact (Except.ok.inj success).symm
  | upvalue idx =>
    simp only [VarRef.byte, checkedAdd] at success
    split at success
    · exact (Except.ok.inj success).symm
    · contradiction

theorem bytes_eq_ok {regs : List VarRef} {emitted : Bytes} (success : regs.mapM VarRef.byte = .ok emitted) :
    emitted = operands regs := by
  induction regs generalizing emitted with
  | nil => exact Except.mapM_nil_eq_ok.mp success
  | cons reg regs ih =>
    obtain ⟨byte, rest, head, tail, rfl⟩ := Except.mapM_cons_eq_ok.mp success
    rw [byte_eq_ok head, ih tail]
    rfl

theorem emitFixed_eq_ok {opcode : UInt8} {regs : List VarRef} {emitted : Bytes}
    (success : emitFixed opcode regs = .ok emitted) : emitted = opcode :: operands regs := by
  simp only [emitFixed, Except.bind_eq_ok, Except.pure_eq_ok] at success
  obtain ⟨rest, operandBytes, rfl⟩ := success
  rw [bytes_eq_ok operandBytes]

theorem emitText_eq_ok {text emitted : Bytes} (success : emitText text = .ok emitted) :
    emitted = Layout.textBytes text := by
  simp only [emitText, checkedAdd, Except.bind_eq_ok, Except.pure_eq_ok] at success
  obtain ⟨size, added, rfl⟩ := success
  split at added
  · rw [← Except.ok.inj added, Layout.textBytes, UInt8.ofNat_add]
    rfl
  · contradiction

@[simp] theorem operands_length (regs : List VarRef) : (operands regs).length = regs.length := by
  simp [operands]

private theorem ofNat_of_toNat {size : UInt8} {n : ℕ} (same : size.toNat = n) : UInt8.ofNat n = size := by
  rw [← same, UInt8.ofNat_toNat]

/-- An instruction with a truthful operand count is emitted in its layout. -/
theorem emit_eq_ok {instr : Instruction} {emitted : Bytes} (counted : Counted instr)
    (success : instr.emit = .ok emitted) : emitted = (layout instr).emitted := by
  cases instr
  case call retLoc name arity regs =>
    simp only [Instruction.emit, Except.bind_eq_ok, Except.pure_eq_ok] at success
    obtain ⟨start, fixed, text, written, rest, listed, rfl⟩ := success
    rw [emitFixed_eq_ok fixed, emitText_eq_ok written, bytes_eq_ok listed]
    simp [layout, Layout.emitted, Layout.countedBytes, operands, ofNat_of_toNat counted, Opcodes.CALL, OP_CALL]
  case callLocal | anonFn =>
    simp only [Instruction.emit, Except.bind_eq_ok, Except.pure_eq_ok] at success
    obtain ⟨start, fixed, rest, listed, rfl⟩ := success
    rw [emitFixed_eq_ok fixed, bytes_eq_ok listed]
    simp [layout, Layout.emitted, Layout.countedBytes, operands, Opcodes.CALL_LOCAL, OP_CALL_LOCAL,
      Opcodes.ANON_FN, OP_ANON_FN]
  case tuple | list =>
    simp only [Instruction.emit, Except.bind_eq_ok, Except.pure_eq_ok] at success
    obtain ⟨start, fixed, rest, listed, rfl⟩ := success
    rw [emitFixed_eq_ok fixed, bytes_eq_ok listed]
    simp [layout, Layout.emitted, Layout.countedBytes, operands, ofNat_of_toNat counted, Opcodes.TUPLE,
      OP_TUPLE, Opcodes.LIST, OP_LIST]
  case capture | loadString =>
    simp only [Instruction.emit, Except.bind_eq_ok, Except.pure_eq_ok] at success
    obtain ⟨start, fixed, text, written, rfl⟩ := success
    rw [emitFixed_eq_ok fixed, emitText_eq_ok written]
    rfl
  case storeInt | test =>
    simp only [Instruction.emit, Except.bind_eq_ok, Except.pure_eq_ok] at success
    obtain ⟨start, fixed, rfl⟩ := success
    rw [emitFixed_eq_ok fixed]
    rfl
  case jmp | «return» => exact (Except.ok.inj success).symm
  all_goals exact emitFixed_eq_ok success

theorem layout_valid {instr : Instruction} (counted : Counted instr) : (layout instr).Valid := by
  cases instr
  case call retLoc name arity regs =>
    have := arity.toNat_lt
    simp only [Counted] at counted
    simp only [layout, Layout.Valid, operands_length]
    omega
  case tuple reg size elems | list reg size elems =>
    have := size.toNat_lt
    simp only [Counted] at counted
    exact ⟨rfl, by rw [operands_length]; omega⟩
  case callLocal | anonFn => exact ⟨rfl, by rwa [operands_length]⟩
  case capture | loadString => trivial
  all_goals rfl

theorem emittedAll_append (first second : List Layout) :
    emittedAll (first ++ second) = emittedAll first ++ emittedAll second :=
  List.flatMap_append

theorem codeEmit_eq_ok {code : Bytecode} {emitted : List Bytes} (counted : ∀ instr ∈ code, Counted instr)
    (success : code.mapM Instruction.emit = .ok emitted) : emitted.flatten = emittedAll (code.map layout) := by
  induction code generalizing emitted with
  | nil =>
    rw [Except.mapM_nil_eq_ok.mp success]
    rfl
  | cons instr code ih =>
    obtain ⟨first, rest, head, tail, rfl⟩ := Except.mapM_cons_eq_ok.mp success
    obtain ⟨here, later⟩ := List.forall_mem_cons.mp counted
    rw [List.flatten_cons, ih later tail, emit_eq_ok here head]
    rfl

private theorem functionEmit_eq_ok {function : Compiler.Function} {emitted : Bytes}
    (counted : ∀ instr ∈ function.code, Counted instr) (success : function.emit = .ok emitted) :
    emitted = emittedAll (functionItems function) := by
  simp only [Compiler.Function.emit, Except.bind_eq_ok, Except.pure_eq_ok] at success
  obtain ⟨header, named, body, written, rfl⟩ := success
  rw [emitText_eq_ok named, codeEmit_eq_ok counted written]
  rfl

/-- A module is the concatenation of its items. -/
theorem moduleEmit_eq_ok {module : Module} {emitted : Bytes}
    (counted : ∀ function ∈ module.functions, ∀ instr ∈ function.code, Counted instr)
    (success : module.emit = .ok emitted) : emitted = emittedAll (moduleItems module) := by
  simp only [Module.emit, Except.bind_eq_ok, Except.pure_eq_ok] at success
  obtain ⟨parts, written, rfl⟩ := success
  rw [moduleItems]
  generalize module.functions = functions at counted written
  induction functions generalizing parts with
  | nil =>
    rw [Except.mapM_nil_eq_ok.mp written]
    rfl
  | cons function functions ih =>
    obtain ⟨first, rest, head, tail, rfl⟩ := Except.mapM_cons_eq_ok.mp written
    obtain ⟨here, later⟩ := List.forall_mem_cons.mp counted
    rw [List.flatten_cons, ih rest later tail, functionEmit_eq_ok here head, List.flatMap_cons,
      emittedAll_append]

theorem moduleItems_valid {module : Module}
    (counted : ∀ function ∈ module.functions, ∀ instr ∈ function.code, Counted instr) :
    ∀ item ∈ moduleItems module, item.Valid := by
  intro item member
  obtain ⟨function, present, inside⟩ := List.mem_flatMap.mp member
  rcases List.mem_cons.mp inside with rfl | inside
  · trivial
  · obtain ⟨instr, here, rfl⟩ := List.mem_map.mp inside
    exact layout_valid (counted function present instr here)

namespace Layout

/-- The number of bytes of an item in loaded code. -/
def width (item : Layout) : ℕ := (item.loaded 0).length

theorem loaded_length (item : Layout) (id : UInt8) : (item.loaded id).length = item.width := by
  cases item <;> simp [width, loaded, countedBytes]

@[simp] theorem width_plain (opcode : UInt8) (operands : Bytes) :
    (plain opcode operands).width = 1 + operands.length := Nat.add_comm ..

@[simp] theorem width_counted (opcode : UInt8) (fixed operands : Bytes) :
    (counted opcode fixed operands).width = 2 + fixed.length + operands.length := by
  simp only [width, loaded, countedBytes, List.cons_append, List.length_cons, List.length_append]
  omega

@[simp] theorem width_call (dst : UInt8) (name operands : Bytes) :
    (call dst name operands).width = 4 + operands.length := by
  simp only [width, loaded, countedBytes, List.cons_append, List.nil_append, List.length_cons]
  omega

end Layout

theorem sizeWithOperands_eq_ok {fixed size : UInt8} {regs : List VarRef} (few : regs.length < 256)
    (success : sizeWithOperands fixed regs = .ok size) : size.toNat = fixed.toNat + regs.length := by
  simp only [sizeWithOperands, checkedAdd] at success
  split at success
  · next fits =>
    rw [← Except.ok.inj success, UInt8.toNat_add, Nat.mod_eq_of_lt fits, UInt8.toNat_ofNat',
      Nat.mod_eq_of_lt few]
  · contradiction

/-- The size that jumps are computed from is the width of the loaded form, and one more for a capture. -/
theorem byteSize_eq_ok {instr : Instruction} {size : UInt8} (counted : Counted instr)
    (success : instr.byteSize = .ok size) :
    size.toNat = (layout instr).width + match instr with
      | .capture _ _ _ => 1
      | _ => 0 := by
  cases instr
  case call retLoc name arity regs =>
    have := arity.toNat_lt
    have size := sizeWithOperands_eq_ok (by simp only [Counted] at counted; omega) success
    simpa [layout] using size
  case tuple reg count elems | list reg count elems =>
    have := count.toNat_lt
    have size := sizeWithOperands_eq_ok (by simp only [Counted] at counted; omega) success
    simpa [layout] using size
  case callLocal | anonFn =>
    have size := sizeWithOperands_eq_ok counted success
    simpa [layout] using size
  all_goals
    cases success
    rfl

end Owl.Format
