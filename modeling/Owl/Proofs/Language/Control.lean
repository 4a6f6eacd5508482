import Owl.Proofs.Language.Instructions
import Owl.Soundness.LinkedCalls
import Owl.Soundness.RegisterBounds
import Owl.Soundness.ControlFlow

/-! # Where code stands and where it leads

Generated code stands in loaded code instruction after instruction, each as wide as jumps take it to be. What
follows are the rounds of the machine that go on elsewhere: tests, jumps, calls and returns.
-/

namespace Owl.Language

open Owl.Compiler Owl.Runtime Owl.Format StateExcept

/-- An instruction in loaded code: its bytes carry the number of the function that it names, its width is the
one that jumps assume, and its registers are in the frame. -/
structure PlacedAt (number : Bytes → Option ℕ) (memory : ByteMemory) (position : ℕ) (instr : Instruction) : Prop where
  bytes : ∃ id, (layout instr).cut.Named number id ∧
    memory.readBytes position (layout instr).width = (layout instr).loaded id
  span : instr.span = (layout instr).width
  inFrame : ∀ ref ∈ instr.refs, ref.InFrame

/-- Instructions behind each other in loaded code. -/
def Placed (number : Bytes → Option ℕ) (memory : ByteMemory) : ℕ → Bytecode → Prop
  | _, [] => True
  | position, instr :: code =>
      PlacedAt number memory position instr ∧ Placed number memory (position + instr.span) code

section Placed

variable {number : Bytes → Option ℕ} {memory : ByteMemory} {position : ℕ} {first second : Bytecode}

theorem placed_append : Placed number memory position (first ++ second) ↔
    Placed number memory position first ∧ Placed number memory (position + spanOf first) second := by
  induction first generalizing position with
  | nil => exact ⟨fun placed => ⟨trivial, placed⟩, And.right⟩
  | cons instr first ih => rw [List.cons_append, Placed, Placed, ih, spanOf_cons, ← Nat.add_assoc, and_assoc]

variable {World : Type} {vm : Vm World} {instr : Instruction}

theorem PlacedAt.holds (placed : PlacedAt number vm.code vm.ip instr) :
    ∃ id, (layout instr).cut.Named number id ∧ Holds vm ((layout instr).loaded id) := by
  obtain ⟨id, named, read⟩ := placed.bytes
  refine ⟨id, named, fun i inside => ?_⟩
  have within : i < (layout instr).width := by rwa [Layout.loaded_length] at inside
  exact byte_at read (List.getElem?_eq_getElem inside) within

end Placed

section Leap

variable {World : Type} {host : Host World} {vm : Vm World} {reg : UInt8}

theorem print_step (small : reg.toNat < REGISTER_COUNT) (holds : Holds vm [OP_PRINT, reg]) :
    step host vm = (host.termPrint vm.memory vm.world (register vm reg)).map
      fun world => ((), { vm with ip := vm.ip + 2, world }) := by
  have read : vm.code (vm.ip + 1) = reg := holds 1 (by simp)
  rw [step_eq holds.head (show (OP_PRINT, opPrint host) ∈ handlers host by simp [handlers]) (by decide), opPrint,
    nextByte_bind, read, bind_of_ok (getVar_register small _), get_bind, lift_bind]
  change (host.termPrint vm.memory vm.world (register vm reg) >>= _) = _
  cases host.termPrint vm.memory vm.world (register vm reg) <;> rfl

theorem test_step {jump : UInt8} (small : reg.toNat < REGISTER_COUNT) (holds : Holds vm [OP_TEST, reg, jump]) :
    step host vm =
      .ok ((), { vm with ip := vm.ip + if truthy (register vm reg) then 2 + jump.toNat else 3 }) := by
  have read : vm.code (vm.ip + 1) = reg := holds 1 (by simp)
  have target : vm.code (vm.ip + 2) = jump := holds 2 (by simp)
  rw [step_eq holds.head (show (OP_TEST, opTest) ∈ handlers host by simp [handlers]) (by decide), opTest,
    nextByte_bind, nextByte_bind]
  simp only [Nat.add_assoc, Nat.reduceAdd, read, target]
  rw [bind_of_ok (getVar_register small _), register_withIp]
  split
  · rw [advance_run]
    simp only [Nat.add_assoc]
  · rw [advance_run]

theorem jmp_step {loc : UInt8} (holds : Holds vm [OP_JMP, loc]) :
    step host vm = .ok ((), { vm with ip := vm.ip + 1 + loc.toNat }) := by
  have target : vm.code (vm.ip + 1) = loc := holds 1 (by simp)
  rw [step_eq holds.head (show (OP_JMP, opJmp) ∈ handlers host by simp [handlers]) (by decide), opJmp, nextByte_bind,
    target, advance_run]

end Leap

section Call

variable {World : Type} {host : Host World} {vm : Vm World} {regs : List UInt8}

/-- Registers after arguments have been passed behind the first `i`. -/
def passed (registers : ℕ → Term) : ℕ → List Term → ℕ → Term
  | _, [] => registers
  | i, term :: terms => passed (Function.update registers (i + 1) term) (i + 1) terms

private theorem passed_low {registers : ℕ → Term} {i j : ℕ} {terms : List Term} (low : j ≤ i) :
    passed registers i terms j = registers j := by
  induction terms generalizing registers i with
  | nil => rfl
  | cons term terms ih => rw [passed, ih (by omega), Function.update_of_ne (by omega)]

private theorem passed_getElem {registers : ℕ → Term} {i j : ℕ} {terms : List Term} (inside : j < terms.length) :
    passed registers i terms (i + 1 + j) = terms[j] := by
  induction terms generalizing registers i j with
  | nil => cases inside
  | cons term terms ih =>
    rw [passed]
    cases j with
    | zero =>
      rw [Nat.add_zero, passed_low (Nat.le_refl _), Function.update_self]
      rfl
    | succ j =>
      rw [show i + 1 + (j + 1) = i + 1 + 1 + j by omega, ih (by simpa using inside)]
      rfl

/-- A machine whose frame `i` has other registers. -/
def withRegisters (vm : Vm World) (i : ℕ) (registers : ℕ → Term) : Vm World :=
  { vm with frames := Function.update vm.frames i { vm.frames i with registers } }

private theorem passArguments_run {next i : ℕ} (other : next ≠ vm.currentFrame) (room : i + regs.length < REGISTER_COUNT)
    (inFrame : InFrame regs) (holds : Holds { vm with ip := vm.ip + 1 } regs) :
    passArguments next i regs.length vm = .ok ((), { withRegisters vm next
      (passed (vm.frames next).registers i (regs.map (register vm))) with ip := vm.ip + regs.length }) := by
  induction regs generalizing vm i with
  | nil =>
    simp only [List.length_nil, passArguments, List.map_nil, passed, withRegisters, Function.update_eq_self]
    rfl
  | cons reg regs ih =>
    obtain ⟨head, tail⟩ := holds_next holds
    obtain ⟨small, others⟩ := List.forall_mem_cons.mp inFrame
    have read : vm.code (vm.ip + 1) = reg := head
    rw [List.length_cons] at room ⊢
    rw [passArguments, nextByte_bind, read, bind_of_ok (getVar_register small _), register_withIp,
      if_neg (by omega), modify_bind]
    generalize stepped : Vm.setFrame { vm with ip := vm.ip + 1 } next
      ((vm.frames next).setRegister (i + 1) (register vm reg)) = vm'
    have same : register vm' = register vm := by
      funext r
      rw [← stepped]
      simp only [register, Vm.setFrame, Function.update_of_ne (Ne.symm other)]
    have frame : vm'.frames next = (vm.frames next).setRegister (i + 1) (register vm reg) := by
      rw [← stepped]
      exact Function.update_self ..
    have later := @ih vm' (i + 1) (by rwa [← stepped]) (by omega) others (by rw [← stepped]; exact tail)
    refine later.trans ?_
    rw [same, frame, ← stepped]
    simp only [withRegisters, Vm.setFrame, Function.update_self, Function.update_idem, List.map_cons, passed,
      Frame.setRegister, Nat.add_assoc, Nat.add_comm 1 regs.length]

/-- What running does not change. -/
structure Image where
  code : ByteMemory
  functions : ℕ → ℕ
  statics : ℕ → Option StaticFunction

def imageOf (vm : Vm World) : Image := ⟨vm.code, vm.functions, vm.statics⟩

/-- The machine behind a call, in the frame of the function that is called. -/
structure Called (vm vm' : Vm World) (out : UInt8) (width location : ℕ) (args : List Term) : Prop where
  ip : vm'.ip = location
  currentFrame : vm'.currentFrame = vm.currentFrame + 1
  below : ∀ i ≤ vm.currentFrame, vm'.frames i = vm.frames i
  retAddress : (vm'.frames (vm.currentFrame + 1)).retAddress = vm.ip + width
  retRegister : (vm'.frames (vm.currentFrame + 1)).retRegister = out.toNat
  args : ∀ i (inside : i < args.length), (vm'.frames (vm.currentFrame + 1)).registers (i + 1) = args[i]
  image : imageOf vm' = imageOf vm
  store : storeOf vm' = storeOf vm

variable {id out : UInt8} {record : StaticFunction}

/-- The byte behind the operation is the entry of the function table that is called. -/
private theorem loadFunction_filled (known : id.toNat < MAX_FUNCTIONS) (filled : vm.functions id.toNat ≠ NO_FUNCTION) :
    loadFunction host id vm = .ok (vm.functions id.toNat, vm) := by
  have entry : functionEntry id vm = .ok (vm.functions id.toNat, vm) := by
    rw [functionEntry, get_bind, if_pos known]
    rfl
  rw [loadFunction, bind_of_ok entry, if_pos filled]
  rfl

/-- A call up to its frame. -/
private theorem call_step (holds : Holds vm ([OP_CALL, out, id] ++ Layout.countedBytes regs))
    (idle : collects vm.heap = false) (known : id.toNat < MAX_FUNCTIONS)
    (filled : vm.functions id.toNat ≠ NO_FUNCTION) : step host vm = (do
      modify fun vm => { vm with currentFunction := vm.functions id.toNat }
      setupNextStackframe (vm.functions id.toNat) (UInt8.ofNat regs.length) out
      let location ← locationOf (vm.functions id.toNat)
      modify fun vm => { vm with ip := location } : Exec World Unit) { vm with ip := vm.ip + 3 } := by
  have ret : vm.code (vm.ip + 1) = out := holds 1 (by simp [Layout.countedBytes])
  have called : vm.code (vm.ip + 2) = id := holds 2 (by simp [Layout.countedBytes])
  have count : vm.code (vm.ip + 3) = UInt8.ofNat regs.length := holds 3 (by simp [Layout.countedBytes])
  have calm : ¬ Vm.SafepointCollects { vm with ip := vm.ip + 3 } := of_decide_eq_false idle
  have safe := gcSafepoint_run host { vm with ip := vm.ip + 3 }
  rw [if_neg calm] at safe
  rw [step_eq holds.head (show (OP_CALL, opCall host) ∈ handlers host by simp [handlers]) (by decide), opCall,
    nextByte_bind, nextByte_bind, nextByte_bind]
  simp only [Nat.add_assoc, Nat.reduceAdd, ret, called, count]
  rw [bind_of_ok safe, bind_of_ok (@loadFunction_filled _ host { vm with ip := vm.ip + 3 } _ known filled)]
  rfl

/-- A call in the last frame of the stack stops the machine. -/
theorem call_overflows (holds : Holds vm ([OP_CALL, out, id] ++ Layout.countedBytes regs))
    (idle : collects vm.heap = false) (known : id.toNat < MAX_FUNCTIONS)
    (filled : vm.functions id.toNat ≠ NO_FUNCTION) (full : STACK_DEPTH ≤ vm.currentFrame + 1) :
    step host vm = .error .assertion := by
  rw [call_step holds idle known filled, modify_bind]
  apply bind_of_error
  rw [setupNextStackframe, get_bind, if_pos full]
  rfl

/-- The machine with arguments in the next frame. -/
def withArguments (vm : Vm World) (next : ℕ) (regs : List UInt8) : Vm World :=
  { withRegisters vm next (passed (vm.frames next).registers 0 (regs.map (register vm))) with ip := vm.ip + regs.length }

/-- The machine in the next frame. -/
def inFrameOf (vm : Vm World) (next function : ℕ) (out : UInt8) : Vm World :=
  { vm.setFrame next { vm.frames next with retAddress := vm.ip + 1, retRegister := out.toNat, function } with
    currentFrame := vm.currentFrame + 1 }

private theorem setupNextStackframe_run {function : ℕ} {arity : UInt8} (length : arity.toNat = regs.length)
    (room : vm.currentFrame + 1 < STACK_DEPTH) (few : regs.length < REGISTER_COUNT) (inFrame : InFrame regs)
    (holds : Holds { vm with ip := vm.ip + 1 } regs) : setupNextStackframe function arity out vm =
      .ok ((), inFrameOf (withArguments vm (vm.currentFrame + 1) regs) (vm.currentFrame + 1) function out) := by
  have arguments := @passArguments_run _ vm regs (vm.currentFrame + 1) 0 (Nat.succ_ne_self _) (by omega) inFrame holds
  rw [setupNextStackframe, get_bind, if_neg (by omega), length, bind_of_ok arguments]
  rfl

theorem call_enters (inFrame : InFrame regs) (few : regs.length < REGISTER_COUNT)
    (holds : Holds vm ([OP_CALL, out, id] ++ Layout.countedBytes regs)) (idle : collects vm.heap = false)
    (known : id.toNat < MAX_FUNCTIONS) (filled : vm.functions id.toNat ≠ NO_FUNCTION)
    (found : vm.statics (vm.functions id.toNat) = some record) (room : vm.currentFrame + 1 < STACK_DEPTH) :
    ∃ vm', step host vm = .ok ((), vm') ∧
      Called vm vm' out (4 + regs.length) record.location (regs.map (register vm)) := by
  have operands : Holds { vm with ip := vm.ip + 4 } regs := holds_drop [_, _, _, _] holds
  have number : (UInt8.ofNat regs.length).toNat = regs.length := ofNat_toNat_of_lt (by rw [REGISTER_COUNT] at few; omega)
  have entered := @setupNextStackframe_run _ { vm with ip := vm.ip + 3, currentFunction := vm.functions id.toNat } regs
    out (vm.functions id.toNat) _ number room few inFrame operands
  rw [call_step holds idle known filled, modify_bind, bind_of_ok entered, bind_of_ok (locationOf_run ..)]
  refine ⟨_, rfl, ?_⟩
  constructor
  · simp only [inFrameOf, withArguments, withRegisters, Vm.setFrame, found]
  · rfl
  · intro i low
    simp only [inFrameOf, withArguments, withRegisters, Vm.setFrame]
    rw [Function.update_of_ne (by omega), Function.update_of_ne (by omega)]
  · simp only [inFrameOf, withArguments, withRegisters, Vm.setFrame, Function.update_self]
    omega
  · simp only [inFrameOf, Vm.setFrame, Function.update_self]
  · intro i inside
    simp only [inFrameOf, withArguments, withRegisters, Vm.setFrame, Function.update_self]
    rw [show i + 1 = 0 + 1 + i by omega]
    exact passed_getElem inside
  · rfl
  · rfl

/-- The machine behind a return, in the frame of the caller. -/
structure Returned (vm vm' : Vm World) : Prop where
  ip : vm'.ip = (vm.frames vm.currentFrame).retAddress
  currentFrame : vm'.currentFrame + 1 = vm.currentFrame
  below : ∀ i < vm'.currentFrame, vm'.frames i = vm.frames i
  caller : vm'.frames vm'.currentFrame = (vm.frames vm'.currentFrame).setRegister
    (vm.frames vm.currentFrame).retRegister ((vm.frames vm.currentFrame).registers 0)
  image : imageOf vm' = imageOf vm
  store : storeOf vm' = storeOf vm

theorem return_step (here : vm.code vm.ip = OP_RETURN) (called : 0 < vm.currentFrame)
    (small : (vm.frames vm.currentFrame).retRegister < REGISTER_COUNT) :
    ∃ vm', step host vm = .ok ((), vm') ∧ Returned vm vm' := by
  rw [step_eq here (show (OP_RETURN, opReturn) ∈ handlers host by simp [handlers]) (by decide), opReturn, get_bind,
    if_neg (by simp; omega)]
  refine ⟨_, rfl, rfl, Nat.succ_pred_eq_of_pos called, fun i low => ?_, ?_, rfl, rfl⟩
  · change i < vm.currentFrame - 1 at low
    simp only [Vm.setFrame]
    rw [Function.update_of_ne (by omega), Function.update_of_ne (by omega)]
  · simp only [Vm.setFrame]
    rw [Function.update_of_ne (by omega), Function.update_self]

end Call

end Owl.Language
