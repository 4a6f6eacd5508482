import Owl.Proofs.Runtime.Advance
import Owl.Soundness.EmittedFormat
import Owl.Soundness.RunningClosure

/-! # The widths of instructions

Jumps are computed from `byte_size`, the loader appends an instruction to the code, and its handler reads
it there. The three agree on the width of every instruction but the capture of a function, which is given
four bytes and has three.
-/

namespace Owl.Format

open Owl.Compiler Owl.Runtime StateExcept

/-- The code at the instruction pointer begins with the given bytes. -/
def Holds {World : Type} (vm : Vm World) (code : Bytes) : Prop :=
  ∀ i (inside : i < code.length), vm.code (vm.ip + i) = code[i]

/-- The operand is true. -/
def Taken {World : Type} (vm : Vm World) (reg : VarRef) : Prop :=
  ∃ term, getVar (operand reg) vm = .ok (term, vm) ∧ truthy term = true

/-- Where execution goes on after an instruction of the given size: right behind it when it falls through.
A call returns there, a jump starts on its last byte, and a closure begins behind its captured operands.
An exit or a return does not go on. -/
def GoesOn {World : Type} (instr : Instruction) (size : ℕ) (vm vm' : Vm World) : Prop :=
  match instr with
  | .exit _ | .return => True
  | .call _ _ _ _ | .callLocal _ _ _ => (vm'.frames vm'.currentFrame).retAddress = vm.ip + size
  | .jmp loc => vm'.ip + 1 = vm.ip + size + loc.toNat
  | .test reg jump =>
      (¬ Taken vm reg → vm'.ip = vm.ip + size) ∧ (Taken vm reg → vm'.ip + 1 = vm.ip + size + jump.toNat)
  | .anonFn _ jump _ _ =>
      vm'.ip + 1 = vm.ip + size + jump.toNat ∧
        vm'.heap.mem.readNat (vm.heap.allocPtr + 1) 8 = (vm.ip + size) % 2 ^ 64
  | _ => vm'.ip = vm.ip + size

/-- The loader appends `size` bytes for the emitted bytes of the instruction, unless its tables are full,
and a machine that executes them goes on `size` bytes later. -/
def WidthsAgree (instr : Instruction) (size : ℕ) (emitted : Bytes) : Prop :=
  ∀ (World : Type) (host : Host World) (loader : Loader World) (rest : Bytes),
    match loadStep host (feed loader (emitted ++ rest)) with
    | .error stop => stop = .assertion
    | .ok (_, loader') =>
        ∃ code : Bytes, code.length = size ∧
          (loader'.scanner = rest ∧ loader'.codePtr = loader.codePtr + size ∧
            loader'.vm.codeSize = loader.vm.codeSize + size ∧
            loader'.vm.code = ByteMemory.writeBytes loader.vm.code loader.codePtr code) ∧
          ∀ vm vm' : Vm World, Holds vm code → step host vm = .ok ((), vm') → GoesOn instr size vm vm'

section Load

variable {World : Type} {host : Host World}

/-- An item other than a header is loaded as its own loaded form, or its id is out of range. -/
private theorem load_appends {item : Layout} (body : ∀ name, item ≠ .header name) (loader : Loader World) :
    item.load host loader = .error .assertion ∨
      ∃ id world, item.load host loader =
        .ok ((), append { loader with vm := { loader.vm with world } } (item.loaded id)) := by
  cases item with
  | header name => exact absurd rfl (body name)
  | plain opcode operands | counted opcode fixed operands => exact .inr ⟨0, loader.vm.world, rfl⟩
  | capture dst name => exact .inr ⟨UInt8.ofNat (host.intern loader.vm.world .functionNames name).1, _, rfl⟩
  | loadString dst content =>
    rw [Layout.load, bind_of_ok (request_run ..)]
    split
    · exact .inr ⟨UInt8.ofNat (host.intern loader.vm.world .internPool content).1, _, rfl⟩
    · exact .inl rfl
  | call dst name operands =>
    rw [Layout.load, bind_of_ok (request_run ..)]
    split
    · exact .inr ⟨UInt8.ofNat (host.intern loader.vm.world .functionNames name).1, _, rfl⟩
    · exact .inl rfl

theorem cut_loaded (item : Layout) (id : UInt8) : item.cut.loaded id = item.loaded id := by
  cases item <;> rfl

private theorem layout_body (instr : Instruction) (name : Bytes) : (layout instr).cut ≠ .header name := by
  cases instr <;> simp [layout, Layout.cut]

end Load

section Execute

variable {World : Type} {host : Host World} {vm vm' : Vm World}

theorem advances_of_plain {opcode : UInt8} {handler : Exec World Unit} {m n : ℕ}
    (advances : Advances (m + 1) handler) (fixed : Layout.plainOperands opcode = some m)
    (same : Layout.plainOperands opcode = some n) : Advances (n + 1) handler := by
  rw [← Option.some.inj (fixed.symm.trans same)]
  exact advances

theorem advances_of_other {opcode : UInt8} {handler : Exec World Unit} {n : ℕ}
    (other : Layout.plainOperands opcode = none) (fixed : Layout.plainOperands opcode = some n) :
    Advances (n + 1) handler := by
  rw [other] at fixed
  cases fixed

/-- A handler that falls through moves behind the fixed operands of its opcode. -/
private theorem handlers_advance (host : Host World) : ∀ entry ∈ handlers host, ∀ n,
    Layout.plainOperands entry.1 = some n → entry.1 ∉ [OP_EXIT, OP_RETURN, OP_JMP, OP_TEST] →
    Advances (n + 1) entry.2 := by
  simp only [handlers, List.forall_mem_cons, List.not_mem_nil, false_imp_iff, implies_true, and_true]
  exact ⟨fun _ _ through => absurd (by decide) through,
    fun _ fixed _ => advances_of_plain opStoreInt_advances rfl fixed,
    fun _ fixed _ => advances_of_plain (opPrint_advances host) rfl fixed,
    fun _ fixed _ => advances_of_plain (opBinary_advances _) rfl fixed,
    fun _ fixed _ => advances_of_plain (opBinary_advances _) rfl fixed,
    fun _ fixed _ => advances_of_other rfl fixed,
    fun _ _ through => absurd (by decide) through,
    fun _ fixed _ => advances_of_plain opMov_advances rfl fixed,
    fun _ _ through => absurd (by decide) through,
    fun _ fixed _ => advances_of_other rfl fixed,
    fun _ fixed _ => advances_of_plain opTupleNth_advances rfl fixed,
    fun _ fixed _ => advances_of_other rfl fixed,
    fun _ fixed _ => advances_of_plain (opStore_advances _) rfl fixed,
    fun _ fixed _ => advances_of_plain (opStore_advances _) rfl fixed,
    fun _ _ through => absurd (by decide) through,
    fun _ fixed _ => advances_of_plain (opCompare_advances host _) rfl fixed,
    fun _ fixed _ => advances_of_plain (opCompare_advances host _) rfl fixed,
    fun _ fixed _ => advances_of_plain opNot_advances rfl fixed,
    fun _ fixed _ => advances_of_plain (opStore_advances _) rfl fixed,
    fun _ fixed _ => advances_of_plain (opBinary_advances _) rfl fixed,
    fun _ fixed _ => advances_of_other rfl fixed,
    fun _ fixed _ => advances_of_plain (opRoutine_advances _ 0) rfl fixed,
    fun _ fixed _ => advances_of_plain (opRoutine_advances _ 2) rfl fixed,
    fun _ fixed _ => advances_of_plain (opRoutine_advances _ 1) rfl fixed,
    fun _ fixed _ => advances_of_other rfl fixed,
    fun _ fixed _ => advances_of_other rfl fixed,
    fun _ fixed _ => advances_of_plain (opRoutine_advances _ 2) rfl fixed,
    fun _ fixed _ => advances_of_plain (opRoutine_advances _ 1) rfl fixed,
    fun _ fixed _ => advances_of_plain (opRoutine_advances _ 3) rfl fixed,
    fun _ fixed _ => advances_of_plain (opRoutine_advances _ 3) rfl fixed,
    fun _ fixed _ => advances_of_plain (opCodeLoad_advances host) rfl fixed,
    fun _ fixed _ => advances_of_plain opFunctionName_advances rfl fixed,
    fun _ fixed _ => advances_of_plain (opRoutine_advances _ 1) rfl fixed,
    fun _ fixed _ => advances_of_plain (opRoutine_advances _ 2) rfl fixed,
    fun _ fixed _ => advances_of_plain (opRoutine_advances _ 1) rfl fixed,
    fun _ fixed _ => advances_of_other rfl fixed,
    fun _ fixed _ => advances_of_plain (opGcCollect_advances host) rfl fixed⟩

theorem Holds.head {opcode : UInt8} {code : Bytes} (holds : Holds vm (opcode :: code)) :
    vm.code vm.ip = opcode := holds 0 (by simp)

/-- An instruction with fixed operands that falls through. -/
private theorem plain_ip {opcode : UInt8} {operands : Bytes} (valid : (Layout.plain opcode operands).Valid)
    (through : opcode ∉ [OP_EXIT, OP_RETURN, OP_JMP, OP_TEST]) (holds : Holds vm (opcode :: operands))
    (run : step host vm = .ok ((), vm')) : vm'.ip = vm.ip + (1 + operands.length) := by
  obtain ⟨handler, member, ran⟩ := step_handler run
  rw [holds.head] at member
  rw [handlers_advance host _ member _ valid through _ _ _ ran, Nat.add_comm 1]

theorem Taken.iff {reg : VarRef} {term : Term} (read : getVar (operand reg) vm = .ok (term, vm)) :
    Taken vm reg ↔ truthy term = true := by
  refine ⟨fun ⟨other, same, truth⟩ => ?_, fun truth => ⟨term, read, truth⟩⟩
  rw [read] at same
  rwa [(Prod.mk.inj (Except.ok.inj same)).1]

/-- The machine goes on behind the loaded form of an instruction. -/
theorem goesOn_width {instr : Instruction} {id : UInt8} (counted : Counted instr)
    (holds : Holds vm ((layout instr).loaded id)) (run : step host vm = .ok ((), vm')) :
    GoesOn instr (layout instr).width vm vm' := by
  have valid := layout_valid counted
  cases instr
  case exit | «return» => trivial
  case jmp loc =>
    have ran := opJmp_ip (step_runs run holds.head (by simp [handlers]))
    have jump : vm.code (vm.ip + 1) = loc := holds 1 (by simp [layout, Layout.loaded])
    rw [GoesOn, ran, jump, layout, Layout.width_plain, List.length_singleton]
    omega
  case test reg jump =>
    obtain ⟨term, read, ip⟩ := opTest_ip (step_runs run holds.head (by simp [handlers]))
    have tested : vm.code (vm.ip + 1) = operand reg := holds 1 (by simp [layout, Layout.loaded])
    have target : vm.code (vm.ip + 2) = jump := holds 2 (by simp [layout, Layout.loaded])
    rw [tested] at read
    rw [target] at ip
    rw [GoesOn, Taken.iff read, layout, Layout.width_plain]
    refine ⟨fun passed => ?_, fun taken => ?_⟩
    · rw [ip, if_neg passed]
      rfl
    · rw [ip, if_pos taken, List.length_cons, List.length_singleton]
      omega
  case call retLoc name arity regs =>
    have entered : opCall host vm = .ok ((), vm') := step_runs run holds.head (by simp [handlers])
    have count : vm.code (vm.ip + 3) = UInt8.ofNat (operands regs).length :=
      holds 3 (by simp [layout, Layout.loaded, Layout.countedBytes])
    rw [GoesOn, opCall_retAddress entered, count, ofNat_toNat_of_lt valid, layout, Layout.width_call]
  case callLocal retLoc funcLoc regs =>
    have ran := opCallLocal_retAddress (step_runs run holds.head (by simp [handlers]))
    have count : vm.code (vm.ip + 3) = UInt8.ofNat (operands regs).length :=
      holds 3 (by simp [layout, Layout.loaded, Layout.countedBytes, operands])
    rw [GoesOn, ran, count, ofNat_toNat_of_lt valid.2, layout, Layout.width_counted]
    rfl
  case tuple reg size elems =>
    have ran := opTuple_ip (step_runs run holds.head (by simp [handlers]))
    have count : vm.code (vm.ip + 2) = UInt8.ofNat (operands elems).length :=
      holds 2 (by simp [layout, Layout.loaded, Layout.countedBytes, operands])
    change vm'.ip = vm.ip + _
    rw [ran, count, ofNat_toNat_of_lt valid.2, layout, Layout.width_counted]
    rfl
  case list reg size elems =>
    have built : opList host vm = .ok ((), vm') := step_runs run holds.head (by simp [handlers])
    have count : vm.code (vm.ip + 2) = UInt8.ofNat (operands elems).length :=
      holds 2 (by simp [layout, Layout.loaded, Layout.countedBytes, operands])
    change vm'.ip = vm.ip + _
    rw [opList_ip built, count, ofNat_toNat_of_lt valid.2, layout, Layout.width_counted]
    rfl
  case anonFn dst jump arity upvals =>
    have created : opAnonFn host vm = .ok ((), vm') := step_runs run holds.head (by simp [handlers])
    obtain ⟨ip, location⟩ := opAnonFn_ip created
    have target : vm.code (vm.ip + 2) = jump :=
      holds 2 (by simp [layout, Layout.loaded, Layout.countedBytes])
    have count : vm.code (vm.ip + 4) = UInt8.ofNat (operands upvals).length :=
      holds 4 (by simp [layout, Layout.loaded, Layout.countedBytes])
    rw [count, ofNat_toNat_of_lt valid.2] at ip location
    rw [target] at ip
    rw [GoesOn, location, ip, layout, Layout.width_counted]
    refine ⟨?_, rfl⟩
    simp only [List.length_cons, List.length_nil]
    omega
  case capture dst name arity =>
    exact opCapture_advances host _ _ _ (step_runs run holds.head (by simp [handlers]))
  case loadString dst content =>
    exact opLoadString_advances host _ _ _ (step_runs run holds.head (by simp [handlers]))
  all_goals exact plain_ip valid (by decide) holds run

end Execute

/-- An instruction of a function in a generated module. -/
def Generated (instr : Instruction) : Prop :=
  ∃ definition module, generate definition = .ok module ∧
    ∃ function ∈ module.functions, instr ∈ function.code

theorem Generated.counted {instr : Instruction} (generated : Generated instr) : Counted instr := by
  obtain ⟨_, _, accepted, function, present, member⟩ := generated
  exact generate_counted accepted function present instr member

/-- In runs of the loader and the machine an instruction has the width of its loaded form. -/
private theorem widthsAgree_iff_width {instr : Instruction} {size : ℕ} (counted : Counted instr)
    (short : ∀ pool text, (layout instr).text? = some (pool, text) → text.length < 255) :
    WidthsAgree instr size (layout instr).emitted ↔ size = (layout instr).width := by
  have step {World : Type} (host : Host World) (loader : Loader World) (rest : Bytes) :
      loadStep host (feed loader ((layout instr).emitted ++ rest)) = .error .assertion ∨
        ∃ id world, loadStep host (feed loader ((layout instr).emitted ++ rest)) =
          .ok ((), append { feed loader rest with vm := { loader.vm with world } } ((layout instr).loaded id)) := by
    rw [loadStep_cut (layout_valid counted) short]
    simp only [← cut_loaded (layout instr)]
    exact load_appends (layout_body instr) (feed loader rest)
  constructor
  · intro agree
    obtain ⟨loaded, finished⟩ := load_freshLoader (layout instr).cut []
    rw [← loadStep_cut (layout_valid counted) short] at finished
    have appended := agree Tables looseHost freshLoader []
    rcases step looseHost freshLoader [] with failed | ⟨id, world, ran⟩
    · rw [failed] at finished
      cases finished
    · rw [ran] at appended
      obtain ⟨_, -, ⟨-, moved, -, -⟩, -⟩ := appended
      simp only [append, feed, Layout.loaded_length] at moved
      omega
  · rintro rfl World host loader rest
    rcases step host loader rest with failed | ⟨id, world, ran⟩
    · rw [failed]
    · rw [ran]
      refine ⟨(layout instr).loaded id, Layout.loaded_length _ _, ⟨rfl, ?_, ?_, rfl⟩,
        fun vm vm' holds run => goesOn_width counted holds run⟩
      · simp only [append, feed, Layout.loaded_length]
      · simp only [append, feed, Layout.loaded_length]

/-- The three widths of an instruction agree exactly if it does not capture a function. -/
theorem widthsAgree_iff_noCapture {instr : Instruction} {size : UInt8} {emitted : Bytes}
    (generated : Generated instr) (sized : instr.byteSize = .ok size) (encoded : instr.emit = .ok emitted)
    (short : ∀ pool text, (layout instr).text? = some (pool, text) → text.length < 255) :
    WidthsAgree instr size.toNat emitted ↔ ∀ dst name arity, instr ≠ .capture dst name arity := by
  rw [emit_eq_ok generated.counted encoded, widthsAgree_iff_width generated.counted short,
    byteSize_eq_ok generated.counted sized]
  cases instr <;> simp

/-- The call `f(g)` of the module of short texts takes five bytes, whatever the name of the function. -/
theorem widthsAgree_call :
    WidthsAgree (.call (.register 3) (bytes "M.f") 1 [.register 4]) 5
      ([OP_CALL, 3, 6] ++ bytes "M.f\\1" ++ [0, 1, 4]) := by
  have generated : Generated (.call (.register 3) (bytes "M.f") 1 [.register 4]) :=
    ⟨shortTexts, _, rfl, _, List.mem_singleton_self _, by decide⟩
  refine (widthsAgree_iff_noCapture generated rfl rfl ?_).mpr (by simp)
  rintro pool text named
  cases named
  decide

/-- `fn f() { f\0 }`. -/
def capturedFunction : ModuleDef where
  name := bytes "M"
  functions := [{ name := bytes "f", args := [], body := [.capture none (bytes "f") 0] }]

/-- The capture is given four bytes, and three are loaded. -/
theorem widthsAgree_fails : ¬ ∀ instr size emitted, Generated instr →
    instr.byteSize = .ok size → instr.emit = .ok emitted →
    (∀ pool text, (layout instr).text? = some (pool, text) → text.length < 255) →
    WidthsAgree instr size.toNat emitted := by
  intro agree
  have generated : Generated (.capture (.register 0) (bytes "M.f") 0) :=
    ⟨capturedFunction, _, rfl, _, List.mem_singleton_self _, by decide⟩
  have short : ∀ pool text, (layout (.capture (.register 0) (bytes "M.f") 0)).text? = some (pool, text) →
      text.length < 255 := by
    rintro pool text named
    cases named
    decide
  have four := agree _ _ _ generated rfl rfl short
  exact absurd ((widthsAgree_iff_width generated.counted short).mp four) (by decide)

end Owl.Format
