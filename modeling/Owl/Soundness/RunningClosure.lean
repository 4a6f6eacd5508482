import Owl.Proofs.Runtime.Steps
import Owl.Model.Runtime.ReferenceHost

/-! # The running closure

Operands above 127 are read from the current function, a global that every call sets and no return
restores. It is the function of the frame that is executed in runs where a function is only ever called
by itself, and in those runs a closure reads the values that it captured.
-/

namespace Owl.Runtime

open StateExcept

variable {World : Type} {host : Host World} {arena : ℕ}

/-- The current function is the one of the frame that is executed. -/
def Vm.Belongs (vm : Vm World) : Prop := vm.currentFunction = (vm.frames vm.currentFrame).function

/-- A return goes back to a frame of the function that returns. -/
def Vm.ReturnsToItself (vm : Vm World) : Prop :=
  vm.code vm.ip = OP_RETURN → (vm.frames (vm.currentFrame - 1)).function = vm.currentFunction

instance (vm : Vm World) : Decidable vm.ReturnsToItself := inferInstanceAs (Decidable (_ → _))

theorem Quiet.belongs {vm vm' : Vm World} (quiet : Quiet host vm vm') : vm'.Belongs ↔ vm.Belongs := by
  rw [Vm.Belongs, Vm.Belongs, quiet.currentFunction, quiet.currentFrame, quiet.function]

/-- A step keeps the running closure exactly if it is no return, or one to a frame of the same
function. -/
private theorem step_belongs {vm vm' : Vm World} (run : step host vm = .ok ((), vm')) (belongs : vm.Belongs) :
    vm'.Belongs ↔ vm.ReturnsToItself := by
  rcases step_cases run with ⟨opcode, ran⟩ | ⟨opcode, ran⟩ | ⟨opcode, ran⟩ | ⟨opcode, ran⟩ | ⟨plain, calm⟩
  · exact iff_of_true (opCall_ok ran).1.running.symm fun other => absurd (opcode.symm.trans other) (by decide)
  · obtain ⟨left, -⟩ := opReturn_ok host ran
    have frame : vm'.currentFrame = vm.currentFrame - 1 := by
      have := left.currentFrame
      omega
    rw [Vm.Belongs, left.currentFunction, left.function, frame]
    exact ⟨fun same _ => same.symm, fun returns => (returns opcode).symm⟩
  · exact iff_of_true (opCallLocal_ok host ran).1.running.symm
      fun other => absurd (opcode.symm.trans other) (by decide)
  · exact iff_of_true ((opGcCollect_quiet host _ _ _ ran).belongs.mpr belongs)
      fun other => absurd (opcode.symm.trans other) (by decide)
  · exact iff_of_true (calm.toQuiet.belongs.mpr belongs)
      fun other => absurd (other ▸ plain) (by decide)

theorem Loaded.sound {vm : Vm World} (loaded : Loaded host arena vm) :
    vm.Belongs ∧ vm.Placed host arena := by
  induction loaded with
  | new world mem => exact ⟨rfl, Vm.new_placed world mem⟩
  | load _ run ih =>
    have calm := loadModule_calm host _ _ _ _ run
    exact ⟨calm.toQuiet.belongs.mpr ih.1, ih.2.step calm.grows.stays calm.statics⟩

theorem Started.sound {vm : Vm World} (started : Started host arena vm) :
    vm.Belongs ∧ vm.Placed host arena := by
  obtain ⟨loadedVm, functionName, loaded, run⟩ := started
  obtain ⟨belongs, placed⟩ := loaded.sound
  obtain ⟨quiet, same⟩ := enterFunction_ok run
  exact ⟨quiet.belongs.mpr belongs, placed.step (same ▸ (Heap.Fills.refl _).stays) quiet.statics⟩

theorem Run.belongs {start vm : Vm World} (run : Run host Vm.ReturnsToItself start vm)
    (belongs : start.Belongs) : vm.Belongs :=
  run.invariant belongs fun _ _ returns one before => (step_belongs one before).mpr returns

/-- Every machine of a run whose returns are to frames of the returning function has the running
closure as its current function, and the next step keeps it so exactly if it is of that kind. A closure
then reads what it captured, until a collection. -/
theorem runningClosure_while_returnsToItself {start vm : Vm World} (apart : host.Apart arena)
    (started : Started host arena start) (run : Run host Vm.ReturnsToItself start vm) :
    vm.Belongs ∧
    (∀ vm', step host vm = .ok ((), vm') → (vm'.Belongs ↔ vm.ReturnsToItself)) ∧
    ∀ created reading, vm.code vm.ip = OP_ANON_FN → step host vm = .ok ((), created) →
      Run host (fun vm => vm.ReturnsToItself ∧ ¬ vm.Collects) created reading →
      (reading.frames reading.currentFrame).function = vm.heap.allocPtr + 1 →
      ∀ reg : UInt8, 128 ≤ reg → (reg - 128).toNat < (vm.code (vm.ip + 4)).toNat →
        getVar reg reading =
          .ok (created.heap.upvalue (vm.heap.allocPtr + 1) (reg - 128).toNat, reading) ∧
        (vm.OperandSettled (vm.code (vm.ip + 5 + (reg - 128).toNat)) →
          created.heap.upvalue (vm.heap.allocPtr + 1) (reg - 128).toNat =
            vm.operand (vm.code (vm.ip + 5 + (reg - 128).toNat))) := by
  obtain ⟨belongs, placed⟩ := started.sound
  have belongs := run.belongs belongs
  have placed := run.placed placed
  refine ⟨belongs, fun vm' one => step_belongs one belongs, ?_⟩
  intro created reading opcode one later closure reg high captured
  have ran : opAnonFn host vm = .ok ((), created) := step_runs one opcode (by simp [handlers])
  obtain ⟨calm, inside, room, count, slots⟩ := opAnonFn_ok ran
  refine ⟨?_, slots _ captured⟩
  have running : reading.currentFunction = vm.heap.allocPtr + 1 := by
    rw [← closure]
    exact (later.mono fun _ => And.left).belongs (calm.toQuiet.belongs.mpr belongs)
  have grows := later.grows fun _ => And.right
  rw [upvalueAddress_eq] at inside
  -- The closure lies in the arena, where the allocator of function records has no blocks.
  have heap : reading.statics (vm.heap.allocPtr + 1) = none := by
    refine (later.placed (step_placed one placed)).statics_none apart ?_ ?_
    · have := placed.allocPtr
      have := placed.spaces
      omega
    · have := placed.size
      have := placed.spaces
      omega
  have counted : ¬ reading.heap.nUpvalues (vm.heap.allocPtr + 1) ≤ (reg - 128).toNat := by
    rw [Heap.nUpvalues, grows.mem _ (.inl (by omega)), ← Heap.nUpvalues, count]
    omega
  rw [getVar_run, if_pos high, upvalueOf_run, running, heap]
  simp only [Nat.add_eq_zero_iff, Nat.one_ne_zero, and_false, decide_false, Option.isSome_none,
    Bool.or_self, Bool.false_eq_true, if_false, if_neg counted]
  rw [grows.upvalue (.inl (by rw [upvalueAddress_eq]; omega))]

/-- `fn main() { let a = 1  let b = 2  let g = () => b  let f = () => { a  g()  a }  f() }`. -/
def nestedClosures : Compiler.ModuleDef where
  name := bytes "M"
  functions := [{
    name := bytes "main"
    args := []
    body := [
      .let (bytes "a") (.int (bytes "1")),
      .let (bytes "b") (.int (bytes "2")),
      .let (bytes "g") (.anonFn [] [.ident (bytes "b")]),
      .let (bytes "f") (.anonFn [] [
        .ident (bytes "a"), .apply none (bytes "g") [], .ident (bytes "a")]),
      .apply none (bytes "f") []] }]

/-- The machine about to run the main function, with the arena at address 4096. -/
def nestedStart : Option (Vm Tables) :=
  (launch (bytecodeOf nestedClosures) (bytes "M.main\\0") 4096).toOption

private theorem nestedStart_started {vm : Vm Tables} (launched : nestedStart = some vm) :
    Started referenceHost 4096 vm :=
  launch_started (Except.toOption_eq_some.mp launched)

private theorem referenceHost_apart : referenceHost.Apart 4096 := by
  intro tables
  simp only [referenceHost, System.host, referenceSystem, Tables.malloc]
  omega

/-- In `f`, before it calls `g`, the first upvalue is the captured `a`. -/
theorem runningClosure_reads_captured : ∃ start vm created reading : Vm Tables,
    Started referenceHost 4096 start ∧ Run referenceHost Vm.ReturnsToItself start vm ∧ vm.Belongs ∧
    step referenceHost vm = .ok ((), created) ∧
    Run referenceHost (fun vm => vm.ReturnsToItself ∧ ¬ vm.Collects) created reading ∧
    getVar 128 reading = .ok (9, reading) := by
  have ran : nestedStart.any fun start => (runWhere referenceHost Vm.ReturnsToItself 4 start).any fun vm =>
      (step referenceHost vm).toOption.any fun created =>
        (runWhere referenceHost (fun vm => vm.ReturnsToItself ∧ ¬ vm.Collects) 1 created.2).any fun reading =>
          vm.code vm.ip = OP_ANON_FN ∧
            (reading.frames reading.currentFrame).function = vm.heap.allocPtr + 1 ∧
            0 < (vm.code (vm.ip + 4)).toNat ∧ created.2.heap.upvalue (vm.heap.allocPtr + 1) 0 = 9 := by
    decide +kernel
  simp only [Option.any_eq_true, decide_eq_true_eq] at ran
  obtain ⟨start, launched, vm, run, ⟨_, created⟩, one, reading, later, opcode, closure, captured, value⟩ := ran
  have one := Except.toOption_eq_some.mp one
  have started := nestedStart_started launched
  obtain ⟨belongs, -, reads⟩ :=
    runningClosure_while_returnsToItself referenceHost_apart started (runWhere_run run)
  obtain ⟨read, -⟩ := reads created reading opcode one (runWhere_run later) closure 128 (by decide) captured
  refine ⟨start, vm, created, reading, started, runWhere_run run, belongs, one, runWhere_run later, ?_⟩
  rw [read, ← value]
  rfl

/-- In the same frame of `f`, after it has called `g`, the first upvalue is the `b` that `g` captured. -/
theorem runningClosure_reads_other : ∃ start called reading : Vm Tables,
    Started referenceHost 4096 start ∧ Run referenceHost (fun _ => True) start called ∧
    Run referenceHost (fun _ => True) called reading ∧ reading.currentFrame = called.currentFrame ∧
    (reading.frames reading.currentFrame).function = (called.frames called.currentFrame).function ∧
    ¬ reading.Belongs ∧ (getVar 128 called).toOption.map Prod.fst = some 9 ∧
    (getVar 128 reading).toOption.map Prod.fst = some 17 := by
  have ran : nestedStart.any fun start => (runWhere referenceHost (fun _ => True) 6 start).any fun called =>
      (runWhere referenceHost (fun _ => True) 4 called).any fun reading =>
        reading.currentFrame = called.currentFrame ∧
          (reading.frames reading.currentFrame).function = (called.frames called.currentFrame).function ∧
          reading.currentFunction ≠ (reading.frames reading.currentFrame).function ∧
          (getVar 128 called).toOption.map Prod.fst = some 9 ∧
          (getVar 128 reading).toOption.map Prod.fst = some 17 := by
    decide +kernel
  simp only [Option.any_eq_true, decide_eq_true_eq] at ran
  obtain ⟨start, launched, called, run, reading, later, sameFrame, sameFunction, other, before, after⟩ := ran
  exact ⟨start, called, reading, nestedStart_started launched, runWhere_run run, runWhere_run later,
    sameFrame, sameFunction, other, before, after⟩

end Owl.Runtime
