import Owl.Proofs.Runtime.Loading

/-! # Programs that leave the call stack alone

Calls and returns move between frames. Everything else, loading and collecting included, leaves the
current frame, the running function and the functions of all frames alone. Without a collection the
heap only grows.
-/

namespace Owl.Runtime

open StateExcept

variable {World : Type} {host : Host World}

/-- An address that the system allocator may hand out. -/
def Host.Allocates (host : Host World) (address : ℕ) : Prop := ∃ world, (host.malloc world).1 = address

/-- The records outside the heap are old ones, or new blocks of the system allocator. -/
def Host.Extends (host : Host World) (vm vm' : Vm World) : Prop :=
  ∀ address, (vm'.statics address).isSome → (vm.statics address).isSome ∨ host.Allocates address

theorem Host.Extends.trans {first second third : Vm World} (left : host.Extends first second)
    (right : host.Extends second third) : host.Extends first third :=
  fun address held => (right address held).elim (left address) .inr

/-- The call stack is as before. -/
structure Quiet (host : Host World) (vm vm' : Vm World) : Prop where
  currentFrame : vm'.currentFrame = vm.currentFrame
  currentFunction : vm'.currentFunction = vm.currentFunction
  function : ∀ i, (vm'.frames i).function = (vm.frames i).function
  statics : host.Extends vm vm'

instance : Std.Refl (Quiet host) := ⟨fun _ => ⟨rfl, rfl, fun _ => rfl, fun _ => .inl⟩⟩

instance : IsTrans (Vm World) (Quiet host) := ⟨fun _ _ _ first second =>
  ⟨second.currentFrame.trans first.currentFrame, second.currentFunction.trans first.currentFunction,
    fun i => (second.function i).trans (first.function i), first.statics.trans second.statics⟩⟩

theorem Quiet.refl (vm : Vm World) : Quiet host vm vm := Std.Refl.refl vm

/-- A change of registers in one frame. -/
theorem Quiet.setFrame (vm : Vm World) (i : ℕ) (frame : Frame)
    (function : frame.function = (vm.frames i).function) : Quiet host vm (vm.setFrame i frame) where
  currentFrame := rfl
  currentFunction := rfl
  statics _ := .inl
  function j := by
    by_cases same : j = i
    · simp [Vm.setFrame, same, function]
    · simp [Vm.setFrame, same]

/-- The call stack is as before, and the heap has only grown. -/
structure Calm (host : Host World) (vm vm' : Vm World) : Prop extends Quiet host vm vm' where
  grows : vm.heap.Grows vm'.heap

instance : Std.Refl (Calm host) := ⟨fun vm => ⟨.refl vm, .refl vm.heap⟩⟩

instance : IsTrans (Vm World) (Calm host) := ⟨fun _ _ _ first second =>
  ⟨IsTrans.trans _ _ _ first.toQuiet second.toQuiet, first.grows.trans second.grows⟩⟩

theorem Calm.refl (vm : Vm World) : Calm host vm vm := Std.Refl.refl vm

/-- A step that leaves the heap alone. -/
theorem Calm.of_quiet {vm vm' : Vm World} (quiet : Quiet host vm vm') (same : vm'.heap = vm.heap) :
    Calm host vm vm' :=
  ⟨quiet, same ▸ .refl vm.heap⟩

theorem nextByte_calm : Preserves (Calm host) (nextByte : Exec World UInt8) := by
  intro vm _ vm' run
  cases run
  exact .of_quiet ⟨rfl, rfl, fun _ => rfl, fun _ => .inl⟩ rfl

theorem advance_calm (n : ℕ) : Preserves (Calm host) (advance n : Exec World Unit) :=
  .modify fun _ => .of_quiet ⟨rfl, rfl, fun _ => rfl, fun _ => .inl⟩ rfl

theorem getVar_calm (reg : UInt8) : Preserves (Calm host) (getVar reg : Exec World Term) := by
  intro vm _ vm' run
  rw [getVar_state run]
  exact .refl vm

theorem setReg_calm (reg : UInt8) (term : Term) :
    Preserves (Calm host) (setReg reg term : Exec World Unit) := by
  intro vm _ vm' run
  rw [setReg_run] at run
  split at run
  · contradiction
  · cases run
    exact .of_quiet (.setFrame _ _ _ rfl) rfl

theorem nextInt_calm : Preserves (Calm host) (nextInt : Exec World Term) :=
  .bind nextByte_calm fun _ => .bind nextByte_calm fun _ => .pure _

theorem nameOf_calm (function : ℕ) : Preserves (Calm host) (nameOf function : Exec World ℕ) := by
  intro vm _ vm' run
  rw [nameOf_run] at run
  cases run
  exact .refl vm

theorem onHeap_ok {α : Type} {run : Heap → Except Stop (α × Heap)} {vm vm' : Vm World} {result : α}
    (done : onHeap run vm = .ok (result, vm')) :
    ∃ heap, run vm.heap = .ok (result, heap) ∧ vm' = { vm with heap } := by
  rw [onHeap, get_bind] at done
  obtain ⟨⟨_, heap⟩, _, lifted, finish⟩ := bind_eq_ok.mp done
  obtain ⟨success, rfl⟩ := lift_eq_ok.mp lifted
  cases finish
  exact ⟨heap, success, rfl⟩

private theorem onHeap_quiet {α : Type} (run : Heap → Except Stop (α × Heap)) :
    Preserves (Quiet host) (onHeap run : Exec World α) := by
  intro vm _ vm' done
  obtain ⟨heap, -, rfl⟩ := onHeap_ok done
  exact ⟨rfl, rfl, fun _ => rfl, fun _ => .inl⟩

theorem call_calm (routine : Routine World) (args : List Term) :
    Preserves (Calm host) (call routine args : Exec World Term) := by
  intro vm result vm' done
  obtain ⟨reply, heap, -, allocated, -, rfl⟩ := call_eq_ok.mp done
  exact ⟨⟨rfl, rfl, fun _ => rfl, fun _ => .inl⟩, allocBlocks_grows allocated⟩

theorem forFrom_quiet {action : ℕ → Exec World Unit} (each : ∀ i, Preserves (Quiet host) (action i)) :
    ∀ n start, Preserves (Quiet host) (forFrom action start n)
  | 0, _ => .pure ()
  | n + 1, start => .bind (each start) fun _ => forFrom_quiet each n (start + 1)

private theorem copyRegister_quiet (host : Host World) (i j : ℕ) : Preserves (Quiet host) (copyRegister host i j) := by
  refine .get_bind fun vm _ vm' done => ?_
  split at done
  · have quiet : Preserves (Quiet host) (do
        let copied ← onHeap fun heap => heap.copy host.emptyRrb host.stack ((vm.frames i).registers j)
        modify fun vm => vm.setFrame i ((vm.frames i).setRegister j copied) : Exec World PUnit) :=
      .bind (onHeap_quiet _) fun _ => .modify fun vm => .setFrame vm i _ rfl
    exact quiet vm _ vm' done
  · cases done
    exact .refl vm

theorem gcCollect_quiet (host : Host World) : Preserves (Quiet host) (gcCollect host) := by
  refine .bind (.modify fun _ => ⟨rfl, rfl, fun _ => rfl, fun _ => .inl⟩) fun _ => .get_bind fun vm _ vm' done => ?_
  exact forFrom_quiet (fun i => forFrom_quiet (copyRegister_quiet host i) _ _) _ _ vm _ vm' done

/-- The safepoint of a call collects. -/
def Vm.SafepointCollects (vm : Vm World) : Prop :=
  vm.heap.toSpace + vm.heap.size / 2 < vm.heap.allocPtr + vm.heap.size / 2 / 10

instance (vm : Vm World) : Decidable vm.SafepointCollects := inferInstanceAs (Decidable (_ < _))

theorem gcSafepoint_run (host : Host World) (vm : Vm World) :
    gcSafepoint host vm = if vm.SafepointCollects then gcCollect host vm else .ok ((), vm) := by
  by_cases collects : vm.SafepointCollects
  · rw [if_pos collects, gcSafepoint, get_bind]
    exact congrFun (if_pos collects) vm
  · rw [if_neg collects, gcSafepoint, get_bind]
    exact congrFun (if_neg collects) vm

theorem gcSafepoint_quiet (host : Host World) : Preserves (Quiet host) (gcSafepoint host) := by
  intro vm _ vm' done
  rw [gcSafepoint_run] at done
  split at done
  · exact gcCollect_quiet host vm _ vm' done
  · cases done
    exact .refl vm

private theorem loadKeeps_calm (host : Host World) : LoadKeeps host (Calm host) where
  code _ _ _ := .of_quiet ⟨rfl, rfl, fun _ => rfl, fun _ => .inl⟩ rfl
  world _ _ := .of_quiet ⟨rfl, rfl, fun _ => rfl, fun _ => .inl⟩ rfl
  record vm record := by
    refine .of_quiet ⟨rfl, rfl, fun _ => rfl, fun address held => ?_⟩ rfl
    by_cases same : address = (host.malloc vm.world).1
    · exact .inr ⟨vm.world, same.symm⟩
    · exact .inl (by simpa [same] using held)
  push := call_calm _
  entry _ _ := .of_quiet ⟨rfl, rfl, fun _ => rfl, fun _ => .inl⟩ rfl

theorem loadModule_calm (host : Host World) (bytecode : Bytes) :
    Preserves (Calm host) (loadModule host bytecode) :=
  loadModule_keeps (loadKeeps_calm host) bytecode

theorem loadFunction_calm (host : Host World) (functionId : UInt8) :
    Preserves (Calm host) (loadFunction host functionId) :=
  loadFunction_keeps (loadModule_calm host) functionId

end Owl.Runtime
