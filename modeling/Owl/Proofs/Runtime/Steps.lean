import Owl.Proofs.Runtime.Handlers
import Owl.Model.Runtime.Run

/-! # One step of the machine

A step runs one handler. Only a collection moves objects; whatever a step does, the arena is divided as
before and function records outside the heap are blocks of the system allocator.
-/

namespace Owl.Runtime

open StateExcept

variable {World : Type} {host : Host World} {arena : ℕ}

/-- A step runs the handler that the table has for its opcode. -/
theorem step_runs {vm vm' : Vm World} {opcode : UInt8} {handler : Exec World Unit}
    (run : step host vm = .ok ((), vm')) (same : vm.code vm.ip = opcode)
    (member : (opcode, handler) ∈ handlers host) : handler vm = .ok ((), vm') := by
  obtain ⟨other, found, ran⟩ := step_handler run
  rw [same] at found
  rwa [handlers_unique host member found]

theorem step_cases {vm vm' : Vm World} (run : step host vm = .ok ((), vm')) :
    (vm.code vm.ip = OP_CALL ∧ opCall host vm = .ok ((), vm')) ∨
    (vm.code vm.ip = OP_RETURN ∧ opReturn vm = .ok ((), vm')) ∨
    (vm.code vm.ip = OP_CALL_LOCAL ∧ opCallLocal vm = .ok ((), vm')) ∨
    (vm.code vm.ip = OP_GC_COLLECT ∧ opGcCollect host vm = .ok ((), vm')) ∨
    (¬ Special (vm.code vm.ip) ∧ Calm host vm vm') := by
  by_cases special : Special (vm.code vm.ip)
  · simp only [Special, List.mem_cons, List.not_mem_nil, or_false] at special
    rcases special with opcode | opcode | opcode | opcode
    · exact .inl ⟨opcode, step_runs run opcode (by simp [handlers])⟩
    · exact .inr (.inl ⟨opcode, step_runs run opcode (by simp [handlers])⟩)
    · exact .inr (.inr (.inl ⟨opcode, step_runs run opcode (by simp [handlers])⟩))
    · exact .inr (.inr (.inr (.inl ⟨opcode, step_runs run opcode (by simp [handlers])⟩)))
  · obtain ⟨handler, member, ran⟩ := step_handler run
    exact .inr (.inr (.inr (.inr ⟨special, handlers_calm host _ member special _ _ _ ran⟩)))

/-- The next instruction collects. -/
def Vm.Collects (vm : Vm World) : Prop :=
  vm.code vm.ip = OP_GC_COLLECT ∨ vm.code vm.ip = OP_CALL ∧ vm.SafepointCollects

instance (vm : Vm World) : Decidable vm.Collects := inferInstanceAs (Decidable (_ ∨ _))

/-- Without a collection a step only adds to the heap. -/
private theorem step_grows {vm vm' : Vm World} (run : step host vm = .ok ((), vm')) (idle : ¬ vm.Collects) :
    vm.heap.Grows vm'.heap := by
  rcases step_cases run with ⟨opcode, ran⟩ | ⟨opcode, ran⟩ | ⟨opcode, ran⟩ | ⟨opcode, ran⟩ | ⟨plain, calm⟩
  · exact (opCall_ok ran).2.2 fun collects => idle (.inr ⟨opcode, collects⟩)
  · rw [(opReturn_ok host ran).2]
    exact .refl _
  · exact (opCallLocal_ok host ran).2
  · exact absurd (.inl opcode) idle
  · exact calm.grows

/-- The system allocator keeps away from the arena. -/
def Host.Apart (host : Host World) (arena : ℕ) : Prop :=
  ∀ world, (host.malloc world).1 < arena ∨ arena + 2 * 0xFFFF ≤ (host.malloc world).1


/-- The semispaces are the halves of the arena, and function records outside the heap are blocks of the
system allocator. -/
structure Vm.Placed (host : Host World) (arena : ℕ) (vm : Vm World) : Prop where
  size : vm.heap.size = 2 * 0xFFFF
  spaces : vm.heap.toSpace = arena ∧ vm.heap.fromSpace = arena + 0xFFFF ∨
    vm.heap.toSpace = arena + 0xFFFF ∧ vm.heap.fromSpace = arena
  allocPtr : vm.heap.toSpace ≤ vm.heap.allocPtr
  statics : ∀ address, (vm.statics address).isSome → host.Allocates address

theorem Vm.Placed.step {vm vm' : Vm World} (placed : vm.Placed host arena)
    (stays : vm.heap.Stays vm'.heap) (extends' : host.Extends vm vm') : vm'.Placed host arena where
  size := stays.size.trans placed.size
  spaces := by
    have := placed.spaces
    have := stays.spaces
    omega
  allocPtr := stays.allocPtr placed.allocPtr
  statics address held := (extends' address held).elim (placed.statics address) id

theorem Vm.new_placed (world : World) (mem : ByteMemory) : (Vm.new world mem arena).Placed host arena :=
  ⟨rfl, .inl ⟨rfl, rfl⟩, Nat.le_refl _, fun _ held => absurd held (by simp [Vm.new])⟩

theorem step_placed {vm vm' : Vm World} (run : step host vm = .ok ((), vm'))
    (placed : vm.Placed host arena) : vm'.Placed host arena := by
  rcases step_cases run with ⟨-, ran⟩ | ⟨-, ran⟩ | ⟨-, ran⟩ | ⟨-, ran⟩ | ⟨-, calm⟩
  · obtain ⟨entered, stays, -⟩ := opCall_ok ran
    exact placed.step stays entered.statics
  · obtain ⟨left, same⟩ := opReturn_ok host ran
    exact placed.step (same ▸ (Heap.Fills.refl _).stays) left.statics
  · obtain ⟨entered, grows⟩ := opCallLocal_ok host ran
    exact placed.step grows.stays entered.statics
  · exact placed.step (opGcCollect_stays host _ _ _ ran) (opGcCollect_quiet host _ _ _ ran).statics
  · exact placed.step calm.grows.stays calm.statics

theorem enterFunction_ok {functionName : Bytes} {vm vm' : Vm World}
    (run : enterFunction host functionName vm = .ok ((), vm')) :
    Quiet host vm vm' ∧ vm'.heap = vm.heap := by
  rw [enterFunction, get_bind] at run
  split at run
  · cases run
  · cases run
    exact ⟨⟨rfl, rfl, fun _ => rfl, fun _ => .inl⟩, rfl⟩

theorem Run.placed {condition : Vm World → Prop} {start vm : Vm World}
    (run : Run host condition start vm) (placed : start.Placed host arena) : vm.Placed host arena :=
  run.invariant placed fun _ _ _ one before => step_placed one before

theorem Run.grows {condition : Vm World → Prop} {start vm : Vm World} (run : Run host condition start vm)
    (idle : ∀ vm, condition vm → ¬ vm.Collects) : start.heap.Grows vm.heap := by
  induction run with
  | refl => exact .refl _
  | tail _ last ih => exact ih.trans (step_grows last.2 (idle _ last.1))

/-- No function record of the system allocator lies in the arena. -/
theorem Vm.Placed.statics_none {vm : Vm World} (placed : vm.Placed host arena) (apart : host.Apart arena)
    {address : ℕ} (lower : arena ≤ address) (upper : address < arena + 2 * 0xFFFF) :
    vm.statics address = none := by
  by_contra held
  obtain ⟨world, rfl⟩ := placed.statics address (Option.isSome_iff_ne_none.mpr held)
  have := apart world
  omega

end Owl.Runtime
