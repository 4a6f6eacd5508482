import Owl.Model.Runtime.Opcodes
import Owl.ToMathlib.StateExcept
import Owl.ToMathlib.Except

/-! # Runs of the accessors, and allocation

What the accessors of the machine compute, and how an allocation changes the heap: it takes the next
block of the current semispace and leaves every other byte alone.
-/

namespace Owl.Runtime

open StateExcept

variable {World : Type}

theorem advance_run (n : ℕ) (vm : Vm World) :
    advance n vm = .ok ((), { vm with ip := vm.ip + n }) := rfl

/-- A tuple is filled only where its loop ends. -/
theorem fillTuple_ok {ary : ℕ} {size : UInt8} {vm vm' : Vm World} {done : Unit}
    (run : fillTuple ary size vm = .ok (done, vm')) :
    size ≠ 255 ∧ storeElements (ary + 8) size.toNat vm = .ok (done, vm') := by
  rw [fillTuple] at run
  split at run
  · contradiction
  · exact ⟨‹_›, run⟩

theorem setReg_run (reg : UInt8) (term : Term) (vm : Vm World) :
    setReg reg term vm = if REGISTER_COUNT ≤ reg.toNat then .error .outOfBounds
      else .ok ((), vm.setFrame vm.currentFrame
        ((vm.frames vm.currentFrame).setRegister reg.toNat term)) := by
  simp only [setReg, get_bind]
  split <;> rfl

theorem upvalueOf_run (function index : ℕ) (vm : Vm World) :
    upvalueOf function index vm = if function = 0 || (vm.statics function).isSome then .error .outOfBounds
      else if vm.heap.nUpvalues function ≤ index then .error .outOfBounds
      else .ok (vm.heap.upvalue function index, vm) := by
  simp only [upvalueOf, get_bind]
  split
  · rfl
  · split <;> rfl

theorem getVar_run (reg : UInt8) (vm : Vm World) :
    getVar reg vm = if 128 ≤ reg then upvalueOf vm.currentFunction (reg - 128).toNat vm
      else if REGISTER_COUNT ≤ reg.toNat then .error .outOfBounds
      else .ok ((vm.frames vm.currentFrame).registers reg.toNat, vm) := by
  simp only [getVar, get_bind]
  split
  · rfl
  · split <;> rfl

/-- Reading an operand changes nothing. -/
theorem getVar_state {reg : UInt8} {vm vm' : Vm World} {term : Term}
    (read : getVar reg vm = .ok (term, vm')) : vm' = vm := by
  rw [getVar_run, upvalueOf_run] at read
  grind

theorem locationOf_run (function : ℕ) (vm : Vm World) :
    locationOf function vm = .ok (match vm.statics function with
      | some record => record.location
      | none => vm.heap.mem.readNat function 8, vm) := by
  simp only [locationOf, get_bind]
  cases vm.statics function <;> rfl

theorem nameOf_run (function : ℕ) (vm : Vm World) :
    nameOf function vm = .ok (match vm.statics function with
      | some record => record.name
      | none => vm.heap.mem.readNat (function + 8) 8, vm) := by
  simp only [nameOf, get_bind]
  cases vm.statics function <;> rfl

theorem call_eq_ok {routine : Routine World} {args : List Term} {vm vm' : Vm World} {result : Term} :
    call routine args vm = .ok (result, vm') ↔ ∃ reply heap, routine vm.memory vm.world args = .ok reply ∧
      vm.heap.allocBlocks reply.blocks = .ok heap ∧ reply.result = result ∧
      { vm with heap, world := reply.world } = vm' := by
  rw [call, get_bind, bind_eq_ok]
  constructor
  · rintro ⟨reply, _, lifted, rest⟩
    obtain ⟨ran, rfl⟩ := lift_eq_ok.mp lifted
    obtain ⟨heap, _, lifted, finish⟩ := bind_eq_ok.mp rest
    obtain ⟨allocated, rfl⟩ := lift_eq_ok.mp lifted
    exact ⟨reply, heap, ran, allocated, pure_eq_ok.mp finish⟩
  · rintro ⟨reply, heap, ran, allocated, rfl, rfl⟩
    exact ⟨reply, vm, lift_eq_ok.mpr ⟨ran, rfl⟩,
      bind_eq_ok.mpr ⟨heap, vm, lift_eq_ok.mpr ⟨allocated, rfl⟩, rfl⟩⟩

/-- Nothing is allocated beyond the current semispace, except for one byte: the collector does not count
the flag byte of a copy when it looks for room. -/
def Heap.Roomy (heap : Heap) : Prop := heap.allocPtr ≤ heap.toSpace + heap.size / 2 + 1

/-- Memory changes only in blocks that have been allocated meanwhile. -/
structure Heap.Grows (heap heap' : Heap) : Prop where
  toSpace : heap'.toSpace = heap.toSpace
  fromSpace : heap'.fromSpace = heap.fromSpace
  size : heap'.size = heap.size
  allocPtr : heap.allocPtr ≤ heap'.allocPtr
  roomy : heap.Roomy → heap'.Roomy
  mem : ∀ i, i < heap.allocPtr ∨ heap'.allocPtr ≤ i → heap'.mem i = heap.mem i

namespace Heap.Grows

variable {first second third : Heap}

theorem refl (heap : Heap) : heap.Grows heap := ⟨rfl, rfl, rfl, Nat.le_refl _, id, fun _ _ => rfl⟩

theorem trans (left : first.Grows second) (right : second.Grows third) : first.Grows third where
  toSpace := right.toSpace.trans left.toSpace
  fromSpace := right.fromSpace.trans left.fromSpace
  size := right.size.trans left.size
  allocPtr := left.allocPtr.trans right.allocPtr
  roomy := right.roomy ∘ left.roomy
  mem i outside := by
    have lower := left.allocPtr
    have upper := right.allocPtr
    exact (right.mem i (by omega)).trans (left.mem i (by omega))

/-- A write into the blocks allocated since the start. -/
theorem write (grown : first.Grows second) (address : ℕ) (bytes : Bytes)
    (lower : first.allocPtr ≤ address) (upper : address + bytes.length ≤ second.allocPtr) :
    first.Grows { second with mem := second.mem.writeBytes address bytes } where
  toSpace := grown.toSpace
  fromSpace := grown.fromSpace
  size := grown.size
  allocPtr := grown.allocPtr
  roomy := grown.roomy
  mem i outside := by
    have := grown.allocPtr
    dsimp only at outside ⊢
    rw [ByteMemory.writeBytes_outside (by omega)]
    exact grown.mem i (by omega)

theorem writeTerm (grown : first.Grows second) {address : ℕ} {term : Term}
    (lower : first.allocPtr ≤ address) (upper : address + 8 ≤ second.allocPtr) :
    first.Grows (second.writeTerm address term) :=
  grown.write _ _ lower (by simpa using upper)

end Heap.Grows

theorem align_eq {n : ℕ} (small : n < 2 ^ 31) : align n = (n + 7) / 8 * 8 := by
  simp only [align]
  rw [Nat.mod_eq_of_lt (show n < 2 ^ 32 by omega)]
  split <;> omega

theorem checkOverflow_ok {heap : Heap} {blockSize : ℕ} {done : Unit}
    (room : heap.checkOverflow blockSize = .ok done) :
    heap.allocPtr + blockSize ≤ heap.toSpace + heap.size / 2 := by
  unfold Heap.checkOverflow at room
  split at room
  · contradiction
  · omega

/-- An allocation takes the next block of the current semispace. -/
theorem owlAlloc_ok {heap heap' : Heap} {n object : ℕ}
    (allocated : heap.owlAlloc n = .ok (object, heap')) :
    object = heap.allocPtr + 1 ∧ heap'.allocPtr = heap.allocPtr + (align n + 1) ∧
      heap'.allocPtr ≤ heap.toSpace + heap.size / 2 ∧ heap.Grows heap' ∧
      ∀ i, heap.allocPtr ≤ i → i < heap'.allocPtr → heap'.mem i = 0 := by
  simp only [Heap.owlAlloc, Except.bind_eq_ok, Except.pure_eq_ok, Prod.mk.injEq] at allocated
  obtain ⟨_, room, rfl, rfl⟩ := allocated
  have within := checkOverflow_ok room
  refine ⟨rfl, rfl, within, ⟨rfl, rfl, rfl, Nat.le_add_right _ _, fun _ => Nat.le_succ_of_le within, ?_⟩, ?_⟩
  · intro i outside
    exact ByteMemory.writeBytes_outside (by simpa using outside)
  · intro i lower upper
    dsimp only at upper ⊢
    rw [ByteMemory.writeBytes_inside lower (by simpa using upper)]
    have inside : i - heap.allocPtr < align n + 1 := by omega
    simp [List.getD, inside]

/-- Blocks are only allocated while there is room. -/
theorem allocBlocks_room {blocks : List Bytes} {heap heap' : Heap} (allocated : heap.allocBlocks blocks = .ok heap')
    (room : heap.allocPtr ≤ heap.toSpace + heap.size / 2) : heap'.allocPtr ≤ heap.toSpace + heap.size / 2 := by
  induction blocks generalizing heap with
  | nil => cases allocated; exact room
  | cons block blocks ih =>
    simp only [Heap.allocBlocks, Except.bind_eq_ok, Prod.exists] at allocated
    obtain ⟨object, middle, one, rest⟩ := allocated
    obtain ⟨-, -, within, grown, -⟩ := owlAlloc_ok one
    split at rest
    · contradiction
    · have later := ih rest (by dsimp only; rw [grown.toSpace, grown.size]; exact within)
      dsimp only at later
      rwa [grown.toSpace, grown.size] at later

/-- The first of some blocks is in the heap when the others are allocated. -/
theorem allocBlocks_cons {block : Bytes} {blocks : List Bytes} {heap heap' : Heap}
    (allocated : heap.allocBlocks (block :: blocks) = .ok heap') :
    ∃ middle : Heap, middle.allocBlocks blocks = .ok heap' ∧ heap.Grows middle ∧
      middle.allocPtr = heap.allocPtr + (align block.length + 1) ∧ block.length ≤ align block.length ∧
      middle.mem heap.allocPtr = 0 ∧ middle.mem.readBytes (heap.allocPtr + 1) block.length = block := by
  simp only [Heap.allocBlocks, Except.bind_eq_ok, Prod.exists] at allocated
  obtain ⟨object, middle, one, rest⟩ := allocated
  obtain ⟨rfl, next, -, grown, zero⟩ := owlAlloc_ok one
  split at rest
  · contradiction
  · next fits =>
    refine ⟨_, rest, grown.write _ _ (Nat.le_succ _) (by omega), next, by omega, ?_,
      ByteMemory.readBytes_writeBytes _ _ _⟩
    dsimp only
    rw [ByteMemory.writeBytes_outside (.inl (Nat.lt_succ_self _))]
    exact zero _ (Nat.le_refl _) (by omega)

theorem allocBlocks_grows {blocks : List Bytes} {heap heap' : Heap}
    (allocated : heap.allocBlocks blocks = .ok heap') : heap.Grows heap' := by
  induction blocks generalizing heap with
  | nil => cases allocated; exact .refl _
  | cons block blocks ih =>
    simp only [Heap.allocBlocks, Except.bind_eq_ok, Prod.exists] at allocated
    obtain ⟨object, middle, one, rest⟩ := allocated
    obtain ⟨rfl, next, -, grown, -⟩ := owlAlloc_ok one
    split at rest
    · contradiction
    · exact (grown.write _ _ (by omega) (by omega)).trans (ih rest)

end Owl.Runtime
