import Owl.Proofs.Runtime.Collection

/-! # What the handlers do to the call stack

Only calls enter a frame and only returns leave one; only a collection moves objects. A closure is
created with its operands in its slots.
-/

namespace Owl.Runtime

open StateExcept

variable {World : Type} {host : Host World}

private theorem opStoreInt_calm : Preserves (Calm host) (opStoreInt : Exec World Unit) :=
  .bind nextByte_calm fun _ => .bind nextInt_calm fun _ => .bind (setReg_calm _ _) fun _ =>
    advance_calm 1

private theorem opPrint_calm (host : Host World) : Preserves (Calm host) (opPrint host) := by
  refine .bind nextByte_calm fun _ => .bind (getVar_calm _) fun term => .get_bind fun vm _ vm' done => ?_
  obtain ⟨world, _, lifted, finish⟩ := bind_eq_ok.mp done
  obtain ⟨-, rfl⟩ := lift_eq_ok.mp lifted
  cases finish
  exact .of_quiet ⟨rfl, rfl, fun _ => rfl, fun _ => .inl⟩ rfl

private theorem opTest_calm : Preserves (Calm host) (opTest : Exec World Unit) :=
  .bind nextByte_calm fun _ => .bind nextByte_calm fun _ => .bind (getVar_calm _) fun _ =>
    .ite (advance_calm _) (advance_calm 1)

theorem opBinary_calm (operation : Term → Term → Term) :
    Preserves (Calm host) (opBinary operation : Exec World Unit) :=
  .bind nextByte_calm fun _ => .bind nextByte_calm fun _ => .bind nextByte_calm fun _ =>
    .bind (getVar_calm _) fun _ => .bind (getVar_calm _) fun _ => .bind (setReg_calm _ _) fun _ =>
      advance_calm 1

private theorem opMov_calm : Preserves (Calm host) (opMov : Exec World Unit) :=
  .bind nextByte_calm fun _ => .bind nextByte_calm fun _ => .bind (getVar_calm _) fun _ =>
    .bind (setReg_calm _ _) fun _ => advance_calm 1

private theorem opJmp_calm : Preserves (Calm host) (opJmp : Exec World Unit) :=
  .bind nextByte_calm fun _ => advance_calm _

private theorem pushElements_calm (host : Host World) :
    ∀ n list, Preserves (Calm host) (pushElements host n list)
  | 0, _ => .pure _
  | n + 1, _ => .bind nextByte_calm fun _ => .bind (getVar_calm _) fun _ =>
      .bind (call_calm _ _) fun _ => pushElements_calm host n _

private theorem opList_calm (host : Host World) : Preserves (Calm host) (opList host) :=
  .bind nextByte_calm fun _ => .bind nextByte_calm fun _ => .bind (pushElements_calm host _ _) fun _ =>
    .bind (setReg_calm _ _) fun _ => advance_calm 1

theorem tupleNth_state {tuple elem : Term} {index : UInt8} {vm vm' : Vm World}
    (done : tupleNth tuple index vm = .ok (elem, vm')) : vm' = vm := by
  rw [tupleNth, get_bind] at done
  split at done <;> exact (pure_eq_ok.mp done).2.symm

private theorem tupleNth_calm (tuple : Term) (index : UInt8) :
    Preserves (Calm host) (tupleNth tuple index : Exec World Term) := by
  intro vm _ vm' done
  rw [tupleNth_state done]
  exact .refl vm

private theorem opTupleNth_calm : Preserves (Calm host) (opTupleNth : Exec World Unit) :=
  .bind nextByte_calm fun _ => .bind nextByte_calm fun _ => .bind nextByte_calm fun _ =>
    .bind (getVar_calm _) fun _ => .bind (getVar_calm _) fun _ => .bind (tupleNth_calm _ _) fun _ =>
      .bind (setReg_calm _ _) fun _ => advance_calm 1

private theorem opCompare_calm (host : Host World) (answer : Bool → Bool) :
    Preserves (Calm host) (opCompare host answer) := by
  refine .bind nextByte_calm fun reg => .bind nextByte_calm fun _ => .bind nextByte_calm fun _ =>
    .bind (getVar_calm _) fun left => .bind (getVar_calm _) fun right =>
      .get_bind fun vm _ vm' done => ?_
  have rest : Preserves (Calm host) (do
      let equal ← liftM (host.termsEq vm.memory vm.world left right)
      setReg reg (ofBool (answer equal))
      advance 1 : Exec World Unit) :=
    .bind (.lift _) fun _ => .bind (setReg_calm _ _) fun _ => advance_calm 1
  exact rest vm _ vm' done

private theorem opNot_calm : Preserves (Calm host) (opNot : Exec World Unit) :=
  .bind nextByte_calm fun _ => .bind nextByte_calm fun _ => .bind (getVar_calm _) fun _ =>
    .bind (setReg_calm _ _) fun _ => advance_calm 1

theorem opStore_calm (term : Term) : Preserves (Calm host) (opStore term : Exec World Unit) :=
  .bind nextByte_calm fun _ => .bind (setReg_calm _ _) fun _ => advance_calm 1

private theorem opLoadString_calm (host : Host World) : Preserves (Calm host) (opLoadString host) := by
  refine .bind nextByte_calm fun reg => .bind nextByte_calm fun id => .get_bind fun vm _ vm' done => ?_
  have rest : Preserves (Calm host) (do
      setReg reg (tagAs (UInt64.ofNat (host.lookupId vm.world .internPool id.toNat)) .string)
      advance 1 : Exec World Unit) := .bind (setReg_calm _ _) fun _ => advance_calm 1
  exact rest vm _ vm' done

private theorem getVars_calm : ∀ n, Preserves (Calm host) (getVars n : Exec World (List Term))
  | 0 => .pure _
  | n + 1 => .bind nextByte_calm fun _ => .bind (getVar_calm _) fun _ => .bind (getVars_calm n) fun _ =>
      .pure _

theorem opRoutine_calm (routine : Routine World) (n : ℕ) :
    Preserves (Calm host) (opRoutine routine n : Exec World Unit) :=
  .bind nextByte_calm fun _ => .bind (getVars_calm n) fun _ => .bind (call_calm _ _) fun _ =>
    .bind (setReg_calm _ _) fun _ => advance_calm 1

private theorem opCapture_calm (host : Host World) : Preserves (Calm host) (opCapture host) :=
  .bind nextByte_calm fun _ => .bind nextByte_calm fun _ => .bind (loadFunction_calm host _) fun _ =>
    .bind (setReg_calm _ _) fun _ => advance_calm 1

private theorem opCodeLoad_calm (host : Host World) : Preserves (Calm host) (opCodeLoad host) := by
  refine .bind nextByte_calm fun reg => .bind nextByte_calm fun _ => .bind (getVar_calm _) fun filename =>
    .get_bind fun vm _ vm' done => ?_
  have rest : Preserves (Calm host) (do
      let compiled ← loadModule host (host.compileFile vm.world vm.heap filename)
      setReg reg compiled
      advance 1 : Exec World Unit) :=
    .bind (loadModule_calm host _) fun _ => .bind (setReg_calm _ _) fun _ => advance_calm 1
  exact rest vm _ vm' done

private theorem opFunctionName_calm : Preserves (Calm host) (opFunctionName : Exec World Unit) :=
  .bind nextByte_calm fun _ => .bind nextByte_calm fun _ => .bind (getVar_calm _) fun _ =>
    .bind (nameOf_calm _) fun _ => .bind (setReg_calm _ _) fun _ => advance_calm 1

/-- Words written into the blocks allocated since `start`. -/
private theorem storeElements_calm {start : Vm World} : ∀ (n address : ℕ) (vm vm' : Vm World) (done : Unit),
    storeElements address n vm = .ok (done, vm') → Calm host start vm →
    start.heap.allocPtr ≤ address → address + 8 * n ≤ vm.heap.allocPtr → Calm host start vm'
  | 0, _, vm, vm', _, run, calm, _, _ => by
      cases run
      exact calm
  | n + 1, address, vm, vm', done, run, calm, lower, upper => by
      obtain ⟨byte, vm₁, next, run⟩ := bind_eq_ok.mp run
      obtain ⟨elem, vm₂, read, run⟩ := bind_eq_ok.mp run
      rw [modify_bind] at run
      cases next
      cases getVar_state read
      refine storeElements_calm n (address + 8) _ vm' done run ⟨?_, ?_⟩ (by omega) ?_
      · exact ⟨calm.currentFrame, calm.currentFunction, calm.function, calm.statics⟩
      · exact calm.grows.writeTerm lower (by omega)
      · simp only [Heap.writeTerm]
        omega

private theorem opTuple_calm : Preserves (Calm host) (opTuple : Exec World Unit) := by
  refine .bind nextByte_calm fun reg => .bind nextByte_calm fun size vm _ vm' run => ?_
  obtain ⟨ary, vm₁, allocated, run⟩ := bind_eq_ok.mp run
  obtain ⟨heap, alloc, rfl⟩ := onHeap_ok allocated
  obtain ⟨rfl, next, -, grows, -⟩ := owlAlloc_ok alloc
  rw [modify_bind] at run
  obtain ⟨_, vm₂, stored, run⟩ := bind_eq_ok.mp run
  have small := size.toNat_lt
  rw [align_eq (by omega)] at next
  have start : Calm host vm { vm with heap := heap.writeTerm (vm.heap.allocPtr + 1) size.toUInt64 } :=
    ⟨⟨rfl, rfl, fun _ => rfl, fun _ => .inl⟩, grows.writeTerm (by omega) (by omega)⟩
  have filled := storeElements_calm _ _ _ _ _ (fillTuple_ok stored).2 start (by omega)
    (by simp only [Heap.writeTerm]; omega)
  have rest : Preserves (Calm host) (do
      setReg reg (tagAs (UInt64.ofNat (vm.heap.allocPtr + 1)) .tuple)
      advance 1 : Exec World Unit) := .bind (setReg_calm _ _) fun _ => advance_calm 1
  exact IsTrans.trans _ _ _ filled (rest _ _ _ run)

/-- The address of a slot moves with its index. -/
theorem upvalueAddress_eq (function i : ℕ) : upvalueAddress function i = function + 24 + 8 * i := rfl

/-- A slot that is not in free memory. -/
def Vm.OperandSettled (vm : Vm World) (reg : UInt8) : Prop :=
  reg < 128 ∨ upvalueAddress vm.currentFunction (reg - 128).toNat + 8 ≤ vm.heap.allocPtr ∨
    vm.heap.toSpace + vm.heap.size / 2 ≤ upvalueAddress vm.currentFunction (reg - 128).toNat

theorem Heap.Grows.upvalue {heap heap' : Heap} (grows : heap.Grows heap') {function i : ℕ}
    (outside : upvalueAddress function i + 8 ≤ heap.allocPtr ∨
      heap'.allocPtr ≤ upvalueAddress function i) :
    heap'.upvalue function i = heap.upvalue function i :=
  congrArg UInt64.ofNat (ByteMemory.readNat_congr fun j lower upper => grows.mem j (by omega))

/-- An operand reads the same after allocations, in a machine with the same frames. -/
private theorem getVar_settled {start vm : Vm World} {reg : UInt8} {term : Term} {vm' : Vm World}
    (settled : start.OperandSettled reg) (calm : Calm host start vm) (frames : vm.frames = start.frames)
    (room : vm.heap.allocPtr ≤ start.heap.toSpace + start.heap.size / 2)
    (read : getVar reg vm = .ok (term, vm')) :
    (reg < 128 → (start.frames start.currentFrame).registers reg.toNat = term) ∧
      (128 ≤ reg → start.heap.upvalue start.currentFunction (reg - 128).toNat = term) := by
  rw [getVar_run, upvalueOf_run] at read
  by_cases high : 128 ≤ reg
  · rw [if_pos high] at read
    refine ⟨fun low => absurd low (UInt8.not_lt.mpr high), fun _ => ?_⟩
    split at read
    · contradiction
    split at read
    · contradiction
    rw [← (Prod.mk.inj (Except.ok.inj read)).1, calm.currentFunction]
    have outside := settled.resolve_left (UInt8.not_lt.mpr high)
    exact (calm.grows.upvalue (by omega)).symm
  · rw [if_neg high] at read
    refine ⟨fun _ => ?_, fun above => absurd above high⟩
    split at read
    · contradiction
    · rw [← (Prod.mk.inj (Except.ok.inj read)).1, frames, calm.currentFrame]

/-- What an operand held, in the frame or in the running closure. -/
def Vm.operand (vm : Vm World) (reg : UInt8) : Term :=
  if 128 ≤ reg then vm.heap.upvalue vm.currentFunction (reg - 128).toNat
  else (vm.frames vm.currentFrame).registers reg.toNat

/-- Captured operands end up in the slots of the new closure, in order; what precedes the slots stays. -/
private theorem captureUpvalues_ok {start : Vm World} {function : ℕ} : ∀ (n i : ℕ) (vm vm' : Vm World)
    (done : Unit), captureUpvalues function i n vm = .ok (done, vm') → Calm host start vm →
    vm.frames = start.frames → vm.heap.allocPtr ≤ start.heap.toSpace + start.heap.size / 2 →
    start.heap.allocPtr ≤ function → upvalueAddress function (i + n) ≤ vm.heap.allocPtr →
    Calm host start vm' ∧ vm'.ip = vm.ip + n ∧ vm'.heap.allocPtr = vm.heap.allocPtr ∧
      (∀ a < upvalueAddress function i, vm'.heap.mem a = vm.heap.mem a) ∧
      ∀ j < n, start.OperandSettled (vm.code (vm.ip + 1 + j)) →
        vm'.heap.upvalue function (i + j) = start.operand (vm.code (vm.ip + 1 + j))
  | 0, _, vm, vm', _, run, calm, _, _, _, _ => by
      cases run
      exact ⟨calm, rfl, rfl, fun _ _ => rfl, fun j small => absurd small (Nat.not_lt_zero j)⟩
  | n + 1, i, vm, vm', done, run, calm, frames, room, lower, upper => by
      obtain ⟨byte, vm₁, next, run⟩ := bind_eq_ok.mp run
      obtain ⟨value, vm₂, read, run⟩ := bind_eq_ok.mp run
      rw [modify_bind] at run
      cases next
      have calm₁ : Calm host start { vm with ip := vm.ip + 1 } :=
        ⟨⟨calm.currentFrame, calm.currentFunction, calm.function, calm.statics⟩, calm.grows⟩
      have value_eq := fun settled => getVar_settled settled calm₁ frames room read
      cases getVar_state read
      rw [upvalueAddress_eq] at upper
      have calm₂ : Calm host start { vm with
          ip := vm.ip + 1, heap := vm.heap.setUpvalue function i value } :=
        ⟨⟨calm.currentFrame, calm.currentFunction, calm.function, calm.statics⟩,
          calm.grows.writeTerm (by rw [upvalueAddress_eq]; omega) (by rw [upvalueAddress_eq]; omega)⟩
      obtain ⟨filled, ip, allocPtr, kept, slots⟩ := captureUpvalues_ok n (i + 1) _ vm' done run calm₂
        frames room lower (by rw [upvalueAddress_eq]; simp only [Heap.setUpvalue, Heap.writeTerm]; omega)
      have here : vm'.heap.upvalue function i = value := by
        rw [Heap.upvalue, Heap.readTerm, ByteMemory.readNat_congr fun a _ below => kept a
          (by rw [upvalueAddress_eq] at below ⊢; omega)]
        simp only [Heap.setUpvalue, Heap.writeTerm, ByteMemory.readNat_writeNat]
        rw [Nat.mod_eq_of_lt (by simpa using value.toNat_lt), UInt64.ofNat_toNat]
      refine ⟨filled, by rw [ip]; dsimp only; omega, allocPtr, fun a below => ?_, fun j small settled => ?_⟩
      · rw [upvalueAddress_eq] at below
        rw [kept a (by rw [upvalueAddress_eq]; omega)]
        exact ByteMemory.writeBytes_outside (.inl (by rw [upvalueAddress_eq]; omega))
      · rcases j with _ | j
        · obtain ⟨register, captured⟩ := value_eq settled
          rw [Nat.add_zero, here, Vm.operand]
          split
          · next high => exact (captured high).symm
          · next low => exact (register (UInt8.not_le.mp low)).symm
        · have := slots j (by omega)
          rw [show vm.ip + 1 + 1 + j = vm.ip + 1 + (j + 1) by omega] at this
          rw [show i + (j + 1) = i + 1 + j by omega]
          exact this settled

theorem anonFunctionInit_ok {heap heap' : Heap} {name location function : ℕ} {nUpvalues : UInt8}
    (allocated : heap.anonFunctionInit name location nUpvalues = .ok (function, heap')) :
    function = heap.allocPtr + 1 ∧ heap.Grows heap' ∧
      upvalueAddress function nUpvalues.toNat ≤ heap'.allocPtr ∧
      heap'.allocPtr ≤ heap.toSpace + heap.size / 2 ∧
      heap'.mem.readNat function 8 = location % 2 ^ 64 ∧ heap'.nUpvalues function = nUpvalues.toNat := by
  simp only [Heap.anonFunctionInit, Except.bind_eq_ok, Prod.exists, Except.pure_eq_ok,
    Prod.mk.injEq] at allocated
  obtain ⟨object, middle, alloc, rfl, rfl⟩ := allocated
  obtain ⟨rfl, next, room, grows, -⟩ := owlAlloc_ok alloc
  have small := nUpvalues.toNat_lt
  have sized : sizeofFunction = 24 := rfl
  rw [align_eq (by omega)] at next
  refine ⟨rfl, ?_, ?_, room, ?_, ?_⟩
  · have location := grows.write (heap.allocPtr + 1) (littleEndian 8 location) (by omega)
      (by simp only [littleEndian_length]; omega)
    have name := location.write (heap.allocPtr + 1 + 8) (littleEndian 8 name) (by omega)
      (by simp only [littleEndian_length]; omega)
    exact name.write (heap.allocPtr + 1 + 16) [nUpvalues] (by omega)
      (by simp only [List.length_singleton]; omega)
  · rw [upvalueAddress_eq]
    dsimp only
    omega
  · dsimp only
    rw [ByteMemory.readNat_congr (ByteMemory.writeBytes_agreeOn (by simp)),
      ByteMemory.readNat_writeNat_apart (by omega), ByteMemory.readNat_writeNat]
    norm_num
  · simp [Heap.nUpvalues, ByteMemory.writeBytes_singleton]

/-- A new closure is the object at the allocation pointer; it holds the operands of the instruction. -/
theorem opAnonFn_ok {host : Host World} {vm vm' : Vm World} {done : Unit}
    (run : opAnonFn host vm = .ok (done, vm')) :
    Calm host vm vm' ∧ upvalueAddress (vm.heap.allocPtr + 1) (vm.code (vm.ip + 4)).toNat ≤ vm'.heap.allocPtr ∧
      vm'.heap.allocPtr ≤ vm.heap.toSpace + vm.heap.size / 2 ∧
      vm'.heap.nUpvalues (vm.heap.allocPtr + 1) = (vm.code (vm.ip + 4)).toNat ∧
      ∀ i < (vm.code (vm.ip + 4)).toNat, vm.OperandSettled (vm.code (vm.ip + 5 + i)) →
        vm'.heap.upvalue (vm.heap.allocPtr + 1) i = vm.operand (vm.code (vm.ip + 5 + i)) := by
  obtain ⟨retReg, _, next₁, run⟩ := bind_eq_ok.mp run
  obtain ⟨jmp, _, next₂, run⟩ := bind_eq_ok.mp run
  obtain ⟨_, _, next₃, run⟩ := bind_eq_ok.mp run
  obtain ⟨nUpvals, _, next₄, run⟩ := bind_eq_ok.mp run
  cases next₁
  cases next₂
  cases next₃
  cases next₄
  rw [get_bind] at run
  obtain ⟨function, _, initialised, run⟩ := bind_eq_ok.mp run
  obtain ⟨heap, allocated, rfl⟩ := onHeap_ok initialised
  obtain ⟨rfl, grows, inside, room, -, count⟩ := anonFunctionInit_ok allocated
  obtain ⟨_, vm₁, captured, run⟩ := bind_eq_ok.mp run
  have start : Calm host vm { vm with ip := vm.ip + 1 + 1 + 1 + 1, heap } :=
    ⟨⟨rfl, rfl, fun _ => rfl, fun _ => .inl⟩, grows⟩
  obtain ⟨filled, -, allocPtr, kept, slots⟩ := captureUpvalues_ok _ _ _ _ _ captured start rfl room
    (Nat.le_succ _) (by simpa using inside)
  obtain ⟨_, vm₂, stored, moved⟩ := bind_eq_ok.mp run
  have calm : Calm host _ _ := setReg_calm _ _ _ _ _ stored
  have heap₂ : vm'.heap = vm₁.heap := by
    rw [setReg_run] at stored
    split at stored
    · contradiction
    · cases stored
      cases moved
      rfl
  refine ⟨IsTrans.trans _ _ _ filled (IsTrans.trans _ _ _ calm (advance_calm _ _ _ _ moved)),
    ?_, ?_, ?_, ?_⟩
  · rw [heap₂, allocPtr]
    exact inside
  · rw [heap₂, allocPtr]
    exact room
  · rw [heap₂, Heap.nUpvalues, kept _ (Nat.lt_of_lt_of_le (Nat.add_lt_add_left (by decide) _) (Nat.le_add_right _ _))]
    exact count
  · intro i small settled
    have := slots i small
    rw [heap₂]
    simpa [Nat.add_assoc, Nat.add_comm, Nat.add_left_comm] using this
      (by simpa [Nat.add_assoc, Nat.add_comm, Nat.add_left_comm] using settled)

/-- Arguments go into registers of the next frame. -/
theorem passArguments_effect (nextFrame : ℕ) : ∀ (n i : ℕ) (vm vm' : Vm World) (done : Unit),
    passArguments nextFrame i n vm = .ok (done, vm') → ∃ registers, vm' = { vm with
      ip := vm.ip + n
      frames := Function.update vm.frames nextFrame { vm.frames nextFrame with registers } }
  | 0, i, vm, vm', done, run => by
      cases run
      exact ⟨(vm.frames nextFrame).registers, by rw [Function.update_eq_self]; rfl⟩
  | n + 1, i, vm, vm', done, run => by
      obtain ⟨byte, vm₁, next, run⟩ := bind_eq_ok.mp run
      obtain ⟨arg, vm₂, read, run⟩ := bind_eq_ok.mp run
      cases next
      cases getVar_state read
      split at run
      · cases run
      · rw [modify_bind] at run
        obtain ⟨registers, rfl⟩ := passArguments_effect nextFrame n (i + 1) _ vm' done run
        refine ⟨registers, ?_⟩
        simp only [Vm.setFrame, Frame.setRegister, Function.update_self, Function.update_idem, Nat.add_assoc,
          Nat.add_comm 1 n]

/-- What a call does once its function is known. -/
theorem enter_effect {vm vm' : Vm World} {function : ℕ} {arity retReg : UInt8} {done : Unit}
    (run : (do
      modify fun vm => { vm with currentFunction := function }
      setupNextStackframe function arity retReg
      let location ← locationOf function
      modify fun vm => { vm with ip := location } : Exec World Unit) vm = .ok (done, vm')) :
    ∃ registers location, vm' = { vm with
      ip := location
      currentFunction := function
      currentFrame := vm.currentFrame + 1
      frames := Function.update vm.frames (vm.currentFrame + 1)
        { retAddress := vm.ip + arity.toNat + 1, retRegister := retReg.toNat, function, registers } } := by
  rw [modify_bind] at run
  obtain ⟨_, vm₁, entered, run⟩ := bind_eq_ok.mp run
  obtain ⟨location, vm₂, located, finish⟩ := bind_eq_ok.mp run
  rw [locationOf_run] at located
  cases located
  cases finish
  rw [setupNextStackframe, get_bind] at entered
  split at entered
  · cases entered
  · obtain ⟨_, vm₃, passed, finish⟩ := bind_eq_ok.mp entered
    obtain ⟨registers, rfl⟩ := passArguments_effect _ _ _ _ _ _ passed
    cases finish
    exact ⟨registers, _, by simp only [Vm.setFrame, Function.update_self, Function.update_idem]; rfl⟩

/-- A frame has been entered for a function that now runs. -/
structure Entered (host : Host World) (vm vm' : Vm World) : Prop where
  currentFrame : vm'.currentFrame = vm.currentFrame + 1
  running : (vm'.frames vm'.currentFrame).function = vm'.currentFunction
  function : ∀ i, i ≠ vm.currentFrame + 1 → (vm'.frames i).function = (vm.frames i).function
  statics : host.Extends vm vm'

private theorem enter_ok {vm vm' : Vm World} {function : ℕ} {arity retReg : UInt8} {done : Unit}
    (run : (do
      modify fun vm => { vm with currentFunction := function }
      setupNextStackframe function arity retReg
      let location ← locationOf function
      modify fun vm => { vm with ip := location } : Exec World Unit) vm = .ok (done, vm')) :
    Entered host vm vm' ∧ vm.heap.Grows vm'.heap := by
  obtain ⟨registers, location, rfl⟩ := enter_effect run
  refine ⟨⟨rfl, ?_, fun i other => ?_, fun _ => .inl⟩, .refl vm.heap⟩
  · dsimp only
    rw [Function.update_self]
  · dsimp only
    rw [Function.update_of_ne other]

theorem Entered.of_quiet {vm vm₁ vm' : Vm World} (quiet : Quiet host vm vm₁) (entered : Entered host vm₁ vm') :
    Entered host vm vm' where
  currentFrame := by rw [entered.currentFrame, quiet.currentFrame]
  running := entered.running
  function i other := by rw [entered.function i (by rwa [quiet.currentFrame]), quiet.function]
  statics := quiet.statics.trans entered.statics

theorem opCall_ok {host : Host World} {vm vm' : Vm World} {done : Unit}
    (run : opCall host vm = .ok (done, vm')) :
    Entered host vm vm' ∧ vm.heap.Stays vm'.heap ∧ (¬ vm.SafepointCollects → vm.heap.Grows vm'.heap) := by
  obtain ⟨retReg, _, next₁, run⟩ := bind_eq_ok.mp run
  obtain ⟨functionId, _, next₂, run⟩ := bind_eq_ok.mp run
  obtain ⟨arity, _, next₃, run⟩ := bind_eq_ok.mp run
  cases next₁
  cases next₂
  cases next₃
  obtain ⟨_, vm₁, safe, run⟩ := bind_eq_ok.mp run
  obtain ⟨function, vm₂, loaded, run⟩ := bind_eq_ok.mp run
  have moved : Quiet host vm { vm with ip := vm.ip + 1 + 1 + 1 } := ⟨rfl, rfl, fun _ => rfl, fun _ => .inl⟩
  have safepoint := gcSafepoint_quiet host _ _ _ safe
  have calm := loadFunction_calm host _ _ _ _ loaded
  obtain ⟨entered, grows⟩ := enter_ok run
  refine ⟨.of_quiet (IsTrans.trans _ _ _ (IsTrans.trans _ _ _ moved safepoint) calm.toQuiet) entered,
    ((gcSafepoint_stays host _ _ _ safe).trans calm.grows.stays).trans grows.stays, fun idle => ?_⟩
  rw [gcSafepoint_run] at safe
  split at safe
  · next collects => exact absurd collects idle
  · cases safe
    exact calm.grows.trans grows

theorem opCallLocal_ok (host : Host World) {vm vm' : Vm World} {done : Unit}
    (run : opCallLocal vm = .ok (done, vm')) : Entered host vm vm' ∧ vm.heap.Grows vm'.heap := by
  obtain ⟨retReg, _, next₁, run⟩ := bind_eq_ok.mp run
  obtain ⟨functionReg, _, next₂, run⟩ := bind_eq_ok.mp run
  obtain ⟨function, vm₁, read, run⟩ := bind_eq_ok.mp run
  obtain ⟨arity, _, next₃, run⟩ := bind_eq_ok.mp run
  cases next₁
  cases next₂
  cases getVar_state read
  cases next₃
  have moved : Quiet host vm { vm with ip := vm.ip + 1 + 1 + 1 } := ⟨rfl, rfl, fun _ => rfl, fun _ => .inl⟩
  split at run
  · cases run
  · obtain ⟨entered, grows⟩ := enter_ok run
    exact ⟨entered.of_quiet moved, grows⟩

/-- A frame has been left; nothing restores the running function. -/
structure Left (host : Host World) (vm vm' : Vm World) : Prop where
  currentFrame : vm'.currentFrame + 1 = vm.currentFrame
  currentFunction : vm'.currentFunction = vm.currentFunction
  function : ∀ i, (vm'.frames i).function = (vm.frames i).function
  statics : host.Extends vm vm'

theorem opReturn_ok (host : Host World) {vm vm' : Vm World} {done : Unit} (run : opReturn vm = .ok (done, vm')) :
    Left host vm vm' ∧ vm'.heap = vm.heap := by
  rw [opReturn, get_bind] at run
  split at run
  · cases run
  · next inside =>
    cases run
    have called : vm.currentFrame ≠ 0 := fun none => by simp [none] at inside
    refine ⟨⟨?_, rfl, fun i => ?_, fun _ => .inl⟩, rfl⟩
    · simp only [Vm.setFrame]
      omega
    · simp only [Vm.setFrame, Frame.setRegister, Function.update_apply]
      grind

theorem step_run (host : Host World) (vm : Vm World) :
    step host vm = if vm.code vm.ip = 255 then .error .outOfBounds
      else ((handlers host).lookup (vm.code vm.ip)).getD opUnknown vm := by
  simp only [step, get_bind]
  split <;> rfl

theorem step_handler {host : Host World} {vm vm' : Vm World} {done : Unit}
    (run : step host vm = .ok (done, vm')) :
    ∃ handler, (vm.code vm.ip, handler) ∈ handlers host ∧ handler vm = .ok (done, vm') := by
  rw [step_run] at run
  split at run
  · cases run
  · cases found : (handlers host).lookup (vm.code vm.ip) with
    | none =>
      rw [found] at run
      cases run
    | some handler =>
      rw [found] at run
      obtain ⟨before, after, split, -⟩ := List.lookup_eq_some_iff.mp found
      exact ⟨handler, by rw [split]; simp, run⟩

/-- The handlers that enter or leave a frame, or may collect. -/
def Special (opcode : UInt8) : Prop := opcode ∈ [OP_CALL, OP_RETURN, OP_CALL_LOCAL, OP_GC_COLLECT]

instance (opcode : UInt8) : Decidable (Special opcode) := inferInstanceAs (Decidable (_ ∈ _))

private theorem opExit_calm : Preserves (Calm host) (opExit : Exec World Unit) := .bind nextByte_calm fun _ => .throw _

theorem handlers_calm (host : Host World) :
    ∀ entry ∈ handlers host, ¬ Special entry.1 → Preserves (Calm host) entry.2 := by
  simp only [handlers, List.forall_mem_cons, List.not_mem_nil, false_imp_iff, implies_true, and_true]
  exact ⟨fun _ => opExit_calm, fun _ => opStoreInt_calm, fun _ => opPrint_calm host,
    fun _ => opBinary_calm _, fun _ => opBinary_calm _, fun plain => absurd (by decide) plain,
    fun plain => absurd (by decide) plain, fun _ => opMov_calm, fun _ => opJmp_calm,
    fun _ => opTuple_calm, fun _ => opTupleNth_calm, fun _ => opList_calm host, fun _ => opStore_calm _,
    fun _ => opStore_calm _, fun _ => opTest_calm, fun _ => opCompare_calm host _,
    fun _ => opCompare_calm host _, fun _ => opNot_calm, fun _ => opStore_calm _,
    fun _ => opBinary_calm _, fun _ => opLoadString_calm host, fun _ => opRoutine_calm _ _,
    fun _ => opRoutine_calm _ _, fun _ => opRoutine_calm _ _, fun _ => opCapture_calm host,
    fun plain => absurd (by decide) plain, fun _ => opRoutine_calm _ _, fun _ => opRoutine_calm _ _,
    fun _ => opRoutine_calm _ _, fun _ => opRoutine_calm _ _, fun _ => opCodeLoad_calm host,
    fun _ => opFunctionName_calm, fun _ => opRoutine_calm _ _, fun _ => opRoutine_calm _ _,
    fun _ => opRoutine_calm _ _, fun _ _ _ _ run => (opAnonFn_ok run).1,
    fun plain => absurd (by decide) plain⟩

theorem opGcCollect_stays (host : Host World) :
    Preserves (fun vm vm' => vm.heap.Stays vm'.heap) (opGcCollect host) := by
  refine .bind (nextByte_calm.mono fun _ _ (calm : Calm host _ _) => calm.grows.stays) fun reg =>
    .get_bind fun vm _ vm' done => ?_
  obtain ⟨_, vm₁, collected, rest⟩ := bind_eq_ok.mp done
  rw [get_bind] at rest
  obtain ⟨_, vm₂, stored, moved⟩ := bind_eq_ok.mp rest
  have calm : Calm host vm₁ vm' :=
    IsTrans.trans _ _ _ (setReg_calm _ _ _ _ _ stored) (advance_calm _ _ _ _ moved)
  exact (gcCollect_stays host _ _ _ collected).trans calm.grows.stays

theorem opGcCollect_quiet (host : Host World) : Preserves (Quiet host) (opGcCollect host) := by
  refine .bind (nextByte_calm.mono fun _ _ => Calm.toQuiet) fun reg => .get_bind fun vm _ vm' done => ?_
  obtain ⟨_, vm₁, collected, rest⟩ := bind_eq_ok.mp done
  rw [get_bind] at rest
  obtain ⟨_, vm₂, stored, moved⟩ := bind_eq_ok.mp rest
  exact IsTrans.trans _ _ _ (gcCollect_quiet host _ _ _ collected) <| IsTrans.trans _ _ _
    (setReg_calm _ _ _ _ _ stored).toQuiet (advance_calm _ _ _ _ moved).toQuiet

/-- The handler of an opcode is the one in the table. -/
theorem handlers_unique (host : Host World) {opcode : UInt8} {first second : Exec World Unit}
    (left : (opcode, first) ∈ handlers host) (right : (opcode, second) ∈ handlers host) :
    first = second := by
  have distinct : ((handlers host).map Prod.fst).Nodup := by
    simp only [handlers, List.map_cons, List.map_nil]
    decide
  exact congrArg Prod.snd (List.inj_on_of_nodup_map distinct left right rfl)

end Owl.Runtime
