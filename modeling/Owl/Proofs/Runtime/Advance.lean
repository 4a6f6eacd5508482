import Owl.Proofs.Runtime.Handlers

/-! # How far a handler moves the instruction pointer

Every operand byte is read with `next_byte`, and an instruction that falls through ends with one more
increment. Nothing else moves the pointer, loading and collecting included.
-/

namespace Owl.Runtime

open StateExcept

variable {World : Type} {host : Host World}

/-- Every successful run moves the instruction pointer by `n` bytes. -/
def Advances {α : Type} (n : ℕ) (prog : Exec World α) : Prop :=
  ∀ vm a vm', prog vm = .ok (a, vm') → vm'.ip = vm.ip + n

namespace Advances

variable {α β : Type} {m n : ℕ}

theorem pure (a : α) : Advances 0 (Pure.pure a : Exec World α) := by
  intro vm _ vm' run
  cases run
  rfl

theorem bind {prog : Exec World α} {next : α → Exec World β} (first : Advances m prog)
    (second : ∀ a, Advances n (next a)) : Advances (m + n) (prog >>= next) := by
  intro vm b vm' run
  obtain ⟨a, middle, one, two⟩ := bind_eq_ok.mp run
  rw [second a middle b vm' two, first vm a middle one, Nat.add_assoc]

theorem get_bind {next : Vm World → Exec World β}
    (rest : ∀ vm b vm', next vm vm = .ok (b, vm') → vm'.ip = vm.ip + n) :
    Advances n ((get : Exec World (Vm World)) >>= next) :=
  fun vm b vm' run => rest vm b vm' run

theorem modify {f : Vm World → Vm World} (same : ∀ vm, (f vm).ip = vm.ip) :
    Advances 0 (MonadStateOf.modifyGet fun vm => (⟨⟩, f vm) : Exec World PUnit) := by
  intro vm _ vm' run
  cases run
  exact same vm

theorem lift (run : Except Stop α) : Advances 0 (liftM run : Exec World α) := by
  intro vm a vm' done
  obtain ⟨-, rfl⟩ := lift_eq_ok.mp done
  rfl

end Advances

/-- The instruction pointer is as before. -/
def SameIp (vm vm' : Vm World) : Prop := vm'.ip = vm.ip

instance : Std.Refl (@SameIp World) := ⟨fun _ => rfl⟩

instance : IsTrans (Vm World) SameIp := ⟨fun _ _ _ first second => Eq.trans second first⟩

private theorem Advances.of_same {α : Type} {prog : Exec World α} (same : Preserves SameIp prog) :
    Advances 0 prog := same

theorem nextByte_bind {α : Type} {next : UInt8 → Exec World α} {vm : Vm World} :
    (nextByte >>= next) vm = next (vm.code (vm.ip + 1)) { vm with ip := vm.ip + 1 } := rfl

theorem discardByte_bind {α : Type} {next : PUnit → Exec World α} {vm : Vm World} :
    (discard nextByte >>= next) vm = next ⟨⟩ { vm with ip := vm.ip + 1 } := rfl

theorem nextByte_advances : Advances 1 (nextByte : Exec World UInt8) := by
  intro vm _ vm' run
  cases run
  rfl

theorem advance_advances (n : ℕ) : Advances n (advance n : Exec World Unit) := by
  intro vm _ vm' run
  cases run
  rfl

theorem getVar_advances (reg : UInt8) : Advances 0 (getVar reg : Exec World Term) := by
  intro vm _ vm' run
  rw [getVar_state run]
  rfl

theorem setReg_advances (reg : UInt8) (term : Term) : Advances 0 (setReg reg term : Exec World Unit) := by
  intro vm _ vm' run
  rw [setReg_run] at run
  split at run
  · contradiction
  · cases run
    rfl

private theorem onHeap_advances {α : Type} (run : Heap → Except Stop (α × Heap)) :
    Advances 0 (onHeap run : Exec World α) := by
  intro vm _ vm' done
  obtain ⟨heap, -, rfl⟩ := onHeap_ok done
  rfl

theorem call_advances (routine : Routine World) (args : List Term) :
    Advances 0 (call routine args : Exec World Term) := by
  intro vm _ vm' done
  obtain ⟨_, _, -, -, -, rfl⟩ := call_eq_ok.mp done
  rfl

private theorem nameOf_advances (function : ℕ) : Advances 0 (nameOf function : Exec World ℕ) := by
  intro vm _ vm' run
  rw [nameOf_run] at run
  cases run
  rfl

private theorem loadKeeps_ip (host : Host World) : LoadKeeps host SameIp where
  code _ _ _ := rfl
  world _ _ := rfl
  record _ _ := rfl
  push := call_advances _
  entry _ _ := rfl

private theorem loadFunction_advances (host : Host World) (functionId : UInt8) :
    Advances 0 (loadFunction host functionId) :=
  .of_same (loadFunction_keeps (loadModule_keeps (loadKeeps_ip host)) functionId)

private theorem copyRegister_advances (host : Host World) (i j : ℕ) : Advances 0 (copyRegister host i j) := by
  refine .get_bind fun vm _ vm' done => ?_
  split at done
  · obtain ⟨copied, _, run, finish⟩ := bind_eq_ok.mp done
    obtain ⟨heap, -, rfl⟩ := onHeap_ok run
    cases finish
    rfl
  · cases done
    rfl

theorem forFrom_advances {action : ℕ → Exec World Unit} (each : ∀ i, Advances 0 (action i)) :
    ∀ n start, Advances 0 (forFrom action start n)
  | 0, _ => .pure ()
  | n + 1, start => .bind (each start) fun _ => forFrom_advances each n (start + 1)

private theorem gcCollect_advances (host : Host World) : Advances 0 (gcCollect host) := by
  intro vm _ vm' run
  rw [gcCollect, modify_bind, get_bind] at run
  have scanned := forFrom_advances (fun i => forFrom_advances (copyRegister_advances host i) _ _) _ _ _ _ _ run
  exact scanned

private theorem gcSafepoint_advances (host : Host World) : Advances 0 (gcSafepoint host) := by
  intro vm _ vm' run
  rw [gcSafepoint_run] at run
  split at run
  · exact gcCollect_advances host _ _ _ run
  · cases run
    rfl

theorem opStoreInt_advances : Advances 4 (opStoreInt : Exec World Unit) :=
  .bind nextByte_advances fun _ =>
    .bind (m := 2) (.bind nextByte_advances fun _ => .bind nextByte_advances fun _ => .pure _) fun _ =>
      .bind (setReg_advances _ _) fun _ => advance_advances 1

theorem opPrint_advances (host : Host World) : Advances 2 (opPrint host) := by
  refine .bind nextByte_advances fun _ => .bind (n := 1) (getVar_advances _) fun term =>
    .get_bind fun vm _ vm' done => ?_
  obtain ⟨world, _, lifted, finish⟩ := bind_eq_ok.mp done
  obtain ⟨-, rfl⟩ := lift_eq_ok.mp lifted
  cases finish
  rfl

theorem opBinary_advances (operation : Term → Term → Term) :
    Advances 4 (opBinary operation : Exec World Unit) :=
  .bind nextByte_advances fun _ => .bind nextByte_advances fun _ => .bind nextByte_advances fun _ =>
    .bind (getVar_advances _) fun _ => .bind (getVar_advances _) fun _ =>
      .bind (setReg_advances _ _) fun _ => advance_advances 1

theorem opMov_advances : Advances 3 (opMov : Exec World Unit) :=
  .bind nextByte_advances fun _ => .bind nextByte_advances fun _ => .bind (getVar_advances _) fun _ =>
    .bind (setReg_advances _ _) fun _ => advance_advances 1

private theorem tupleNth_advances (tuple : Term) (index : UInt8) :
    Advances 0 (tupleNth tuple index : Exec World Term) := by
  intro vm _ vm' done
  rw [tupleNth_state done]
  rfl

theorem opTupleNth_advances : Advances 4 (opTupleNth : Exec World Unit) :=
  .bind nextByte_advances fun _ => .bind nextByte_advances fun _ => .bind nextByte_advances fun _ =>
    .bind (getVar_advances _) fun _ => .bind (getVar_advances _) fun _ =>
      .bind (tupleNth_advances _ _) fun _ => .bind (setReg_advances _ _) fun _ => advance_advances 1

theorem opCompare_advances (host : Host World) (answer : Bool → Bool) :
    Advances 4 (opCompare host answer) := by
  refine .bind nextByte_advances fun reg => .bind nextByte_advances fun _ => .bind nextByte_advances fun _ =>
    .bind (getVar_advances _) fun left => .bind (n := 1) (getVar_advances _) fun right =>
      .get_bind fun vm _ vm' done => ?_
  have rest : Advances 1 (do
      let equal ← liftM (host.termsEq vm.memory vm.world left right)
      setReg reg (ofBool (answer equal))
      advance 1 : Exec World Unit) :=
    .bind (.lift _) fun _ => .bind (setReg_advances _ _) fun _ => advance_advances 1
  exact rest vm _ vm' done

theorem opNot_advances : Advances 3 (opNot : Exec World Unit) :=
  .bind nextByte_advances fun _ => .bind nextByte_advances fun _ => .bind (getVar_advances _) fun _ =>
    .bind (setReg_advances _ _) fun _ => advance_advances 1

theorem opStore_advances (term : Term) : Advances 2 (opStore term : Exec World Unit) :=
  .bind nextByte_advances fun _ => .bind (setReg_advances _ _) fun _ => advance_advances 1

theorem opLoadString_advances (host : Host World) : Advances 3 (opLoadString host) := by
  refine .bind nextByte_advances fun reg => .bind (n := 1) nextByte_advances fun id =>
    .get_bind fun vm _ vm' done => ?_
  have rest : Advances 1 (do
      setReg reg (tagAs (UInt64.ofNat (host.lookupId vm.world .internPool id.toNat)) .string)
      advance 1 : Exec World Unit) := .bind (setReg_advances _ _) fun _ => advance_advances 1
  exact rest vm _ vm' done

private theorem getVars_advances : ∀ n, Advances n (getVars n : Exec World (List Term))
  | 0 => .pure _
  | n + 1 => by
      have all : Advances (1 + (0 + (n + 0))) (getVars (n + 1) : Exec World (List Term)) :=
        .bind nextByte_advances fun _ => .bind (getVar_advances _) fun _ =>
          .bind (getVars_advances n) fun _ => .pure _
      rwa [show 1 + (0 + (n + 0)) = n + 1 by omega] at all

theorem opRoutine_advances (routine : Routine World) (n : ℕ) :
    Advances (n + 2) (opRoutine routine n : Exec World Unit) := by
  have all : Advances (1 + (n + (0 + (0 + 1)))) (opRoutine routine n : Exec World Unit) :=
    .bind nextByte_advances fun _ => .bind (getVars_advances n) fun _ => .bind (call_advances _ _) fun _ =>
      .bind (setReg_advances _ _) fun _ => advance_advances 1
  rwa [show 1 + (n + (0 + (0 + 1))) = n + 2 by omega] at all

theorem opCapture_advances (host : Host World) : Advances 3 (opCapture host) :=
  .bind nextByte_advances fun _ => .bind nextByte_advances fun _ =>
    .bind (loadFunction_advances host _) fun _ => .bind (setReg_advances _ _) fun _ => advance_advances 1

theorem opCodeLoad_advances (host : Host World) : Advances 3 (opCodeLoad host) := by
  refine .bind nextByte_advances fun reg => .bind nextByte_advances fun _ =>
    .bind (n := 1) (getVar_advances _) fun filename => .get_bind fun vm _ vm' done => ?_
  have rest : Advances 1 (do
      let compiled ← loadModule host (host.compileFile vm.world vm.heap filename)
      setReg reg compiled
      advance 1 : Exec World Unit) :=
    .bind (.of_same (loadModule_keeps (loadKeeps_ip host) _)) fun _ =>
      .bind (setReg_advances _ _) fun _ => advance_advances 1
  exact rest vm _ vm' done

theorem opFunctionName_advances : Advances 3 (opFunctionName : Exec World Unit) :=
  .bind nextByte_advances fun _ => .bind nextByte_advances fun _ => .bind (getVar_advances _) fun _ =>
    .bind (nameOf_advances _) fun _ => .bind (setReg_advances _ _) fun _ => advance_advances 1

theorem opGcCollect_advances (host : Host World) : Advances 2 (opGcCollect host) := by
  refine .bind (n := 1) nextByte_advances fun reg => .get_bind fun vm _ vm' done => ?_
  obtain ⟨_, vm₁, collected, rest⟩ := bind_eq_ok.mp done
  rw [get_bind] at rest
  obtain ⟨_, vm₂, stored, moved⟩ := bind_eq_ok.mp rest
  rw [advance_advances 1 _ _ _ moved, setReg_advances _ _ _ _ _ stored,
    gcCollect_advances host _ _ _ collected]

private theorem storeElements_advances : ∀ n address, Advances n (storeElements address n : Exec World Unit)
  | 0, _ => .pure ()
  | n + 1, address => by
      have all : Advances (1 + (0 + (0 + n))) (storeElements address (n + 1) : Exec World Unit) :=
        .bind nextByte_advances fun _ => .bind (getVar_advances _) fun _ =>
          .bind (.modify fun _ => rfl) fun _ => storeElements_advances n (address + 8)
      rwa [show 1 + (0 + (0 + n)) = n + 1 by omega] at all

theorem opTuple_ip {vm vm' : Vm World} {done : Unit} (run : opTuple vm = .ok (done, vm')) :
    vm'.ip = vm.ip + (3 + (vm.code (vm.ip + 2)).toNat) := by
  rw [opTuple, nextByte_bind, nextByte_bind] at run
  obtain ⟨ary, vm₁, allocated, run⟩ := bind_eq_ok.mp run
  rw [modify_bind] at run
  obtain ⟨_, vm₂, stored, run⟩ := bind_eq_ok.mp run
  obtain ⟨_, vm₃, written, moved⟩ := bind_eq_ok.mp run
  have read := storeElements_advances _ _ _ _ _ (fillTuple_ok stored).2
  have same := onHeap_advances _ _ _ _ allocated
  have total := advance_advances 1 _ _ _ moved
  have kept := setReg_advances _ _ _ _ _ written
  simp only [Nat.add_assoc, Nat.reduceAdd] at read same total kept
  omega

private theorem pushElements_advances (host : Host World) : ∀ n list, Advances n (pushElements host n list)
  | 0, _ => .pure _
  | n + 1, list => by
      have all : Advances (1 + (0 + (0 + n))) (pushElements host (n + 1) list) :=
        .bind nextByte_advances fun _ => .bind (getVar_advances _) fun _ =>
          .bind (call_advances _ _) fun _ => pushElements_advances host n _
      rwa [show 1 + (0 + (0 + n)) = n + 1 by omega] at all

theorem opList_ip {vm vm' : Vm World} {done : Unit} (run : opList host vm = .ok (done, vm')) :
    vm'.ip = vm.ip + (3 + (vm.code (vm.ip + 2)).toNat) := by
  rw [opList, nextByte_bind, nextByte_bind] at run
  obtain ⟨list, vm₁, pushed, run⟩ := bind_eq_ok.mp run
  obtain ⟨_, vm₂, written, moved⟩ := bind_eq_ok.mp run
  have read := pushElements_advances host _ _ _ _ _ pushed
  have total := advance_advances 1 _ _ _ moved
  have kept := setReg_advances _ _ _ _ _ written
  simp only [Nat.add_assoc, Nat.reduceAdd] at read total kept
  omega

theorem opJmp_ip {vm vm' : Vm World} {done : Unit} (run : opJmp vm = .ok (done, vm')) :
    vm'.ip = vm.ip + (1 + (vm.code (vm.ip + 1)).toNat) := by
  rw [opJmp, nextByte_bind] at run
  rw [advance_advances _ _ _ _ run, Nat.add_assoc]

/-- Operands do not depend on the instruction pointer. -/
private theorem getVar_moved {reg : UInt8} {vm vm' : Vm World} {term : Term} {ip : ℕ}
    (read : getVar reg { vm with ip } = .ok (term, vm')) : getVar reg vm = .ok (term, vm) := by
  rw [getVar_run, upvalueOf_run] at read ⊢
  grind

theorem opTest_ip {vm vm' : Vm World} {done : Unit} (run : opTest vm = .ok (done, vm')) :
    ∃ term, getVar (vm.code (vm.ip + 1)) vm = .ok (term, vm) ∧
      vm'.ip = if truthy term then vm.ip + (2 + (vm.code (vm.ip + 2)).toNat) else vm.ip + 3 := by
  rw [opTest, nextByte_bind, nextByte_bind] at run
  obtain ⟨term, vm₁, read, run⟩ := bind_eq_ok.mp run
  cases getVar_state read
  refine ⟨term, getVar_moved read, ?_⟩
  split at run
  · next taken => rw [if_pos taken, advance_advances _ _ _ _ run, ← Nat.add_assoc]
  · next passed => rw [if_neg passed, advance_advances _ _ _ _ run]

/-- A call returns to the byte after its last argument. -/
private theorem enter_retAddress {vm vm' : Vm World} {function : ℕ} {arity retReg : UInt8} {done : Unit}
    (run : (do
      modify fun vm => { vm with currentFunction := function }
      setupNextStackframe function arity retReg
      let location ← locationOf function
      modify fun vm => { vm with ip := location } : Exec World Unit) vm = .ok (done, vm')) :
    (vm'.frames vm'.currentFrame).retAddress = vm.ip + arity.toNat + 1 := by
  obtain ⟨registers, location, rfl⟩ := enter_effect run
  dsimp only
  rw [Function.update_self]

theorem opCall_retAddress {vm vm' : Vm World} {done : Unit} (run : opCall host vm = .ok (done, vm')) :
    (vm'.frames vm'.currentFrame).retAddress = vm.ip + (4 + (vm.code (vm.ip + 3)).toNat) := by
  rw [opCall, nextByte_bind, nextByte_bind, nextByte_bind] at run
  obtain ⟨_, vm₁, safe, run⟩ := bind_eq_ok.mp run
  obtain ⟨function, vm₂, loaded, run⟩ := bind_eq_ok.mp run
  have safepoint := gcSafepoint_advances host _ _ _ safe
  have found := loadFunction_advances host _ _ _ _ loaded
  have resumed := enter_retAddress run
  simp only [Nat.add_assoc, Nat.reduceAdd] at safepoint found resumed
  omega

theorem opCallLocal_retAddress {vm vm' : Vm World} {done : Unit}
    (run : opCallLocal vm = .ok (done, vm')) :
    (vm'.frames vm'.currentFrame).retAddress = vm.ip + (4 + (vm.code (vm.ip + 3)).toNat) := by
  rw [opCallLocal, nextByte_bind, nextByte_bind] at run
  obtain ⟨function, vm₁, read, run⟩ := bind_eq_ok.mp run
  cases getVar_state read
  rw [nextByte_bind] at run
  split at run
  · cases run
  · rw [enter_retAddress run]
    simp only [Nat.add_assoc, Nat.reduceAdd]
    omega

private theorem captureUpvalues_advances (function : ℕ) :
    ∀ n i, Advances n (captureUpvalues function i n : Exec World Unit)
  | 0, _ => .pure ()
  | n + 1, i => by
      have all : Advances (1 + (0 + (0 + n))) (captureUpvalues function i (n + 1) : Exec World Unit) :=
        .bind nextByte_advances fun _ => .bind (getVar_advances _) fun _ =>
          .bind (.modify fun _ => rfl) fun _ => captureUpvalues_advances function n (i + 1)
      rwa [show 1 + (0 + (0 + n)) = n + 1 by omega] at all

/-- Captured terms are stored behind the header of the record. -/
private theorem captureUpvalues_header (function : ℕ) : ∀ (n i : ℕ) (vm vm' : Vm World) (done : Unit),
    captureUpvalues function i n vm = .ok (done, vm') →
    vm'.heap.mem.readNat function 8 = vm.heap.mem.readNat function 8
  | 0, _, vm, vm', _, run => by
      cases run
      rfl
  | n + 1, i, vm, vm', done, run => by
      obtain ⟨byte, vm₁, next, run⟩ := bind_eq_ok.mp run
      obtain ⟨value, vm₂, read, run⟩ := bind_eq_ok.mp run
      rw [modify_bind] at run
      cases next
      cases getVar_state read
      rw [captureUpvalues_header function n (i + 1) _ _ _ run]
      simp only [Heap.setUpvalue, Heap.writeTerm, upvalueAddress_eq]
      exact ByteMemory.readNat_writeNat_apart (by omega)

/-- A closure begins after its captured operands, and its creation jumps from there over its body. -/
theorem opAnonFn_ip {vm vm' : Vm World} {done : Unit} (run : opAnonFn host vm = .ok (done, vm')) :
    vm'.ip = vm.ip + (4 + (vm.code (vm.ip + 4)).toNat + (vm.code (vm.ip + 2)).toNat) ∧
      vm'.heap.mem.readNat (vm.heap.allocPtr + 1) 8 =
        (vm.ip + (5 + (vm.code (vm.ip + 4)).toNat)) % 2 ^ 64 := by
  rw [opAnonFn, nextByte_bind, nextByte_bind, discardByte_bind, nextByte_bind, get_bind] at run
  dsimp only at run
  obtain ⟨function, _, initialised, run⟩ := bind_eq_ok.mp run
  obtain ⟨heap, allocated, rfl⟩ := onHeap_ok initialised
  obtain ⟨rfl, -, -, -, location, -⟩ := anonFunctionInit_ok allocated
  obtain ⟨_, vm₁, captured, run⟩ := bind_eq_ok.mp run
  obtain ⟨_, vm₂, stored, moved⟩ := bind_eq_ok.mp run
  have read := captureUpvalues_advances _ _ _ _ _ _ captured
  have header := captureUpvalues_header _ _ _ _ _ _ captured
  have heap₂ : vm'.heap = vm₁.heap := by
    rw [setReg_run] at stored
    split at stored
    · cases stored
    · cases stored
      cases moved
      rfl
  constructor
  · have total := advance_advances _ _ _ _ moved
    have kept := setReg_advances _ _ _ _ _ stored
    simp only [Nat.add_assoc, Nat.reduceAdd] at read total kept
    omega
  · rw [heap₂, header]
    simp only [Nat.add_assoc, Nat.reduceAdd] at location ⊢
    rw [location]
    refine congrArg (fun n : ℕ => n % 2 ^ 64) ?_
    omega

end Owl.Runtime
