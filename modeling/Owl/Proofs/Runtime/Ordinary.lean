import Owl.Proofs.Runtime.Steps

/-! # What ordinary handlers keep

A handler that neither calls nor returns nor collects is put together from a few accesses to the
machine: it moves `ip`, stores to a register, allocates and writes on the heap, calls the system and
loads modules. A relation between machines that these respect is respected by every such handler. Calls,
returns and collections also work on frames, and no step but a load touches code or function records.
-/

namespace Owl.Runtime

open StateExcept

variable {World : Type} {host : Host World}

/-- The routines of the runtime library that the machine calls. -/
def Host.called (host : Host World) : List (Routine World) :=
  [host.concat, host.termToString, host.listPush, host.listNth, host.listCount, host.listSlice, host.stringSlice,
    host.stringCount, host.stringContains, host.filePwd, host.fileLs]

/-- What the system and the runtime library do to the world. -/
inductive Host.Evolves (host : Host World) : World → World → Prop where
  | malloc (world : World) : Evolves host world (host.malloc world).2
  | intern (world : World) (pool : Pool) (text : Bytes) : Evolves host world (host.intern world pool text).2
  | print {memory : Memory} {world world' : World} {term : Term} :
      host.termPrint memory world term = .ok world' → Evolves host world world'
  | routine {routine : Routine World} {memory : Memory} {world : World} {args : List Term} {reply : Reply World} :
      routine ∈ host.called → routine memory world args = .ok reply → Evolves host world reply.world

/-- What the accesses of ordinary handlers do keeps the relation; the heap may change in any way. -/
structure AccessKeeps (host : Host World) (relation : Vm World → Vm World → Prop) : Prop where
  ip : ∀ vm ip, relation vm { vm with ip }
  setReg : ∀ reg term, Preserves relation (setReg reg term)
  world : ∀ vm world, host.Evolves vm.world world → relation vm { vm with world }
  heap : ∀ vm heap, relation vm { vm with heap }
  load : ∀ bytecode, Preserves relation (loadModule host bytecode)

section Reading

variable {relation : Vm World → Vm World → Prop} [Std.Refl relation]

theorem getVar_keeps (reg : UInt8) : Preserves relation (getVar reg : Exec World Term) := by
  intro vm _ vm' run
  rw [getVar_state run]
  exact Std.Refl.refl vm

private theorem nameOf_keeps (function : ℕ) : Preserves relation (nameOf function : Exec World ℕ) := by
  intro vm _ vm' run
  rw [nameOf_run] at run
  cases run
  exact Std.Refl.refl vm

end Reading

section Accesses

variable {relation : Vm World → Vm World → Prop} (keeps : AccessKeeps host relation)

include keeps

private theorem nextByte_keeps : Preserves relation (nextByte : Exec World UInt8) := by
  intro vm _ vm' run
  cases run
  exact keeps.ip vm _

theorem advance_keeps (n : ℕ) : Preserves relation (advance n : Exec World Unit) :=
  .modify fun vm => keeps.ip vm _

private theorem onHeap_keeps {α : Type} (run : Heap → Except Stop (α × Heap)) :
    Preserves relation (onHeap run : Exec World α) := by
  intro vm _ vm' done
  obtain ⟨heap, -, rfl⟩ := onHeap_ok done
  exact keeps.heap vm heap

variable [IsTrans (Vm World) relation]

private theorem call_keeps {routine : Routine World} (called : routine ∈ host.called) (args : List Term) :
    Preserves relation (call routine args : Exec World Term) := by
  intro vm _ vm' done
  obtain ⟨reply, heap, ran, -, -, rfl⟩ := call_eq_ok.mp done
  exact IsTrans.trans _ _ _ (keeps.heap vm heap) (keeps.world _ reply.world (.routine called ran))

/-- An operand byte is read first. -/
theorem byte_keeps {α : Type} {next : UInt8 → Exec World α} (rest : ∀ byte, Preserves relation (next byte)) :
    Preserves relation (nextByte >>= next) :=
  .bind (nextByte_keeps keeps) rest

/-- A result is stored, and the instruction falls through. -/
theorem finish_keeps (reg : UInt8) (term : Term) : Preserves relation (do
    setReg reg term
    advance 1 : Exec World Unit) :=
  .bind (keeps.setReg reg term) fun _ => advance_keeps keeps 1

theorem opStore_keeps (term : Term) : Preserves relation (opStore term : Exec World Unit) :=
  byte_keeps keeps fun reg => finish_keeps keeps reg term

private theorem opLoadString_keeps : Preserves relation (opLoadString host) :=
  byte_keeps keeps fun reg => byte_keeps keeps fun _ => .get_bind fun vm _ vm' done =>
    finish_keeps keeps reg _ vm _ vm' done

variable [Std.Refl relation]

private theorem storeElements_keeps : ∀ n address, Preserves relation (storeElements address n : Exec World Unit)
  | 0, _ => .pure ()
  | n + 1, address => byte_keeps keeps fun _ => .bind (getVar_keeps _) fun _ =>
      .bind (.modify fun vm => keeps.heap vm _) fun _ => storeElements_keeps n (address + 8)

private theorem fillTuple_keeps (ary : ℕ) (size : UInt8) : Preserves relation (fillTuple ary size : Exec World Unit) :=
  fun vm _ vm' run => storeElements_keeps keeps _ _ vm _ vm' (fillTuple_ok run).2

private theorem captureUpvalues_keeps (function : ℕ) :
    ∀ n i, Preserves relation (captureUpvalues function i n : Exec World Unit)
  | 0, _ => .pure ()
  | n + 1, i => byte_keeps keeps fun _ => .bind (getVar_keeps _) fun _ =>
      .bind (.modify fun vm => keeps.heap vm _) fun _ => captureUpvalues_keeps function n (i + 1)

private theorem pushElements_keeps : ∀ n list, Preserves relation (pushElements host n list)
  | 0, _ => .pure _
  | n + 1, _ => byte_keeps keeps fun _ => .bind (getVar_keeps _) fun _ =>
      .bind (call_keeps keeps (by simp [Host.called]) _) fun _ => pushElements_keeps n _

private theorem getVars_keeps : ∀ n, Preserves relation (getVars n : Exec World (List Term))
  | 0 => .pure _
  | n + 1 => byte_keeps keeps fun _ => .bind (getVar_keeps _) fun _ =>
      .bind (getVars_keeps n) fun _ => .pure _

private theorem opStoreInt_keeps : Preserves relation (opStoreInt : Exec World Unit) :=
  byte_keeps keeps fun reg => .bind (byte_keeps keeps fun _ => byte_keeps keeps fun _ => .pure _) fun term =>
    finish_keeps keeps reg term

private theorem opPrint_keeps : Preserves relation (opPrint host) := by
  refine byte_keeps keeps fun _ => .bind (getVar_keeps _) fun term => .get_bind fun vm _ vm' done => ?_
  obtain ⟨world, _, lifted, finish⟩ := bind_eq_ok.mp done
  obtain ⟨printed, rfl⟩ := lift_eq_ok.mp lifted
  rw [set_bind] at finish
  exact IsTrans.trans _ _ _ (keeps.world vm world (.print printed)) (advance_keeps keeps 1 _ _ _ finish)

private theorem opTest_keeps : Preserves relation (opTest : Exec World Unit) :=
  byte_keeps keeps fun _ => byte_keeps keeps fun _ => .bind (getVar_keeps _) fun _ =>
    .ite (advance_keeps keeps _) (advance_keeps keeps 1)

theorem opBinary_keeps (operation : Term → Term → Term) :
    Preserves relation (opBinary operation : Exec World Unit) :=
  byte_keeps keeps fun reg => byte_keeps keeps fun _ => byte_keeps keeps fun _ =>
    .bind (getVar_keeps _) fun _ => .bind (getVar_keeps _) fun _ => finish_keeps keeps reg _

private theorem opMov_keeps : Preserves relation (opMov : Exec World Unit) :=
  byte_keeps keeps fun reg => byte_keeps keeps fun _ => .bind (getVar_keeps _) fun _ =>
    finish_keeps keeps reg _

private theorem opTuple_keeps : Preserves relation (opTuple : Exec World Unit) :=
  byte_keeps keeps fun reg => byte_keeps keeps fun _ => .bind (onHeap_keeps keeps _) fun _ =>
    .bind (.modify fun vm => keeps.heap vm _) fun _ => .bind (fillTuple_keeps keeps _ _) fun _ =>
      finish_keeps keeps reg _

private theorem opTupleNth_keeps : Preserves relation (opTupleNth : Exec World Unit) := by
  refine byte_keeps keeps fun reg => byte_keeps keeps fun _ => byte_keeps keeps fun _ =>
    .bind (getVar_keeps _) fun _ => .bind (getVar_keeps _) fun _ => .bind ?_ fun _ => finish_keeps keeps reg _
  intro vm _ vm' done
  rw [tupleNth_state done]
  exact Std.Refl.refl vm

private theorem opList_keeps : Preserves relation (opList host) :=
  byte_keeps keeps fun reg => byte_keeps keeps fun _ => .bind (pushElements_keeps keeps _ _) fun _ =>
    finish_keeps keeps reg _

private theorem opCompare_keeps (answer : Bool → Bool) : Preserves relation (opCompare host answer) := by
  refine byte_keeps keeps fun reg => byte_keeps keeps fun _ => byte_keeps keeps fun _ =>
    .bind (getVar_keeps _) fun left => .bind (getVar_keeps _) fun right => .get_bind fun vm _ vm' done => ?_
  obtain ⟨equal, _, lifted, finish⟩ := bind_eq_ok.mp done
  obtain ⟨-, rfl⟩ := lift_eq_ok.mp lifted
  exact finish_keeps keeps reg (ofBool (answer equal)) vm _ vm' finish

private theorem opNot_keeps : Preserves relation (opNot : Exec World Unit) :=
  byte_keeps keeps fun reg => byte_keeps keeps fun _ => .bind (getVar_keeps _) fun _ =>
    finish_keeps keeps reg _

private theorem opRoutine_keeps {routine : Routine World} (called : routine ∈ host.called) (n : ℕ) :
    Preserves relation (opRoutine routine n : Exec World Unit) :=
  byte_keeps keeps fun reg => .bind (getVars_keeps keeps n) fun _ => .bind (call_keeps keeps called _) fun _ =>
    finish_keeps keeps reg _

private theorem opCapture_keeps : Preserves relation (opCapture host) :=
  byte_keeps keeps fun reg => byte_keeps keeps fun _ => .bind (loadFunction_keeps keeps.load _) fun _ =>
    finish_keeps keeps reg _

private theorem opCodeLoad_keeps : Preserves relation (opCodeLoad host) := by
  refine byte_keeps keeps fun reg => byte_keeps keeps fun _ => .bind (getVar_keeps _) fun filename =>
    .get_bind fun vm _ vm' done => ?_
  have rest : Preserves relation (do
      let compiled ← loadModule host (host.compileFile vm.world vm.heap filename)
      setReg reg compiled
      advance 1 : Exec World Unit) := .bind (keeps.load _) fun _ => finish_keeps keeps reg _
  exact rest vm _ vm' done

private theorem opFunctionName_keeps : Preserves relation (opFunctionName : Exec World Unit) :=
  byte_keeps keeps fun reg => byte_keeps keeps fun _ => .bind (getVar_keeps _) fun _ =>
    .bind (nameOf_keeps _) fun _ => finish_keeps keeps reg _

private theorem opAnonFn_keeps : Preserves relation (opAnonFn host) := by
  refine byte_keeps keeps fun reg => byte_keeps keeps fun jmp =>
    .bind (.discard (nextByte_keeps keeps)) fun _ => byte_keeps keeps fun nUpvals =>
      .get_bind fun vm _ vm' done => ?_
  have rest : Preserves relation (do
      let function ← onHeap fun heap =>
        heap.anonFunctionInit (host.literal (bytes "Anonymous")) (vm.ip + nUpvals.toNat + 1) nUpvals
      captureUpvalues function 0 nUpvals.toNat
      setReg reg (tagAs (UInt64.ofNat function) .function)
      advance jmp.toNat : Exec World Unit) :=
    .bind (onHeap_keeps keeps _) fun _ => .bind (captureUpvalues_keeps keeps _ _ _) fun _ =>
      .bind (keeps.setReg _ _) fun _ => advance_keeps keeps _
  exact rest vm _ vm' done

theorem handlers_keep : ∀ entry ∈ handlers host, ¬ Special entry.1 → Preserves relation entry.2 := by
  have routine {opcode : UInt8} (k : ℕ) {routine : Routine World} (called : host.called[k]? = some routine) (n : ℕ) :
      ¬ Special opcode → Preserves relation (opRoutine routine n : Exec World Unit) :=
    fun _ => opRoutine_keeps keeps (List.mem_of_getElem? called) n
  simp only [handlers, List.forall_mem_cons, List.not_mem_nil, false_imp_iff, implies_true, and_true]
  exact ⟨fun _ => byte_keeps keeps fun _ => .throw _, fun _ => opStoreInt_keeps keeps,
    fun _ => opPrint_keeps keeps, fun _ => opBinary_keeps keeps _, fun _ => opBinary_keeps keeps _,
    fun plain => absurd (by decide) plain, fun plain => absurd (by decide) plain, fun _ => opMov_keeps keeps,
    fun _ => byte_keeps keeps fun _ => advance_keeps keeps _, fun _ => opTuple_keeps keeps,
    fun _ => opTupleNth_keeps keeps, fun _ => opList_keeps keeps, fun _ => opStore_keeps keeps _,
    fun _ => opStore_keeps keeps _, fun _ => opTest_keeps keeps, fun _ => opCompare_keeps keeps _,
    fun _ => opCompare_keeps keeps _, fun _ => opNot_keeps keeps, fun _ => opStore_keeps keeps _,
    fun _ => opBinary_keeps keeps _, fun _ => opLoadString_keeps keeps, routine 9 rfl _,
    routine 0 rfl _, routine 10 rfl _, fun _ => opCapture_keeps keeps,
    fun plain => absurd (by decide) plain, routine 3 rfl _,
    routine 4 rfl _, routine 5 rfl _, routine 6 rfl _,
    fun _ => opCodeLoad_keeps keeps, fun _ => opFunctionName_keeps keeps, routine 7 rfl _,
    routine 8 rfl _, routine 1 rfl _, fun _ => opAnonFn_keeps keeps,
    fun plain => absurd (by decide) plain⟩

end Accesses

theorem forFrom_keeps {relation : Vm World → Vm World → Prop} [Std.Refl relation] [IsTrans (Vm World) relation]
    {action : ℕ → Exec World Unit} (each : ∀ i, Preserves relation (action i)) :
    ∀ n start, Preserves relation (forFrom action start n)
  | 0, _ => .pure ()
  | n + 1, start => .bind (each start) fun _ => forFrom_keeps each n (start + 1)

/-- The relation holds of machines that differ in nothing that loading is about. -/
structure MachineKeeps (host : Host World) (relation : Vm World → Vm World → Prop) : Prop where
  machine : ∀ vm frames currentFrame ip currentFunction heap,
    relation vm { vm with frames, currentFrame, ip, currentFunction, heap }
  world : ∀ vm world, host.Evolves vm.world world → relation vm { vm with world }
  load : ∀ bytecode, Preserves relation (loadModule host bytecode)

section Machine

variable {relation : Vm World → Vm World → Prop} (keeps : MachineKeeps host relation)

include keeps

theorem MachineKeeps.accesses : AccessKeeps host relation where
  ip _ _ := keeps.machine _ _ _ _ _ _
  setReg reg term := by
    intro vm _ vm' run
    rw [setReg_run] at run
    split at run
    · contradiction
    · cases run
      exact keeps.machine _ _ _ _ _ _
  world := keeps.world
  heap _ _ := keeps.machine _ _ _ _ _ _
  load := keeps.load

private theorem opReturn_keeps : Preserves relation (opReturn : Exec World Unit) := by
  refine .get_bind fun vm _ vm' run => ?_
  split at run
  · contradiction
  · cases run
    exact keeps.machine _ _ _ _ _ _

/-- What a call does once its function is known. -/
private theorem enter_keeps (function : ℕ) (arity retReg : UInt8) : Preserves relation (do
    modify fun vm => { vm with currentFunction := function }
    setupNextStackframe function arity retReg
    let location ← locationOf function
    modify fun vm => { vm with ip := location } : Exec World Unit) := by
  intro vm _ vm' run
  obtain ⟨registers, location, rfl⟩ := enter_effect run
  exact keeps.machine _ _ _ _ _ _

variable [Std.Refl relation]

private theorem copyRegister_keeps (i j : ℕ) : Preserves relation (copyRegister host i j) := by
  refine .get_bind fun vm _ vm' done => ?_
  split at done
  · obtain ⟨copied, _, run, finish⟩ := bind_eq_ok.mp done
    obtain ⟨heap, -, rfl⟩ := onHeap_ok run
    cases finish
    exact keeps.machine _ _ _ _ _ _
  · cases done
    exact Std.Refl.refl vm

variable [IsTrans (Vm World) relation]

private theorem gcCollect_keeps : Preserves relation (gcCollect host) := by
  refine .bind (.modify fun _ => keeps.machine _ _ _ _ _ _) fun _ => .get_bind fun vm _ vm' done => ?_
  exact forFrom_keeps (fun i => forFrom_keeps (copyRegister_keeps keeps i) _ _) _ _ vm _ vm' done

private theorem gcSafepoint_keeps : Preserves relation (gcSafepoint host) := by
  intro vm _ vm' done
  rw [gcSafepoint_run] at done
  split at done
  · exact gcCollect_keeps keeps vm _ vm' done
  · cases done
    exact Std.Refl.refl vm

private theorem opGcCollect_keeps : Preserves relation (opGcCollect host) := by
  refine byte_keeps keeps.accesses fun reg => .get_bind fun vm _ vm' done => ?_
  obtain ⟨_, vm₁, collected, rest⟩ := bind_eq_ok.mp done
  rw [get_bind] at rest
  exact IsTrans.trans _ _ _ (gcCollect_keeps keeps _ _ _ collected)
    (finish_keeps keeps.accesses reg _ _ _ _ rest)

private theorem opCall_keeps : Preserves relation (opCall host) :=
  byte_keeps keeps.accesses fun retReg => byte_keeps keeps.accesses fun _ =>
    byte_keeps keeps.accesses fun arity => .bind (gcSafepoint_keeps keeps) fun _ =>
      .bind (loadFunction_keeps keeps.load _) fun function => enter_keeps keeps function arity retReg

private theorem opCallLocal_keeps : Preserves relation (opCallLocal : Exec World Unit) :=
  byte_keeps keeps.accesses fun retReg => byte_keeps keeps.accesses fun _ =>
    .bind (getVar_keeps _) fun _ => byte_keeps keeps.accesses fun arity =>
      .ite (.throw _) (enter_keeps keeps _ arity retReg)

/-- A step keeps what all loads keep. -/
theorem step_keeps : Preserves relation (step host) := by
  intro vm _ vm' run
  rcases step_cases run with ⟨-, ran⟩ | ⟨-, ran⟩ | ⟨-, ran⟩ | ⟨-, ran⟩ | ⟨plain, -⟩
  · exact opCall_keeps keeps _ _ _ ran
  · exact opReturn_keeps keeps _ _ _ ran
  · exact opCallLocal_keeps keeps _ _ _ ran
  · exact opGcCollect_keeps keeps _ _ _ ran
  · obtain ⟨handler, member, ran⟩ := step_handler run
    exact handlers_keep keeps.accesses _ member plain _ _ _ ran

end Machine

end Owl.Runtime
