import Owl.Proofs.Runtime.Building
import Owl.Proofs.Runtime.Nesting

/-! # Reachable machines are settled

Calls copy good terms into the next frame, whose registers are zero before; a return clears the frame
that it leaves. A collection replaces all live terms by their images, but not the running function, which
therefore must not be a closure when a program asks for a collection. A call sets the running function
after its safepoint.
-/

namespace Owl.Runtime

open StateExcept
open Except (SucceedsUnless)

variable {World : Type} {host : Host World} {arena : ℕ} {vm vm' : Vm World} {graph : Finset Object} {done : Unit}
  {running : Prop}

/-- The registers of a frame are good. -/
def Frame.Good (atom : Term → Prop) (graph : Finset Object) (frame : Frame) : Prop :=
  ∀ j < REGISTER_COUNT, Owl.Runtime.Good atom graph (.term (frame.registers j))

private theorem good_zero (statics : ℕ → Option StaticFunction) (graph : Finset Object) :
    Good (Atom host statics) graph (.term 0) :=
  .inl (.inr (.inl ⟨by decide, by decide, by decide⟩))

/-- What is read does not depend on the frames above. -/
private theorem getVar_below {reg : UInt8} {term : Term} {ip i : ℕ} {frame : Frame} (above : vm.currentFrame < i)
    (read : getVar reg { vm with ip, frames := Function.update vm.frames i frame } = .ok (term, vm')) :
    getVar reg vm = .ok (term, vm) := by
  rw [getVar_run, upvalueOf_run] at read ⊢
  dsimp only at read
  rw [Function.update_of_ne (Nat.ne_of_lt above)] at read
  grind

/-- Arguments are good. -/
private theorem passArguments_settled {start : Vm World} (settled : start.Settled host arena True graph) :
    ∀ (n i ip : ℕ) (frame : Frame) (vm' : Vm World) (done : Unit),
    passArguments (start.currentFrame + 1) i n { start with
      ip, frames := Function.update start.frames (start.currentFrame + 1) frame } = .ok (done, vm') →
    frame.Good (Atom host start.statics) graph →
    ∃ frame' : Frame, vm' = { start with
      ip := ip + n, frames := Function.update start.frames (start.currentFrame + 1) frame' } ∧
      frame'.Good (Atom host start.statics) graph
  | 0, i, ip, frame, vm', done, run, good => by
      obtain ⟨-, rfl⟩ := pure_eq_ok.mp run
      exact ⟨frame, rfl, good⟩
  | n + 1, i, ip, frame, vm', done, run, good => by
      rw [passArguments, nextByte_bind] at run
      obtain ⟨arg, vm₁, read, run⟩ := bind_eq_ok.mp run
      have argument := settled.operand (getVar_below (Nat.lt_succ_self _) read)
      cases getVar_state read
      split at run
      · cases run
      · rw [modify_bind] at run
        simp only [Vm.setFrame, Function.update_self, Function.update_idem] at run
        obtain ⟨frame', rfl, good'⟩ := passArguments_settled settled n (i + 1) (ip + 1) _ vm' done run fun j inside => by
          by_cases here : j = i + 1
          · simpa [Frame.setRegister, here] using argument
          · simpa [Frame.setRegister, here] using good j inside
        exact ⟨frame', by simp only [Nat.add_assoc, Nat.add_comm 1 n], good'⟩

/-- A call of a known function. -/
private theorem enter_settled {function : ℕ} {arity retReg : UInt8} (settled : vm.Settled host arena running graph)
    (known : (vm.statics function).isSome ∨ ⟨.function, function⟩ ∈ graph)
    (run : (do
      modify fun vm => { vm with currentFunction := function }
      setupNextStackframe function arity retReg
      let location ← locationOf function
      modify fun vm => { vm with ip := location } : Exec World Unit) vm = .ok (done, vm')) :
    vm'.Settled host arena True graph := by
  rw [modify_bind] at run
  obtain ⟨_, vm₁, entered, run⟩ := bind_eq_ok.mp run
  obtain ⟨location, vm₂, located, finish⟩ := bind_eq_ok.mp run
  rw [locationOf_run] at located
  obtain ⟨-, rfl⟩ := Prod.mk.inj (Except.ok.inj located)
  cases finish
  have start : ({ vm with currentFunction := function } : Vm World).Settled host arena True graph :=
    { settled with
      placed := ⟨settled.placed.size, settled.placed.spaces, settled.placed.allocPtr, settled.placed.statics⟩
      function := fun _ => .inr known }
  rw [setupNextStackframe, get_bind] at entered
  split at entered
  · cases entered
  · obtain ⟨_, vm₂, passed, finish⟩ := bind_eq_ok.mp entered
    obtain ⟨frame, rfl, good⟩ := passArguments_settled start arity.toNat 0 vm.ip (vm.frames (vm.currentFrame + 1)) vm₂ _
      (by rw [Function.update_eq_self]; exact passed)
      fun j _ => by
        have zero : (vm.frames (vm.currentFrame + 1)).registers j = 0 := settled.above _ (Nat.lt_succ_self _) j
        rw [zero]
        exact good_zero _ _
    cases finish
    refine ⟨⟨settled.placed.size, settled.placed.spaces, settled.placed.allocPtr, settled.placed.statics⟩, settled.room,
      settled.laid, fun i live j inside => ?_, fun i dead j => ?_, fun _ => .inr known, settled.entries, settled.records,
      settled.named⟩
    · by_cases top : i = vm.currentFrame + 1
      · simpa [Vm.register, Vm.setFrame, top] using good j inside
      · have below : i ≤ vm.currentFrame := by
          dsimp only at live
          omega
        simpa [Vm.register, Vm.setFrame, top] using settled.registers i below j inside
    · have top : i ≠ vm.currentFrame + 1 := Nat.ne_of_gt dead
      have higher : vm.currentFrame < i := (Nat.lt_succ_self _).trans dead
      simpa [Vm.register, Vm.setFrame, top] using settled.above i higher j

private theorem opCallLocal_settled (settled : vm.Settled host arena True graph) (run : opCallLocal vm = .ok (done, vm')) :
    vm'.Settled host arena True graph := by
  rw [opCallLocal, nextByte_bind, nextByte_bind] at run
  obtain ⟨function, vm₁, read, run⟩ := bind_eq_ok.mp run
  have good := (settled.withIp _).operand read
  cases getVar_state read
  rw [nextByte_bind] at run
  split at run
  · cases run
  · next typed =>
    dsimp only at run
    exact enter_settled (settled.withIp (vm.ip + 1 + 1 + 1)) (good_function good (not_not.mp typed)) run

private theorem opReturn_settled (settled : vm.Settled host arena True graph) (run : opReturn vm = .ok (done, vm')) :
    vm'.Settled host arena True graph := by
  rw [opReturn, get_bind] at run
  split at run
  · cases run
  · next inside =>
    have called : vm.currentFrame ≠ 0 := fun none => by simp [none] at inside
    cases run
    have result := settled.registers _ (Nat.le_refl _) 0 (by decide)
    refine ⟨⟨settled.placed.size, settled.placed.spaces, settled.placed.allocPtr, settled.placed.statics⟩, settled.room,
      settled.laid, fun i live j inside' => ?_, fun i dead j => ?_, settled.function, settled.entries, settled.records,
      settled.named⟩
    · have lower : i ≤ vm.currentFrame - 1 := live
      have notTop : i ≠ vm.currentFrame := by omega
      simp only [Vm.register, Vm.setFrame, Function.update_of_ne notTop]
      by_cases caller : i = vm.currentFrame - 1
      · subst caller
        simp only [Function.update_self, Frame.setRegister, Function.update_apply]
        split
        · exact result
        · exact settled.registers _ (Nat.sub_le _ _) j inside'
      · rw [Function.update_of_ne caller]
        exact settled.registers i (by omega) j inside'
    · by_cases top : i = vm.currentFrame
      · subst top
        simp [Vm.register, Vm.setFrame]
      · have higher : vm.currentFrame - 1 < i := dead
        have notCaller : i ≠ vm.currentFrame - 1 := Nat.ne_of_gt higher
        have zero := settled.above i (by omega) j
        simpa [Vm.register, Vm.setFrame, top, notCaller] using zero

/-- Every value that a live register stands for is whole. -/
def Vm.Whole (vm : Vm World) : Prop :=
  ∀ i ≤ vm.currentFrame, ∀ j < REGISTER_COUNT, ∀ value,
    vm.heap.Denotes (.term (vm.register i j)) value → value.whole = true

/-- No captured term belongs to the running function. -/
def Vm.Static (vm : Vm World) : Prop := vm.currentFunction = 0 ∨ (vm.statics vm.currentFunction).isSome

theorem Vm.Settled.collectable (surrounds : host.Surrounds arena) (settled : vm.Settled host arena running graph)
    (whole : vm.Whole) : vm.Collectable graph (Atom host vm.statics) vm.heap.nesting := by
  intro i live j inside
  have good := settled.registers i live j inside
  obtain ⟨value, read⟩ := settled.laid.decode_nesting (settled.divided surrounds) (settled.away surrounds) good
  exact ⟨good, value, read, whole i live j inside value ⟨_, read⟩⟩

theorem atom_ints (statics : ℕ → Option StaticFunction) (term : Term) (int : tagOf term = Tag.int.bits) :
    Atom host statics term := .inl int

/-- The copies are the graph of the machine after a collection. -/
theorem Scanned.settled {depth : ℕ} (surrounds : host.Surrounds arena) (settled : vm.Settled host arena running graph)
    (scanned : Scanned graph depth vm (Before (vm.currentFrame + 1) 0) vm') :
    vm'.Settled host arena vm.Static (vm'.heap.copiesOf graph) := by
  have divided := settled.divided surrounds
  have away := settled.away surrounds
  have collecting := scanned.collecting
  have placed := settled.placed
  obtain ⟨heap, registers, rfl⟩ := scanned.rest
  refine ⟨⟨collecting.size.trans placed.size, ?_, collecting.start, placed.statics⟩, (collecting.halved divided).room,
    collecting.laid_copies divided settled.laid away (atom_ints _), fun i live j inside => ?_, fun i dead j => ?_,
    fun static => static.imp_right .inl, settled.entries, settled.records, fun copied member isFunction => ?_⟩
  · have := placed.spaces
    have := collecting.toSpace
    have := collecting.fromSpace
    omega
  · have done : Before (vm.currentFrame + 1) 0 i j := ⟨.inl (Nat.lt_succ_of_le live), inside⟩
    exact collecting.good_image divided settled.laid away (atom_ints _) (settled.registers i live j inside)
      (scanned.images i j done)
  · have fresh : ¬ Before (vm.currentFrame + 1) 0 i j := by
      have higher : vm.currentFrame < i := dead
      rw [Before]
      omega
    exact (scanned.fresh i j fresh).trans (settled.above i dead j)
  · obtain ⟨object, old, black, rfl⟩ := Heap.mem_copiesOf.mp member
    have head := (collecting.black object old black).head
    have name := settled.named object old isFunction
    dsimp only [Vm.withRegisters] at head isFunction ⊢
    simp only [Heap.head, isFunction, Head.function.injEq] at head
    rwa [head.2]

/-- A collection of whole values scans all registers, unless the stack is smaller than the values may be deep. -/
theorem gcCollect_scanned (surrounds : host.Surrounds arena) (settled : vm.Settled host arena running graph)
    (whole : vm.Whole) : SucceedsUnless (host.stack < vm.heap.nesting) .stackOverflow (gcCollect host vm) fun done =>
      Scanned graph vm.heap.nesting vm (Before (vm.currentFrame + 1) 0) done.2 := by
  have emptyAway := surrounds.emptyRrb.away settled.placed.size settled.placed.min_spaces
  have divided := settled.divided surrounds
  have away := settled.away surrounds
  rw [gcCollect_eq]
  exact gcCollectBy_scanned settled.laid divided away
    (Heap.copy_copies settled.laid divided away emptyAway host.stack).1 (settled.collectable surrounds whole)

private theorem gcCollect_settled (surrounds : host.Surrounds arena) (settled : vm.Settled host arena running graph)
    (whole : vm.Whole) (run : gcCollect host vm = .ok (done, vm')) :
    ∃ graph', vm'.Settled host arena vm.Static graph' := by
  rcases gcCollect_scanned surrounds settled whole with ⟨-, stopped⟩ | ⟨result, finished, scanned⟩
  · rw [run] at stopped
    cases stopped
  · rw [run] at finished
    cases finished
    exact ⟨_, scanned.settled surrounds settled⟩

theorem Vm.Settled.runs (settled : vm.Settled host arena running graph) (runs : running) :
    vm.Settled host arena True graph :=
  { settled with function := fun _ => settled.function runs }

private theorem opGcCollect_settled (surrounds : host.Surrounds arena) (settled : vm.Settled host arena True graph)
    (whole : vm.Whole) (static : vm.Static) (run : opGcCollect host vm = .ok (done, vm')) :
    ∃ graph', vm'.Settled host arena True graph' := by
  rw [opGcCollect, nextByte_bind, get_bind] at run
  obtain ⟨_, vm₁, collected, run⟩ := bind_eq_ok.mp run
  obtain ⟨graph', after⟩ := gcCollect_settled surrounds (settled.withIp (vm.ip + 1)) whole collected
  rw [get_bind] at run
  exact ⟨graph', store_settled run (after.runs static) (.inl (atom_int _ _))⟩

private theorem opCall_settled (surrounds : host.Surrounds arena) (library : host.Library arena)
    (settled : vm.Settled host arena True graph) (whole : vm.SafepointCollects → vm.Whole)
    (run : opCall host vm = .ok (done, vm')) : ∃ graph', vm'.Settled host arena True graph' := by
  rw [opCall, nextByte_bind, nextByte_bind, nextByte_bind] at run
  obtain ⟨_, vm₁, safe, run⟩ := bind_eq_ok.mp run
  obtain ⟨function, vm₂, loaded, run⟩ := bind_eq_ok.mp run
  have after : ∃ running graph', vm₁.Settled host arena running graph' := by
    rw [gcSafepoint_run] at safe
    split at safe
    · next collects =>
      obtain ⟨graph', after⟩ := gcCollect_settled surrounds (settled.withIp (vm.ip + 1 + 1 + 1)) (whole collects) safe
      exact ⟨_, graph', after⟩
    · cases safe
      exact ⟨True, graph, settled.withIp _⟩
  obtain ⟨running, graph₁, after⟩ := after
  obtain ⟨graph₂, ready, record⟩ := loadFunction_settled surrounds library after loaded
  exact ⟨graph₂, enter_settled ready (.inl record) run⟩

/-- A handler keeps the machine settled where the operands have the types that its opcode asks for. -/
def Settles (host : Host World) (arena : ℕ) (opcode : UInt8) (handler : Exec World Unit) : Prop :=
  ∀ vm vm' graph, vm.code vm.ip = opcode → vm.WellTyped → vm.Settled host arena True graph →
    handler vm = .ok ((), vm') → ∃ graph', vm'.Settled host arena True graph'

private theorem Vm.new_settled (world : World) (mem : ByteMemory) :
    (Vm.new world mem arena).Settled host arena True ∅ where
  placed := Vm.new_placed world mem
  room := Nat.le_add_right _ _
  laid := by constructor <;> simp
  registers _ _ _ _ := good_zero _ _
  above _ _ _ := rfl
  function _ := .inl rfl
  entries _ := .inl rfl
  records := by simp [Vm.new]
  named := by simp

private theorem signature_length (opcode : UInt8) : (signature opcode).length ≤ 3 := by
  have ite {condition : Prop} [Decidable condition] {yes no : List (Option Tag)} (first : yes.length ≤ 3)
      (second : no.length ≤ 3) : (if condition then yes else no).length ≤ 3 := by
    split
    · exact first
    · exact second
  unfold signature
  repeat' apply ite
  all_goals decide

section Step

variable (surrounds : host.Surrounds arena) (library : host.Library arena)

include surrounds library

private theorem routine_settles {opcode : UInt8} {routine : Routine World} (member : (opcode, routine) ∈ routines host) :
    Settles host arena opcode (opRoutine routine (signature opcode).length) := by
  intro vm vm' graph here typed settled run
  refine opRoutine_settled surrounds (library.routine _ member) settled (fun k kind asked => ?_) run
  have small : k < 3 := (List.getElem?_eq_some_iff.mp asked).1.trans_le (signature_length opcode)
  exact typed k small kind (here ▸ asked)

/-- Handlers that neither call nor return nor collect. -/
private theorem handlers_settle : ∀ entry ∈ handlers host, ¬ Special entry.1 → Settles host arena entry.1 entry.2 := by
  have same {opcode : UInt8} {handler : Exec World Unit}
      (kept : ∀ vm vm' graph, vm.Settled host arena True graph → handler vm = .ok ((), vm') →
        vm'.Settled host arena True graph) : ¬ Special opcode → Settles host arena opcode handler :=
    fun _ vm vm' graph _ _ settled run => ⟨graph, kept vm vm' graph settled run⟩
  have more {opcode : UInt8} {handler : Exec World Unit}
      (kept : ∀ vm vm' graph, vm.Settled host arena True graph → handler vm = .ok ((), vm') →
        ∃ graph', vm'.Settled host arena True graph') : ¬ Special opcode → Settles host arena opcode handler :=
    fun _ vm vm' graph _ _ => kept vm vm' graph
  have routine {opcode : UInt8} {routine : Routine World} (k : ℕ) (entry : (routines host)[k]? = some (opcode, routine)) :
      ¬ Special opcode → Settles host arena opcode (opRoutine routine (signature opcode).length) :=
    fun _ => routine_settles surrounds library (List.mem_of_getElem? entry)
  have tupleNth : ¬ Special OP_TUPLE_NTH → Settles host arena OP_TUPLE_NTH opTupleNth :=
    fun _ vm vm' graph here typed settled run => ⟨graph, opTupleNth_settled settled
      (typed 0 (by decide) (some .tuple) (by rw [here]; decide)) run⟩
  have functionName : ¬ Special OP_FUNCTION_NAME → Settles host arena OP_FUNCTION_NAME opFunctionName :=
    fun _ vm vm' graph here typed settled run => ⟨graph, opFunctionName_settled settled surrounds
      (typed 0 (by decide) (some .function) (by rw [here]; decide)) run⟩
  simp only [handlers, List.forall_mem_cons, List.not_mem_nil, false_imp_iff, implies_true, and_true]
  exact ⟨same fun _ _ _ _ run => (by cases run), same fun _ _ _ settled => opStoreInt_settled settled,
    same fun _ _ _ settled => opPrint_settled settled,
    same fun _ _ _ settled => opBinary_settled settled fun _ _ => atom_int _ _,
    same fun _ _ _ settled => opBinary_settled settled fun _ _ => atom_int _ _,
    fun plain => absurd (by decide) plain, fun plain => absurd (by decide) plain,
    same fun _ _ _ settled => opMov_settled settled, same fun _ _ _ settled => opJmp_settled settled,
    more fun _ _ _ settled => opTuple_settled surrounds settled, tupleNth,
    more fun _ _ _ settled => opList_settled surrounds library settled,
    same fun _ _ _ settled => opStore_settled settled (atom_true _),
    same fun _ _ _ settled => opStore_settled settled (atom_false _),
    same fun _ _ _ settled => opTest_settled settled,
    same fun _ _ _ settled => opCompare_settled settled, same fun _ _ _ settled => opCompare_settled settled,
    same fun _ _ _ settled => opNot_settled settled,
    same fun _ _ _ settled => opStore_settled settled (atom_nil _),
    same fun _ _ _ settled => opBinary_settled settled fun _ _ => atom_bool _ _,
    same fun _ _ _ settled => opLoadString_settled settled surrounds,
    routine 0 rfl, routine 1 rfl, routine 2 rfl,
    more fun _ _ _ settled => opCapture_settled surrounds library settled,
    fun plain => absurd (by decide) plain,
    routine 3 rfl, routine 4 rfl, routine 5 rfl,
    routine 6 rfl, more fun _ _ _ settled => opCodeLoad_settled surrounds library settled,
    functionName, routine 7 rfl, routine 8 rfl, routine 9 rfl,
    more fun _ _ _ settled => opAnonFn_settled surrounds settled, fun plain => absurd (by decide) plain⟩

/-- What the instruction at `ip` takes for granted. -/
structure Vm.Orderly (vm : Vm World) : Prop where
  typed : vm.WellTyped
  whole : vm.Collects → vm.Whole
  static : vm.code vm.ip = OP_GC_COLLECT → vm.Static

theorem step_settled (settled : vm.Settled host arena True graph) (orderly : vm.Orderly)
    (run : step host vm = .ok ((), vm')) : ∃ graph', vm'.Settled host arena True graph' := by
  by_cases special : Special (vm.code vm.ip)
  · rcases step_cases run with ⟨opcode, ran⟩ | ⟨-, ran⟩ | ⟨-, ran⟩ | ⟨opcode, ran⟩ | ⟨plain, -⟩
    · exact opCall_settled surrounds library settled (fun collects => orderly.whole (.inr ⟨opcode, collects⟩)) ran
    · exact ⟨graph, opReturn_settled settled ran⟩
    · exact ⟨graph, opCallLocal_settled settled ran⟩
    · exact opGcCollect_settled surrounds settled (orderly.whole (.inl opcode)) (orderly.static opcode) ran
    · exact absurd special plain
  · obtain ⟨handler, member, ran⟩ := step_handler run
    exact handlers_settle surrounds library _ member special vm vm' graph rfl orderly.typed settled ran

theorem Loaded.settled (loaded : Loaded host arena vm) : ∃ graph, vm.Settled host arena True graph := by
  induction loaded with
  | new world mem => exact ⟨∅, Vm.new_settled world mem⟩
  | load _ run ih =>
    obtain ⟨graph, settled⟩ := ih
    obtain ⟨graph', after, -⟩ := loadModule_settled surrounds library settled run
    exact ⟨graph', after⟩

theorem Started.settled (started : Started host arena vm) : ∃ graph, vm.Settled host arena True graph := by
  obtain ⟨start, functionName, loaded, entered⟩ := started
  obtain ⟨graph, settled⟩ := loaded.settled surrounds library
  rw [enterFunction, get_bind] at entered
  split at entered
  · cases entered
  · cases entered
    exact ⟨graph, settled.same rfl rfl rfl rfl rfl fun _ _ => rfl⟩

/-- Every machine that an orderly run reaches is settled. -/
theorem Run.settled {start : Vm World} (started : Started host arena start) (run : Run host Vm.Orderly start vm) :
    ∃ graph, vm.Settled host arena True graph := by
  induction run with
  | refl => exact started.settled surrounds library
  | tail _ last ih =>
    obtain ⟨graph, settled⟩ := ih
    exact step_settled surrounds library settled last.1 last.2

end Step

/-- Every live register can be read to a depth, and its value is whole. -/
def Vm.WholeWithin (depth : ℕ) (vm : Vm World) : Prop :=
  ∀ i ∈ List.range (vm.currentFrame + 1), ∀ j ∈ List.range REGISTER_COUNT,
    (vm.heap.decode depth (.term (vm.register i j))).any Value.whole = true

instance (depth : ℕ) (vm : Vm World) : Decidable (vm.WholeWithin depth) :=
  inferInstanceAs (Decidable (∀ i ∈ List.range (vm.currentFrame + 1), ∀ j ∈ List.range REGISTER_COUNT, _ = true))

theorem Vm.WholeWithin.whole {depth : ℕ} (within : vm.WholeWithin depth) : vm.Whole := by
  intro i live j inside value denotes
  have read := within i (List.mem_range.mpr (Nat.lt_succ_of_le live)) j (List.mem_range.mpr inside)
  obtain ⟨other, read, whole⟩ := Option.any_eq_true _ _ |>.mp read
  rwa [denotes.unique ⟨depth, read⟩]

instance (vm : Vm World) : Decidable vm.WellTyped :=
  inferInstanceAs (Decidable (∀ k < 3, ∀ kind ∈ (signature (vm.code vm.ip))[k]?, _ = true))

instance (vm : Vm World) : Decidable vm.Static := inferInstanceAs (Decidable (_ ∨ _))

/-- The machine is orderly, with values that can be read to a depth. -/
def Vm.OrderlyWithin (depth : ℕ) (vm : Vm World) : Prop :=
  vm.WellTyped ∧ (vm.Collects → vm.WholeWithin depth) ∧ (vm.code vm.ip = OP_GC_COLLECT → vm.Static)

instance (depth : ℕ) : DecidablePred (Vm.OrderlyWithin depth : Vm World → Prop) :=
  fun _ => inferInstanceAs (Decidable (_ ∧ _ ∧ _))

theorem Vm.OrderlyWithin.orderly {depth : ℕ} (within : vm.OrderlyWithin depth) : vm.Orderly :=
  ⟨within.1, fun collects => (within.2.1 collects).whole, within.2.2⟩

end Owl.Runtime
