import Owl.Proofs.Runtime.Settled
import Owl.Proofs.Runtime.Advance

/-! # Instructions keep the machine settled

Every handler writes good terms: operands, terms that stand for themselves, objects that it has just
filled, and results of the runtime library.
-/

namespace Owl.Runtime

open StateExcept

variable {World : Type} {host : Host World} {arena : ℕ} {vm vm' : Vm World} {graph graph' : Finset Object}
  {running : Prop}

namespace Vm.Settled

/-- A machine that differs in nothing that the invariant is about. -/
theorem same (settled : vm.Settled host arena running graph) (heap : vm'.heap = vm.heap)
    (statics : vm'.statics = vm.statics)
    (currentFrame : vm'.currentFrame = vm.currentFrame) (currentFunction : vm'.currentFunction = vm.currentFunction)
    (functions : vm'.functions = vm.functions) (registers : ∀ i j, vm'.register i j = vm.register i j) :
    vm'.Settled host arena running graph where
  placed := by
    obtain ⟨size, spaces, allocPtr, records⟩ := settled.placed
    exact ⟨by rwa [heap], by rwa [heap], by rwa [heap], by rwa [statics]⟩
  room := by rw [heap]; exact settled.room
  laid := by rw [heap, statics]; exact settled.laid
  registers i live j inside := by
    rw [statics, registers]
    exact settled.registers i (currentFrame ▸ live) j inside
  above i dead j := by
    rw [registers]
    exact settled.above i (currentFrame ▸ dead) j
  function := by rw [statics, currentFunction]; exact settled.function
  entries := by rw [statics, functions]; exact settled.entries
  records := by rw [statics]; exact settled.records
  named := by rw [heap]; exact settled.named

theorem withIp (settled : vm.Settled host arena running graph) (ip : ℕ) :
    ({ vm with ip } : Vm World).Settled host arena running graph :=
  settled.same rfl rfl rfl rfl rfl fun _ _ => rfl

theorem withWorld (settled : vm.Settled host arena running graph) (world : World) :
    ({ vm with world } : Vm World).Settled host arena running graph :=
  settled.same rfl rfl rfl rfl rfl fun _ _ => rfl

/-- A good term is put into a register of the current frame. -/
theorem setRegister (settled : vm.Settled host arena running graph) {reg : ℕ} {term : Term}
    (good : Good (Atom host vm.statics) graph (.term term)) :
    (vm.setFrame vm.currentFrame ((vm.frames vm.currentFrame).setRegister reg term)).Settled host arena running graph where
  placed := ⟨settled.placed.size, settled.placed.spaces, settled.placed.allocPtr, settled.placed.statics⟩
  room := settled.room
  laid := settled.laid
  registers i live j inside := by
    rw [Vm.register_setFrame]
    split
    · exact good
    · exact settled.registers i live j inside
  above i dead j := by
    have other : ¬ (i = vm.currentFrame ∧ j = reg) := fun same => Nat.ne_of_gt dead same.1
    rw [Vm.register_setFrame, if_neg other]
    exact settled.above i dead j
  function := settled.function
  entries := settled.entries
  records := settled.records
  named := settled.named

/-- The heap has grown by objects of a larger graph. -/
theorem grown (surrounds : host.Surrounds arena) (settled : vm.Settled host arena running graph) {heap : Heap}
    (grows : vm.heap.Grows heap) (room : heap.allocPtr ≤ vm.heap.toSpace + vm.heap.size / 2) (more : graph ⊆ graph')
    (laid : heap.Laid (Atom host vm.statics) graph')
    (named : ∀ object ∈ graph', object ∉ graph → object.form = .function →
      host.IsText (heap.mem.readNat (object.address + 8) 8)) :
    ({ vm with heap } : Vm World).Settled host arena running graph' where
  placed := settled.placed.step grows.stays fun _ => .inl
  room := by
    dsimp only
    rw [grows.toSpace, grows.size]
    exact room
  laid := laid
  registers i live j inside := (settled.registers i live j inside).mono _ more
  above := settled.above
  function := fun runs => (settled.function runs).imp_right (Or.imp_right fun member => more member)
  entries := settled.entries
  records := settled.records
  named object member isFunction := by
    by_cases old : object ∈ graph
    · have divided := settled.divided surrounds
      have agrees := grows.agreesOn divided.bounded (settled.laid.held object old)
      have extent : 24 ≤ vm.heap.extent object := by simp [Heap.extent, isFunction, sizeofFunction]
      rw [agrees.readNat 8 8 (by omega)]
      exact settled.named object old isFunction
    · exact named object member old isFunction

/-- An operand that can be read is good. -/
theorem operand (settled : vm.Settled host arena True graph) {reg : UInt8} {term : Term}
    (read : getVar reg vm = .ok (term, vm')) : Good (Atom host vm.statics) graph (.term term) := by
  rw [getVar_run, upvalueOf_run] at read
  split at read
  · split at read
    · cases read
    · next isHeap =>
      split at read
      · cases read
      · next inside =>
        rw [← (Prod.mk.inj (Except.ok.inj read)).1]
        rw [Bool.or_eq_true, decide_eq_true_eq, not_or] at isHeap
        have member := ((settled.function trivial).resolve_left isHeap.1).resolve_left isHeap.2
        have slot : (⟨sizeofFunction + 8 * (reg - 128).toNat, false⟩ : Slot) ∈
            vm.heap.slots ⟨.function, vm.currentFunction⟩ := by
          rw [Heap.slots, Heap.mem_slotsFrom]
          exact ⟨_, Nat.lt_of_not_le inside, rfl⟩
        have good := settled.laid.closed _ member _ slot
        rwa [← Nat.add_assoc] at good
  · split at read
    · cases read
    · next inside =>
      rw [← (Prod.mk.inj (Except.ok.inj read)).1]
      exact settled.registers _ (Nat.le_refl _) _ (by omega)

end Vm.Settled

theorem getVar_operand {reg : UInt8} {term : Term} (read : getVar reg vm = .ok (term, vm')) :
    term = vm.operand reg := by
  rw [getVar_run, upvalueOf_run] at read
  rw [Vm.operand]
  split at read
  · next high =>
    rw [if_pos high]
    split at read
    · cases read
    split at read
    · cases read
    · exact (Prod.mk.inj (Except.ok.inj read)).1.symm
  · next low =>
    rw [if_neg low]
    split at read
    · cases read
    · exact (Prod.mk.inj (Except.ok.inj read)).1.symm

/-- Only functions of the code and closures are called. -/
theorem good_function {statics : ℕ → Option StaticFunction} {term : Term}
    (good : Good (Atom host statics) graph (.term term)) (tag : tagOf term = Tag.function.bits) :
    (statics (extractPtr term)).isSome ∨ ⟨.function, extractPtr term⟩ ∈ graph := by
  rcases good with (int | ⟨-, other, -⟩ | ⟨other, -⟩ | ⟨other, -⟩ | ⟨-, record⟩) | ⟨form, named, member⟩
  · exact absurd (int.symm.trans tag) (by decide)
  · exact absurd tag other
  · exact absurd (other.symm.trans tag) (by decide)
  · exact absurd (other.symm.trans tag) (by decide)
  · exact .inl record
  · rw [tag] at named
    cases named
    exact .inr member

/-- A tuple is an object, unless it is the constant false. -/
private theorem good_tuple {statics : ℕ → Option StaticFunction} {term : Term}
    (good : Good (Atom host statics) graph (.term term)) (typed : accepts (some .tuple) term = true) :
    ⟨.tuple, extractPtr term⟩ ∈ graph := by
  simp only [accepts, Bool.and_eq_true, decide_eq_true_eq] at typed
  obtain ⟨⟨⟨tag, notFalse⟩, -⟩, -⟩ := typed
  rcases good with (int | ⟨zero, -⟩ | ⟨other, -⟩ | ⟨other, -⟩ | ⟨other, -⟩) | ⟨form, named, member⟩
  · exact absurd (int.symm.trans tag) (by decide)
  · have same : term = OWL_FALSE := term_ext (zero.trans (by decide)) (tag.trans (by decide))
    exact absurd same notFalse
  · exact absurd (other.symm.trans tag) (by decide)
  · exact absurd (other.symm.trans tag) (by decide)
  · exact absurd (other.symm.trans tag) (by decide)
  · rw [tag] at named
    cases named
    exact member

/-- The end of an instruction: its result is put into a register. -/
theorem store_settled {reg : UInt8} {term : Term} {n : ℕ} {done : Unit}
    (run : (do setReg reg term; advance n : Exec World Unit) vm = .ok (done, vm'))
    (settled : vm.Settled host arena running graph) (good : Good (Atom host vm.statics) graph (.term term)) :
    vm'.Settled host arena running graph := by
  obtain ⟨_, vm₁, stored, moved⟩ := bind_eq_ok.mp run
  rw [setReg_run] at stored
  split at stored
  · cases stored
  · cases stored
    cases moved
    exact (settled.setRegister good).withIp _

theorem atom_int (statics : ℕ → Option StaticFunction) (word : UInt64) : Atom host statics (intFrom word) :=
  .inl (tagOf_tagAs word .int)

theorem atom_false (statics : ℕ → Option StaticFunction) : Atom host statics OWL_FALSE :=
  .inr (.inl ⟨by decide, by decide, by decide⟩)

theorem atom_true (statics : ℕ → Option StaticFunction) : Atom host statics OWL_TRUE :=
  .inr (.inl ⟨by decide, by decide, by decide⟩)

theorem atom_nil (statics : ℕ → Option StaticFunction) : Atom host statics OWL_NIL :=
  .inr (.inl ⟨by decide, by decide, by decide⟩)

theorem atom_bool (statics : ℕ → Option StaticFunction) (val : Bool) : Atom host statics (ofBool val) := by
  cases val
  · exact atom_false statics
  · exact atom_true statics

private theorem atom_negate (statics : ℕ → Option StaticFunction) (term : Term) : Atom host statics (negate term) := by
  rw [negate]
  split
  · exact atom_false statics
  · exact atom_true statics

variable {done : Unit} (settled : vm.Settled host arena True graph)

include settled

theorem opStoreInt_settled (run : opStoreInt vm = .ok (done, vm')) : vm'.Settled host arena True graph := by
  rw [opStoreInt, nextByte_bind] at run
  obtain ⟨val, vm₁, read, run⟩ := bind_eq_ok.mp run
  rw [nextInt, nextByte_bind, nextByte_bind] at read
  cases read
  exact store_settled run (settled.withIp _) (.inl (atom_int _ _))

theorem opPrint_settled (run : opPrint host vm = .ok (done, vm')) : vm'.Settled host arena True graph := by
  rw [opPrint, nextByte_bind] at run
  obtain ⟨term, vm₁, read, run⟩ := bind_eq_ok.mp run
  cases getVar_state read
  rw [get_bind] at run
  obtain ⟨world, _, lifted, finish⟩ := bind_eq_ok.mp run
  obtain ⟨-, rfl⟩ := lift_eq_ok.mp lifted
  cases finish
  exact ((settled.withIp _).withWorld world).withIp _

theorem opTest_settled (run : opTest vm = .ok (done, vm')) : vm'.Settled host arena True graph := by
  rw [opTest, nextByte_bind, nextByte_bind] at run
  obtain ⟨term, vm₁, read, run⟩ := bind_eq_ok.mp run
  cases getVar_state read
  split at run <;>
  · cases run
    exact settled.withIp _

theorem opBinary_settled {operation : Term → Term → Term}
    (atomic : ∀ left right, Atom host vm.statics (operation left right))
    (run : opBinary operation vm = .ok (done, vm')) : vm'.Settled host arena True graph := by
  rw [opBinary, nextByte_bind, nextByte_bind, nextByte_bind] at run
  dsimp only at run
  obtain ⟨left, vm₁, read, run⟩ := bind_eq_ok.mp run
  cases getVar_state read
  obtain ⟨right, vm₂, read', run⟩ := bind_eq_ok.mp run
  cases getVar_state read'
  exact store_settled run (settled.withIp _) (.inl (atomic left right))

theorem opMov_settled (run : opMov vm = .ok (done, vm')) : vm'.Settled host arena True graph := by
  rw [opMov, nextByte_bind, nextByte_bind] at run
  obtain ⟨term, vm₁, read, run⟩ := bind_eq_ok.mp run
  have good := (settled.withIp _).operand read
  cases getVar_state read
  exact store_settled run (settled.withIp _) good

theorem opJmp_settled (run : opJmp vm = .ok (done, vm')) : vm'.Settled host arena True graph := by
  rw [opJmp, nextByte_bind] at run
  cases run
  exact settled.withIp _

theorem opCompare_settled {answer : Bool → Bool} (run : opCompare host answer vm = .ok (done, vm')) :
    vm'.Settled host arena True graph := by
  rw [opCompare, nextByte_bind, nextByte_bind, nextByte_bind] at run
  dsimp only at run
  obtain ⟨left, vm₁, read, run⟩ := bind_eq_ok.mp run
  cases getVar_state read
  obtain ⟨right, vm₂, read', run⟩ := bind_eq_ok.mp run
  cases getVar_state read'
  rw [get_bind] at run
  obtain ⟨equal, vm₃, lifted, run⟩ := bind_eq_ok.mp run
  obtain ⟨-, rfl⟩ := lift_eq_ok.mp lifted
  exact store_settled run (settled.withIp _) (.inl (atom_bool _ _))

theorem opNot_settled (run : opNot vm = .ok (done, vm')) : vm'.Settled host arena True graph := by
  rw [opNot, nextByte_bind, nextByte_bind] at run
  obtain ⟨term, vm₁, read, run⟩ := bind_eq_ok.mp run
  cases getVar_state read
  exact store_settled run (settled.withIp _) (.inl (atom_negate _ _))

theorem opStore_settled {term : Term} (atomic : Atom host vm.statics term) (run : opStore term vm = .ok (done, vm')) :
    vm'.Settled host arena True graph := by
  rw [opStore, nextByte_bind] at run
  exact store_settled run (settled.withIp _) (.inl atomic)

variable (surrounds : host.Surrounds arena)

include surrounds

theorem opLoadString_settled (run : opLoadString host vm = .ok (done, vm')) : vm'.Settled host arena True graph := by
  rw [opLoadString, nextByte_bind, nextByte_bind, get_bind] at run
  refine store_settled run (settled.withIp _) (.inl (.inr (.inr (.inl ⟨tagOf_tagAs _ _, ?_⟩))))
  have text : host.IsText (host.lookupId vm.world .internPool (vm.code (vm.ip + 1 + 1)).toNat) :=
    .inr ⟨_, _, _, UInt8.toNat_lt _, rfl⟩
  rw [extractPtr_tagAs_ofNat (surrounds.texts _ text).2]
  exact text

omit surrounds in
/-- The elements of a tuple are good, and so is what stands in for a missing one. -/
private theorem tupleNth_good {tuple elem : Term} {index : UInt8} (member : ⟨.tuple, extractPtr tuple⟩ ∈ graph)
    (run : tupleNth tuple index vm = .ok (elem, vm')) : Good (Atom host vm.statics) graph (.term elem) := by
  rw [tupleNth, get_bind] at run
  split at run
  · next inside =>
    rw [← (pure_eq_ok.mp run).1]
    have slot : (⟨8 + 8 * index.toNat, false⟩ : Slot) ∈ vm.heap.slots ⟨.tuple, extractPtr tuple⟩ := by
      rw [Heap.slots, Heap.mem_slotsFrom]
      exact ⟨_, inside, rfl⟩
    have good := settled.laid.closed _ member _ slot
    rwa [show 8 + 8 * index.toNat = 8 * (index.toNat + 1) by omega] at good
  · rw [← (pure_eq_ok.mp run).1]
    exact .inl (atom_nil _)

omit surrounds in
theorem opTupleNth_settled (typed : accepts (some .tuple) (vm.operand (vm.code (vm.ip + 2))) = true)
    (run : opTupleNth vm = .ok (done, vm')) : vm'.Settled host arena True graph := by
  rw [opTupleNth, nextByte_bind, nextByte_bind, nextByte_bind] at run
  dsimp only at run
  obtain ⟨index, vm₁, read, run⟩ := bind_eq_ok.mp run
  cases getVar_state read
  obtain ⟨tuple, vm₂, read', run⟩ := bind_eq_ok.mp run
  have good := (settled.withIp _).operand read'
  have value := getVar_operand read'
  change tuple = vm.operand (vm.code (vm.ip + 2)) at value
  cases getVar_state read'
  rw [← value] at typed
  obtain ⟨elem, vm₃, found, run⟩ := bind_eq_ok.mp run
  have element := tupleNth_good (settled.withIp _) (good_tuple good typed) found
  cases tupleNth_state found
  exact store_settled run (settled.withIp _) element

theorem opFunctionName_settled (typed : accepts (some .function) (vm.operand (vm.code (vm.ip + 2))) = true)
    (run : opFunctionName vm = .ok (done, vm')) : vm'.Settled host arena True graph := by
  rw [opFunctionName, nextByte_bind, nextByte_bind] at run
  dsimp only at run
  obtain ⟨function, vm₁, read, run⟩ := bind_eq_ok.mp run
  have good := (settled.withIp _).operand read
  have value := getVar_operand read
  change function = vm.operand (vm.code (vm.ip + 2)) at value
  cases getVar_state read
  rw [← value] at typed
  simp only [accepts, Bool.and_eq_true, decide_eq_true_eq] at typed
  obtain ⟨name, vm₂, named, run⟩ := bind_eq_ok.mp run
  have text : host.IsText name := by
    rw [nameOf_run] at named
    rw [← (Prod.mk.inj (Except.ok.inj named)).1]
    dsimp only
    cases found : vm.statics (extractPtr function) with
    | some record => exact settled.records _ record found
    | none =>
      rcases good_function good typed.1.1.1 with record | member
      · dsimp only at record
        rw [found] at record
        contradiction
      · exact settled.named ⟨.function, extractPtr function⟩ member rfl
  rw [nameOf_run] at named
  obtain ⟨-, rfl⟩ := Prod.mk.inj (Except.ok.inj named)
  refine store_settled run (settled.withIp _) (.inl (.inr (.inr (.inl ⟨tagOf_tagAs _ _, ?_⟩))))
  rw [extractPtr_tagAs_ofNat (surrounds.texts _ text).2]
  exact text

end Owl.Runtime
