import Owl.Proofs.Runtime.Settling

/-! # Instructions that build objects

New objects lie behind all others. A tuple or a closure joins the graph when its words have been filled
in; the objects that library routines make join it when the routine returns.
-/

namespace Owl.Runtime

open StateExcept

variable {World : Type} {host : Host World} {arena : ℕ} {vm vm' : Vm World} {graph : Finset Object} {done : Unit}
  {running : Prop}

section Routines

variable (surrounds : host.Surrounds arena)

include surrounds

/-- A routine called on good terms of the right types returns a good term. -/
theorem call_settled {routine : Routine World} {kinds : List (Option Tag)} {result : Option Tag}
    (sound : RoutineSound host arena routine kinds result) {args : List Term} {term : Term}
    (run : call routine args vm = .ok (term, vm')) (settled : vm.Settled host arena running graph)
    (typed : List.Forall₂ (fun kind arg => accepts kind arg = true) kinds args)
    (good : ∀ arg ∈ args, Good (Atom host vm.statics) graph (.term arg)) :
    ∃ graph', graph ⊆ graph' ∧ vm'.Settled host arena running graph' ∧
      Good (Atom host vm'.statics) graph' (.term term) ∧ accepts result term = true ∧ vm'.statics = vm.statics := by
  obtain ⟨reply, heap, ran, allocated, rfl, rfl⟩ := call_eq_ok.mp run
  obtain ⟨graph', more, memory, made, kind⟩ := sound vm.memory graph vm.world args reply heap
    (settled.memory surrounds) typed good ran allocated
  have grown := settled.grown surrounds (allocBlocks_grows allocated) (allocBlocks_room allocated settled.room) more
    memory.laid fun object member _ function => memory.named object member function
  exact ⟨graph', more, grown.withWorld reply.world, made, kind, rfl⟩

omit surrounds in
/-- Operands are read one after the other. -/
private theorem getVars_settled : ∀ (n : ℕ) (vm vm' : Vm World) (terms : List Term), vm.Settled host arena True graph →
    getVars n vm = .ok (terms, vm') → vm' = { vm with ip := vm.ip + n } ∧
      terms = (List.range n).map (fun k => vm.operand (vm.code (vm.ip + 1 + k))) ∧
      ∀ term ∈ terms, Good (Atom host vm.statics) graph (.term term)
  | 0, vm, vm', terms, _, run => by
      obtain ⟨rfl, rfl⟩ := pure_eq_ok.mp run
      exact ⟨rfl, rfl, by simp⟩
  | n + 1, vm, vm', terms, settled, run => by
      rw [getVars, nextByte_bind] at run
      obtain ⟨term, vm₁, read, run⟩ := bind_eq_ok.mp run
      have good := (settled.withIp _).operand read
      have value := getVar_operand read
      cases getVar_state read
      obtain ⟨rest, vm₂, reads, finish⟩ := bind_eq_ok.mp run
      obtain ⟨rfl, rfl⟩ := pure_eq_ok.mp finish
      obtain ⟨rfl, values, others⟩ := getVars_settled n _ _ _ (settled.withIp _) reads
      refine ⟨by simp only [Nat.add_assoc, Nat.add_comm 1 n], ?_, List.forall_mem_cons.mpr ⟨good, others⟩⟩
      rw [List.range_succ_eq_map, List.map_cons, List.map_map, value, values]
      congr 1
      refine List.map_congr_left fun k _ => ?_
      change vm.operand (vm.code (vm.ip + 1 + 1 + k)) = vm.operand (vm.code (vm.ip + 1 + (k + 1)))
      rw [Nat.add_assoc (vm.ip + 1), Nat.add_comm 1 k]

/-- Instructions that call a routine. -/
theorem opRoutine_settled {routine : Routine World} {kinds : List (Option Tag)}
    (sound : RoutineSound host arena routine kinds none) (settled : vm.Settled host arena True graph)
    (typed : ∀ k kind, kinds[k]? = some kind → accepts kind (vm.operand (vm.code (vm.ip + 2 + k))) = true)
    (run : opRoutine routine kinds.length vm = .ok (done, vm')) : ∃ graph', vm'.Settled host arena True graph' := by
  rw [opRoutine, nextByte_bind] at run
  obtain ⟨args, vm₁, read, run⟩ := bind_eq_ok.mp run
  obtain ⟨rfl, values, good⟩ := getVars_settled _ _ _ _ (settled.withIp _) read
  obtain ⟨result, vm₂, called, run⟩ := bind_eq_ok.mp run
  have fits : List.Forall₂ (fun kind arg => accepts kind arg = true) kinds args := by
    rw [values, List.forall₂_iff_get]
    refine ⟨by simp, fun k left right => ?_⟩
    simp only [List.get_eq_getElem, List.getElem_map, List.getElem_range]
    exact typed k _ (List.getElem?_eq_getElem left)
  obtain ⟨graph', -, after, made, -, -⟩ :=
    call_settled surrounds sound called ((settled.withIp _).withIp _) fits good
  exact ⟨graph', store_settled run after made⟩

/-- The empty list is good. -/
theorem emptyList_good (statics : ℕ → Option StaticFunction) (graph : Finset Object) :
    Good (Atom host statics) graph (.term (tagAs (UInt64.ofNat host.emptyRrb) .list)) :=
  .inl (.inr (.inr (.inr (.inl ⟨tagOf_tagAs _ _, extractPtr_tagAs_ofNat surrounds.emptyRrb.2 _⟩))))

omit surrounds in
theorem accepts_tagAs (word : UInt64) {tag : Tag} (plain : tag.bits.toNat % 2 = 1) :
    accepts (some tag) (tagAs word tag) = true := by
  have odd : (tagAs word tag).toNat % 2 = 1 := by
    rw [tagAs_toNat]
    omega
  have other (constant : Term) (even : constant.toNat % 2 = 0) : tagAs word tag ≠ constant := by
    rintro same
    rw [same] at odd
    omega
  simp [accepts, other OWL_FALSE rfl, other OWL_TRUE rfl, other OWL_NIL rfl]

private theorem pushElements_settled (library : host.Library arena) : ∀ (n : ℕ) (graph : Finset Object) (list : Term)
    (vm vm' : Vm World) (result : Term), vm.Settled host arena True graph →
    Good (Atom host vm.statics) graph (.term list) → accepts (some .list) list = true →
    pushElements host n list vm = .ok (result, vm') →
    ∃ graph', vm'.Settled host arena True graph' ∧ Good (Atom host vm'.statics) graph' (.term result)
  | 0, graph, list, vm, vm', result, settled, good, _, run => by
      obtain ⟨rfl, rfl⟩ := pure_eq_ok.mp run
      exact ⟨graph, settled, good⟩
  | n + 1, graph, list, vm, vm', result, settled, good, kind, run => by
      rw [pushElements, nextByte_bind] at run
      obtain ⟨elem, vm₁, read, run⟩ := bind_eq_ok.mp run
      have element := (settled.withIp _).operand read
      cases getVar_state read
      obtain ⟨pushed, vm₂, called, run⟩ := bind_eq_ok.mp run
      obtain ⟨graph', -, after, made, kind', -⟩ := call_settled surrounds library.listPush called
        (settled.withIp _) (.cons kind (.cons rfl .nil))
        (List.forall_mem_cons.mpr ⟨good, List.forall_mem_cons.mpr ⟨element, by simp⟩⟩)
      exact pushElements_settled library n graph' pushed vm₂ vm' result after made kind' run

theorem opList_settled (library : host.Library arena) (settled : vm.Settled host arena True graph)
    (run : opList host vm = .ok (done, vm')) : ∃ graph', vm'.Settled host arena True graph' := by
  rw [opList, nextByte_bind, nextByte_bind] at run
  obtain ⟨list, vm₁, pushed, run⟩ := bind_eq_ok.mp run
  obtain ⟨graph', after, made⟩ := pushElements_settled surrounds library _ _ _ _ _ _ (settled.withIp _)
    (emptyList_good surrounds _ _) (accepts_tagAs _ rfl) pushed
  exact ⟨graph', store_settled run after made⟩

end Routines

/-- Captured terms are stored like the elements of a tuple. -/
private theorem captureUpvalues_eq (function : ℕ) : ∀ i n,
    (captureUpvalues function i n : Exec World Unit) = storeElements (upvalueAddress function i) n
  | _, 0 => rfl
  | i, n + 1 => by
      rw [captureUpvalues, storeElements]
      simp only [captureUpvalues_eq function (i + 1) n, Heap.setUpvalue]
      rfl

/-- Words that are stored behind all objects are good. -/
theorem storeElements_settled {start : Vm World} (surrounds : host.Surrounds arena)
    (settled : start.Settled host arena True graph) : ∀ (n address : ℕ) (ip : ℕ) (heap : Heap) (vm' : Vm World)
      (done : Unit),
    storeElements address n { start with ip, heap } = .ok (done, vm') → start.heap.Grows heap →
    heap.allocPtr ≤ start.heap.toSpace + start.heap.size / 2 → start.heap.allocPtr ≤ address →
    address + 8 * n ≤ heap.allocPtr →
    ∃ heap', vm' = { start with ip := ip + n, heap := heap' } ∧ start.heap.Grows heap' ∧
      heap'.allocPtr = heap.allocPtr ∧ (∀ i, i < address → heap'.mem i = heap.mem i) ∧
      ∀ k < n, Good (Atom host start.statics) graph (.term (heap'.readTerm (address + 8 * k)))
  | 0, address, ip, heap, vm', done, run, grows, _, _, _ => by
      obtain ⟨-, rfl⟩ := pure_eq_ok.mp run
      exact ⟨heap, rfl, grows, rfl, fun _ _ => rfl, fun k small => absurd small (Nat.not_lt_zero k)⟩
  | n + 1, address, ip, heap, vm', done, run, grows, room, lower, upper => by
      rw [storeElements, nextByte_bind] at run
      obtain ⟨elem, vm₁, read, run⟩ := bind_eq_ok.mp run
      have laid := settled.laid.grows (settled.divided surrounds) grows
      have current := settled.grown surrounds grows room (Finset.Subset.refl graph) laid
        fun object member new => absurd member new
      have good := (current.withIp _).operand read
      cases getVar_state read
      rw [modify_bind] at run
      have written : start.heap.Grows (heap.writeTerm address elem) := grows.writeTerm lower (by omega)
      obtain ⟨heap', rfl, grows', allocPtr, kept, words⟩ :=
        storeElements_settled surrounds settled n (address + 8) (ip + 1) _ vm' done run written room (by omega)
          (by simp only [Heap.writeTerm]; omega)
      refine ⟨heap', by simp only [Nat.add_assoc, Nat.add_comm 1 n], grows', allocPtr, fun i below => ?_,
        fun k small => ?_⟩
      · rw [kept i (by omega)]
        exact ByteMemory.writeBytes_outside (.inl below)
      · rcases k with _ | k
        · have word : heap'.readTerm address = elem := by
            rw [← Heap.readTerm_writeTerm heap address elem]
            exact congrArg UInt64.ofNat (ByteMemory.readNat_congr fun i _ below => kept i (by omega))
          rw [Nat.mul_zero, Nat.add_zero, word]
          exact good
        · rw [show address + 8 * (k + 1) = address + 8 + 8 * k by omega]
          exact words k (by omega)

/-- A new object behind all others joins the graph. -/
theorem Vm.Settled.build (surrounds : host.Surrounds arena) (settled : vm.Settled host arena running graph) {heap : Heap}
    (grows : vm.heap.Grows heap) (room : heap.allocPtr ≤ vm.heap.toSpace + vm.heap.size / 2) {form : Form}
    (held : heap.holds ⟨form, vm.heap.allocPtr + 1⟩ = true) (plain : form ≠ .node)
    (unmoved : heap.mem vm.heap.allocPtr = 0)
    (words : ∀ slot ∈ heap.slots ⟨form, vm.heap.allocPtr + 1⟩,
      Good (Atom host vm.statics) graph (heap.refAt (vm.heap.allocPtr + 1 + slot.offset) slot.isNode))
    (named : form = .function → host.IsText (heap.mem.readNat (vm.heap.allocPtr + 1 + 8) 8)) :
    ({ vm with heap } : Vm World).Settled host arena running (insert ⟨form, vm.heap.allocPtr + 1⟩ graph) := by
  have table : heap.table ⟨form, vm.heap.allocPtr + 1⟩ = 0 := by simp [Heap.table, plain]
  have fresh : ∀ i, heap.Owns ⟨form, vm.heap.allocPtr + 1⟩ i → vm.heap.allocPtr ≤ i := by
    rintro i (⟨lower, -⟩ | ⟨tabled, -⟩)
    · exact Nat.le_of_succ_le_succ lower
    · exact absurd table tabled
  refine settled.grown surrounds grows room (Finset.subset_insert _ _) ?_ ?_
  · exact settled.laid.join (settled.divided surrounds) (settled.away surrounds) grows room fresh held
      (absurd table) unmoved words
  · intro object member new function
    rcases Finset.mem_insert.mp member with rfl | old
    · exact named function
    · exact absurd old new

/-- A word of the graph that refers to the new object. -/
private theorem built_good {statics : ℕ → Option StaticFunction} {address : ℕ} (low : address < 2 ^ 61) {tag : Tag}
    {form : Form}
    (named : Form.ofTag tag.bits = some form) :
    Good (Atom host statics) (insert ⟨form, address⟩ graph) (.term (tagAs (UInt64.ofNat address) tag)) :=
  .inr ⟨form, by rw [tagOf_tagAs, named], by rw [extractPtr_tagAs_ofNat low]; exact Finset.mem_insert_self _ _⟩

theorem Vm.Settled.low (surrounds : host.Surrounds arena) (settled : vm.Settled host arena running graph) :
    vm.heap.allocPtr + 1 < 2 ^ 61 := by
  have divided := settled.divided surrounds
  have := divided.low
  have := divided.small
  have := divided.room
  omega

theorem opTuple_settled (surrounds : host.Surrounds arena) (settled : vm.Settled host arena True graph)
    (run : opTuple vm = .ok (done, vm')) : ∃ graph', vm'.Settled host arena True graph' := by
  rw [opTuple, nextByte_bind, nextByte_bind] at run
  dsimp only at run
  generalize vm.code (vm.ip + 1 + 1) = size at run
  obtain ⟨ary, vm₁, allocated, run⟩ := bind_eq_ok.mp run
  obtain ⟨heap, alloc, rfl⟩ := onHeap_ok allocated
  obtain ⟨rfl, next, room, grows, zero⟩ := owlAlloc_ok alloc
  have small := size.toNat_lt
  rw [align_eq (by omega)] at next
  dsimp only at next room grows zero run
  rw [modify_bind] at run
  obtain ⟨_, vm₂, stored, run⟩ := bind_eq_ok.mp run
  obtain ⟨heap', rfl, grows', allocPtr, kept, words⟩ := storeElements_settled surrounds settled _ _ _ _ _ _
    (fillTuple_ok stored).2
    (grows.writeTerm (by omega) (by omega)) room (by omega) (by simp only [Heap.writeTerm]; omega)
  have allocPtr : heap'.allocPtr = heap.allocPtr := allocPtr
  have count : heap'.mem.readNat (vm.heap.allocPtr + 1) 8 = size.toNat := by
    rw [ByteMemory.readNat_congr fun i _ upper => kept i (by omega)]
    simp only [Heap.writeTerm, ByteMemory.readNat_writeNat]
    rw [UInt8.toNat_toUInt64, Nat.mod_eq_of_lt (by omega)]
  have unmoved : heap'.mem vm.heap.allocPtr = 0 := by
    rw [kept _ (by omega), ← zero vm.heap.allocPtr (Nat.le_refl _) (by omega)]
    exact ByteMemory.writeBytes_outside (by omega)
  have held : heap'.holds ⟨.tuple, vm.heap.allocPtr + 1⟩ = true := by
    rw [Heap.holds_iff]
    have start := settled.placed.allocPtr
    simp only [Heap.extent, count, Heap.table, grows'.toSpace]
    exact ⟨by omega, by omega, fun tabled => absurd rfl tabled⟩
  have closed : ∀ slot ∈ heap'.slots ⟨.tuple, vm.heap.allocPtr + 1⟩,
      Good (Atom host vm.statics) graph (heap'.refAt (vm.heap.allocPtr + 1 + slot.offset) slot.isNode) := by
    intro slot member
    simp only [Heap.slots, count] at member
    obtain ⟨k, inside, rfl⟩ := Heap.mem_slotsFrom.mp member
    have word := words k inside
    rwa [Nat.add_assoc _ 8] at word
  have built := settled.build surrounds grows' (by rw [allocPtr]; exact room) held (by decide) unmoved closed
    (by intro other; cases other)
  exact ⟨_, store_settled run (built.withIp _) (built_good (settled.low surrounds) rfl)⟩

private theorem anonFunctionInit_fresh {heap heap' : Heap} {name location function : ℕ} {nUpvalues : UInt8}
    (allocated : heap.anonFunctionInit name location nUpvalues = .ok (function, heap')) :
    heap'.mem heap.allocPtr = 0 ∧ heap'.mem.readNat (function + 8) 8 = name % 2 ^ 64 := by
  simp only [Heap.anonFunctionInit, Except.bind_eq_ok, Prod.exists, Except.pure_eq_ok,
    Prod.mk.injEq] at allocated
  obtain ⟨object, middle, alloc, rfl, rfl⟩ := allocated
  obtain ⟨rfl, next, -, -, zero⟩ := owlAlloc_ok alloc
  dsimp only
  constructor
  · rw [ByteMemory.writeBytes_outside (.inl (by omega)), ByteMemory.writeNat,
      ByteMemory.writeBytes_outside (.inl (by omega)), ByteMemory.writeNat,
      ByteMemory.writeBytes_outside (.inl (Nat.lt_succ_self _))]
    exact zero _ (Nat.le_refl _) (by omega)
  · rw [ByteMemory.readNat_congr (ByteMemory.writeBytes_agreeOn (.inl (by omega))), ByteMemory.readNat_writeNat]
    norm_num

theorem opAnonFn_settled (surrounds : host.Surrounds arena) (settled : vm.Settled host arena True graph)
    (run : opAnonFn host vm = .ok (done, vm')) : ∃ graph', vm'.Settled host arena True graph' := by
  rw [opAnonFn, nextByte_bind, nextByte_bind, discardByte_bind, nextByte_bind, get_bind] at run
  dsimp only at run
  generalize vm.code (vm.ip + 1 + 1 + 1 + 1) = nUpvals at run
  obtain ⟨function, vm₁, initialised, run⟩ := bind_eq_ok.mp run
  obtain ⟨heap, allocated, rfl⟩ := onHeap_ok initialised
  obtain ⟨unmoved, name⟩ := anonFunctionInit_fresh allocated
  obtain ⟨rfl, grows, inside, room, -, count⟩ := anonFunctionInit_ok allocated
  rw [upvalueAddress_eq] at inside
  dsimp only at unmoved grows inside room count name run
  obtain ⟨_, vm₂, captured, run⟩ := bind_eq_ok.mp run
  rw [captureUpvalues_eq] at captured
  obtain ⟨heap', rfl, grows', allocPtr, kept, words⟩ := storeElements_settled surrounds settled _ _ _ _ _ _ captured
    grows room (by rw [upvalueAddress_eq]; omega) (by rw [upvalueAddress_eq]; omega)
  rw [upvalueAddress_eq] at kept words
  have count : heap'.nUpvalues (vm.heap.allocPtr + 1) = nUpvals.toNat := by
    rw [← count, Heap.nUpvalues, kept _ (by omega)]
    rfl
  have held : heap'.holds ⟨.function, vm.heap.allocPtr + 1⟩ = true := by
    rw [Heap.holds_iff]
    have start := settled.placed.allocPtr
    simp only [Heap.extent, count, Heap.table, grows'.toSpace, sizeofFunction]
    exact ⟨by omega, by omega, fun tabled => absurd rfl tabled⟩
  have closed : ∀ slot ∈ heap'.slots ⟨.function, vm.heap.allocPtr + 1⟩,
      Good (Atom host vm.statics) graph (heap'.refAt (vm.heap.allocPtr + 1 + slot.offset) slot.isNode) := by
    intro slot member
    simp only [Heap.slots, count] at member
    obtain ⟨k, inside, rfl⟩ := Heap.mem_slotsFrom.mp member
    have word := words k inside
    rwa [Nat.mul_zero, Nat.add_zero, Nat.add_assoc _ 24] at word
  have named : heap'.mem.readNat (vm.heap.allocPtr + 1 + 8) 8 = host.literal (bytes "Anonymous") := by
    have text := (surrounds.texts _ (host.isText_literal (.head _))).2
    rw [ByteMemory.readNat_congr fun i _ upper => kept i (by omega), name, Nat.mod_eq_of_lt (by omega)]
  have built := settled.build surrounds grows' (by rw [allocPtr]; exact room) held (by decide)
    (by rw [kept _ (by omega)]; exact unmoved) closed fun _ => named ▸ host.isText_literal (.head _)
  exact ⟨_, store_settled run (built.withIp _) (built_good (settled.low surrounds) rfl)⟩

/-- A loader whose machine is settled and whose list of functions is good. -/
def Loader.Settled (host : Host World) (arena : ℕ) (running : Prop) (loader : Loader World) : Prop :=
  accepts (some .list) loader.functionList = true ∧ ∃ graph, loader.vm.Settled host arena running graph ∧
    Good (Atom host loader.vm.statics) graph (.term loader.functionList)

/-- Loading keeps a loader settled. -/
def Loader.StaysSettled (host : Host World) (arena : ℕ) (running : Prop) (loader loader' : Loader World) : Prop :=
  loader.Settled host arena running → loader'.Settled host arena running

instance : Std.Refl (Loader.StaysSettled host arena running) := ⟨fun _ => id⟩

instance : IsTrans (Loader World) (Loader.StaysSettled host arena running) := ⟨fun _ _ _ first second => second ∘ first⟩

/-- A record is added to those outside the heap. -/
private theorem Vm.Settled.withRecord (settled : vm.Settled host arena running graph) (record : StaticFunction)
    (text : host.IsText record.name) :
    ({ vm with
      world := (host.malloc vm.world).2
      statics := Function.update vm.statics (host.malloc vm.world).1 (some record) } : Vm World).Settled
        host arena running graph := by
  have more (address : ℕ) (held : (vm.statics address).isSome) :
      (Function.update vm.statics (host.malloc vm.world).1 (some record) address).isSome := by
    by_cases here : address = (host.malloc vm.world).1 <;> simp [here, held]
  have atoms (term : Term) (self : Atom host vm.statics term) :
      Atom host (Function.update vm.statics (host.malloc vm.world).1 (some record)) term := self.mono more
  refine ⟨⟨settled.placed.size, settled.placed.spaces, settled.placed.allocPtr, fun address held => ?_⟩, settled.room,
    settled.laid.atoms atoms, fun i live j inside => (settled.registers i live j inside).atoms _ atoms,
    settled.above, fun runs => (settled.function runs).imp_right (Or.imp_left (more _)), fun id =>
      (settled.entries id).imp_right (more _),
    fun address record' found => ?_, settled.named⟩
  · by_cases here : address = (host.malloc vm.world).1
    · exact ⟨vm.world, here.symm⟩
    · exact settled.placed.statics address (by simpa [here] using held)
  · by_cases here : address = (host.malloc vm.world).1
    · simp only [here, Function.update_self, Option.some.injEq] at found
      rwa [← found]
    · exact settled.records address record' (by simpa [here] using found)

section Loading

variable (surrounds : host.Surrounds arena) (library : host.Library arena)

include surrounds library

private theorem publish_settled {id : ℕ} (small : id < 256) :
    Preserves (Loader.StaysSettled host arena running) (publish host id) := by
  refine .get_bind fun loader _ loader' done before => ?_
  obtain ⟨kind, graph, settled, good⟩ := before
  obtain ⟨⟨functionList, vm⟩, _, lifted, finish⟩ := bind_eq_ok.mp done
  obtain ⟨pushed, rfl⟩ := lift_eq_ok.mp lifted
  cases finish
  have text : host.IsText (host.lookupId loader.vm.world .functionNames id) := .inr ⟨_, _, id, small, rfl⟩
  have recorded := settled.withRecord ⟨loader.codePtr, _⟩ text
  have held : (Function.update loader.vm.statics (host.malloc loader.vm.world).1
      (some ⟨loader.codePtr, host.lookupId loader.vm.world .functionNames id⟩)
      (host.malloc loader.vm.world).1).isSome := by simp
  have record := (surrounds.records _ ⟨loader.vm.world, rfl⟩).2
  have function : Atom host (Function.update loader.vm.statics (host.malloc loader.vm.world).1
      (some ⟨loader.codePtr, host.lookupId loader.vm.world .functionNames id⟩))
      (tagAs (UInt64.ofNat (host.malloc loader.vm.world).1) .function) := by
    refine .inr (.inr (.inr (.inr ⟨tagOf_tagAs _ _, ?_⟩)))
    rw [extractPtr_tagAs_ofNat record]
    exact held
  have list : Good (Atom host (Function.update loader.vm.statics (host.malloc loader.vm.world).1
      (some ⟨loader.codePtr, host.lookupId loader.vm.world .functionNames id⟩))) graph (.term loader.functionList) := by
    refine good.atoms _ fun term self => self.mono fun address held => ?_
    by_cases here : address = (host.malloc loader.vm.world).1 <;> simp [here, held]
  obtain ⟨graph', -, after, made, kind', same⟩ := call_settled surrounds library.listPush pushed recorded
    (.cons kind (.cons rfl .nil))
    (List.forall_mem_cons.mpr ⟨list, List.forall_mem_cons.mpr ⟨.inl function, by simp⟩⟩)
  refine ⟨kind', graph', ?_, made⟩
  refine ⟨⟨after.placed.size, after.placed.spaces, after.placed.allocPtr, after.placed.statics⟩, after.room, after.laid,
    after.registers, after.above, after.function, fun id' => ?_, after.records, after.named⟩
  by_cases here : id' = id
  · right
    subst here
    dsimp only
    rw [Function.update_self, same]
    exact held
  · have entry := after.entries id'
    simpa [here] using entry

private theorem roundKeeps_settled : RoundKeeps host (Loader.StaysSettled host arena running) where
  scanner _ _ := id
  code _ _ _ _ := by
    rintro ⟨kind, graph, settled, good⟩
    exact ⟨kind, graph, settled.same rfl rfl rfl rfl rfl fun _ _ => rfl, good⟩
  world _ world := by
    rintro ⟨kind, graph, settled, good⟩
    exact ⟨kind, graph, settled.withWorld world, good⟩
  publish id small := publish_settled surrounds library (small.trans (by decide))

theorem loadModule_settled {bytecode : Bytes} {list : Term} (settled : vm.Settled host arena running graph)
    (run : loadModule host bytecode vm = .ok (list, vm')) :
    ∃ graph', vm'.Settled host arena running graph' ∧ Good (Atom host vm'.statics) graph' (.term list) := by
  rw [loadModule, get_bind] at run
  obtain ⟨⟨_, loader⟩, _, lifted, finish⟩ := bind_eq_ok.mp run
  obtain ⟨loaded, rfl⟩ := lift_eq_ok.mp lifted
  cases finish
  have after := loadLoop_keeps (roundKeeps_settled surrounds library) _ _ _ _ loaded
    ⟨accepts_tagAs _ rfl, graph, settled, emptyList_good surrounds _ _⟩
  exact after.2

private theorem loadModuleNamed_settled {moduleName : Bytes} (settled : vm.Settled host arena running graph)
    (run : loadModuleNamed host moduleName vm = .ok (done, vm')) : ∃ graph', vm'.Settled host arena running graph' := by
  rw [loadModuleNamed, get_bind] at run
  generalize host.moduleFile vm.world moduleName = file at run
  cases file with
  | none =>
    obtain ⟨-, rfl⟩ := pure_eq_ok.mp run
    exact ⟨graph, settled⟩
  | some bytecode =>
    have run : (loadModule host bytecode >>= fun _ => pure ()) vm = .ok (done, vm') := run
    obtain ⟨list, vm₁, loaded, finish⟩ := bind_eq_ok.mp run
    obtain ⟨-, rfl⟩ := pure_eq_ok.mp finish
    obtain ⟨graph', after, -⟩ := loadModule_settled surrounds library settled loaded
    exact ⟨graph', after⟩

omit surrounds library in
theorem functionEntry_ok {functionId : UInt8} {function : ℕ} (run : functionEntry functionId vm = .ok (function, vm')) :
    vm' = vm ∧ function = vm.functions functionId.toNat := by
  rw [functionEntry, get_bind] at run
  split at run
  · obtain ⟨rfl, rfl⟩ := pure_eq_ok.mp run
    exact ⟨rfl, rfl⟩
  · cases run

/-- A function that has been found is a record outside the heap. -/
theorem loadFunction_settled {functionId : UInt8} {function : ℕ} (settled : vm.Settled host arena running graph)
    (run : loadFunction host functionId vm = .ok (function, vm')) :
    ∃ graph', vm'.Settled host arena running graph' ∧ (vm'.statics function).isSome := by
  rw [loadFunction] at run
  obtain ⟨first, vm₁, entry, run⟩ := bind_eq_ok.mp run
  obtain ⟨rfl, rfl⟩ := functionEntry_ok entry
  split at run
  · next known =>
    obtain ⟨rfl, rfl⟩ := pure_eq_ok.mp run
    exact ⟨graph, settled, (settled.entries _).resolve_left known⟩
  · rw [get_bind] at run
    obtain ⟨_, vm₂, loaded, run⟩ := bind_eq_ok.mp run
    obtain ⟨graph', after⟩ := loadModuleNamed_settled surrounds library settled loaded
    obtain ⟨second, vm₃, entry', run⟩ := bind_eq_ok.mp run
    obtain ⟨rfl, rfl⟩ := functionEntry_ok entry'
    split at run
    · next known =>
      obtain ⟨rfl, rfl⟩ := pure_eq_ok.mp run
      exact ⟨graph', after, (after.entries _).resolve_left known⟩
    · cases run

theorem opCapture_settled (settled : vm.Settled host arena True graph) (run : opCapture host vm = .ok (done, vm')) :
    ∃ graph', vm'.Settled host arena True graph' := by
  rw [opCapture, nextByte_bind, nextByte_bind] at run
  obtain ⟨function, vm₁, found, run⟩ := bind_eq_ok.mp run
  obtain ⟨graph', after, record⟩ := loadFunction_settled surrounds library (settled.withIp _) found
  refine ⟨graph', store_settled run after (.inl (.inr (.inr (.inr (.inr ⟨tagOf_tagAs _ _, ?_⟩)))))⟩
  rwa [extractPtr_tagAs_ofNat (surrounds.records _ (after.placed.statics _ record)).2]

theorem opCodeLoad_settled (settled : vm.Settled host arena True graph) (run : opCodeLoad host vm = .ok (done, vm')) :
    ∃ graph', vm'.Settled host arena True graph' := by
  rw [opCodeLoad, nextByte_bind, nextByte_bind] at run
  obtain ⟨filename, vm₁, read, run⟩ := bind_eq_ok.mp run
  cases getVar_state read
  rw [get_bind] at run
  obtain ⟨list, vm₂, loaded, run⟩ := bind_eq_ok.mp run
  obtain ⟨graph', after, good⟩ := loadModule_settled surrounds library (settled.withIp _) loaded
  exact ⟨graph', store_settled run after good⟩

end Loading

end Owl.Runtime
