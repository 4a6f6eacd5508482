import Owl.Model.Runtime.Library
import Owl.Proofs.Runtime.Building
import Owl.ToMathlib.Worlds

/-! # Memory of the runtime library

A routine allocates block after block. What it drops again changes nothing; each of the others is an object when
it has been written: a text up to its terminator, a leaf, an inner node behind its size table, or the head of a list.
-/

namespace Owl.Runtime

open StateExcept

variable {World : Type} {host : Host World} {arena : ℕ} {statics : ℕ → Option StaticFunction}
  {start heap heap' : Heap} {graph : Finset Object} {scratch : Heap → List Bytes} {block : Bytes} {address : ℕ}

namespace Memory.Settled

variable (settled : Memory.Settled host arena graph ⟨heap, statics⟩)

include settled

theorem away (surrounds : host.Surrounds arena) : heap.AtomsAway (Atom host statics) :=
  surrounds.atomsAway settled.statics settled.size settled.spaces

private theorem lt_two_pow {n : ℕ} (inside : n ≤ heap.allocPtr) : n < 2 ^ 61 := by
  have low := settled.divided.low
  have small := settled.divided.small
  have room := settled.divided.room
  dsimp only at low small room
  omega

theorem object_lt {object : Object} (member : object ∈ graph) : object.address < 2 ^ 61 := by
  have held := (Heap.holds_iff.mp (settled.laid.held object member)).2.1
  exact settled.lt_two_pow ((Nat.le_add_right _ _).trans held)

/-- The words that an object holds. -/
theorem closed {object : Object} (member : object ∈ graph) {slot : Slot} (inside : slot ∈ heap.slots object) :
    Good (Atom host statics) graph (heap.refAt (object.address + slot.offset) slot.isNode) :=
  settled.laid.closed object member slot inside

/-- Functions keep their names while the heap grows. -/
private theorem named_grows (grows : heap.Grows heap') {object : Object} (member : object ∈ graph)
    (function : object.form = .function) : host.IsText (heap'.mem.readNat (object.address + 8) 8) := by
  have agrees := grows.agreesOn settled.divided.bounded (settled.laid.held object member)
  have extent : 24 ≤ heap.extent object := by simp [Heap.extent, function, sizeofFunction]
  rw [agrees.readNat 8 8 (by omega)]
  exact settled.named object member function

/-- Blocks that are dropped again change nothing. -/
theorem grows (grows : heap.Grows heap') (room : heap'.allocPtr ≤ heap.toSpace + heap.size / 2) :
    Memory.Settled host arena graph ⟨heap', statics⟩ where
  statics := settled.statics
  divided := settled.divided.grows grows room
  size := grows.size.trans settled.size
  spaces := by
    have spaces := settled.spaces
    dsimp only at spaces ⊢
    rw [grows.toSpace, grows.fromSpace, spaces]
  laid := settled.laid.grows settled.divided grows
  records := settled.records
  named _ member function := settled.named_grows grows member function

/-- A new object joins the graph. -/
theorem join (surrounds : host.Surrounds arena) (grows : heap.Grows heap')
    (room : heap'.allocPtr ≤ heap.toSpace + heap.size / 2) {object : Object}
    (fresh : ∀ i, heap'.Owns object i → heap.allocPtr ≤ i) (held : heap'.holds object = true)
    (table : heap'.table object ≠ 0 →
      heap'.table object + Heap.tableExtent (heap'.nodeLen object.address) < object.address ∨
        object.address + heap'.extent object < heap'.table object)
    (unmoved : heap'.mem (object.address - 1) = 0) (plain : object.form ≠ .function)
    (closed : ∀ slot ∈ heap'.slots object,
      Good (Atom host statics) graph (heap'.refAt (object.address + slot.offset) slot.isNode)) :
    Memory.Settled host arena (insert object graph) ⟨heap', statics⟩ where
  statics := settled.statics
  divided := settled.divided.grows grows room
  size := grows.size.trans settled.size
  spaces := (settled.grows grows room).spaces
  laid := settled.laid.join settled.divided (settled.away surrounds) grows room fresh held table unmoved closed
  records := settled.records
  named other member function := by
    rcases Finset.mem_insert.mp member with rfl | old
    · exact absurd function plain
    · exact settled.named_grows grows old function

end Memory.Settled

/-- A block that has been allocated and written, in memory that has grown. -/
structure Allocated (heap heap' : Heap) (address : ℕ) (block : Bytes) : Prop where
  grows : heap.Grows heap'
  room : heap'.allocPtr ≤ heap.toSpace + heap.size / 2
  fresh : heap.allocPtr < address
  within : address + (block.length + 7) / 8 * 8 ≤ heap'.allocPtr
  flag : heap'.mem (address - 1) = 0
  bytes : heap'.mem.readBytes address block.length = block

/-- Blocks are allocated one after the other. -/
private theorem allocBlocks_append {blocks more : List Bytes} {middle : Heap} (first : heap.allocBlocks blocks = .ok middle)
    (second : middle.allocBlocks more = .ok heap') : heap.allocBlocks (blocks ++ more) = .ok heap' := by
  induction blocks generalizing heap with
  | nil =>
    cases first
    exact second
  | cons block blocks ih =>
    simp only [Heap.allocBlocks, Except.bind_eq_ok, Prod.exists, List.cons_append] at first ⊢
    obtain ⟨object, next, one, rest⟩ := first
    refine ⟨object, next, one, ?_⟩
    split at rest
    · contradiction
    · next fits =>
      rw [if_neg fits]
      exact ih rest

private theorem Allocating.allocAll_ok {blocks : List Bytes} {state state' : Heap × List Bytes} {done : Unit}
    (run : Allocating.allocAll blocks state = .ok (done, state')) :
    state.1.allocBlocks blocks = .ok state'.1 ∧ state'.2 = state.2 ++ blocks := by
  rw [Allocating.allocAll, get_bind] at run
  obtain ⟨middle, _, lifted, finish⟩ := bind_eq_ok.mp run
  obtain ⟨allocated, rfl⟩ := lift_eq_ok.mp lifted
  cases finish
  exact ⟨allocated, rfl⟩

/-- The blocks have been allocated, and memory is laid out as a graph. -/
structure Reached (host : Host World) (arena : ℕ) (statics : ℕ → Option StaticFunction) (start : Heap)
    (graph : Finset Object) (state : Heap × List Bytes) : Prop where
  blocks : start.allocBlocks state.2 = .ok state.1
  settled : Memory.Settled host arena graph ⟨state.1, statics⟩

/-- An allocation, when nothing has joined the graph yet. -/
theorem Reached.alloc {state state' : Heap × List Bytes} (reached : Reached host arena statics start graph state)
    (run : Allocating.alloc scratch block state = .ok (address, state')) :
    Allocated state.1 state'.1 address block ∧ start.allocBlocks state'.2 = .ok state'.1 := by
  rw [Allocating.alloc, get_bind] at run
  obtain ⟨_, first, dropped, run⟩ := bind_eq_ok.mp run
  rw [get_bind] at run
  obtain ⟨_, second, kept, finish⟩ := bind_eq_ok.mp run
  obtain ⟨rfl, rfl⟩ := pure_eq_ok.mp finish
  obtain ⟨dropped, earlier⟩ := Allocating.allocAll_ok dropped
  obtain ⟨kept, later⟩ := Allocating.allocAll_ok kept
  have room := allocBlocks_room dropped reached.settled.divided.room
  have grows := allocBlocks_grows dropped
  have room' := allocBlocks_room kept (by rw [grows.toSpace, grows.size]; exact room)
  rw [grows.toSpace, grows.size] at room'
  obtain ⟨last, done, grown, next, fits, flag, bytes⟩ := allocBlocks_cons kept
  cases done
  have halves := reached.settled.divided.start
  have small := reached.settled.divided.small
  have more := grows.allocPtr
  dsimp only at halves small
  rw [align_eq (by omega)] at next fits
  refine ⟨⟨grows.trans grown, room', by omega, by omega, by simpa using flag, bytes⟩, ?_⟩
  rw [later, earlier]
  exact allocBlocks_append (allocBlocks_append reached.blocks dropped) kept

theorem Reached.grows {state state' : Heap × List Bytes} (reached : Reached host arena statics start graph state)
    (allocated : Allocated state.1 state'.1 address block) (blocks : start.allocBlocks state'.2 = .ok state'.1) :
    Reached host arena statics start graph state' :=
  ⟨blocks, reached.settled.grows allocated.grows allocated.room⟩


section Objects

variable (surrounds : host.Surrounds arena) (settled : Memory.Settled host arena graph ⟨heap, statics⟩)

include surrounds settled

/-- An object without a size table that fills a block. -/
theorem Memory.Settled.join_block (allocated : Allocated heap heap' address block) {form : Form}
    (plain : form ≠ .function) (table : heap'.table ⟨form, address⟩ = 0)
    (extent : heap'.extent ⟨form, address⟩ ≤ (block.length + 7) / 8 * 8)
    (closed : ∀ slot ∈ heap'.slots ⟨form, address⟩,
      Good (Atom host statics) graph (heap'.refAt (address + slot.offset) slot.isNode)) :
    Memory.Settled host arena (insert ⟨form, address⟩ graph) ⟨heap', statics⟩ := by
  have fresh := allocated.fresh
  have within := allocated.within
  have lower := settled.divided.start
  dsimp only at lower
  refine settled.join surrounds allocated.grows allocated.room ?_ ?_ (absurd table) allocated.flag plain closed
  · rintro i (⟨above, -⟩ | ⟨tabled, -⟩)
    · dsimp only at above
      omega
    · exact absurd table tabled
  · rw [Heap.holds_iff, allocated.grows.toSpace]
    exact ⟨by dsimp only; omega, by dsimp only; omega, fun tabled => absurd table tabled⟩

/-- A text with its terminator. -/
private theorem Memory.Settled.join_text (allocated : Allocated heap heap' address block) (stops : 0 ∈ block) :
    Memory.Settled host arena (insert ⟨.string, address⟩ graph) ⟨heap', statics⟩ := by
  have short : heap'.textLength address < block.length := by
    have bounded : block.length < heap'.size := by
      have within := allocated.within
      have room := allocated.room
      have fresh := allocated.fresh
      have start := settled.divided.start
      rw [allocated.grows.size]
      dsimp only at start
      omega
    have byte (i : ℕ) (inside : i < block.length) : heap'.mem (address + i) = block[i] := by
      have read : (heap'.mem.readBytes address block.length)[i]? = some (heap'.mem (address + i)) :=
        ByteMemory.readBytes_getElem? inside
      rw [allocated.bytes, List.getElem?_eq_getElem inside] at read
      exact (Option.some.inj read).symm
    obtain ⟨i, inside, zero⟩ := List.getElem_of_mem stops
    have ends : ∃ i, i < block.length ∧ heap'.mem (address + i) = 0 := ⟨i, inside, by rw [byte i inside, zero]⟩
    have length : heap'.textLength address = Nat.find ends := by
      rw [Heap.textLength_eq_iff ((Nat.find_spec ends).1.trans bounded)]
      refine ⟨fun k below stop => Nat.find_min ends below ⟨?_, stop⟩, (Nat.find_spec ends).2⟩
      exact below.trans (Nat.find_spec ends).1
    rw [length]
    exact (Nat.find_spec ends).1
  refine settled.join_block surrounds allocated (by decide) (by simp [Heap.table]) ?_ (by simp [Heap.slots])
  simp only [Heap.extent]
  omega

omit settled surrounds in
/-- A leaf that has been written is read back. -/
private theorem leafBlock_read {child : List Term} (few : child.length < 2 ^ 32)
    (written : heap.mem.readBytes address (leafBlock child).length = leafBlock child) :
    heap.isLeaf address = true ∧ heap.nodeLen address = child.length ∧ ∀ k (inside : k < child.length),
      heap.readTerm (address + (Heap.sizeofLeafNode + 8 * k)) = child[k] := by
  obtain ⟨header, elements⟩ := ByteMemory.readBytes_eq_append written
  obtain ⟨header, -⟩ := ByteMemory.readBytes_eq_append header
  obtain ⟨type, len⟩ := ByteMemory.readBytes_eq_append header
  have type := ByteMemory.readNat_of_littleEndian type
  have len := ByteMemory.readNat_of_littleEndian len
  simp only [List.length_append, littleEndian_length] at type len elements
  refine ⟨by simp [Heap.isLeaf, type], ?_, fun k inside => ?_⟩
  · rw [Heap.nodeLen, len]
    exact Nat.mod_eq_of_lt few
  · have word := ByteMemory.readNat_flatMap elements inside
    rw [show 256 ^ 8 = 2 ^ 64 by norm_num, Nat.mod_eq_of_lt child[k].toNat_lt] at word
    rw [Heap.readTerm, ← Nat.add_assoc]
    exact (congrArg UInt64.ofNat word).trans UInt64.ofNat_toNat

omit settled surrounds in
/-- An inner node that has been written is read back. -/
private theorem internalBlock_read {table : ℕ} {child : List ℕ} (few : child.length < 2 ^ 32) (low : table < 2 ^ 61)
    (small : ∀ node ∈ child, node < 2 ^ 61)
    (written : heap.mem.readBytes address (internalBlock table child).length = internalBlock table child) :
    heap.isLeaf address = false ∧ heap.nodeLen address = child.length ∧ heap.table ⟨.node, address⟩ = table ∧
      ∀ k (inside : k < child.length),
        heap.mem.readNat (address + (Heap.sizeofInternalNode + 8 * k)) 8 = child[k] := by
  obtain ⟨header, nodes⟩ := ByteMemory.readBytes_eq_append written
  obtain ⟨header, tableWord⟩ := ByteMemory.readBytes_eq_append header
  obtain ⟨header, -⟩ := ByteMemory.readBytes_eq_append header
  obtain ⟨type, len⟩ := ByteMemory.readBytes_eq_append header
  have type := ByteMemory.readNat_of_littleEndian type
  have len := ByteMemory.readNat_of_littleEndian len
  have tableWord := ByteMemory.readNat_of_littleEndian tableWord
  simp only [List.length_append, littleEndian_length] at type len tableWord nodes
  have isLeaf : heap.isLeaf address = false := by simp [Heap.isLeaf, type]
  refine ⟨isLeaf, ?_, ?_, fun k inside => ?_⟩
  · rw [Heap.nodeLen, len]
    exact Nat.mod_eq_of_lt few
  · simp only [Heap.table, isLeaf]
    exact tableWord.trans (Nat.mod_eq_of_lt (by omega))
  · have word := ByteMemory.readNat_flatMap nodes inside
    have bounded := small _ (List.getElem_mem inside)
    rw [Nat.mod_eq_of_lt (by omega), Nat.add_assoc] at word
    rw [show Heap.sizeofInternalNode + 8 * k = 4 + 4 + 8 + 8 + 8 * k from rfl, word]

/-- A leaf of good elements. -/
private theorem Memory.Settled.join_leaf {child : List Term} (allocated : Allocated heap heap' address (leafBlock child))
    (good : ∀ elem ∈ child, Good (Atom host statics) graph (.term elem)) :
    Memory.Settled host arena (insert ⟨.node, address⟩ graph) ⟨heap', statics⟩ := by
  have length : (leafBlock child).length = 16 + 8 * child.length := by
    simp only [leafBlock, List.length_append, littleEndian_length, List.length_flatMap, List.map_const',
      List.sum_replicate_nat]
    omega
  have few : child.length < 2 ^ 32 := by
    have within := allocated.within
    have room := allocated.room
    have fresh := allocated.fresh
    have start := settled.divided.start
    have small := settled.divided.small
    dsimp only at start small
    omega
  obtain ⟨isLeaf, nodeLen, elements⟩ := leafBlock_read few allocated.bytes
  refine settled.join_block surrounds allocated (by decide) (by simp [Heap.table, isLeaf]) ?_ ?_
  · simp only [Heap.extent, isLeaf, if_true, nodeLen, Heap.sizeofLeafNode, length]
    omega
  · intro slot member
    simp only [Heap.slots, isLeaf, if_true, nodeLen] at member
    obtain ⟨k, inside, rfl⟩ := Heap.mem_slotsFrom.mp member
    rw [Heap.refAt, if_neg Bool.false_ne_true, elements k inside]
    exact good _ (List.getElem_mem inside)

/-- An inner node, with a size table that has been allocated before it. -/
private theorem Memory.Settled.join_internal {middle : Heap} {table : ℕ} {child : List ℕ}
    (before : heap.Grows middle) (sized : table ≠ 0 → heap.allocPtr < table ∧
      table + Heap.tableExtent child.length ≤ middle.allocPtr)
    (allocated : Allocated middle heap' address (internalBlock table child))
    (room : heap'.allocPtr ≤ heap.toSpace + heap.size / 2)
    (good : ∀ node ∈ child, ⟨.node, node⟩ ∈ graph) :
    Memory.Settled host arena (insert ⟨.node, address⟩ graph) ⟨heap', statics⟩ := by
  have grows := before.trans allocated.grows
  have grown := allocated.grows.allocPtr
  have more := before.allocPtr
  have fresh := allocated.fresh
  have within := allocated.within
  have start := settled.divided.start
  have low := settled.divided.low
  have half := settled.divided.small
  dsimp only at start low half
  have length : (internalBlock table child).length = 24 + 8 * child.length := by
    simp only [internalBlock, List.length_append, littleEndian_length, List.length_flatMap, List.map_const',
      List.sum_replicate_nat]
    omega
  have tableLow : table < 2 ^ 61 := by
    by_cases none : table = 0
    · omega
    · have := sized none
      omega
  obtain ⟨isLeaf, nodeLen, tableAt, nodes⟩ := internalBlock_read (by omega) tableLow
    (fun node member => settled.object_lt (good node member)) allocated.bytes
  have extent : heap'.extent ⟨.node, address⟩ = 24 + 8 * child.length := by
    simp [Heap.extent, isLeaf, nodeLen, Heap.sizeofInternalNode]
  refine settled.join surrounds grows room ?fresh ?held ?apart allocated.flag Form.noConfusion ?closed
  case fresh =>
    rintro i (⟨above, -⟩ | ⟨tabled, above, -⟩)
    · dsimp only at above
      omega
    · rw [tableAt] at tabled above
      have := sized tabled
      omega
  case held =>
    rw [Heap.holds_iff, grows.toSpace, tableAt, extent, nodeLen]
    refine ⟨by dsimp only; omega, by dsimp only; omega, fun tabled => ?_⟩
    have := sized tabled
    omega
  case apart =>
    intro tabled
    rw [tableAt] at tabled ⊢
    rw [nodeLen]
    have := sized tabled
    dsimp only
    omega
  case closed =>
    intro slot member
    simp only [Heap.slots, isLeaf, Bool.false_eq_true, if_false, nodeLen] at member
    obtain ⟨k, inside, rfl⟩ := Heap.mem_slotsFrom.mp member
    simp only [Heap.refAt, if_true]
    rw [nodes k inside]
    exact good _ (List.getElem_mem inside)

/-- The head of a list with a tail, and a root if there is a tree. -/
private theorem Memory.Settled.join_list {cnt height tailLen tail root : ℕ}
    (allocated : Allocated heap heap' address (headBlock cnt height tailLen tail root))
    (tailed : ⟨.node, tail⟩ ∈ graph) (rooted : root ≠ 0 → ⟨.node, root⟩ ∈ graph) :
    Memory.Settled host arena (insert ⟨.list, address⟩ graph) ⟨heap', statics⟩ := by
  obtain ⟨header, rootWord⟩ := ByteMemory.readBytes_eq_append allocated.bytes
  obtain ⟨-, tailWord⟩ := ByteMemory.readBytes_eq_append header
  have rootWord := ByteMemory.readNat_of_littleEndian rootWord
  have tailWord := ByteMemory.readNat_of_littleEndian tailWord
  simp only [List.length_append, littleEndian_length] at rootWord tailWord
  have tailLow : tail < 2 ^ 61 := settled.object_lt tailed
  have rootLow : root < 2 ^ 61 := by
    by_cases none : root = 0
    · omega
    · exact settled.object_lt (rooted none)
  rw [Nat.mod_eq_of_lt (by omega)] at rootWord tailWord
  refine settled.join_block surrounds allocated (by decide) (by simp [Heap.table]) ?_ ?_
  · simp [Heap.extent, headBlock, Heap.sizeofRrb]
  · intro slot member
    simp only [Heap.slots, List.mem_append, List.mem_singleton] at member
    rcases member with some | rfl
    · split at some
      · next nonzero =>
        rw [rootWord] at nonzero
        rw [List.mem_singleton] at some
        subst some
        simp only [Heap.refAt, if_true, rootWord]
        exact rooted nonzero
      · exact absurd some List.not_mem_nil
    · simp only [Heap.refAt, if_true, tailWord]
      exact tailed

end Objects

section Rules

variable {α : Type} {post : Finset Object → α → Prop}

/-- Looking at memory. -/
theorem extends_read {look : Heap → Except Stop α}
    (holds : ∀ here heap a, graph ≤ here → Memory.Settled host arena here ⟨heap, statics⟩ → look heap = .ok a →
      post here a) :
    Extends (Reached host arena statics start) graph (Allocating.read look) post := by
  intro here state a state' above before run
  rw [Allocating.read, get_bind] at run
  obtain ⟨found, rfl⟩ := lift_eq_ok.mp run
  exact ⟨here, le_refl here, before, holds here _ a above before.settled found⟩

/-- A new object in a block of its own. -/
theorem extends_alloc {form : Form} (joins : ∀ here heap heap' address, graph ≤ here →
      Memory.Settled host arena here ⟨heap, statics⟩ → Allocated heap heap' address block →
      Memory.Settled host arena (insert ⟨form, address⟩ here) ⟨heap', statics⟩) :
    Extends (Reached host arena statics start) graph (Allocating.alloc scratch block)
      fun there address => address < 2 ^ 61 ∧ ⟨form, address⟩ ∈ there := by
  intro here state address state' above before run
  obtain ⟨allocated, blocks⟩ := before.alloc run
  have after := joins here _ _ address above before.settled allocated
  have member := Finset.mem_insert_self (⟨form, address⟩ : Object) here
  exact ⟨_, Finset.subset_insert _ _, ⟨blocks, after⟩, after.object_lt member, member⟩

variable (surrounds : host.Surrounds arena)

include surrounds

theorem extends_text (stops : 0 ∈ block) :
    Extends (Reached host arena statics start) graph (Allocating.alloc scratch block)
      fun there address => address < 2 ^ 61 ∧ ⟨.string, address⟩ ∈ there :=
  extends_alloc fun _ _ _ _ _ settled allocated => settled.join_text surrounds allocated stops

theorem extends_leaf {child : List Term} (good : ∀ elem ∈ child, Good (Atom host statics) graph (.term elem)) :
    Extends (Reached host arena statics start) graph (Allocating.alloc scratch (leafBlock child))
      fun there address => ⟨.node, address⟩ ∈ there := by
  refine .mono (extends_alloc fun here _ _ _ above settled allocated => ?_) fun _ _ _ made => made.2
  exact settled.join_leaf surrounds allocated fun elem member => (good elem member).mono _ above

theorem extends_internal {sizeTable : Option (List ℕ)} {child : List ℕ} (good : ∀ node ∈ child, ⟨.node, node⟩ ∈ graph) :
    Extends (Reached host arena statics start) graph (placeInternal scratch sizeTable child)
      fun there address => ⟨.node, address⟩ ∈ there := by
  intro here state address state' above before run
  obtain ⟨table, middle, placed, run⟩ := bind_eq_ok.mp run
  have sized : Reached host arena statics start here middle ∧ state.1.Grows middle.1 ∧
      middle.1.allocPtr ≤ state.1.toSpace + state.1.size / 2 ∧ (table ≠ 0 → state.1.allocPtr < table ∧
        table + Heap.tableExtent child.length ≤ middle.1.allocPtr) := by
    cases sizeTable with
    | none =>
      obtain ⟨rfl, rfl⟩ := pure_eq_ok.mp placed
      exact ⟨before, .refl _, before.settled.divided.room, absurd rfl⟩
    | some entries =>
      rw [placeTable] at placed
      split at placed
      · cases placed
      · next enough =>
        obtain ⟨allocated, blocks⟩ := before.alloc placed
        refine ⟨before.grows allocated blocks, allocated.grows, allocated.room, fun _ => ⟨allocated.fresh, ?_⟩⟩
        have within := allocated.within
        have length : (tableBlock (entries.take child.length)).length = 8 + 4 * child.length := by
          simp only [tableBlock, List.length_append, littleEndian_length, List.length_flatMap, List.map_const',
            List.sum_replicate_nat, List.length_take]
          omega
        rw [length] at within
        simp only [Heap.tableExtent, Heap.sizeofSizeTable]
        omega
  obtain ⟨between, grows, bound, sized⟩ := sized
  obtain ⟨allocated, blocks⟩ := between.alloc run
  have room := allocated.room
  rw [grows.toSpace, grows.size] at room
  have after := before.settled.join_internal surrounds grows sized allocated room fun node member =>
    above (good node member)
  exact ⟨_, Finset.subset_insert _ _, ⟨blocks, after⟩, Finset.mem_insert_self _ _⟩

theorem extends_head {cnt height tailLen tail root : ℕ} (tailed : ⟨.node, tail⟩ ∈ graph)
    (rooted : root ≠ 0 → ⟨.node, root⟩ ∈ graph) :
    Extends (Reached host arena statics start) graph
      (Allocating.alloc scratch (headBlock cnt height tailLen tail root))
      fun there address => address < 2 ^ 61 ∧ ⟨.list, address⟩ ∈ there :=
  extends_alloc fun _ _ _ _ above settled allocated =>
    settled.join_list surrounds allocated (above tailed) fun some => above (rooted some)

end Rules

end Owl.Runtime
