import Owl.Proofs.Runtime.Denotation
import Mathlib.Algebra.Order.BigOperators.Group.Finset
import Mathlib.Data.Finset.Card
import Mathlib.Order.Interval.Finset.Nat

/-! # The object graph

Between two instructions the heap is laid out as a graph of objects. They lie in allocated blocks of
their own, their flags are clear, and their words stand for themselves or refer to objects of the graph.
An allocation adds objects; it changes none.
-/

namespace Owl.Runtime

namespace Heap

/-- The semispaces are the halves of the arena, and the current one is filled from its start. -/
structure Divided (heap : Heap) : Prop where
  halves : heap.fromSpace = heap.toSpace + heap.size / 2 ∨ heap.toSpace = heap.fromSpace + heap.size / 2
  start : heap.toSpace ≤ heap.allocPtr
  room : heap.allocPtr ≤ heap.toSpace + heap.size / 2
  positive : 0 < heap.toSpace ∧ 0 < heap.fromSpace
  small : heap.size < 2 ^ 31
  low : heap.toSpace < 2 ^ 60 ∧ heap.fromSpace < 2 ^ 60

/-- An address that no collection takes for one of the heap. -/
def Away (heap : Heap) (ptr : ℕ) : Prop :=
  ptr < min heap.toSpace heap.fromSpace ∨
    min heap.toSpace heap.fromSpace + heap.size + heap.size / 2 < ptr

/-- Terms that stand for themselves: integers, and terms whose payload is away from the heap. -/
def AtomsAway (heap : Heap) (atom : Term → Prop) : Prop :=
  ∀ term, atom term → tagOf term = Tag.int.bits ∨ heap.Away (extractPtr term)

theorem Divided.grows {heap heap' : Heap} (divided : heap.Divided) (grows : heap.Grows heap')
    (room : heap'.allocPtr ≤ heap.toSpace + heap.size / 2) : heap'.Divided where
  halves := by rw [grows.toSpace, grows.fromSpace, grows.size]; exact divided.halves
  start := by rw [grows.toSpace]; exact divided.start.trans grows.allocPtr
  room := by rwa [grows.toSpace, grows.size]
  positive := by rw [grows.toSpace, grows.fromSpace]; exact divided.positive
  small := by rw [grows.size]; exact divided.small
  low := by rw [grows.toSpace, grows.fromSpace]; exact divided.low

theorem AtomsAway.grows {heap heap' : Heap} {atom : Term → Prop} (away : heap.AtomsAway atom)
    (grows : heap.Grows heap') : heap'.AtomsAway atom := by
  intro term self
  rw [Away, grows.toSpace, grows.fromSpace, grows.size]
  exact away term self

theorem inArena_iff {heap : Heap} {ptr : ℕ} : heap.inArena ptr = true ↔
    min heap.toSpace heap.fromSpace ≤ ptr ∧ ptr < min heap.toSpace heap.fromSpace + heap.size := by
  simp [inArena]

end Heap

section Graph

variable (atom : Term → Prop)

/-- A word that stands for itself or refers to an object of the graph. -/
def Good (graph : Finset Object) : Ref → Prop
  | .term word => atom word ∨
      ∃ form, Form.ofTag (tagOf word) = some form ∧ ⟨form, extractPtr word⟩ ∈ graph
  | .node address => ⟨.node, address⟩ ∈ graph

theorem Good.mono {graph graph' : Finset Object} {ref : Ref} (more : graph ⊆ graph')
    (good : Good atom graph ref) : Good atom graph' ref := by
  cases ref with
  | term word =>
    rcases good with self | ⟨form, tag, member⟩
    · exact .inl self
    · exact .inr ⟨form, tag, more member⟩
  | node address => exact more good

theorem Good.atoms {atom' : Term → Prop} {graph : Finset Object} {ref : Ref} (more : ∀ term, atom term → atom' term)
    (good : Good atom graph ref) : Good atom' graph ref := by
  cases ref with
  | term word => exact good.imp_left (more word)
  | node address => exact good

/-- The heap is laid out as a graph of objects. -/
structure Heap.Laid (heap : Heap) (graph : Finset Object) : Prop where
  held : ∀ object ∈ graph, heap.holds object = true
  apart : ∀ object ∈ graph, ∀ other ∈ graph, ∀ i, heap.Owns object i → heap.Owns other i → object = other
  tableApart : ∀ object ∈ graph, heap.table object ≠ 0 →
    heap.table object + tableExtent (heap.nodeLen object.address) < object.address ∨
      object.address + heap.extent object < heap.table object
  unmoved : ∀ object ∈ graph, heap.forwardFlag object.address = false
  closed : ∀ object ∈ graph, ∀ slot ∈ heap.slots object,
    Good atom graph (heap.refAt (object.address + slot.offset) slot.isNode)
  valued : ∀ object ∈ graph, ∃ depth, (heap.readObject (heap.decode depth) object).isSome

end Graph

namespace Heap

variable {atom : Term → Prop} {heap heap' : Heap} {graph : Finset Object}

theorem target_atom (away : heap.AtomsAway atom) {term : Term}
    (self : atom term) : heap.target (.term term) = none := by
  rw [target]
  split
  · next inside =>
    rw [inArena_iff] at inside
    rcases away term self with int | outside
    · rw [int]
      rfl
    · rw [Away] at outside
      omega
  · rfl

theorem inArena_held (divided : heap.Divided) {object : Object} (held : heap.holds object = true) :
    heap.inArena object.address = true := by
  obtain ⟨lower, upper, -⟩ := holds_iff.mp held
  have halves := divided.halves
  have room := divided.room
  have positive := heap.extent_pos object
  rw [inArena_iff]
  omega

/-- A good word stands for itself or refers to an object of the graph. -/
theorem Laid.target_good (laid : heap.Laid atom graph) (divided : heap.Divided)
    (away : heap.AtomsAway atom) {ref : Ref} (good : Good atom graph ref) :
    (∃ term, ref = .term term ∧ atom term ∧ heap.target ref = none) ∨
      ∃ object ∈ graph, heap.target ref = some object := by
  cases ref with
  | term word =>
    rcases good with self | ⟨form, tag, member⟩
    · exact .inl ⟨word, rfl, self, target_atom away self⟩
    · refine .inr ⟨_, member, ?_⟩
      rw [target, inArena_held divided (laid.held _ member), tag]
      rfl
  | node address => exact .inr ⟨_, good, rfl⟩

theorem Laid.target_mem (laid : heap.Laid atom graph) (divided : heap.Divided)
    (away : heap.AtomsAway atom) {ref : Ref} {object : Object} (good : Good atom graph ref)
    (found : heap.target ref = some object) : object ∈ graph := by
  rcases laid.target_good divided away good with ⟨term, -, -, none⟩ | ⟨other, member, found'⟩
  · rw [none] at found
    contradiction
  · rw [found] at found'
    rwa [Option.some.inj found']

/-- A good word can be read. -/
theorem Laid.readable (laid : heap.Laid atom graph) (divided : heap.Divided)
    (away : heap.AtomsAway atom) {ref : Ref} (good : Good atom graph ref) :
    ∃ depth, (heap.decode depth ref).isSome := by
  rcases laid.target_good divided away good with ⟨term, rfl, -, found⟩ | ⟨object, member, found⟩
  · exact ⟨1, by rw [decode_atom found]; rfl⟩
  · obtain ⟨depth, read⟩ := laid.valued object member
    exact ⟨depth + 1, by rw [decode_object found]; exact read⟩

theorem Laid.denotes (laid : heap.Laid atom graph) (divided : heap.Divided)
    (away : heap.AtomsAway atom) {ref : Ref} (good : Good atom graph ref) :
    ∃ value, heap.Denotes ref value := by
  obtain ⟨depth, read⟩ := laid.readable divided away good
  obtain ⟨value, read⟩ := Option.isSome_iff_exists.mp read
  exact ⟨value, depth, read⟩

/-- More terms may stand for themselves. -/
theorem Laid.atoms {atom' : Term → Prop} (laid : heap.Laid atom graph) (more : ∀ term, atom term → atom' term) :
    heap.Laid atom' graph :=
  { laid with closed := fun object member slot inside => (laid.closed object member slot inside).atoms atom more }

theorem Divided.bounded (divided : heap.Divided) : heap.allocPtr ≤ heap.toSpace + heap.size := by
  have := divided.room
  omega

/-- The graph stays while the heap grows. -/
theorem Laid.grows (laid : heap.Laid atom graph) (divided : heap.Divided) (grows : heap.Grows heap') :
    heap'.Laid atom graph := by
  have agrees (object : Object) (member : object ∈ graph) : heap.AgreesOn heap' object :=
    grows.agreesOn divided.bounded (laid.held object member)
  refine ⟨?held, ?apart, ?table, ?unmoved, ?closed, ?valued⟩
  case held => exact fun object member => grows.holds divided.bounded (laid.held object member)
  case apart =>
    intro object member other otherMember i first second
    rw [(agrees object member).owns] at first
    rw [(agrees other otherMember).owns] at second
    exact laid.apart object member other otherMember i first second
  case table =>
    intro object member tabled
    rw [(agrees object member).table] at tabled ⊢
    rw [(agrees object member).tableLen tabled, (agrees object member).extent]
    exact laid.tableApart object member tabled
  case unmoved =>
    intro object member
    have above := (holds_iff.mp (laid.held object member)).1
    rw [(agrees object member).flag (by omega)]
    exact laid.unmoved object member
  case closed =>
    intro object member slot inside
    rw [(agrees object member).slots] at inside
    rw [(agrees object member).refAt inside]
    exact laid.closed object member slot inside
  case valued =>
    intro object member
    obtain ⟨depth, read⟩ := laid.valued object member
    obtain ⟨value, read⟩ := Option.isSome_iff_exists.mp read
    obtain ⟨held, parts, each, rfl⟩ := readObject_eq_some.mp read
    refine ⟨depth, Option.isSome_iff_exists.mpr ⟨.object (heap.head object) parts, ?_⟩⟩
    rw [readObject_eq_some, (agrees object member).slots, (agrees object member).head]
    refine ⟨grows.holds divided.bounded held, parts, ?_, rfl⟩
    refine List.forall₂_iff_get.mpr ⟨each.length_eq, fun i left right => ?_⟩
    rw [(agrees object member).refAt (List.get_mem _ _)]
    exact grows.decode divided.bounded (each.get left right)

/-- The bytes of the graph are those that were allocated before. -/
private theorem Laid.owns_older (laid : heap.Laid atom graph) (divided : heap.Divided) (grows : heap.Grows heap')
    {object : Object} (member : object ∈ graph) {i : ℕ} (owned : heap'.Owns object i) : i < heap.allocPtr := by
  have agrees := grows.agreesOn divided.bounded (laid.held object member)
  exact (owns_inside (laid.held object member) (agrees.owns.mp owned)).2

/-- References that can be read can all be read to one depth. -/
private theorem common_depth {refs : List Ref} (each : ∀ ref ∈ refs, ∃ depth, (heap.decode depth ref).isSome) :
    ∃ depth, ∀ ref ∈ refs, (heap.decode depth ref).isSome := by
  induction refs with
  | nil => exact ⟨0, by simp⟩
  | cons ref refs ih =>
    obtain ⟨first, others⟩ := List.forall_mem_cons.mp each
    obtain ⟨m, read⟩ := first
    obtain ⟨n, reads⟩ := ih others
    refine ⟨max m n, List.forall_mem_cons.mpr ⟨?_, fun other member => ?_⟩⟩
    · obtain ⟨value, read⟩ := Option.isSome_iff_exists.mp read
      exact Option.isSome_iff_exists.mpr ⟨value, decode_le (Nat.le_max_left m n) read⟩
    · obtain ⟨value, read⟩ := Option.isSome_iff_exists.mp (reads other member)
      exact Option.isSome_iff_exists.mpr ⟨value, decode_le (Nat.le_max_right m n) read⟩

/-- An object whose words can be read can be read. -/
theorem readObject_isSome {object : Object} (held : heap.holds object = true)
    (each : ∀ slot ∈ heap.slots object,
      ∃ depth, (heap.decode depth (heap.refAt (object.address + slot.offset) slot.isNode)).isSome) :
    ∃ depth, (heap.readObject (heap.decode depth) object).isSome := by
  have refs : ∀ ref ∈ (heap.slots object).map fun slot => heap.refAt (object.address + slot.offset) slot.isNode,
      ∃ depth, (heap.decode depth ref).isSome := by simpa using each
  obtain ⟨depth, reads⟩ := common_depth refs
  exact ⟨depth, readObject_isSome_iff.mpr ⟨held, fun slot inside => reads _ (List.mem_map_of_mem inside)⟩⟩

/-- A new object whose words are good joins the graph. -/
theorem Laid.insert [DecidableEq Object] (laid : heap.Laid atom graph) (divided : heap.Divided)
    (away : heap.AtomsAway atom) {object : Object}
    (apart : ∀ other ∈ graph, ∀ i, heap.Owns other i → ¬ heap.Owns object i) (held : heap.holds object = true)
    (table : heap.table object ≠ 0 →
      heap.table object + tableExtent (heap.nodeLen object.address) < object.address ∨
        object.address + heap.extent object < heap.table object)
    (unmoved : heap.forwardFlag object.address = false)
    (closed : ∀ slot ∈ heap.slots object,
      Good atom graph (heap.refAt (object.address + slot.offset) slot.isNode)) :
    heap.Laid atom (insert object graph) := by
  refine ⟨?held, ?apart, ?table, ?unmoved, ?closed, ?valued⟩
  case held =>
    intro other member
    rcases Finset.mem_insert.mp member with rfl | old
    · exact held
    · exact laid.held other old
  case apart =>
    intro first left second right i owned owned'
    rcases Finset.mem_insert.mp left with rfl | oldFirst
    · rcases Finset.mem_insert.mp right with rfl | oldSecond
      · rfl
      · exact absurd owned (apart second oldSecond i owned')
    · rcases Finset.mem_insert.mp right with rfl | oldSecond
      · exact absurd owned' (apart first oldFirst i owned)
      · exact laid.apart first oldFirst second oldSecond i owned owned'
  case table =>
    intro other member tabled
    rcases Finset.mem_insert.mp member with rfl | old
    · exact table tabled
    · exact laid.tableApart other old tabled
  case unmoved =>
    intro other member
    rcases Finset.mem_insert.mp member with rfl | old
    · exact unmoved
    · exact laid.unmoved other old
  case closed =>
    intro other member slot inside
    rcases Finset.mem_insert.mp member with rfl | old
    · exact (closed slot inside).mono atom (Finset.subset_insert _ _)
    · exact (laid.closed other old slot inside).mono atom (Finset.subset_insert _ _)
  case valued =>
    intro other member
    rcases Finset.mem_insert.mp member with rfl | old
    · exact readObject_isSome held fun slot inside => laid.readable divided away (closed slot inside)
    · exact laid.valued other old

/-- A new object in memory that has been allocated meanwhile joins the graph. -/
theorem Laid.join (laid : heap.Laid atom graph) (divided : heap.Divided) (away : heap.AtomsAway atom)
    (grows : heap.Grows heap') (room : heap'.allocPtr ≤ heap.toSpace + heap.size / 2) {object : Object}
    (fresh : ∀ i, heap'.Owns object i → heap.allocPtr ≤ i) (held : heap'.holds object = true)
    (table : heap'.table object ≠ 0 →
      heap'.table object + tableExtent (heap'.nodeLen object.address) < object.address ∨
        object.address + heap'.extent object < heap'.table object)
    (unmoved : heap'.mem (object.address - 1) = 0)
    (closed : ∀ slot ∈ heap'.slots object,
      Good atom graph (heap'.refAt (object.address + slot.offset) slot.isNode)) :
    heap'.Laid atom (Insert.insert object graph) := by
  have apart : ∀ other ∈ graph, ∀ i, heap'.Owns other i → ¬ heap'.Owns object i := by
    intro other member i owned owned'
    have older := laid.owns_older divided grows member owned
    exact absurd older (Nat.not_lt.mpr (fresh i owned'))
  have flag : heap'.forwardFlag object.address = false := by simp [forwardFlag, unmoved]
  exact (laid.grows divided grows).insert (divided.grows grows room) (away.grows grows) apart held table flag closed

end Heap

end Owl.Runtime
