import Owl.Proofs.Runtime.Survival
import Owl.Proofs.Runtime.Steps

/-! # Settled machines

Between two instructions every register of a live frame, and every word of a live object, is a term that
stands for itself or refers to an object of the heap. What the system allocator and the interning library
hand out keeps away from the arena, and the runtime library makes well-formed objects of well-formed
arguments. The instructions do not check the types of their operands; this is asked of the code.
-/

namespace Owl.Runtime

open StateExcept

variable {World : Type} {host : Host World} {arena : ℕ}

/-- An address of an interned text or of a string literal. -/
def Host.IsText (host : Host World) (address : ℕ) : Prop :=
  (∃ text ∈ literals, host.literal text = address) ∨ ∃ world pool, ∃ id < 256, host.lookupId world pool id = address

theorem Host.isText_literal (host : Host World) {text : Bytes} (known : text ∈ literals) :
    host.IsText (host.literal text) :=
  .inl ⟨text, known, rfl⟩

/-- An address outside the arena and the half of its size that follows it. -/
def Distant (arena address : ℕ) : Prop :=
  (address < arena ∨ arena + 3 * 0xFFFF < address) ∧ address < 2 ^ 61

instance (arena address : ℕ) : Decidable (Distant arena address) := inferInstanceAs (Decidable (_ ∧ _))

/-- What surrounds the arena: function records, interned texts and the empty list. -/
structure Host.Surrounds (host : Host World) (arena : ℕ) : Prop where
  low : 0 < arena ∧ arena < 2 ^ 59
  records : ∀ address, host.Allocates address → Distant arena address
  texts : ∀ address, host.IsText address → Distant arena address
  emptyRrb : Distant arena host.emptyRrb

/-- Integers, constants, interned texts, the empty list and captured functions. -/
def Atom (host : Host World) (statics : ℕ → Option StaticFunction) (term : Term) : Prop :=
  tagOf term = Tag.int.bits ∨
    extractPtr term = 0 ∧ tagOf term ≠ Tag.function.bits ∧ tagOf term ≠ Tag.list.bits ∨
    tagOf term = Tag.string.bits ∧ host.IsText (extractPtr term) ∨
    tagOf term = Tag.list.bits ∧ extractPtr term = host.emptyRrb ∨
    tagOf term = Tag.function.bits ∧ (statics (extractPtr term)).isSome

theorem Atom.mono {statics statics' : ℕ → Option StaticFunction} {term : Term} (self : Atom host statics term)
    (more : ∀ address, (statics address).isSome → (statics' address).isSome) : Atom host statics' term := by
  rcases self with int | constant | text | list | ⟨tag, record⟩
  · exact .inl int
  · exact .inr (.inl constant)
  · exact .inr (.inr (.inl text))
  · exact .inr (.inr (.inr (.inl list)))
  · exact .inr (.inr (.inr (.inr ⟨tag, more _ record⟩)))

/-- A term that an instruction accepts where it looks for a tag, or for any term. -/
def accepts : Option Tag → Term → Bool
  | none, _ => true
  | some tag, term => tagOf term = tag.bits && term ≠ OWL_FALSE && term ≠ OWL_TRUE && term ≠ OWL_NIL

/-- The operands of an instruction that follow its result register, as far as their types matter. -/
def signature (opcode : UInt8) : List (Option Tag) :=
  if opcode = OP_TUPLE_NTH then [some .tuple]
  else if opcode = OP_FUNCTION_NAME then [some .function]
  else if opcode = OP_CONCAT then [none, none]
  else if opcode = OP_FILE_LS then [some .string]
  else if opcode = OP_LIST_NTH then [some .list, some .int]
  else if opcode = OP_LIST_COUNT then [some .list]
  else if opcode = OP_LIST_SLICE then [some .list, some .int, some .int]
  else if opcode = OP_STRING_SLICE then [some .string, some .int, some .int]
  else if opcode = OP_STRING_COUNT then [some .string]
  else if opcode = OP_STRING_CONTAINS then [some .string, some .string]
  else if opcode = OP_TO_STRING then [none]
  else []

/-- The operands of the next instruction have the types that it takes for granted. -/
def Vm.WellTyped (vm : Vm World) : Prop :=
  ∀ k < 3, ∀ kind ∈ (signature (vm.code vm.ip))[k]?, accepts kind (vm.operand (vm.code (vm.ip + 2 + k))) = true

/-- The instructions that only call a routine. -/
def routines (host : Host World) : List (UInt8 × Routine World) :=
  [(OP_FILE_PWD, host.filePwd), (OP_CONCAT, host.concat), (OP_FILE_LS, host.fileLs),
    (OP_LIST_NTH, host.listNth), (OP_LIST_COUNT, host.listCount), (OP_LIST_SLICE, host.listSlice),
    (OP_STRING_SLICE, host.stringSlice), (OP_STRING_COUNT, host.stringCount),
    (OP_STRING_CONTAINS, host.stringContains), (OP_TO_STRING, host.termToString)]

/-- The memory that a routine finds and leaves: the heap lies in the arena and is laid out as a graph, and all
functions have names. -/
structure Memory.Settled (host : Host World) (arena : ℕ) (graph : Finset Object) (memory : Memory) : Prop where
  statics : ∀ address, (memory.statics address).isSome → host.Allocates address
  divided : memory.heap.Divided
  size : memory.heap.size = 2 * 0xFFFF
  spaces : min memory.heap.toSpace memory.heap.fromSpace = arena
  laid : memory.heap.Laid (Atom host memory.statics) graph
  records : ∀ address record, memory.statics address = some record → host.IsText record.name
  named : ∀ object ∈ graph, object.form = .function →
    host.IsText (memory.heap.mem.readNat (object.address + 8) 8)

/-- A routine makes well-formed objects of well-formed arguments of the right types. -/
def RoutineSound (host : Host World) (arena : ℕ) (routine : Routine World) (kinds : List (Option Tag))
    (result : Option Tag) : Prop :=
  ∀ (memory : Memory) (graph : Finset Object) (world : World) (args : List Term) (reply : Reply World) (heap : Heap),
    memory.Settled host arena graph → List.Forall₂ (fun kind arg => accepts kind arg = true) kinds args →
    (∀ arg ∈ args, Good (Atom host memory.statics) graph (.term arg)) → routine memory world args = .ok reply →
    memory.heap.allocBlocks reply.blocks = .ok heap →
    ∃ graph', graph ⊆ graph' ∧ Memory.Settled host arena graph' ⟨heap, memory.statics⟩ ∧
      Good (Atom host memory.statics) graph' (.term reply.result) ∧ accepts result reply.result = true

/-- The routines of the runtime library. -/
structure Host.Library (host : Host World) (arena : ℕ) : Prop where
  routine : ∀ entry ∈ routines host, RoutineSound host arena entry.2 (signature entry.1) none
  listPush : RoutineSound host arena host.listPush [some .list, none] (some .list)

/-- All live terms are good, and so is the running function if operands may be read from it. -/
structure Vm.Settled (host : Host World) (arena : ℕ) (running : Prop) (graph : Finset Object) (vm : Vm World) :
    Prop where
  placed : vm.Placed host arena
  room : vm.heap.allocPtr ≤ vm.heap.toSpace + vm.heap.size / 2
  laid : vm.heap.Laid (Atom host vm.statics) graph
  registers : ∀ i ≤ vm.currentFrame, ∀ j < REGISTER_COUNT,
    Good (Atom host vm.statics) graph (.term (vm.register i j))
  above : ∀ i, vm.currentFrame < i → ∀ j, vm.register i j = 0
  function : running → vm.currentFunction = 0 ∨ (vm.statics vm.currentFunction).isSome ∨
    ⟨.function, vm.currentFunction⟩ ∈ graph
  entries : ∀ id, vm.functions id = NO_FUNCTION ∨ (vm.statics (vm.functions id)).isSome
  records : ∀ address record, vm.statics address = some record → host.IsText record.name
  named : ∀ object ∈ graph, object.form = .function →
    host.IsText (vm.heap.mem.readNat (object.address + 8) 8)

theorem Vm.Placed.min_spaces {vm : Vm World} (placed : vm.Placed host arena) :
    min vm.heap.toSpace vm.heap.fromSpace = arena := by
  have := placed.spaces
  omega

/-- Distant addresses are away from the heap. -/
theorem Distant.away {heap : Heap} {address : ℕ} (distant : Distant arena address) (size : heap.size = 2 * 0xFFFF)
    (spaces : min heap.toSpace heap.fromSpace = arena) : heap.Away address := by
  obtain ⟨apart, -⟩ := distant
  have half : heap.size + heap.size / 2 = 3 * 0xFFFF := by rw [size]
  rw [Heap.Away, spaces, Nat.add_assoc, half]
  exact apart

theorem Host.Surrounds.atomsAway {heap : Heap} (surrounds : host.Surrounds arena)
    {statics : ℕ → Option StaticFunction} (allocated : ∀ address, (statics address).isSome → host.Allocates address)
    (size : heap.size = 2 * 0xFFFF) (spaces : min heap.toSpace heap.fromSpace = arena) :
    heap.AtomsAway (Atom host statics) := by
  intro term self
  rcases self with int | ⟨zero, -⟩ | ⟨-, text⟩ | ⟨-, list⟩ | ⟨-, record⟩
  · exact .inl int
  · right
    have := surrounds.low
    rw [Heap.Away, zero, spaces]
    omega
  · exact .inr ((surrounds.texts _ text).away size spaces)
  · rw [list]
    exact .inr (surrounds.emptyRrb.away size spaces)
  · exact .inr ((surrounds.records _ (allocated _ record)).away size spaces)

namespace Vm.Settled

variable {vm vm' : Vm World} {graph graph' : Finset Object} {running : Prop}

theorem divided (surrounds : host.Surrounds arena) (settled : vm.Settled host arena running graph) : vm.heap.Divided where
  halves := by
    have := settled.placed.spaces
    have := settled.placed.size
    omega
  start := settled.placed.allocPtr
  room := settled.room
  positive := by
    have := settled.placed.spaces
    have := surrounds.low
    omega
  small := by
    rw [settled.placed.size]
    norm_num
  low := by
    have := settled.placed.spaces
    have := surrounds.low
    omega

theorem away (surrounds : host.Surrounds arena) (settled : vm.Settled host arena running graph) :
    vm.heap.AtomsAway (Atom host vm.statics) :=
  surrounds.atomsAway settled.placed.statics settled.placed.size settled.placed.min_spaces

theorem memory (surrounds : host.Surrounds arena) (settled : vm.Settled host arena running graph) :
    vm.memory.Settled host arena graph where
  statics := settled.placed.statics
  divided := settled.divided surrounds
  size := settled.placed.size
  spaces := settled.placed.min_spaces
  laid := settled.laid
  records := settled.records
  named := settled.named

end Vm.Settled

end Owl.Runtime
