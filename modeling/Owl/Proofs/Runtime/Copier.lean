import Owl.Proofs.Runtime.Evacuation

/-! # The copier

`copy` allocates the copy of an object before it replaces the words of the copy; `copy_list_node`
replaces the words of a node in place and then copies the node and its size table. Both turn every good
word into its image, unless the stack is smaller than the depth to which the word can be read.
-/

namespace Owl.Runtime

open Except (SucceedsUnless)

namespace Heap

variable {old heap heap' : Heap} {graph : Finset Object} {atom : Term → Prop} {depth level stack : ℕ}
  {busy busy' : Set ℕ} {object : Object}

/-- The copier finds the size of an object, unless it is a text that loses its terminator. -/
private theorem sizeOf_extent {emptyRrb : ℕ} {term : Term} (tag : Form.ofTag (tagOf term) = some object.form)
    (ptr : extractPtr term = object.address) (positive : 0 < object.address)
    (notEmpty : object.address ≠ emptyRrb) (small : heap.size < 2 ^ 31) (inside : heap.extent object ≤ heap.size)
    (whole : (heap.head object).whole = true) : heap.sizeOf emptyRrb term = .ok (heap.extent object) := by
  have constant : (term = OWL_FALSE || term = OWL_TRUE || term = OWL_NIL) = false := by
    rw [← ptr] at positive
    have notFalse : term ≠ OWL_FALSE := by rintro rfl; exact absurd positive (by decide)
    have notTrue : term ≠ OWL_TRUE := by rintro rfl; exact absurd positive (by decide)
    have notNil : term ≠ OWL_NIL := by rintro rfl; exact absurd positive (by decide)
    simp [notFalse, notTrue, notNil]
  obtain ⟨form, address⟩ := object
  dsimp only at ptr
  rw [sizeOf, constant]
  simp only [Bool.false_eq_true, if_false, ptr]
  rcases ofTag_cases tag with ⟨bits, rfl⟩ | ⟨bits, rfl⟩ | ⟨bits, rfl⟩ | ⟨bits, rfl⟩
  · rw [if_pos bits]
    simp only [extent] at inside ⊢
    rw [align_eq (by omega), Except.ok.injEq]
    omega
  · rw [if_neg (by rw [bits]; decide), if_pos bits]
    simp only [extent] at inside ⊢
    have below : heap.textLength address < heap.size := by omega
    have text := (textLength_eq_iff below).mp rfl
    rw [strlen, strlenWithin_ok.mpr ⟨by omega, text⟩]
    simp only [head, Head.whole, ByteMemory.readBytes_length, decide_eq_true_eq] at whole
    simp only [Except.ok_bind, pure, Except.pure, Except.ok.injEq]
    rw [align_eq (by omega)]
    omega
  · rw [if_neg (by rw [bits]; decide), if_neg (by rw [bits]; decide), if_pos bits]
    simp only [extent] at inside ⊢
    change Except.ok (align (sizeofFunction + heap.nUpvalues address * 8)) = _
    rw [align_eq (by omega), Except.ok.injEq]
    simp only [sizeofFunction]
    omega
  · rw [if_neg (by rw [bits]; decide), if_neg (by rw [bits]; decide), if_neg (by rw [bits]; decide), if_pos bits,
      if_neg notEmpty]
    rfl

private theorem sizeOf_int {emptyRrb : ℕ} {term : Term} (int : tagOf term = Tag.int.bits) :
    heap.sizeOf emptyRrb term = .ok 0 := by
  rw [sizeOf]
  split
  · rfl
  · simp only [int]
    rfl

/-- The object that a term refers to. -/
theorem target_term {word : Term} (found : old.target (.term word) = some object) :
    Form.ofTag (tagOf word) = some object.form ∧ extractPtr word = object.address := by
  rw [target] at found
  split at found
  · cases tag : Form.ofTag (tagOf word) with
    | none =>
      rw [tag] at found
      contradiction
    | some form =>
      rw [tag, Option.map_some, Option.some.injEq] at found
      subst found
      exact ⟨rfl, rfl⟩
  · contradiction

private theorem checkOverflow_of_room {n : ℕ} (room : heap.allocPtr + n ≤ heap.toSpace + heap.size / 2) :
    heap.checkOverflow n = .ok () :=
  if_neg (by omega)

private theorem onHeap_held (divided : old.Divided) (collecting : Collecting old graph depth busy heap)
    (held : old.holds object = true) : heap.onHeap object.address = true := by
  have inside := holds_iff.mp held
  have room := divided.room
  have fromSpace := collecting.fromSpace
  have size := collecting.size
  simp only [onHeap, Bool.and_eq_true, decide_eq_true_eq]
  omega

/-- An address that is away is not taken for one of the heap. -/
private theorem onHeap_away (divided : old.Divided) (collecting : Collecting old graph depth busy heap) {ptr : ℕ}
    (away : old.Away ptr) : heap.onHeap ptr = false := by
  have halves := divided.halves
  have fromSpace := collecting.fromSpace
  have size := collecting.size
  have : ¬ heap.onHeap ptr = true := by
    simp only [onHeap, Bool.and_eq_true, decide_eq_true_eq]
    rw [Away] at away
    omega
  simpa using this

section Bodies

variable {emptyRrb : ℕ} {copy : Heap → Term → Except Stop (Term × Heap)}
  {copyListNode : Heap → ℕ → Except Stop (ℕ × Heap)}

/-- An atom is left alone, or is an integer that is taken for the address of an object. -/
private theorem copyBody_atom (divided : old.Divided) (away : old.AtomsAway atom)
    (collecting : Collecting old graph depth busy heap) {word : Term} (self : atom word)
    (found : old.target (.term word) = none) :
    ∃ word', heap.copyBody emptyRrb copy copyListNode word = .ok (word', heap) ∧
      Image old heap (.term word) (.term word') := by
  have same : Image old heap (.term word) (.term word) := by
    rw [Image, found]
    exact .inl rfl
  rw [copyBody]
  cases onHeap : heap.onHeap (extractPtr word) with
  | false => exact ⟨word, rfl, same⟩
  | true =>
    rcases away word self with int | outside
    · simp only [Bool.not_true, Bool.false_eq_true, if_false]
      cases heap.forwardFlag (extractPtr word) with
      | true =>
        refine ⟨_, rfl, ?_⟩
        rw [Image, found]
        refine .inr ⟨word, _, rfl, rfl, int, ?_, ?_⟩
        · rw [tagOf_shiftOr, int]
        · simp only [Heap.onHeap, Bool.and_eq_true, decide_eq_true_eq] at onHeap
          rwa [collecting.fromSpace, collecting.size] at onHeap
      | false =>
        simp only [Bool.false_eq_true, if_false, sizeOf_int int]
        exact ⟨word, rfl, same⟩
    · rw [onHeap_away divided collecting outside] at onHeap
      contradiction

variable (laid : old.Laid atom graph) (divided : old.Divided) (away : old.AtomsAway atom)

include laid divided away

/-- The copy of a term's object, once its words have been replaced, is filled. -/
private theorem filled_term (work : AtWork old graph atom depth level busy heap object) (notNode : object.form ≠ .node)
    (replaced : Replaced old graph level (busy ∪ heap.fresh (old.extent object))
      (heap.takeCopy object.address (old.extent object)) object (heap.allocPtr + 1) heap') :
    Filled old graph level busy (busy ∪ heap.fresh (old.extent object)) heap heap' object (heap.allocPtr + 1) := by
  obtain ⟨collecting', moves, images, unrooted⟩ := replaced
  have untabled : old.table object = 0 := by simp [table, notNode]
  have footprint : old.footprint object = old.extent object + 1 := by simp [Heap.footprint, untabled]
  have room := work.room
  rw [footprint] at room
  obtain ⟨collecting₁, moves₁⟩ := takeCopy_collects laid divided away (work.start.deepen work.le)
    object.address room
  have agrees := work.agrees laid divided
  have toSpace : heap'.toSpace = heap.toSpace := moves.toSpace
  have allocPtr : heap.allocPtr + (old.extent object + 1) ≤ heap'.allocPtr := moves.allocPtr
  have both := (moves₁.widen (Set.subset_union_left (t :=
    {i | heap.allocPtr + 1 + old.headerSize object ≤ i ∧ i < heap.allocPtr + 1 + old.extent object}))).trans
      (moves.widen Set.subset_union_right)
  constructor
  case collecting => exact collecting'
  case more => exact Set.subset_union_left
  case moves =>
    rw [footprint]
    refine both.widen ?_
    rintro i (⟨lower, upper⟩ | ⟨lower, upper⟩)
    · exact .inr ⟨lower, by omega⟩
    · exact .inr ⟨by omega, by omega⟩
  case white =>
    have positive := (holds_iff.mp (laid.held object work.member)).1
    have owned : old.Owns object (object.address - 1) := laid.owns_start work.member (by omega) (by omega)
    have apart := collecting'.spaces laid divided work.member owned
    have start := work.start.start
    rw [← work.white]
    apply both.flag_deep laid work.member work.deep
    rintro (⟨lower, upper⟩ | ⟨lower, upper⟩) <;> omega
  case above =>
    have := work.start.start
    omega
  case fresh => exact Nat.lt_succ_self _
  case inside => omega
  case header =>
    intro i inside
    have extent := headerSize_le_extent old object
    have copied : (heap.takeCopy object.address (old.extent object)).mem (heap.allocPtr + 1 + i) =
        heap.mem (object.address + i) := takeCopy_byte (by omega)
    rw [← agrees.byte (by omega), ← copied]
    apply moves.keeps _ _ (.inl _)
    · rintro ⟨lower, -⟩
      omega
    · exact collecting₁.busyInside _ (.inr ⟨by omega, by omega⟩)
  case images => exact images
  case unrooted => exact unrooted
  case untabled => exact fun node => absurd node notNode
  case tabled => exact absurd untabled
  case placed =>
    intro i lower upper
    refine ⟨.inr ⟨by omega, by omega⟩, fun busyByte => ?_⟩
    have := work.start.busyInside i busyByte
    omega

/-- `copy`, with copiers for the words of an object. -/
theorem copyBody_copies (emptyAway : old.Away emptyRrb) (term : Copies old graph atom stack false copy)
    (node : Copies old graph atom stack true (copyPointer copyListNode)) :
    Copies old graph atom (stack + 1) false fun heap word => heap.copyBody emptyRrb copy copyListNode word := by
  intro depth busy heap word value collecting good read whole
  simp only [wordRef, Bool.false_eq_true, if_false] at good read ⊢
  rcases laid.target_good divided away good with ⟨atomic, same, self, found⟩ | ⟨object, member, found⟩
  · obtain rfl := Ref.term.inj same
    obtain ⟨word', done, image⟩ := copyBody_atom divided away collecting self found
    rw [done]
    exact .ok ⟨collecting, .refl heap, image⟩
  obtain ⟨tag, ptr⟩ := target_term found
  have held := laid.held object member
  have onHeap := onHeap_held divided collecting held
  rw [copyBody, ptr, onHeap]
  simp only [Bool.not_true, Bool.false_eq_true, if_false]
  cases flag : heap.forwardFlag object.address with
  | true =>
    refine .ok ⟨collecting, .refl heap, ?_⟩
    rw [Image, found]
    exact ⟨flag, rfl⟩
  | false =>
    obtain ⟨level, work⟩ := AtWork.of_read laid collecting member found read whole flag
    have agrees := work.agrees laid divided
    have above := (holds_iff.mp held).1
    have inside := inArena_iff.mp (inArena_held divided held)
    have notEmpty : object.address ≠ emptyRrb := by
      rintro same
      rw [Away, ← same] at emptyAway
      omega
    have size : heap.sizeOf emptyRrb word = .ok (heap.extent object) :=
      sizeOf_extent tag ptr (by omega) notEmpty (by rw [collecting.size]; exact divided.small)
        (by rw [agrees.extent, collecting.size]; exact agrees.bounded) (by rw [agrees.head]; exact work.whole)
    have notNode : object.form ≠ .node := by
      rcases ofTag_cases tag with ⟨-, form⟩ | ⟨-, form⟩ | ⟨-, form⟩ | ⟨-, form⟩ <;> simp [form]
    have footprint : old.footprint object = old.extent object + 1 := by simp [Heap.footprint, table, notNode]
    have room := work.room
    rw [footprint] at room
    have positive := extent_pos old object
    simp only [Bool.false_eq_true, if_false, size, Except.ok_bind, agrees.extent, if_neg (Nat.ne_of_gt positive),
      checkOverflow_of_room (show heap.allocPtr + old.extent object ≤ heap.toSpace + heap.size / 2 by omega)]
    obtain ⟨collecting₁, -⟩ := takeCopy_collects laid divided away (work.start.deepen work.le) object.address room
    have low : heap.allocPtr + 1 < 2 ^ 61 := by
      have := divided.low
      have := divided.small
      have := collecting.toSpace
      have := collecting.size
      omega
    have copied := copyRefs_copies laid divided away work collecting₁
      (fun i below => (takeCopy_byte below).trans (agrees.byte below))
      (fun i lower upper => .inr ⟨by omega, by omega⟩) term node
      ((congrArg Form.ofTag (tagOf_shiftOr _ word)).trans tag) (extractPtr_shiftOr low word)
    refine (copied.weaken fun below => Nat.lt_of_le_of_lt below work.lt).bind fun heap' replaced => ?_
    have filled := filled_term laid divided away work notNode replaced
    obtain ⟨collecting', moves, black, address⟩ := filled.forward laid divided work away (by omega)
    refine .ok ⟨collecting', moves, ?_⟩
    rw [Image, found]
    refine ⟨black, ?_⟩
    rw [address]
    rfl


/-- A node whose words, with its size table, have been replaced in place. -/
structure Reworked (old : Heap) (graph : Finset Object) (level : ℕ) (busy busy' : Set ℕ) (heap heap' : Heap)
    (object : Object) : Prop where
  collecting : Collecting old graph level busy' heap'
  more : busy ⊆ busy'
  moves : Moves old graph level
    {i | old.Owns object i ∧ i + 1 ≠ object.address ∨ heap.allocPtr ≤ i ∧ i < heap'.allocPtr}
    (old.footprint object - (old.extent object + 1)) heap heap'
  header : ∀ i < 16, heap'.mem (object.address + i) = old.mem (object.address + i)
  images : ∀ slot ∈ old.slots object,
    Image old heap' (old.refAt (object.address + slot.offset) slot.isNode)
      (heap'.refAt (object.address + slot.offset) slot.isNode)
  untabled : old.isLeaf object.address = false → old.table object = 0 →
    heap'.mem.readNat (object.address + 16) 8 = 0
  tabled : old.table object ≠ 0 →
    TableCopied old busy busy' heap' object (heap'.mem.readNat (object.address + 16) 8)

omit laid divided away in
private theorem footprint_eq (old : Heap) (object : Object) :
    old.footprint object - (old.extent object + 1) + (old.extent object + 1) = old.footprint object := by
  rw [Heap.footprint]
  omega

/-- The copy of a node whose words have been replaced is filled. -/
theorem Reworked.filled (work : AtWork old graph atom depth level busy heap object) (isNode : object.form = .node)
    (reworked : Reworked old graph level busy busy' heap heap' object) :
    Filled old graph level busy (busy' ∪ heap'.fresh (old.extent object)) heap
      (heap'.takeCopy object.address (old.extent object)) object (heap'.allocPtr + 1) := by
  have room := work.room
  have spent := reworked.moves.spent
  have footprint := footprint_eq old object
  have allocPtr := reworked.moves.allocPtr
  have toSpace := reworked.moves.toSpace
  have start := work.start.start
  have size := reworked.collecting.size
  rw [work.start.size, ← size, ← toSpace] at room
  obtain ⟨collecting, moves⟩ := takeCopy_collects laid divided away reworked.collecting object.address
    (show heap'.allocPtr + (old.extent object + 1) + left old graph level heap' ≤ _ by omega)
  have copied (i : ℕ) (inside : i < old.extent object) :
      (heap'.takeCopy object.address (old.extent object)).mem (heap'.allocPtr + 1 + i) =
        heap'.mem (object.address + i) := takeCopy_byte inside
  have tableAt (inner : old.isLeaf object.address = false) :
      (heap'.takeCopy object.address (old.extent object)).mem.readNat (heap'.allocPtr + 1 + 16) 8 =
        heap'.mem.readNat (object.address + 16) 8 := by
    have extent : 24 ≤ old.extent object := by simp [extent, isNode, inner, sizeofInternalNode]
    refine ByteMemory.readNat_shift fun i below => ?_
    rw [Nat.add_assoc (_ + 1) 16, Nat.add_assoc object.address 16]
    exact copied (16 + i) (by omega)
  have both := (reworked.moves.widen (Set.subset_union_left (t := heap'.fresh (old.extent object)))).trans
    (moves.widen Set.subset_union_right)
  constructor
  case collecting => exact collecting
  case more => exact reworked.more.trans Set.subset_union_left
  case moves =>
    rw [← footprint]
    refine both.widen ?_
    rintro i ((⟨owned, -⟩ | ⟨lower, upper⟩) | ⟨lower, upper⟩)
    · exact .inl owned
    · exact .inr ⟨lower, upper.trans_le (Nat.le_add_right _ _)⟩
    · exact .inr ⟨by omega, upper⟩
  case white =>
    have positive := (holds_iff.mp (laid.held object work.member)).1
    have owned : old.Owns object (object.address - 1) := laid.owns_start work.member (by omega) (by omega)
    have apart : ¬ (heap'.toSpace ≤ _ ∧ _ < heap'.allocPtr + (old.extent object + 1)) :=
      collecting.spaces laid divided work.member owned
    rw [← work.white]
    apply both.flag_deep laid work.member work.deep
    rintro ((⟨-, notFlag⟩ | ⟨lower, upper⟩) | ⟨lower, upper⟩) <;> omega
  case above =>
    change heap'.toSpace < _
    omega
  case fresh => omega
  case inside => exact (Nat.add_assoc _ _ _).trans_le (by rw [Nat.add_comm 1]; rfl)
  case header =>
    intro i inside
    have header : old.headerSize object = 16 := by simp [headerSize, isNode]
    have extent := headerSize_le_extent old object
    rw [copied i (by omega)]
    exact reworked.header i (by omega)
  case images =>
    intro slot member
    have inside := slot_inside member
    have same : (heap'.takeCopy object.address (old.extent object)).refAt (heap'.allocPtr + 1 + slot.offset) slot.isNode =
        heap'.refAt (object.address + slot.offset) slot.isNode := by
      refine refAt_congr fun i below => ?_
      rw [Nat.add_assoc _ slot.offset, Nat.add_assoc _ slot.offset]
      exact copied (slot.offset + i) (by omega)
    rw [same]
    exact moves.image laid divided away (work.words slot member).1 (reworked.images slot member)
  case unrooted =>
    intro list
    rw [isNode] at list
    contradiction
  case untabled =>
    intro _ inner none
    rw [tableAt inner]
    exact reworked.untabled inner none
  case tabled =>
    intro tabled
    have table := reworked.tabled tabled
    have inside := table.inside
    rw [← tableAt (table_node tabled).2.1] at table inside
    refine ⟨⟨table.above, inside.trans (Nat.le_add_right _ _), fun i below => ?_, fun i lower upper => ?_⟩,
      .inl (by omega)⟩
    · rw [← table.entries i below]
      simp only [tableExtent] at inside
      exact takeCopy_outside (.inl (by omega))
    · obtain ⟨taken, idle⟩ := table.placed i lower upper
      exact ⟨.inl taken, idle⟩
  case placed =>
    intro i lower upper
    refine ⟨.inr ⟨by omega, by omega⟩, fun busyByte => ?_⟩
    have := work.start.busyInside i busyByte
    omega

/-- A node whose words, from an offset on, have been replaced in place. -/
structure InPlace (old : Heap) (graph : Finset Object) (level : ℕ) (busy : Set ℕ) (heap heap' : Heap)
    (object : Object) (offset : ℕ) : Prop where
  collecting : Collecting old graph level busy heap'
  moves : Moves old graph level
    {i | object.address + offset ≤ i ∧ i < object.address + old.extent object} 0 heap heap'
  images : ∀ slot ∈ old.slots object,
    Image old heap' (old.refAt (object.address + slot.offset) slot.isNode)
      (heap'.refAt (object.address + slot.offset) slot.isNode)
  same : ∀ i, old.Owns object i → (i < object.address + offset ∨ object.address + old.extent object ≤ i) →
    heap'.mem i = old.mem i

private theorem inPlace {copyWord : Heap → Term → Except Stop (Term × Heap)} {word : Bool} {offset : ℕ}
    (copies : Copies old graph atom stack word copyWord)
    (slots : old.slots object = slotsFrom offset (old.nodeLen object.address) word)
    (extent : old.extent object = offset + 8 * old.nodeLen object.address)
    (work : AtWork old graph atom depth level busy heap object) :
    SucceedsUnless (stack < level) .stackOverflow (mapWords copyWord (object.address + offset)
      (old.nodeLen object.address) heap)
      fun heap' => InPlace old graph level busy heap heap' object offset := by
  have scratch : Scratch old graph level busy heap (object.address + offset)
      (object.address + offset + 8 * old.nodeLen object.address) :=
    .inr ⟨object, work.member, work.deep, work.white, by omega, by omega⟩
  have replaced := work.mapSlots laid divided away copies (work.start.deepen work.le)
    (fun slot member => slots ▸ member) scratch
    fun slot member => (work.agrees laid divided).refAt (slots ▸ member)
  refine replaced.mono fun heap' after => ?_
  obtain ⟨collecting, moves, images⟩ := after
  rw [Nat.add_assoc, ← extent] at moves
  refine ⟨collecting, moves, by rwa [slots], fun i owned outside => ?_⟩
  rw [moves.keeps i _ (.inr ⟨object, work.member, work.deep, owned⟩),
    work.start.white object work.member work.shallow work.white i owned]
  rintro ⟨lower, upper⟩
  omega

omit laid divided away in
private theorem table_internal (isNode : object.form = .node) (inner : heap.isLeaf object.address = false) :
    heap.table object = heap.mem.readNat (object.address + 16) 8 := by
  simp [table, isNode, inner]

/-- The size table of a node has been forwarded, and the node refers to the copy. -/
structure Rewrites (heap heap' : Heap) (table node new : ℕ) : Prop where
  toSpace : heap'.toSpace = heap.toSpace
  fromSpace : heap'.fromSpace = heap.fromSpace
  allocPtr : heap'.allocPtr = heap.allocPtr
  size : heap'.size = heap.size
  changes : ∀ i, heap'.mem i ≠ heap.mem i →
    i + 1 = new ∨ table ≤ i + 1 ∧ i < table + 8 ∨ node + 16 ≤ i ∧ i < node + 24
  word : heap'.mem.readNat (node + 16) 8 = new

omit laid divided away in
private theorem rewrites_table (heap : Heap) (node : ℕ) {table new : ℕ} (positive : 0 < table) (positive' : 0 < new)
    (small : new < 2 ^ 64) :
    Rewrites heap ((heap.forward table new).writeTerm (node + 16) (UInt64.ofNat new)) table node new where
  toSpace := rfl
  fromSpace := rfl
  allocPtr := rfl
  size := rfl
  changes i changed := by
    by_contra outside
    apply changed
    have word : ((heap.forward table new).writeTerm (node + 16) (UInt64.ofNat new)).mem i =
        (heap.forward table new).mem i :=
      ByteMemory.writeBytes_outside (by simp only [littleEndian_length]; omega)
    rw [word, forward, setForwardFlag_outside (by omega)]
    have address : (heap.setForwardFlag new false).mem.writeNat table 8 new i = (heap.setForwardFlag new false).mem i :=
      ByteMemory.writeBytes_outside (by simp only [littleEndian_length]; omega)
    exact address.trans (setForwardFlag_outside (by omega))
  word := by
    have read : ((heap.forward table new).writeTerm (node + 16) (UInt64.ofNat new)).mem.readNat (node + 16) 8 =
        (UInt64.ofNat new).toNat % 256 ^ 8 := ByteMemory.readNat_writeNat _ _ _ _
    rw [read, UInt64.toNat_ofNat_of_lt' (by simpa [UInt64.size] using small), Nat.mod_eq_of_lt (by simpa using small)]

namespace InPlace

variable {offset : ℕ} (work : AtWork old graph atom depth level busy heap object)
  (words : InPlace old graph level busy heap heap' object offset) (header : 16 ≤ offset)

omit divided away in
include work words header in
/-- Without a size table there is nothing more to be done before the node is copied. -/
theorem reworked (isNode : object.form = .node) (inner : old.isLeaf object.address = false → offset = 24)
    (none : old.table object = 0) : Reworked old graph level busy busy heap heap' object := by
  have header' : old.headerSize object = 16 := by simp [headerSize, isNode]
  have extent := headerSize_le_extent old object
  have positive := (holds_iff.mp (laid.held object work.member)).1
  constructor
  case collecting => exact words.collecting
  case more => exact Set.Subset.rfl
  case moves =>
    have used : old.footprint object - (old.extent object + 1) = 0 := by simp [footprint, none]
    rw [used]
    refine words.moves.widen ?_
    rintro i ⟨lower, upper⟩
    exact .inl ⟨.inl ⟨by omega, upper⟩, by omega⟩
  case header => exact fun i below => words.same _ (.inl ⟨by omega, by omega⟩) (.inl (by omega))
  case images => exact words.images
  case untabled =>
    intro internal _
    have extent' : 24 ≤ old.extent object := by simp [Heap.extent, isNode, internal, sizeofInternalNode]
    rw [← none, table_internal isNode internal]
    refine ByteMemory.readNat_congr fun i lower upper => words.same i (.inl ⟨by omega, by omega⟩) (.inl ?_)
    rw [inner internal]
    omega
  case tabled => exact fun tabled => absurd none tabled

include work words in
/-- The size table of a node is copied, and its new address is written to the node. -/
private theorem reworked_table {word : Bool} (isNode : object.form = .node) (twentyFour : offset = 24)
    (slots : old.slots object = slotsFrom offset (old.nodeLen object.address) word)
    (tabled : old.table object ≠ 0) :
    Reworked old graph level busy (busy ∪ heap'.fresh (tableExtent (old.nodeLen object.address))) heap
      (((heap'.takeCopy (old.table object) (tableExtent (old.nodeLen object.address))).forward (old.table object)
        (heap'.allocPtr + 1)).writeTerm (object.address + 16) (UInt64.ofNat (heap'.allocPtr + 1))) object := by
  have footprint : old.footprint object =
      old.extent object + 1 + (tableExtent (old.nodeLen object.address) + 1) := by
    simp [Heap.footprint, tabled]
  have room := work.room
  have spent := words.moves.spent
  have toSpace := words.moves.toSpace
  have allocPtr := words.moves.allocPtr
  have start := work.start.start
  have extent := headerSize_le_extent old object
  have extent' : 24 ≤ old.extent object := by
    simp [Heap.extent, isNode, (table_node tabled).2.1, sizeofInternalNode]
  have apart := laid.tableApart object work.member tabled
  obtain ⟨above, -, tableInside⟩ := holds_iff.mp (laid.held object work.member)
  obtain ⟨table, -⟩ := tableInside tabled
  clear tableInside
  have eight : 8 ≤ tableExtent (old.nodeLen object.address) := Nat.le_add_right _ _
  generalize tableSize : tableExtent (old.nodeLen object.address) = size at *
  rw [work.start.size, ← words.collecting.size, ← toSpace] at room
  obtain ⟨collecting, moves⟩ := takeCopy_collects laid divided away words.collecting (old.table object)
    (show heap'.allocPtr + (size + 1) + left old graph level heap' ≤ _ by omega)
  have outside {i : ℕ} (apart : i < heap'.allocPtr + 1 ∨ heap'.allocPtr + 1 + size ≤ i) :
      (heap'.takeCopy (old.table object) size).mem i = heap'.mem i := takeCopy_outside apart
  have copied (i : ℕ) (inside : i < size) : (heap'.takeCopy (old.table object) size).mem (heap'.allocPtr + 1 + i) =
      heap'.mem (old.table object + i) := takeCopy_byte inside
  have allocPtr₂ : (heap'.takeCopy (old.table object) size).allocPtr = heap'.allocPtr + (size + 1) := rfl
  have toSpace₂ : (heap'.takeCopy (old.table object) size).toSpace = heap'.toSpace := rfl
  -- From here on only the flags, the forward address and the word at offset 16 change.
  have rewrites := rewrites_table (heap'.takeCopy (old.table object) size) object.address
    (Nat.zero_lt_of_lt table) (Nat.succ_pos heap'.allocPtr)
    (show heap'.allocPtr + 1 < 2 ^ 64 by
      have := divided.low
      have := divided.small
      have := words.collecting.toSpace
      have := words.collecting.size
      omega)
  generalize heap'.takeCopy (old.table object) size = heap₂ at *
  generalize (heap₂.forward _ _).writeTerm _ _ = heap₃ at *
  have owned {i : ℕ} (changed : heap₃.mem i ≠ heap₂.mem i) (old' : i ≠ heap'.allocPtr) :
      old.Owns object i ∧ i + 1 ≠ object.address := by
    rcases rewrites.changes i changed with new | ⟨lower, upper⟩ | ⟨lower, upper⟩
    · omega
    · exact ⟨.inr ⟨tabled, lower, by omega⟩, by omega⟩
    · exact ⟨.inl ⟨by omega, by omega⟩, by omega⟩
  have white : heap₂.forwardFlag object.address = false := by
    have apart' := collecting.spaces laid divided work.member
      (laid.owns_start work.member (show object.address ≤ object.address - 1 + 1 by omega) (by omega))
    have first := words.moves.flag_deep laid work.member work.deep (by rintro ⟨lower, -⟩; omega)
    rw [moves.flag_deep laid work.member work.deep (by rintro ⟨lower, upper⟩; omega), first]
    exact work.white
  have scribbles : Scribbles old graph level (busy ∪ heap'.fresh size) heap₂ heap₃ :=
    ⟨rewrites.toSpace, rewrites.fromSpace, rewrites.allocPtr, rewrites.size, fun i changed => by
      by_cases new : i = heap'.allocPtr
      · exact .inl (.inr ⟨by omega, by omega⟩)
      · exact .inr ⟨object, work.member, work.deep, white, owned changed new⟩⟩
  have kept (i : ℕ) (mine : old.Owns object i) (apart₁ : ¬ (old.table object ≤ i + 1 ∧ i < old.table object + 8))
      (apart₂ : ¬ (object.address + 16 ≤ i ∧ i < object.address + 24)) : heap₃.mem i = heap'.mem i := by
    have space := collecting.spaces laid divided work.member mine
    rw [← outside (by omega)]
    by_contra changed
    rcases rewrites.changes i changed with new | table | word <;> omega
  have moves₃ : Moves old graph level {i | heap₃.mem i ≠ heap₂.mem i} 0 heap₂ heap₃ :=
    scribbles.moves laid divided collecting fun i changed => changed
  have allocPtr₃ := rewrites.allocPtr
  have toSpace₃ := rewrites.toSpace
  constructor
  case collecting => exact scribbles.collects laid divided collecting away
  case more => exact Set.subset_union_left
  case moves =>
    have used : old.footprint object - (old.extent object + 1) = 0 + (size + 1) + 0 := by omega
    rw [used]
    refine ((words.moves.widen ?first).trans (moves.widen ?second)).trans (moves₃.widen ?third)
    case first =>
      rintro i ⟨lower, upper⟩
      exact .inl ⟨.inl ⟨by omega, upper⟩, by omega⟩
    case second =>
      rintro i ⟨lower, upper⟩
      exact .inr ⟨by omega, by omega⟩
    case third =>
      intro i changed
      by_cases new : i = heap'.allocPtr
      · exact .inr ⟨by omega, by omega⟩
      · exact .inl (owned changed new)
  case header =>
    intro i below
    rw [kept _ (.inl ⟨by omega, by omega⟩) (by omega) (by omega)]
    exact words.same _ (.inl ⟨by omega, by omega⟩) (.inl (by omega))
  case images =>
    intro slot member
    have inside := slot_inside member
    have image := moves.image laid divided away (work.words slot member).1 (words.images slot member)
    have later := moves₃.image laid divided away (work.words slot member).1 image
    have same : heap₃.refAt (object.address + slot.offset) slot.isNode =
        heap'.refAt (object.address + slot.offset) slot.isNode := by
      rw [slots] at member
      obtain ⟨k, -, rfl⟩ := mem_slotsFrom.mp member
      dsimp only at inside ⊢
      exact refAt_congr fun i below => kept _ (.inl ⟨by omega, by omega⟩) (by omega) (by omega)
    rwa [same]
  case untabled => exact fun _ none => absurd none tabled
  case tabled =>
    intro _
    rw [rewrites.word]
    constructor
    case above => omega
    case inside => omega
    case entries =>
      intro i below
      simp only [tableExtent, sizeofSizeTable] at tableSize ⊢
      have same : heap₃.mem (heap'.allocPtr + 1 + 8 + i) = heap₂.mem (heap'.allocPtr + 1 + 8 + i) := by
        by_contra changed
        have space := collecting.spaces laid divided work.member (owned changed (by omega)).1
        omega
      rw [same, Nat.add_assoc, copied (8 + i) (by omega), ← Nat.add_assoc]
      exact words.same _ (.inr ⟨tabled, by omega, by simp only [tableExtent, sizeofSizeTable]; omega⟩) (by omega)
    case placed =>
      intro i lower upper
      refine ⟨.inr ⟨by omega, by omega⟩, fun busyByte => ?_⟩
      have := work.start.busyInside i busyByte
      omega

end InPlace

omit laid divided away in
private theorem bumpCpy_ok {src size : ℕ} (eight : 8 ≤ size)
    (room : heap.allocPtr + (size + 1) ≤ heap.toSpace + heap.size / 2) :
    heap.bumpCpy src size =
      .ok (heap.allocPtr + 1, (heap.takeCopy src size).forward src (heap.allocPtr + 1)) := by
  simp only [bumpCpy, if_neg (Nat.not_lt.mpr eight), checkOverflow_of_room room]
  rfl

/-- A node is moved once its words have been replaced. -/
theorem Reworked.bumpCpy (work : AtWork old graph atom depth level busy heap object) (isNode : object.form = .node)
    (reworked : Reworked old graph level busy busy' heap heap' object) :
    ∃ address heap'', heap'.bumpCpy object.address (old.extent object) = .ok (address, heap'') ∧
      Collecting old graph depth busy heap'' ∧ Moves old graph depth ∅ 0 heap heap'' ∧
      address < 2 ^ 64 ∧ heap''.forwardFlag object.address = true ∧
      heap''.forwardAddress object.address = address := by
  have room := work.room
  have spent := reworked.moves.spent
  have footprint := footprint_eq old object
  have toSpace := reworked.moves.toSpace
  have header := headerSize_le_extent old object
  have node : old.headerSize object = 16 := by simp [headerSize, isNode]
  rw [work.start.size, ← reworked.collecting.size, ← toSpace] at room
  have low : heap'.allocPtr + 1 < 2 ^ 64 := by
    have := divided.low
    have := divided.small
    have := reworked.collecting.toSpace
    have := reworked.collecting.size
    omega
  have filled := reworked.filled laid divided away work isNode
  obtain ⟨collecting, moves, black, address⟩ := filled.forward laid divided work away low
  exact ⟨_, _, bumpCpy_ok (by omega) (by omega), collecting, moves, low, black, address⟩

/-- `copy_list_node`, with copiers for the words of a node. -/
theorem copyListNodeBody_copies (term : Copies old graph atom stack false copy)
    (node : Copies old graph atom stack true (copyPointer copyListNode)) :
    Copies old graph atom (stack + 1) true (copyPointer fun heap node => heap.copyListNodeBody copy copyListNode node) := by
  intro depth busy heap word value collecting good read whole
  simp only [wordRef, if_true] at good read ⊢
  generalize nodeAt : word.toNat = address at good read ⊢
  have member : (⟨.node, address⟩ : Object) ∈ graph := good
  have found := target_node old address
  rw [copyPointer, nodeAt, copyListNodeBody]
  cases flag : heap.forwardFlag address with
  | true =>
    have small := heap.mem.readNat_lt address 8
    refine .ok ⟨collecting, .refl heap, flag, ?_⟩
    rw [UInt64.toNat_ofNat_of_lt' (by simpa [UInt64.size, forwardAddress] using small)]
    rfl
  | false =>
    obtain ⟨level, work⟩ := AtWork.of_read laid collecting member found read whole flag
    have agrees := work.agrees laid divided
    have deeper (below : stack < level) : stack + 1 < depth := Nat.lt_of_le_of_lt below work.lt
    have len : heap.mem.readNat (address + 4) 4 = old.nodeLen address := agrees.header.nodeLen
    have leaf : heap.isLeaf address = old.isLeaf address := agrees.header.isLeaf
    have finish {heap' : Heap} {busy' : Set ℕ}
        (reworked : Reworked old graph level busy busy' heap heap' ⟨.node, address⟩) :
        SucceedsUnless (stack + 1 < depth) .stackOverflow (do
          let copied ← heap'.bumpCpy address (old.extent ⟨.node, address⟩)
          return (UInt64.ofNat copied.1, copied.2)) fun done =>
            Collecting old graph depth busy done.2 ∧ Moves old graph depth ∅ 0 heap done.2 ∧
              Image old done.2 (.node address) (.node done.1.toNat) := by
      obtain ⟨copied, heap'', done, collecting', moves, low, black, forwarded⟩ :=
        reworked.bumpCpy laid divided away work rfl
      rw [done]
      refine .ok ⟨collecting', moves, black, ?_⟩
      rw [UInt64.toNat_ofNat_of_lt' (by simpa [UInt64.size] using low), forwarded]
      rfl
    simp only [Bool.false_eq_true, if_false, len]
    cases inner : old.isLeaf address with
    | true =>
      have kind : heap.mem.readNat address 4 = 0 := by
        rw [inner] at leaf
        simpa [isLeaf] using leaf
      have extent : old.extent ⟨.node, address⟩ = sizeofLeafNode + 8 * old.nodeLen address := by
        simp [Heap.extent, inner]
      have none : old.table ⟨.node, address⟩ = 0 := by simp [table, inner]
      rw [if_pos kind, bind_assoc, Nat.mul_comm (old.nodeLen address) 8, ← extent]
      have replaced := inPlace laid divided away term (by simp [slots, inner]) extent work
      refine (replaced.weaken deeper).bind fun heap' words => finish (words.reworked laid work (by decide) rfl ?_ none)
      rw [inner]
      simp
    | false =>
      have kind : heap.mem.readNat address 4 ≠ 0 := by
        rw [inner] at leaf
        simpa [isLeaf] using leaf
      have extent : old.extent ⟨.node, address⟩ = sizeofInternalNode + 8 * old.nodeLen address := by
        simp [Heap.extent, inner]
      have slots : old.slots ⟨.node, address⟩ = slotsFrom sizeofInternalNode (old.nodeLen address) true := by
        simp [Heap.slots, inner]
      rw [if_neg kind, bind_assoc, Nat.mul_comm (old.nodeLen address) 8, ← extent]
      have replaced := inPlace laid divided away node slots extent work
      refine (replaced.weaken deeper).bind fun heap' words => ?_
      have table : heap'.mem.readNat (address + 16) 8 = old.table ⟨.node, address⟩ := by
        rw [table_internal rfl inner]
        refine ByteMemory.readNat_congr fun i lower upper => words.same i (.inl ⟨?_, ?_⟩) (.inl ?_)
        · change address ≤ i + 1
          omega
        · rw [extent]
          simp only [sizeofInternalNode]
          omega
        · simp only [sizeofInternalNode]
          omega
      rw [table]
      by_cases none : old.table ⟨.node, address⟩ = 0
      · rw [if_neg (not_not.mpr none), bind_assoc]
        exact finish (words.reworked laid work (by decide) rfl (fun _ => rfl) none)
      · have room := work.room
        have spent := words.moves.spent
        have toSpace := words.moves.toSpace
        have footprint : old.footprint ⟨.node, address⟩ = old.extent ⟨.node, address⟩ + 1 +
            (tableExtent (old.nodeLen address) + 1) := by
          simp [Heap.footprint, none]
        rw [work.start.size, ← words.collecting.size, ← toSpace] at room
        have bumped : heap'.bumpCpy (old.table ⟨.node, address⟩) (sizeofSizeTable + old.nodeLen address * 4) =
            .ok (heap'.allocPtr + 1, (heap'.takeCopy (old.table ⟨.node, address⟩)
              (tableExtent (old.nodeLen address))).forward (old.table ⟨.node, address⟩) (heap'.allocPtr + 1)) := by
          rw [show sizeofSizeTable + old.nodeLen address * 4 = tableExtent (old.nodeLen address) by
            rw [tableExtent, Nat.mul_comm]]
          exact bumpCpy_ok (Nat.le_add_right _ _) (by omega)
        rw [if_pos none, bumped]
        exact finish (words.reworked_table laid divided away work rfl rfl slots none)

end Bodies

/-- `copy` and `copy_list_node` replace words by their images at every depth of the stack. -/
theorem copy_copies (laid : old.Laid atom graph) (divided : old.Divided) (away : old.AtomsAway atom)
    {emptyRrb : ℕ} (emptyAway : old.Away emptyRrb) (stack : ℕ) :
    Copies old graph atom stack false (copy emptyRrb stack) ∧
      Copies old graph atom stack true (copyPointer (copyListNode emptyRrb stack)) := by
  induction stack with
  | zero =>
    constructor
    · intro depth busy heap word value _ _ read _
      exact .inl ⟨decode_pos read, rfl⟩
    · intro depth busy heap word value _ _ read _
      exact .inl ⟨decode_pos read, rfl⟩
  | succ stack ih =>
    obtain ⟨term, node⟩ := ih
    constructor
    · exact copyBody_copies laid divided away emptyAway term node
    · exact copyListNodeBody_copies laid divided away term node

end Heap

end Owl.Runtime
