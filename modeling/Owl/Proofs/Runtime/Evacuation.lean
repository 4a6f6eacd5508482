import Owl.Proofs.Runtime.Copying

/-! # Moving an object

An object at work is white and cannot be read to the level at which its words are copied. Its copy is
filled in the new space; then its flag is set, and it leaves the collection at the depth of its caller.
-/

namespace Owl.Runtime

open Except (SucceedsUnless)

namespace Heap

variable {old heap heap' : Heap} {graph : Finset Object} {atom : Term → Prop} {depth level stack : ℕ}
  {busy busy' : Set ℕ} {object : Object}

/-- An object that the copier has reached for the first time. -/
structure AtWork (old : Heap) (graph : Finset Object) (atom : Term → Prop) (depth level : ℕ) (busy : Set ℕ)
    (heap : Heap) (object : Object) : Prop where
  member : object ∈ graph
  start : Collecting old graph depth busy heap
  shallow : old.shallow depth object = true
  deep : old.shallow level object = false
  white : heap.forwardFlag object.address = false
  whole : (old.head object).whole = true
  words : ∀ slot ∈ old.slots object,
    Good atom graph (old.refAt (object.address + slot.offset) slot.isNode) ∧
      ∃ value, old.decode level (old.refAt (object.address + slot.offset) slot.isNode) = some value ∧
        value.whole = true

/-- A white object of a value is at work on some level. -/
theorem AtWork.of_read (laid : old.Laid atom graph) (start : Collecting old graph depth busy heap)
    (member : object ∈ graph) {ref : Ref} {value : Value} (found : old.target ref = some object)
    (read : old.decode depth ref = some value) (whole : value.whole = true)
    (white : heap.forwardFlag object.address = false) :
    ∃ level, AtWork old graph atom depth level busy heap object := by
  obtain ⟨level, -, deep, exact⟩ := exact_depth found read
  rw [decode_object found] at exact
  obtain ⟨held, parts, each, rfl⟩ := readObject_eq_some.mp exact
  obtain ⟨head, wholeParts⟩ := Value.all_object.mp whole
  refine ⟨level, member, start, shallow_of_decode found read, deep, white, head, fun slot inside => ?_⟩
  obtain ⟨i, rfl⟩ := List.get_of_mem inside
  have bound : i.val < parts.length := by
    rw [← each.length_eq]
    exact i.isLt
  exact ⟨laid.closed object member _ inside, _, each.get i.isLt bound, wholeParts _ (List.get_mem parts _)⟩

namespace AtWork

variable (work : AtWork old graph atom depth level busy heap object)

include work

theorem lt : level < depth := level_lt work.shallow work.deep

theorem le : level ≤ depth := work.lt.le

/-- The object is as it was. -/
theorem agrees (laid : old.Laid atom graph) (divided : old.Divided) : old.AgreesOn heap object where
  size := work.start.size
  bounded := by
    have inside := holds_iff.mp (laid.held object work.member)
    have room := divided.room
    omega
  bytes := work.start.white object work.member work.shallow work.white

/-- There is room for its copy. -/
theorem room : heap.allocPtr + old.footprint object + left old graph level heap ≤
    heap.toSpace + heap.size / 2 := by
  have room := work.start.room
  have spare := left_add_footprint work.le work.member work.shallow work.deep work.white
  omega

end AtWork

/-- A block with a flag byte, filled with `n` bytes from elsewhere. -/
def takeCopy (heap : Heap) (src n : ℕ) : Heap :=
  { heap with
    mem := heap.mem.writeBytes (heap.allocPtr + 1) (heap.mem.readBytes src n)
    allocPtr := heap.allocPtr + (n + 1) }

theorem takeCopy_byte {src n i : ℕ} (inside : i < n) :
    (heap.takeCopy src n).mem (heap.allocPtr + 1 + i) = heap.mem (src + i) := by
  have written : heap.allocPtr + 1 + i < heap.allocPtr + 1 + (heap.mem.readBytes src n).length := by
    rw [ByteMemory.readBytes_length]
    omega
  change heap.mem.writeBytes _ _ _ = _
  rw [ByteMemory.writeBytes_inside (by omega) written, Nat.add_sub_cancel_left,
    List.getD_eq_getElem?_getD, ByteMemory.readBytes_getElem? inside]
  rfl

theorem takeCopy_outside {src n i : ℕ} (outside : i < heap.allocPtr + 1 ∨ heap.allocPtr + 1 + n ≤ i) :
    (heap.takeCopy src n).mem i = heap.mem i :=
  ByteMemory.writeBytes_outside (by simpa using outside)

/-- The bytes of the next block. -/
def fresh (heap : Heap) (n : ℕ) : Set ℕ := {i | heap.allocPtr ≤ i ∧ i < heap.allocPtr + (n + 1)}

theorem takeCopy_collects (laid : old.Laid atom graph) (divided : old.Divided) (away : old.AtomsAway atom)
    (collecting : Collecting old graph level busy heap) (src : ℕ) {n : ℕ}
    (room : heap.allocPtr + (n + 1) + left old graph level heap ≤ heap.toSpace + heap.size / 2) :
    Collecting old graph level (busy ∪ heap.fresh n) (heap.takeCopy src n) ∧
      Moves old graph level (heap.fresh n) (n + 1) heap (heap.takeCopy src n) := by
  have takes : Takes heap { heap with allocPtr := heap.allocPtr + (n + 1) } (n + 1) := ⟨rfl, rfl, rfl, rfl, rfl⟩
  have taken := collecting.take laid divided away takes room
  have changed (i : ℕ) (different : (heap.takeCopy src n).mem i ≠ heap.mem i) : i ∈ heap.fresh n := by
    by_contra outside
    refine different (takeCopy_outside ?_)
    change ¬ (_ ∧ _) at outside
    omega
  have scribbles : Scribbles old graph level (busy ∪ heap.fresh n)
      { heap with allocPtr := heap.allocPtr + (n + 1) } (heap.takeCopy src n) :=
    ⟨rfl, rfl, rfl, rfl, fun i different => .inl (.inr (changed i different))⟩
  refine ⟨scribbles.collects laid divided taken away, ?_⟩
  have moves : Moves old graph level (heap.fresh n) (n + 1) heap { heap with allocPtr := heap.allocPtr + (n + 1) } :=
    takes.moves
  exact moves.trans (scribbles.moves laid divided taken changed)

theorem setForwardFlag_outside {ptr i : ℕ} {val : Bool} (outside : i ≠ ptr - 1) :
    (heap.setForwardFlag ptr val).mem i = heap.mem i :=
  ByteMemory.writeBytes_outside (by simp only [List.length_singleton]; omega)

private theorem setForwardFlag_same (heap : Heap) (ptr : ℕ) (val : Bool) :
    (heap.setForwardFlag ptr val).forwardFlag ptr = val := by
  have byte : (heap.setForwardFlag ptr val).mem (ptr - 1) = if val then 1 else 0 := by
    simp [setForwardFlag, ByteMemory.writeBytes_singleton]
  rw [forwardFlag, byte]
  cases val <;> decide

/-- After the flag of the copy is cleared, forwarding only touches the object. -/
private theorem forward_settles (heap : Heap) {address : ℕ} (positive : 0 < object.address) (small : address < 2 ^ 64) :
    Settles (heap.setForwardFlag address false) (heap.forward object.address address) object address where
  toSpace := rfl
  fromSpace := rfl
  allocPtr := rfl
  size := rfl
  changes i changed := by
    by_contra outside
    apply changed
    rw [forward, setForwardFlag_outside (by omega)]
    exact ByteMemory.writeBytes_outside (by simp only [littleEndian_length]; omega)
  flag := setForwardFlag_same _ _ _
  address := by
    rw [forwardAddress, forward]
    have same : ∀ i < 8, ((({ heap.setForwardFlag address false with
        mem := (heap.setForwardFlag address false).mem.writeNat object.address 8 address } : Heap).setForwardFlag
          object.address true).mem (object.address + i)) =
        (heap.setForwardFlag address false).mem.writeNat object.address 8 address (object.address + i) :=
      fun i below => setForwardFlag_outside (by omega)
    rw [ByteMemory.readNat_shift same, ByteMemory.readNat_writeNat, Nat.mod_eq_of_lt (by simpa using small)]

/-- A copy of a size table. -/
structure TableCopied (old : Heap) (busy busy' : Set ℕ) (heap : Heap) (object : Object) (table : ℕ) : Prop where
  above : heap.toSpace < table
  inside : table + tableExtent (old.nodeLen object.address) ≤ heap.allocPtr
  entries : ∀ i < 4 * old.nodeLen object.address,
    heap.mem (table + sizeofSizeTable + i) = old.mem (old.table object + sizeofSizeTable + i)
  placed : ∀ i, table ≤ i + 1 → i < table + tableExtent (old.nodeLen object.address) → i ∈ busy' ∧ i ∉ busy

/-- The size table of a copy. -/
structure TableFilled (old : Heap) (busy busy' : Set ℕ) (heap : Heap) (object : Object) (address : ℕ) : Prop
    extends TableCopied old busy busy' heap object (heap.mem.readNat (address + 16) 8) where
  apart : heap.mem.readNat (address + 16) 8 + tableExtent (old.nodeLen object.address) < address ∨
    address + old.extent object < heap.mem.readNat (address + 16) 8

/-- A copy with all its words, before the object is forwarded to it. -/
structure Filled (old : Heap) (graph : Finset Object) (level : ℕ) (busy busy' : Set ℕ) (heap heap' : Heap)
    (object : Object) (address : ℕ) : Prop where
  collecting : Collecting old graph level busy' heap'
  more : busy ⊆ busy'
  moves : Moves old graph level {i | old.Owns object i ∨ heap.allocPtr ≤ i ∧ i < heap'.allocPtr}
    (old.footprint object) heap heap'
  white : heap'.forwardFlag object.address = false
  above : heap'.toSpace < address
  fresh : heap.allocPtr < address
  inside : address + old.extent object ≤ heap'.allocPtr
  header : ∀ i < old.headerSize object, heap'.mem (address + i) = old.mem (object.address + i)
  images : ∀ slot ∈ old.slots object,
    Image old heap' (old.refAt (object.address + slot.offset) slot.isNode)
      (heap'.refAt (address + slot.offset) slot.isNode)
  unrooted : object.form = .list → old.mem.readNat (object.address + 24) 8 = 0 →
    heap'.mem.readNat (address + 24) 8 = 0
  untabled : object.form = .node → old.isLeaf object.address = false → old.table object = 0 →
    heap'.mem.readNat (address + 16) 8 = 0
  tabled : old.table object ≠ 0 → TableFilled old busy busy' heap' object address
  placed : ∀ i, address ≤ i + 1 → i < address + old.extent object → i ∈ busy' ∧ i ∉ busy

theorem table_node {object : Object} (tabled : heap.table object ≠ 0) :
    object.form = .node ∧ heap.isLeaf object.address = false ∧
      heap.table object = heap.mem.readNat (object.address + 16) 8 := by
  rw [table] at tabled ⊢
  split at tabled
  · next node =>
    rw [if_pos node]
    simpa using node
  · exact absurd rfl tabled

private theorem table_eq {address : ℕ} (inner : heap.isLeaf address = false) :
    heap.table ⟨.node, address⟩ = heap.mem.readNat (address + 16) 8 := by
  simp [table, inner]

namespace Filled

variable {address : ℕ} (laid : old.Laid atom graph) (divided : old.Divided)
  (work : AtWork old graph atom depth level busy heap object)
  (filled : Filled old graph level busy busy' heap heap' object address)

include filled in
theorem clear_outside {i : ℕ} (outside : i + 1 ≠ address) :
    (heap'.setForwardFlag address false).mem i = heap'.mem i := by
  have := filled.above
  exact setForwardFlag_outside (by omega)

include filled in
private theorem clear_scribbles (positive : 0 < old.extent object) :
    Scribbles old graph level busy' heap' (heap'.setForwardFlag address false) where
  toSpace := rfl
  fromSpace := rfl
  allocPtr := rfl
  size := rfl
  changes i changed := by
    have flag : i + 1 = address := by
      by_contra other
      exact changed (filled.clear_outside other)
    exact .inl (filled.placed i (by omega) (by omega)).1

include work filled

theorem root (list : object.form = .list) :
    (heap'.setForwardFlag address false).mem.readNat (address + 24) 8 = 0 ↔
      old.mem.readNat (object.address + 24) 8 = 0 := by
  have same : (heap'.setForwardFlag address false).mem.readNat (address + 24) 8 = heap'.mem.readNat (address + 24) 8 :=
    ByteMemory.readNat_congr fun i lower _ => filled.clear_outside (by omega)
  rw [same]
  constructor
  · intro absent
    by_contra present
    -- A root has a slot, and its image is the address of a finished copy.
    have slot : (⟨24, true⟩ : Slot) ∈ old.slots object := by
      obtain ⟨form, start⟩ := object
      cases list
      simp [slots, present]
    have image := filled.images _ slot
    obtain ⟨black, moved⟩ : heap'.forwardFlag (old.mem.readNat (object.address + 24) 8) = true ∧
        Ref.node (heap'.mem.readNat (address + 24) 8) =
          .node (heap'.forwardAddress (old.mem.readNat (object.address + 24) 8)) := image
    have member : (⟨.node, old.mem.readNat (object.address + 24) 8⟩ : Object) ∈ graph := (work.words _ slot).1
    have above := (holds_iff.mp (filled.collecting.black _ member black).held).1
    rw [absent] at moved
    rw [← Ref.node.inj moved] at above
    exact Nat.not_lt_zero _ above
  · exact filled.unrooted list

include laid divided

/-- The copy with its flag cleared has the header of the object. -/
theorem sameHeader : SameHeader old (heap'.setForwardFlag address false) object.form object.address address where
  size := filled.collecting.size
  bounded := (work.agrees laid divided).bounded
  bytes i inside := by
    rw [filled.clear_outside (by omega)]
    exact filled.header i inside

private theorem cleared_table : (heap'.setForwardFlag address false).table ⟨object.form, address⟩ =
    if old.table object = 0 then 0 else heap'.mem.readNat (address + 16) 8 := by
  have same : (heap'.setForwardFlag address false).mem.readNat (address + 16) 8 = heap'.mem.readNat (address + 16) 8 :=
    ByteMemory.readNat_congr fun i lower _ => filled.clear_outside (by omega)
  have header := filled.sameHeader laid divided work
  have untabled := filled.untabled
  obtain ⟨form, start⟩ := object
  cases form with
  | node =>
    have leaf := header.isLeaf
    cases inner : old.isLeaf start with
    | true => simp [table, inner, leaf]
    | false =>
      rw [inner] at leaf
      rw [table_eq leaf, same]
      split
      · next none => exact untabled rfl inner none
      · rfl
  | _ => simp [table]

private theorem cleared_copied (away : old.AtomsAway atom) : CopiedTo old (heap'.setForwardFlag address false)
    object address := by
  have header := filled.sameHeader laid divided work
  have table := filled.cleared_table laid divided work
  have extent := header.extent
  have above := filled.above
  have inside := filled.inside
  have nodeLen (tabled : old.table object ≠ 0) :
      (heap'.setForwardFlag address false).nodeLen address = old.nodeLen object.address := by
    have node := (table_node tabled).1
    rw [node] at header
    exact header.nodeLen
  constructor
  case held =>
    rw [holds_iff, extent, table]
    refine ⟨above, inside, fun tabled => ?_⟩
    split at tabled
    · contradiction
    · next present =>
      rw [if_neg present, nodeLen present]
      exact ⟨(filled.tabled present).above, (filled.tabled present).inside⟩
  case unmoved => exact setForwardFlag_same _ _ _
  case extent => exact extent
  case slots => exact header.slots fun list => filled.root work list
  case head =>
    apply header.head
    intro node inner
    have entriesAt : (⟨object.form, object.address⟩ : Object) = object := rfl
    rw [entriesAt, table]
    by_cases none : old.table object = 0
    · simp [none]
    · have tabled := filled.tabled none
      have positive : heap'.mem.readNat (address + 16) 8 ≠ 0 := by
        have := tabled.above
        omega
      rw [if_neg none]
      refine ⟨iff_of_false positive none, fun _ => ?_⟩
      apply List.map_congr_left
      intro k small
      have small := List.mem_range.mp small
      refine ByteMemory.readNat_shift fun i below => ?_
      have apart := tabled.apart
      simp only [tableExtent] at apart
      rw [filled.clear_outside (by omega), Nat.add_assoc, Nat.add_assoc _ (4 * k)]
      exact tabled.entries (4 * k + i) (by omega)
  case tableApart =>
    rw [table]
    intro tabled
    split at tabled
    · contradiction
    · next present =>
      rw [if_neg present, nodeLen present]
      exact (filled.tabled present).apart
  case words =>
    intro slot member
    have clear : (heap'.setForwardFlag address false).refAt (address + slot.offset) slot.isNode =
        heap'.refAt (address + slot.offset) slot.isNode :=
      refAt_congr fun i _ => filled.clear_outside (by omega)
    have scribbles := filled.clear_scribbles (by have := slot_inside member; omega)
    have moves := scribbles.moves laid divided filled.collecting fun i _ => Set.mem_univ i
    rw [clear]
    exact moves.image laid divided away (work.words slot member).1 (filled.images slot member)

/-- A filled copy whose flag is cleared is complete. -/
theorem complete (away : old.AtomsAway atom) : Complete old graph level busy busy' heap
    (heap'.setForwardFlag address false) object address := by
  have scribbles := filled.clear_scribbles (extent_pos old object)
  have copied := filled.cleared_copied laid divided work away
  have above := filled.above
  have inside := filled.inside
  constructor
  case collecting => exact scribbles.collects laid divided filled.collecting away
  case more => exact filled.more
  case moves =>
    have fresh := filled.fresh
    have clear : Moves old graph level {i | old.Owns object i ∨ heap.allocPtr ≤ i ∧ i < heap'.allocPtr} 0
        heap' (heap'.setForwardFlag address false) := by
      apply scribbles.moves laid divided filled.collecting
      intro i changed
      have flag : i + 1 = address := by
        by_contra other
        exact changed (filled.clear_outside other)
      exact .inr ⟨by omega, by omega⟩
    exact filled.moves.trans clear
  case white => rw [scribbles.flag laid divided filled.collecting work.member]; exact filled.white
  case copied => exact copied
  case placed =>
    rintro i (⟨lower, upper⟩ | ⟨tabled, lower, upper⟩)
    · rw [copied.extent] at upper
      exact filled.placed i lower upper
    · have table := filled.cleared_table laid divided work
      rw [table] at tabled lower upper
      split at tabled
      · contradiction
      · next present =>
        have header := filled.sameHeader laid divided work
        rw [(table_node present).1] at header
        rw [if_neg present] at lower upper
        rw [show (heap'.setForwardFlag address false).nodeLen _ = _ from header.nodeLen] at upper
        exact (filled.tabled present).placed i lower upper

/-- Forwarding the object finishes it. -/
theorem forward (away : old.AtomsAway atom) (small : address < 2 ^ 64) :
    Collecting old graph depth busy (heap'.forward object.address address) ∧
      Moves old graph depth ∅ 0 heap (heap'.forward object.address address) ∧
      (heap'.forward object.address address).forwardFlag object.address = true ∧
      (heap'.forward object.address address).forwardAddress object.address = address := by
  have above := (holds_iff.mp (laid.held object work.member)).1
  have settles := forward_settles heap' (Nat.zero_lt_of_lt above) small
  have complete := filled.complete laid divided work away
  exact ⟨settles.collects laid divided work.member work.start work.shallow work.deep work.white complete away,
    settles.moves laid divided work.member work.start work.shallow work.deep work.white complete,
    settles.flag, settles.address⟩

end Filled

section Words

variable {copyWord : Heap → Term → Except Stop (Term × Heap)} {isNode : Bool} {offset n address : ℕ}

/-- Words of the object, wherever they have been put, are replaced by their images. -/
theorem AtWork.mapSlots (laid : old.Laid atom graph) (divided : old.Divided) (away : old.AtomsAway atom)
    (work : AtWork old graph atom depth level busy heap object)
    (copies : Copies old graph atom stack isNode copyWord) (collecting : Collecting old graph level busy' heap')
    (some : ∀ slot ∈ slotsFrom offset n isNode, slot ∈ old.slots object)
    (scratch : Scratch old graph level busy' heap' (address + offset) (address + offset + 8 * n))
    (same : ∀ slot ∈ slotsFrom offset n isNode, heap'.refAt (address + slot.offset) slot.isNode =
      old.refAt (object.address + slot.offset) slot.isNode) :
    SucceedsUnless (stack < level) .stackOverflow (mapWords copyWord (address + offset) n heap') fun heap'' =>
      Collecting old graph level busy' heap'' ∧
        Moves old graph level {i | address + offset ≤ i ∧ i < address + offset + 8 * n} 0 heap' heap'' ∧
        ∀ slot ∈ slotsFrom offset n isNode,
          Image old heap'' (old.refAt (object.address + slot.offset) slot.isNode)
            (heap''.refAt (address + slot.offset) slot.isNode) := by
  have slotAt (k : ℕ) (small : k < n) : (⟨offset + 8 * k, isNode⟩ : Slot) ∈ slotsFrom offset n isNode :=
    mem_slotsFrom.mpr ⟨k, small, rfl⟩
  have sameAt (k : ℕ) (small : k < n) : heap'.refAt (address + offset + 8 * k) isNode =
      old.refAt (object.address + (offset + 8 * k)) isNode := by
    rw [Nat.add_assoc]
    exact same _ (slotAt k small)
  have words (k : ℕ) (small : k < n) : Good atom graph (heap'.refAt (address + offset + 8 * k) isNode) ∧
      ∃ value, old.decode level (heap'.refAt (address + offset + 8 * k) isNode) = .some value ∧ value.whole = true := by
    rw [sameAt k small]
    exact work.words _ (some _ (slotAt k small))
  have replaced := mapWords_copies laid divided away copies collecting scratch words
  refine replaced.mono fun heap'' after => ?_
  obtain ⟨collecting', moves, images⟩ := after
  refine ⟨collecting', moves, fun slot member => ?_⟩
  obtain ⟨k, small, rfl⟩ := mem_slotsFrom.mp member
  have image := images k small
  rw [sameAt k small, Nat.add_assoc] at image
  exact image

end Words

theorem ofTag_cases {bits : UInt64} {form : Form} (tag : Form.ofTag bits = some form) :
    bits = Tag.tuple.bits ∧ form = .tuple ∨ bits = Tag.string.bits ∧ form = .string ∨
      bits = Tag.function.bits ∧ form = .function ∨ bits = Tag.list.bits ∧ form = .list := by
  unfold Form.ofTag at tag
  split at tag
  · exact .inl ⟨‹_›, (Option.some.inj tag).symm⟩
  split at tag
  · exact .inr (.inl ⟨‹_›, (Option.some.inj tag).symm⟩)
  split at tag
  · exact .inr (.inr (.inl ⟨‹_›, (Option.some.inj tag).symm⟩))
  split at tag
  · exact .inr (.inr (.inr ⟨‹_›, (Option.some.inj tag).symm⟩))
  · contradiction

/-- A captured word that was never written is not copied. -/
private theorem copyNonNull_copies (divided : old.Divided) {copy : Heap → Term → Except Stop (Term × Heap)}
    (term : Copies old graph atom stack false copy) : Copies old graph atom stack false (copyNonNull copy) := by
  intro depth busy heap word value collecting good read whole
  rw [copyNonNull]
  split
  · next unwritten =>
    refine .ok ⟨collecting, .refl heap, ?_⟩
    have positive := divided.positive
    have outside : old.inArena 0 = false := by
      have : ¬ old.inArena 0 = true := by
        rw [inArena_iff]
        omega
      simpa using this
    have self : old.target (wordRef false word) = none := by
      rw [unwritten]
      simp only [wordRef, target, Bool.false_eq_true, if_false]
      rw [show extractPtr 0 = 0 from rfl, outside]
      rfl
    rw [Image, self]
    exact .inl rfl
  · exact term depth busy heap word value collecting good read whole

/-- The state after the words of a copy have been replaced. -/
def Replaced (old : Heap) (graph : Finset Object) (level : ℕ) (busy : Set ℕ) (heap : Heap) (object : Object)
    (address : ℕ) (heap' : Heap) : Prop :=
  Collecting old graph level busy heap' ∧
    Moves old graph level
      {i | address + old.headerSize object ≤ i ∧ i < address + old.extent object} 0 heap heap' ∧
    (∀ slot ∈ old.slots object, Image old heap' (old.refAt (object.address + slot.offset) slot.isNode)
      (heap'.refAt (address + slot.offset) slot.isNode)) ∧
    (object.form = .list → old.mem.readNat (object.address + 24) 8 = 0 →
      heap'.mem.readNat (address + 24) 8 = 0)

section Refs

variable {copy : Heap → Term → Except Stop (Term × Heap)} {copyListNode : Heap → ℕ → Except Stop (ℕ × Heap)}
  {address : ℕ} (laid : old.Laid atom graph) (divided : old.Divided) (away : old.AtomsAway atom)
  (work : AtWork old graph atom depth level busy heap object)
  (collecting : Collecting old graph level busy' heap')
  (bytes : ∀ i < old.extent object, heap'.mem (address + i) = old.mem (object.address + i))
  (inBusy : ∀ i, address ≤ i → i < address + old.extent object → i ∈ busy')

include laid divided away work collecting bytes inBusy

/-- An object all of whose words are of one kind. -/
private theorem mapAll_copies {copyWord : Heap → Term → Except Stop (Term × Heap)} {isNode : Bool} {offset n : ℕ}
    (copies : Copies old graph atom stack isNode copyWord) (slots : old.slots object = slotsFrom offset n isNode)
    (header : old.headerSize object ≤ offset) (room : offset + 8 * n ≤ old.extent object)
    (notList : object.form ≠ .list) :
    SucceedsUnless (stack < level) .stackOverflow (mapWords copyWord (address + offset) n heap')
      (Replaced old graph level busy' heap' object address) := by
  have scratch : Scratch old graph level busy' heap' (address + offset) (address + offset + 8 * n) :=
    .inl fun i lower upper => inBusy i (by omega) (by omega)
  have replaced := work.mapSlots laid divided away copies collecting
    (fun slot member => slots ▸ member) scratch
    fun slot member => refAt_congr fun i small => by
      have inside := slot_inside (slots ▸ member)
      rw [Nat.add_assoc, Nat.add_assoc]
      exact bytes _ (by omega)
  refine replaced.mono fun heap'' after => ?_
  obtain ⟨collecting', moves, images⟩ := after
  have wider : {i | address + offset ≤ i ∧ i < address + offset + 8 * n} ⊆
      {i | address + old.headerSize object ≤ i ∧ i < address + old.extent object} := by
    rintro i ⟨lower, upper⟩
    exact ⟨by omega, by omega⟩
  exact ⟨collecting', moves.widen wider, by rwa [slots], fun list => absurd list notList⟩

/-- The words of a list: its root, if it has one, and its tail. -/
private theorem list_copies (node : Copies old graph atom stack true (copyPointer copyListNode))
    (list : object.form = .list) :
    SucceedsUnless (stack < level) .stackOverflow (do
      let heap ← if heap'.mem.readNat (address + 24) 8 ≠ 0 then
          heap'.mapWords (copyPointer copyListNode) (address + 24) 1
        else .ok heap'
      heap.mapWords (copyPointer copyListNode) (address + 16) 1)
      (Replaced old graph level busy' heap' object address) := by
  have extent : old.extent object = 32 := by simp [extent, list, sizeofRrb]
  have header : old.headerSize object = 16 := by simp [headerSize, list]
  have root : heap'.mem.readNat (address + 24) 8 = old.mem.readNat (object.address + 24) 8 :=
    ByteMemory.readNat_shift fun i small => by
      rw [Nat.add_assoc, Nat.add_assoc]
      exact bytes _ (by omega)
  have wordAt (offset : ℕ) (room : offset + 8 ≤ 32) (isNode : Bool) :
      heap'.refAt (address + offset) isNode = old.refAt (object.address + offset) isNode :=
    refAt_congr fun i small => by
      rw [Nat.add_assoc, Nat.add_assoc]
      exact bytes _ (by omega)
  have scratchAt (heap : Heap) (offset : ℕ) (room : offset + 8 ≤ 32) :
      Scratch old graph level busy' heap (address + offset) (address + offset + 8 * 1) :=
    .inl fun i lower upper => inBusy i (by omega) (by omega)
  have rootRange : {i | address + 24 ≤ i ∧ i < address + 24 + 8 * 1} ⊆
      {i | address + old.headerSize object ≤ i ∧ i < address + old.extent object} := by
    rintro i ⟨lower, upper⟩
    exact ⟨by omega, by omega⟩
  have tailRange : {i | address + 16 ≤ i ∧ i < address + 16 + 8 * 1} ⊆
      {i | address + old.headerSize object ≤ i ∧ i < address + old.extent object} := by
    rintro i ⟨lower, upper⟩
    exact ⟨by omega, by omega⟩
  have tailSlot : ∀ slot ∈ slotsFrom 16 1 true, slot ∈ old.slots object := by
    intro slot member
    obtain ⟨k, small, rfl⟩ := mem_slotsFrom.mp member
    obtain rfl : k = 0 := by omega
    simp [slots, list]
  by_cases rooted : old.mem.readNat (object.address + 24) 8 = 0
  · have slots : old.slots object = slotsFrom 16 1 true := by simp [Heap.slots, list, rooted, slotsFrom]
    rw [root, if_neg (not_not.mpr rooted), Except.ok_bind]
    have replaced := work.mapSlots laid divided away node collecting tailSlot
      (scratchAt _ 16 (by decide))
      fun slot member => by
        obtain ⟨k, small, rfl⟩ := mem_slotsFrom.mp member
        obtain rfl : k = 0 := by omega
        exact wordAt _ (by decide) true
    refine replaced.mono fun heap'' after => ?_
    obtain ⟨collecting', moves, images⟩ := after
    refine ⟨collecting', moves.widen tailRange, by rwa [slots], fun _ _ => ?_⟩
    rw [← rooted, ← root]
    refine ByteMemory.readNat_congr fun i lower upper => moves.keeps i ?_ (.inl ?_)
    · rintro ⟨-, below⟩
      omega
    · exact collecting.busyInside i (inBusy i (by omega) (by omega))
  · have slots : old.slots object = slotsFrom 24 1 true ++ slotsFrom 16 1 true := by
      simp [Heap.slots, list, rooted, slotsFrom]
    rw [root, if_pos rooted]
    have rootReplaced := work.mapSlots laid divided away node collecting
      (fun slot member => by rw [slots]; exact List.mem_append_left _ member)
      (scratchAt _ 24 (by decide))
      fun slot member => by
        obtain ⟨k, small, rfl⟩ := mem_slotsFrom.mp member
        obtain rfl : k = 0 := by omega
        exact wordAt _ (by decide) true
    apply rootReplaced.bind
    rintro heap₁ ⟨collecting₁, moves₁, images₁⟩
    have replaced := work.mapSlots laid divided away node collecting₁ tailSlot
      (scratchAt _ 16 (by decide))
      fun slot member => by
        obtain ⟨k, small, rfl⟩ := mem_slotsFrom.mp member
        obtain rfl : k = 0 := by omega
        rw [← wordAt _ (by decide) true]
        refine refAt_congr fun i below => moves₁.keeps _ ?_ (.inl ?_)
        · rintro ⟨above, -⟩
          dsimp only at above
          omega
        · exact collecting.busyInside _ (inBusy _ (by omega) (by dsimp only; omega))
    refine replaced.mono fun heap₂ after => ?_
    obtain ⟨collecting₂, moves₂, images₂⟩ := after
    refine ⟨collecting₂, (moves₁.widen rootRange).trans (moves₂.widen tailRange), fun slot member => ?_,
      fun _ none => absurd none rooted⟩
    rw [slots] at member
    rcases List.mem_append.mp member with first | second
    · have image := moves₂.image laid divided away (work.words slot (by rw [slots]; exact member)).1
        (images₁ slot first)
      have same : heap₂.refAt (address + slot.offset) slot.isNode = heap₁.refAt (address + slot.offset) slot.isNode := by
        obtain ⟨k, small, rfl⟩ := mem_slotsFrom.mp first
        obtain rfl : k = 0 := by omega
        refine refAt_congr fun i below => moves₂.keeps _ ?_ (.inl ?_)
        · rintro ⟨-, under⟩
          dsimp only at under
          omega
        · exact collecting₁.busyInside _ (inBusy _ (by omega) (by dsimp only; omega))
      rwa [same]
    · exact images₂ slot second

/-- The references of a term's copy. -/
theorem copyRefs_copies (term : Copies old graph atom stack false copy)
    (node : Copies old graph atom stack true (copyPointer copyListNode)) {word : Term}
    (tag : Form.ofTag (tagOf word) = some object.form) (ptr : extractPtr word = address) :
    SucceedsUnless (stack < level) .stackOverflow (heap'.copyRefs copy copyListNode word)
      (Replaced old graph level busy' heap' object address) := by
  have agrees := work.agrees laid divided
  have header : SameHeader old heap' object.form object.address address :=
    ⟨collecting.size, agrees.bounded, fun i inside => bytes i (inside.trans_le (headerSize_le_extent _ _))⟩
  have small := divided.small
  have bounded := agrees.bounded
  simp only [copyRefs, ptr]
  rcases ofTag_cases tag with ⟨bits, form⟩ | ⟨bits, form⟩ | ⟨bits, form⟩ | ⟨bits, form⟩
  · rw [if_neg (by rw [bits]; decide), if_pos bits]
    rw [form] at header
    have count := header.readNat_first 8 (by simp [headerSize])
    have extent : old.extent object = 8 + 8 * old.mem.readNat object.address 8 := by simp [Heap.extent, form]
    rw [count, Nat.mod_eq_of_lt (by omega)]
    exact mapAll_copies laid divided away work collecting bytes inBusy term (by simp [slots, form])
      (by simp [headerSize, form]) (by omega) (by simp [form])
  · rw [if_pos bits]
    refine .ok ⟨collecting, .refl heap', ?_, fun list => absurd (form.symm.trans list) (by decide)⟩
    simp [slots, form]
  · rw [if_neg (by rw [bits]; decide), if_neg (by rw [bits]; decide), if_pos bits]
    rw [form] at header
    have count : (heap'.mem (address + 16)).toNat = old.nUpvalues object.address := header.nUpvalues
    have extent : old.extent object = 24 + 8 * old.nUpvalues object.address := by
      simp [Heap.extent, form, sizeofFunction]
    rw [count]
    exact mapAll_copies laid divided away work collecting bytes inBusy (copyNonNull_copies divided term)
      (by simp [slots, form]) (by simp [headerSize, form]) (by simp only [sizeofFunction]; omega) (by simp [form])
  · rw [if_neg (by rw [bits]; decide), if_neg (by rw [bits]; decide), if_neg (by rw [bits]; decide), if_pos bits]
    exact list_copies laid divided away work collecting bytes inBusy node form

end Refs

end Heap

end Owl.Runtime
