import Owl.Proofs.Runtime.Graph

/-! # The state of a collection

A collection moves the objects of a graph out of the old heap. An object is white until its flag is set
and then black: its forward address is the address of a finished copy. The copier may be in the middle
of several objects; these are the objects that cannot be read to the depth at which it works. White
objects above that depth are as the old heap had them, and the room that they and the objects still to
be copied need is left in the new space.
-/

namespace Owl.Runtime

/-- The word that refers to the same kind of object elsewhere. -/
def Ref.moveTo (address : ℕ) : Ref → Ref
  | .term word => .term ((UInt64.ofNat address <<< 3) ||| tagOf word)
  | .node _ => .node address

namespace Heap

/-- An object can be read to a depth. -/
def shallow (heap : Heap) : ℕ → Object → Bool
  | 0, _ => false
  | depth + 1, object => (heap.readObject (heap.decode depth) object).isSome

theorem shallow_of_decode {heap : Heap} {depth : ℕ} {ref : Ref} {object : Object} {value : Value}
    (found : heap.target ref = some object) (read : heap.decode depth ref = some value) :
    heap.shallow depth object = true := by
  cases depth with
  | zero => contradiction
  | succ depth =>
    rw [decode_object found] at read
    rw [shallow, read]
    rfl

theorem shallow_succ {heap : Heap} {depth : ℕ} {object : Object} (shallow : heap.shallow depth object = true) :
    heap.shallow (depth + 1) object = true := by
  cases depth with
  | zero => contradiction
  | succ depth =>
    obtain ⟨value, read⟩ := Option.isSome_iff_exists.mp shallow
    obtain ⟨held, parts, each, rfl⟩ := readObject_eq_some.mp read
    refine Option.isSome_iff_exists.mpr ⟨_, readObject_eq_some.mpr ⟨held, parts, ?_, rfl⟩⟩
    exact each.imp fun _ _ => decode_succ

theorem shallow_le {heap : Heap} {depth depth' : ℕ} {object : Object} (deeper : depth ≤ depth')
    (shallow : heap.shallow depth object = true) : heap.shallow depth' object = true := by
  induction deeper with
  | refl => exact shallow
  | step _ ih => exact shallow_succ ih

/-- The depth to which an object can just be read. -/
theorem exact_depth {heap : Heap} {depth : ℕ} {ref : Ref} {object : Object} {value : Value}
    (found : heap.target ref = some object) (read : heap.decode depth ref = some value) :
    ∃ exact < depth, heap.shallow exact object = false ∧ heap.decode (exact + 1) ref = some value := by
  induction depth with
  | zero => contradiction
  | succ depth ih =>
    cases above : heap.shallow depth object with
    | false => exact ⟨depth, Nat.lt_succ_self depth, above, read⟩
    | true =>
      cases depth with
      | zero => contradiction
      | succ depth =>
        rw [shallow, ← decode_object found, Option.isSome_iff_exists] at above
        obtain ⟨other, earlier⟩ := above
        rw [← Denotes.unique ⟨_, read⟩ ⟨_, earlier⟩] at earlier
        obtain ⟨exact, below, rest⟩ := ih earlier
        exact ⟨exact, below.trans (Nat.lt_succ_self _), rest⟩

/-- The bytes that the copy of an object takes, with flags. -/
def footprint (heap : Heap) (object : Object) : ℕ :=
  heap.extent object + 1 +
    if heap.table object = 0 then 0 else tableExtent (heap.nodeLen object.address) + 1

/-- What the collector makes of a word. An integer whose payload is an address in the range may be taken
for an object. -/
def Image (old heap : Heap) (ref ref' : Ref) : Prop :=
  match old.target ref with
  | some object => heap.forwardFlag object.address = true ∧
      ref' = ref.moveTo (heap.forwardAddress object.address)
  | none => ref' = ref ∨ ∃ word word', ref = .term word ∧ ref' = .term word' ∧
      tagOf word = Tag.int.bits ∧ tagOf word' = Tag.int.bits ∧
      old.toSpace ≤ extractPtr word ∧ extractPtr word ≤ old.toSpace + old.size

/-- A finished copy of an object. -/
structure CopiedTo (old heap : Heap) (object : Object) (address : ℕ) : Prop where
  held : heap.holds ⟨object.form, address⟩ = true
  unmoved : heap.forwardFlag address = false
  extent : heap.extent ⟨object.form, address⟩ = old.extent object
  slots : heap.slots ⟨object.form, address⟩ = old.slots object
  head : heap.head ⟨object.form, address⟩ = old.head object
  tableApart : heap.table ⟨object.form, address⟩ ≠ 0 →
    heap.table ⟨object.form, address⟩ + tableExtent (heap.nodeLen address) < address ∨
      address + old.extent object < heap.table ⟨object.form, address⟩
  words : ∀ slot ∈ old.slots object,
    Image old heap (old.refAt (object.address + slot.offset) slot.isNode)
      (heap.refAt (address + slot.offset) slot.isNode)

/-- The room that white objects of a depth still need. -/
def left (old : Heap) (graph : Finset Object) (depth : ℕ) (heap : Heap) : ℕ :=
  ∑ object ∈ graph, if old.shallow depth object && !heap.forwardFlag object.address
    then old.footprint object else 0

/-- A collection of the objects that can be read to a depth, with some bytes of the new space busy. -/
structure Collecting (old : Heap) (graph : Finset Object) (depth : ℕ) (busy : Set ℕ) (heap : Heap) :
    Prop where
  toSpace : heap.toSpace = old.fromSpace
  fromSpace : heap.fromSpace = old.toSpace
  size : heap.size = old.size
  start : heap.toSpace ≤ heap.allocPtr
  room : heap.allocPtr + left old graph depth heap ≤ heap.toSpace + heap.size / 2
  busyInside : ∀ i ∈ busy, heap.toSpace ≤ i ∧ i < heap.allocPtr
  white : ∀ object ∈ graph, old.shallow depth object = true →
    heap.forwardFlag object.address = false → ∀ i, old.Owns object i → heap.mem i = old.mem i
  black : ∀ object ∈ graph, heap.forwardFlag object.address = true →
    CopiedTo old heap object (heap.forwardAddress object.address)
  apart : ∀ object ∈ graph, ∀ other ∈ graph, heap.forwardFlag object.address = true →
    heap.forwardFlag other.address = true → ∀ i,
    heap.Owns ⟨object.form, heap.forwardAddress object.address⟩ i →
    heap.Owns ⟨other.form, heap.forwardAddress other.address⟩ i → object = other
  idle : ∀ object ∈ graph, heap.forwardFlag object.address = true → ∀ i,
    heap.Owns ⟨object.form, heap.forwardAddress object.address⟩ i → i ∉ busy
  outside : ∀ i, heap.inArena i = false → heap.mem i = old.mem i

/-- Bytes that the copier leaves alone while it works at a depth. -/
def Kept (old : Heap) (graph : Finset Object) (depth : ℕ) (heap : Heap) (i : ℕ) : Prop :=
  heap.toSpace ≤ i ∧ i < heap.allocPtr ∨
    ∃ object ∈ graph, old.shallow depth object = false ∧ old.Owns object i

/-- Progress of a collection. Kept bytes change only where they may, and the room that is used besides
that of finished objects is counted. -/
structure Moves (old : Heap) (graph : Finset Object) (depth : ℕ) (changed : Set ℕ) (used : ℕ)
    (heap heap' : Heap) : Prop where
  toSpace : heap'.toSpace = heap.toSpace
  allocPtr : heap.allocPtr ≤ heap'.allocPtr
  keeps : ∀ i, i ∉ changed → Kept old graph depth heap i → heap'.mem i = heap.mem i
  black : ∀ object ∈ graph, heap.forwardFlag object.address = true →
    heap'.forwardFlag object.address = true ∧
      heap'.forwardAddress object.address = heap.forwardAddress object.address
  spent : heap'.allocPtr + left old graph depth heap' = heap.allocPtr + used + left old graph depth heap

variable {old heap heap' heap'' : Heap} {graph : Finset Object} {depth used used' : ℕ}
  {busy changed : Set ℕ}

theorem Moves.refl (heap : Heap) : Moves old graph depth changed 0 heap heap :=
  ⟨rfl, Nat.le_refl _, fun _ _ _ => rfl, fun _ _ black => ⟨black, rfl⟩, rfl⟩

theorem Moves.kept (moves : Moves old graph depth changed used heap heap') {i : ℕ}
    (kept : Kept old graph depth heap i) : Kept old graph depth heap' i := by
  rcases kept with ⟨lower, upper⟩ | deep
  · exact .inl ⟨by rw [moves.toSpace]; exact lower, upper.trans_le moves.allocPtr⟩
  · exact .inr deep

theorem Moves.trans (first : Moves old graph depth changed used heap heap')
    (second : Moves old graph depth changed used' heap' heap'') :
    Moves old graph depth changed (used + used') heap heap'' where
  toSpace := second.toSpace.trans first.toSpace
  allocPtr := first.allocPtr.trans second.allocPtr
  keeps i outside kept := (second.keeps i outside (first.kept kept)).trans (first.keeps i outside kept)
  black object member black := by
    obtain ⟨still, address⟩ := first.black object member black
    obtain ⟨still', address'⟩ := second.black object member still
    exact ⟨still', address'.trans address⟩
  spent := by
    have := first.spent
    have := second.spent
    omega

theorem Moves.widen {wider : Set ℕ} (moves : Moves old graph depth changed used heap heap')
    (more : changed ⊆ wider) : Moves old graph depth wider used heap heap' :=
  { moves with keeps := fun i outside => moves.keeps i fun inside => outside (more inside) }

/-- An image stays while black objects stay. -/
theorem Image.mono {ref ref' : Ref} (image : Image old heap ref ref')
    (black : ∀ object, old.target ref = some object → heap.forwardFlag object.address = true →
      heap'.forwardFlag object.address = true ∧
        heap'.forwardAddress object.address = heap.forwardAddress object.address) :
    Image old heap' ref ref' := by
  unfold Image at image ⊢
  cases found : old.target ref with
  | none => simpa only [found] using image
  | some object =>
    simp only [found] at image ⊢
    obtain ⟨moved, rfl⟩ := image
    obtain ⟨still, same⟩ := black object found moved
    exact ⟨still, by rw [same]⟩

/-- Bytes that the copier may change: those of unfinished copies, and the words of an object whose words
are replaced in place. -/
def Loose (old : Heap) (graph : Finset Object) (depth : ℕ) (busy : Set ℕ) (heap : Heap) (i : ℕ) : Prop :=
  i ∈ busy ∨ ∃ object ∈ graph, old.shallow depth object = false ∧
    heap.forwardFlag object.address = false ∧ old.Owns object i ∧ i + 1 ≠ object.address

variable {atom : Term → Prop}

/-- A finished copy stays finished while its bytes and the black objects stay. -/
theorem CopiedTo.agree (laid : old.Laid atom graph) (divided : old.Divided) (away : old.AtomsAway atom)
    {object : Object} (member : object ∈ graph) {address : ℕ} (copied : CopiedTo old heap object address)
    (agrees : heap.AgreesOn heap' ⟨object.form, address⟩) (toSpace : heap'.toSpace = heap.toSpace)
    (allocPtr : heap.allocPtr ≤ heap'.allocPtr)
    (black : ∀ other ∈ graph, heap.forwardFlag other.address = true →
      heap'.forwardFlag other.address = true ∧
        heap'.forwardAddress other.address = heap.forwardAddress other.address) :
    CopiedTo old heap' object address := by
  obtain ⟨lower, upper, tableInside⟩ := holds_iff.mp copied.held
  have unmoved := agrees.flag (Nat.zero_lt_of_lt lower)
  constructor
  case held =>
    rw [holds_iff, agrees.extent, agrees.table, toSpace]
    refine ⟨lower, upper.trans allocPtr, fun tabled => ?_⟩
    rw [agrees.tableLen tabled]
    exact ⟨(tableInside tabled).1, (tableInside tabled).2.trans allocPtr⟩
  case unmoved => exact unmoved.trans copied.unmoved
  case extent => exact agrees.extent.trans copied.extent
  case slots => exact agrees.slots.trans copied.slots
  case head => exact agrees.head.trans copied.head
  case tableApart =>
    rw [agrees.table]
    intro tabled
    rw [show heap'.nodeLen _ = _ from agrees.tableLen tabled]
    exact copied.tableApart tabled
  case words =>
    intro slot inside
    rw [← copied.slots] at inside
    rw [show heap'.refAt _ _ = _ from agrees.refAt inside]
    rw [copied.slots] at inside
    refine (copied.words slot inside).mono fun other found otherBlack => ?_
    exact black other (laid.target_mem divided away (laid.closed object member slot inside) found) otherBlack

/-- An object owns its flag and the word where its forward address is put. -/
theorem Laid.owns_start (laid : old.Laid atom graph) {object : Object} (member : object ∈ graph) {i : ℕ}
    (lower : object.address ≤ i + 1) (upper : i < object.address + 8) : old.Owns object i := by
  have extent : 8 ≤ old.extent object := by
    obtain ⟨form, address⟩ := object
    cases form with
    | tuple => simp only [extent]; omega
    | string => simp only [extent]; omega
    | function => simp only [extent, sizeofFunction]; omega
    | list => simp only [extent, sizeofRrb]; omega
    | node =>
      simp only [extent, sizeofLeafNode, sizeofInternalNode]
      split <;> omega
  have := (holds_iff.mp (laid.held object member)).1
  exact .inl ⟨lower, by omega⟩

namespace Collecting

variable (laid : old.Laid atom graph) (divided : old.Divided)
  (collecting : Collecting old graph depth busy heap)

include laid divided collecting

/-- The old space and the new one have no byte in common. -/
theorem spaces {object : Object} (member : object ∈ graph) {i : ℕ} (owned : old.Owns object i) :
    ¬ (heap.toSpace ≤ i ∧ i < heap.allocPtr) := by
  have inside := owns_inside (laid.held object member) owned
  have halves := divided.halves
  have oldRoom := divided.room
  have room := collecting.room
  have toSpace := collecting.toSpace
  have size := collecting.size
  rw [size] at room
  omega

/-- Of an object, only loose bytes other than its flag can be changed, and only while it is white. -/
theorem loose_owner {object : Object} (member : object ∈ graph) {i : ℕ}
    (loose : Loose old graph depth busy heap i) (owned : old.Owns object i) :
    old.shallow depth object = false ∧ heap.forwardFlag object.address = false ∧
      i + 1 ≠ object.address := by
  rcases loose with busyByte | ⟨other, otherMember, deep, white, owned', notFlag⟩
  · exact absurd (collecting.busyInside i busyByte) (collecting.spaces laid divided member owned)
  · rw [laid.apart object member other otherMember i owned owned']
    exact ⟨deep, white, notFlag⟩

end Collecting

/-- Changes of loose bytes only. -/
structure Scribbles (old : Heap) (graph : Finset Object) (depth : ℕ) (busy : Set ℕ) (heap heap' : Heap) :
    Prop where
  toSpace : heap'.toSpace = heap.toSpace
  fromSpace : heap'.fromSpace = heap.fromSpace
  allocPtr : heap'.allocPtr = heap.allocPtr
  size : heap'.size = heap.size
  changes : ∀ i, heap'.mem i ≠ heap.mem i → Loose old graph depth busy heap i

namespace Scribbles

variable (laid : old.Laid atom graph) (divided : old.Divided)
  (collecting : Collecting old graph depth busy heap) (scribbles : Scribbles old graph depth busy heap heap')

include laid divided collecting scribbles

theorem flag {object : Object} (member : object ∈ graph) :
    heap'.forwardFlag object.address = heap.forwardFlag object.address := by
  apply forwardFlag_congr
  have above := (holds_iff.mp (laid.held object member)).1
  by_contra different
  have owned : old.Owns object (object.address - 1) := laid.owns_start member (by omega) (by omega)
  obtain ⟨-, -, notFlag⟩ := collecting.loose_owner laid divided member (scribbles.changes _ different) owned
  omega

theorem address {object : Object} (member : object ∈ graph)
    (black : heap.forwardFlag object.address = true) :
    heap'.forwardAddress object.address = heap.forwardAddress object.address := by
  refine ByteMemory.readNat_congr fun i lower upper => ?_
  by_contra different
  have owned : old.Owns object i := laid.owns_start member (by omega) upper
  obtain ⟨-, white, -⟩ := collecting.loose_owner laid divided member (scribbles.changes _ different) owned
  rw [black] at white
  contradiction

/-- A finished copy is not loose. -/
theorem agrees {object : Object} (member : object ∈ graph)
    (black : heap.forwardFlag object.address = true) :
    heap.AgreesOn heap' ⟨object.form, heap.forwardAddress object.address⟩ where
  size := scribbles.size
  bounded := by
    have inside := holds_iff.mp (collecting.black object member black).held
    have room := collecting.room
    omega
  bytes i owned := by
    by_contra different
    rcases scribbles.changes i different with busyByte | ⟨other, otherMember, -, -, owned', -⟩
    · exact collecting.idle object member black i owned busyByte
    · exact collecting.spaces laid divided otherMember owned'
        (owns_inside (collecting.black object member black).held owned)

theorem left : left old graph depth heap' = left old graph depth heap := by
  apply Finset.sum_congr rfl
  intro object member
  rw [scribbles.flag laid divided collecting member]

theorem black {object : Object} (member : object ∈ graph)
    (black : heap.forwardFlag object.address = true) :
    heap'.forwardFlag object.address = true ∧
      heap'.forwardAddress object.address = heap.forwardAddress object.address := by
  rw [scribbles.flag laid divided collecting member, scribbles.address laid divided collecting member black]
  exact ⟨black, rfl⟩

/-- Changes of loose bytes keep the state of a collection. -/
theorem collects (away : old.AtomsAway atom) : Collecting old graph depth busy heap' := by
  have flag (object : Object) (member : object ∈ graph) := scribbles.flag laid divided collecting member
  constructor
  case toSpace => exact scribbles.toSpace.trans collecting.toSpace
  case fromSpace => exact scribbles.fromSpace.trans collecting.fromSpace
  case size => exact scribbles.size.trans collecting.size
  case start => rw [scribbles.toSpace, scribbles.allocPtr]; exact collecting.start
  case room =>
    rw [scribbles.left laid divided collecting, scribbles.toSpace, scribbles.allocPtr, scribbles.size]
    exact collecting.room
  case busyInside =>
    rw [scribbles.toSpace, scribbles.allocPtr]
    exact collecting.busyInside
  case white =>
    intro object member shallow white i owned
    rw [flag object member] at white
    rw [← collecting.white object member shallow white i owned]
    by_contra different
    obtain ⟨deep, -, -⟩ := collecting.loose_owner laid divided member (scribbles.changes i different) owned
    rw [shallow] at deep
    contradiction
  case black =>
    intro object member black
    rw [flag object member] at black
    rw [scribbles.address laid divided collecting member black]
    exact (collecting.black object member black).agree laid divided away member
      (scribbles.agrees laid divided collecting member black) scribbles.toSpace scribbles.allocPtr.ge
      fun other otherMember => scribbles.black laid divided collecting otherMember
  case apart =>
    intro object member other otherMember black otherBlack i owned owned'
    rw [flag object member] at black
    rw [flag other otherMember] at otherBlack
    rw [scribbles.address laid divided collecting member black,
      (scribbles.agrees laid divided collecting member black).owns] at owned
    rw [scribbles.address laid divided collecting otherMember otherBlack,
      (scribbles.agrees laid divided collecting otherMember otherBlack).owns] at owned'
    exact collecting.apart object member other otherMember black otherBlack i owned owned'
  case idle =>
    intro object member black i owned
    rw [flag object member] at black
    rw [scribbles.address laid divided collecting member black,
      (scribbles.agrees laid divided collecting member black).owns] at owned
    exact collecting.idle object member black i owned
  case outside =>
    intro i elsewhere
    rw [inArena, scribbles.toSpace, scribbles.fromSpace, scribbles.size] at elsewhere
    rw [← collecting.outside i elsewhere]
    by_contra different
    have notInside : ¬ heap.inArena i = true := by rw [show heap.inArena i = false from elsewhere]; simp
    rw [inArena_iff] at notInside
    have halves := divided.halves
    have room := collecting.room
    have toSpace := collecting.toSpace
    have fromSpace := collecting.fromSpace
    have size := collecting.size
    rcases scribbles.changes i different with busyByte | ⟨other, otherMember, -, -, owned, -⟩
    · have := collecting.busyInside i busyByte
      omega
    · have := owns_inside (laid.held other otherMember) owned
      have := divided.room
      omega

theorem moves (range : ∀ i, heap'.mem i ≠ heap.mem i → i ∈ changed) :
    Moves old graph depth changed 0 heap heap' where
  toSpace := scribbles.toSpace
  allocPtr := scribbles.allocPtr.ge
  keeps i outside _ := by
    by_contra different
    exact outside (range i different)
  black object member := scribbles.black laid divided collecting member
  spent := by rw [scribbles.left laid divided collecting, scribbles.allocPtr, Nat.add_zero]

end Scribbles

private theorem left_le {level : ℕ} (le : level ≤ depth) : left old graph level heap ≤ left old graph depth heap := by
  apply Finset.sum_le_sum
  intro object _
  cases white : heap.forwardFlag object.address with
  | true => simp
  | false =>
    cases shallow : old.shallow level object with
    | false => simp
    | true => simp [shallow_le le shallow]

/-- A white object of a depth has room of its own. -/
theorem left_add_footprint {level : ℕ} (le : level ≤ depth) {object : Object} (member : object ∈ graph)
    (shallow : old.shallow depth object = true) (deep : old.shallow level object = false)
    (white : heap.forwardFlag object.address = false) :
    old.footprint object + left old graph level heap ≤ left old graph depth heap := by
  classical
  rw [left, left, ← Finset.add_sum_erase graph _ member, ← Finset.add_sum_erase graph _ member]
  simp only [shallow, deep, white, Bool.not_false, Bool.and_self, if_true, Bool.false_and, Bool.false_eq_true,
    if_false, Nat.zero_add]
  apply Nat.add_le_add_left
  apply Finset.sum_le_sum
  intro other _
  cases flag : heap.forwardFlag other.address with
  | true => simp
  | false =>
    cases below : old.shallow level other with
    | false => simp
    | true => simp [shallow_le le below]

/-- The room that an object leaves when it is finished is the room that was set aside for it. -/
private theorem left_finish {level : ℕ} (le : level ≤ depth) {object : Object} (member : object ∈ graph)
    (shallow : old.shallow depth object = true) (deep : old.shallow level object = false)
    (white : heap.forwardFlag object.address = false) (black : heap'.forwardFlag object.address = true)
    (others : ∀ other ∈ graph, old.shallow level other = false → other ≠ object →
      heap'.forwardFlag other.address = heap.forwardFlag other.address) :
    left old graph depth heap' + old.footprint object + left old graph level heap =
      left old graph depth heap + left old graph level heap' := by
  classical
  simp only [left]
  rw [← Finset.add_sum_erase graph _ member, ← Finset.add_sum_erase graph _ member,
    ← Finset.add_sum_erase graph _ member, ← Finset.add_sum_erase graph _ member]
  simp only [shallow, deep, white, black, Bool.not_false, Bool.not_true, Bool.and_self, Bool.and_false,
    if_true, Bool.false_and, Bool.false_eq_true, if_false, Nat.zero_add]
  have same : (∑ other ∈ graph.erase object, if (old.shallow depth other && !heap'.forwardFlag other.address) = true
        then old.footprint other else 0) +
      (∑ other ∈ graph.erase object, if (old.shallow level other && !heap.forwardFlag other.address) = true
        then old.footprint other else 0) =
      (∑ other ∈ graph.erase object, if (old.shallow depth other && !heap.forwardFlag other.address) = true
        then old.footprint other else 0) +
      (∑ other ∈ graph.erase object, if (old.shallow level other && !heap'.forwardFlag other.address) = true
        then old.footprint other else 0) := by
    rw [← Finset.sum_add_distrib, ← Finset.sum_add_distrib]
    apply Finset.sum_congr rfl
    intro other inside
    obtain ⟨different, otherMember⟩ := Finset.mem_erase.mp inside
    cases below : old.shallow level other with
    | true => simp [shallow_le le below, Nat.add_comm]
    | false => simp [others other otherMember below different]
  omega

theorem level_lt {level : ℕ} {object : Object} (shallow : old.shallow depth object = true)
    (deep : old.shallow level object = false) : level < depth := by
  by_contra above
  have := shallow_le (Nat.le_of_not_lt above) shallow
  rw [deep] at this
  contradiction

/-- Work at a smaller depth. -/
theorem Collecting.deepen {level : ℕ} (collecting : Collecting old graph depth busy heap)
    (le : level ≤ depth) : Collecting old graph level busy heap :=
  { collecting with
    room := by
      have := collecting.room
      have less : left old graph level heap ≤ left old graph depth heap := left_le le
      omega
    white := fun object member shallow => collecting.white object member (shallow_le le shallow) }

/-- The next bytes of the new space. -/
structure Takes (heap heap' : Heap) (n : ℕ) : Prop where
  toSpace : heap'.toSpace = heap.toSpace
  fromSpace : heap'.fromSpace = heap.fromSpace
  allocPtr : heap'.allocPtr = heap.allocPtr + n
  size : heap'.size = heap.size
  mem : heap'.mem = heap.mem

theorem Takes.flag {n : ℕ} (takes : Takes heap heap' n) (address : ℕ) :
    heap'.forwardFlag address = heap.forwardFlag address :=
  forwardFlag_congr (by rw [takes.mem])

theorem Takes.address {n : ℕ} (takes : Takes heap heap' n) (address : ℕ) :
    heap'.forwardAddress address = heap.forwardAddress address := by
  rw [forwardAddress, forwardAddress, takes.mem]

theorem Takes.moves {n : ℕ} (takes : Takes heap heap' n) : Moves old graph depth changed n heap heap' where
  toSpace := takes.toSpace
  allocPtr := by
    rw [takes.allocPtr]
    exact Nat.le_add_right _ _
  keeps i _ _ := by rw [takes.mem]
  black object _ black := by
    rw [takes.flag, takes.address]
    exact ⟨black, rfl⟩
  spent := by
    have left : left old graph depth heap' = left old graph depth heap :=
      Finset.sum_congr rfl fun object _ => by rw [takes.flag]
    rw [left, takes.allocPtr]

/-- Bytes that are taken are busy. -/
theorem Collecting.take (laid : old.Laid atom graph) (divided : old.Divided) (away : old.AtomsAway atom)
    (collecting : Collecting old graph depth busy heap) {n : ℕ} (takes : Takes heap heap' n)
    (room : heap.allocPtr + n + left old graph depth heap ≤ heap.toSpace + heap.size / 2) :
    Collecting old graph depth (busy ∪ {i | heap.allocPtr ≤ i ∧ i < heap.allocPtr + n}) heap' := by
  have agrees (object : Object) (member : object ∈ graph) (black : heap.forwardFlag object.address = true) :
      heap.AgreesOn heap' ⟨object.form, heap.forwardAddress object.address⟩ := by
    refine ⟨takes.size, ?_, fun i _ => by rw [takes.mem]⟩
    have inside := holds_iff.mp (collecting.black object member black).held
    have room := collecting.room
    omega
  have left : left old graph depth heap' = left old graph depth heap :=
    Finset.sum_congr rfl fun object _ => by rw [takes.flag]
  constructor
  case toSpace => exact takes.toSpace.trans collecting.toSpace
  case fromSpace => exact takes.fromSpace.trans collecting.fromSpace
  case size => exact takes.size.trans collecting.size
  case start =>
    have := collecting.start
    rw [takes.toSpace, takes.allocPtr]
    omega
  case room => rwa [left, takes.allocPtr, takes.toSpace, takes.size]
  case busyInside =>
    rw [takes.toSpace, takes.allocPtr]
    rintro i (before | ⟨lower, upper⟩)
    · have := collecting.busyInside i before
      omega
    · exact ⟨collecting.start.trans lower, upper⟩
  case white =>
    intro object member shallow white i owned
    rw [takes.flag] at white
    rw [takes.mem]
    exact collecting.white object member shallow white i owned
  case black =>
    intro object member black
    rw [takes.flag] at black
    rw [takes.address]
    refine (collecting.black object member black).agree laid divided away member (agrees object member black)
      takes.toSpace (by rw [takes.allocPtr]; omega) fun other _ otherBlack => ?_
    rw [takes.flag, takes.address]
    exact ⟨otherBlack, rfl⟩
  case apart =>
    intro object member other otherMember black otherBlack i owned owned'
    rw [takes.flag] at black otherBlack
    rw [takes.address, (agrees object member black).owns] at owned
    rw [takes.address, (agrees other otherMember otherBlack).owns] at owned'
    exact collecting.apart object member other otherMember black otherBlack i owned owned'
  case idle =>
    intro object member black i owned
    rw [takes.flag] at black
    rw [takes.address, (agrees object member black).owns] at owned
    rintro (before | ⟨lower, upper⟩)
    · exact collecting.idle object member black i owned before
    · have := owns_inside (collecting.black object member black).held owned
      omega
  case outside =>
    intro i elsewhere
    rw [inArena, takes.toSpace, takes.fromSpace, takes.size] at elsewhere
    rw [takes.mem]
    exact collecting.outside i elsewhere

/-- The flag of an object is set and its forward address is written. -/
structure Settles (heap heap' : Heap) (object : Object) (address : ℕ) : Prop where
  toSpace : heap'.toSpace = heap.toSpace
  fromSpace : heap'.fromSpace = heap.fromSpace
  allocPtr : heap'.allocPtr = heap.allocPtr
  size : heap'.size = heap.size
  changes : ∀ i, heap'.mem i ≠ heap.mem i → object.address ≤ i + 1 ∧ i < object.address + 8
  flag : heap'.forwardFlag object.address = true
  address : heap'.forwardAddress object.address = address

/-- An object whose copy is complete, just before it becomes black. `heap` is the heap when the work on
it began, and `level` the greatest depth to which it cannot be read. -/
structure Complete (old : Heap) (graph : Finset Object) (level : ℕ) (busy busy' : Set ℕ) (heap heap' : Heap)
    (object : Object) (address : ℕ) : Prop where
  collecting : Collecting old graph level busy' heap'
  more : busy ⊆ busy'
  moves : Moves old graph level {i | old.Owns object i ∨ heap.allocPtr ≤ i ∧ i < heap'.allocPtr}
    (old.footprint object) heap heap'
  white : heap'.forwardFlag object.address = false
  copied : CopiedTo old heap' object address
  placed : ∀ i, heap'.Owns ⟨object.form, address⟩ i → i ∈ busy' ∧ i ∉ busy

namespace Settles

variable {level address : ℕ} {busy' : Set ℕ} {object : Object}

variable (laid : old.Laid atom graph) (divided : old.Divided) (member : object ∈ graph)
  (start : Collecting old graph depth busy heap)
  (shallow : old.shallow depth object = true) (deep : old.shallow level object = false)
  (white : heap.forwardFlag object.address = false)
  (complete : Complete old graph level busy busy' heap heap' object address)
  (settles : Settles heap' heap'' object address)

include laid member settles

/-- Only the object itself changes. -/
theorem other_byte {other : Object} (otherMember : other ∈ graph) (different : other ≠ object) {i : ℕ}
    (owned : old.Owns other i) : heap''.mem i = heap'.mem i := by
  by_contra changed
  obtain ⟨lower, upper⟩ := settles.changes i changed
  exact different (laid.apart other otherMember object member i owned (laid.owns_start member lower upper))

theorem other_flag {other : Object} (otherMember : other ∈ graph) (different : other ≠ object) :
    heap''.forwardFlag other.address = heap'.forwardFlag other.address := by
  have above := (holds_iff.mp (laid.held other otherMember)).1
  apply forwardFlag_congr
  apply settles.other_byte laid member otherMember different
  exact laid.owns_start otherMember (by omega) (by omega)

theorem other_address {other : Object} (otherMember : other ∈ graph) (different : other ≠ object) :
    heap''.forwardAddress other.address = heap'.forwardAddress other.address :=
  ByteMemory.readNat_congr fun _ lower upper => settles.other_byte laid member otherMember different
    (laid.owns_start otherMember (by omega) upper)

include complete

/-- Black objects stay black. -/
theorem black {other : Object} (otherMember : other ∈ graph) (black : heap'.forwardFlag other.address = true) :
    heap''.forwardFlag other.address = true ∧
      heap''.forwardAddress other.address = heap'.forwardAddress other.address := by
  have different : other ≠ object := by
    rintro rfl
    rw [complete.white] at black
    contradiction
  rw [settles.other_flag laid member otherMember different, settles.other_address laid member otherMember different]
  exact ⟨black, rfl⟩

include divided

/-- The new space does not change. -/
private theorem space_byte {i : ℕ} (inside : heap'.toSpace ≤ i ∧ i < heap'.allocPtr) :
    heap''.mem i = heap'.mem i := by
  by_contra changed
  obtain ⟨lower, upper⟩ := settles.changes i changed
  exact complete.collecting.spaces laid divided member (laid.owns_start member lower upper) inside

private theorem copy_agrees {form : Form} {place : ℕ} (held : heap'.holds ⟨form, place⟩ = true) :
    heap'.AgreesOn heap'' ⟨form, place⟩ where
  size := settles.size
  bounded := by
    have inside := holds_iff.mp held
    have room := complete.collecting.room
    omega
  bytes _ owned := settles.space_byte laid divided member complete (owns_inside held owned)

theorem copied (away : old.AtomsAway atom) {other : Object} (otherMember : other ∈ graph) {place : ℕ}
    (copied : CopiedTo old heap' other place) : CopiedTo old heap'' other place :=
  copied.agree laid divided away otherMember (settles.copy_agrees laid divided member complete copied.held)
    settles.toSpace settles.allocPtr.ge fun _ thirdMember => settles.black laid member complete thirdMember

include start

/-- Objects that could not be read to the level, other than the finished one, are as they were. -/
theorem deep_byte {other : Object} (otherMember : other ∈ graph) (different : other ≠ object)
    (otherDeep : old.shallow level other = false) {i : ℕ} (owned : old.Owns other i) :
    heap''.mem i = heap.mem i := by
  rw [settles.other_byte laid member otherMember different owned]
  apply complete.moves.keeps i _ (.inr ⟨other, otherMember, otherDeep, owned⟩)
  rintro (mine | fresh)
  · exact different (laid.apart other otherMember object member i owned mine)
  · have := start.start
    have := complete.moves.toSpace
    exact complete.collecting.spaces laid divided otherMember owned ⟨by omega, fresh.2⟩

private theorem deep_flag {other : Object} (otherMember : other ∈ graph) (different : other ≠ object)
    (otherDeep : old.shallow level other = false) :
    heap''.forwardFlag other.address = heap.forwardFlag other.address := by
  have above := (holds_iff.mp (laid.held other otherMember)).1
  apply forwardFlag_congr
  apply settles.deep_byte laid divided member start complete otherMember different otherDeep
  exact laid.owns_start otherMember (by omega) (by omega)

include shallow deep white

theorem spent : heap''.allocPtr + left old graph depth heap'' = heap.allocPtr + left old graph depth heap := by
  have below := left_finish (level_lt shallow deep).le member
    shallow deep white settles.flag fun other otherMember otherDeep different =>
      settles.deep_flag laid divided member start complete otherMember different otherDeep
  have same : left old graph level heap'' = left old graph level heap' := by
    apply Finset.sum_congr rfl
    intro other otherMember
    by_cases mine : other = object
    · simp [mine, deep]
    · rw [settles.other_flag laid member otherMember mine]
  have spent := complete.moves.spent
  have allocPtr := settles.allocPtr
  omega

/-- A finished object leaves a collection at the depth at which the work on it began. -/
theorem collects (away : old.AtomsAway atom) : Collecting old graph depth busy heap'' := by
  have spent := settles.spent laid divided member start shallow deep white complete
  have toSpace := complete.moves.toSpace
  have ofBlack (other : Object) (otherMember : other ∈ graph) (black : heap''.forwardFlag other.address = true)
      (different : other ≠ object) : heap'.forwardFlag other.address = true := by
    rwa [settles.other_flag laid member otherMember different] at black
  -- The copy of any black object, in the heap before the object became black.
  have copyOf (other : Object) (otherMember : other ∈ graph) (black : heap''.forwardFlag other.address = true) :
      CopiedTo old heap' other (heap''.forwardAddress other.address) := by
    by_cases mine : other = object
    · subst mine
      rw [settles.address]
      exact complete.copied
    · rw [settles.other_address laid member otherMember mine]
      exact complete.collecting.black other otherMember (ofBlack other otherMember black mine)
  have ownsOf (other : Object) (otherMember : other ∈ graph) (black : heap''.forwardFlag other.address = true)
      (i : ℕ) : heap''.Owns ⟨other.form, heap''.forwardAddress other.address⟩ i ↔
        heap'.Owns ⟨other.form, heap''.forwardAddress other.address⟩ i :=
    (settles.copy_agrees laid divided member complete (copyOf other otherMember black).held).owns
  have mineBusy (i : ℕ) (owned : heap'.Owns ⟨object.form, heap''.forwardAddress object.address⟩ i) :
      i ∈ busy' ∧ i ∉ busy := by
    rw [settles.address] at owned
    exact complete.placed i owned
  have otherIdle (other : Object) (otherMember : other ∈ graph) (black : heap''.forwardFlag other.address = true)
      (different : other ≠ object) (i : ℕ)
      (owned : heap'.Owns ⟨other.form, heap''.forwardAddress other.address⟩ i) : i ∉ busy' := by
    rw [settles.other_address laid member otherMember different] at owned
    exact complete.collecting.idle other otherMember (ofBlack other otherMember black different) i owned
  constructor
  case toSpace => exact settles.toSpace.trans complete.collecting.toSpace
  case fromSpace => exact settles.fromSpace.trans complete.collecting.fromSpace
  case size => exact settles.size.trans complete.collecting.size
  case start =>
    rw [settles.toSpace, settles.allocPtr]
    exact complete.collecting.start
  case room =>
    have room := start.room
    have size := start.size
    rw [spent, settles.toSpace, settles.size, toSpace, complete.collecting.size, ← size]
    exact room
  case busyInside =>
    intro i busyByte
    have := complete.collecting.busyInside i (complete.more busyByte)
    rwa [settles.toSpace, settles.allocPtr]
  case white =>
    intro other otherMember otherShallow otherWhite i owned
    have different : other ≠ object := by
      rintro rfl
      rw [settles.flag] at otherWhite
      contradiction
    cases below : old.shallow level other with
    | true =>
      rw [settles.other_byte laid member otherMember different owned]
      rw [settles.other_flag laid member otherMember different] at otherWhite
      exact complete.collecting.white other otherMember below otherWhite i owned
    | false =>
      rw [settles.deep_byte laid divided member start complete otherMember different below owned]
      rw [settles.deep_flag laid divided member start complete otherMember different below] at otherWhite
      exact start.white other otherMember otherShallow otherWhite i owned
  case black =>
    intro other otherMember black
    exact settles.copied laid divided member complete away otherMember (copyOf other otherMember black)
  case apart =>
    intro first firstMember second secondMember black black' i owned owned'
    rw [ownsOf first firstMember black] at owned
    rw [ownsOf second secondMember black'] at owned'
    by_cases mine : first = object
    · by_cases mine' : second = object
      · rw [mine, mine']
      · subst mine
        exact absurd (mineBusy i owned).1 (otherIdle second secondMember black' mine' i owned')
    · by_cases mine' : second = object
      · subst mine'
        exact absurd (mineBusy i owned').1 (otherIdle first firstMember black mine i owned)
      · rw [settles.other_address laid member firstMember mine] at owned
        rw [settles.other_address laid member secondMember mine'] at owned'
        exact complete.collecting.apart first firstMember second secondMember
          (ofBlack first firstMember black mine) (ofBlack second secondMember black' mine') i owned owned'
  case idle =>
    intro other otherMember black i owned
    rw [ownsOf other otherMember black] at owned
    by_cases mine : other = object
    · subst mine
      exact (mineBusy i owned).2
    · exact fun busyByte => otherIdle other otherMember black mine i owned (complete.more busyByte)
  case outside =>
    intro i elsewhere
    rw [inArena, settles.toSpace, settles.fromSpace, settles.size] at elsewhere
    rw [← complete.collecting.outside i elsewhere]
    by_contra changed
    obtain ⟨lower, upper⟩ := settles.changes i changed
    have inside := owns_inside (laid.held object member) (laid.owns_start member lower upper)
    have notInside : ¬ heap'.inArena i = true := by rw [show heap'.inArena i = false from elsewhere]; simp
    rw [inArena_iff] at notInside
    have halves := divided.halves
    have room := divided.room
    have toSpace' := complete.collecting.toSpace
    have fromSpace' := complete.collecting.fromSpace
    have size := complete.collecting.size
    omega

theorem moves : Moves old graph depth ∅ 0 heap heap'' where
  toSpace := settles.toSpace.trans complete.moves.toSpace
  allocPtr := complete.moves.allocPtr.trans settles.allocPtr.ge
  keeps i _ kept := by
    rcases kept with inside | ⟨other, otherMember, otherDeep, owned⟩
    · have later : heap'.toSpace ≤ i ∧ i < heap'.allocPtr := by
        have := complete.moves.toSpace
        have := complete.moves.allocPtr
        omega
      rw [settles.space_byte laid divided member complete later]
      apply complete.moves.keeps i _ (.inl inside)
      rintro (mine | fresh)
      · exact start.spaces laid divided member mine inside
      · omega
    · have different : other ≠ object := by
        rintro rfl
        rw [shallow] at otherDeep
        contradiction
      have below : old.shallow level other = false := by
        by_contra reads
        have := shallow_le (level_lt shallow deep).le
          (eq_true_of_ne_false reads)
        rw [otherDeep] at this
        contradiction
      exact settles.deep_byte laid divided member start complete otherMember different below owned
  black other otherMember black := by
    obtain ⟨still, address'⟩ := complete.moves.black other otherMember black
    obtain ⟨still', address''⟩ := settles.black laid member complete otherMember still
    exact ⟨still', address''.trans address'⟩
  spent := settles.spent laid divided member start shallow deep white complete

end Settles

end Heap

end Owl.Runtime
