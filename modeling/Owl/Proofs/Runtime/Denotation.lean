import Owl.Proofs.Runtime.Allocation
import Owl.Model.Runtime.Value
import Owl.ToMathlib.Option

/-! # Reading values

How an object is read depends on the bytes that it owns. Objects with the same header have the same
words at the same offsets, so a value that can be read in one heap can be read in every heap that agrees
with it on allocated memory.
-/

namespace Owl.Runtime

private theorem Value.allParts_iff {atomOk : Term → Bool} {headOk : Head → Bool} {parts : List Value} :
    Value.allParts atomOk headOk parts = true ↔ ∀ part ∈ parts, part.all atomOk headOk = true := by
  induction parts with
  | nil => simp [Value.allParts]
  | cons part parts ih => simp [Value.allParts, ih]

theorem Value.all_object {atomOk : Term → Bool} {headOk : Head → Bool} {head : Head} {parts : List Value} :
    (Value.object head parts).all atomOk headOk = true ↔
      headOk head = true ∧ ∀ part ∈ parts, part.all atomOk headOk = true := by
  rw [Value.all, Bool.and_eq_true, Value.allParts_iff]

namespace Heap

theorem strlenWithin_ok {mem : ByteMemory} {limit address n : ℕ} :
    strlenWithin mem limit address = .ok n ↔
      n < limit ∧ (∀ i < n, mem (address + i) ≠ 0) ∧ mem (address + n) = 0 := by
  induction limit generalizing address n with
  | zero => simp [strlenWithin]
  | succ limit ih =>
    rw [strlenWithin]
    split
    · next stop =>
      rw [Except.ok.injEq]
      refine ⟨fun same => ?_, fun ⟨_, inside, _⟩ => ?_⟩
      · subst same
        exact ⟨Nat.succ_pos limit, fun i small => absurd small (Nat.not_lt_zero i), stop⟩
      · by_contra positive
        exact inside 0 (by omega) stop
    · next going =>
      simp only [Except.bind_eq_ok, Except.pure_eq_ok, ih]
      constructor
      · rintro ⟨m, ⟨small, inside, stop⟩, rfl⟩
        refine ⟨by omega, fun i below => ?_, by rwa [Nat.add_assoc, Nat.add_comm 1 m] at stop⟩
        rcases i with _ | i
        · exact going
        · rw [show address + (i + 1) = address + 1 + i by omega]
          exact inside i (by omega)
      · rintro ⟨small, inside, stop⟩
        rcases n with _ | n
        · exact absurd stop going
        · refine ⟨n, ⟨by omega, fun i below => ?_, by rwa [show address + 1 + n = address + (n + 1) by omega]⟩, rfl⟩
          rw [show address + 1 + i = address + (i + 1) by omega]
          exact inside (i + 1) (by omega)

theorem textLength_eq_iff {heap : Heap} {address n : ℕ} (bounded : n < heap.size) :
    heap.textLength address = n ↔ (∀ i < n, heap.mem (address + i) ≠ 0) ∧ heap.mem (address + n) = 0 := by
  rw [textLength]
  cases found : strlenWithin heap.mem heap.size address with
  | error stop =>
    simp only [Except.toOption, Option.getD_none]
    refine ⟨fun same => by omega, fun text => ?_⟩
    rw [strlenWithin_ok.mpr ⟨bounded, text⟩] at found
    contradiction
  | ok length =>
    simp only [Except.toOption, Option.getD_some]
    refine ⟨fun same => (same ▸ strlenWithin_ok.mp found).2, fun text => ?_⟩
    rw [strlenWithin_ok.mpr ⟨bounded, text⟩] at found
    exact (Except.ok.inj found).symm

/-- The bytes that say how an object is laid out. -/
def headerSize (heap : Heap) (object : Object) : ℕ :=
  match object.form with
  | .tuple => 8
  | .string => heap.textLength object.address + 1
  | .function => sizeofFunction
  | .list => 16
  | .node => 16

/-- An object elsewhere has the same header. -/
structure SameHeader (heap heap' : Heap) (form : Form) (address address' : ℕ) : Prop where
  size : heap'.size = heap.size
  bounded : heap.extent ⟨form, address⟩ ≤ heap.size
  bytes : ∀ i < heap.headerSize ⟨form, address⟩, heap'.mem (address' + i) = heap.mem (address + i)

namespace SameHeader

variable {heap heap' : Heap} {form : Form} {address address' : ℕ}

theorem textLength (same : SameHeader heap heap' .string address address') :
    heap'.textLength address' = heap.textLength address := by
  have bounded := same.bounded
  simp only [extent] at bounded
  have below : heap.textLength address < heap.size := by omega
  obtain ⟨inside, stop⟩ := (textLength_eq_iff below).mp rfl
  have bytes := same.bytes
  simp only [headerSize] at bytes
  rw [textLength_eq_iff (by rw [same.size]; exact below), bytes _ (Nat.lt_succ_self _)]
  refine ⟨fun i small => ?_, stop⟩
  rw [bytes i (by omega)]
  exact inside i small

/-- A number in the header. -/
theorem readNat (same : SameHeader heap heap' form address address') (offset n : ℕ)
    (inside : offset + n ≤ heap.headerSize ⟨form, address⟩) :
    heap'.mem.readNat (address' + offset) n = heap.mem.readNat (address + offset) n := by
  refine ByteMemory.readNat_shift fun i small => ?_
  rw [Nat.add_assoc, Nat.add_assoc]
  exact same.bytes _ (by omega)

theorem readNat_first (same : SameHeader heap heap' form address address') (n : ℕ)
    (inside : n ≤ heap.headerSize ⟨form, address⟩) :
    heap'.mem.readNat address' n = heap.mem.readNat address n :=
  ByteMemory.readNat_shift fun i small => same.bytes i (by omega)

theorem nUpvalues (same : SameHeader heap heap' .function address address') :
    heap'.nUpvalues address' = heap.nUpvalues address :=
  congrArg UInt8.toNat (same.bytes 16 (by simp [headerSize, sizeofFunction]))

theorem isLeaf (same : SameHeader heap heap' .node address address') :
    heap'.isLeaf address' = heap.isLeaf address := by
  rw [Heap.isLeaf, Heap.isLeaf, same.readNat_first 4 (by simp [headerSize])]

theorem nodeLen (same : SameHeader heap heap' .node address address') :
    heap'.nodeLen address' = heap.nodeLen address :=
  same.readNat 4 4 (by simp [headerSize])

theorem extent (same : SameHeader heap heap' form address address') :
    heap'.extent ⟨form, address'⟩ = heap.extent ⟨form, address⟩ := by
  cases form with
  | tuple => simp only [Heap.extent, same.readNat_first 8 (by simp [headerSize])]
  | string => simp only [Heap.extent, same.textLength]
  | function => simp only [Heap.extent, same.nUpvalues]
  | list => rfl
  | node => simp only [Heap.extent, same.isLeaf, same.nodeLen]

/-- Whether a list has a root is not in its header. -/
theorem slots (same : SameHeader heap heap' form address address')
    (rooted : form = .list →
      (heap'.mem.readNat (address' + 24) 8 = 0 ↔ heap.mem.readNat (address + 24) 8 = 0)) :
    heap'.slots ⟨form, address'⟩ = heap.slots ⟨form, address⟩ := by
  cases form with
  | tuple => simp only [Heap.slots, same.readNat_first 8 (by simp [headerSize])]
  | string => rfl
  | function => simp only [Heap.slots, same.nUpvalues]
  | list => simp only [Heap.slots, ne_eq, rooted rfl]
  | node => simp only [Heap.slots, same.isLeaf, same.nodeLen]

/-- The size table of a node is not in its header. -/
theorem head (same : SameHeader heap heap' form address address')
    (table : form = .node → heap.isLeaf address = false →
      (heap'.table ⟨form, address'⟩ = 0 ↔ heap.table ⟨form, address⟩ = 0) ∧
      (heap.table ⟨form, address⟩ ≠ 0 →
        heap'.sizesAt (heap'.table ⟨form, address'⟩) (heap.nodeLen address) =
          heap.sizesAt (heap.table ⟨form, address⟩) (heap.nodeLen address))) :
    heap'.head ⟨form, address'⟩ = heap.head ⟨form, address⟩ := by
  cases form with
  | tuple => simp only [Heap.head]
  | string =>
    simp only [Heap.head, same.textLength]
    rw [ByteMemory.readBytes_shift fun i small => same.bytes i (by simp only [headerSize]; omega)]
  | function =>
    simp only [Heap.head, same.readNat_first 8 (by simp [headerSize, sizeofFunction]),
      same.readNat 8 8 (by simp [headerSize, sizeofFunction])]
  | list =>
    simp only [Heap.head, same.readNat_first 4 (by simp [headerSize]),
      same.readNat 4 4 (by simp [headerSize]), same.readNat 8 4 (by simp [headerSize])]
  | node =>
    simp only [Heap.head, same.isLeaf, same.nodeLen]
    cases leaf : heap.isLeaf address with
    | true => simp
    | false =>
      obtain ⟨absent, sizes⟩ := table rfl leaf
      by_cases none : heap.table ⟨.node, address⟩ = 0
      · simp [none, absent.mpr none]
      · simp [none, absent.not.mpr none, sizes none]

end SameHeader

/-- A byte of an object: its flag, its words and data, and its size table. -/
def Owns (heap : Heap) (object : Object) (i : ℕ) : Prop :=
  object.address ≤ i + 1 ∧ i < object.address + heap.extent object ∨
    heap.table object ≠ 0 ∧ heap.table object ≤ i + 1 ∧
      i < heap.table object + tableExtent (heap.nodeLen object.address)

theorem headerSize_le_extent (heap : Heap) (object : Object) : heap.headerSize object ≤ heap.extent object := by
  obtain ⟨form, address⟩ := object
  cases form with
  | tuple => simp [headerSize, extent]
  | string =>
    simp only [headerSize, extent]
    omega
  | function => simp [headerSize, extent]
  | list => simp [headerSize, extent, sizeofRrb]
  | node =>
    simp only [headerSize, extent, sizeofLeafNode, sizeofInternalNode]
    split <;> omega

theorem extent_pos (heap : Heap) (object : Object) : 0 < heap.extent object := by
  have header := heap.headerSize_le_extent object
  have positive : 0 < heap.headerSize object := by
    obtain ⟨form, start⟩ := object
    cases form <;> simp [headerSize, sizeofFunction]
  omega

theorem mem_slotsFrom {offset n : ℕ} {isNode : Bool} {slot : Slot} :
    slot ∈ slotsFrom offset n isNode ↔ ∃ k < n, slot = ⟨offset + 8 * k, isNode⟩ := by
  simp only [slotsFrom, List.mem_map, List.mem_range, eq_comm]

/-- A word of an object lies between its header and its end. -/
theorem slot_inside {heap : Heap} {object : Object} {slot : Slot} (member : slot ∈ heap.slots object) :
    heap.headerSize object ≤ slot.offset ∧ slot.offset + 8 ≤ heap.extent object := by
  obtain ⟨form, address⟩ := object
  cases form with
  | tuple =>
    obtain ⟨k, small, rfl⟩ := mem_slotsFrom.mp member
    simp only [extent, headerSize] at small ⊢
    omega
  | string => simp [slots] at member
  | function =>
    obtain ⟨k, small, rfl⟩ := mem_slotsFrom.mp member
    simp only [extent, headerSize, sizeofFunction] at small ⊢
    omega
  | list =>
    simp only [slots, List.mem_append, List.mem_singleton] at member
    rcases member with root | rfl
    · split at root
      · rw [List.mem_singleton] at root
        subst root
        simp [extent, headerSize, sizeofRrb]
      · simp at root
    · simp [extent, headerSize, sizeofRrb]
  | node =>
    simp only [slots] at member
    simp only [extent, headerSize]
    split at member
    all_goals
      next leaf =>
      obtain ⟨k, small, rfl⟩ := mem_slotsFrom.mp member
      simp only [leaf, sizeofLeafNode, sizeofInternalNode]
      norm_num
      omega

theorem forwardFlag_congr {heap heap' : Heap} {address address' : ℕ}
    (same : heap'.mem (address' - 1) = heap.mem (address - 1)) :
    heap'.forwardFlag address' = heap.forwardFlag address := by
  simp only [forwardFlag, same]

/-- The bytes of an object are the same in both heaps. -/
structure AgreesOn (heap heap' : Heap) (object : Object) : Prop where
  size : heap'.size = heap.size
  bounded : heap.extent object ≤ heap.size
  bytes : ∀ i, heap.Owns object i → heap'.mem i = heap.mem i

namespace AgreesOn

variable {heap heap' : Heap} {object : Object}

theorem byte (agrees : heap.AgreesOn heap' object) {i : ℕ} (inside : i < heap.extent object) :
    heap'.mem (object.address + i) = heap.mem (object.address + i) := by
  apply agrees.bytes
  exact .inl ⟨by omega, by omega⟩

theorem flag (agrees : heap.AgreesOn heap' object) (positive : 0 < object.address) :
    heap'.forwardFlag object.address = heap.forwardFlag object.address := by
  apply forwardFlag_congr
  apply agrees.bytes
  exact .inl ⟨by omega, by omega⟩

theorem header (agrees : heap.AgreesOn heap' object) :
    SameHeader heap heap' object.form object.address object.address where
  size := agrees.size
  bounded := agrees.bounded
  bytes _ inside := agrees.byte (inside.trans_le (headerSize_le_extent heap object))

theorem extent (agrees : heap.AgreesOn heap' object) : heap'.extent object = heap.extent object :=
  agrees.header.extent

/-- A number inside an object. -/
theorem readNat (agrees : heap.AgreesOn heap' object) (offset n : ℕ)
    (inside : offset + n ≤ heap.extent object) :
    heap'.mem.readNat (object.address + offset) n = heap.mem.readNat (object.address + offset) n := by
  refine ByteMemory.readNat_shift fun i small => ?_
  rw [Nat.add_assoc]
  exact agrees.byte (by omega)

theorem slots (agrees : heap.AgreesOn heap' object) : heap'.slots object = heap.slots object := by
  obtain ⟨form, address⟩ := object
  apply agrees.header.slots
  rintro rfl
  have root := agrees.readNat 24 8 (by simp [Heap.extent, sizeofRrb])
  dsimp only at root
  rw [root]

theorem refAt (agrees : heap.AgreesOn heap' object) {slot : Slot} (member : slot ∈ heap.slots object) :
    heap'.refAt (object.address + slot.offset) slot.isNode =
      heap.refAt (object.address + slot.offset) slot.isNode := by
  obtain ⟨-, inside⟩ := slot_inside member
  simp only [Heap.refAt, readTerm, agrees.readNat _ _ inside]

theorem table (agrees : heap.AgreesOn heap' object) : heap'.table object = heap.table object := by
  obtain ⟨form, address⟩ := object
  cases form with
  | node =>
    have leaf := agrees.header.isLeaf
    simp only [Heap.table, leaf]
    cases inner : heap.isLeaf address with
    | true => simp
    | false => simpa using agrees.readNat 16 8 (by simp [Heap.extent, inner, sizeofInternalNode])
  | _ => simp [Heap.table]

theorem tableLen (agrees : heap.AgreesOn heap' object) (tabled : heap.table object ≠ 0) :
    heap'.nodeLen object.address = heap.nodeLen object.address := by
  obtain ⟨form, address⟩ := object
  cases form with
  | node => exact agrees.header.nodeLen
  | _ => simp [Heap.table] at tabled

theorem owns (agrees : heap.AgreesOn heap' object) {i : ℕ} : heap'.Owns object i ↔ heap.Owns object i := by
  rw [Owns, Owns, agrees.extent, agrees.table]
  constructor
  · rintro (inside | ⟨tabled, inside⟩)
    · exact .inl inside
    · exact .inr ⟨tabled, by rwa [agrees.tableLen tabled] at inside⟩
  · rintro (inside | ⟨tabled, inside⟩)
    · exact .inl inside
    · exact .inr ⟨tabled, by rwa [agrees.tableLen tabled]⟩

theorem head (agrees : heap.AgreesOn heap' object) : heap'.head object = heap.head object := by
  apply agrees.header.head
  intro node inner
  have same := agrees.table
  obtain ⟨form, address⟩ := object
  refine ⟨by rw [same], fun tabled => ?_⟩
  rw [same]
  apply List.map_congr_left
  intro i small
  have small := List.mem_range.mp small
  refine ByteMemory.readNat_shift fun j below => agrees.bytes _ (.inr ⟨tabled, ?_, ?_⟩)
  · omega
  · simp only [tableExtent] at small ⊢
    omega

end AgreesOn

theorem holds_iff {heap : Heap} {object : Object} : heap.holds object = true ↔
    heap.toSpace < object.address ∧ object.address + heap.extent object ≤ heap.allocPtr ∧
      (heap.table object ≠ 0 → heap.toSpace < heap.table object ∧
        heap.table object + tableExtent (heap.nodeLen object.address) ≤ heap.allocPtr) := by
  simp only [holds, Bool.and_eq_true, Bool.or_eq_true, decide_eq_true_eq, ne_eq, and_assoc]
  rw [or_iff_not_imp_left]

/-- An object that the heap holds lies in allocated blocks. -/
theorem owns_inside {heap : Heap} {object : Object} (held : heap.holds object = true) {i : ℕ}
    (owned : heap.Owns object i) : heap.toSpace ≤ i ∧ i < heap.allocPtr := by
  obtain ⟨lower, upper, table⟩ := holds_iff.mp held
  rcases owned with inside | ⟨tabled, inside⟩
  · omega
  · have := table tabled
    omega

theorem readObject_eq_some {heap : Heap} {read : Ref → Option Value} {object : Object} {value : Value} :
    heap.readObject read object = some value ↔ heap.holds object = true ∧ ∃ parts,
      List.Forall₂ (fun slot part => read (heap.refAt (object.address + slot.offset) slot.isNode) = some part)
        (heap.slots object) parts ∧ value = .object (heap.head object) parts := by
  rw [readObject]
  split
  · next held => simp only [held, true_and, Option.map_eq_some_iff, Option.mapM_eq_some, eq_comm (a := value)]
  · next held => simp [held]

theorem readObject_isSome_iff {heap : Heap} {read : Ref → Option Value} {object : Object} :
    (heap.readObject read object).isSome ↔ heap.holds object = true ∧
      ∀ slot ∈ heap.slots object, (read (heap.refAt (object.address + slot.offset) slot.isNode)).isSome := by
  rw [readObject]
  split
  · next held => rw [Option.isSome_map, Option.isSome_mapM, and_iff_right held]
  · next held => simp [held]

theorem decode_pos {heap : Heap} {depth : ℕ} {ref : Ref} {value : Value} (read : heap.decode depth ref = some value) :
    0 < depth := by
  cases depth with
  | zero => contradiction
  | succ depth => exact Nat.succ_pos depth

theorem decode_object {heap : Heap} {depth : ℕ} {ref : Ref} {object : Object}
    (found : heap.target ref = some object) :
    heap.decode (depth + 1) ref = heap.readObject (heap.decode depth) object := by
  rw [decode, found]

theorem decode_atom {heap : Heap} {depth : ℕ} {term : Term} (found : heap.target (.term term) = none) :
    heap.decode (depth + 1) (.term term) = some (.atom term) := by
  rw [decode, found]
  rfl

theorem target_node (heap : Heap) (address : ℕ) : heap.target (.node address) = some ⟨.node, address⟩ := rfl

/-- A reference stands for itself or for an object. -/
private theorem target_cases (heap : Heap) (ref : Ref) :
    (∃ term, ref = .term term ∧ heap.target ref = none) ∨ ∃ object, heap.target ref = some object := by
  cases ref with
  | term term =>
    cases found : heap.target (.term term) with
    | none => exact .inl ⟨term, rfl, rfl⟩
    | some object => exact .inr ⟨object, rfl⟩
  | node address => exact .inr ⟨_, rfl⟩

/-- What can be read to a depth can be read deeper. -/
theorem decode_succ {heap : Heap} {depth : ℕ} {ref : Ref} {value : Value}
    (read : heap.decode depth ref = some value) : heap.decode (depth + 1) ref = some value := by
  induction depth generalizing ref value with
  | zero => contradiction
  | succ depth ih =>
    rcases heap.target_cases ref with ⟨term, rfl, found⟩ | ⟨object, found⟩
    · rw [decode_atom found] at read ⊢
      exact read
    · rw [decode_object found, readObject_eq_some] at read ⊢
      obtain ⟨held, parts, each, rfl⟩ := read
      exact ⟨held, parts, each.imp fun _ _ => ih, rfl⟩

theorem decode_le {heap : Heap} {depth depth' : ℕ} {ref : Ref} {value : Value} (deeper : depth ≤ depth')
    (read : heap.decode depth ref = some value) : heap.decode depth' ref = some value := by
  induction deeper with
  | refl => exact read
  | step _ ih => exact decode_succ ih

/-- A reference stands for one value. -/
theorem Denotes.unique {heap : Heap} {ref : Ref} {first second : Value} (left : heap.Denotes ref first)
    (right : heap.Denotes ref second) : first = second := by
  obtain ⟨m, left⟩ := left
  obtain ⟨n, right⟩ := right
  have left := decode_le (Nat.le_max_left m n) left
  rw [decode_le (Nat.le_max_right m n) right] at left
  exact (Option.some.inj left).symm

theorem Grows.agreesOn {heap heap' : Heap} {object : Object} (grows : heap.Grows heap')
    (room : heap.allocPtr ≤ heap.toSpace + heap.size) (held : heap.holds object = true) :
    heap.AgreesOn heap' object where
  size := grows.size
  bounded := by
    have := holds_iff.mp held
    omega
  bytes i owned := grows.mem i (.inl (owns_inside held owned).2)

theorem Grows.target {heap heap' : Heap} (grows : heap.Grows heap') (ref : Ref) :
    heap'.target ref = heap.target ref := by
  cases ref with
  | node address => rfl
  | term term => rw [Heap.target, Heap.target, inArena, inArena, grows.toSpace, grows.fromSpace, grows.size]

theorem Grows.holds {heap heap' : Heap} {object : Object} (grows : heap.Grows heap')
    (room : heap.allocPtr ≤ heap.toSpace + heap.size) (held : heap.holds object = true) :
    heap'.holds object = true := by
  have agrees := grows.agreesOn room held
  obtain ⟨lower, upper, table⟩ := holds_iff.mp held
  have more := grows.allocPtr
  rw [holds_iff, grows.toSpace, agrees.extent, agrees.table]
  refine ⟨lower, by omega, fun tabled => ?_⟩
  rw [agrees.tableLen tabled]
  have := table tabled
  omega

/-- A value that can be read can be read after every allocation. -/
theorem Grows.decode {heap heap' : Heap} (grows : heap.Grows heap')
    (room : heap.allocPtr ≤ heap.toSpace + heap.size) {depth : ℕ} {ref : Ref} {value : Value}
    (read : heap.decode depth ref = some value) : heap'.decode depth ref = some value := by
  induction depth generalizing ref value with
  | zero => contradiction
  | succ depth ih =>
    rcases heap.target_cases ref with ⟨term, rfl, found⟩ | ⟨object, found⟩
    · rw [decode_atom found] at read
      rw [decode_atom (by rw [grows.target, found])]
      exact read
    · rw [decode_object found, readObject_eq_some] at read
      rw [decode_object (by rw [grows.target, found]), readObject_eq_some]
      obtain ⟨held, parts, each, rfl⟩ := read
      have agrees := grows.agreesOn room held
      refine ⟨grows.holds room held, parts, ?_, by rw [agrees.head]⟩
      rw [agrees.slots]
      refine List.forall₂_iff_get.mpr ⟨each.length_eq, fun i left right => ?_⟩
      rw [agrees.refAt (List.get_mem _ _)]
      exact ih (each.get left right)

theorem Grows.denotes {heap heap' : Heap} (grows : heap.Grows heap')
    (room : heap.allocPtr ≤ heap.toSpace + heap.size) {ref : Ref} {value : Value}
    (denotes : heap.Denotes ref value) : heap'.Denotes ref value := by
  obtain ⟨depth, read⟩ := denotes
  exact ⟨depth, grows.decode room read⟩

end Heap

end Owl.Runtime
