import Owl.Proofs.Runtime.Roots

/-! # What survives a collection

The objects that were copied are the graph of the new heap. An image can be read to the same depth as the
word itself, and it stands for the same value unless an integer has been taken for an address.
-/

namespace Owl.Runtime

private theorem Value.references_object (head : Head) (parts : List Value) :
    (Value.object head parts).references = .object head (parts.map Value.references) := by
  have each (f : Term → Term) : Value.mapParts f parts = parts.map (Value.mapAtoms f) := by
    induction parts with
    | nil => rfl
    | cons part parts ih => rw [Value.mapParts, ih, List.map_cons]
  rw [references, mapAtoms, each]
  rfl

/-- Elements of related lists can be replaced one by one. -/
private theorem forall₂_replace {α β : Type} {before after : α → β → Prop} {related : β → β → Prop} {xs : List α}
    {ys : List β}
    (each : List.Forall₂ before xs ys)
    (replace : ∀ x ∈ xs, ∀ y, before x y → ∃ y', after x y' ∧ related y' y) :
    ∃ ys', List.Forall₂ after xs ys' ∧ List.Forall₂ related ys' ys := by
  induction each with
  | nil => exact ⟨[], .nil, .nil⟩
  | @cons x y xs ys first rest ih =>
    obtain ⟨y', here, same⟩ := replace x List.mem_cons_self y first
    obtain ⟨ys', others, same'⟩ := ih fun x' member => replace x' (List.mem_cons_of_mem _ member)
    exact ⟨y' :: ys', .cons here others, .cons same same'⟩

namespace Heap

variable {old heap : Heap} {graph : Finset Object} {atom : Term → Prop} {depth : ℕ} {busy : Set ℕ}

/-- An integer that the collector may take for the address of an object. -/
def mistakes (heap : Heap) (term : Term) : Bool :=
  tagOf term = Tag.int.bits && heap.toSpace ≤ extractPtr term && extractPtr term ≤ heap.toSpace + heap.size

/-- The graph of copies. -/
def copiesOf (heap : Heap) (graph : Finset Object) : Finset Object :=
  (graph.filter fun object => heap.forwardFlag object.address = true).image fun object =>
    ⟨object.form, heap.forwardAddress object.address⟩

theorem mem_copiesOf {copied : Object} : copied ∈ heap.copiesOf graph ↔
    ∃ object ∈ graph, heap.forwardFlag object.address = true ∧
      copied = ⟨object.form, heap.forwardAddress object.address⟩ := by
  simp only [copiesOf, Finset.mem_image, Finset.mem_filter, and_assoc, eq_comm (a := copied)]

/-- The image of a word that stands for itself is the word, or an integer instead of an integer. -/
theorem image_atom (away : old.AtomsAway atom) {term : Term} {ref' : Ref} (self : atom term)
    (image : Image old heap (.term term) ref') :
    ∃ term', ref' = .term term' ∧ (term' = term ∨ tagOf term' = Tag.int.bits ∧ old.mistakes term = true) := by
  rw [Image, target_atom away self] at image
  rcases image with rfl | ⟨word, word', same, rfl, int, int', lower, upper⟩
  · exact ⟨term, rfl, .inl rfl⟩
  · obtain rfl := Ref.term.inj same
    refine ⟨word', rfl, .inr ⟨int', ?_⟩⟩
    simp only [mistakes, Bool.and_eq_true, decide_eq_true_eq]
    exact ⟨⟨int, lower⟩, upper⟩

namespace Collecting

variable (divided : old.Divided) (collecting : Collecting old graph depth busy heap)

include divided collecting

/-- After a collection the halves have changed their roles. -/
theorem halved : heap.Divided where
  halves := by
    rw [collecting.toSpace, collecting.fromSpace, collecting.size]
    exact divided.halves.symm
  start := collecting.start
  room := (Nat.le_add_right _ _).trans collecting.room
  positive := by
    rw [collecting.toSpace, collecting.fromSpace]
    exact divided.positive.symm
  small := by rw [collecting.size]; exact divided.small
  low := by
    rw [collecting.toSpace, collecting.fromSpace]
    exact divided.low.symm

omit divided in
theorem inArena (ptr : ℕ) : heap.inArena ptr = old.inArena ptr := by
  rw [Heap.inArena, Heap.inArena, collecting.toSpace, collecting.fromSpace, collecting.size, min_comm]

omit divided in
theorem away (away : old.AtomsAway atom) : heap.AtomsAway atom := by
  intro term self
  rw [Away, collecting.toSpace, collecting.fromSpace, collecting.size, min_comm]
  exact away term self

/-- The image of a reference to an object refers to its copy. -/
theorem target_image {ref ref' : Ref} {object : Object} (member : object ∈ graph)
    (found : old.target ref = some object) (image : Image old heap ref ref') :
    heap.forwardFlag object.address = true ∧
      heap.target ref' = some ⟨object.form, heap.forwardAddress object.address⟩ := by
  rw [Image, found] at image
  obtain ⟨black, rfl⟩ := image
  refine ⟨black, ?_⟩
  have held := (collecting.black object member black).held
  cases ref with
  | node address =>
    rw [target_node, Option.some.injEq] at found
    subst found
    rfl
  | term word =>
    obtain ⟨tag, ptr⟩ := target_term found
    have divided' := collecting.halved divided
    have inside := inArena_held divided' held
    have low : heap.forwardAddress object.address < 2 ^ 61 := by
      obtain ⟨-, upper, -⟩ := holds_iff.mp held
      dsimp only at upper
      have := divided'.low
      have := divided'.small
      have := divided'.room
      omega
    rw [Ref.moveTo, target, extractPtr_shiftOr low, inside, tagOf_shiftOr, tag]
    rfl

variable (laid : old.Laid atom graph) (away : old.AtomsAway atom)

include laid away

/-- An image is good in the graph of copies. -/
theorem good_image (ints : ∀ term, tagOf term = Tag.int.bits → atom term) {ref ref' : Ref} (good : Good atom graph ref)
    (image : Image old heap ref ref') : Good atom (heap.copiesOf graph) ref' := by
  rcases laid.target_good divided away good with ⟨term, rfl, self, -⟩ | ⟨object, member, found⟩
  · obtain ⟨term', rfl, rfl | ⟨int, -⟩⟩ := image_atom away self image
    · exact .inl self
    · exact .inl (ints _ int)
  · obtain ⟨black, found'⟩ := collecting.target_image divided member found image
    have copied : (⟨object.form, heap.forwardAddress object.address⟩ : Object) ∈ heap.copiesOf graph :=
      mem_copiesOf.mpr ⟨object, member, black, rfl⟩
    cases ref' with
    | node address =>
      rw [target_node, Option.some.injEq] at found'
      rwa [← found'] at copied
    | term word =>
      obtain ⟨tag, ptr⟩ := target_term found'
      exact .inr ⟨object.form, tag, by rwa [ptr]⟩

/-- An image can be read as the word was. -/
theorem decode_image (ints : ∀ term, tagOf term = Tag.int.bits → atom term) {level : ℕ} {ref ref' : Ref} {value : Value}
    (good : Good atom graph ref) (image : Image old heap ref ref') (read : old.decode level ref = some value) :
    ∃ value', heap.decode level ref' = some value' ∧ value'.references = value.references ∧
      (value.all (fun term => !old.mistakes term) (fun _ => true) = true → value' = value) := by
  induction level generalizing ref ref' value with
  | zero => contradiction
  | succ level ih =>
    rcases laid.target_good divided away good with ⟨term, rfl, self, found⟩ | ⟨object, member, found⟩
    · rw [decode_atom found] at read
      cases read
      obtain ⟨term', rfl, changed⟩ := image_atom away self image
      have self' : atom term' := by
        rcases changed with rfl | ⟨int, -⟩
        · exact self
        · exact ints _ int
      refine ⟨.atom term', decode_atom (target_atom (collecting.away away) self'), ?_, fun fine => ?_⟩
      · rcases changed with rfl | ⟨int, mistaken⟩
        · rfl
        · have int' : tagOf term = Tag.int.bits := by
            simp only [mistakes, Bool.and_eq_true, decide_eq_true_eq] at mistaken
            exact mistaken.1.1
          simp only [Value.references, Value.mapAtoms, int, int', if_true]
      · rcases changed with rfl | ⟨-, mistaken⟩
        · rfl
        · rw [Value.all, mistaken] at fine
          contradiction
    · obtain ⟨black, found'⟩ := collecting.target_image divided member found image
      have copied := collecting.black object member black
      rw [decode_object found] at read
      obtain ⟨-, parts, each, rfl⟩ := readObject_eq_some.mp read
      obtain ⟨parts', each', same⟩ := forall₂_replace each
        fun slot inside part readPart => ih (laid.closed object member slot inside) (copied.words slot inside) readPart
      refine ⟨.object (old.head object) parts', ?_, ?_, fun fine => ?_⟩
      · rw [decode_object found', readObject_eq_some, copied.slots, copied.head]
        exact ⟨copied.held, parts', each', rfl⟩
      · have equal : parts'.map Value.references = parts.map Value.references := by
          rw [← List.forall₂_eq_eq_eq, List.forall₂_map_left_iff, List.forall₂_map_right_iff]
          exact same.imp fun _ _ => And.left
        rw [Value.references_object, Value.references_object, equal]
      · obtain ⟨length, each⟩ := List.forall₂_iff_get.mp same
        have fineParts := (Value.all_object.mp fine).2
        have equal : parts' = parts := List.ext_get length fun i left right =>
          (each i left right).2 (fineParts _ (List.get_mem _ _))
        rw [equal]

/-- The copies are laid out as a graph. -/
theorem laid_copies (ints : ∀ term, tagOf term = Tag.int.bits → atom term) :
    heap.Laid atom (heap.copiesOf graph) := by
  refine ⟨?held, ?apart, ?table, ?unmoved, ?closed, ?valued⟩
  case held =>
    intro copied member
    obtain ⟨object, old, black, rfl⟩ := mem_copiesOf.mp member
    exact (collecting.black object old black).held
  case apart =>
    intro first left second right i owned owned'
    obtain ⟨object, member, black, rfl⟩ := mem_copiesOf.mp left
    obtain ⟨other, otherMember, otherBlack, rfl⟩ := mem_copiesOf.mp right
    rw [collecting.apart object member other otherMember black otherBlack i owned owned']
  case table =>
    intro copied member tabled
    obtain ⟨object, old, black, rfl⟩ := mem_copiesOf.mp member
    have copied := collecting.black object old black
    rw [copied.extent]
    exact copied.tableApart tabled
  case unmoved =>
    intro copied member
    obtain ⟨object, old, black, rfl⟩ := mem_copiesOf.mp member
    exact (collecting.black object old black).unmoved
  case closed =>
    intro copied member slot inside
    obtain ⟨object, old, black, rfl⟩ := mem_copiesOf.mp member
    have copied := collecting.black object old black
    rw [copied.slots] at inside
    exact collecting.good_image divided laid away ints (laid.closed object old slot inside) (copied.words slot inside)
  case valued =>
    intro copied member
    obtain ⟨object, old, black, rfl⟩ := mem_copiesOf.mp member
    have copied := collecting.black object old black
    refine readObject_isSome copied.held fun slot inside => ?_
    rw [copied.slots] at inside
    have good := laid.closed object old slot inside
    obtain ⟨level, read⟩ := laid.readable divided away good
    obtain ⟨value, read⟩ := Option.isSome_iff_exists.mp read
    obtain ⟨value', read', -, -⟩ := collecting.decode_image divided laid away ints good (copied.words slot inside) read
    exact ⟨level, Option.isSome_iff_exists.mpr ⟨value', read'⟩⟩

end Collecting

end Heap

end Owl.Runtime
