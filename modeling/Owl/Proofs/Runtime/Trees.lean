import Owl.Proofs.Lists.Elements
import Owl.Proofs.Runtime.Growing

/-! # Lists on the heap

The nodes of a list that is in the graph are in the graph, and its elements are good. A list whose elements are good
is put on the heap node by node, so that it can join the graph.
-/

namespace Owl.Runtime

open Owl.Lists StateExcept
open Option (Ensures)

variable {World : Type} {host : Host World} {arena : ℕ} {statics : ℕ → Option StaticFunction}
  {start heap : Heap} {graph graph' : Finset Object} {scratch : Heap → List Bytes} {known : Places}

/-- An element that may be in a list. -/
def GoodElem (host : Host World) (statics : ℕ → Option StaticFunction) (graph : Finset Object) (elem : Term) : Prop :=
  Good (Atom host statics) graph (.term elem)

theorem GoodElem.mono (more : graph ⊆ graph') {elem : Term} (good : GoodElem host statics graph elem) :
    GoodElem host statics graph' elem :=
  Good.mono _ more good

/-- Nodes that have joined the graph. -/
def Places.Known (graph : Finset Object) (known : Places) : Prop := ∀ entry ∈ known, ⟨.node, entry.2⟩ ∈ graph

/-- A list whose head, nodes and elements are in the graph. -/
structure ListAt.Known (host : Host World) (statics : ℕ → Option StaticFunction) (graph : Finset Object)
    (found : ListAt) : Prop where
  good : Good (Atom host statics) graph (.term (tagAs (UInt64.ofNat found.address) .list))
  elements : found.list.All (GoodElem host statics graph)
  nodes : found.nodes.Known graph

theorem ListAt.Known.mono {found : ListAt} (known : found.Known host statics graph) (more : graph ⊆ graph') :
    found.Known host statics graph' where
  good := known.good.mono _ more
  elements := ⟨known.elements.tail.mono fun _ => .mono more, known.elements.root.mono fun _ => .mono more⟩
  nodes entry member := more (known.nodes entry member)

private theorem tagAs_extractPtr {term : Term} {tag : Tag} (tagged : tagOf term = tag.bits) :
    tagAs (UInt64.ofNat (extractPtr term)) tag = term := by
  have small := term.toNat_lt
  have low : extractPtr term < 2 ^ 61 := by
    rw [extractPtr_eq]
    omega
  exact term_ext (extractPtr_tagAs_ofNat low tag) ((tagOf_tagAs _ _).trans tagged.symm)

/-- A list that is not empty refers to a list head of the graph. -/
private theorem good_list {list : Term} (good : Good (Atom host statics) graph (.term list))
    (tag : tagOf list = Tag.list.bits) : extractPtr list = host.emptyRrb ∨ ⟨.list, extractPtr list⟩ ∈ graph := by
  rcases good with (int | ⟨-, -, other⟩ | ⟨other, -⟩ | ⟨-, empty⟩ | ⟨other, -⟩) | ⟨form, named, member⟩
  · exact absurd (int.symm.trans tag) (by decide)
  · exact absurd tag other
  · exact absurd (other.symm.trans tag) (by decide)
  · exact .inl empty
  · exact absurd (other.symm.trans tag) (by decide)
  · rw [tag] at named
    cases named
    exact .inr member

section Reading

variable (settled : Memory.Settled host arena graph ⟨heap, statics⟩)

include settled

private theorem nodeAt_known : ∀ (height : ℕ) {address : ℕ}, ⟨.node, address⟩ ∈ graph →
    Ensures (heap.nodeAt height address) fun found =>
      found.1.All (GoodElem host statics graph) ∧ Places.Known graph found.2 := by
  intro height
  induction height with
  | zero =>
    intro address member
    refine .ite (fun leaf => .some ⟨.leaf fun elem inside => ?_, fun entry inside => ?_⟩) fun _ => .none
    · obtain ⟨-, leaf⟩ := Bool.and_eq_true_iff.mp leaf
      obtain ⟨i, below, rfl⟩ := List.mem_map.mp inside
      have slot : (⟨Heap.sizeofLeafNode + 8 * i, false⟩ : Slot) ∈ heap.slots ⟨.node, address⟩ := by
        simp only [Heap.slots, leaf, if_true]
        exact Heap.mem_slotsFrom.mpr ⟨i, List.mem_range.mp below, rfl⟩
      have good := settled.closed member slot
      rwa [← Nat.add_assoc] at good
    · rw [List.mem_singleton.mp inside]
      exact member
  | succ height ih =>
    intro address member
    refine .ite (fun internal => Ensures.self.bind fun child found => ?_) fun _ => .none
    obtain ⟨-, internal⟩ := Bool.and_eq_true_iff.mp internal
    have internal : heap.isLeaf address = false := by simpa using internal
    have each (entry : Node Term × Places) (inside : entry ∈ child) :
        entry.1.All (GoodElem host statics graph) ∧ Places.Known graph entry.2 := by
      obtain ⟨i, below, done⟩ := Option.exists_of_mem_mapM found inside
      have slot : (⟨Heap.sizeofInternalNode + 8 * i, true⟩ : Slot) ∈ heap.slots ⟨.node, address⟩ := by
        simp only [Heap.slots, internal, Bool.false_eq_true, if_false]
        exact Heap.mem_slotsFrom.mpr ⟨i, List.mem_range.mp below, rfl⟩
      have good := settled.closed member slot
      rw [← Nat.add_assoc] at good
      exact ih good _ done
    refine .some ⟨.internal fun node inside => ?_, List.forall_mem_cons.mpr ⟨member, fun entry inside => ?_⟩⟩
    · obtain ⟨entry, below, rfl⟩ := List.mem_map.mp inside
      exact (each entry below).1
    · obtain ⟨below, inside, behind⟩ := List.mem_flatMap.mp inside
      exact (each below inside).2 entry behind

/-- What is read of a list. -/
theorem listAt_known {list : Term} (good : Good (Atom host statics) graph (.term list))
    (tag : tagOf list = Tag.list.bits) :
    Ensures (heap.listAt host.emptyRrb (extractPtr list)) fun found => found.Known host statics graph := by
  have whole : Good (Atom host statics) graph (.term (tagAs (UInt64.ofNat (extractPtr list)) .list)) := by
    rwa [tagAs_extractPtr tag]
  rw [Heap.listAt]
  refine .ite (fun _ => .some ⟨whole, create_all, fun _ none => absurd none List.not_mem_nil⟩) fun head => ?_
  have member := (good_list good tag).resolve_left head
  have node (offset : ℕ) (inside : (⟨offset, true⟩ : Slot) ∈ heap.slots ⟨.list, extractPtr list⟩) :
      ⟨.node, heap.mem.readNat (extractPtr list + offset) 8⟩ ∈ graph := settled.closed member inside
  have tail := nodeAt_known settled 0 (node 16 (by simp [Heap.slots]))
  refine .ite (fun _ => .none) fun _ => .bind tail fun entry tailKnown => ?_
  obtain ⟨tail, tailNodes⟩ := entry
  have known {root : Node Term} {rootNodes : Places} (rootKnown : root.All (GoodElem host statics graph) ∧
      Places.Known graph rootNodes) {cnt height tailLen : ℕ} : ListAt.Known host statics graph
        { address := extractPtr list, list := .allocated { cnt, height, tailLen, tail, root },
          nodes := tailNodes ++ rootNodes } :=
    ⟨whole, ⟨tailKnown.1, rootKnown.1⟩, fun entry inside =>
      (List.mem_append.mp inside).elim (tailKnown.2 entry) (rootKnown.2 entry)⟩
  refine .ite (fun _ => .some (known ⟨.null, fun _ none => absurd none List.not_mem_nil⟩)) fun rooted => ?_
  exact .bind (nodeAt_known settled _ (node 24 (by simp [Heap.slots, rooted]))) fun root rootKnown =>
    .some (known rootKnown)

end Reading

/-- The address of a node that is known. -/
theorem Places.Known.find (nodes : known.Known graph) {node : Node Term} {address : ℕ}
    (found : known.find node = some address) : ⟨.node, address⟩ ∈ graph := by
  obtain ⟨entry, here, rfl⟩ := Option.map_eq_some_iff.mp found
  exact nodes entry (List.mem_of_find?_eq_some here)

section Placing

mutual

/-- A node joins the graph behind the nodes below it. -/
theorem placeNode_extends (surrounds : host.Surrounds arena) (graph : Finset Object) (nodes : known.Known graph) :
    ∀ node : Node Term,
    node.All (GoodElem host statics graph) →
    Extends (Reached host arena statics start) graph (placeNode scratch known node)
      fun there address => ⟨.node, address⟩ ∈ there
  | .null, _ => by
      rw [placeNode]
      exact .throw _
  | .leaf child, all => by
      rw [placeNode]
      cases found : known.find (.leaf child) with
      | some address => exact .pure fun _ more => more (nodes.find found)
      | none => exact extends_leaf surrounds (Node.All.leaf_iff.mp all)
  | .internal sizeTable child, all => by
      rw [placeNode]
      cases found : known.find (.internal sizeTable child) with
      | some address => exact .pure fun _ more => more (nodes.find found)
      | none =>
        exact .bind (placeNodes_extends surrounds graph nodes child (Node.All.internal_iff.mp all)) fun _ _ _ placed =>
          extends_internal surrounds placed

private theorem placeNodes_extends (surrounds : host.Surrounds arena) (graph : Finset Object) (nodes : known.Known graph) :
    ∀ child : List (Node Term),
    (∀ node ∈ child, node.All (GoodElem host statics graph)) →
    Extends (Reached host arena statics start) graph (placeNodes scratch known child)
      fun there addresses => ∀ address ∈ addresses, ⟨.node, address⟩ ∈ there
  | [], _ => by
      rw [placeNodes]
      exact .pure fun _ _ _ none => absurd none List.not_mem_nil
  | node :: child, each => by
      rw [placeNodes]
      obtain ⟨first, others⟩ := List.forall_mem_cons.mp each
      refine .bind (placeNode_extends surrounds graph nodes node first) fun here address above placed => ?_
      have others (node : Node Term) (member : node ∈ child) : node.All (GoodElem host statics here) :=
        (others node member).mono fun _ => .mono above
      refine .bind (placeNodes_extends surrounds here (fun entry member => above (nodes entry member)) child others)
        fun there addresses higher rest => .pure fun last more => ?_
      exact List.forall_mem_cons.mpr ⟨more (higher placed), fun node member => more (rest node member)⟩

end

variable (surrounds : host.Surrounds arena)

include surrounds

private theorem placeRoot_extends (nodes : known.Known graph) {root : Node Term}
    (all : root.All (GoodElem host statics graph)) :
    Extends (Reached host arena statics start) graph (placeRoot scratch known root)
      fun there address => address ≠ 0 → ⟨.node, address⟩ ∈ there := by
  unfold placeRoot
  split
  · exact .pure fun _ _ nonzero => absurd rfl nonzero
  · exact .mono (placeNode_extends surrounds graph nodes root all) fun _ _ _ placed _ => placed

/-- The result of a list routine. -/
theorem listFrom_extends {system : System World} (same : system.emptyRrb = host.emptyRrb) {operands : List ListAt}
    {result : Option (RrbPtr Term)} (known : ∀ operand ∈ operands, operand.Known host statics graph)
    (all : Ensures result fun list => list.All (GoodElem host statics graph)) :
    Extends (Reached host arena statics start) graph (system.listFrom operands result) fun there list =>
      Good (Atom host statics) there (.term list) ∧ accepts (some .list) list = true := by
  cases result with
  | none => exact .throw _
  | some result =>
    have placed : Extends (Reached host arena statics start) graph
        (placeList system.scratch system.emptyRrb operands result) fun there address =>
          Good (Atom host statics) there (.term (tagAs (UInt64.ofNat address) .list)) := by
      unfold placeList
      cases found : operands.find? fun operand => operand.list.same result with
      | some operand =>
        exact .pure fun _ more => (known operand (List.mem_of_find?_eq_some found)).good.mono _ more
      | none =>
        cases result with
        | emptyRrb => exact .pure fun _ _ => same ▸ emptyList_good surrounds _ _
        | allocated rrb =>
          have all := all _ rfl
          have nodes : Places.Known graph (operands.flatMap ListAt.nodes) := by
            intro entry member
            obtain ⟨operand, inside, here⟩ := List.mem_flatMap.mp member
            exact (known operand inside).nodes entry here
          refine .bind (placeNode_extends surrounds graph nodes rrb.tail all.tail) fun here tail above tailed => ?_
          have nodes : Places.Known here (operands.flatMap ListAt.nodes) := fun entry member => above (nodes entry member)
          refine .bind (placeRoot_extends surrounds nodes (all.root.mono fun _ => .mono above))
            fun there root higher rooted => ?_
          exact .mono (extends_head surrounds (higher tailed) rooted) fun _ _ _ made =>
            .inr ⟨.list, by rw [tagOf_tagAs]; rfl, by rw [extractPtr_tagAs_ofNat made.1]; exact made.2⟩
    exact placed.bind fun here address _ good => .pure fun there more => ⟨good.mono _ more, accepts_tagAs _ rfl⟩

end Placing

end Owl.Runtime
