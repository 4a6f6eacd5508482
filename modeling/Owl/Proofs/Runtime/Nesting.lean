import Owl.Proofs.Runtime.Roots

/-! # How deep collections nest

An object that can just be read to a depth refers to one that can just be read to the depth before it. All
these objects differ and share no bytes, so no value is deeper than the heap has room for objects, and this
bounds the calls that a collection nests.
-/

namespace Owl.Runtime

namespace Heap

variable {heap : Heap} {graph : Finset Object} {atom : Term → Prop}

/-- An object takes nine bytes or more, its flag included. -/
private theorem nine_le_footprint (heap : Heap) (object : Object) : 9 ≤ heap.footprint object := by
  have eight : 8 ≤ heap.extent object := by
    obtain ⟨form, address⟩ := object
    cases form with
    | tuple => exact Nat.le_add_right _ _
    | string =>
      simp only [extent]
      omega
    | function => exact Nat.le_add_right_of_le (by decide)
    | list => exact Nat.le_of_ble_eq_true rfl
    | node =>
      simp only [extent, sizeofLeafNode, sizeofInternalNode]
      split <;> omega
  rw [footprint]
  omega

/-- As many objects as there is room for, and the call for a term that refers to none. -/
def nesting (heap : Heap) : ℕ := heap.usage / 9 + 1

private theorem Laid.card_lt (laid : heap.Laid atom graph) : graph.card < heap.nesting := by
  have bytes : graph.card * 9 ≤ heap.usage :=
    calc graph.card * 9 ≤ ∑ object ∈ graph, heap.footprint object :=
          Finset.card_nsmul_le_sum graph _ 9 fun object _ => heap.nine_le_footprint object
      _ ≤ heap.usage := sum_footprint_le laid
  rw [nesting]
  omega

/-- An object that can be read to a depth and no less has as many objects below it. -/
private theorem Laid.depth_le_card (laid : heap.Laid atom graph) (divided : heap.Divided) (away : heap.AtomsAway atom) :
    ∀ (depth : ℕ) (object : Object), object ∈ graph → heap.shallow (depth + 2) object = true →
      heap.shallow (depth + 1) object = false →
        depth + 1 ≤ (graph.filter fun other => heap.shallow (depth + 2) other = true).card
  | 0, object, member, shallow, _ =>
      Finset.card_pos.mpr ⟨object, Finset.mem_filter.mpr ⟨member, shallow⟩⟩
  | depth + 1, object, member, shallow, deep => by
      have read := readObject_isSome_iff.mp shallow
      obtain ⟨slot, inside, unread⟩ : ∃ slot ∈ heap.slots object,
          ¬ (heap.decode (depth + 1) (heap.refAt (object.address + slot.offset) slot.isNode)).isSome := by
        by_contra all
        push Not at all
        have shallow := readObject_isSome_iff.mpr ⟨read.1, all⟩
        exact Bool.false_ne_true (deep.symm.trans shallow)
      obtain ⟨value, word⟩ := Option.isSome_iff_exists.mp (read.2 slot inside)
      rcases laid.target_good divided away (laid.closed object member slot inside) with
        ⟨term, same, -, found⟩ | ⟨other, other_mem, found⟩
      · rw [same] at found unread
        rw [decode_atom found] at unread
        exact absurd rfl unread
      · -- The object that the word refers to is one level below.
        have below : heap.shallow (depth + 2) other = true := shallow_of_decode found word
        have just : heap.shallow (depth + 1) other = false := by
          rw [decode_object found] at unread
          exact Bool.eq_false_iff.mpr unread
        have fewer := laid.depth_le_card divided away depth other other_mem below just
        refine Nat.lt_of_le_of_lt fewer (Finset.card_lt_card ⟨fun other inside => ?_, fun more => ?_⟩)
        · obtain ⟨member, shallow⟩ := Finset.mem_filter.mp inside
          exact Finset.mem_filter.mpr ⟨member, shallow_succ shallow⟩
        · have here := more (Finset.mem_filter.mpr ⟨member, shallow⟩)
          exact Bool.false_ne_true (deep.symm.trans (Finset.mem_filter.mp here).2)

/-- Every object can be read to the depth for which the heap has room. -/
theorem Laid.shallow_nesting (laid : heap.Laid atom graph) (divided : heap.Divided) (away : heap.AtomsAway atom)
    {object : Object} (member : object ∈ graph) : heap.shallow heap.nesting object = true := by
  have card := laid.card_lt
  obtain ⟨depth, read⟩ := laid.valued object member
  induction depth with
  | zero =>
    have shallow : heap.shallow 1 object = true := read
    exact shallow_le (by omega) shallow
  | succ depth ih =>
    by_cases shallow : heap.shallow (depth + 1) object = true
    · exact ih shallow
    · have objects := laid.depth_le_card divided away depth object member read (Bool.eq_false_iff.mpr shallow)
      have fewer := objects.trans (Finset.card_filter_le graph _)
      exact shallow_le (show depth + 2 ≤ heap.nesting by omega) read

/-- Every good word can be read to that depth. -/
theorem Laid.decode_nesting (laid : heap.Laid atom graph) (divided : heap.Divided) (away : heap.AtomsAway atom)
    {ref : Ref} (good : Good atom graph ref) : ∃ value, heap.decode heap.nesting ref = some value := by
  rcases laid.target_good divided away good with ⟨term, rfl, -, found⟩ | ⟨object, member, found⟩
  · exact ⟨_, decode_atom found⟩
  · have shallow := laid.shallow_nesting divided away member
    rw [nesting, Heap.shallow, ← decode_object found] at shallow
    exact Option.isSome_iff_exists.mp shallow

end Heap

end Owl.Runtime
