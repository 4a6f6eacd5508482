import Owl.Proofs.Lists.Plan

/-! # Executing the plan

The cursor into the old nodes is a list of nodes that are left and an offset into the first of them. What is
left to copy is the concatenation of their slots behind the offset; every step takes a prefix of it.
-/

namespace Owl.Lists

open Option (Yields)

variable {α β : Type} {slots : Node α → Option (List β)} {finish : List β → Option (Node α)}
  {old : List (Node α)} {node : Node α} {offset missing : ℕ} {rest child : List β} {plan : List ℕ}

/-- The nodes have slots, and these are their slots in order. -/
inductive Slots (slots : Node α → Option (List β)) : List (Node α) → List β → Prop
  | nil : Slots slots [] []
  | cons {node : Node α} {child : List β} {old : List (Node α)} {rest : List β} (found : slots node = some child)
      (positive : 1 ≤ child.length) (behind : Slots slots old rest) : Slots slots (node :: old) (child ++ rest)

/-- What is left to copy. -/
structure Left (slots : Node α → Option (List β)) (old : List (Node α)) (offset : ℕ) (rest : List β) : Prop where
  whole : ∃ whole, Slots slots old whole ∧ rest = whole.drop offset
  inside : ∀ node ∈ old.head?, ∀ child, slots node = some child → offset < child.length
  start : old = [] → offset = 0

theorem Slots.left (whole : Slots slots old rest) : Left slots old 0 rest where
  whole := ⟨rest, whole, rfl⟩
  inside := by
    cases whole with
    | nil => simp
    | cons found positive => simp [found]; omega
  start := fun _ => rfl

/-- The slots of the first node that is left, and those behind it. -/
theorem Left.head (left : Left slots (node :: old) offset rest) :
    ∃ child behind, slots node = some child ∧ offset < child.length ∧ Slots slots old behind ∧
      rest = child.drop offset ++ behind := by
  obtain ⟨whole, slotted, rfl⟩ := left.whole
  cases slotted with
  | cons found positive behind =>
    have inside := left.inside node rfl _ found
    exact ⟨_, _, found, inside, behind, by rw [List.drop_append_of_le_length (by omega)]⟩

private theorem Left.exists_head (left : Left slots old offset rest) (some' : 1 ≤ rest.length) :
    ∃ node old', old = node :: old' := by
  obtain ⟨whole, slotted, rfl⟩ := left.whole
  cases slotted with
  | nil => simp at some'
  | cons => exact ⟨_, _, rfl⟩

private theorem copySlots_yields (left : Left slots old offset rest) (enough : missing ≤ rest.length) :
    (copySlots slots old offset missing).Yields fun copied =>
      copied.1 = rest.take missing ∧ copied.2.1 ⊆ old ∧ Left slots copied.2.1 copied.2.2 (rest.drop missing) := by
  induction old generalizing offset missing rest with
  | nil =>
    obtain ⟨whole, slotted, rfl⟩ := left.whole
    cases slotted with
    | nil =>
      obtain rfl : missing = 0 := by simpa using enough
      exact .some ⟨rfl, List.Subset.refl _, left⟩
  | cons node old ih =>
    cases missing with
    | zero => exact .some ⟨rfl, List.Subset.refl _, left⟩
    | succ missing =>
      obtain ⟨child, behind, found, inside, slotted, rfl⟩ := left.head
      have length : (child.drop offset).length = child.length - offset := List.length_drop
      rw [List.length_append, length] at enough
      rw [copySlots, found]
      dsimp only [Option.bind_eq_bind, Option.bind_some]
      split_ifs with whole
      · refine .bind (@ih 0 (missing + 1 - (child.length - offset)) _ slotted.left (by omega)) ?_
        rintro copied ⟨taken, subset, left'⟩
        refine .some ⟨?_, List.subset_cons_of_subset _ subset, ?_⟩
        · rw [List.take_append, length, List.take_of_length_le (by rwa [length]), taken]
        · have taken : (child.drop offset).drop (missing + 1) = [] := List.drop_of_length_le (by rwa [length])
          rw [List.drop_append, length, taken, List.nil_append]
          exact left'
      · have more : missing + 1 < child.length - offset := Nat.lt_of_not_le whole
        refine .some ⟨(List.take_append_of_le_length (by omega)).symm, List.Subset.refl _, ?_⟩
        change Left slots (node :: old) (offset + (missing + 1)) _
        refine ⟨⟨child ++ behind, .cons found (by omega) slotted, ?_⟩, ?_, ?_⟩
        · rw [List.drop_append_of_le_length (by omega), List.drop_append_of_le_length (by omega), List.drop_drop]
        · intro first is other found'
          obtain rfl := Option.some.inj is
          obtain rfl := Option.some.inj (found.symm.trans found')
          exact Nat.add_lt_of_lt_sub' more
        · exact fun none => absurd none (List.cons_ne_nil _ _)

/-- The new nodes have the planned numbers of slots, and their slots in order are the next ones. An old node that
is taken as it is and a new node that is finished meet a condition. -/
theorem executeFrom_yields {good : Node α → Prop} (lens : ∀ node child, slots node = some child →
    node.len = some child.length)
    (kept : ∀ node ∈ old, good node) (left : Left slots old offset rest) (slotted : Slotted plan)
    (enough : plan.sum ≤ rest.length)
    (finished : ∀ piece, 1 ≤ piece.length → piece.length ≤ RRB_BRANCHING → (∀ slot ∈ piece, slot ∈ rest) →
      (finish piece).Yields fun node => good node ∧ slots node = some piece) :
    (executeFrom slots finish plan old offset).Yields fun nodes =>
      (∀ node ∈ nodes, good node) ∧ nodes.map Node.len = plan.map some ∧ Slots slots nodes (rest.take plan.sum) := by
  induction plan generalizing old offset rest with
  | nil => exact .some ⟨List.forall_mem_nil _, rfl, .nil⟩
  | cons newSize plan ih =>
    obtain ⟨⟨positive, small⟩, behindSlotted⟩ := slotted_cons.mp slotted
    rw [List.sum_cons] at enough
    obtain ⟨node, old, rfl⟩ := left.exists_head (by omega)
    obtain ⟨child, behind, found, inside, oldSlots, rfl⟩ := left.head
    rw [executeFrom, List.head?_cons]
    dsimp only [Option.bind_eq_bind, Option.bind_some]
    rw [lens node child found]
    dsimp only [Option.bind_some]
    split_ifs with same
    · obtain ⟨rfl, rfl⟩ := same
      rw [List.drop_zero] at enough finished ⊢
      rw [List.length_append] at enough
      refine .bind (ih (fun node member => kept node (List.mem_cons_of_mem _ member)) oldSlots.left behindSlotted
        (by omega) fun piece one many slots => finished piece one many
          fun slot member => List.mem_append_right _ (slots slot member)) ?_
      rintro nodes ⟨goods, sizes, slotted'⟩
      refine .some ⟨List.forall_mem_cons.mpr ⟨kept node List.mem_cons_self, goods⟩, ?_, ?_⟩
      · rw [List.map_cons, List.map_cons, lens node child found, sizes]
      · rw [List.sum_cons, List.take_length_add_append]
        exact .cons found positive slotted'
    · refine .bind (copySlots_yields left (by omega)) ?_
      rintro ⟨piece, old', offset'⟩ ⟨rfl, subset, left'⟩
      have length : ((child.drop offset ++ behind).take newSize).length = newSize := by
        rw [List.length_take]
        omega
      refine .bind (finished _ (by rwa [length]) (by rwa [length]) fun slot => List.mem_of_mem_take) ?_
      rintro newNode ⟨good, newSlots⟩
      refine .bind (ih (fun node member => kept node (subset member)) left' behindSlotted
        (by rw [List.length_drop]; omega) fun piece one many slots => finished piece one many
          fun slot member => List.mem_of_mem_drop (slots slot member)) ?_
      rintro nodes ⟨goods, sizes, slotted'⟩
      refine .some ⟨List.forall_mem_cons.mpr ⟨good, goods⟩, ?_, ?_⟩
      · rw [List.map_cons, List.map_cons, lens newNode _ newSlots, length, sizes]
      · rw [List.sum_cons, List.take_add]
        exact .cons newSlots (by rwa [length]) slotted'

end Owl.Lists
