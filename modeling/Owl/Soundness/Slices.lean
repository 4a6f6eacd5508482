import Owl.Proofs.Lists.LeftSlices
import Owl.Soundness.Lookups

/-! # Slices are sublists

The cut on the right keeps exact size tables exact, the cut on the left leaves tables whose last entries
cover their children. Lookup needs no more than that, so every element of a slice is found.
-/

namespace Owl.Lists

open Option (Yields)
open Node (toList)

variable {α : Type} {fits : ℕ → ℕ → Prop} {rrb : Rrb α} {inTree inTail : List α}

theorem Rrb.Contains.covers (admissible : Admissible fits) (contains : rrb.Contains fits inTree inTail) :
    rrb.Contains Covers inTree inTail := by
  refine { contains with tree := contains.tree.imp_right ?_ }
  rintro ⟨shaped, elements⟩
  refine ⟨shaped.covers admissible ?_, elements⟩
  have := contains.cnt
  have := contains.word
  rw [Node.size, elements]
  omega

theorem contains_create : (rrbCreate : Rrb α).Contains fits [] [] where
  tail := rfl
  tailLen := rfl
  cnt := rfl
  slots := Nat.zero_le _
  word := Nat.two_pow_pos 32
  low := Nat.zero_le _
  tree := .inl ⟨rfl, rfl⟩

/-- Lookup finds the elements of the tree and then those of the tail. -/
theorem rrbNth_eq (admissible : Admissible fits) (contains : rrb.Contains fits inTree inTail) (index : ℕ) :
    rrbNth rrb index = some (inTree ++ inTail)[index]? :=
  contains.holds.nth (fun _ _ => admissible.covers) index

/-- What a slice holds. Its tail has elements if the tree has. -/
theorem rrbSlice_yields (admissible : Admissible fits) (contains : rrb.Contains fits inTree inTail) (start stop : ℕ) :
    (rrbSlice rrb start stop).Yields fun sliced =>
      (min stop rrb.cnt ≤ start → sliced = rrbCreate) ∧
        ∃ inTree' inTail', sliced.Contains Covers inTree' inTail' ∧
          (inTail ≠ [] → inTail' = [] → inTree' = []) ∧
            inTree' ++ inTail' = ((inTree ++ inTail).take stop).drop start := by
  have cnt := contains.cnt
  by_cases nothing : stop = 0
  · rw [rrbSlice, sliceRight, if_pos nothing]
    change Yields (sliceLeft rrbCreate start) _
    rw [sliceLeft, if_pos (show rrbCreate.cnt ≤ start from Nat.zero_le _)]
    exact .some ⟨fun _ => rfl, [], [], contains_create, fun _ _ => rfl, by simp [nothing]⟩
  · refine .bind (sliceRight_yields admissible contains nothing) ?_
    rintro cut ⟨inTree', inTail', cutContains, filled, same⟩
    have length : cut.cnt = min stop rrb.cnt := by
      rw [cutContains.cnt, ← List.length_append, same, List.length_take, List.length_append, cnt]
    by_cases inside : start < cut.cnt
    · refine (sliceLeft_yields (cutContains.covers admissible) inside).mono ?_
      rintro sliced ⟨inTree'', inTail'', slicedContains, filled', same'⟩
      refine ⟨fun empty => absurd inside (by omega), inTree'', inTail'', slicedContains, ?_, by rw [same', same]⟩
      exact fun some' none' => absurd none' (filled' (filled some'))
    · rw [sliceLeft, if_pos (Nat.le_of_not_lt inside)]
      refine .some ⟨fun _ => rfl, [], [], contains_create, fun _ _ => rfl, ?_⟩
      rw [← same, List.drop_eq_nil_of_le]
      · rfl
      · rw [List.length_append, ← cutContains.cnt]
        omega

/-- A slice of a list with a well-formed tree is the sublist. -/
theorem rrbSlice_sublist (contains : rrb.Contains Exact inTree inTail) (start stop : ℕ) :
    ∃ sliced, rrbSlice rrb start stop = some sliced ∧ (min stop (rrbCount rrb) ≤ start → sliced = rrbCreate) ∧
      (start < min stop (rrbCount rrb) → rrbCount sliced = min stop (rrbCount rrb) - start ∧
        ∀ j < rrbCount sliced, rrbNth sliced j = some (inTree ++ inTail)[start + j]? ∧
          rrbNth rrb (start + j) = some (inTree ++ inTail)[start + j]?) := by
  obtain ⟨sliced, done, empty, inTree', inTail', slicedContains, -, same⟩ :=
    rrbSlice_yields exact_admissible contains start stop
  have cnt := contains.cnt
  have count : rrbCount sliced = min stop (rrbCount rrb) - start := by
    rw [rrbCount, rrbCount, slicedContains.cnt, ← List.length_append, same, List.length_drop, List.length_take,
      List.length_append, cnt]
  refine ⟨sliced, done, empty, fun _ => ⟨count, fun j inside => ⟨?_, rrbNth_eq exact_admissible contains _⟩⟩⟩
  rw [rrbNth_eq covers_admissible slicedContains, same, List.getElem?_drop, List.getElem?_take, if_pos]
  rw [count, rrbCount] at inside
  omega

/-- The slice that begins in the first leaf and ends in the tail. -/
theorem rrbSlice_sublist_sized :
    ∃ sliced, rrbSlice sizedRrb 1 5 = some sliced ∧ (min 5 (rrbCount sizedRrb) ≤ 1 → sliced = rrbCreate) ∧
      (1 < min 5 (rrbCount sizedRrb) → rrbCount sliced = min 5 (rrbCount sizedRrb) - 1 ∧
        ∀ j < rrbCount sliced, rrbNth sliced j = some ([5, 6, 7, 8] ++ [9])[1 + j]? ∧
          rrbNth sizedRrb (1 + j) = some ([5, 6, 7, 8] ++ [9])[1 + j]?) :=
  rrbSlice_sublist contains_sizedRrb 1 5

end Owl.Lists
