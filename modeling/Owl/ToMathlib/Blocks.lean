import Mathlib.Data.List.Basic
import Mathlib.Algebra.Order.Ring.Nat
import Mathlib.Tactic.Common

/-! # Sequences stored in blocks

A sequence is the concatenation of the contents of a list of blocks. A position in it is a block and a
position in that block; these lemmas cut the sequence there.
-/

namespace Blocks

variable {α β : Type} {content : β → List α} {blocks : List β} {b : β} {i j k n : ℕ}

/-- The number of elements in the blocks before a block. -/
def before (content : β → List α) (blocks : List β) (i : ℕ) : ℕ := ((blocks.take i).flatMap content).length

@[simp] theorem before_zero : before content blocks 0 = 0 := rfl

theorem before_length : before content blocks blocks.length = (blocks.flatMap content).length := by
  rw [before, List.take_length]

theorem take_succ (found : blocks[i]? = some b) : blocks.take (i + 1) = blocks.take i ++ [b] := by
  rw [List.take_add_one, found]
  rfl

private theorem eq_append (found : blocks[i]? = some b) : blocks = blocks.take i ++ b :: blocks.drop (i + 1) := by
  obtain ⟨inside, rfl⟩ := List.getElem?_eq_some_iff.mp found
  rw [← List.drop_eq_getElem_cons inside, List.take_append_drop]

theorem before_succ (found : blocks[i]? = some b) :
    before content blocks (i + 1) = before content blocks i + (content b).length := by
  rw [before, take_succ found, List.flatMap_append, List.length_append]
  simp [before]

theorem flatMap_eq (found : blocks[i]? = some b) :
    blocks.flatMap content =
      (blocks.take i).flatMap content ++ (content b ++ (blocks.drop (i + 1)).flatMap content) := by
  conv_lhs => rw [eq_append found]
  rw [List.flatMap_append, List.flatMap_cons]

theorem getElem?_flatMap (found : blocks[i]? = some b) (inside : k < (content b).length) :
    (blocks.flatMap content)[before content blocks i + k]? = (content b)[k]? := by
  rw [flatMap_eq found, before, List.getElem?_append_right (Nat.le_add_right ..), Nat.add_sub_cancel_left,
    List.getElem?_append_left inside]

theorem take_flatMap (found : blocks[i]? = some b) (inside : k ≤ (content b).length) :
    (blocks.flatMap content).take (before content blocks i + k) =
      (blocks.take i).flatMap content ++ (content b).take k := by
  rw [flatMap_eq found, before, List.take_length_add_append, List.take_append_of_le_length inside]

theorem drop_flatMap (found : blocks[i]? = some b) (inside : k ≤ (content b).length) :
    (blocks.flatMap content).drop (before content blocks i + k) =
      (content b).drop k ++ (blocks.drop (i + 1)).flatMap content := by
  rw [flatMap_eq found, before, List.drop_length_add_append, List.drop_append_of_le_length inside]

theorem before_append (inside : i ≤ blocks.length) (more : List β) :
    before content (blocks ++ more) i = before content blocks i := by
  rw [before, before, List.take_append_of_le_length inside]

theorem before_take (le : i ≤ j) : before content (blocks.take j) i = before content blocks i := by
  rw [before, before, List.take_take, Nat.min_eq_left le]

/-- The blocks up to a position, of which the last one is replaced. -/
theorem before_replaced (i : ℕ) (b : β) :
    before content (blocks.take i ++ [b]) (i + 1) = before content blocks i + (content b).length := by
  rw [before, before, List.take_of_length_le (by simp), List.flatMap_append, List.length_append, List.flatMap_singleton]

private theorem before_cons (b : β) (i : ℕ) : before content (b :: blocks) (i + 1) = (content b).length + before content
    blocks i := by
  rw [before, before, List.take_succ_cons, List.flatMap_cons, List.length_append]

private theorem before_add (i j : ℕ) :
    before content blocks (i + j) = before content blocks i + before content (blocks.drop i) j := by
  rw [before, before, before, List.take_add, List.flatMap_append, List.length_append]

/-- The blocks from a position on, of which the first one is cut. -/
theorem before_cut {cut : β} (found : blocks[i]? = some b) (rest : (content cut).length + k = (content b).length)
    (j : ℕ) : before content (cut :: blocks.drop (i + 1)) (j + 1) + (before content blocks i + k) =
      before content blocks (i + 1 + j) := by
  rw [before_cons, before_add (i + 1) j, before_succ found]
  omega

/-- A block is replaced by one of the same length. -/
theorem before_set {b' : β} (found : blocks[i]? = some b) (same : (content b').length = (content b).length) (j : ℕ) :
    before content (blocks.set i b') j = before content blocks j := by
  obtain ⟨inside, rfl⟩ := List.getElem?_eq_some_iff.mp found
  have lengths : ((blocks.set i b').map fun b => (content b).length) = blocks.map fun b => (content b).length := by
    apply List.ext_getElem (by simp)
    intro n _ _
    by_cases here : i = n
    · subst here
      simp [same]
    · simp [here]
  rw [before, before, List.length_flatMap, List.length_flatMap, List.map_take, List.map_take, lengths]

/-- An element of a block is replaced. -/
theorem flatMap_set {b' : β} {a : α} (found : blocks[i]? = some b) (inside : k < (content b).length)
    (replaced : content b' = (content b).set k a) :
    (blocks.set i b').flatMap content = (blocks.flatMap content).set (before content blocks i + k) a := by
  have bound := (List.getElem?_eq_some_iff.mp found).1
  rw [List.set_eq_take_append_cons_drop, if_pos bound, List.flatMap_append, List.flatMap_cons, replaced, flatMap_eq found,
    before, List.set_append_right _ _ (Nat.le_add_right ..), Nat.add_sub_cancel_left, List.set_append_left _ _ inside]

theorem before_mono (le : i ≤ j) : before content blocks i ≤ before content blocks j := by
  have split : blocks.take j = blocks.take i ++ (blocks.take j).drop i := by
    conv_lhs => rw [← List.take_append_drop i (blocks.take j), List.take_take, Nat.min_eq_left le]
  rw [before, before, split, List.flatMap_append, List.length_append]
  exact Nat.le_add_right ..

/-- Every position lies in a block. -/
theorem exists_block {index : ℕ} (inside : index < (blocks.flatMap content).length) :
    ∃ i b k, blocks[i]? = some b ∧ k < (content b).length ∧ index = before content blocks i + k := by
  induction blocks generalizing index with
  | nil => simp at inside
  | cons head rest ih =>
    by_cases here : index < (content head).length
    · exact ⟨0, head, index, rfl, here, by simp⟩
    · rw [List.flatMap_cons, List.length_append] at inside
      have past : index - (content head).length < (rest.flatMap content).length := by omega
      obtain ⟨i, b, k, found, within, same⟩ := ih past
      refine ⟨i + 1, b, k, found, within, ?_⟩
      have shifted : before content (head :: rest) (i + 1) = (content head).length + before content rest i := by
        simp [before]
      omega

theorem before_le_mul (small : ∀ b ∈ blocks, (content b).length ≤ n) (i : ℕ) : before content blocks i ≤ i * n := by
  induction i with
  | zero => simp
  | succ i ih =>
    cases found : blocks[i]? with
    | none =>
      have short := List.getElem?_eq_none_iff.mp found
      have same : before content blocks (i + 1) = before content blocks i := by
        rw [before, before, List.take_of_length_le short, List.take_of_length_le (Nat.le_succ_of_le short)]
      rw [same, Nat.add_mul]
      omega
    | some b =>
      have bound := small b (List.mem_of_getElem? found)
      rw [before_succ found, Nat.add_mul]
      omega

theorem before_eq_mul (full : ∀ b ∈ blocks.take i, (content b).length = n) (inside : i ≤ blocks.length) :
    before content blocks i = i * n := by
  induction i with
  | zero => simp
  | succ i ih =>
    have found : blocks[i]? = some blocks[i] := List.getElem?_eq_getElem inside
    rw [take_succ found] at full
    rw [before_succ found, ih (fun b member => full b (List.mem_append_left _ member)) (by omega),
      full _ (List.mem_append_right _ (List.mem_singleton_self _)), Nat.add_mul, Nat.one_mul]

end Blocks
