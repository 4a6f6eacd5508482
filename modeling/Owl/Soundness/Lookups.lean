import Owl.Proofs.Lists.Cutting

/-! # Lookup agrees with the sequence

Above a node with a size table the index has been reduced to that node, because only nodes with size tables lie
above it. Below a node without one there is no size table, and the digits of an index that was not reduced are
those of the reduced one. So every search in a size table is for an index that one of its slots has.
-/

namespace Owl.Lists

open Blocks
open Node (toList Dense Shaped)

variable {α : Type} {fits : ℕ → ℕ → Prop} {rrb : Rrb α} {inTree inTail : List α} {height index : ℕ}

/-- A list whose elements are those of its tree and then those of its tail. -/
structure Rrb.Holds (fits : ℕ → ℕ → Prop) (rrb : Rrb α) (inTree inTail : List α) : Prop where
  tail : rrb.tail = .leaf inTail
  tailLen : rrb.tailLen = inTail.length
  cnt : rrb.cnt = inTree.length + inTail.length
  word : rrb.cnt < 2 ^ 32
  low : rrb.height ≤ RRB_MAX_HEIGHT
  tree : (inTree = [] ∧ rrb.root = .null) ∨
    (rrb.root.Shaped fits rrb.height ∧ rrb.root.toList rrb.height = inTree)

theorem Rrb.Contains.holds (contains : rrb.Contains fits inTree inTail) : rrb.Holds fits inTree inTail :=
  { contains with }

/-- Lookup finds the elements of the tree and then those of the tail. -/
theorem Rrb.Holds.nth (covers : ∀ total entry, fits total entry → total ≤ entry)
    (holds : rrb.Holds fits inTree inTail) (index : ℕ) : rrbNth rrb index = some (inTree ++ inTail)[index]? := by
  have cnt := holds.cnt
  have word := holds.word
  have offset : u32Sub rrb.cnt rrb.tailLen = inTree.length := by
    rw [holds.tailLen, u32Sub_of_le (by omega) word]
    omega
  rw [rrbNth]
  by_cases behind : rrb.cnt ≤ index
  · rw [if_pos behind, List.getElem?_eq_none]
    rw [List.length_append]
    omega
  · rw [if_neg behind, offset]
    dsimp only
    by_cases inLast : inTree.length ≤ index
    · rw [if_pos inLast, holds.tail, List.getElem?_append_right inLast]
      rfl
    · rw [if_neg inLast, List.getElem?_append_left (Nat.lt_of_not_le inLast)]
      obtain ⟨rfl, _⟩ | ⟨shaped, elements⟩ := holds.tree
      · exact absurd (Nat.zero_le _) inLast
      · rw [← elements] at inLast ⊢
        exact shaped.nthFrom covers holds.low index (Nat.lt_of_not_le inLast)

/-- The nodes that `rrb_nth` visits from a node on, each with its height and the index there. -/
inductive Visits (height : ℕ) (node : Node α) (index : ℕ) : ℕ → Node α → ℕ → Prop
  | here : Visits height node index height node index
  | radix {below subidx i : ℕ} {child : List (Node α)}
      (visits : Visits height node index (below + 1) (.internal none child) i)
      (digit : radix i (below + 1) = some subidx) : Visits height node index below (slot child subidx) i
  | sized {below i : ℕ} {table : List ℕ} {child : List (Node α)} {pos : ℕ × ℕ}
      (visits : Visits height node index (below + 1) (.internal (some table) child) i)
      (position : sizedPos table i (below + 1) = some pos) : Visits height node index below (slot child pos.1) pos.2

/-- An index with an element in a node: the index in the node or, where no size table follows, one with the same
digits. -/
def Inside (fits : ℕ → ℕ → Prop) (height : ℕ) (node : Node α) (index : ℕ) : Prop :=
  (node.Shaped fits height ∧ index < node.size height) ∨
    (node.Dense height ∧ index % RRB_BRANCHING ^ (height + 1) < node.size height)

section Steps

variable {child : List (Node α)} {table : List ℕ}

theorem Inside.dense (inside : Inside fits (height + 1) (.internal none child) index) :
    (Node.internal none child).Dense (height + 1) ∧
      index % RRB_BRANCHING ^ (height + 2) < (Node.internal none child).size (height + 1) := by
  obtain ⟨shaped, lt⟩ | dense := inside
  · exact ⟨shaped, by rwa [Nat.mod_eq_of_lt (lt.trans_le shaped.size_le)]⟩
  · exact dense

/-- A digit leads to the child that has the element. -/
theorem Inside.radix {subidx : ℕ} (low : height + 1 ≤ RRB_MAX_HEIGHT)
    (inside : Inside fits (height + 1) (.internal none child) index) (digit : radix index (height + 1) = some subidx) :
    Inside fits height (slot child subidx) index := by
  obtain ⟨dense, lt⟩ := inside.dense
  obtain ⟨i, node, k, found, within, same⟩ := exists_block lt
  have below := within.trans_le (dense.2.1 node (List.mem_of_getElem? found)).size_le
  rw [dense.before_eq (List.getElem?_eq_some_iff.mp found).1] at same
  obtain ⟨place, rest⟩ := digit_of_mod same below
  rw [radix_eq low, place] at digit
  obtain rfl := Option.some.inj digit
  rw [slot_eq found]
  exact .inr ⟨dense.2.1 node (List.mem_of_getElem? found), by rwa [rest]⟩

/-- The search in a size table stops at the child that has the element. -/
theorem Inside.sized (covers : ∀ total entry, fits total entry → total ≤ entry) (low : height + 1 ≤ RRB_MAX_HEIGHT)
    (inside : Inside fits (height + 1) (.internal (some table) child) index) :
    ∃ i k, sizedPos table index (height + 1) = some (i, k) ∧ i < child.length ∧ Inside fits height (slot child i) k := by
  obtain ⟨shaped, lt⟩ | ⟨dense, -⟩ := inside
  · obtain ⟨i, node, k, found, within, rfl⟩ := exists_block lt
    refine ⟨i, k, shaped.2.2.sizedPos low covers (fun node member => (shaped.2.1 node member).size_le) found within,
      (List.getElem?_eq_some_iff.mp found).1, ?_⟩
    rw [slot_eq found]
    exact .inl ⟨shaped.2.1 node (List.mem_of_getElem? found), within⟩
  · exact dense.elim

end Steps

theorem Visits.inside {node node' : Node α} {height' index' : ℕ}
    (covers : ∀ total entry, fits total entry → total ≤ entry) (low : height ≤ RRB_MAX_HEIGHT)
    (start : Inside fits height node index) (visits : Visits height node index height' node' index') :
    height' ≤ height ∧ Inside fits height' node' index' := by
  induction visits with
  | here => exact ⟨le_rfl, start⟩
  | radix _ digit ih => exact ⟨by omega, ih.2.radix (by omega) digit⟩
  | sized _ position ih =>
    obtain ⟨i, k, found, -, inside⟩ := ih.2.sized covers (by omega)
    obtain rfl := Option.some.inj (position.symm.trans found)
    exact ⟨by omega, inside⟩

/-- Lookup returns the elements in order, and every search in a size table stops at one of its slots. -/
theorem rrbNth_agrees (holds : rrb.Holds Exact inTree inTail) :
    (∀ index < rrb.cnt, ∃ elem, (inTree ++ inTail)[index]? = some elem ∧ rrbNth rrb index = some (some elem)) ∧
      (∀ index, rrb.cnt ≤ index → rrbNth rrb index = some none) ∧
      ∀ index < u32Sub rrb.cnt rrb.tailLen, ∀ below table child i,
        Visits rrb.height rrb.root index (below + 1) (.internal (some table) child) i →
          ∃ is rest, sizedPos table i (below + 1) = some (is, rest) ∧ is < child.length := by
  have cnt := holds.cnt
  have length : (inTree ++ inTail).length = rrb.cnt := by rw [List.length_append, cnt]
  refine ⟨fun index inside => ?_, fun index behind => ?_, fun index inside below table child i visits => ?_⟩
  · have found : (inTree ++ inTail)[index]? = some _ := List.getElem?_eq_getElem (by omega)
    exact ⟨_, found, by rw [holds.nth fun _ _ => exact_admissible.covers, found]⟩
  · rw [holds.nth fun _ _ => exact_admissible.covers, List.getElem?_eq_none (by omega)]
  · rw [holds.tailLen, u32Sub_of_le (by omega) holds.word, cnt, Nat.add_sub_cancel] at inside
    obtain ⟨rfl, _⟩ | ⟨shaped, elements⟩ := holds.tree
    · exact absurd inside (Nat.not_lt_zero _)
    · rw [← elements] at inside
      obtain ⟨le, reached⟩ := visits.inside (fun _ _ => exact_admissible.covers) holds.low (.inl ⟨shaped, inside⟩)
      have low := holds.low
      obtain ⟨is, rest, found, slots, -⟩ := reached.sized (fun _ _ => exact_admissible.covers) (by omega)
      exact ⟨is, rest, found, slots⟩

/-- A list with a size table above two leaves. -/
def sizedRrb : Rrb ℕ where
  cnt := 5
  height := 1
  tailLen := 1
  tail := .leaf [9]
  root := .internal (some [3, 4]) [.leaf [5, 6, 7], .leaf [8]]

theorem contains_sizedRrb : sizedRrb.Contains Exact [5, 6, 7, 8] [9] where
  tail := rfl
  tailLen := rfl
  cnt := rfl
  slots := by decide
  word := by decide
  low := by decide
  tree := by
    refine .inr ⟨⟨by decide, ?_, ?_, 4, rfl, rfl⟩, rfl⟩
    · intro node member
      obtain rfl | rfl : node = .leaf [5, 6, 7] ∨ node = .leaf [8] := by simpa using member
      · exact (by decide : 1 ≤ 3 ∧ 3 ≤ RRB_BRANCHING)
      · exact (by decide : 1 ≤ 1 ∧ 1 ≤ RRB_BRANCHING)
    · intro i inner
      have inside : i + 1 < 2 := inner
      obtain rfl : i = 0 := by omega
      rfl

/-- Lookup in the list with a size table. -/
theorem rrbNth_agrees_sized :
    (∀ index < sizedRrb.cnt, ∃ elem, ([5, 6, 7, 8] ++ [9])[index]? = some elem ∧
        rrbNth sizedRrb index = some (some elem)) ∧
      (∀ index, sizedRrb.cnt ≤ index → rrbNth sizedRrb index = some none) ∧
      ∀ index < u32Sub sizedRrb.cnt sizedRrb.tailLen, ∀ below table child i,
        Visits sizedRrb.height sizedRrb.root index (below + 1) (.internal (some table) child) i →
          ∃ is rest, sizedPos table i (below + 1) = some (is, rest) ∧ is < child.length :=
  rrbNth_agrees contains_sizedRrb.holds

end Owl.Lists
