import Owl.Proofs.Lists.Cutting

/-! # Size tables

A node whose size tables have an entry for each slot can be sized. In a well-formed tree the size is the number
of elements, and the size table that is written above well-formed nodes is exact.
-/

namespace Owl.Lists

open Blocks
open Option (Yields)
open Node (toList Dense Shaped Totals WellFormed)

variable {α : Type} {height sum : ℕ} {node : Node α} {child nodes : List (Node α)} {fits : ℕ → ℕ → Prop}

/-- A node as the code builds them: all leaves are at one depth, every node has a slot and no more slots than it
can have, and a size table has an entry for each of them. -/
def Node.Levelled : ℕ → Node α → Prop
  | 0, .leaf child => 1 ≤ child.length ∧ child.length ≤ RRB_BRANCHING
  | height + 1, .internal sizeTable child =>
      (1 ≤ child.length ∧ child.length ≤ RRB_BRANCHING) ∧ (∀ node ∈ child, node.Levelled height) ∧
        ∀ table ∈ sizeTable, child.length ≤ table.length
  | _, _ => False

theorem slot_mem {i : ℕ} (inside : i < child.length) : slot child i ∈ child := by
  rw [slot_eq (List.getElem?_eq_getElem inside)]
  exact List.getElem_mem inside

theorem getElem?_last (inhabited : 1 ≤ child.length) :
    child[child.length - 1]? = some (slot child (child.length - 1)) := by
  have bound : child.length - 1 < child.length := by omega
  rw [slot_eq (List.getElem?_eq_getElem bound), List.getElem?_eq_getElem bound]

theorem split_last (inhabited : 1 ≤ child.length) : child = child.dropLast ++ [slot child (child.length - 1)] := by
  rw [List.dropLast_eq_take, ← take_succ (getElem?_last inhabited), Nat.sub_add_cancel inhabited, List.take_length]

theorem set_last (inhabited : 1 ≤ child.length) (node : Node α) :
    child.set (child.length - 1) node = child.dropLast ++ [node] := by
  have bound : child.length - 1 < child.length := by omega
  rw [List.set_eq_take_append_cons_drop, if_pos bound, Nat.sub_add_cancel inhabited, List.drop_length,
    List.dropLast_eq_take]

theorem Node.Levelled.sized : ∀ {height} {node : Node α}, height ≤ RRB_MAX_HEIGHT → node.Levelled height →
    ∃ size, sizeSubTrie height node = some size := by
  intro height
  induction height with
  | zero =>
    intro node _ levelled
    cases node with
    | leaf child => exact ⟨child.length, rfl⟩
    | null | internal => exact levelled.elim
  | succ height ih =>
    intro node low levelled
    rcases node with _ | _ | ⟨_ | table, child⟩
    · exact levelled.elim
    · exact levelled.elim
    · obtain ⟨slots, below, -⟩ := levelled
      obtain ⟨size, sized⟩ := ih (by omega) (below _ (slot_mem (show child.length - 1 < child.length by omega)))
      exact ⟨_, by rw [sizeSubTrie, sized, shl_eq low]; rfl⟩
    · obtain ⟨slots, -, entries⟩ := levelled
      have inside : child.length - 1 < table.length := by have := entries table rfl; omega
      exact ⟨table[child.length - 1], by rw [sizeSubTrie, List.getElem?_eq_getElem inside]⟩

theorem Node.Shaped.levelled : ∀ {height} {node : Node α}, node.Shaped fits height → node.Levelled height := by
  intro height
  induction height with
  | zero =>
    intro node shaped
    obtain ⟨child, rfl, slots⟩ := shaped.isLeaf
    exact slots
  | succ height ih =>
    intro node shaped
    rcases node with _ | _ | ⟨_ | table, child⟩
    · exact shaped.elim
    · exact shaped.elim
    · exact ⟨shaped.slots, fun node member => ih (shaped.below node member), fun table none => by cases none⟩
    · refine ⟨shaped.slots, fun node member => ih (shaped.below node member), ?_⟩
      rintro table ⟨⟩
      exact shaped.2.2.length_le

/-- The size of a dense node: all slots but the last are full. -/
theorem Node.Dense.size_last (dense : (Node.internal none child).Dense (height + 1)) :
    (Node.internal none child).size (height + 1) =
      (child.length - 1) * RRB_BRANCHING ^ (height + 1) + (slot child (child.length - 1)).size height := by
  have inside : child.length - 1 < child.length := by have := dense.1; omega
  have found := List.getElem?_eq_getElem inside
  have next : before (toList height) child (child.length - 1 + 1) =
      before (toList height) child (child.length - 1) + (child[child.length - 1]).size height := before_succ found
  rw [Nat.sub_add_cancel dense.1.1, Node.before_size none, dense.before_eq inside, ← slot_eq found] at next
  exact next

/-- In a well-formed tree the size is the number of elements. -/
theorem Node.WellFormed.sizeSubTrie : ∀ {height} {node : Node α}, height ≤ RRB_MAX_HEIGHT → node.WellFormed height →
    node.size height < 2 ^ 32 → Lists.sizeSubTrie height node = some (node.size height) := by
  intro height
  induction height with
  | zero =>
    intro node _ wellFormed _
    obtain ⟨child, rfl, -⟩ := wellFormed.isLeaf
    rfl
  | succ height ih =>
    intro node low wellFormed word
    rcases node with _ | _ | ⟨_ | table, child⟩
    · exact wellFormed.elim
    · exact wellFormed.elim
    · have dense : (Node.internal none child).Dense (height + 1) := wellFormed
      have member : slot child (child.length - 1) ∈ child := slot_mem (by have := dense.1; omega)
      have total := dense.size_last
      rw [Lists.sizeSubTrie, ih (by omega) (dense.2.1 _ member).shaped (by omega), shl_eq low]
      dsimp only [Option.bind_eq_bind, Option.bind_some]
      rw [u32_of_lt (show (child.length - 1) * RRB_BRANCHING ^ (height + 1) < 2 ^ 32 by omega), ← total, u32_of_lt word]
      rfl
    · obtain ⟨entry, found, rfl⟩ := wellFormed.2.2.last
      rw [Lists.sizeSubTrie, found, Node.before_size (some table)]

/-- The loop of `set_sizes` writes the running sums of the sizes. -/
private theorem sizesFrom_eq {size : Node α → ℕ} (sum : ℕ)
    (sized : ∀ node ∈ nodes, sizeSubTrie height node = some (size node)) :
    ∃ table, sizesFrom height sum nodes = some table ∧ table.length = nodes.length ∧
      ∀ i < nodes.length, table[i]? = some (u32 (sum + ((nodes.take (i + 1)).map size).sum)) := by
  induction nodes generalizing sum with
  | nil => exact ⟨[], rfl, rfl, by simp⟩
  | cons node nodes ih =>
    obtain ⟨table, written, length, entries⟩ :=
      ih (u32 (sum + size node)) fun node member => sized node (List.mem_cons_of_mem _ member)
    refine ⟨u32 (sum + size node) :: table, ?_, by rw [List.length_cons, List.length_cons, length], ?_⟩
    · rw [sizesFrom, sized node List.mem_cons_self]
      dsimp only [Option.bind_eq_bind, Option.bind_some]
      rw [written]
      rfl
    · intro i inside
      cases i with
      | zero => simp
      | succ i =>
        have reduced : u32 (u32 (sum + size node) + ((nodes.take (i + 1)).map size).sum) =
            u32 (sum + (size node + ((nodes.take (i + 1)).map size).sum)) := by
          rw [u32, u32, u32, Nat.mod_add_mod, Nat.add_assoc]
        rw [List.getElem?_cons_succ, entries i (Nat.lt_of_succ_lt_succ inside), reduced, List.take_succ_cons,
          List.map_cons, List.sum_cons]

private theorem before_eq_sum (nodes : List (Node α)) (i : ℕ) :
    before (toList height) nodes i = ((nodes.take i).map (Node.size height)).sum := by
  rw [before, List.length_flatMap]
  rfl

theorem setSizes_levelled {sizeTable : Option (List ℕ)} (low : height ≤ RRB_MAX_HEIGHT)
    (slots : 1 ≤ child.length ∧ child.length ≤ RRB_BRANCHING) (levelled : ∀ node ∈ child, node.Levelled height) :
    ∃ table, setSizes (.internal sizeTable child) (height + 1) = some (.internal (some table) child) ∧
      (Node.internal (some table) child).Levelled (height + 1) := by
  have sized : ∀ node ∈ child, sizeSubTrie height node = some ((sizeSubTrie height node).getD 0) := by
    intro node member
    obtain ⟨size, sized⟩ := (levelled node member).sized low
    rw [sized]
    rfl
  obtain ⟨table, written, length, -⟩ := sizesFrom_eq 0 sized
  refine ⟨table, by rw [setSizes, Node.children]; simp [written], slots, levelled, ?_⟩
  rintro _ ⟨⟩
  exact length.ge

/-- A size table above well-formed nodes is exact. -/
theorem setSizes_wellFormed {sizeTable : Option (List ℕ)} (low : height ≤ RRB_MAX_HEIGHT)
    (slots : 1 ≤ child.length ∧ child.length ≤ RRB_BRANCHING) (wellFormed : ∀ node ∈ child, node.WellFormed height)
    (word : (child.flatMap (toList height)).length < 2 ^ 32) :
    ∃ table, setSizes (.internal sizeTable child) (height + 1) = some (.internal (some table) child) ∧
      (Node.internal (some table) child).WellFormed (height + 1) := by
  have sized : ∀ node ∈ child, sizeSubTrie height node = some (node.size height) := by
    intro node member
    exact (wellFormed node member).sizeSubTrie low ((Node.size_le_of_mem none member).trans_lt word)
  obtain ⟨table, written, length, entries⟩ := sizesFrom_eq 0 sized
  have exact (i : ℕ) (inside : i < child.length) : table[i]? = some (before (toList height) child (i + 1)) := by
    have le : before (toList height) child (i + 1) ≤ before (toList height) child child.length := before_mono inside
    rw [before_length] at le
    rw [entries i inside, ← before_eq_sum, Nat.zero_add, u32_of_lt (le.trans_lt word)]
  refine ⟨table, by rw [setSizes, Node.children]; simp [written], slots, wellFormed, ?_, ?_⟩
  · exact fun i inner => exact i (by omega)
  · exact ⟨_, exact _ (by omega), by rw [Nat.sub_add_cancel slots.1]⟩

theorem Node.Shaped.findShift : ∀ {height} {node : Node α}, node.Shaped fits height →
    Lists.findShift node = some height := by
  intro height
  induction height with
  | zero =>
    intro node shaped
    obtain ⟨child, rfl, -⟩ := shaped.isLeaf
    rw [Lists.findShift]
  | succ height ih =>
    intro node shaped
    obtain ⟨sizeTable, child, rfl, slots, below⟩ := shaped.isInternal
    obtain ⟨first, rest, rfl⟩ := List.exists_cons_of_length_pos slots.1
    rw [Lists.findShift, ih (below first List.mem_cons_self), Option.map_some, Nat.add_comm]

end Owl.Lists
