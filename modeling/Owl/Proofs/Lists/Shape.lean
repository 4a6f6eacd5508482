import Mathlib.Data.Nat.Bitwise
import Owl.Model.Lists.Concat
import Owl.ToMathlib.Blocks
import Owl.ToMathlib.Option

/-! # Shapes of trees

A tree of a height is a sequence: the elements of its leaves in order. Its shape says how the sequence
is spread over the nodes. A node without a size table is dense, so that the code can find an element by
the digits of its index; a node with a size table has the running totals of its children, of which the
last one may be kept to a weaker condition.
-/

namespace Owl.Lists

open Blocks

variable {α : Type} {height index word : ℕ}

theorem u32_of_lt {n : ℕ} (small : n < 2 ^ 32) : u32 n = n := Nat.mod_eq_of_lt small

theorem u32Sub_of_le {left right : ℕ} (le : right ≤ left) (small : left < 2 ^ 32) :
    u32Sub left right = left - right := by
  rw [u32Sub, u32]
  omega

private theorem shiftRight_height (word height : ℕ) :
    word >>> (RRB_BITS * height) = word / RRB_BRANCHING ^ height := by
  rw [Nat.shiftRight_eq_div_pow, pow_mul]
  rfl

theorem shr_eq (low : height ≤ RRB_MAX_HEIGHT) : shr word height = some (word / RRB_BRANCHING ^ height) := by
  rw [shr, if_pos (by simp only [RRB_BITS, RRB_MAX_HEIGHT] at low ⊢; omega), shiftRight_height]

theorem shl_eq (low : height ≤ RRB_MAX_HEIGHT) :
    shl word height = some (u32 (word * RRB_BRANCHING ^ height)) := by
  rw [shl, if_pos (by simp only [RRB_BITS, RRB_MAX_HEIGHT] at low ⊢; omega), Nat.shiftLeft_eq, pow_mul]
  rfl

theorem and_mask (word : ℕ) : word &&& RRB_MASK = word % RRB_BRANCHING :=
  Nat.and_two_pow_sub_one_eq_mod word 5

theorem radix_eq (low : height ≤ RRB_MAX_HEIGHT) :
    radix word height = some (word / RRB_BRANCHING ^ height % RRB_BRANCHING) := by
  rw [radix, shr_eq low, Option.map_some, and_mask]

theorem branching_pow_pos (height : ℕ) : 0 < RRB_BRANCHING ^ height := Nat.pow_pos (by decide)

/-- A tree below the highest level has fewer than `2 ^ 32` elements. -/
theorem branching_pow_lt (low : height < RRB_MAX_HEIGHT) : RRB_BRANCHING ^ (height + 1) < 2 ^ 32 :=
  calc RRB_BRANCHING ^ (height + 1) ≤ RRB_BRANCHING ^ RRB_MAX_HEIGHT := Nat.pow_le_pow_right (by decide) low
    _ < 2 ^ 32 := by decide

theorem elements_eq {node : Node α} {child : List α} (found : node.elements = some child) : node = .leaf child := by
  cases node with
  | leaf => exact congrArg Node.leaf (Option.some.inj found)
  | null | internal => cases found

theorem children_eq {node : Node α} {child : List (Node α)} (found : node.children = some child) :
    ∃ sizeTable, node = .internal sizeTable child := by
  cases node with
  | internal sizeTable => exact ⟨sizeTable, congrArg (Node.internal sizeTable) (Option.some.inj found)⟩
  | null | leaf => cases found

namespace Node

/-- The elements of a tree of a height, in order. -/
def toList : ℕ → Node α → List α
  | 0, .leaf child => child
  | height + 1, .internal _ child => child.flatMap (toList height)
  | _, _ => []

/-- The number of elements of a tree. -/
def size (height : ℕ) (node : Node α) : ℕ := (node.toList height).length

/-- A tree without size tables: all children of a node but the last are completely full. -/
def Dense : ℕ → Node α → Prop
  | 0, .leaf child => 1 ≤ child.length ∧ child.length ≤ RRB_BRANCHING
  | height + 1, .internal none child =>
      (1 ≤ child.length ∧ child.length ≤ RRB_BRANCHING) ∧ (∀ node ∈ child, node.Dense height) ∧
        ∀ node ∈ child.dropLast, node.size height = RRB_BRANCHING ^ (height + 1)
  | _, _ => False

/-- A size table holds the running totals of the children; the total of all children fits the last entry. -/
structure Totals (fits : ℕ → ℕ → Prop) (height : ℕ) (child : List (Node α)) (table : List ℕ) : Prop where
  inner : ∀ i, i + 1 < child.length → table[i]? = some (before (toList height) child (i + 1))
  last : ∃ entry, table[child.length - 1]? = some entry ∧ fits (before (toList height) child child.length) entry

/-- A tree whose nodes with size tables stand above dense trees. -/
def Shaped (fits : ℕ → ℕ → Prop) : ℕ → Node α → Prop
  | height + 1, .internal (some table) child =>
      (1 ≤ child.length ∧ child.length ≤ RRB_BRANCHING) ∧ (∀ node ∈ child, node.Shaped fits height) ∧
        Totals fits height child table
  | height, node => node.Dense height

/-- A well-formed tree: every size table is exact. -/
def WellFormed (height : ℕ) (node : Node α) : Prop := node.Shaped (fun total entry => entry = total) height

variable {fits fits' : ℕ → ℕ → Prop} {node : Node α} {child : List (Node α)} {table : List ℕ} {i k : ℕ}

theorem Dense.shaped (dense : node.Dense height) : node.Shaped fits height := by
  cases height with
  | zero => exact dense
  | succ height =>
    rcases node with _ | _ | ⟨_ | table, child⟩
    · exact dense
    · exact dense
    · exact dense
    · exact dense.elim

theorem Shaped.isLeaf (shaped : node.Shaped fits 0) :
    ∃ child, node = .leaf child ∧ 1 ≤ child.length ∧ child.length ≤ RRB_BRANCHING := by
  cases node with
  | leaf child => exact ⟨child, rfl, shaped⟩
  | null | internal => exact shaped.elim

theorem Shaped.isInternal (shaped : node.Shaped fits (height + 1)) :
    ∃ sizeTable child, node = .internal sizeTable child ∧
      (1 ≤ child.length ∧ child.length ≤ RRB_BRANCHING) ∧ ∀ node ∈ child, node.Shaped fits height := by
  rcases node with _ | _ | ⟨_ | table, child⟩
  · exact shaped.elim
  · exact shaped.elim
  · exact ⟨none, child, rfl, shaped.1, fun node member => (shaped.2.1 node member).shaped⟩
  · exact ⟨some table, child, rfl, shaped.1, shaped.2.1⟩

theorem Shaped.slots {sizeTable : Option (List ℕ)} (shaped : (internal sizeTable child).Shaped fits (height + 1)) :
    1 ≤ child.length ∧ child.length ≤ RRB_BRANCHING := by
  cases sizeTable with
  | none | some => exact shaped.1

theorem Shaped.below {sizeTable : Option (List ℕ)} (shaped : (internal sizeTable child).Shaped fits (height + 1)) :
    ∀ node ∈ child, node.Shaped fits height := by
  cases sizeTable with
  | none => exact fun node member => (shaped.2.1 node member).shaped
  | some => exact shaped.2.1

theorem before_size (sizeTable : Option (List ℕ)) :
    before (toList height) child child.length = (internal sizeTable child).size (height + 1) :=
  before_length

theorem Shaped.size_pos : ∀ {height} {node : Node α}, node.Shaped fits height → 0 < node.size height := by
  intro height
  induction height with
  | zero =>
    intro node shaped
    obtain ⟨child, rfl, slots⟩ := shaped.isLeaf
    exact slots.1
  | succ height ih =>
    intro node shaped
    obtain ⟨_, child, rfl, slots, below⟩ := shaped.isInternal
    obtain ⟨first, rest, rfl⟩ := List.exists_cons_of_length_pos slots.1
    have inside := ih (below first List.mem_cons_self)
    simp only [size, toList, List.flatMap_cons, List.length_append] at inside ⊢
    omega

theorem Shaped.size_le : ∀ {height} {node : Node α}, node.Shaped fits height →
    node.size height ≤ RRB_BRANCHING ^ (height + 1) := by
  intro height
  induction height with
  | zero =>
    intro node shaped
    obtain ⟨child, rfl, slots⟩ := shaped.isLeaf
    simpa [size, toList] using slots.2
  | succ height ih =>
    intro node shaped
    obtain ⟨sizeTable, child, rfl, slots, below⟩ := shaped.isInternal
    have total := before_le_mul (fun node member => ih (below node member)) child.length
    rw [before_size sizeTable] at total
    calc (internal sizeTable child).size (height + 1) ≤ child.length * RRB_BRANCHING ^ (height + 1) := total
      _ ≤ RRB_BRANCHING * RRB_BRANCHING ^ (height + 1) := Nat.mul_le_mul_right _ slots.2
      _ = RRB_BRANCHING ^ (height + 1 + 1) := (Nat.pow_succ').symm

theorem Dense.size_le (dense : node.Dense height) : node.size height ≤ RRB_BRANCHING ^ (height + 1) :=
  (dense.shaped : node.Shaped Eq height).size_le

theorem size_le_of_mem (sizeTable : Option (List ℕ)) (member : node ∈ child) :
    node.size height ≤ (internal sizeTable child).size (height + 1) := by
  obtain ⟨front, back, rfl⟩ := List.append_of_mem member
  simp only [size, toList, List.flatMap_append, List.flatMap_cons, List.length_append]
  omega

/-- The slots of a dense node stand at multiples of the size of a full child. -/
theorem Dense.before_eq (dense : (internal none child).Dense (height + 1)) (inside : i < child.length) :
    before (toList height) child i = i * RRB_BRANCHING ^ (height + 1) := by
  apply before_eq_mul
  · intro node member
    apply dense.2.2 node
    rw [List.dropLast_eq_take]
    exact List.take_subset_take_left child (by omega) member
  · omega

end Node

theorem dense_above {node : Node α} (dense : node.Dense height) : (Node.internal none [node]).Dense (height + 1) := by
  refine ⟨show 1 ≤ 1 ∧ 1 ≤ RRB_BRANCHING by decide, ?_, by simp⟩
  intro other member
  rw [List.mem_singleton.mp member]
  exact dense

end Owl.Lists
