import Mathlib.Data.Nat.Bitwise
import Owl.Model.Lists.Append
import Owl.Proofs.Lists.Cutting

/-! # Appending to dense trees

In a dense tree of full leaves the index of the last element leads to the place of the next leaf. That place
is in a node that has children on every level below it, or it is the slot behind the last child of a node.
-/

namespace Owl.Lists

open Blocks
open Option (Yields)
open Node (toList Dense)

variable {α : Type} {height index size i : ℕ} {node last behind : Node α} {child : List (Node α)} {counts : Copyable}

private theorem clearDigit_eq (low : height < RRB_MAX_HEIGHT) (small : index < RRB_BRANCHING ^ (height + 1)) :
    clearDigit index height = some (index % RRB_BRANCHING ^ height) := by
  have le : height ≤ 5 := Nat.le_of_lt_succ low
  have power (h : ℕ) : RRB_BRANCHING ^ h = 2 ^ (5 * h) := (pow_mul 2 5 h).symm
  have word : RRB_MASK * RRB_BRANCHING ^ height < 2 ^ 32 :=
    calc RRB_MASK * RRB_BRANCHING ^ height ≤ RRB_MASK * RRB_BRANCHING ^ 5 :=
          Nat.mul_le_mul_left _ (Nat.pow_le_pow_right (by decide) le)
      _ < 2 ^ 32 := by decide
  have mask : u32 (RRB_MASK * RRB_BRANCHING ^ height) = (2 ^ 5 - 1) <<< (5 * height) := by
    rw [u32_of_lt word, power, Nat.shiftLeft_eq]
    rfl
  rw [clearDigit, shl_eq low.le, mask, Option.map_some, power]
  congr 1
  apply Nat.eq_of_testBit_eq
  intro j
  rw [Nat.testBit_and, Nat.testBit_xor, Nat.testBit_shiftLeft, Nat.testBit_two_pow_sub_one,
    Nat.testBit_two_pow_sub_one, Nat.testBit_mod_two_pow]
  by_cases high : 5 * (height + 1) ≤ j
  · rw [Nat.testBit_lt_two_pow (small.trans_le ((power _).trans_le (Nat.pow_le_pow_right (by decide) high)))]
    simp
  · by_cases inside : j < 5 * height
    · have absent : ¬5 * height ≤ j := by omega
      have word : j < 32 := by omega
      simp [inside, absent, word]
    · have present : 5 * height ≤ j := by omega
      have digit : j - 5 * height < 5 := by omega
      have word : j < 32 := by omega
      simp [inside, present, digit, word]

/-- The index of the last element of a list with a full tail, in a tree. -/
def lastIndex (size : ℕ) : ℕ := size + RRB_MASK

/-- The digits of that index are the digits of the size of the tree. -/
theorem lastIndex_digit (leaves : RRB_BRANCHING ∣ size) (height : ℕ) :
    lastIndex size / RRB_BRANCHING ^ (height + 1) = size / RRB_BRANCHING ^ (height + 1) ∧
      lastIndex size % RRB_BRANCHING ^ (height + 1) = lastIndex (size % RRB_BRANCHING ^ (height + 1)) := by
  have unit : RRB_BRANCHING ∣ RRB_BRANCHING ^ (height + 1) := Dvd.intro_left _ rfl
  have remainder : RRB_BRANCHING ∣ size % RRB_BRANCHING ^ (height + 1) := (Nat.dvd_mod_iff unit).mpr leaves
  have inside := Nat.mod_lt size (branching_pow_pos (height + 1))
  have below : lastIndex (size % RRB_BRANCHING ^ (height + 1)) < RRB_BRANCHING ^ (height + 1) := by
    obtain ⟨m, same⟩ := remainder
    obtain ⟨n, whole⟩ := unit
    rw [lastIndex]
    rw [same, whole] at inside ⊢
    simp only [RRB_BRANCHING, RRB_MASK] at inside ⊢
    omega
  have split : lastIndex size = size / RRB_BRANCHING ^ (height + 1) * RRB_BRANCHING ^ (height + 1) +
      lastIndex (size % RRB_BRANCHING ^ (height + 1)) := by
    rw [lastIndex, lastIndex, ← Nat.add_assoc, Nat.mul_comm, Nat.div_add_mod]
  rw [split]
  exact digit_eq below

/-- The digits of an index that ends like the last index in a tree. -/
private theorem digits_of_lastIndex (leaves : RRB_BRANCHING ∣ size)
    (same : index % RRB_BRANCHING ^ (height + 1 + 1) = lastIndex size) :
    index / RRB_BRANCHING ^ (height + 1) % RRB_BRANCHING = size / RRB_BRANCHING ^ (height + 1) ∧
      index % RRB_BRANCHING ^ (height + 1) = lastIndex (size % RRB_BRANCHING ^ (height + 1)) := by
  obtain ⟨digit, rest⟩ := lastIndex_digit leaves height
  constructor
  · rw [← Nat.mod_mul_right_div_self, ← Nat.pow_succ, same, digit]
  · rw [← Nat.mod_mod_of_dvd index (Nat.pow_dvd_pow RRB_BRANCHING (Nat.le_succ (height + 1))), same, rest]

/-- A dense node is full children and a last one. -/
theorem Node.Dense.exists_last (dense : (Node.internal none child).Dense (height + 1)) :
    ∃ last, child = child.take (child.length - 1) ++ [last] ∧ last.Dense height ∧
      (Node.internal none child).size (height + 1) =
        (child.length - 1) * RRB_BRANCHING ^ (height + 1) + last.size height := by
  have bound : child.length - 1 < child.length := by have := dense.1; omega
  have found := List.getElem?_eq_getElem bound
  have next : child.length - 1 + 1 = child.length := Nat.sub_add_cancel dense.1.1
  refine ⟨child[child.length - 1], ?_, dense.2.1 _ (List.getElem_mem bound), ?_⟩
  · rw [← take_succ found, next, List.take_length]
  · have total : before (toList height) child (child.length - 1 + 1) =
        before (toList height) child (child.length - 1) + (child[child.length - 1]).size height := before_succ found
    rw [dense.before_eq bound, next] at total
    rw [← Node.before_size, total]

theorem Node.Dense.allFull (dense : (Node.internal none child).Dense (height + 1))
    (split : child = child.take (child.length - 1) ++ [last])
    (full : last.size height = RRB_BRANCHING ^ (height + 1)) :
    ∀ node ∈ child, node.size height = RRB_BRANCHING ^ (height + 1) := by
  intro node member
  rw [split] at member
  obtain front | rfl := List.mem_append.mp member |>.imp_right List.mem_singleton.mp
  · rw [← List.dropLast_eq_take] at front
    exact dense.2.2 node front
  · exact full

/-- A slot more in a node whose children are all full. -/
theorem Node.Dense.snoc (dense : (Node.internal none child).Dense (height + 1)) (room : child.length < RRB_BRANCHING)
    (full : ∀ node ∈ child, node.size height = RRB_BRANCHING ^ (height + 1)) (nodeDense : node.Dense height) :
    (Node.internal none (child ++ [node])).Dense (height + 1) := by
  have length : (child ++ [node]).length = child.length + 1 := List.length_append
  refine ⟨by rw [length]; omega, ?_, ?_⟩
  · intro other member
    obtain member | rfl := List.mem_append.mp member |>.imp_right List.mem_singleton.mp
    · exact dense.2.1 other member
    · exact nodeDense
  · rw [List.dropLast_concat]
    exact full

theorem toList_snoc (sizeTable : Option (List ℕ)) :
    (Node.internal sizeTable (child ++ [node])).toList (height + 1) =
      (Node.internal none child).toList (height + 1) ++ node.toList height := by
  rw [toList, toList, List.flatMap_append, List.flatMap_singleton]

theorem appendEmpty_dense (dense : node.Dense 0) (emptyHeight : ℕ) :
    (appendEmpty emptyHeight node).Dense emptyHeight ∧
      (appendEmpty emptyHeight node).toList emptyHeight = node.toList 0 := by
  induction emptyHeight with
  | zero => exact ⟨dense, rfl⟩
  | succ emptyHeight ih =>
    refine ⟨dense_above ih.1, ?_⟩
    rw [appendEmpty, toList, List.flatMap_singleton, ih.2]

@[simp] theorem Copyable.follow_nodesVisited (counts : Copyable) (i : ℕ) :
    (counts.follow i).nodesVisited = counts.nodesVisited + 1 := rfl

theorem searchSlot_low (low : height + 1 < RRB_MAX_HEIGHT) (small : index < RRB_BRANCHING ^ (height + 1 + 1)) (len : ℕ) :
    searchSlot none len index (height + 1) =
      some (some (index / RRB_BRANCHING ^ (height + 1), index % RRB_BRANCHING ^ (height + 1))) := by
  have digit : index / RRB_BRANCHING ^ (height + 1) < RRB_BRANCHING := by
    rw [Nat.div_lt_iff_lt_mul (branching_pow_pos _), ← Nat.pow_succ']
    exact small
  rw [searchSlot, shr_eq (show height + 1 + 1 ≤ RRB_MAX_HEIGHT from low), Nat.div_eq_of_lt small]
  dsimp only [Option.bind_eq_bind, Option.bind_some]
  rw [if_neg (Nat.lt_irrefl 0), radix_eq low.le, clearDigit_eq low small, Nat.mod_eq_of_lt digit]
  rfl

private theorem searchSlot_dense (low : height + 1 < RRB_MAX_HEIGHT) (leaves : RRB_BRANCHING ∣ size)
    (small : size < RRB_BRANCHING ^ (height + 1 + 1)) (len : ℕ) :
    searchSlot none len (lastIndex size) (height + 1) =
      some (some (size / RRB_BRANCHING ^ (height + 1), lastIndex (size % RRB_BRANCHING ^ (height + 1)))) := by
  obtain ⟨-, same⟩ := lastIndex_digit leaves (height + 1)
  have inside : lastIndex size < RRB_BRANCHING ^ (height + 1 + 1) := by
    rw [Nat.mod_eq_of_lt small] at same
    rw [← same]
    exact Nat.mod_lt _ (branching_pow_pos _)
  rw [searchSlot_low low inside, (lastIndex_digit leaves height).1, (lastIndex_digit leaves height).2]

/-- The search finds no child. -/
theorem search_stops {sizeTable : Option (List ℕ)} {index' : ℕ}
    (next : searchSlot sizeTable child.length index (height + 2) = some (some (i, index')))
    (absent : child.getD i behind = .null) :
    search behind (height + 2) (.internal sizeTable child) index counts =
      ([⟨child.length, i⟩], some ⟨counts.nodesVisited + 1 + (height + 1), counts.nodesVisited + 1⟩) := by
  rw [search, next]
  dsimp only
  rw [absent]

/-- The search goes on in a child. -/
theorem search_follows {sizeTable : Option (List ℕ)} {index' : ℕ}
    (next : searchSlot sizeTable child.length index (height + 2) = some (some (i, index')))
    (found : child.getD i behind = node) (present : node ≠ .null) :
    search behind (height + 2) (.internal sizeTable child) index counts =
      (⟨child.length, i⟩ :: (search behind (height + 1) node index' (counts.follow i)).1,
        (search behind (height + 1) node index' (counts.follow i)).2) := by
  rw [search, next]
  dsimp only
  cases node with
  | null => exact absurd rfl present
  | leaf | internal => rw [found]

/-- A search that stays inside the nodes does not depend on the memory behind them. -/
theorem search_inside {behind' : Node α} : ∀ {height node index counts},
    (∀ read ∈ (search behind height node index counts).1, read.Inside) →
      search behind' height node index counts = search behind height node index counts
  | 0, _, _, _, _ => by rw [search, search]
  | 1, _, _, _, _ => by rw [search, search]
  | height + 2, .null, _, _, _ => by rw [search, search] <;> simp
  | height + 2, .leaf _, _, _, _ => by rw [search, search] <;> simp
  | height + 2, .internal sizeTable child, index, counts, inside => by
    cases next : searchSlot sizeTable child.length index (height + 2) with
    | none => rw [search, search, next]
    | some place =>
      rcases place with _ | ⟨i, index'⟩
      · rw [search, search, next]
      · have same (bound : i < child.length) : child.getD i behind' = child.getD i behind := by
          rw [List.getD_eq_getElem _ _ bound, List.getD_eq_getElem _ _ bound]
        by_cases absent : child.getD i behind = .null
        · rw [search_stops next absent] at inside ⊢
          rw [search_stops next ((same (inside _ List.mem_cons_self)).trans absent)]
        · rw [search_follows next rfl absent, List.forall_mem_cons] at inside
          rw [search_follows next rfl absent, search_follows next (same inside.1) absent, search_inside inside.2]

variable {tailSize k : ℕ} {copied : Node α}

theorem copyFirstK_last (low : height < RRB_MAX_HEIGHT)
    (place : index / RRB_BRANCHING ^ (height + 1) % RRB_BRANCHING = child.length) :
    copyFirstK tailSize node 1 (height + 1) (.internal none child) index = some (.internal none (child ++ [node])) := by
  rw [copyFirstK, radix_eq (show height + 1 ≤ RRB_MAX_HEIGHT from low), place]
  dsimp only [Option.bind_eq_bind, Option.bind_some]
  rw [if_pos le_rfl, List.set_append_right _ _ le_rfl, Nat.sub_self]
  rfl

theorem copyFirstK_inner (low : height < RRB_MAX_HEIGHT)
    (place : index / RRB_BRANCHING ^ (height + 1) % RRB_BRANCHING = i) (found : child[i]? = some last)
    (below : copyFirstK tailSize node (k + 1) height last index = some copied) :
    copyFirstK tailSize node (k + 2) (height + 1) (.internal none child) index =
      some (.internal none (child.set i copied)) := by
  rw [copyFirstK, radix_eq (show height + 1 ≤ RRB_MAX_HEIGHT from low), place]
  dsimp only [Option.bind_eq_bind, Option.bind_some]
  rw [if_pos (List.getElem?_eq_some_iff.mp found).1, slot_eq found, below]
  rfl

/-- The search reaches a depth, and the copy down to that depth takes a new leaf. -/
structure Places (tail : List α) (height : ℕ) (node : Node α) (counts : Copyable) (depth : ℕ) : Prop where
  reached : depth < height
  searched : (search .null height node (lastIndex (node.size height)) counts).2 =
    some ⟨counts.nodesVisited + height, counts.nodesVisited + (depth + 1)⟩
  reads : (∀ read ∈ (search .null height node (lastIndex (node.size height)) counts).1, read.Inside) ↔
    ¬RRB_BRANCHING ^ 2 ∣ node.size height
  copied : ∀ index, index % RRB_BRANCHING ^ (height + 1) = lastIndex (node.size height) →
    (copyFirstK tail.length (appendEmpty (height - (depth + 1)) (.leaf tail)) (depth + 1) height node index).Yields
      fun node' => node'.Dense height ∧ node'.toList height = node.toList height ++ tail

section Place

variable {tail : List α}

/-- A leaf in a new slot of a node whose children are all full. -/
private theorem snoc_yields (slots : 1 ≤ tail.length ∧ tail.length ≤ RRB_BRANCHING) (low : height < RRB_MAX_HEIGHT)
    (dense : (Node.internal none child).Dense (height + 1))
    (full : ∀ node ∈ child, node.size height = RRB_BRANCHING ^ (height + 1))
    (leaves : RRB_BRANCHING ∣ (Node.internal none child).size (height + 1))
    (length : (Node.internal none child).size (height + 1) / RRB_BRANCHING ^ (height + 1) = child.length)
    (room : child.length < RRB_BRANCHING)
    (same : index % RRB_BRANCHING ^ (height + 1 + 1) = lastIndex ((Node.internal none child).size (height + 1))) :
    (copyFirstK tailSize (appendEmpty height (.leaf tail)) 1 (height + 1) (.internal none child) index).Yields
      fun node' => node'.Dense (height + 1) ∧
        node'.toList (height + 1) = (Node.internal none child).toList (height + 1) ++ tail := by
  have empties := appendEmpty_dense (show (Node.leaf tail).Dense 0 from slots) height
  rw [copyFirstK_last low ((digits_of_lastIndex leaves same).1.trans length)]
  refine .some ⟨dense.snoc room full empties.1, ?_⟩
  rw [toList_snoc, empties.2]
  rfl

/-- The last child takes the leaf. -/
private theorem inner_yields (low : height < RRB_MAX_HEIGHT) (dense : (Node.internal none child).Dense (height + 1))
    (split : child = child.take (child.length - 1) ++ [last])
    (place : index / RRB_BRANCHING ^ (height + 1) % RRB_BRANCHING = child.length - 1)
    (below : (copyFirstK tailSize node (k + 1) height last index).Yields fun node' =>
      node'.Dense height ∧ node'.toList height = last.toList height ++ tail) :
    (copyFirstK tailSize node (k + 2) (height + 1) (.internal none child) index).Yields fun node' =>
      node'.Dense (height + 1) ∧
        node'.toList (height + 1) = (Node.internal none child).toList (height + 1) ++ tail := by
  obtain ⟨copied, done, copiedDense, elements⟩ := below
  have bound : child.length - 1 < child.length := by have := dense.1; omega
  have found : child[child.length - 1]? = some last := by
    conv_lhs => rw [split]
    rw [List.getElem?_append_right (by simp)]
    simp
  have replaced : child.set (child.length - 1) copied = child.take (child.length - 1) ++ [copied] := by
    rw [List.set_eq_take_append_cons_drop, if_pos bound, Nat.sub_add_cancel dense.1.1, List.drop_length]
  rw [copyFirstK_inner low place found done, replaced]
  refine .some ⟨dense.cut bound copiedDense, ?_⟩
  conv_rhs => rw [split]
  rw [toList_snoc, toList_snoc, elements, List.append_assoc]

private theorem places_bottom (slots : 1 ≤ tail.length ∧ tail.length ≤ RRB_BRANCHING) (dense : node.Dense 1)
    (leaves : RRB_BRANCHING ∣ node.size 1) (small : node.size 1 < RRB_BRANCHING ^ 2) (counts : Copyable) :
    Places tail 1 node counts 0 := by
  obtain ⟨sizeTable, child, rfl, _⟩ := (dense.shaped : node.Shaped Eq 1).isInternal
  cases sizeTable with
  | some => exact dense.elim
  | none =>
    have inhabited : 0 < (Node.internal none child).size 1 := (dense.shaped : Node.Shaped Eq 1 _).size_pos
    obtain ⟨last, split, lastDense, total⟩ := dense.exists_last
    have positive : 0 < last.size 0 := (lastDense.shaped : last.Shaped Eq 0).size_pos
    have full : last.size 0 = RRB_BRANCHING ^ (0 + 1) := by
      apply lastDense.size_le.antisymm
      rw [total, zero_add, pow_one] at leaves
      rw [zero_add, pow_one]
      exact Nat.le_of_dvd positive ((Nat.dvd_add_right (Nat.dvd_mul_left ..)).mp leaves)
    have size : (Node.internal none child).size 1 = child.length * RRB_BRANCHING ^ (0 + 1) := by
      rw [total, full, ← Nat.succ_mul, Nat.succ_eq_add_one, Nat.sub_add_cancel dense.1.1]
    have room : child.length < RRB_BRANCHING := by
      rw [size, zero_add, pow_one, pow_two] at small
      exact Nat.lt_of_mul_lt_mul_right small
    have whole : ¬RRB_BRANCHING ^ 2 ∣ (Node.internal none child).size 1 :=
      Nat.not_dvd_of_pos_of_lt inhabited small
    refine ⟨Nat.one_pos, ?_, ?_, ?_⟩
    · simp [search, Node.len, room]
    · simp [search, whole]
    · intro index same
      apply snoc_yields slots (by decide) dense (dense.allFull split full) leaves _ room same
      rw [size, Nat.mul_div_cancel _ (branching_pow_pos _)]

/-- In a tree that is not full there is a place for a leaf. -/
theorem exists_places (slots : 1 ≤ tail.length ∧ tail.length ≤ RRB_BRANCHING) :
    ∀ {height} {node : Node α}, height + 1 < RRB_MAX_HEIGHT → node.Dense (height + 1) →
      RRB_BRANCHING ∣ node.size (height + 1) → node.size (height + 1) < RRB_BRANCHING ^ (height + 1 + 1) → ∀ counts,
        ∃ depth, Places tail (height + 1) node counts depth := by
  intro height
  induction height with
  | zero => exact fun _ dense leaves small counts => ⟨0, places_bottom slots dense leaves small counts⟩
  | succ height ih =>
    intro node low dense leaves small counts
    obtain ⟨sizeTable, child, rfl, _⟩ := (dense.shaped : node.Shaped Eq (height + 1 + 1)).isInternal
    cases sizeTable with
    | some => exact dense.elim
    | none =>
      obtain ⟨last, split, lastDense, total⟩ := dense.exists_last
      have positive : 0 < last.size (height + 1) := (lastDense.shaped : last.Shaped Eq (height + 1)).size_pos
      have step := searchSlot_dense low leaves small child.length
      have chunk : RRB_BRANCHING ^ 2 ∣ RRB_BRANCHING ^ (height + 1 + 1) := Nat.pow_dvd_pow _ (by omega)
      by_cases full : last.size (height + 1) = RRB_BRANCHING ^ (height + 1 + 1)
      · -- the leaf goes to a slot of its own
        have size : (Node.internal none child).size (height + 1 + 1) =
            child.length * RRB_BRANCHING ^ (height + 1 + 1) := by
          rw [total, full, ← Nat.succ_mul, Nat.succ_eq_add_one, Nat.sub_add_cancel dense.1.1]
        have room : child.length < RRB_BRANCHING := by
          apply Nat.lt_of_mul_lt_mul_right (a := RRB_BRANCHING ^ (height + 1 + 1))
          rw [← size, ← Nat.pow_succ']
          exact small
        have length : (Node.internal none child).size (height + 1 + 1) / RRB_BRANCHING ^ (height + 1 + 1) =
            child.length := by
          rw [size, Nat.mul_div_cancel _ (branching_pow_pos _)]
        rw [length] at step
        have absent : child.getD child.length .null = .null := by simp
        have stops : search .null (height + 2) (.internal none child) _ counts = _ := search_stops step absent
        refine ⟨0, Nat.succ_pos _, ?_, ?_, ?_⟩
        · rw [stops]
          dsimp only
          rw [Option.some.injEq, Copyable.mk.injEq]
          omega
        · rw [stops, size]
          simp [SlotRead.Inside, Dvd.dvd.mul_left chunk child.length]
        · exact fun index same => snoc_yields slots (by omega) dense (dense.allFull split full) leaves length room same
      · -- the leaf goes to the last child
        have unit : last.size (height + 1) < RRB_BRANCHING ^ (height + 1 + 1) :=
          lt_of_le_of_ne lastDense.size_le full
        obtain ⟨digit, rest⟩ := digit_eq (i := child.length - 1) unit
        rw [← total] at digit rest
        have present : last ≠ .null := by
          rintro rfl
          exact lastDense.elim
        have found : child.getD (child.length - 1) .null = last := by
          conv_lhs => rw [split]
          simp
        rw [digit, rest] at step
        have follows : search .null (height + 2) (.internal none child) _ counts = _ :=
          search_follows step found present
        have lastLeaves : RRB_BRANCHING ∣ last.size (height + 1) := by
          rw [← rest]
          exact (Nat.dvd_mod_iff (Dvd.intro_left _ rfl)).mpr leaves
        obtain ⟨depth, places⟩ := ih (by omega) lastDense lastLeaves unit (counts.follow (child.length - 1))
        refine ⟨depth + 1, Nat.succ_lt_succ places.reached, ?_, ?_, ?_⟩
        · rw [follows, places.searched]
          simp only [Option.some.injEq, Copyable.mk.injEq, Copyable.follow_nodesVisited]
          omega
        · rw [follows, List.forall_mem_cons, places.reads, total, Nat.dvd_add_right (Dvd.dvd.mul_left chunk _)]
          exact and_iff_right (show child.length - 1 < child.length by have := dense.1; omega)
        · intro index same
          obtain ⟨place, below⟩ := digits_of_lastIndex leaves same
          rw [digit] at place
          rw [rest] at below
          rw [Nat.add_sub_add_right]
          exact inner_yields (by omega) dense split place (places.copied index below)

end Place

end Owl.Lists
