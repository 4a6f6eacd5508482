import Owl.Proofs.Lists.Shape

/-! # Lookup in trees

A dense tree is searched by the digits of the index, which may belong to a larger tree; a node with a size
table by its totals, which also reduce the index to the child. Both find the element at the index.
-/

namespace Owl.Lists

open Blocks
open Node (toList)

variable {α : Type} {height index i k : ℕ} {node : Node α} {child : List (Node α)} {table : List ℕ}
  {fits : ℕ → ℕ → Prop}

theorem slot_eq (found : child[i]? = some node) : slot child i = node := by
  rw [slot, List.getD_eq_getElem?_getD, found]
  rfl

/-- The digit of a position is its block, the digits below it the position in the block. -/
theorem digit_eq {unit : ℕ} (inside : k < unit) : (i * unit + k) / unit = i ∧ (i * unit + k) % unit = k := by
  have positive : 0 < unit := by omega
  exact ⟨by rw [Nat.mul_comm, Nat.mul_add_div positive, Nat.div_eq_of_lt inside, Nat.add_zero],
    by rw [Nat.mul_comm, Nat.mul_add_mod, Nat.mod_eq_of_lt inside]⟩

/-- The digit of an index at a height, and what the digits below it stand for. -/
theorem digit_of_mod (same : index % RRB_BRANCHING ^ (height + 2) = i * RRB_BRANCHING ^ (height + 1) + k)
    (inside : k < RRB_BRANCHING ^ (height + 1)) :
    index / RRB_BRANCHING ^ (height + 1) % RRB_BRANCHING = i ∧ index % RRB_BRANCHING ^ (height + 1) = k := by
  constructor
  · rw [← Nat.mod_mul_right_div_self, ← Nat.pow_succ, same, (digit_eq inside).1]
  · rw [← Nat.mod_mod_of_dvd index (Nat.pow_dvd_pow RRB_BRANCHING (Nat.le_succ (height + 1))), same,
      (digit_eq inside).2]

theorem Node.Dense.nthFrom : ∀ {height} {node : Node α}, height ≤ RRB_MAX_HEIGHT → node.Dense height → ∀ index,
    index % RRB_BRANCHING ^ (height + 1) < node.size height →
      nthFrom height node index = some (node.toList height)[index % RRB_BRANCHING ^ (height + 1)]? := by
  intro height
  induction height with
  | zero =>
    intro node _ dense index _
    cases node with
    | leaf child => rw [Lists.nthFrom, and_mask, Nat.zero_add, Nat.pow_one]; rfl
    | null | internal => exact dense.elim
  | succ height ih =>
    intro node low dense index inside
    rcases node with _ | _ | ⟨_ | table, child⟩
    · exact dense.elim
    · exact dense.elim
    · obtain ⟨i, node, k, found, within, same⟩ := exists_block inside
      have member := List.mem_of_getElem? found
      have bound := (List.getElem?_eq_some_iff.mp found).1
      have below := within.trans_le (dense.2.1 node member).size_le
      rw [dense.before_eq bound] at same
      obtain ⟨digit, rest⟩ := digit_of_mod same below
      rw [Lists.nthFrom, radix_eq low, digit]
      dsimp only [Option.bind_eq_bind, Option.bind_some]
      rw [slot_eq found, ih (by omega) (dense.2.1 node member) index (by rw [rest]; exact within), rest,
        same, ← dense.before_eq bound]
      exact congrArg some (getElem?_flatMap found within).symm
    · exact dense.elim

private theorem scan_eq {guess : ℕ} (le : guess ≤ i)
    (small : ∀ j, guess ≤ j → j < i → ∃ entry, table[j]? = some entry ∧ entry ≤ index)
    (large : ∃ entry, table[i]? = some entry ∧ index < entry) : scan index guess (table.drop guess) = some i := by
  obtain ⟨steps, rfl⟩ := Nat.exists_eq_add_of_le le
  induction steps generalizing guess with
  | zero =>
    obtain ⟨entry, found, above⟩ := large
    rw [Nat.add_zero] at found
    obtain ⟨inside, rfl⟩ := List.getElem?_eq_some_iff.mp found
    rw [List.drop_eq_getElem_cons inside, scan, if_neg (by omega), Nat.add_zero]
  | succ steps ih =>
    obtain ⟨entry, found, below⟩ := small guess le_rfl (by omega)
    obtain ⟨inside, rfl⟩ := List.getElem?_eq_some_iff.mp found
    rw [List.drop_eq_getElem_cons inside, scan, if_pos below]
    have shifted : guess + 1 + steps = guess + (steps + 1) := by omega
    rw [← shifted] at small large ⊢
    exact ih (by omega) (fun j le lt => small j (by omega) lt) large

/-- The slot of a position by a size table, and the position in that slot. -/
theorem Node.Totals.sizedPos (totals : Totals fits height child table) (low : height < RRB_MAX_HEIGHT)
    (covers : ∀ total entry, fits total entry → total ≤ entry)
    (small : ∀ node ∈ child, node.size height ≤ RRB_BRANCHING ^ (height + 1))
    (found : child[i]? = some node) (within : k < node.size height) :
    Lists.sizedPos table (before (toList height) child i + k) (height + 1) = some (i, k) := by
  have bound := (List.getElem?_eq_some_iff.mp found).1
  have next : before (toList height) child (i + 1) = before (toList height) child i + node.size height :=
    before_succ found
  have guess : (before (toList height) child i + k) / RRB_BRANCHING ^ (height + 1) ≤ i := by
    have above : before (toList height) child (i + 1) ≤ (i + 1) * RRB_BRANCHING ^ (height + 1) :=
      before_le_mul small (i + 1)
    apply Nat.lt_add_one_iff.mp
    rw [Nat.div_lt_iff_lt_mul (branching_pow_pos _)]
    omega
  have reached : scan (before (toList height) child i + k)
      ((before (toList height) child i + k) / RRB_BRANCHING ^ (height + 1))
      (table.drop ((before (toList height) child i + k) / RRB_BRANCHING ^ (height + 1))) = some i := by
    apply scan_eq guess
    · intro j _ lt
      have le : before (toList height) child (j + 1) ≤ before (toList height) child i := before_mono (by omega)
      exact ⟨_, totals.inner j (by omega), by omega⟩
    · by_cases last : i + 1 < child.length
      · exact ⟨_, totals.inner i last, by omega⟩
      · obtain ⟨entry, entryFound, fit⟩ := totals.last
        have same : child.length = i + 1 := by omega
        have above := covers _ _ fit
        rw [same] at entryFound above
        exact ⟨entry, entryFound, by omega⟩
  have word : k < 2 ^ 32 :=
    (within.trans_le (small node (List.mem_of_getElem? found))).trans (branching_pow_lt low)
  rw [Lists.sizedPos, shr_eq (show height + 1 ≤ RRB_MAX_HEIGHT from low)]
  dsimp only [Option.bind_eq_bind, Option.bind_some]
  rw [reached]
  dsimp only [Option.bind_some]
  cases i with
  | zero => rw [if_pos rfl, before_zero, Nat.zero_add]; rfl
  | succ i =>
    rw [if_neg (Nat.succ_ne_zero i), Nat.add_sub_cancel, totals.inner i bound]
    have reduced : u32Sub (before (toList height) child (i + 1) + k) (before (toList height) child (i + 1)) = k := by
      rw [u32Sub, u32]
      omega
    dsimp only [Option.bind_some]
    rw [reduced]
    rfl

/-- Lookup needs only that the last entry of a size table covers all children. -/
theorem Node.Shaped.nthFrom (covers : ∀ total entry, fits total entry → total ≤ entry) :
    ∀ {height} {node : Node α}, height ≤ RRB_MAX_HEIGHT → node.Shaped fits height → ∀ index,
      index < node.size height → Lists.nthFrom height node index = some (node.toList height)[index]? := by
  intro height
  induction height with
  | zero =>
    intro node low shaped index inside
    have reduced := Nat.mod_eq_of_lt (inside.trans_le shaped.size_le)
    have dense := Node.Dense.nthFrom low shaped index (by rw [reduced]; exact inside)
    rwa [reduced] at dense
  | succ height ih =>
    intro node low shaped index inside
    rcases node with _ | _ | ⟨_ | table, child⟩
    · exact shaped.elim
    · exact shaped.elim
    · have reduced := Nat.mod_eq_of_lt (inside.trans_le shaped.size_le)
      have dense := Node.Dense.nthFrom low shaped index (by rw [reduced]; exact inside)
      rwa [reduced] at dense
    · obtain ⟨i, node, k, found, within, rfl⟩ := exists_block inside
      have member := List.mem_of_getElem? found
      rw [Lists.nthFrom,
        shaped.2.2.sizedPos low covers (fun node member => (shaped.2.1 node member).size_le) found within]
      dsimp only [Option.bind_eq_bind, Option.bind_some]
      rw [slot_eq found, ih (by omega) (shaped.2.1 node member) k within]
      exact congrArg some (getElem?_flatMap found within).symm

end Owl.Lists
