import Mathlib.Algebra.Order.BigOperators.Group.List
import Mathlib.Algebra.Order.Group.Nat
import Owl.Proofs.Lists.Shape

/-! # The rebalancing plan

A round of the plan finds a short node and pours it into the nodes behind it. As long as there are more
nodes than the slots need, the free slots guarantee that a short node is found and that the pouring ends
before the nodes do.
-/

namespace Owl.Lists

open Option (Yields)

variable {α : Type} {optimalSlots i : ℕ} {counts full rest : List ℕ}

/-- Every node has a slot, and no more slots than a node can have. -/
def Slotted (counts : List ℕ) : Prop := ∀ count ∈ counts, 1 ≤ count ∧ count ≤ RRB_BRANCHING

/-- All nodes are full. -/
def AllFull (counts : List ℕ) : Prop := ∀ count ∈ counts, count = RRB_BRANCHING

theorem slotted_append : Slotted (full ++ rest) ↔ Slotted full ∧ Slotted rest := List.forall_mem_append

theorem slotted_cons {count : ℕ} :
    Slotted (count :: rest) ↔ (1 ≤ count ∧ count ≤ RRB_BRANCHING) ∧ Slotted rest := List.forall_mem_cons

theorem Slotted.sum_le (slotted : Slotted counts) : counts.sum ≤ counts.length * RRB_BRANCHING :=
  List.sum_le_card_nsmul counts RRB_BRANCHING fun count member => (slotted count member).2

theorem Slotted.sum_pos (slotted : Slotted counts) (some' : 1 ≤ counts.length) : 1 ≤ counts.sum := by
  obtain ⟨first, counts, rfl⟩ := List.exists_cons_of_length_pos some'
  have one := (slotted_cons.mp slotted).1.1
  rw [List.sum_cons]
  omega

private theorem AllFull.sum_eq (allFull : AllFull counts) : counts.sum = counts.length * RRB_BRANCHING :=
  List.sum_eq_card_nsmul counts RRB_BRANCHING allFull

/-- Where not all counts are full, the scan stops at the first that is not. -/
private theorem skipFull_stops (slotted : Slotted counts) (room : counts.sum < counts.length * RRB_BRANCHING) (i : ℕ) :
    ∃ full short tail, counts = full ++ short :: tail ∧ AllFull full ∧
      skipFull i counts = some (i + full.length) := by
  induction counts generalizing i with
  | nil => simp at room
  | cons count counts ih =>
    obtain ⟨⟨_, le⟩, behind⟩ := slotted_cons.mp slotted
    by_cases large : RRB_BRANCHING - RRB_INVARIANT < count
    · have same : count = RRB_BRANCHING := by
        simp only [RRB_BRANCHING, RRB_INVARIANT] at large le ⊢
        omega
      rw [List.sum_cons, List.length_cons, Nat.add_mul, same] at room
      obtain ⟨full, short, tail, rfl, allFull, stops⟩ := ih behind (by omega) (i + 1)
      refine ⟨count :: full, short, tail, rfl, List.forall_mem_cons.mpr ⟨same, allFull⟩, ?_⟩
      rw [skipFull, if_pos large, stops, List.length_cons, Nat.add_assoc, Nat.add_comm 1]
    · exact ⟨[], count, counts, rfl, List.forall_mem_nil _, by rw [skipFull, if_neg large]; rfl⟩

/-- Pouring keeps the number of slots and fills the counts that it passes. -/
private theorem redistribute_yields {remaining : ℕ} (slotted : Slotted counts) (positive : 1 ≤ remaining)
    (room : remaining + counts.sum ≤ counts.length * RRB_BRANCHING) :
    (redistribute remaining counts).Yields fun filled =>
      Slotted filled.2 ∧ filled.2.sum = remaining + counts.sum ∧ filled.2.length = counts.length ∧
        filled.1 < counts.length ∧ AllFull (filled.2.take filled.1) := by
  induction counts generalizing remaining with
  | nil => simp at room; omega
  | cons next counts ih =>
    obtain ⟨⟨_, le⟩, behind⟩ := slotted_cons.mp slotted
    rw [List.sum_cons, List.length_cons, Nat.add_mul] at room
    rw [redistribute]
    split_ifs with done
    · have small : remaining + next ≤ RRB_BRANCHING := by omega
      rw [min_eq_left small]
      refine .some ⟨slotted_cons.mpr ⟨⟨by omega, small⟩, behind⟩, ?_, rfl, Nat.succ_pos _, List.forall_mem_nil _⟩
      rw [List.sum_cons, List.sum_cons, Nat.add_assoc]
    · have large : RRB_BRANCHING ≤ remaining + next := by omega
      rw [min_eq_right large] at done ⊢
      refine .map ((ih behind (by omega) (by omega)).mono ?_)
      rintro filled ⟨poured, sum, length, within, allFull⟩
      refine ⟨slotted_cons.mpr ⟨by decide, poured⟩, ?_, ?_, ?_, List.forall_mem_cons.mpr ⟨rfl, allFull⟩⟩
      · rw [List.sum_cons, List.sum_cons, sum]
        omega
      · rw [List.length_cons, List.length_cons, length]
      · rw [List.length_cons]
        omega

/-- A round removes one count; the counts before its place stay full. -/
private theorem round_exists (slotted : Slotted (full ++ rest)) (allFull : AllFull full)
    (spare : (full ++ rest).sum + RRB_BRANCHING ≤ (full ++ rest).length * RRB_BRANCHING) :
    ∃ place short filled full' rest', skipFull full.length ((full ++ rest).drop full.length) = some place ∧
      (full ++ rest)[place]? = some short ∧ redistribute short ((full ++ rest).drop (place + 1)) = some filled ∧
      (full ++ rest).take place ++ filled.2 = full' ++ rest' ∧ full'.length = place + filled.1 ∧ AllFull full' ∧
      Slotted (full' ++ rest') ∧ (full' ++ rest').sum = (full ++ rest).sum ∧
      (full' ++ rest').length + 1 = (full ++ rest).length := by
  have branching : 0 < RRB_BRANCHING := by decide
  rw [List.sum_append, List.length_append, Nat.add_mul, allFull.sum_eq] at spare
  obtain ⟨_, open'⟩ := slotted_append.mp slotted
  obtain ⟨more, short, tail, rfl, moreFull, stops⟩ := skipFull_stops open' (by omega) full.length
  have front : AllFull (full ++ more) := List.forall_mem_append.mpr ⟨allFull, moreFull⟩
  have split : full ++ (more ++ short :: tail) = (full ++ more) ++ short :: tail := (List.append_assoc ..).symm
  rw [split] at slotted ⊢
  obtain ⟨before, within⟩ := slotted_append.mp slotted
  obtain ⟨⟨positive, _⟩, behind⟩ := slotted_cons.mp within
  have room : short + tail.sum ≤ tail.length * RRB_BRANCHING := by
    rw [List.sum_append, List.length_append, List.sum_cons, List.length_cons, moreFull.sum_eq] at spare
    simp only [Nat.add_mul] at spare
    omega
  obtain ⟨filled, poured, slots, sum, length, inside, filledFull⟩ := redistribute_yields behind positive room
  refine ⟨(full ++ more).length, short, filled, full ++ more ++ filled.2.take filled.1, filled.2.drop filled.1,
    ?_, ?_, ?_, ?_, ?_, List.forall_mem_append.mpr ⟨front, filledFull⟩, ?_, ?_, ?_⟩
  · rw [← split, List.drop_left, stops, List.length_append]
  · rw [List.getElem?_append_right le_rfl, Nat.sub_self]
    rfl
  · rw [List.drop_length_add_append]
    exact poured
  · rw [List.take_left, List.append_assoc (full ++ more), List.take_append_drop]
  · rw [List.length_append, List.length_take, min_eq_left (by omega)]
  all_goals rw [List.append_assoc (full ++ more), List.take_append_drop]
  · exact slotted_append.mpr ⟨before, slots⟩
  · simp only [List.sum_append, List.sum_cons, sum]
  · simp only [List.length_append, List.length_cons, length]
    omega

private theorem shuffle_yields (rounds : ℕ) (full rest : List ℕ)
    (enough : (full ++ rest).sum ≤ optimalSlots * RRB_BRANCHING)
    (slotted : Slotted (full ++ rest)) (allFull : AllFull full) (fuel : (full ++ rest).length ≤ rounds) :
    (shuffle optimalSlots rounds full.length (full ++ rest)).Yields fun plan =>
      Slotted plan ∧ plan.sum = (full ++ rest).sum ∧ plan.length ≤ (full ++ rest).length ∧
        plan.length ≤ optimalSlots + RRB_EXTRAS := by
  induction rounds generalizing full rest with
  | zero => exact .some ⟨slotted, rfl, le_rfl, by omega⟩
  | succ rounds ih =>
    rw [shuffle]
    split_ifs with long
    · have spare : (full ++ rest).sum + RRB_BRANCHING ≤ (full ++ rest).length * RRB_BRANCHING := by
        have wide : (optimalSlots + 1) * RRB_BRANCHING ≤ (full ++ rest).length * RRB_BRANCHING :=
          Nat.mul_le_mul_right _ (by omega)
        rw [Nat.add_mul] at wide
        omega
      obtain ⟨place, short, filled, full', rest', stops, here, poured, parts, place_eq, front, slots, sum, length⟩ :=
        round_exists slotted allFull spare
      rw [stops]
      dsimp only [Option.bind_eq_bind, Option.bind_some]
      rw [here]
      dsimp only [Option.bind_some]
      rw [poured]
      dsimp only [Option.bind_some]
      rw [parts, ← place_eq]
      rw [← sum] at enough ⊢
      refine (ih _ _ enough slots front (by omega)).mono ?_
      rintro plan ⟨planSlotted, planSum, shorter, short⟩
      exact ⟨planSlotted, planSum, by omega, short⟩
    · exact .some ⟨slotted, rfl, le_rfl, by omega⟩

/-- `create_concat_plan` keeps the number of slots and leaves at most two nodes more than they need. -/
theorem createConcatPlan_yields {all : List (Node α)} (lens : all.mapM Node.len = some counts)
    (slotted : Slotted counts) (some' : 1 ≤ counts.length) (word : counts.sum < 2 ^ 32) :
    (createConcatPlan all).Yields fun plan =>
      Slotted plan ∧ plan.sum = counts.sum ∧ plan.length ≤ counts.length ∧
        plan.length ≤ (counts.sum - 1) / RRB_BRANCHING + 1 + RRB_EXTRAS := by
  rw [createConcatPlan, lens]
  dsimp only [Option.bind_eq_bind, Option.bind_some]
  rw [u32Sub_of_le (slotted.sum_pos some') word]
  refine shuffle_yields _ [] counts ?_ slotted (List.forall_mem_nil _) le_rfl
  rw [List.nil_append]
  simp only [RRB_BRANCHING]
  omega

end Owl.Lists
