import Owl.Proofs.Lists.PushDown
import Owl.Soundness.Appends
import Owl.Soundness.Slices

/-! # Appends and slices of a sequence

A run of appends and slices computes what the same steps compute on a plain sequence, as long as every append that
finds the tail full puts it behind the last leaf of the tree. The search for that place trusts nodes without size
tables to have full leaves. A slice can leave a short leaf there.
-/

namespace Owl.Lists

open Blocks
open Option (Yields)
open Node (toList Dense Shaped Totals)

variable {α : Type} {height : ℕ} {root : Node α} {rrb : Rrb α} {inTree inTail tail : List α} {elt : α}

/-- The condition of an append: the count stays a word, and a full tail can go to the tree. -/
def Rrb.TakesPush (rrb : Rrb α) : Prop :=
  rrb.cnt + 1 < 2 ^ 32 ∧
    (RRB_BRANCHING ≤ rrb.tailLen → RRB_BRANCHING < rrb.cnt → rrb.root.TakesTail rrb.height)

instance (rrb : Rrb α) : Decidable rrb.TakesPush := inferInstanceAs (Decidable (_ ∧ _))

section Push

variable (contains : rrb.Contains Covers inTree inTail) (takes : rrb.TakesPush)

include contains takes

/-- The tail has room. -/
theorem Rrb.Contains.tailPush (room : inTail.length < RRB_BRANCHING) (elt : α) :
    (rrbPush .null rrb elt).Yields fun rrb' => rrb'.Contains Covers inTree (inTail ++ [elt]) := by
  have length : (inTail ++ [elt]).length = inTail.length + 1 := List.length_append
  have created : leafNodeCreate (rrb.tailLen + 1) (inTail ++ [elt]) = some (.leaf (inTail ++ [elt])) := by
    rw [leafNodeCreate, if_pos (by rw [length, contains.tailLen])]
  rw [rrbPush, if_pos (by rw [contains.tailLen]; exact room), rrbTailPush, contains.tail]
  change Yields (leafNodeCreate (rrb.tailLen + 1) (inTail ++ [elt]) >>= _) _
  rw [created]
  refine .some { contains with tail := rfl, tailLen := ?_, cnt := ?_, slots := ?_, word := ?_ }
  · rw [length, contains.tailLen]
  · rw [length, u32_of_lt takes.1, contains.cnt, Nat.add_assoc]
  · rw [length]
    exact room
  · exact (u32_of_lt takes.1).trans_lt takes.1

/-- The tail is full. -/
theorem Rrb.Contains.pushDown (full : inTail.length = RRB_BRANCHING) (elt : α) :
    (rrbPush .null rrb elt).Yields fun rrb' => rrb'.Contains Covers (inTree ++ inTail) [elt] := by
  have takesTail := takes.2 (by rw [contains.tailLen, full])
  have counted : u32 (rrb.cnt + 1) = (inTree ++ inTail).length + [elt].length := by
    rw [u32_of_lt takes.1, contains.cnt, List.length_append, List.length_singleton]
  have word : u32 (rrb.cnt + 1) < 2 ^ 32 := (u32_of_lt takes.1).trans_lt takes.1
  rw [rrbPush, if_neg (by rw [contains.tailLen, full]; exact Nat.lt_irrefl _)]
  refine Yields.mono
    (pushDownTail_full full contains.tree contains.cnt contains.word takesTail contains.tail rfl) ?_
  rintro _ ⟨height, root, rfl, low, landed, contents⟩
  exact ⟨rfl, rfl, counted, show 1 ≤ RRB_BRANCHING by decide, word, low, .inr ⟨landed, contents⟩⟩

/-- What an append makes of a list. Its tail has elements. -/
theorem Rrb.Contains.push (elt : α) : (rrbPush .null rrb elt).Yields fun rrb' => ∃ inTree' inTail',
    rrb'.Contains Covers inTree' inTail' ∧ inTail' ≠ [] ∧ inTree' ++ inTail' = inTree ++ inTail ++ [elt] := by
  by_cases room : inTail.length < RRB_BRANCHING
  · refine (contains.tailPush takes room elt).mono fun _ next => ⟨_, _, next, ?_, (List.append_assoc ..).symm⟩
    exact List.append_ne_nil_of_right_ne_nil _ (List.cons_ne_nil elt [])
  · have full := contains.slots.antisymm (Nat.le_of_not_lt room)
    exact (contains.pushDown takes full elt).mono fun _ next => ⟨_, _, next, List.cons_ne_nil elt [], rfl⟩

end Push

/-- An append or a slice. -/
inductive Step (α : Type) where
  | push (elt : α)
  | slice (start stop : ℕ)
deriving Repr

/-- A step of a list; the slots behind the `len` of a node read as `NULL`. -/
def Step.apply (rrb : Rrb α) : Step α → Option (Rrb α)
  | .push elt => rrbPush .null rrb elt
  | .slice start stop => rrbSlice rrb start stop

/-- The step of a plain sequence. -/
def Step.plain (xs : List α) : Step α → List α
  | .push elt => xs ++ [elt]
  | .slice start stop => (xs.take stop).drop start

/-- A slice needs no condition. -/
def Step.Safe (rrb : Rrb α) : Step α → Prop
  | .push _ => rrb.TakesPush
  | .slice _ _ => True

instance (rrb : Rrb α) : DecidablePred (Step.Safe rrb)
  | .push _ => inferInstanceAs (Decidable rrb.TakesPush)
  | .slice _ _ => .isTrue trivial

def run (rrb : Rrb α) (steps : List (Step α)) : Option (Rrb α) := steps.foldlM Step.apply rrb

def plainRun (xs : List α) (steps : List (Step α)) : List α := steps.foldl Step.plain xs

/-- Every step of a run meets its condition. -/
def SafeRun : Rrb α → List (Step α) → Prop
  | _, [] => True
  | rrb, step :: rest => step.Safe rrb ∧ ∀ next ∈ step.apply rrb, SafeRun next rest

instance decidableSafeRun : ∀ (rrb : Rrb α) (steps : List (Step α)), Decidable (SafeRun rrb steps)
  | _, [] => .isTrue trivial
  | rrb, step :: rest =>
      have := fun next => decidableSafeRun next rest
      inferInstanceAs (Decidable (step.Safe rrb ∧ ∀ next ∈ step.apply rrb, _))

/-- A list is a sequence: they have the same length and the same element at every index. -/
def Agrees (rrb : Rrb α) (xs : List α) : Prop :=
  rrbCount rrb = xs.length ∧ ∀ i < rrbCount rrb, rrbNth rrb i = some xs[i]?

theorem Rrb.Contains.agrees (contains : rrb.Contains Covers inTree inTail) : Agrees rrb (inTree ++ inTail) :=
  ⟨by rw [rrbCount, contains.cnt, List.length_append], fun i _ => rrbNth_eq covers_admissible contains i⟩

theorem Rrb.Contains.step {step : Step α} (contains : rrb.Contains Covers inTree inTail) (safe : step.Safe rrb) :
    (step.apply rrb).Yields fun rrb' => ∃ inTree' inTail',
      rrb'.Contains Covers inTree' inTail' ∧ inTree' ++ inTail' = step.plain (inTree ++ inTail) := by
  cases step with
  | push elt =>
    refine (contains.push safe elt).mono ?_
    rintro pushed ⟨inTree', inTail', contains', -, same⟩
    exact ⟨inTree', inTail', contains', same⟩
  | slice start stop =>
    refine (rrbSlice_yields covers_admissible contains start stop).mono ?_
    rintro sliced ⟨-, inTree', inTail', contains', -, same⟩
    exact ⟨inTree', inTail', contains', same⟩

theorem Rrb.Contains.run {steps : List (Step α)} (contains : rrb.Contains Covers inTree inTail)
    (safe : SafeRun rrb steps) (k : ℕ) : (Lists.run rrb (steps.take k)).Yields fun rrb' => ∃ inTree' inTail',
      rrb'.Contains Covers inTree' inTail' ∧ inTree' ++ inTail' = plainRun (inTree ++ inTail) (steps.take k) := by
  induction steps generalizing rrb inTree inTail k with
  | nil =>
    rw [List.take_nil]
    exact .some ⟨inTree, inTail, contains, rfl⟩
  | cons step rest ih =>
    cases k with
    | zero => exact .some ⟨inTree, inTail, contains, rfl⟩
    | succ k =>
      obtain ⟨next, done, inTree', inTail', contains', same⟩ := contains.step safe.1
      have rest := ih contains' (safe.2 next done) k
      rw [same] at rest
      rw [List.take_succ_cons, Lists.run, List.foldlM_cons, done]
      exact rest

/-- In a run whose appends all meet their condition, the list is the plain sequence after every step. -/
theorem run_agrees {steps : List (Step α)} (safe : SafeRun rrbCreate steps) (k : ℕ) :
    ∃ rrb, run rrbCreate (steps.take k) = some rrb ∧ Agrees rrb (plainRun [] (steps.take k)) := by
  obtain ⟨rrb, done, inTree, inTail, contains, same⟩ := contains_create.run safe k
  refine ⟨rrb, done, ?_⟩
  have agrees := contains.agrees
  rwa [same] at agrees

/-- Appends behind a short first leaf, of which one finds a full tail. -/
def shortFirstRun : List (Step ℕ) := (List.range 65).map .push ++ [.slice 3 65] ++ (List.range 32).map .push

theorem run_agrees_shortFirst : ∃ rrb, run rrbCreate (shortFirstRun.take 98) = some rrb ∧
    Agrees rrb (plainRun [] (shortFirstRun.take 98)) :=
  run_agrees (by decide +kernel) 98

/-- A slice that leaves eight elements in the last leaf of a full node, and one that ends in the leaf after it: the
eight elements are alone in a node without a size table. The tail is filled again and goes behind them, where the
index of its first element does not lead. -/
def shortLeafRun : List (Step ℕ) :=
  (List.range 1057).map .push ++ [.slice 1016 1057, .slice 0 20] ++ (List.range 21).map .push

private theorem plainRun_pushes (xs elts : List α) : plainRun xs (elts.map .push) = xs ++ elts := by
  induction elts generalizing xs with
  | nil => exact (List.append_nil xs).symm
  | cons elt rest ih =>
    rw [List.map_cons, plainRun, List.foldl_cons]
    exact (ih (xs ++ [elt])).trans (List.append_assoc xs [elt] rest)

private theorem plainRun_append (xs : List α) (steps more : List (Step α)) :
    plainRun xs (steps ++ more) = plainRun (plainRun xs steps) more := List.foldl_append

private theorem shortLeafRun_length : (plainRun [] shortLeafRun).length = 41 := by
  rw [shortLeafRun, plainRun_append, plainRun_append, plainRun_pushes, plainRun_pushes]
  simp [plainRun, Step.plain]

theorem run_loses : ¬∀ (steps : List (Step ℕ)) (k : ℕ), ∃ rrb, run rrbCreate (steps.take k) = some rrb ∧
    Agrees rrb (plainRun [] (steps.take k)) := by
  intro claimed
  obtain ⟨rrb, done, count, elements⟩ := claimed shortLeafRun shortLeafRun.length
  rw [List.take_length] at done count elements
  have missing : (run rrbCreate shortLeafRun).bind (rrbNth · 8) = some none := by decide +kernel
  have length := shortLeafRun_length
  have inside : 8 < rrbCount rrb := by omega
  rw [done, Option.bind_some, elements 8 inside, Option.some.injEq, List.getElem?_eq_none_iff] at missing
  omega

end Owl.Lists
