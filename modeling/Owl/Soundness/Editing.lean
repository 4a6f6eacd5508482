import Owl.Proofs.Lists.Replacing
import Owl.Soundness.Joining

/-! # Replaced and removed elements

An update replaces one element of a list and copies the way to it. A program of all operations on lists makes the
sequence that the same operations make on plain sequences.
-/

namespace Owl.Lists

open Option (Yields)

variable {α : Type} {rrb : Rrb α} {inTree inTail xs : List α} {index : ℕ}

/-- An update of a list with a well-formed tree replaces one element and keeps the tree well-formed; behind the end
there is nothing to update. -/
private theorem rrbUpdate_replaces (contains : rrb.Contains Exact inTree inTail) (index : ℕ) (elt : α) :
    (rrbCount rrb ≤ index → rrbUpdate rrb index elt = some none) ∧
      (index < rrbCount rrb → ∃ rrb' inTree' inTail', rrbUpdate rrb index elt = some (some (.allocated rrb')) ∧
        rrb'.Contains Exact inTree' inTail' ∧ rrbCount rrb' = rrbCount rrb ∧
          ∀ j < rrbCount rrb, rrbNth rrb' j = if j = index then some (some elt) else rrbNth rrb j) := by
  have cnt := contains.cnt
  refine ⟨fun outside => if_neg (Nat.not_lt.mpr outside), fun inside => ?_⟩
  obtain ⟨list, done, rrb', inTree', inTail', rfl, contains', -, same⟩ :=
    contains.update exact_admissible inside elt
  have count : rrbCount rrb' = rrbCount rrb := by
    rw [rrbCount, rrbCount, contains'.cnt, ← List.length_append, same, List.length_set, List.length_append, cnt]
  refine ⟨rrb', inTree', inTail', done, contains', count, fun j bound => ?_⟩
  rw [rrbNth_eq exact_admissible contains', rrbNth_eq exact_admissible contains, same, List.getElem?_set]
  split
  next here =>
    subst here
    rw [if_pos rfl, if_pos (by rw [List.length_append, ← cnt]; exact bound)]
  next elsewhere => rw [if_neg (fun here => elsewhere here.symm)]

theorem rrbUpdate_replaces_sized :
    (rrbCount sizedRrb ≤ 3 → rrbUpdate sizedRrb 3 0 = some none) ∧
      (3 < rrbCount sizedRrb → ∃ rrb' inTree' inTail', rrbUpdate sizedRrb 3 0 = some (some (.allocated rrb')) ∧
        rrb'.Contains Exact inTree' inTail' ∧ rrbCount rrb' = rrbCount sizedRrb ∧
          ∀ j < rrbCount sizedRrb, rrbNth rrb' j = if j = 3 then some (some 0) else rrbNth sizedRrb j) :=
  rrbUpdate_replaces contains_sizedRrb 3 0

private theorem rrbUpdate_spells (spells : rrb.Spells xs) (inside : index < rrb.cnt) (elt : α) :
    (rrbUpdate rrb index elt).Yields fun list => ∃ rrb', list = some (.allocated rrb') ∧
      rrb'.Spells (xs.set index elt) := by
  obtain ⟨inTree, inTail, contains, filled, rfl⟩ := spells.filled (Nat.ne_zero_of_lt inside)
  refine (contains.update covers_admissible inside elt).mono ?_
  rintro list ⟨rrb', inTree', inTail', rfl, contains', length, same⟩
  refine ⟨rrb', rfl, inTree', inTail', contains', fun none => absurd ?_ filled, same⟩
  rw [none] at length
  exact List.eq_nil_of_length_eq_zero length.symm

private theorem create_spells : (rrbCreate : Rrb α).Spells [] := ⟨[], [], contains_create, fun _ => rfl, rfl⟩

/-- The last element is removed. -/
private theorem rrbPop_spells (spells : rrb.Spells xs) (some' : rrb.cnt ≠ 0) :
    (rrbPop rrb).Yields fun list => list.head.Spells xs.dropLast := by
  obtain ⟨inTree, inTail, contains, filled, rfl⟩ := spells.filled some'
  have cnt := contains.cnt
  have word := contains.word
  have tailLen := contains.tailLen
  have less : u32Sub rrb.cnt 1 = rrb.cnt - 1 := u32Sub_of_le (Nat.one_le_iff_ne_zero.mpr some') word
  have shorter : u32Sub rrb.cnt 1 < 2 ^ 32 := by
    rw [less]
    exact (Nat.sub_le _ _).trans_lt word
  rw [List.dropLast_append_of_ne_nil filled, rrbPop]
  split
  next one =>
    have length := List.length_pos_iff.mpr filled
    have nothing : inTree ++ inTail.dropLast = [] := by
      apply List.eq_nil_of_length_eq_zero
      rw [List.length_append, List.length_dropLast]
      omega
    rw [nothing]
    exact .some create_spells
  next more =>
    dsimp only
    split
    next alone =>
      -- The rightmost leaf of the tree becomes the tail.
      obtain ⟨elt, rfl⟩ := List.length_eq_one_iff.mp (tailLen.symm.trans alone)
      rw [List.length_singleton] at cnt
      obtain ⟨rfl, -⟩ | ⟨shaped, elements⟩ := contains.tree
      · exact absurd (cnt.trans (Nat.zero_add 1)) more
      · have size : u32Sub rrb.cnt 1 = rrb.root.size rrb.height := by
          rw [less, Node.size, elements, cnt, Nat.add_sub_cancel]
        apply Yields.map
        refine (@promoteRightmostLeaf_yields α Covers { rrb with cnt := u32Sub rrb.cnt 1 } covers_admissible contains.low
          shaped size shorter).mono ?_
        rintro rrb' ⟨inTree', inTail', contains', filled', same⟩
        exact ⟨inTree', inTail', contains', fun none => absurd none filled',
          by rw [same, elements, List.dropLast_singleton, List.append_nil]⟩
    next others =>
      have length := List.length_pos_iff.mpr filled
      rw [contains.tail, leafNodeDec, if_neg filled]
      have contains' : Rrb.Contains Covers
          { rrb with
            cnt := u32Sub rrb.cnt 1
            tailLen := u32Sub rrb.tailLen 1
            tail := .leaf inTail.dropLast } inTree inTail.dropLast :=
        { contains with
          tail := rfl
          tailLen := by
            rw [List.length_dropLast, tailLen, u32Sub_of_le length (by omega)]
          cnt := by
            change u32Sub rrb.cnt 1 = _
            rw [List.length_dropLast, less]
            omega
          slots := (List.dropLast_sublist inTail).length_le.trans contains.slots
          word := shorter }
      refine ⟨_, rfl, inTree, inTail.dropLast, contains', fun none => ?_, rfl⟩
      have short := congrArg List.length none
      rw [List.length_dropLast, List.length_nil] at short
      omega

/-- A program of list operations. -/
inductive Editing (α : Type) where
  | empty
  | push (list : Editing α) (elt : α)
  | concat (left right : Editing α)
  | slice (list : Editing α) (start stop : ℕ)
  | update (list : Editing α) (index : ℕ) (elt : α)
  | pop (list : Editing α)
deriving Repr

namespace Editing

/-- The list that a program makes; an update that finds nothing makes none. -/
def make : Editing α → Option (RrbPtr α)
  | empty => some .emptyRrb
  | push list elt => do rrbPushAt .null (← list.make) elt
  | concat left right => do rrbConcat .null (← left.make) (← right.make)
  | slice list start stop => do rrbSliceAt (← list.make) start stop
  | update list index elt => do
      let updated ← rrbUpdate (← list.make).head index elt
      updated
  | pop list => do rrbPop (← list.make).head

/-- The sequence that a program stands for. -/
def elements : Editing α → List α
  | empty => []
  | push list elt => list.elements ++ [elt]
  | concat left right => left.elements ++ right.elements
  | slice list start stop => (list.elements.take stop).drop start
  | update list index elt => list.elements.set index elt
  | pop list => list.elements.dropLast

/-- Every operation of a program meets its condition: an update and a removal need an element. -/
def Safe : Editing α → Prop
  | empty => True
  | push list _ => list.Safe ∧ ∀ made ∈ list.make, made.head.TakesPush
  | concat left right =>
      left.Safe ∧ right.Safe ∧ ∀ made ∈ left.make, ∀ made' ∈ right.make, Joins made.head made'.head
  | slice list _ _ => list.Safe
  | update list index _ => list.Safe ∧ index < list.elements.length
  | pop list => list.Safe ∧ list.elements ≠ []

instance decidableSafe : ∀ editing : Editing α, Decidable editing.Safe
  | empty => .isTrue trivial
  | push list _ =>
      have := decidableSafe list
      inferInstanceAs (Decidable (_ ∧ ∀ made ∈ list.make, made.head.TakesPush))
  | concat left right =>
      have := decidableSafe left
      have := decidableSafe right
      inferInstanceAs (Decidable (_ ∧ _ ∧ ∀ made ∈ left.make, ∀ made' ∈ right.make, Joins made.head made'.head))
  | slice list _ _ => decidableSafe list
  | update list index _ =>
      have := decidableSafe list
      inferInstanceAs (Decidable (_ ∧ index < list.elements.length))
  | pop list =>
      have := decidableSafe list
      inferInstanceAs (Decidable (_ ∧ list.elements ≠ []))

theorem spells {editing : Editing α} (safe : editing.Safe) :
    editing.make.Yields fun list => list.head.Spells editing.elements := by
  induction editing with
  | empty => exact .some create_spells
  | push list elt ih =>
    obtain ⟨made, done, spells⟩ := ih safe.1
    rw [make, done]
    exact rrbPushAt_spells spells (safe.2 made done) elt
  | concat left right ih ih' =>
    obtain ⟨made, done, spells⟩ := ih safe.1
    obtain ⟨made', done', spells'⟩ := ih' safe.2.1
    rw [make, done, done']
    exact rrbConcat_spells spells spells' (safe.2.2 made done made' done')
  | slice list start stop ih =>
    obtain ⟨made, done, spells⟩ := ih safe
    rw [make, done]
    exact rrbSliceAt_spells spells start stop
  | update list index elt ih =>
    obtain ⟨made, done, spells⟩ := ih safe.1
    rw [make, done]
    have updated := rrbUpdate_spells spells (spells.agrees.1 ▸ safe.2) elt
    change Yields (rrbUpdate made.head index elt >>= fun updated => updated) _
    refine .bind updated ?_
    rintro _ ⟨rrb', rfl, spells'⟩
    exact .some spells'
  | pop list ih =>
    obtain ⟨made, done, spells⟩ := ih safe.1
    rw [make, done]
    exact rrbPop_spells spells fun none => safe.2 (spells.nil none)

end Editing

end Owl.Lists
