import Owl.Model.Lists.Interface
import Owl.Model.Runtime.Opcodes
import Owl.Proofs.Runtime.Handlers
import Owl.Soundness.Slices

/-! # Indices and their words

An index has the 61 bits of an integer term. The tree takes its lowest 32 bits and the tuple its lowest 8, and
both compare what is left with the size.
-/

namespace Owl.Lists

open Owl.Runtime

variable {list : Rrb Term} {inTree inTail : List Term} {World : Type}

/-- The index that a term stands for. -/
def indexOf (term : Term) : ℕ := (intOf term).toNat

/-- The element at an index, nil behind the last one. -/
def entry (elements : List Term) (index : ℕ) : Term := (elements[index]?).getD OWL_NIL

private theorem owlListNth_eq (contains : list.Contains Covers inTree inTail) (index : Term) :
    owlListNth list index = some (
      if entry (inTree ++ inTail) (u32 (indexOf index)) = 0 then OWL_NIL
      else entry (inTree ++ inTail) (u32 (indexOf index))) := by
  rw [owlListNth, rrbNth_eq covers_admissible contains, entry, indexOf]
  cases (inTree ++ inTail)[u32 (intOf index).toNat]? with
  | none => rfl
  | some elem =>
    change (if elem = 0 then _ else _) = some (if elem = 0 then _ else _)
    split <;> rfl

/-- An index that the word of the tree keeps, or an end of the list on both sides. -/
def NthKept (elements : List Term) (index : Term) : Prop :=
  if indexOf index < 2 ^ 32 then entry elements (indexOf index) ≠ 0
  else entry elements (u32 (indexOf index)) = OWL_NIL ∨ entry elements (u32 (indexOf index)) = 0

private theorem owlListNth_iff (contains : list.Contains Covers inTree inTail) (index : Term) :
    owlListNth list index = some (entry (inTree ++ inTail) (indexOf index)) ↔ NthKept (inTree ++ inTail) index := by
  have nil : OWL_NIL ≠ 0 := by decide
  rw [owlListNth_eq contains, Option.some.injEq, NthKept]
  by_cases word : indexOf index < 2 ^ 32
  · rw [if_pos word, u32_of_lt word]
    split
    · next zero => simp [zero, nil]
    · next present => simp [present]
  · have length := contains.cnt ▸ contains.word
    have behind : entry (inTree ++ inTail) (indexOf index) = OWL_NIL := by
      rw [entry, List.getElem?_eq_none]
      · rfl
      · rw [List.length_append]
        omega
    rw [if_neg word, behind]
    split
    · next zero => simp [zero]
    · next present => simp [present]

/-- The slice holds the elements of a window of the list. -/
def IsWindow (elements : List Term) (start stop : ℕ) (sliced : Rrb Term) : Prop :=
  rrbCount sliced = min stop elements.length - start ∧
    ∀ j < rrbCount sliced, rrbNth sliced j = some elements[start + j]?

/-- A window that the words of the tree keep, or one that is empty in both readings. -/
def WindowKept (count start stop : ℕ) : Prop :=
  (min stop count ≤ start ∧ min (u32 stop) count ≤ u32 start) ∨
    (u32 start = start ∧ min (u32 stop) count = min stop count)

private theorem owlListSlice_iff (contains : list.Contains Covers inTree inTail) (start stop : Term) :
    (∃ sliced, owlListSlice list start stop = some sliced ∧
        IsWindow (inTree ++ inTail) (indexOf start) (indexOf stop) sliced) ↔
      WindowKept (inTree ++ inTail).length (indexOf start) (indexOf stop) := by
  obtain ⟨sliced, done, -, inTree', inTail', slicedContains, -, same⟩ :=
    rrbSlice_yields covers_admissible contains (u32 (indexOf start)) (u32 (indexOf stop))
  have word : (inTree ++ inTail).length < 2 ^ 32 := by
    rw [List.length_append]
    exact contains.cnt ▸ contains.word
  have count : rrbCount sliced = min (u32 (indexOf stop)) (inTree ++ inTail).length - u32 (indexOf start) := by
    rw [rrbCount, slicedContains.cnt, ← List.length_append, same, List.length_drop, List.length_take]
  constructor
  · rintro ⟨_, same', window, -⟩
    cases done.symm.trans same'
    rw [count] at window
    by_cases empty : min (indexOf stop) (inTree ++ inTail).length ≤ indexOf start
    · exact .inl ⟨empty, by omega⟩
    · have kept : u32 (indexOf start) = indexOf start := u32_of_lt (by omega)
      exact .inr ⟨kept, by omega⟩
  · intro kept
    refine ⟨sliced, done, ?_, ?_⟩
    · rw [count]
      rcases kept with kept | kept <;> omega
    · intro j inside
      rw [count] at inside
      have kept := kept.resolve_left (by omega)
      rw [rrbNth_eq covers_admissible slicedContains, same, List.getElem?_drop, List.getElem?_take, if_pos (by omega),
        kept.1]

/-- The element of a tuple at an index, nil behind the last one. -/
def tupleEntry (vm : Vm World) (tuple : Term) (index : ℕ) : Term :=
  if index < vm.heap.mem.readNat (extractPtr tuple) 8 then vm.heap.readTerm (extractPtr tuple + 8 * (index + 1))
  else OWL_NIL

/-- What `op_tuple_nth` puts into its register. -/
def tupleElem (tuple index : Term) : Exec World Term := tupleNth tuple (intOf index).toUInt8

theorem opTupleNth_eq : (opTupleNth : Exec World Unit) = (do
    let reg ← nextByte
    let tuple ← nextByte
    let indexReg ← nextByte
    let index ← getVar indexReg
    let elem ← tupleElem (← getVar tuple) index
    setReg reg elem
    advance 1) := rfl

/-- An index that the byte keeps, or the same element at both. -/
def TupleKept (vm : Vm World) (tuple index : Term) : Prop :=
  indexOf index < 2 ^ 8 ∨ tupleEntry vm tuple (indexOf index % 2 ^ 8) = tupleEntry vm tuple (indexOf index)

private theorem tupleElem_iff (vm : Vm World) (tuple index : Term) :
    tupleElem tuple index vm = .ok (tupleEntry vm tuple (indexOf index), vm) ↔ TupleKept vm tuple index := by
  have reduced : (intOf index).toUInt8.toNat = indexOf index % 2 ^ 8 := UInt64.toNat_toUInt8 _
  have reads : tupleElem tuple index vm = .ok (tupleEntry vm tuple (indexOf index % 2 ^ 8), vm) := by
    rw [tupleElem, tupleNth, StateExcept.get_bind, reduced, tupleEntry]
    split <;> rfl
  rw [reads, Except.ok.injEq, Prod.mk.injEq, and_iff_left rfl, TupleKept]
  constructor
  · exact .inr
  · rintro (small | same)
    · rw [Nat.mod_eq_of_lt small]
    · exact same

/-- Indexing takes the element at the index of a term, and slicing the window between two, exactly when the
words that the functions take leave them in place. -/
theorem indexing_iff (contains : list.Contains Covers inTree inTail) (vm : Vm World)
    (tuple index start stop : Term) :
    (owlListNth list index = some (entry (inTree ++ inTail) (indexOf index)) ↔ NthKept (inTree ++ inTail) index) ∧
      (tupleElem tuple index vm = .ok (tupleEntry vm tuple (indexOf index), vm) ↔ TupleKept vm tuple index) ∧
      ((∃ sliced, owlListSlice list start stop = some sliced ∧
          IsWindow (inTree ++ inTail) (indexOf start) (indexOf stop) sliced) ↔
        WindowKept (inTree ++ inTail).length (indexOf start) (indexOf stop)) :=
  ⟨owlListNth_iff contains index, tupleElem_iff vm tuple index, owlListSlice_iff contains start stop⟩

/-- A list of one element. -/
def oneRrb : Rrb Term where
  cnt := 1
  height := 0
  tailLen := 1
  tail := .leaf [intFrom 7]
  root := .null

private theorem contains_oneRrb : oneRrb.Contains Covers [] [intFrom 7] where
  tail := rfl
  tailLen := rfl
  cnt := rfl
  slots := by decide
  word := by decide
  low := by decide
  tree := .inl ⟨rfl, rfl⟩

/-- A list with a size table that covers more than its leaves hold. -/
def coveringRrb : Rrb Term where
  cnt := 4
  height := 1
  tailLen := 1
  tail := .leaf [intFrom 9]
  root := .internal (some [2, 4]) [.leaf [intFrom 7, OWL_NIL], .leaf [intFrom 8]]

private theorem contains_coveringRrb :
    coveringRrb.Contains Covers [intFrom 7, OWL_NIL, intFrom 8] [intFrom 9] where
  tail := rfl
  tailLen := rfl
  cnt := rfl
  slots := by decide
  word := by decide
  low := by decide
  tree := by
    refine .inr ⟨⟨by decide, ?_, ?_, 4, rfl, by decide, by decide⟩, rfl⟩
    · intro node member
      obtain rfl | rfl : node = .leaf [intFrom 7, OWL_NIL] ∨ node = .leaf [intFrom 8] := by simpa using member
      · exact (by decide : 1 ≤ 2 ∧ 2 ≤ RRB_BRANCHING)
      · exact (by decide : 1 ≤ 1 ∧ 1 ≤ RRB_BRANCHING)
    · intro i inner
      have inside : i + 1 < 2 := inner
      obtain rfl : i = 0 := by omega
      rfl

/-- A machine with the tuple of 7 and nil at address 8. -/
def tupleVm : Vm Unit :=
  let vm := Vm.new () (fun _ => 0) 0
  { vm with heap := ((vm.heap.writeTerm 8 2).writeTerm 16 (intFrom 7)).writeTerm 24 OWL_NIL }

/-- The index `2 ^ 32 + 1` is behind the end, where its lowest bits find nil, and a slice may end at `2 ^ 32 + 4`. -/
theorem indexing_iff_wrapped :
    owlListNth coveringRrb (intFrom 4294967297) = some OWL_NIL ∧
      tupleElem (tagAs 8 .tuple) (intFrom 4294967297) tupleVm = .ok (OWL_NIL, tupleVm) ∧
      ∃ sliced, owlListSlice coveringRrb (intFrom 1) (intFrom 4294967300) = some sliced ∧
        IsWindow [intFrom 7, OWL_NIL, intFrom 8, intFrom 9] 1 4294967300 sliced := by
  obtain ⟨nth, tuple, sliced⟩ := indexing_iff contains_coveringRrb tupleVm (tagAs 8 .tuple) (intFrom 4294967297)
    (intFrom 1) (intFrom 4294967300)
  have behind : tupleEntry tupleVm (tagAs 8 .tuple) (indexOf (intFrom 4294967297)) = OWL_NIL := by decide
  have kept : NthKept [intFrom 7, OWL_NIL, intFrom 8, intFrom 9] (intFrom 4294967297) := by
    rw [NthKept, if_neg (by decide)]
    exact .inl (by decide)
  exact ⟨nth.mpr kept, behind ▸ tuple.mpr (.inr (by decide)), sliced.mpr (.inr (by decide))⟩

/-- The index `2 ^ 32` is behind the list and finds its first element. -/
theorem owlListNth_wraps :
    ¬∀ (list : Rrb Term) (inTree inTail : List Term), list.Contains Covers inTree inTail → ∀ index : Term,
      owlListNth list index = some (entry (inTree ++ inTail) (indexOf index)) := by
  intro claimed
  have wrong := claimed oneRrb [] [intFrom 7] contains_oneRrb (intFrom 4294967296)
  exact absurd wrong (by decide)

end Owl.Lists
