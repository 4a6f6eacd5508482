import Owl.Proofs.Lists.Stocked
import Owl.Soundness.Appends
import Owl.Soundness.Slices

/-! # The empty list is canonical

Every operation that makes a head gives it a tail with elements: the pushed element, the tail of an operand, or
what a slice leaves. The count of the head is a word. Where the counts of the operands add up to the size of a word
the new list has a head of its own and no elements.
-/

namespace Owl.Lists

open Option (Ensures)

variable {α : Type} {behind : Node α} {list left right : RrbPtr α} {rrb : Rrb α} {inTree inTail : List α}

/-- A push, a concatenation or a slice, with its arguments. -/
inductive Operation (α : Type) where
  | push (list : RrbPtr α) (elt : α)
  | concat (left right : RrbPtr α)
  | slice (list : RrbPtr α) (start stop : ℕ)

namespace Operation

def operands : Operation α → List (RrbPtr α)
  | push list _ | slice list _ _ => [list]
  | concat left right => [left, right]

def run (behind : Node α) : Operation α → Option (RrbPtr α)
  | push list elt => rrbPushAt behind list elt
  | concat left right => rrbConcat behind left right
  | slice list start stop => rrbSliceAt list start stop

/-- What the operation adds up for the count of its result; a slice adds nothing up. -/
def total : Operation α → ℕ
  | push list _ => rrbCount list.head + 1
  | concat left right => rrbCount left.head + rrbCount right.head
  | slice _ _ _ => 0

end Operation

/-- A tail that is neither `NULL` nor static, with as many elements as the head says. -/
structure Rrb.OwnTail (rrb : Rrb α) : Prop where
  leaf : ∃ child, rrb.tail = .leaf child ∧ child.length = rrb.tailLen
  present : rrb.tail ≠ .null
  own : rrb.tail ≠ emptyLeaf
  filled : 1 ≤ rrb.tailLen

theorem Rrb.OwnTail.of_leaf {child : List α} (tail : rrb.tail = .leaf child) (len : child.length = rrb.tailLen)
    (filled : child ≠ []) : rrb.OwnTail where
  leaf := ⟨child, tail, len⟩
  present := by simp [tail]
  own := by simpa [tail, emptyLeaf] using filled
  filled := by
    rw [← len]
    exact List.length_pos_of_ne_nil filled

theorem Rrb.OwnTail.stocked (own : rrb.OwnTail) : rrb.tail.Stocked := by
  obtain ⟨child, tail, len⟩ := own.leaf
  have filled := own.filled
  rw [tail]
  exact .leaf (List.ne_nil_of_length_pos (by omega))

namespace RrbPtr

/-- An operand: the static empty list, or a list with elements, a well-formed tree and a tail of its own. -/
def WellFormed : RrbPtr α → Prop
  | emptyRrb => True
  | allocated rrb => 0 < rrb.cnt ∧ rrb.OwnTail ∧ ∃ inTree inTail, rrb.Contains Exact inTree inTail

/-- The static empty list, or a list with elements and a tail of its own. -/
def Canonical : RrbPtr α → Prop
  | emptyRrb => True
  | allocated rrb => 0 < rrb.cnt ∧ rrb.OwnTail

/-- The address of a list says whether it has elements, and the collector leaves static memory alone. -/
structure IsCanonical (list : RrbPtr α) : Prop where
  canonical : list.Canonical
  isEmpty : owlListIsEmpty list ↔ rrbCount list.head = 0
  forwards : ∀ node, copyForwards list node → node ≠ emptyLeaf

end RrbPtr

/-- A head with the count of a total, a tail of its own and a tree without empty leaves. -/
structure Made (total : ℕ) (rrb : Rrb α) : Prop where
  cnt : rrb.cnt = u32 total
  tail : rrb.OwnTail
  root : rrb.root.Stocked

theorem Made.isCanonical_iff {total : ℕ} (made : Made total rrb) :
    (RrbPtr.allocated rrb).IsCanonical ↔ u32 total ≠ 0 := by
  rw [← made.cnt]
  constructor
  · exact fun canonical => canonical.canonical.1.ne'
  · refine fun some' => ⟨⟨Nat.pos_of_ne_zero some', made.tail⟩, ?_, ?_⟩
    · simpa [owlListIsEmpty, rrbCount, RrbPtr.head] using some'
    · rintro node ⟨-, ⟨-, inTree⟩ | inTail⟩
      · exact (Node.Stocked.forwards inTree made.root).ne_emptyLeaf
      · exact (Node.Stocked.forwards inTail made.tail.stocked).ne_emptyLeaf

private theorem isCanonical_emptyRrb : (RrbPtr.emptyRrb : RrbPtr α).IsCanonical where
  canonical := trivial
  isEmpty := by simp [owlListIsEmpty, rrbCount, RrbPtr.head, rrbCreate]
  forwards := fun node copied => absurd rfl copied.1

theorem Rrb.Contains.root_stocked {fits : ℕ → ℕ → Prop} (contains : rrb.Contains fits inTree inTail) :
    rrb.root.Stocked := by
  obtain ⟨-, absent⟩ | ⟨shaped, -⟩ := contains.tree
  · rw [absent]
    exact .null
  · exact .of_shaped shaped

/-- A list with elements in its tail has been made. -/
theorem Rrb.Contains.made {fits : ℕ → ℕ → Prop} (contains : rrb.Contains fits inTree inTail) (filled : inTail ≠ []) :
    Made rrb.cnt rrb where
  cnt := (u32_of_lt contains.word).symm
  tail := .of_leaf contains.tail contains.tailLen.symm filled
  root := contains.root_stocked

namespace RrbPtr.WellFormed

/-- The head of an operand with elements. -/
theorem exists_contains (wellFormed : list.WellFormed) (some' : list.head.cnt ≠ 0) :
    ∃ inTree inTail, list = .allocated list.head ∧ list.head.Contains Exact inTree inTail ∧ inTail ≠ [] := by
  cases list with
  | emptyRrb => exact absurd rfl some'
  | allocated rrb =>
    obtain ⟨_, own, inTree, inTail, contains⟩ := wellFormed
    refine ⟨inTree, inTail, rfl, contains, List.ne_nil_of_length_pos ?_⟩
    have filled := own.filled
    rwa [contains.tailLen] at filled

private theorem isCanonical (wellFormed : list.WellFormed) : list.IsCanonical := by
  cases list with
  | emptyRrb => exact isCanonical_emptyRrb
  | allocated rrb =>
    obtain ⟨inTree, inTail, -, contains, filled⟩ := wellFormed.exists_contains wellFormed.1.ne'
    refine (contains.made filled).isCanonical_iff.mpr ?_
    rw [u32_of_lt contains.word]
    exact wellFormed.1.ne'

theorem count_lt (wellFormed : list.WellFormed) : list.head.cnt < 2 ^ 32 := by
  cases list with
  | emptyRrb => exact Nat.two_pow_pos 32
  | allocated rrb =>
    obtain ⟨_, _, _, _, contains⟩ := wellFormed
    exact contains.word

end RrbPtr.WellFormed

theorem leafNodeCreate_ensures (len : ℕ) (child : List α) :
    (leafNodeCreate len child).Ensures fun node => node = .leaf child ∧ child.length = len :=
  .ite (fun length => .some ⟨rfl, length⟩) fun _ => .none

theorem elements_ensures {node : Node α} {child : List α} (leaf : node = .leaf child) :
    node.elements.Ensures (· = child) := by
  rw [leaf]
  exact .some rfl

/-- A full tail goes into the tree, and the head gets another tail. -/
theorem pushDownTail_made {newRrb : Rrb α} {newTail : List α} {total : ℕ} (root : rrb.root.Stocked)
    (tail : newRrb.tail.Stocked) (cnt : newRrb.cnt = u32 total) (len : newTail.length = newRrb.tailLen)
    (filled : newTail ≠ []) : (pushDownTail behind rrb newRrb (.leaf newTail)).Ensures (Made total) := by
  refine (pushDownTail_stocked root tail).mono ?_
  rintro pushed ⟨pushedRoot, pushedCnt, pushedLen, pushedTail⟩
  exact ⟨pushedCnt.trans cnt, .of_leaf pushedTail (len.trans pushedLen.symm) filled, pushedRoot⟩

private theorem rrbPush_made {fits : ℕ → ℕ → Prop} (contains : rrb.Contains fits inTree inTail) (elt : α) :
    (rrbPush behind rrb elt).Ensures (Made (rrb.cnt + 1)) := by
  refine .ite (fun _ => ?_) fun full => ?_
  · refine .bind (elements_ensures contains.tail) ?_
    rintro _ rfl
    refine .bind (leafNodeCreate_ensures _ _) ?_
    rintro _ ⟨rfl, length⟩
    exact .some ⟨rfl, .of_leaf rfl length (by simp), contains.root_stocked⟩
  · have filled : inTail ≠ [] := by
      rintro rfl
      exact full (contains.tailLen ▸ (by decide : 0 < RRB_BRANCHING))
    exact pushDownTail_made contains.root_stocked (contains.tail ▸ .leaf filled) rfl rfl (List.cons_ne_nil _ _)

section Concat

variable {left right : Rrb α} {inTree' inTail' : List α} {fits : ℕ → ℕ → Prop}
  (leftContains : left.Contains fits inTree inTail) (leftFilled : inTail ≠ [])
  (rightContains : right.Contains fits inTree' inTail') (rightFilled : inTail' ≠ [])

include leftContains leftFilled rightContains rightFilled

private theorem concatTails_made : (concatTails behind left right).Ensures (Made (left.cnt + right.cnt)) := by
  have leftTail : left.tail.Stocked := leftContains.tail ▸ .leaf leftFilled
  rw [concatTails, rightContains.tail]
  refine .ite (fun _ => ?_) fun _ => .ite (fun _ => ?_) fun many => ?_
  · exact pushDownTail_made leftContains.root_stocked leftTail rfl rightContains.tailLen.symm rightFilled
  · refine .bind (elements_ensures leftContains.tail) ?_
    rintro _ rfl
    refine .some ⟨rfl, .of_leaf rfl ?_ (by simp [leftFilled]), leftContains.root_stocked⟩
    rw [List.length_append, leftContains.tailLen, rightContains.tailLen]
  · refine .bind (elements_ensures leftContains.tail) ?_
    rintro _ rfl
    refine .bind (elements_ensures rfl) ?_
    rintro _ rfl
    refine .bind (leafNodeCreate_ensures _ _) ?_
    rintro _ ⟨rfl, pushedLength⟩
    refine .bind (leafNodeCreate_ensures _ _) ?_
    rintro _ ⟨rfl, length⟩
    have slots : left.tailLen ≤ RRB_BRANCHING := leftContains.tailLen ▸ leftContains.slots
    have slots' : right.tailLen ≤ RRB_BRANCHING := rightContains.tailLen ▸ rightContains.slots
    have branching : RRB_BRANCHING = 32 := rfl
    have cut : u32Sub RRB_BRANCHING left.tailLen = RRB_BRANCHING - left.tailLen := u32Sub_of_le slots (by decide)
    have rest : u32Sub right.tailLen (RRB_BRANCHING - left.tailLen) = right.tailLen - (RRB_BRANCHING - left.tailLen) :=
      u32Sub_of_le (by omega) (by omega)
    refine pushDownTail_made leftContains.root_stocked (.leaf (List.ne_nil_of_length_pos (by omega))) rfl length ?_
    exact List.ne_nil_of_length_pos (by rw [length, cut, rest]; omega)

private theorem concatTrees_made : (concatTrees behind left right).Ensures (Made (left.cnt + right.cnt)) := by
  refine .bind (pushDownTail_stocked leftContains.root_stocked (leftContains.tail ▸ .leaf leftFilled)) ?_
  rintro pushed ⟨pushedRoot, pushedCnt, -, -⟩
  refine .bind (concatRoots_stocked pushedRoot rightContains.root_stocked) ?_
  rintro ⟨root, height⟩ stocked
  exact .some ⟨congrArg (fun cnt => u32 (cnt + right.cnt)) pushedCnt,
    .of_leaf rightContains.tail rightContains.tailLen.symm rightFilled, stocked⟩

end Concat

theorem RrbPtr.WellFormed.of_contains (contains : rrb.Contains Exact inTree inTail) (filled : inTail ≠ []) :
    (RrbPtr.allocated rrb).WellFormed := by
  have positive := List.length_pos_of_ne_nil filled
  have cnt := contains.cnt
  exact ⟨by omega, (contains.made filled).tail, inTree, inTail, contains⟩

private theorem sliceRightAt_wellFormed (wellFormed : list.WellFormed) (right : ℕ) :
    (sliceRightAt list right).Ensures RrbPtr.WellFormed := by
  refine .ite (fun _ => .some trivial) fun positive => .ite (fun inside => .map ?_) fun _ => .some wellFormed
  obtain ⟨inTree, inTail, -, contains, filled⟩ := wellFormed.exists_contains (by omega)
  refine (Ensures.of_yields (sliceRight_yields exact_admissible contains positive)).mono ?_
  rintro cut ⟨inTree', inTail', cutContains, cutFilled, -⟩
  exact .of_contains cutContains (cutFilled filled)

private theorem sliceLeftAt_isCanonical (wellFormed : list.WellFormed) (left : ℕ) :
    (sliceLeftAt list left).Ensures RrbPtr.IsCanonical := by
  refine .ite (fun _ => .some isCanonical_emptyRrb) fun inside => .map ?_
  have inside : left < list.head.cnt := Nat.lt_of_not_le inside
  obtain ⟨inTree, inTail, -, contains, filled⟩ := wellFormed.exists_contains (by omega)
  refine (Ensures.of_yields (sliceLeft_yields (contains.covers exact_admissible) inside)).mono ?_
  rintro cut ⟨inTree', inTail', cutContains, cutFilled, -⟩
  have positive := List.length_pos_of_ne_nil (cutFilled filled)
  refine (cutContains.made (cutFilled filled)).isCanonical_iff.mpr ?_
  rw [u32_of_lt cutContains.word, cutContains.cnt]
  omega

private theorem rrbConcat_isCanonical (leftFormed : left.WellFormed) (rightFormed : right.WellFormed) :
    (rrbConcat behind left right).Ensures fun joined =>
      joined.IsCanonical ↔ left.head.cnt + right.head.cnt ≠ 2 ^ 32 := by
  have leftWord := leftFormed.count_lt
  have rightWord := rightFormed.count_lt
  refine .ite (fun none => .some ?_) fun leftSome => .ite (fun none => .some ?_) fun rightSome => ?_
  · exact iff_of_true rightFormed.isCanonical (by omega)
  · exact iff_of_true leftFormed.isCanonical (by omega)
  · obtain ⟨inTree, inTail, -, contains, filled⟩ := leftFormed.exists_contains leftSome
    obtain ⟨inTree', inTail', -, contains', filled'⟩ := rightFormed.exists_contains rightSome
    have wraps : u32 (left.head.cnt + right.head.cnt) ≠ 0 ↔ left.head.cnt + right.head.cnt ≠ 2 ^ 32 := by
      rw [u32]
      omega
    have made (joined : Rrb α) (made : Made (left.head.cnt + right.head.cnt) joined) :
        (RrbPtr.allocated joined).IsCanonical ↔ left.head.cnt + right.head.cnt ≠ 2 ^ 32 :=
      made.isCanonical_iff.trans wraps
    split
    · exact .map ((concatTails_made contains filled contains' filled').mono made)
    · exact .map ((concatTrees_made contains filled contains' filled').mono made)

private theorem rrbPushAt_isCanonical (wellFormed : list.WellFormed) (elt : α) :
    (rrbPushAt behind list elt).Ensures fun pushed => pushed.IsCanonical ↔ list.head.cnt + 1 ≠ 2 ^ 32 := by
  have word := wellFormed.count_lt
  have wraps : u32 (list.head.cnt + 1) ≠ 0 ↔ list.head.cnt + 1 ≠ 2 ^ 32 := by
    rw [u32]
    omega
  have pushed : (rrbPush behind list.head elt).Ensures (Made (list.head.cnt + 1)) := by
    cases list with
    | emptyRrb => exact rrbPush_made (contains_create : rrbCreate.Contains Exact [] []) elt
    | allocated rrb =>
      obtain ⟨_, _, _, _, contains⟩ := wellFormed
      exact rrbPush_made contains elt
  exact .map (pushed.mono fun rrb made => made.isCanonical_iff.trans wraps)

/-- The result of an operation is canonical where the counts do not add up to the size of a word. -/
theorem empty_canonical_iff {op : Operation α} (operands : ∀ list ∈ op.operands, list.WellFormed)
    (done : op.run behind = some list) : list.IsCanonical ↔ op.total ≠ 2 ^ 32 := by
  cases op with
  | push operand elt => exact rrbPushAt_isCanonical (operands _ (by simp [Operation.operands])) elt list done
  | concat left right =>
    have leftFormed := operands left (by simp [Operation.operands])
    have rightFormed := operands right (by simp [Operation.operands])
    exact rrbConcat_isCanonical leftFormed rightFormed list done
  | slice operand start stop =>
    refine iff_of_true ?_ (by decide : 0 ≠ 2 ^ 32)
    have wellFormed := operands operand (by simp [Operation.operands])
    exact (sliceRightAt_wellFormed wellFormed stop).bind (fun cut formed => sliceLeftAt_isCanonical formed start) list done

/-- A list with one element in its tail. -/
def oneTail : Rrb ℕ where
  cnt := 1
  height := 0
  tailLen := 1
  tail := .leaf [10]
  root := .null

private theorem contains_oneTail : oneTail.Contains Exact [] [10] where
  tail := rfl
  tailLen := rfl
  cnt := rfl
  slots := by decide
  word := by decide
  low := by decide
  tree := .inl ⟨rfl, rfl⟩

/-- Two tails that fit one leaf. -/
theorem empty_canonical_iff_tails :
    (RrbPtr.allocated { sizedRrb with cnt := 6, tailLen := 2, tail := .leaf [9, 10] }).IsCanonical ↔
      (Operation.concat (.allocated sizedRrb) (.allocated oneTail)).total ≠ 2 ^ 32 := by
  refine @empty_canonical_iff ℕ .null _ (.concat (.allocated sizedRrb) (.allocated oneTail)) ?_ rfl
  intro list member
  obtain rfl | rfl : list = .allocated sizedRrb ∨ list = .allocated oneTail := by
    simpa [Operation.operands] using member
  · exact .of_contains contains_sizedRrb (List.cons_ne_nil _ _)
  · exact .of_contains contains_oneTail (List.cons_ne_nil _ _)

/-- A full tree of a height. -/
def fullTree : ℕ → Node ℕ
  | 0 => .leaf (List.replicate RRB_BRANCHING 0)
  | height + 1 => .internal none (List.replicate RRB_BRANCHING (fullTree height))

/-- A tree one level above a height, of which the last leaf is missing. -/
def shortTree : ℕ → Node ℕ
  | 0 => .internal none (List.replicate RRB_MASK (fullTree 0))
  | height + 1 => .internal none (List.replicate RRB_MASK (fullTree (height + 1)) ++ [shortTree height])

theorem replicate_dense {node : Node α} {height n : ℕ} (dense : node.Dense height)
    (full : node.size height = RRB_BRANCHING ^ (height + 1)) (some' : 1 ≤ n) (few : n ≤ RRB_BRANCHING) :
    (Node.internal none (List.replicate n node)).Dense (height + 1) ∧
      (Node.internal none (List.replicate n node)).size (height + 1) = n * RRB_BRANCHING ^ (height + 1) := by
  have all : ∀ other ∈ List.replicate n node, other = node := fun other => List.eq_of_mem_replicate
  have length : (List.replicate n node).length = n := List.length_replicate
  constructor
  · refine ⟨by omega, fun other member => all other member ▸ dense, fun other member => ?_⟩
    rw [all other (List.dropLast_subset _ member), full]
  · rw [← Node.before_size, length]
    exact Blocks.before_eq_mul (fun other member => all other (List.mem_of_mem_take member) ▸ full) length.ge

theorem fullTree_dense (height : ℕ) :
    (fullTree height).Dense height ∧ (fullTree height).size height = RRB_BRANCHING ^ (height + 1) := by
  induction height with
  | zero => exact ⟨show 1 ≤ 32 ∧ 32 ≤ RRB_BRANCHING by decide, rfl⟩
  | succ height ih =>
    obtain ⟨dense, size⟩ := replicate_dense ih.1 ih.2 (by decide : 1 ≤ RRB_BRANCHING) le_rfl
    exact ⟨dense, size.trans (Nat.pow_succ').symm⟩

/-- Full nodes and one more behind them. -/
private theorem replicate_snoc {node last : Node α} {height n : ℕ} (dense : node.Dense height)
    (full : node.size height = RRB_BRANCHING ^ (height + 1)) (lastDense : last.Dense height) (some' : 1 ≤ n)
    (few : n < RRB_BRANCHING) :
    (Node.internal none (List.replicate n node ++ [last])).Dense (height + 1) ∧
      (Node.internal none (List.replicate n node ++ [last])).size (height + 1) =
        n * RRB_BRANCHING ^ (height + 1) + last.size height := by
  obtain ⟨frontDense, frontSize⟩ := replicate_dense dense full some' few.le
  refine ⟨frontDense.snoc (by rwa [List.length_replicate]) ?_ lastDense, ?_⟩
  · exact fun other member => List.eq_of_mem_replicate member ▸ full
  · rw [← frontSize, Node.size, toList_snoc, List.length_append]
    rfl

private theorem shortTree_dense (height : ℕ) :
    (shortTree height).Dense (height + 1) ∧
      (shortTree height).size (height + 1) + RRB_BRANCHING = RRB_BRANCHING ^ (height + 2) := by
  induction height with
  | zero =>
    obtain ⟨full, fullSize⟩ := fullTree_dense 0
    obtain ⟨dense, size⟩ := replicate_dense full fullSize (by decide : 1 ≤ RRB_MASK) (by decide)
    refine ⟨dense, ?_⟩
    rw [shortTree, size]
    rfl
  | succ height ih =>
    obtain ⟨full, fullSize⟩ := fullTree_dense (height + 1)
    obtain ⟨dense, size⟩ := replicate_snoc full fullSize ih.1 (by decide : 1 ≤ RRB_MASK) (by decide)
    refine ⟨dense, ?_⟩
    rw [shortTree, size, Nat.add_assoc, ih.2, ← Nat.succ_mul, Nat.pow_succ' (n := height + 2)]
    rfl

/-- Four trees one level below the greatest height, of which the last one misses a leaf. -/
def greatestTree : Node ℕ := .internal none (List.replicate 3 (fullTree 5) ++ [shortTree 4])

private theorem greatestTree_dense : greatestTree.Dense 6 ∧ greatestTree.size 6 = 2 ^ 32 - 32 := by
  have power : RRB_BRANCHING ^ (5 + 1) = 2 ^ 30 := by decide
  have branching : RRB_BRANCHING = 32 := rfl
  obtain ⟨full, fullSize⟩ := fullTree_dense 5
  obtain ⟨short, shortSize⟩ := shortTree_dense 4
  obtain ⟨dense, size⟩ := replicate_snoc full fullSize short (by decide : 1 ≤ 3) (by decide)
  refine ⟨dense, size.trans ?_⟩
  simp only [Nat.reduceAdd] at power shortSize ⊢
  rw [power] at shortSize ⊢
  omega

/-- A list with one element less than a word can count. -/
def greatestRrb : Rrb ℕ where
  cnt := 2 ^ 32 - 1
  height := 6
  tailLen := 31
  tail := .leaf (List.replicate 31 0)
  root := greatestTree

private theorem contains_greatestRrb : greatestRrb.Contains Exact (greatestTree.toList 6) (List.replicate 31 0) where
  tail := rfl
  tailLen := rfl
  cnt := by
    have size := greatestTree_dense.2
    rw [Node.size] at size
    rw [size]
    rfl
  slots := by decide
  word := by decide
  low := by decide
  tree := .inr ⟨greatestTree_dense.1.shaped, rfl⟩

/-- The push to the greatest list makes a list of its own without elements. -/
theorem empty_canonical_fails : ¬ ∀ (behind : Node ℕ) (op : Operation ℕ) (list : RrbPtr ℕ),
    (∀ operand ∈ op.operands, operand.WellFormed) → op.run behind = some list → list.IsCanonical := by
  intro claimed
  have wellFormed : (RrbPtr.allocated greatestRrb).WellFormed :=
    .of_contains contains_greatestRrb (by decide)
  have room : greatestRrb.tailLen < RRB_BRANCHING := by decide
  obtain ⟨pushed, done⟩ : ∃ pushed, rrbTailPush greatestRrb 1 = some pushed := ⟨_, rfl⟩
  have ran : (Operation.push (.allocated greatestRrb) 1).run .null = some (.allocated pushed) := by
    rw [Operation.run, rrbPushAt, rrbPush, RrbPtr.head, if_pos room, done]
    rfl
  have canonical := claimed .null _ _ (by simpa [Operation.operands] using wellFormed) ran
  exact (rrbPushAt_isCanonical wellFormed 1 _ ran).mp canonical rfl

end Owl.Lists
