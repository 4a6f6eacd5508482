import Owl.Model.Lists.Heads
import Owl.Proofs.Lists.Cutting

/-! # Trees without empty leaves

No operation puts an empty leaf into a tree. This needs no more of the trees than that their own leaves have
elements, so it also holds of the trees that `push_down_tail` leaves with a slot that is `NULL`.
-/

namespace Owl.Lists

open Option (Ensures)

variable {α β : Type} {height : ℕ} {node root left centre right : Node α} {child old all : List (Node α)}
  {counts plan : List ℕ}

/-- Every leaf has an element, and every other node has a slot. -/
inductive Node.Stocked : Node α → Prop
  | null : Stocked .null
  | leaf {child : List α} (filled : child ≠ []) : Stocked (.leaf child)
  | internal {sizeTable : Option (List ℕ)} {child : List (Node α)} (filled : child ≠ [])
      (below : ∀ node ∈ child, Stocked node) : Stocked (.internal sizeTable child)

namespace Node.Stocked

theorem of_shaped {fits : ℕ → ℕ → Prop} : ∀ {height} {node : Node α}, node.Shaped fits height → node.Stocked := by
  intro height
  induction height with
  | zero =>
    intro node shaped
    obtain ⟨child, rfl, slots⟩ := shaped.isLeaf
    exact .leaf (List.ne_nil_of_length_pos slots.1)
  | succ height ih =>
    intro node shaped
    obtain ⟨sizeTable, child, rfl, slots, below⟩ := shaped.isInternal
    exact .internal (List.ne_nil_of_length_pos slots.1) fun node member => ih (below node member)

theorem slots {sizeTable : Option (List ℕ)} (stocked : (Node.internal sizeTable child).Stocked) :
    child ≠ [] ∧ ∀ node ∈ child, node.Stocked := by
  cases stocked with
  | internal filled below => exact ⟨filled, below⟩

theorem elements {child : List α} (stocked : (Node.leaf child).Stocked) : child ≠ [] := by
  cases stocked with
  | leaf filled => exact filled

theorem slot (below : ∀ node ∈ child, node.Stocked) (i : ℕ) : (slot child i).Stocked := by
  rw [Lists.slot, List.getD_eq_getElem?_getD]
  cases found : child[i]? with
  | none => exact .null
  | some node => exact below node (List.mem_of_getElem? found)

theorem children (stocked : node.Stocked) : Ensures node.children fun child => child ≠ [] ∧
    ∀ node ∈ child, node.Stocked := by
  cases node with
  | null | leaf => exact .none
  | internal sizeTable child => exact .some stocked.slots

/-- A node that the collector reaches. -/
theorem forwards {below : Node α} (forwards : Forwards node below) (stocked : node.Stocked) : below.Stocked := by
  induction forwards with
  | here => exact stocked
  | child member _ ih => exact ih (stocked.slots.2 _ member)

theorem ne_emptyLeaf (stocked : node.Stocked) : node ≠ emptyLeaf := by
  rintro rfl
  exact stocked.elements rfl

end Node.Stocked

private theorem appendEmpty_stocked (stocked : node.Stocked) (emptyHeight : ℕ) :
    (appendEmpty emptyHeight node).Stocked := by
  induction emptyHeight with
  | zero => exact stocked
  | succ emptyHeight ih => exact .internal (List.cons_ne_nil _ _) (List.forall_mem_singleton.mpr ih)

theorem set_stocked {sizeTable : Option (List ℕ)} (filled : child ≠ []) (below : ∀ node ∈ child, node.Stocked)
    (stocked : node.Stocked) (i : ℕ) : (Node.internal sizeTable (child.set i node)).Stocked := by
  refine .internal (fun none => filled ((List.set_eq_nil_iff _ _).mp none)) ?_
  intro other member
  obtain member | rfl := List.mem_or_eq_of_mem_set member
  · exact below other member
  · exact stocked

private theorem snoc_stocked (below : ∀ node ∈ child, node.Stocked) (stocked : node.Stocked) :
    ∀ other ∈ child ++ [node], other.Stocked :=
  List.forall_mem_append.mpr ⟨below, List.forall_mem_singleton.mpr stocked⟩

private theorem copyFirstK_stocked {tailSize : ℕ} (stocked : node.Stocked) (k height : ℕ) {current : Node α} (index : ℕ)
    (currentStocked : current.Stocked) : (copyFirstK tailSize node k height current index).Ensures Node.Stocked := by
  fun_induction copyFirstK tailSize node k height current index with
  | case1 | case2 => exact .some stocked
  | case3 height child index =>
    refine .bind .self fun childIndex _ => .ite (fun _ => .some ?_) fun _ => .none
    exact set_stocked (by simp) (snoc_stocked currentStocked.slots.2 .null) stocked _
  | case4 height table child =>
    exact .bind .self fun _ _ => .some (.internal (by simp) (snoc_stocked currentStocked.slots.2 stocked))
  | case5 k height child index ih =>
    refine .bind .self fun childIndex _ => .ite (fun _ => .bind (ih childIndex (.slot currentStocked.slots.2 _)) ?_)
      fun _ => .none
    exact fun copied below => .some (set_stocked currentStocked.slots.1 currentStocked.slots.2 below _)
  | case6 k height table child index ih =>
    have copied (before : ℕ) := ih before (.slot currentStocked.slots.2 _)
    have replaced (table' : List ℕ) (copied : Node α) (below : copied.Stocked) :
        (some (Node.internal (some table') (child.set (child.length - 1) copied))).Ensures Node.Stocked :=
      .some (set_stocked currentStocked.slots.1 currentStocked.slots.2 below _)
    refine .bind .self fun table' _ => .ite (fun _ => .bind .self fun before _ => .bind (copied before) ?_)
      fun _ => .bind .self fun before _ => .bind (copied before) ?_
    · exact replaced table'
    · exact replaced table'
  | case7 => exact .none

/-- What pushing a tail down leaves of the new head. -/
structure PushedDown (newRrb : Rrb α) (newTail : Node α) (rrb : Rrb α) : Prop where
  root : rrb.root.Stocked
  cnt : rrb.cnt = newRrb.cnt
  tailLen : rrb.tailLen = newRrb.tailLen
  tail : rrb.tail = newTail

theorem pushDownTail_stocked {behind newTail : Node α} {rrb newRrb : Rrb α} (rootStocked : rrb.root.Stocked)
    (tailStocked : newRrb.tail.Stocked) :
    (pushDownTail behind rrb newRrb newTail).Ensures (PushedDown newRrb newTail) := by
  rw [pushDownTail]
  refine .ite (fun _ => .some ⟨tailStocked, rfl, rfl, rfl⟩) fun _ => ?_
  refine .bind .self fun counts _ => .bind .self fun tailLen _ => .ite (fun _ => .bind .self fun table _ => .some ?_)
    fun _ => ?_
  · refine ⟨.internal (List.cons_ne_nil _ _) ?_, rfl, rfl, rfl⟩
    exact List.forall_mem_cons.mpr ⟨rootStocked, List.forall_mem_singleton.mpr (appendEmpty_stocked tailStocked _)⟩
  · refine .bind (copyFirstK_stocked (appendEmpty_stocked tailStocked _) _ _ _ rootStocked) fun root stocked => ?_
    exact .some ⟨stocked, rfl, rfl, rfl⟩

/-- Every planned node has a slot. -/
def Positive (counts : List ℕ) : Prop := ∀ count ∈ counts, 1 ≤ count

private theorem redistribute_positive {remaining : ℕ} (positive : Positive counts) :
    (redistribute remaining counts).Ensures fun filled => Positive filled.2 ∧ filled.2.length = counts.length := by
  induction counts generalizing remaining with
  | nil => exact .none
  | cons next counts ih =>
    obtain ⟨one, behind⟩ := List.forall_mem_cons.mp positive
    have first : 1 ≤ min (remaining + next) RRB_BRANCHING := le_min (by omega) (by decide)
    refine .ite (fun _ => .some ⟨List.forall_mem_cons.mpr ⟨first, behind⟩, rfl⟩) fun _ => .map ((ih behind).mono ?_)
    rintro filled ⟨filledPositive, length⟩
    exact ⟨List.forall_mem_cons.mpr ⟨first, filledPositive⟩, congrArg (· + 1) length⟩

private theorem shuffle_positive {optimalSlots : ℕ} (rounds i : ℕ) (some' : counts ≠ []) (positive : Positive counts) :
    (shuffle optimalSlots rounds i counts).Ensures fun plan => plan ≠ [] ∧ Positive plan := by
  induction rounds generalizing i counts with
  | zero => exact .some ⟨some', positive⟩
  | succ rounds ih =>
    refine .ite (fun long => .bind .self fun place _ => .bind .self fun short found => ?_) fun _ => .some ⟨some', positive⟩
    have inside := (List.getElem?_eq_some_iff.mp found).1
    refine .bind (redistribute_positive fun count member => positive count (List.mem_of_mem_drop member)) ?_
    rintro filled ⟨filledPositive, length⟩
    rw [List.length_drop] at length
    refine ih _ (List.ne_nil_of_length_pos ?_) (List.forall_mem_append.mpr
      ⟨fun count member => positive count (List.mem_of_mem_take member), filledPositive⟩)
    simp only [RRB_EXTRAS] at long
    rw [List.length_append, List.length_take]
    omega

private theorem createConcatPlan_positive (some' : all ≠ []) (stocked : ∀ node ∈ all, node.Stocked) :
    (createConcatPlan all).Ensures fun plan => plan ≠ [] ∧ Positive plan := by
  refine .bind .self fun counts lens => ?_
  refine shuffle_positive _ _ ?_ ?_
  · rintro rfl
    exact some' (List.forall₂_nil_right_iff.mp (Option.mapM_eq_some.mp lens))
  · intro count member
    obtain ⟨node, inside, len⟩ := Option.exists_of_mem_mapM lens member
    cases stocked node inside with
    | null => cases len
    | leaf filled => cases len; exact List.length_pos_of_ne_nil filled
    | internal filled => cases len; exact List.length_pos_of_ne_nil filled

section Execute

variable {slots : Node α → Option (List β)} {finish : List β → Option (Node α)} {good : β → Prop}

private theorem copySlots_good (goods : ∀ node, node.Stocked → (slots node).Ensures fun child => ∀ slot ∈ child, good slot)
    (offset missing : ℕ) (stocked : ∀ node ∈ old, node.Stocked) :
    (copySlots slots old offset missing).Ensures fun copied =>
      copied.1.length = missing ∧ (∀ slot ∈ copied.1, good slot) ∧ ∀ node ∈ copied.2.1, node.Stocked := by
  fun_induction copySlots slots old offset missing with
  | case1 old offset => exact .some ⟨rfl, List.forall_mem_nil _, stocked⟩
  | case2 => exact .none
  | case3 node old offset missing ih =>
    obtain ⟨here, behind⟩ := List.forall_mem_cons.mp stocked
    refine .bind (goods node here) fun child childGood => ?_
    have dropped : ∀ slot ∈ child.drop offset, good slot := fun slot member => childGood slot (List.mem_of_mem_drop member)
    refine .ite (fun whole => .bind (ih child behind) ?_) fun more => .some ⟨?_, ?_, stocked⟩
    · rintro copied ⟨length, copiedGood, left⟩
      refine .some ⟨?_, List.forall_mem_append.mpr ⟨dropped, copiedGood⟩, left⟩
      rw [List.length_append, List.length_drop, length]
      omega
    · rw [List.length_take, List.length_drop]
      omega
    · exact fun slot member => dropped slot (List.mem_of_mem_take member)

private theorem executeFrom_stocked (good : β → Prop) (goods : ∀ node, node.Stocked → (slots node).Ensures fun child =>
    ∀ slot ∈ child, good slot)
    (finished : ∀ piece, piece ≠ [] → (∀ slot ∈ piece, good slot) → (finish piece).Ensures Node.Stocked) (offset : ℕ)
    (positive : Positive plan) (stocked : ∀ node ∈ old, node.Stocked) :
    (executeFrom slots finish plan old offset).Ensures fun nodes =>
      nodes.length = plan.length ∧ ∀ node ∈ nodes, node.Stocked := by
  induction plan generalizing old offset with
  | nil => exact .some ⟨rfl, List.forall_mem_nil _⟩
  | cons newSize plan ih =>
    obtain ⟨one, behind⟩ := List.forall_mem_cons.mp positive
    refine .bind .self fun node found => .bind .self fun len _ => .ite (fun _ => ?_) fun _ => ?_
    · refine .bind (ih 0 behind fun node member => stocked node (List.mem_of_mem_tail member)) ?_
      rintro nodes ⟨length, nodesStocked⟩
      exact .some ⟨congrArg (· + 1) length,
        List.forall_mem_cons.mpr ⟨stocked node (List.mem_of_mem_head? found), nodesStocked⟩⟩
    · refine .bind (copySlots_good goods offset newSize stocked) ?_
      rintro copied ⟨size, copiedGood, left⟩
      refine .bind (finished _ (List.ne_nil_of_length_pos (by omega)) copiedGood) fun newNode newStocked => ?_
      refine .bind (ih _ behind left) ?_
      rintro nodes ⟨length, nodesStocked⟩
      exact .some ⟨congrArg (· + 1) length, List.forall_mem_cons.mpr ⟨newStocked, nodesStocked⟩⟩

end Execute

theorem setSizes_stocked (stocked : node.Stocked) (height : ℕ) : (setSizes node height).Ensures Node.Stocked := by
  cases height with
  | zero => exact .none
  | succ height =>
    refine .bind stocked.children ?_
    rintro child ⟨filled, below⟩
    exact .bind .self fun table _ => .some (.internal filled below)

private theorem executeConcatPlan_stocked (height : ℕ) (positive : Positive plan) (stocked : ∀ node ∈ all, node.Stocked) :
    (executeConcatPlan all plan height).Ensures fun nodes => nodes.length = plan.length ∧ ∀ node ∈ nodes, node.Stocked := by
  obtain _ | _ | height := height
  · exact .none
  · refine executeFrom_stocked (fun _ => True) ?_ (fun piece filled _ => .some (.leaf filled)) 0 positive stocked
    exact fun node _ => Ensures.mono .self fun _ _ _ _ => trivial
  · refine executeFrom_stocked Node.Stocked ?_ ?_ 0 positive stocked
    · exact fun node nodeStocked => nodeStocked.children.mono fun _ child => child.2
    · exact fun piece filled below => setSizes_stocked (.internal filled below) _

private theorem internalNodeMerge_stocked (leftStocked : left.Stocked) (centreStocked : centre.Stocked)
    (present : centre ≠ .null)
    (rightStocked : right.Stocked) :
    (internalNodeMerge left centre right).Ensures fun all => all ≠ [] ∧ ∀ node ∈ all, node.Stocked := by
  have merged (front back : List (Node α)) {middle : List (Node α)} (filled : middle ≠ [])
      (frontBelow : ∀ node ∈ front, node.Stocked) (middleBelow : ∀ node ∈ middle, node.Stocked)
      (backBelow : ∀ node ∈ back, node.Stocked) :
      (some (front ++ middle ++ back)).Ensures fun all => all ≠ [] ∧ ∀ node ∈ all, node.Stocked :=
    .some ⟨by simp [filled],
      List.forall_mem_append.mpr ⟨List.forall_mem_append.mpr ⟨frontBelow, middleBelow⟩, backBelow⟩⟩
  cases centre with
  | null => exact absurd rfl present
  | leaf => rcases left with _ | _ | ⟨_, _ | ⟨first, leftChild⟩⟩ <;> exact .none
  | internal sizeTable middle =>
    obtain ⟨filled, middleBelow⟩ := centreStocked.slots
    rcases left with _ | _ | ⟨_, _ | ⟨first, leftChild⟩⟩
    · rcases right with _ | _ | ⟨_, _ | ⟨first, rightChild⟩⟩
      · exact merged [] [] filled (List.forall_mem_nil _) middleBelow (List.forall_mem_nil _)
      · exact .none
      · exact .none
      · exact merged [] rightChild filled (List.forall_mem_nil _) middleBelow
          fun node member => rightStocked.slots.2 node (List.mem_cons_of_mem _ member)
    · exact .none
    · exact .none
    · have front : ∀ node ∈ (first :: leftChild).dropLast, node.Stocked :=
        fun node member => leftStocked.slots.2 node (List.dropLast_subset _ member)
      rcases right with _ | _ | ⟨_, _ | ⟨first, rightChild⟩⟩
      · exact merged _ [] filled front middleBelow (List.forall_mem_nil _)
      · exact .none
      · exact .none
      · exact merged _ rightChild filled front middleBelow
          fun node member => rightStocked.slots.2 node (List.mem_cons_of_mem _ member)

theorem above_stocked {sizeTable : Option (List ℕ)} (filled : child ≠ []) (below : ∀ node ∈ child, node.Stocked) :
    (Node.internal sizeTable child).Stocked ∧ Node.internal sizeTable child ≠ .null :=
  ⟨.internal filled below, by simp⟩

theorem pair_stocked (leftStocked : left.Stocked) (rightStocked : right.Stocked) :
    (internalNodeNewAbove left right).Stocked ∧ internalNodeNewAbove left right ≠ .null :=
  above_stocked (List.cons_ne_nil _ _) (List.forall_mem_cons.mpr ⟨leftStocked, List.forall_mem_singleton.mpr rightStocked⟩)

theorem rebalance_stocked {isTop : Bool} (leftStocked : left.Stocked) (centreStocked : centre.Stocked)
    (present : centre ≠ .null) (rightStocked : right.Stocked) (height : ℕ) :
    (rebalance left centre right height isTop).Ensures fun node => node.Stocked ∧ node ≠ .null := by
  refine .bind (internalNodeMerge_stocked leftStocked centreStocked present rightStocked) ?_
  rintro all ⟨some', stocked⟩
  refine .bind (createConcatPlan_positive some' stocked) ?_
  rintro plan ⟨planned, positive⟩
  refine .bind (executeConcatPlan_stocked height positive stocked) ?_
  rintro nodes ⟨length, nodesStocked⟩
  have count := List.length_pos_of_ne_nil planned
  have filled : nodes ≠ [] := List.ne_nil_of_length_pos (by omega)
  refine .ite (fun _ => .ite (fun _ => .some (above_stocked filled nodesStocked)) fun _ => ?_) fun many => ?_
  · refine .bind (setSizes_stocked (.internal filled nodesStocked) height) fun sized sizedStocked => .some ?_
    exact above_stocked (List.cons_ne_nil _ _) (List.forall_mem_singleton.mpr sizedStocked)
  · have branching : 0 < RRB_BRANCHING := by decide
    have first : nodes.take RRB_BRANCHING ≠ [] := List.ne_nil_of_length_pos (by rw [List.length_take]; omega)
    have second : nodes.drop RRB_BRANCHING ≠ [] := List.ne_nil_of_length_pos (by rw [List.length_drop]; omega)
    refine .bind (setSizes_stocked (.internal first fun node member => nodesStocked node (List.mem_of_mem_take member)) _)
      fun newLeft leftSized => ?_
    refine .bind (setSizes_stocked (.internal second fun node member => nodesStocked node (List.mem_of_mem_drop member)) _)
      fun newRight rightSized => .some ?_
    exact pair_stocked leftSized rightSized

private theorem concatSubTree_stocked (leftStocked : left.Stocked) (leftHeight : ℕ) (rightStocked : right.Stocked)
    (rightHeight : ℕ) (isTop : Bool) :
    (concatSubTree left leftHeight right rightHeight isTop).Ensures fun node => node.Stocked ∧ node ≠ .null := by
  fun_induction concatSubTree left leftHeight right rightHeight isTop with
  | case1 left leftHeight right rightHeight isTop higher ih =>
    refine .bind leftStocked.children fun leftChild below => .bind (ih leftChild (.slot below.2 _) rightStocked) ?_
    exact fun centre centreBelow => rebalance_stocked leftStocked centreBelow.1 centreBelow.2 .null _
  | case2 left leftHeight right rightHeight isTop _ lower ih =>
    refine .bind rightStocked.children fun rightChild below => .bind (ih rightChild leftStocked (.slot below.2 _)) ?_
    exact fun centre centreBelow => rebalance_stocked .null centreBelow.1 centreBelow.2 rightStocked _
  | case3 left right =>
    refine .bind .self fun leftLeaf leftIs => .bind .self fun rightLeaf _ => .ite (fun _ => .some ?_) fun _ => .some ?_
    · refine above_stocked (List.cons_ne_nil _ _) (List.forall_mem_singleton.mpr (.leaf ?_))
      rw [elements_eq leftIs] at leftStocked
      simp [leftStocked.elements]
    · exact pair_stocked leftStocked rightStocked
  | case4 left right => exact .some (pair_stocked leftStocked rightStocked)
  | case5 left leftHeight right rightHeight isTop _ _ _ ih =>
    refine .bind leftStocked.children fun leftChild leftBelow => .bind rightStocked.children fun rightChild rightBelow => ?_
    refine .bind (ih leftChild rightChild (.slot leftBelow.2 _) (.slot rightBelow.2 _)) ?_
    exact fun centre centreBelow => rebalance_stocked leftStocked centreBelow.1 centreBelow.2 rightStocked _

theorem concatRoots_stocked {leftHeight rightHeight : ℕ} (leftStocked : left.Stocked) (rightStocked : right.Stocked) :
    (concatRoots left leftHeight right rightHeight).Ensures fun joined => joined.1.Stocked := by
  refine .bind (concatSubTree_stocked leftStocked _ rightStocked _ true) fun node stocked => ?_
  exact .bind .self fun height _ => .bind (setSizes_stocked stocked.1 height) fun root rootStocked => .some rootStocked

end Owl.Lists
