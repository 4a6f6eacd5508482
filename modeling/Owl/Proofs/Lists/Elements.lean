import Owl.Proofs.Lists.Stocked
import Owl.ToMathlib.Option

/-! # Elements of lists

The functions on lists move elements and make none: a condition on elements that holds throughout the operands holds
throughout the result, whatever the shape of their trees.
-/

namespace Owl.Lists

open Option (Ensures)

variable {α β : Type} {P : α → Prop}

/-- The condition holds of all elements of a node. -/
inductive Node.All (P : α → Prop) : Node α → Prop
  | null : Node.All P .null
  | leaf {child : List α} (each : ∀ elem ∈ child, P elem) : Node.All P (.leaf child)
  | internal {sizeTable : Option (List ℕ)} {child : List (Node α)} (each : ∀ node ∈ child, Node.All P node) :
      Node.All P (.internal sizeTable child)

structure Rrb.All (P : α → Prop) (rrb : Rrb α) : Prop where
  tail : rrb.tail.All P
  root : rrb.root.All P

def RrbPtr.All (P : α → Prop) (list : RrbPtr α) : Prop := list.head.All P

namespace Node.All

variable {node node' : Node α} {child child' : List (Node α)} {sizeTable sizeTable' : Option (List ℕ)}

theorem mono {Q : α → Prop} (all : node.All P) (implied : ∀ elem, P elem → Q elem) : node.All Q := by
  induction all with
  | null => exact .null
  | leaf each => exact .leaf fun elem member => implied elem (each elem member)
  | internal _ ih => exact .internal ih

theorem leaf_iff {child : List α} : (Node.leaf child).All P ↔ ∀ elem ∈ child, P elem :=
  ⟨fun all => by cases all; assumption, .leaf⟩

theorem internal_iff : (Node.internal sizeTable child).All P ↔ ∀ node ∈ child, node.All P :=
  ⟨fun all => by cases all; assumption, .internal⟩

theorem elements (all : node.All P) : Ensures node.elements fun child => ∀ elem ∈ child, P elem := by
  intro child found
  cases all with
  | leaf each => cases found; exact each
  | null | internal => cases found

theorem children (all : node.All P) : Ensures node.children fun child => ∀ node ∈ child, node.All P := by
  intro child found
  cases all with
  | internal each => cases found; exact each
  | null | leaf => cases found

theorem slot (each : ∀ node ∈ child, node.All P) (i : ℕ) : (slot child i).All P := by
  rw [Lists.slot, List.getD_eq_getElem?_getD]
  cases found : child[i]? with
  | none => exact .null
  | some node => exact each node (List.mem_of_getElem? found)

theorem single (all : node.All P) : (Node.internal sizeTable [node]).All P := .internal (by simpa using all)

theorem pair (all : node.All P) (all' : node'.All P) : (Node.internal sizeTable [node, node']).All P :=
  .internal (by simpa using ⟨all, all'⟩)

theorem append (each : ∀ node ∈ child, node.All P) (each' : ∀ node ∈ child', node.All P) :
    ∀ node ∈ child ++ child', node.All P :=
  List.forall_mem_append.mpr ⟨each, each'⟩

theorem set (each : ∀ node ∈ child, node.All P) (all : node'.All P) (i : ℕ) : ∀ node ∈ child.set i node', node.All P := by
  intro node member
  obtain old | rfl := List.mem_or_eq_of_mem_set member
  · exact each node old
  · exact all

end Node.All

theorem leafNodeCreate_all {child : List α} (len : ℕ) (each : ∀ elem ∈ child, P elem) :
    Ensures (leafNodeCreate len child) fun node => node.All P :=
  .ite (fun _ => .some (.leaf each)) fun _ => .none

section Nth

private theorem nthFrom_all : ∀ {height : ℕ} {node : Node α} {index : ℕ}, node.All P →
    Ensures (nthFrom height node index) fun found => ∀ elem ∈ found, P elem := by
  intro height
  induction height with
  | zero =>
    intro node index all
    cases all with
    | leaf each => exact .some fun elem found => each elem (List.mem_of_getElem? found)
    | null | internal => exact .none
  | succ height ih =>
    intro node index all
    cases all with
    | null | leaf => exact .none
    | @internal sizeTable child each =>
      cases sizeTable with
      | none | some => exact Ensures.self.bind fun _ _ => ih (.slot each _)

theorem rrbNth_all {rrb : Rrb α} (all : rrb.All P) (index : ℕ) :
    Ensures (rrbNth rrb index) fun found => ∀ elem ∈ found, P elem :=
  .ite (fun _ => .some fun _ none => by cases none) fun _ =>
    .ite (fun _ => .map (all.tail.elements.mono fun _ each elem found => each elem (List.mem_of_getElem? found)))
      fun _ => nthFrom_all all.root

end Nth

theorem appendEmpty_all {node : Node α} (all : node.All P) : ∀ n, (appendEmpty n node).All P
  | 0 => all
  | n + 1 => (appendEmpty_all all n).single

private theorem copyFirstK_all {tailSize k height index : ℕ} {node current : Node α} (all : node.All P)
    (kept : current.All P) :
    Ensures (copyFirstK tailSize node k height current index) fun copied => copied.All P := by
  fun_induction copyFirstK tailSize node k height current index with
  | case1 | case2 => exact .some all
  | case3 height child index =>
    have longer := Node.All.append (Node.All.internal_iff.mp kept) (List.forall_mem_singleton.mpr .null)
    exact Ensures.self.bind fun _ _ => .ite (fun _ => .some (.internal (.set longer all _))) fun _ => .none
  | case4 height table child index =>
    have longer := Node.All.append (Node.All.internal_iff.mp kept) (List.forall_mem_singleton.mpr all)
    exact Ensures.self.bind fun _ _ => .some (.internal longer)
  | case5 k height child index ih =>
    have each := Node.All.internal_iff.mp kept
    exact Ensures.self.bind fun _ _ => .ite
      (fun _ => .bind (ih _ (.slot each _)) fun _ below => .some (.internal (.set each below _))) fun _ => .none
  | case6 k height table child index ih =>
    have each := Node.All.internal_iff.mp kept
    have copies (before : ℕ) : Ensures (copyFirstK tailSize node (k + 1) height (slot child (child.length - 1))
        (u32Sub index before)) fun copied => copied.All P := ih before (.slot each _)
    refine Ensures.self.bind fun _ _ => .ite (fun _ => ?_) fun _ => ?_
    · exact (copies 0).bind fun _ below => .some (.internal (.set each below _))
    · exact Ensures.self.bind fun before _ => (copies before).bind fun _ below => .some (.internal (.set each below _))
  | case7 => exact .none

variable {behind : Node α} {rrb newRrb : Rrb α}

theorem pushDownTail_all {newTail : Node α} (root : rrb.root.All P) (oldTail : newRrb.tail.All P)
    (all : newTail.All P) : Ensures (pushDownTail behind rrb newRrb newTail) fun pushed => pushed.All P := by
  refine .ite (fun _ => .some ⟨all, oldTail⟩) fun _ => ?_
  refine Ensures.self.bind fun counts _ => Ensures.self.bind fun tailLen _ => .ite (fun _ => ?_) fun _ => ?_
  · exact Ensures.self.bind fun table _ => .some ⟨all, .pair root (appendEmpty_all oldTail _)⟩
  · exact .bind (copyFirstK_all (appendEmpty_all oldTail _) root) fun copied kept => .some ⟨all, kept⟩

private theorem rrbPush_all (all : rrb.All P) {elt : α} (good : P elt) :
    Ensures (rrbPush behind rrb elt) fun pushed => pushed.All P := by
  refine .ite (fun _ => ?_) fun _ => ?_
  · refine .bind all.tail.elements fun child each => ?_
    have longer : ∀ elem ∈ child ++ [elt], P elem := List.forall_mem_append.mpr ⟨each, by simpa using good⟩
    exact .bind (leafNodeCreate_all _ longer) fun tail kept => .some ⟨kept, all.root⟩
  · exact pushDownTail_all all.root all.tail (.leaf (by simpa using good))

theorem rrbPushAt_all {list : RrbPtr α} (all : list.All P) {elt : α} (good : P elt) :
    Ensures (rrbPushAt behind list elt) fun pushed => pushed.All P :=
  .map (rrbPush_all all good)

theorem setSizes_all {node : Node α} (all : node.All P) : ∀ height, Ensures (setSizes node height) fun sized => sized.All P
  | 0 => .none
  | _ + 1 => .bind all.children fun _ each => Ensures.self.bind fun _ _ => .some (.internal each)

section Execute

variable {slots : Node α → Option (List β)} {finish : List β → Option (Node α)} {Q : β → Prop}

/-- Slots that are copied come from the old nodes, and so do the nodes that are left. -/
private theorem copySlots_all (each : ∀ node : Node α, node.All P → Ensures (slots node) fun child => ∀ x ∈ child, Q x)
    {old : List (Node α)} {offset missing : ℕ} (all : ∀ node ∈ old, node.All P) :
    Ensures (copySlots slots old offset missing) fun copied => (∀ x ∈ copied.1, Q x) ∧ ∀ node ∈ copied.2.1, node.All P := by
  fun_induction copySlots slots old offset missing with
  | case1 => exact .some ⟨by simp, all⟩
  | case2 => exact .none
  | case3 oldNode old offset missing ih =>
    obtain ⟨first, others⟩ := List.forall_mem_cons.mp all
    refine .bind (each oldNode first) fun child good => .ite (fun _ => ?_) fun _ => ?_
    · exact .bind (ih child others) fun copied kept =>
        .some ⟨List.forall_mem_append.mpr ⟨fun x member => good x (List.mem_of_mem_drop member), kept.1⟩, kept.2⟩
    · exact .some ⟨fun x member => good x (List.mem_of_mem_drop (List.mem_of_mem_take member)), all⟩

private theorem executeFrom_all (each : ∀ node : Node α, node.All P → Ensures (slots node) fun child => ∀ x ∈ child, Q x)
    (finished : ∀ child, (∀ x ∈ child, Q x) → Ensures (finish child) fun node => node.All P)
    {nodeSize : List ℕ} {old : List (Node α)} {offset : ℕ} (all : ∀ node ∈ old, node.All P) :
    Ensures (executeFrom slots finish nodeSize old offset) fun nodes => ∀ node ∈ nodes, node.All P := by
  fun_induction executeFrom slots finish nodeSize old offset with
  | case1 => exact .some (by simp)
  | case2 newSize nodeSize old offset same other =>
    refine Ensures.self.bind fun oldNode first => Ensures.self.bind fun _ _ => .ite (fun _ => ?_) fun _ => ?_
    · exact .bind (same fun node member => all node (List.mem_of_mem_tail member)) fun nodes kept =>
        .some (List.forall_mem_cons.mpr ⟨all oldNode (List.mem_of_mem_head? first), kept⟩)
    · exact .bind (copySlots_all each all) fun copied kept => .bind (finished _ kept.1) fun newNode made =>
        .bind (other copied kept.2) fun nodes later => .some (List.forall_mem_cons.mpr ⟨made, later⟩)

end Execute

private theorem executeConcatPlan_all {all : List (Node α)} {nodeSize : List ℕ} (each : ∀ node ∈ all, node.All P) :
    ∀ height, Ensures (executeConcatPlan all nodeSize height) fun nodes => ∀ node ∈ nodes, node.All P
  | 0 => .none
  | 1 => executeFrom_all (fun _ all => all.elements) (fun _ each => .some (.leaf each)) each
  | _ + 2 => executeFrom_all (fun _ all => all.children) (fun _ each => setSizes_all (.internal each) _) each

private theorem internalNodeMerge_all {left centre right : Node α} (leftAll : left.All P) (centreAll : centre.All P)
    (rightAll : right.All P) :
    Ensures (internalNodeMerge left centre right) fun child => ∀ node ∈ child, node.All P := by
  have none (node : Node α) : node ∈ [] → node.All P := fun member => absurd member List.not_mem_nil
  have merged {front middle back : List (Node α)} (frontAll : ∀ node ∈ front, node.All P)
      (middleAll : ∀ node ∈ middle, node.All P) (backAll : ∀ node ∈ back, node.All P) :
      Ensures (some (front ++ middle ++ back)) fun child => ∀ node ∈ child, node.All P :=
    .some (.append (.append frontAll middleAll) backAll)
  have last {sizeTable : Option (List ℕ)} {first : Node α} {back : List (Node α)}
      (all : (Node.internal sizeTable (first :: back)).All P) : ∀ node ∈ back, node.All P :=
    fun node member => Node.All.internal_iff.mp all node (List.mem_cons_of_mem _ member)
  -- Only the slots that are there matter: a leaf in the place of a node gives nothing.
  rcases left with _ | _ | ⟨_, _ | ⟨first, front⟩⟩
  · rcases centre with _ | _ | ⟨_, middle⟩
    · rcases right with _ | _ | ⟨_, _ | ⟨second, back⟩⟩
      exacts [merged none none none, .none, .none, merged none none (last rightAll)]
    · exact .none
    · have middleAll := Node.All.internal_iff.mp centreAll
      rcases right with _ | _ | ⟨_, _ | ⟨second, back⟩⟩
      exacts [merged none middleAll none, .none, .none, merged none middleAll (last rightAll)]
  · exact .none
  · exact .none
  · have frontAll : ∀ node ∈ (first :: front).dropLast, node.All P :=
      fun node member => Node.All.internal_iff.mp leftAll node (List.dropLast_subset _ member)
    rcases centre with _ | _ | ⟨_, middle⟩
    · rcases right with _ | _ | ⟨_, _ | ⟨second, back⟩⟩
      exacts [merged frontAll none none, .none, .none, merged frontAll none (last rightAll)]
    · exact .none
    · have middleAll := Node.All.internal_iff.mp centreAll
      rcases right with _ | _ | ⟨_, _ | ⟨second, back⟩⟩
      exacts [merged frontAll middleAll none, .none, .none, merged frontAll middleAll (last rightAll)]

theorem rebalance_all {left centre right : Node α} (leftAll : left.All P) (centreAll : centre.All P)
    (rightAll : right.All P) (height : ℕ) (isTop : Bool) :
    Ensures (rebalance left centre right height isTop) fun node => node.All P := by
  refine .bind (internalNodeMerge_all leftAll centreAll rightAll) fun all each => Ensures.self.bind fun plan _ =>
    .bind (executeConcatPlan_all each height) fun newAll made => .ite (fun _ => .ite (fun _ => ?_) fun _ => ?_) fun _ => ?_
  · exact .some (.internal made)
  · exact .bind (setSizes_all (.internal made) height) fun _ sized => .some sized.single
  · refine .bind (setSizes_all (.internal fun node member => made node (List.mem_of_mem_take member)) height)
      fun _ newLeft => ?_
    exact .bind (setSizes_all (.internal fun node member => made node (List.mem_of_mem_drop member)) height)
      fun _ newRight => .some (newLeft.pair newRight)

private theorem concatSubTree_all {left right : Node α} {leftHeight rightHeight : ℕ} {isTop : Bool} (leftAll : left.All P)
    (rightAll : right.All P) :
    Ensures (concatSubTree left leftHeight right rightHeight isTop) fun node => node.All P := by
  fun_induction concatSubTree left leftHeight right rightHeight isTop with
  | case1 left leftHeight right rightHeight isTop higher ih =>
    exact .bind leftAll.children fun child each => .bind (ih child (.slot each _) rightAll) fun _ centre =>
      rebalance_all leftAll centre .null _ _
  | case2 left leftHeight right rightHeight isTop notHigher lower ih =>
    exact .bind rightAll.children fun child each => .bind (ih child leftAll (.slot each _)) fun _ centre =>
      rebalance_all .null centre rightAll _ _
  | case3 left right =>
    exact .bind leftAll.elements fun _ lefts => .bind rightAll.elements fun _ rights => .ite
      (fun _ => .some (Node.All.single (.leaf (List.forall_mem_append.mpr ⟨lefts, rights⟩))))
      fun _ => .some (leftAll.pair rightAll)
  | case4 left right => exact .some (leftAll.pair rightAll)
  | case5 left leftHeight right rightHeight isTop _ _ _ ih =>
    exact .bind leftAll.children fun _ lefts => .bind rightAll.children fun _ rights =>
      .bind (ih _ _ (.slot lefts _) (.slot rights _)) fun _ centre => rebalance_all leftAll centre rightAll _ _

variable {left right : Rrb α}

private theorem concatTails_all (leftAll : left.All P) (rightAll : right.All P) :
    Ensures (concatTails behind left right) fun joined => joined.All P := by
  refine .ite (fun _ => ?_) fun _ => .ite (fun _ => ?_) fun _ => ?_
  · exact pushDownTail_all leftAll.root leftAll.tail rightAll.tail
  · exact .bind leftAll.tail.elements fun _ lefts => .bind rightAll.tail.elements fun _ rights =>
      .some ⟨.leaf (List.forall_mem_append.mpr ⟨lefts, rights⟩), leftAll.root⟩
  · refine .bind leftAll.tail.elements fun _ lefts => .bind rightAll.tail.elements fun _ rights => ?_
    refine .bind (leafNodeCreate_all _ ?_) fun _ pushed => .bind (leafNodeCreate_all _ ?_) fun _ newTail =>
      pushDownTail_all leftAll.root pushed newTail
    · exact List.forall_mem_append.mpr ⟨fun elem member => lefts elem (List.mem_of_mem_take member),
        fun elem member => rights elem (List.mem_of_mem_take member)⟩
    · exact fun elem member => rights elem (List.mem_of_mem_drop (List.mem_of_mem_take member))

private theorem concatTrees_all (leftAll : left.All P) (rightAll : right.All P) :
    Ensures (concatTrees behind left right) fun joined => joined.All P :=
  .bind (pushDownTail_all leftAll.root leftAll.tail .null) fun _ pushed =>
    .bind (.bind (concatSubTree_all pushed.root rightAll.root) fun _ candidate =>
      Ensures.self.bind fun height _ => .bind (setSizes_all candidate height) fun _ sized => .some sized)
      fun _ (root : Node.All P _) => .some ⟨rightAll.tail, root⟩

theorem rrbConcat_all {left right : RrbPtr α} (leftAll : left.All P) (rightAll : right.All P) :
    Ensures (rrbConcat behind left right) fun joined => joined.All P := by
  refine .ite (fun _ => .some rightAll) fun _ => .ite (fun _ => .some leftAll) fun _ => ?_
  split
  · exact .map (concatTails_all leftAll rightAll)
  · exact .map (concatTrees_all leftAll rightAll)

private theorem shrunk_all {sizeTable : Option (List ℕ)} {child : List (Node α)} {tailLen : ℕ} {rest : Node α}
    (each : ∀ node ∈ child, node.All P) (all : rest.All P) :
    Ensures (shrunk sizeTable child tailLen rest) fun node => node.All P := by
  have front : ∀ node ∈ child.dropLast, node.All P := fun node member => each node (List.dropLast_subset _ member)
  have longer := Node.All.append front (List.forall_mem_singleton.mpr all)
  unfold shrunk
  split
  · refine .some ?_
    split
    · exact .null
    · exact .internal front
  · cases sizeTable with
    | none => exact .some (.internal longer)
    | some table => exact Ensures.self.bind fun _ _ => .some (.internal longer)

private theorem detachRight_all : ∀ {height : ℕ} {node : Node α}, node.All P →
    Ensures (detachRight height node) fun detached => detached.1.All P ∧ detached.2.All P := by
  intro height
  induction height with
  | zero => exact fun all => .some ⟨all, .null⟩
  | succ height ih =>
    intro node all
    cases all with
    | null | leaf => exact .none
    | internal each =>
      exact .bind (ih (.slot each _)) fun detached kept => Ensures.self.bind fun _ _ =>
        .bind (shrunk_all each kept.2) fun _ rest => .some ⟨kept.1, rest⟩

private theorem promoteRightmostLeaf_all (root : rrb.root.All P) :
    Ensures (promoteRightmostLeaf rrb) fun promoted => promoted.All P := by
  refine .ite (fun _ => .none) fun _ => ?_
  split
  · exact Ensures.self.bind fun _ _ => .some ⟨root, .null⟩
  · next height sizeTable child _ found =>
    rw [found] at root
    have each := Node.All.internal_iff.mp root
    refine .bind (detachRight_all (.slot each _)) fun detached kept => Ensures.self.bind fun _ _ => ?_
    split
    · next first _ _ => exact .some ⟨kept.1, each first List.mem_cons_self⟩
    · exact .bind (shrunk_all each kept.2) fun _ rest => .some ⟨kept.1, rest⟩
  · exact .none

private theorem sliceRightRec_all {height right : ℕ} {node : Node α} {hasLeft : Bool} (all : node.All P) :
    Ensures (sliceRightRec height node right hasLeft) fun sliced => sliced.1.All P := by
  fun_induction sliceRightRec height node right hasLeft with
  | case1 child right hasLeft =>
    have each := Node.All.leaf_iff.mp all
    exact .bind (leafNodeCreate_all _ fun elem member => each elem (List.mem_of_mem_take member)) fun _ kept => .some kept
  | case2 height child right hasLeft ih =>
    have each := Node.All.internal_iff.mp all
    refine Ensures.self.bind fun subidx _ => Ensures.self.bind fun before _ =>
      .bind (ih _ _ (.slot each _)) fun sliced kept =>
      .ite (fun _ => .ite (fun _ => .some kept.single) fun _ => .some kept) fun _ => .some (.internal ?_)
    exact .append (fun node member => each node (List.mem_of_mem_take member)) (List.forall_mem_singleton.mpr kept)
  | case3 height table child right hasLeft ih =>
    have each := Node.All.internal_iff.mp all
    refine Ensures.self.bind fun pos _ => .bind (ih _ (.slot each _)) fun sliced kept =>
      .ite (fun _ => .ite (fun _ => .some kept.single) fun _ => .some kept) fun _ => .some (.internal ?_)
    exact .append (fun node member => each node (List.mem_of_mem_take member)) (List.forall_mem_singleton.mpr kept)
  | case4 => exact .none

theorem create_all : (rrbCreate : Rrb α).All P := ⟨.leaf (List.forall_mem_nil _), .null⟩

private theorem sliceRight_all (all : rrb.All P) (right : ℕ) : Ensures (sliceRight rrb right) fun sliced =>
    sliced.All P := by
  refine .ite (fun _ => .some create_all) fun _ => .ite (fun _ => .ite (fun _ => ?_) fun _ => ?_) fun _ => .some all
  · refine .bind all.tail.elements fun child each => .bind (leafNodeCreate_all _ ?_) fun _ tail => .some ⟨tail, all.root⟩
    exact fun elem member => each elem (List.mem_of_mem_take member)
  · exact .bind (sliceRightRec_all all.root) fun _ root => promoteRightmostLeaf_all root

private theorem sliceLeftRec_all {height left : ℕ} {node : Node α} {hasRight : Bool} (all : node.All P) :
    Ensures (sliceLeftRec height node left hasRight) fun sliced => sliced.1.All P := by
  fun_induction sliceLeftRec height node left hasRight with
  | case1 child left hasRight =>
    have each := Node.All.leaf_iff.mp all
    exact .some (.leaf fun elem member => each elem (List.mem_of_mem_drop member))
  | case2 => exact .none
  | case3 height sizeTable child left hasRight ih =>
    have each := Node.All.internal_iff.mp all
    refine Ensures.self.bind fun pos _ => .bind (ih pos (.slot each _)) fun sliced kept => .ite
      (fun _ => .ite (fun _ => Ensures.self.bind fun _ _ => .some kept.single) fun _ => .some kept)
      fun _ => Ensures.self.bind fun _ _ => .some (.internal ?_)
    exact List.forall_mem_cons.mpr ⟨kept, fun node member => each node (List.mem_of_mem_drop member)⟩
  | case4 => exact .none

private theorem setLastSize_all {node : Node α} (all : node.All P) (size : ℕ) : (setLastSize size node).All P := by
  unfold setLastSize
  split
  · exact .internal (Node.All.internal_iff.mp all)
  · exact all

private theorem fillRootLeaf_all (all : rrb.All P) : Ensures (fillRootLeaf rrb) fun filled => filled.All P := by
  unfold fillRootLeaf
  split
  · next root _ found =>
    have roots : ∀ elem ∈ root, P elem := Node.All.leaf_iff.mp (found ▸ all.root)
    refine .bind all.tail.elements fun child each => ?_
    have longer (n : ℕ) : ∀ elem ∈ root ++ child.take n, P elem :=
      List.forall_mem_append.mpr ⟨roots, fun elem member => each elem (List.mem_of_mem_take member)⟩
    refine .ite (fun _ => ?_) fun _ => .ite (fun _ => ?_) fun _ => .some all
    · exact .bind (leafNodeCreate_all _ (longer _)) fun _ tail => .some ⟨tail, .null⟩
    · refine .bind (leafNodeCreate_all _ (longer _)) fun _ newRoot => .bind (leafNodeCreate_all _ ?_) fun _ tail =>
        .some ⟨tail, newRoot⟩
      exact fun elem member => each elem (List.mem_of_mem_drop (List.mem_of_mem_take member))
  · exact .none
  · exact .some all

private theorem sliceLeft_all (all : rrb.All P) (left : ℕ) : Ensures (sliceLeft rrb left) fun sliced => sliced.All P := by
  refine .ite (fun _ => .some create_all) fun _ => .ite (fun _ => .ite (fun _ => ?_) fun _ => ?_) fun _ =>
    fillRootLeaf_all all
  · refine .bind all.tail.elements fun child each => .bind (leafNodeCreate_all _ ?_) fun _ tail => .some ⟨tail, .null⟩
    exact fun elem member => each elem (List.mem_of_mem_drop (List.mem_of_mem_take member))
  · refine .bind (sliceLeftRec_all all.root) fun sliced kept => fillRootLeaf_all ⟨all.tail, ?_⟩
    dsimp only
    split
    · exact kept
    · exact setLastSize_all kept _

theorem rrbSliceAt_all {list : RrbPtr α} (all : list.All P) (start stop : ℕ) :
    Ensures (rrbSliceAt list start stop) fun sliced => sliced.All P := by
  have right : Ensures (sliceRightAt list stop) fun sliced => sliced.All P :=
    .ite (fun _ => .some create_all) fun _ => .ite (fun _ => .map (sliceRight_all all stop)) fun _ => .some all
  exact right.bind fun sliced kept => .ite (fun _ => .some create_all) fun _ => .map (sliceLeft_all kept start)

end Owl.Lists
