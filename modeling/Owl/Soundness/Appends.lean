import Owl.Proofs.Lists.Appending

/-! # Where appending reads

A list that is built by pushes has a dense tree of full leaves. The push that finds the tail full searches
the tree for the place of the new leaf, and where that place is a new slot of a node above the lowest level,
the search reads behind the slots of the node.
-/

namespace Owl.Lists

open Option (Yields)
open Node (toList Dense)

variable {α : Type} {rrb rrb' : Rrb α} {inTree last : List α} {behind : Node α} {elt : α}

/-- A dense tree of full leaves, no higher than its elements need. -/
structure FullLeaves (height : ℕ) (root : Node α) (elements : List α) : Prop where
  dense : root.Dense height
  leaves : RRB_BRANCHING ∣ elements.length
  tight : height = 0 ∨ RRB_BRANCHING ^ height < elements.length
  contents : root.toList height = elements

/-- A list with these elements in its tree and in its tail. At the greatest height the code can put one leaf
into the tree, as it then shifts a word by more than its width. -/
structure Pushed (rrb : Rrb α) (inTree last : List α) : Prop where
  tail : rrb.tail = .leaf last
  tailLen : rrb.tailLen = last.length
  cnt : rrb.cnt = inTree.length + last.length
  room : last.length ≤ RRB_BRANCHING
  small : inTree.length ≤ RRB_BRANCHING ^ RRB_MAX_HEIGHT + RRB_BRANCHING
  filled : inTree ≠ [] → last ≠ []
  tree : (inTree = [] ∧ rrb.root = .null ∧ rrb.height = 0) ∨ FullLeaves rrb.height rrb.root inTree

private theorem pushed_create : Pushed (rrbCreate : Rrb α) [] [] where
  tail := rfl
  tailLen := rfl
  cnt := rfl
  room := Nat.zero_le _
  small := Nat.zero_le _
  filled := fun impossible => absurd rfl impossible
  tree := .inl ⟨rfl, rfl, rfl⟩

private theorem capacity : RRB_BRANCHING ^ RRB_MAX_HEIGHT = 2 ^ 30 := by decide

namespace FullLeaves

variable {height : ℕ} {root : Node α} {tail : List α}

theorem size (full : FullLeaves height root inTree) : root.size height = inTree.length := by
  rw [Node.size, full.contents]

theorem length_pos (full : FullLeaves height root inTree) : 0 < inTree.length := by
  rw [← full.size]
  exact (full.dense.shaped : root.Shaped Eq height).size_pos

theorem length_le (full : FullLeaves height root inTree) : inTree.length ≤ RRB_BRANCHING ^ (height + 1) := by
  rw [← full.size]
  exact full.dense.size_le

theorem low (full : FullLeaves height root inTree) (small : inTree.length ≤ RRB_BRANCHING ^ RRB_MAX_HEIGHT) :
    height < RRB_MAX_HEIGHT := by
  obtain rfl | above := full.tight
  · decide
  · exact (Nat.pow_lt_pow_iff_right (by decide)).mp (above.trans_le small)

/-- A new root above a full tree. -/
theorem above (full : FullLeaves height root inTree) (whole : inTree.length = RRB_BRANCHING ^ (height + 1))
    (slots : tail.length = RRB_BRANCHING) :
    FullLeaves (height + 1) (.internal none [root, appendEmpty height (.leaf tail)]) (inTree ++ tail) := by
  have leaf : (Node.leaf tail).Dense 0 := show 1 ≤ tail.length ∧ tail.length ≤ RRB_BRANCHING by
    rw [slots]
    decide
  have empties := appendEmpty_dense leaf height
  have one : ∀ node ∈ [root], node.size height = RRB_BRANCHING ^ (height + 1) := by
    simp [full.size, whole]
  constructor
  · exact (dense_above full.dense).snoc (show 1 < RRB_BRANCHING by decide) one empties.1
  · rw [List.length_append, slots]
    exact (Nat.dvd_add_left (Nat.dvd_refl _)).mpr full.leaves
  · right
    rw [List.length_append, whole, slots]
    exact Nat.lt_add_of_pos_right (by decide)
  · rw [toList, List.flatMap_cons, List.flatMap_singleton, full.contents, empties.2]
    rfl

end FullLeaves

/-- A full tree has no place. -/
private theorem search_full {height : ℕ} {root : Node α} {counts : Copyable} (low : height + 1 < RRB_MAX_HEIGHT)
    (dense : root.Dense (height + 1)) (whole : root.size (height + 1) = RRB_BRANCHING ^ (height + 1 + 1)) :
    search behind (height + 1) root (lastIndex (root.size (height + 1))) counts =
      ([], some ⟨counts.nodesVisited + (height + 1), counts.nodesToCopy⟩) := by
  obtain ⟨sizeTable, child, rfl, _⟩ := (dense.shaped : root.Shaped Eq (height + 1)).isInternal
  cases sizeTable with
  | some => exact dense.elim
  | none =>
    cases height with
    | zero =>
      obtain ⟨last, split, lastDense, total⟩ := dense.exists_last
      have le := lastDense.size_le
      have length : ¬child.length < RRB_BRANCHING := by
        rw [whole] at total
        simp only [RRB_BRANCHING] at total le ⊢
        omega
      simp [search, Node.len, length]
    | succ height =>
      have leaves : RRB_BRANCHING ∣ RRB_BRANCHING ^ (height + 1 + 1 + 1) := Dvd.intro_left _ rfl
      have above : searchSlot none child.length (lastIndex (RRB_BRANCHING ^ (height + 1 + 1 + 1))) (height + 2) =
          some none := by
        rw [searchSlot, shr_eq (show height + 2 + 1 ≤ RRB_MAX_HEIGHT from low), (lastIndex_digit leaves (height + 2)).1,
          Nat.div_self (branching_pow_pos _)]
        rfl
      rw [whole, search, above]
      simp only [Nat.add_comm, Nat.add_left_comm]

namespace FullLeaves

variable {height : ℕ} {root : Node α} {tail : List α}

private theorem search_whole (full : FullLeaves height root inTree) (low : height < RRB_MAX_HEIGHT)
    (whole : inTree.length = RRB_BRANCHING ^ (height + 1)) :
    search behind height root (lastIndex (root.size height)) ⟨0, 0⟩ = ([], some ⟨height, 0⟩) := by
  cases height with
  | zero => rw [search]
  | succ height =>
    rw [search_full low full.dense (full.size.trans whole)]
    simp

theorem exists_places (full : FullLeaves height root inTree) (low : height < RRB_MAX_HEIGHT)
    (room : inTree.length ≠ RRB_BRANCHING ^ (height + 1)) (slots : 1 ≤ tail.length ∧ tail.length ≤ RRB_BRANCHING) :
    ∃ depth, Places tail height root ⟨0, 0⟩ depth := by
  have small : root.size height < RRB_BRANCHING ^ (height + 1) := by
    rw [full.size]
    exact lt_of_le_of_ne full.length_le room
  have leaves := full.leaves
  rw [← full.size] at leaves
  cases height with
  | zero =>
    have positive := (full.dense.shaped : root.Shaped Eq 0).size_pos
    exact absurd leaves (Nat.not_dvd_of_pos_of_lt positive small)
  | succ height => exact Lists.exists_places slots low full.dense leaves small _

private theorem height_eq (full : FullLeaves height root inTree) (large : RRB_BRANCHING ^ RRB_MAX_HEIGHT < inTree.length)
    (small : inTree.length ≤ RRB_BRANCHING ^ RRB_MAX_HEIGHT + RRB_BRANCHING) : height = RRB_MAX_HEIGHT := by
  apply le_antisymm
  · obtain rfl | above := full.tight
    · exact Nat.zero_le _
    · have below : RRB_BRANCHING ^ height < RRB_BRANCHING ^ (RRB_MAX_HEIGHT + 1) :=
        (above.trans_le small).trans (by decide)
      exact Nat.lt_succ_iff.mp ((Nat.pow_lt_pow_iff_right (by decide)).mp below)
  · exact Nat.lt_succ_iff.mp ((Nat.pow_lt_pow_iff_right (by decide)).mp (large.trans_le full.length_le))

/-- At the greatest height the search shifts too far. -/
private theorem search_high {index : ℕ} {counts : Copyable} (full : FullLeaves height root inTree)
    (high : height = RRB_MAX_HEIGHT) : search behind height root index counts = ([], none) := by
  subst high
  obtain ⟨sizeTable, child, rfl, _⟩ := (full.dense.shaped : root.Shaped Eq (5 + 1)).isInternal
  cases sizeTable with
  | some => exact full.dense.elim
  | none => rfl

end FullLeaves

private theorem tableAbove_dense {height cnt tailLen : ℕ} {root : Node α} (dense : root.Dense height) :
    tableAbove root cnt tailLen = some none := by
  cases height with
  | zero => cases root with
    | leaf => rfl
    | null | internal => exact dense.elim
  | succ height =>
    rcases root with _ | _ | ⟨_ | table, child⟩
    · exact dense.elim
    · rfl
    · rfl
    · exact dense.elim

section Push

variable (pushed : Pushed rrb inTree last)

include pushed

theorem Pushed.cnt_lt : rrb.cnt + 1 < 2 ^ 32 := by
  have := pushed.cnt
  have := pushed.small
  have := pushed.room
  rw [capacity] at *
  simp only [RRB_BRANCHING] at *
  omega

private theorem Pushed.lastIndex_eq (full : last.length = RRB_BRANCHING) : u32Sub rrb.cnt 1 = lastIndex inTree.length := by
  have word := pushed.cnt_lt
  have cnt := pushed.cnt
  rw [full, RRB_BRANCHING] at cnt
  rw [u32Sub_of_le (by omega) (by omega), lastIndex, RRB_MASK]
  omega

/-- A push to a tail that has room. -/
theorem Pushed.tailPush (room : last.length < RRB_BRANCHING) (elt : α) :
    (rrbPush behind rrb elt).Yields fun rrb' => Pushed rrb' inTree (last ++ [elt]) := by
  have length : (last ++ [elt]).length = last.length + 1 := List.length_append
  have created : leafNodeCreate (rrb.tailLen + 1) (last ++ [elt]) = some (.leaf (last ++ [elt])) := by
    rw [leafNodeCreate, if_pos (by rw [length, pushed.tailLen])]
  rw [rrbPush, if_pos (by rw [pushed.tailLen]; exact room), rrbTailPush, pushed.tail]
  change Option.Yields (leafNodeCreate (rrb.tailLen + 1) (last ++ [elt]) >>= _) _
  rw [created]
  refine .some { pushed with tail := rfl, tailLen := ?_, cnt := ?_, room := ?_, filled := ?_ }
  · rw [length, pushed.tailLen]
  · rw [length, u32_of_lt pushed.cnt_lt, pushed.cnt, Nat.add_assoc]
  · rw [length]
    exact room
  · exact fun _ => List.append_ne_nil_of_right_ne_nil _ (List.cons_ne_nil _ _)

theorem Pushed.moved (full : last.length = RRB_BRANCHING) (room : inTree.length ≤ RRB_BRANCHING ^ RRB_MAX_HEIGHT)
    {height : ℕ} {root : Node α} (tree : FullLeaves height root (inTree ++ last)) :
    Pushed { cnt := u32 (rrb.cnt + 1), height, tailLen := 1, tail := .leaf [elt], root } (inTree ++ last) [elt] where
  tail := rfl
  tailLen := rfl
  cnt := by
    rw [u32_of_lt pushed.cnt_lt, pushed.cnt, List.length_append]
    rfl
  room := show 1 ≤ RRB_BRANCHING by decide
  small := by
    rw [List.length_append, full]
    exact Nat.add_le_add_right room _
  filled := fun _ => List.cons_ne_nil _ _
  tree := .inr tree

/-- A push to a tail that is full, when the code can put the tail into the tree. -/
theorem Pushed.pushDown (full : last.length = RRB_BRANCHING)
    (room : inTree.length ≤ RRB_BRANCHING ^ RRB_MAX_HEIGHT) (elt : α) :
    (rrbPush .null rrb elt).Yields fun rrb' => Pushed rrb' (inTree ++ last) [elt] := by
  have slots : 1 ≤ last.length ∧ last.length ≤ RRB_BRANCHING := by
    rw [full]
    decide
  have tailLen : (Node.leaf last : Node α).len = some RRB_BRANCHING := congrArg some full
  rw [rrbPush, if_neg (by rw [pushed.tailLen, full]; exact Nat.lt_irrefl _), pushDownTail]
  dsimp only
  rw [pushed.tail]
  obtain ⟨rfl, _, _⟩ | tree := pushed.tree
  · rw [if_pos (by rw [pushed.cnt, full]; simp)]
    refine .some (pushed.moved full room ⟨slots, ?_, .inl rfl, rfl⟩)
    rw [List.nil_append, full]
  · have positive := tree.length_pos
    have low := tree.low room
    have index := pushed.lastIndex_eq full
    rw [← tree.size] at index
    rw [if_neg (by rw [pushed.cnt, full]; omega), searchTail, index, tailLen]
    by_cases whole : inTree.length = RRB_BRANCHING ^ (rrb.height + 1)
    · rw [tree.search_whole low whole]
      dsimp only [Option.bind_eq_bind, Option.bind_some]
      rw [if_pos rfl, tableAbove_dense tree.dense]
      exact .some (pushed.moved full room (tree.above whole full))
    · obtain ⟨depth, places⟩ := tree.exists_places low whole slots
      have inside : lastIndex (rrb.root.size rrb.height) % RRB_BRANCHING ^ (rrb.height + 1) =
          lastIndex (rrb.root.size rrb.height) := by
        have leaves := tree.leaves
        rw [← tree.size] at leaves
        rw [(lastIndex_digit leaves rrb.height).2, Nat.mod_eq_of_lt]
        rw [tree.size]
        exact lt_of_le_of_ne tree.length_le whole
      obtain ⟨root, copied, dense, contents⟩ := places.copied _ inside
      rw [full] at copied
      rw [places.searched]
      dsimp only [Option.bind_eq_bind, Option.bind_some]
      rw [if_neg (by omega), Nat.zero_add, Nat.zero_add, copied]
      refine .some (pushed.moved full room ⟨dense, ?_, ?_, ?_⟩)
      · rw [List.length_append, full]
        exact (Nat.dvd_add_left (Nat.dvd_refl _)).mpr tree.leaves
      · rw [List.length_append]
        exact tree.tight.imp_right (Nat.lt_add_right _)
      · rw [contents, tree.contents]

private theorem Pushed.push_none (full : last.length = RRB_BRANCHING)
    (large : RRB_BRANCHING ^ RRB_MAX_HEIGHT < inTree.length) (elt : α) : rrbPush behind rrb elt = none := by
  obtain ⟨rfl, _, _⟩ | tree := pushed.tree
  · exact absurd large (Nat.not_lt_zero _)
  · have positive := tree.length_pos
    have searched : searchTail behind rrb = ([], none) := tree.search_high (tree.height_eq large pushed.small)
    rw [rrbPush, if_neg (by rw [pushed.tailLen, full]; exact Nat.lt_irrefl _), pushDownTail]
    dsimp only
    rw [if_neg (by rw [pushed.cnt, full]; omega), searched]
    rfl

/-- What a push makes of a list. -/
theorem Pushed.push (done : rrbPush .null rrb elt = some rrb') :
    ∃ inTree' last', Pushed rrb' inTree' last' ∧ inTree' ++ last' = inTree ++ last ++ [elt] := by
  by_cases room : last.length < RRB_BRANCHING
  · obtain ⟨_, same, next⟩ : (rrbPush .null rrb elt).Yields _ := pushed.tailPush room elt
    cases done.symm.trans same
    exact ⟨_, _, next, (List.append_assoc ..).symm⟩
  · have full : last.length = RRB_BRANCHING := pushed.room.antisymm (Nat.le_of_not_lt room)
    by_cases large : RRB_BRANCHING ^ RRB_MAX_HEIGHT < inTree.length
    · rw [pushed.push_none full large] at done
      exact nomatch done
    · obtain ⟨_, same, next⟩ := pushed.pushDown full (Nat.le_of_not_lt large) elt
      cases done.symm.trans same
      exact ⟨_, _, next, rfl⟩

end Push

/-- The counts of the lists with a full tail and a tree that ends with a node above the lowest level, other
than the trees that are full. -/
def Overruns (cnt : ℕ) : Prop :=
  ∃ inTree, cnt = inTree + RRB_BRANCHING ∧ 0 < inTree ∧ RRB_BRANCHING ^ 2 ∣ inTree ∧
    ∀ height, inTree ≠ RRB_BRANCHING ^ height

theorem overruns_iff {inTree : ℕ} : Overruns (inTree + RRB_BRANCHING) ↔
    0 < inTree ∧ RRB_BRANCHING ^ 2 ∣ inTree ∧ ∀ height, inTree ≠ RRB_BRANCHING ^ height := by
  constructor
  · rintro ⟨_, same, overruns⟩
    cases Nat.add_right_cancel same
    exact overruns
  · exact fun overruns => ⟨inTree, rfl, overruns⟩

/-- The search for the place of a leaf stays inside the nodes of a tree unless a node above the lowest level
ends with the tree. -/
theorem FullLeaves.reads_iff {height : ℕ} {root : Node α} (full : FullLeaves height root inTree)
    (small : inTree.length ≤ RRB_BRANCHING ^ RRB_MAX_HEIGHT + RRB_BRANCHING) :
    (∀ read ∈ (search .null height root (lastIndex inTree.length) ⟨0, 0⟩).1, read.Inside) ↔
      ¬Overruns (inTree.length + RRB_BRANCHING) := by
  rw [overruns_iff]
  by_cases large : RRB_BRANCHING ^ RRB_MAX_HEIGHT < inTree.length
  · -- one leaf behind a tree of the greatest size
    rw [full.search_high (full.height_eq large small)]
    have only : inTree.length = RRB_BRANCHING ^ RRB_MAX_HEIGHT + RRB_BRANCHING := by
      have leaves := full.leaves
      rw [capacity] at large small ⊢
      simp only [RRB_BRANCHING] at leaves large small ⊢
      omega
    have apart : ¬RRB_BRANCHING ^ 2 ∣ inTree.length := by
      rw [only]
      decide
    simp [apart]
  · have low := full.low (Nat.le_of_not_lt large)
    by_cases whole : inTree.length = RRB_BRANCHING ^ (height + 1)
    · have searched : search .null height root _ _ = _ := full.search_whole low whole
      rw [full.size] at searched
      rw [searched]
      simp [whole]
    · have one : (inTree.take 1).length = 1 := by
        rw [List.length_take]
        exact Nat.min_eq_left full.length_pos
      obtain ⟨depth, places⟩ := full.exists_places low whole (show 1 ≤ _ ∧ _ ≤ RRB_BRANCHING by rw [one]; decide)
      have above : RRB_BRANCHING ^ height < inTree.length :=
        full.tight.resolve_left (Nat.ne_zero_of_lt places.reached)
      have apart : ∀ other, inTree.length ≠ RRB_BRANCHING ^ other := by
        intro other same
        rw [same] at above whole
        have upper := full.length_le
        rw [same] at upper
        have lower := (Nat.pow_lt_pow_iff_right (by decide)).mp above
        have upper := (Nat.pow_le_pow_iff_right (by decide)).mp upper
        exact whole (congrArg _ (upper.antisymm lower))
      have reads := places.reads
      rw [full.size] at reads
      rw [reads]
      simp [full.length_pos, apart]

theorem Pushed.reads_iff (pushed : Pushed rrb inTree last) :
    (∀ read ∈ pushReads .null rrb, read.Inside) ↔ ¬Overruns rrb.cnt := by
  by_cases room : last.length < RRB_BRANCHING
  · -- the tail takes the element
    rw [pushReads, if_pos (.inl (by rw [pushed.tailLen]; exact room))]
    have stays : ¬Overruns rrb.cnt := by
      rintro ⟨size, same, positive, chunk, -⟩
      rw [pushed.cnt] at same
      have leaves : RRB_BRANCHING ∣ inTree.length := by
        obtain ⟨rfl, _, _⟩ | tree := pushed.tree
        · exact Nat.dvd_zero _
        · exact tree.leaves
      have some : 0 < last.length := by
        apply List.length_pos_iff.mpr
        apply pushed.filled
        rintro rfl
        rw [List.length_nil] at same
        omega
      have whole : RRB_BRANCHING ∣ last.length := by
        rw [← Nat.dvd_add_right leaves, same]
        exact (Nat.dvd_add_left (Nat.dvd_refl _)).mpr ((Dvd.intro_left RRB_BRANCHING rfl).trans chunk)
      exact absurd whole (Nat.not_dvd_of_pos_of_lt some room)
    simp [stays]
  · have full : last.length = RRB_BRANCHING := pushed.room.antisymm (Nat.le_of_not_lt room)
    have cnt := pushed.cnt
    rw [full] at cnt
    obtain ⟨rfl, _, _⟩ | tree := pushed.tree
    · -- the tail becomes the tree
      rw [List.length_nil, Nat.zero_add] at cnt
      rw [pushReads, if_pos (.inr cnt.le), cnt, ← Nat.zero_add RRB_BRANCHING, overruns_iff]
      simp
    · have positive := tree.length_pos
      rw [pushReads, if_neg (by rw [pushed.tailLen, full, cnt]; omega), searchTail, pushed.lastIndex_eq full,
        tree.reads_iff pushed.small, cnt]

/-- A push that reads no slot behind a node does not depend on the memory there. -/
private theorem rrbPush_inside (inside : ∀ read ∈ pushReads behind rrb, read.Inside) (behind' : Node α) :
    pushReads behind' rrb = pushReads behind rrb ∧ ∀ elt, rrbPush behind' rrb elt = rrbPush behind rrb elt := by
  by_cases room : rrb.tailLen < RRB_BRANCHING
  · simp only [rrbPush, pushReads, room, true_or, if_true, implies_true, and_self]
  · by_cases small : rrb.cnt ≤ RRB_BRANCHING
    · simp only [rrbPush, pushReads, pushDownTail, small, or_true, if_true, implies_true, and_self]
    · have either : ¬(rrb.tailLen < RRB_BRANCHING ∨ rrb.cnt ≤ RRB_BRANCHING) := not_or.mpr ⟨room, small⟩
      rw [pushReads, if_neg either] at inside
      have same : searchTail behind' rrb = searchTail behind rrb := search_inside inside
      simp only [rrbPush, pushReads, pushDownTail, same, implies_true, and_self]

/-- The lists that pushes build from the empty list. A push that reads behind the slots of a node finds
`NULL` there, as the code expects. -/
inductive Built : Rrb α → Prop
  | create : Built rrbCreate
  | push {rrb rrb' : Rrb α} {behind : Node α} {elt : α} (built : Built rrb)
      (memory : Overruns rrb.cnt → behind = .null) (done : rrbPush behind rrb elt = some rrb') : Built rrb'

theorem Built.pushed (built : Built rrb) : ∃ inTree last, Pushed rrb inTree last := by
  induction built with
  | create => exact ⟨[], [], pushed_create⟩
  | @push rrb rrb' behind elt built memory done ih =>
    obtain ⟨inTree, last, pushed⟩ := ih
    have same : rrbPush .null rrb elt = some rrb' := by
      by_cases overruns : Overruns rrb.cnt
      · rw [← memory overruns]
        exact done
      · rw [← done]
        exact ((rrbPush_inside (pushed.reads_iff.mpr overruns) behind).2 elt).symm
    obtain ⟨inTree', last', next, -⟩ := pushed.push same
    exact ⟨inTree', last', next⟩

/-- Pushes build lists of all counts that fit the tree. -/
private theorem exists_built (elt : α) {n : ℕ} (small : n ≤ RRB_BRANCHING ^ RRB_MAX_HEIGHT) :
    ∃ rrb : Rrb α, rrb.cnt = n ∧ Built rrb := by
  suffices ∃ (rrb : Rrb α) (inTree last : List α), rrb.cnt = n ∧ Built rrb ∧ Pushed rrb inTree last by
    obtain ⟨rrb, _, _, cnt, built, -⟩ := this
    exact ⟨rrb, cnt, built⟩
  induction n with
  | zero => exact ⟨rrbCreate, [], [], rfl, .create, pushed_create⟩
  | succ n ih =>
    obtain ⟨rrb, inTree, last, cnt, built, pushed⟩ := ih (Nat.le_of_succ_le small)
    have counted := pushed.cnt
    have yields : (rrbPush .null rrb elt).Yields fun rrb' => ∃ inTree' last', Pushed rrb' inTree' last' ∧
        inTree'.length + last'.length = inTree.length + last.length + 1 := by
      by_cases room : last.length < RRB_BRANCHING
      · exact (pushed.tailPush room elt).mono fun _ next => ⟨_, _, next, by simp [Nat.add_assoc]⟩
      · exact (pushed.pushDown (pushed.room.antisymm (Nat.le_of_not_lt room)) (by omega) elt).mono
          fun _ next => ⟨_, _, next, by simp⟩
    obtain ⟨rrb', done, inTree', last', next, length⟩ := yields
    exact ⟨rrb', inTree', last', by rw [next.cnt]; omega, .push built (fun _ => rfl) done, next⟩

/-- A list of 2112 elements has a full tail behind a tree of height 2, whose root the next push searches. -/
private theorem exists_searched : ∃ rrb : Rrb ℕ, rrb.cnt = 2112 ∧ Built rrb ∧ rrb.tailLen = RRB_BRANCHING ∧ rrb.height = 2 ∧
    pushReads .null rrb ≠ [] := by
  obtain ⟨rrb, cnt, built⟩ := exists_built 0 (show 2112 ≤ RRB_BRANCHING ^ RRB_MAX_HEIGHT by decide)
  obtain ⟨inTree, last, pushed⟩ := built.pushed
  have counted := pushed.cnt
  have room := pushed.room
  rw [cnt] at counted
  simp only [RRB_BRANCHING] at room
  obtain ⟨rfl, -, -⟩ | tree := pushed.tree
  · rw [List.length_nil] at counted
    omega
  have positive := List.length_pos_iff.mpr (pushed.filled (List.ne_nil_of_length_pos tree.length_pos))
  have leaves := tree.leaves
  simp only [RRB_BRANCHING] at leaves
  have length : inTree.length = 2080 := by omega
  have full : rrb.tailLen = RRB_BRANCHING := by
    rw [pushed.tailLen, RRB_BRANCHING]
    omega
  have height : rrb.height = 2 := by
    have lower := tree.tight
    have upper := tree.length_le
    rw [length] at lower upper
    have below : rrb.height < 3 := by
      apply (Nat.pow_lt_pow_iff_right (show 1 < RRB_BRANCHING by decide)).mp
      obtain low | above := lower
      · rw [low]
        decide
      · exact above.trans (by decide)
    have above : 2 < rrb.height + 1 := by
      apply (Nat.pow_lt_pow_iff_right (show 1 < RRB_BRANCHING by decide)).mp
      exact lt_of_lt_of_le (by decide) upper
    omega
  refine ⟨rrb, cnt, built, full, height, ?_⟩
  have dense := tree.dense
  rw [height] at dense
  obtain ⟨sizeTable, child, root, -⟩ := (dense.shaped : rrb.root.Shaped Eq (1 + 1)).isInternal
  rw [root] at dense
  cases sizeTable with
  | some => exact dense.elim
  | none =>
    have slot : searchSlot none child.length 2111 2 = some (some (2, 63)) := rfl
    have index : u32Sub 2112 1 = 2111 := rfl
    rw [pushReads, if_neg (by rw [full, cnt]; decide), searchTail, height, root, cnt, index, search, slot]
    dsimp only
    split <;> exact List.cons_ne_nil _ _

/-- In every list that is built by pushes, the search of the next push stays inside the nodes, and its result
does not depend on the memory behind them, exactly when the count does not overrun. -/
theorem push_staysInside_iff (built : Built rrb) :
    ((∀ behind, ∀ read ∈ pushReads behind rrb, read.Inside) ∧
      ∀ behind behind' elt, rrbPush behind rrb elt = rrbPush behind' rrb elt) ↔ ¬Overruns rrb.cnt := by
  obtain ⟨inTree, last, pushed⟩ := built.pushed
  constructor
  · exact fun inside => pushed.reads_iff.mp (inside.1 .null)
  · intro stays
    have same := rrbPush_inside (pushed.reads_iff.mpr stays)
    constructor
    · intro behind
      rw [(same behind).1]
      exact pushed.reads_iff.mpr stays
    · exact fun behind behind' elt => ((same behind).2 elt).trans ((same behind').2 elt).symm

/-- The list of 2112 elements: the search reads slots, all inside the nodes. -/
theorem push_staysInside_behindTree : ∃ rrb : Rrb ℕ, rrb.cnt = 2112 ∧ rrb.tailLen = RRB_BRANCHING ∧ rrb.height = 2 ∧
    pushReads .null rrb ≠ [] ∧ (∀ behind, ∀ read ∈ pushReads behind rrb, read.Inside) ∧
      ∀ behind behind' elt, rrbPush behind rrb elt = rrbPush behind' rrb elt := by
  obtain ⟨rrb, cnt, built, full, height, searched⟩ := exists_searched
  have stays : ¬Overruns rrb.cnt := by
    rw [cnt]
    exact fun overruns => absurd (overruns_iff.mp (overruns : Overruns (2080 + RRB_BRANCHING))).2.1 (by decide)
  have inside := (push_staysInside_iff built).mpr stays
  exact ⟨rrb, cnt, full, height, searched, inside.1, inside.2⟩

/-- The tree of a list of 2080 elements has two full children of height 1, and the search reads the slot behind
them. -/
theorem push_leavesNode :
    ¬∀ rrb : Rrb ℕ, Built rrb → ∀ behind, ∀ read ∈ pushReads behind rrb, read.Inside := by
  intro claimed
  obtain ⟨rrb, cnt, built⟩ := exists_built 0 (show 2080 ≤ RRB_BRANCHING ^ RRB_MAX_HEIGHT by decide)
  obtain ⟨inTree, last, pushed⟩ := built.pushed
  apply pushed.reads_iff.mp (claimed rrb built .null)
  rw [cnt]
  refine ⟨2048, rfl, by decide, by decide, ?_⟩
  intro height same
  have lower : RRB_BRANCHING ^ 2 < RRB_BRANCHING ^ height := by
    rw [← same]
    decide
  have upper : RRB_BRANCHING ^ height < RRB_BRANCHING ^ 3 := by
    rw [← same]
    decide
  have lower := (Nat.pow_lt_pow_iff_right (by decide)).mp lower
  have upper := (Nat.pow_lt_pow_iff_right (by decide)).mp upper
  omega

end Owl.Lists
