import Owl.Model.Lists.Heads
import Owl.Soundness.Concatenation
import Owl.Soundness.Sequences

/-! # Concatenations of sequences

A concatenation puts the tail of the left list into its tree and joins the trees. The join opens the right edge of the
left tree, so the leaf in front of the tail may be short as long as the tail gets a slot of its own. A count that fits
one leaf is taken for a list without a tree, whatever the list has.
-/

namespace Owl.Lists

open Option (Yields)
open Node (toList Shaped)

variable {α : Type} {height : ℕ} {node node' root : Node α} {child : List (Node α)} {tail : List α}
  {left right rrb : Rrb α} {inTree inTail inTree' inTail' : List α}

/-- The last entry of every size table is the number of elements below it. -/
def Node.ExactTables : ℕ → Node α → Prop
  | height + 1, internal (some table) child =>
      table[child.length - 1]? = some ((internal (some table) child).size (height + 1)) ∧
        ∀ node ∈ child, node.ExactTables height
  | _, _ => True

instance decidableExactTables : ∀ (height : ℕ) (node : Node α), Decidable (node.ExactTables height)
  | height + 1, .internal (some _) child =>
      have (node : Node α) := decidableExactTables height node
      inferInstanceAs (Decidable (_ ∧ ∀ node ∈ child, _))
  | _ + 1, .internal none _ | 0, _ | _ + 1, .leaf _ | _ + 1, .null => .isTrue trivial

theorem Node.Shaped.wellFormed {fits : ℕ → ℕ → Prop} : ∀ {height} {node : Node α}, node.Shaped fits height →
    node.ExactTables height → node.WellFormed height := by
  intro height
  induction height with
  | zero => exact fun shaped _ => shaped
  | succ height ih =>
    intro node shaped exact
    obtain ⟨sizeTable, child, rfl, -⟩ := shaped.isInternal
    cases sizeTable with
    | none => exact shaped
    | some table =>
      refine ⟨shaped.1, fun node member => ih (shaped.2.1 node member) (exact.2 node member), shaped.2.2.inner, _,
        exact.1, ?_⟩
      rw [Node.before_size (some table)]

private theorem slot_concat (child : List (Node α)) (node : Node α) :
    slot (child ++ [node]) ((child ++ [node]).length - 1) = node := by
  rw [List.length_append, List.length_singleton, Nat.add_sub_cancel]
  exact slot_eq List.getElem?_concat_length

/-- Well-formed nodes and an open one behind them. -/
theorem Node.OpenRight.concat {sizeTable : Option (List ℕ)} (room : child.length < RRB_BRANCHING)
    (formed : ∀ node ∈ child, node.WellFormed height) (opened : node.OpenRight height) :
    (Node.internal sizeTable (child ++ [node])).OpenRight (height + 1) := by
  refine ⟨?_, ?_, ?_⟩
  · rw [List.length_append, List.length_singleton]
    omega
  · rwa [List.dropLast_concat]
  · rwa [slot_concat]

private theorem appendEmpty_openRight (slots : 1 ≤ tail.length ∧ tail.length ≤ RRB_BRANCHING) (emptyHeight : ℕ) :
    (appendEmpty emptyHeight (.leaf tail)).OpenRight emptyHeight :=
  Node.WellFormed.openRight (appendEmpty_slots slots emptyHeight).shaped

theorem Landed.openRight (slots : 1 ≤ tail.length ∧ tail.length ≤ RRB_BRANCHING) (landed : Landed tail height node node')
    (wellFormed : node.WellFormed height) : node'.OpenRight height := by
  induction landed with
  | own room noPlace longer => exact .concat room (Shaped.below wellFormed) (appendEmpty_openRight slots _)
  | @inner height sizeTable sizeTable' child copied place landed grown ih =>
    have some' := place.inhabited
    have bound := (Shaped.slots wellFormed).2
    have below := Shaped.below wellFormed
    rw [set_last some']
    apply Node.OpenRight.concat
    · rw [List.length_dropLast]
      omega
    · exact fun node member => below node (List.dropLast_subset _ member)
    · exact ih (below _ (slot_mem (by omega)))

private theorem Landed.slots_le (landed : Landed tail height node node') : node'.len.getD 0 ≤ node.len.getD 0 + 1 := by
  cases landed with
  | own => exact List.length_append.le
  | inner => exact (List.length_set.le).trans (Nat.le_succ _)

theorem Sunk.openRight {cnt height' : ℕ} {root' : Node α} (slots : 1 ≤ tail.length ∧ tail.length ≤ RRB_BRANCHING)
    (sunk : Sunk tail cnt height root height' root') (wellFormed : root.WellFormed height) : root'.OpenRight height' := by
  cases sunk with
  | placed place landed => exact landed.openRight slots wellFormed
  | above noPlace tabled =>
    have room : [root].length < RRB_BRANCHING := show 1 < RRB_BRANCHING by decide
    exact .concat room (List.forall_mem_singleton.mpr wellFormed) (appendEmpty_openRight slots height)

private theorem Sunk.slotsAt_le {cnt height' : ℕ} {root' : Node α} (sunk : Sunk tail cnt height root height' root')
    (level : ℕ) :
    slotsAt level height' root' ≤ slotsAt level height root + 2 := by
  cases sunk with
  | placed place landed =>
    rw [slotsAt, slotsAt]
    split_ifs
    · exact landed.slots_le.trans (Nat.le_succ _)
    · exact Nat.zero_le _
  | above noPlace tabled =>
    rw [slotsAt]
    split_ifs
    · exact Nat.le_add_left ..
    · exact Nat.zero_le _

/-- The tree takes a tail that may be short, in its place or below a new root. -/
structure Node.TakesLeaf (extra height : ℕ) (root : Node α) : Prop where
  searchable : root.Searchable height
  behind : root.LeafBehind extra height
  above : ¬root.HasPlace extra height → height < RRB_MAX_HEIGHT

instance (extra height : ℕ) (root : Node α) : Decidable (root.TakesLeaf extra height) :=
  decidable_of_iff ((height ≤ RRB_MAX_HEIGHT ∧ (height < RRB_MAX_HEIGHT ∨ root.HasTable)) ∧ root.LeafBehind extra height ∧
      (¬root.HasPlace extra height → height < RRB_MAX_HEIGHT))
    ⟨fun takes => ⟨⟨takes.1.1, takes.1.2⟩, takes.2.1, takes.2.2⟩,
      fun takes => ⟨⟨takes.searchable.low, takes.searchable.top⟩, takes.behind, takes.above⟩⟩

/-- Tails that do not fit one leaf put a full one into the left tree. -/
def JoinsTails (left right : Rrb α) : Prop :=
  left.tailLen < left.cnt → RRB_BRANCHING < left.tailLen + right.tailLen → left.root.TakesTail left.height

instance (left right : Rrb α) : Decidable (JoinsTails left right) := inferInstanceAs (Decidable (_ → _ → _))

/-- A left list with a tree has more elements than a leaf, and the tree takes the tail. Size tables are exact, and the
slots of the roots at the greatest height fit one node. -/
structure JoinsTrees (left right : Rrb α) : Prop where
  kept : left.cnt ≤ RRB_BRANCHING → left.cnt = left.tailLen
  sinks : RRB_BRANCHING < left.cnt → left.root.TakesLeaf (left.tailLen - 1) left.height
  exact : left.root.ExactTables left.height ∧ right.root.ExactTables right.height
  top : slotsAt RRB_MAX_HEIGHT left.height left.root + 2 + slotsAt RRB_MAX_HEIGHT right.height right.root < RRB_BRANCHING

instance (left right : Rrb α) : Decidable (JoinsTrees left right) :=
  decidable_of_iff ((left.cnt ≤ RRB_BRANCHING → left.cnt = left.tailLen) ∧
      (RRB_BRANCHING < left.cnt → left.root.TakesLeaf (left.tailLen - 1) left.height) ∧
      (left.root.ExactTables left.height ∧ right.root.ExactTables right.height) ∧
      slotsAt RRB_MAX_HEIGHT left.height left.root + 2 + slotsAt RRB_MAX_HEIGHT right.height right.root < RRB_BRANCHING)
    ⟨fun joins => ⟨joins.1, joins.2.1, joins.2.2.1, joins.2.2.2⟩,
      fun joins => ⟨joins.kept, joins.sinks, joins.exact, joins.top⟩⟩

/-- The condition of a concatenation. -/
def Joins (left right : Rrb α) : Prop :=
  0 < left.cnt → 0 < right.cnt → left.cnt + right.cnt < 2 ^ 32 ∧
    match right.root with
    | .null => JoinsTails left right
    | _ => JoinsTrees left right

instance (left : Rrb α) : ∀ right : Rrb α, Decidable (Joins left right)
  | ⟨cnt, height, tailLen, tail, .null⟩ =>
      inferInstanceAs (Decidable (_ → 0 < cnt → _ ∧ JoinsTails left ⟨cnt, height, tailLen, tail, .null⟩))
  | ⟨cnt, height, tailLen, tail, .leaf child⟩ =>
      inferInstanceAs (Decidable (_ → 0 < cnt → _ ∧ JoinsTrees left ⟨cnt, height, tailLen, tail, .leaf child⟩))
  | ⟨cnt, height, tailLen, tail, .internal sizeTable child⟩ =>
      inferInstanceAs (Decidable (_ → 0 < cnt → _ ∧ JoinsTrees left ⟨cnt, height, tailLen, tail,
        .internal sizeTable child⟩))

/-- A list holds a sequence, and without a tail it is empty. -/
def Rrb.Spells (rrb : Rrb α) (xs : List α) : Prop :=
  ∃ inTree inTail, rrb.Contains Covers inTree inTail ∧ (inTail = [] → inTree = []) ∧ inTree ++ inTail = xs

private theorem elements_yields {elements : List α} (leaf : node = .leaf elements) :
    node.elements.Yields (elements = ·) := by
  rw [leaf]
  exact .some rfl

private theorem leafNodeCreate_yields {len : ℕ} {elements : List α} (length : elements.length = len) :
    (leafNodeCreate len elements).Yields (Node.leaf elements = ·) := by
  rw [leafNodeCreate, if_pos length]
  exact .some rfl

/-- The tail of the left list goes down into its tree. -/
private theorem sinkTail_yields (contains : left.Contains Covers inTree inTail) (filled : inTail ≠ [])
    (joins : JoinsTrees left right) :
    (pushDownTail .null left left .null).Yields fun sunk => sunk.cnt = left.cnt ∧ sunk.height ≤ RRB_MAX_HEIGHT ∧
      sunk.root.OpenRight sunk.height ∧ sunk.root.toList sunk.height = inTree ++ inTail ∧
        slotsAt RRB_MAX_HEIGHT sunk.height sunk.root ≤ slotsAt RRB_MAX_HEIGHT left.height left.root + 2 := by
  have cnt := contains.cnt
  have slots : 1 ≤ inTail.length ∧ inTail.length ≤ RRB_BRANCHING := ⟨List.length_pos_of_ne_nil filled, contains.slots⟩
  by_cases small : left.cnt ≤ RRB_BRANCHING
  · -- the tail becomes the tree
    have none : inTree = [] := by
      apply List.eq_nil_of_length_eq_zero
      have kept := joins.kept small
      rw [contains.tailLen] at kept
      omega
    rw [pushDownTail_small small, contains.tail, none]
    exact .some ⟨rfl, Nat.zero_le _, slots, rfl, Nat.zero_le _⟩
  · have large := Nat.lt_of_not_le small
    obtain ⟨searchable, behind, above⟩ := joins.sinks large
    rw [contains.tailLen] at behind above
    obtain ⟨rfl, -⟩ | ⟨shaped, contents⟩ := contains.tree
    · rw [List.length_nil] at cnt
      omega
    · have total : left.cnt = left.root.size left.height + inTail.length := by
        rw [cnt, Node.size, contents]
      refine Yields.mono
        (pushDownTail_yields slots large contains.word total shaped searchable behind contains.tail rfl) ?_
      rintro _ ⟨height', root', rfl, sunk⟩
      refine ⟨rfl, ?_, sunk.openRight slots (shaped.wellFormed joins.exact.1), ?_, sunk.slotsAt_le RRB_MAX_HEIGHT⟩
      · cases sunk with
        | placed => exact contains.low
        | above noPlace => exact above noPlace
      · rw [sunk.toList, contents]

section Concat

variable (contains : left.Contains Covers inTree inTail) (contains' : right.Contains Covers inTree' inTail')
  (filled' : inTail' ≠ []) (word : left.cnt + right.cnt < 2 ^ 32)

include contains contains' filled' word

private theorem concatTails_spells (absent : inTree' = []) (joins : JoinsTails left right) :
    (concatTails .null left right).Yields (Rrb.Spells · (inTree ++ inTail ++ (inTree' ++ inTail'))) := by
  subst absent
  have cnt := contains.cnt
  have cnt' := contains'.cnt
  have tailLen := contains.tailLen
  have tailLen' := contains'.tailLen
  have slots := contains.slots
  have slots' := contains'.slots
  have positive := List.length_pos_of_ne_nil filled'
  have counted : u32 (left.cnt + right.cnt) = inTree.length + inTail.length + inTail'.length := by
    rw [u32_of_lt word, cnt, cnt', List.length_nil, Nat.zero_add]
  have counted' : u32 (left.cnt + right.cnt) < 2 ^ 32 := (u32_of_lt word).trans_lt word
  have branching : RRB_BRANCHING = 32 := rfl
  rw [List.length_nil, Nat.zero_add] at cnt'
  rw [concatTails, contains'.tail]
  split_ifs with full fits
  · -- the left tail is full
    have takes : RRB_BRANCHING < left.cnt → left.root.TakesTail left.height := fun large =>
      joins (by omega) (by omega)
    refine Yields.mono (pushDownTail_full (tailLen.symm.trans full) contains.tree cnt contains.word takes
      contains.tail rfl) ?_
    rintro _ ⟨height', root', rfl, low, shaped, contents⟩
    refine ⟨inTree ++ inTail, inTail', ⟨rfl, tailLen', ?_, slots', counted', low, .inr ⟨shaped, contents⟩⟩, ?_, rfl⟩
    · rw [List.length_append]
      exact counted
    · exact fun none => absurd none filled'
  · -- the tails fit one leaf
    rw [contains.tail]
    refine .some ⟨inTree, inTail ++ inTail', ⟨rfl, ?_, ?_, ?_, counted', contains.low, contains.tree⟩, ?_, ?_⟩
    · rw [List.length_append, tailLen, tailLen']
    · rw [List.length_append, ← Nat.add_assoc]
      exact counted
    · rw [List.length_append]
      omega
    · exact fun none => absurd (List.append_eq_nil_iff.mp none).2 filled'
    · rw [List.nil_append, List.append_assoc]
  · -- the left tail is filled from the right one
    have cut : u32Sub RRB_BRANCHING left.tailLen = RRB_BRANCHING - left.tailLen := u32Sub_of_le (by omega) (by decide)
    have rest : u32Sub right.tailLen (u32Sub RRB_BRANCHING left.tailLen) =
        right.tailLen - (RRB_BRANCHING - left.tailLen) := by
      rw [cut, u32Sub_of_le (by omega) (by omega)]
    have whole : (inTail.take left.tailLen ++ inTail'.take (u32Sub RRB_BRANCHING left.tailLen)).length = RRB_BRANCHING := by
      rw [List.length_append, List.length_take, List.length_take, cut]
      omega
    have remains : ((inTail'.drop (u32Sub RRB_BRANCHING left.tailLen)).take
        (u32Sub right.tailLen (u32Sub RRB_BRANCHING left.tailLen))).length =
          u32Sub right.tailLen (u32Sub RRB_BRANCHING left.tailLen) := by
      rw [List.length_take, List.length_drop, rest, cut]
      omega
    refine .bind (elements_yields contains.tail) ?_
    rintro _ rfl
    refine .bind (elements_yields rfl) ?_
    rintro _ rfl
    refine .bind (leafNodeCreate_yields whole) ?_
    rintro _ rfl
    refine .bind (leafNodeCreate_yields remains) ?_
    rintro _ rfl
    have imitation : u32Sub (u32 (left.cnt + right.cnt)) (u32Sub right.tailLen (u32Sub RRB_BRANCHING left.tailLen)) =
        inTree.length + RRB_BRANCHING := by
      rw [rest, u32Sub_of_le (by omega) counted', counted]
      omega
    have takes : RRB_BRANCHING < u32Sub (u32 (left.cnt + right.cnt))
        (u32Sub right.tailLen (u32Sub RRB_BRANCHING left.tailLen)) → left.root.TakesTail left.height := fun large =>
      joins (by omega) (by omega)
    refine Yields.mono (pushDownTail_full whole contains.tree ?_ ?_ takes rfl rfl) ?_
    · rw [whole]
      exact imitation
    · exact imitation.trans_lt (by omega)
    · rintro _ ⟨height', root', rfl, low, shaped, contents⟩
      refine ⟨_, _, ⟨rfl, remains.symm, ?_, ?_, counted', low, .inr ⟨shaped, contents⟩⟩, ?_, ?_⟩
      · rw [List.length_append, whole, remains, rest]
        exact counted.trans (by omega)
      · rw [remains, rest]
        omega
      · intro none
        rw [none, List.length_nil, rest] at remains
        omega
      · have mine : inTail.take left.tailLen = inTail := List.take_of_length_le tailLen.ge
        have others : (inTail'.drop (RRB_BRANCHING - left.tailLen)).take (right.tailLen - (RRB_BRANCHING - left.tailLen)) =
            inTail'.drop (RRB_BRANCHING - left.tailLen) := by
          apply List.take_of_length_le
          rw [List.length_drop]
          omega
        rw [mine, rest, cut, others]
        simp only [List.append_assoc, List.take_append_drop, List.nil_append]

private theorem concatTrees_spells (filled : inTail ≠ []) (present : right.root ≠ .null) (joins : JoinsTrees left right) :
    (concatTrees .null left right).Yields (Rrb.Spells · (inTree ++ inTail ++ (inTree' ++ inTail'))) := by
  obtain ⟨-, absent⟩ | ⟨shaped', contents'⟩ := contains'.tree
  · exact absurd absent present
  have size' : right.root.size right.height = inTree'.length := congrArg List.length contents'
  have cnt := contains.cnt
  have cnt' := contains'.cnt
  have counted : u32 (left.cnt + right.cnt) = (inTree ++ inTail ++ inTree').length + inTail'.length := by
    rw [u32_of_lt word, List.length_append, List.length_append]
    omega
  refine .bind (sinkTail_yields contains filled joins) ?_
  rintro sunk ⟨sameCnt, low, opened, contents, slots⟩
  have size : sunk.root.size sunk.height = inTree.length + inTail.length := by
    rw [Node.size, contents, List.length_append]
  refine .bind (concatRoots_yields low contains'.low opened (shaped'.wellFormed joins.exact.2) (by omega)) ?_
  rintro ⟨root, height⟩ ⟨wellFormed, elements, above, flat⟩
  rw [contents, contents'] at elements
  have rootWord : root.size height < 2 ^ 32 := by
    rw [Node.size, elements]
    rw [u32_of_lt word] at counted
    omega
  have rootLow : height ≤ RRB_MAX_HEIGHT := by
    by_cases highest : max sunk.height right.height < RRB_MAX_HEIGHT
    · omega
    · have top := joins.top
      have same : max sunk.height right.height = RRB_MAX_HEIGHT :=
        (max_le low contains'.low).antisymm (Nat.le_of_not_lt highest)
      rw [same] at flat
      exact flat (by decide) (by omega)
  refine .some ⟨inTree ++ inTail ++ inTree', inTail', ⟨contains'.tail, contains'.tailLen, ?_, contains'.slots, ?_, rootLow,
    .inr ⟨wellFormed.covers exact_admissible rootWord, elements⟩⟩, ?_, ?_⟩
  · dsimp only
    rw [sameCnt]
    exact counted
  · dsimp only
    rw [sameCnt]
    exact (u32_of_lt word).trans_lt word
  · exact fun none => absurd none filled'
  · simp only [List.append_assoc]

end Concat

theorem Rrb.Spells.filled {xs : List α} (spells : rrb.Spells xs) (some' : rrb.cnt ≠ 0) :
    ∃ inTree inTail, rrb.Contains Covers inTree inTail ∧ inTail ≠ [] ∧ inTree ++ inTail = xs := by
  obtain ⟨inTree, inTail, contains, filled, same⟩ := spells
  refine ⟨inTree, inTail, contains, ?_, same⟩
  rintro rfl
  apply some'
  rw [contains.cnt, filled rfl]
  rfl

theorem Rrb.Spells.nil {xs : List α} (spells : rrb.Spells xs) (none : rrb.cnt = 0) : xs = [] := by
  obtain ⟨inTree, inTail, contains, -, rfl⟩ := spells
  apply List.eq_nil_of_length_eq_zero
  rw [List.length_append, ← contains.cnt, none]

theorem Rrb.Spells.agrees {xs : List α} (spells : rrb.Spells xs) : Agrees rrb xs := by
  obtain ⟨inTree, inTail, contains, -, rfl⟩ := spells
  exact contains.agrees

/-- A concatenation under its condition. -/
theorem rrbConcat_spells {left right : RrbPtr α} {xs ys : List α} (spells : left.head.Spells xs)
    (spells' : right.head.Spells ys) (joins : Joins left.head right.head) :
    (rrbConcat .null left right).Yields fun joined => joined.head.Spells (xs ++ ys) := by
  rw [rrbConcat]
  split_ifs with none none'
  · rw [spells.nil none, List.nil_append]
    exact .some spells'
  · rw [spells'.nil none', List.append_nil]
    exact .some spells
  · obtain ⟨inTree, inTail, contains, filled, rfl⟩ := spells.filled none
    obtain ⟨inTree', inTail', contains', filled', rfl⟩ := spells'.filled none'
    obtain ⟨word, joins⟩ := joins (Nat.pos_of_ne_zero none) (Nat.pos_of_ne_zero none')
    split
    · next absent =>
      rw [absent] at joins
      have nothing : inTree' = [] := by
        obtain ⟨nothing, -⟩ | ⟨shaped, -⟩ := contains'.tree
        · exact nothing
        · exact absurd absent shaped.present
      apply Yields.map
      exact concatTails_spells contains contains' filled' word nothing joins
    · next present =>
      apply Yields.map
      apply concatTrees_spells contains contains' filled' word filled present
      split at joins
      · next absent => exact absurd absent present
      · exact joins

theorem rrbPushAt_spells {list : RrbPtr α} {xs : List α} (spells : list.head.Spells xs) (takes : list.head.TakesPush)
    (elt : α) : (rrbPushAt .null list elt).Yields fun pushed => pushed.head.Spells (xs ++ [elt]) := by
  obtain ⟨inTree, inTail, contains, -, rfl⟩ := spells
  apply Yields.map
  refine (contains.push takes elt).mono ?_
  rintro pushed ⟨inTree', inTail', contains', filled, same⟩
  exact ⟨inTree', inTail', contains', fun none => absurd none filled, same⟩

/-- The head of a slice is the slice of the head. -/
private theorem rrbSliceAt_head (list : RrbPtr α) (start stop : ℕ) :
    (rrbSliceAt list start stop).map RrbPtr.head = rrbSlice list.head start stop := by
  have cutLeft (list : RrbPtr α) : (sliceLeftAt list start).map RrbPtr.head = sliceLeft list.head start := by
    rw [sliceLeftAt]
    split_ifs with outside
    · rw [sliceLeft, if_pos outside]
      rfl
    · rw [Option.map_map]
      exact Option.map_id'
  have cutRight : (sliceRightAt list stop).map RrbPtr.head = sliceRight list.head stop := by
    rw [sliceRightAt]
    split_ifs with nothing inside
    · rw [sliceRight, if_pos nothing]
      rfl
    · rw [Option.map_map]
      exact Option.map_id'
    · rw [sliceRight, if_neg nothing, if_neg inside]
      rfl
  rw [rrbSliceAt, rrbSlice, ← cutRight]
  cases sliceRightAt list stop with
  | none => rfl
  | some sliced => exact cutLeft sliced

theorem rrbSliceAt_spells {list : RrbPtr α} {xs : List α} (spells : list.head.Spells xs) (start stop : ℕ) :
    (rrbSliceAt list start stop).Yields fun sliced => sliced.head.Spells ((xs.take stop).drop start) := by
  obtain ⟨inTree, inTail, contains, filled, rfl⟩ := spells
  obtain ⟨sliced, done, -, inTree', inTail', contains', kept, same⟩ :=
    rrbSlice_yields covers_admissible contains start stop
  rw [← rrbSliceAt_head, Option.map_eq_some_iff] at done
  obtain ⟨list', done, rfl⟩ := done
  refine ⟨list', done, inTree', inTail', contains', ?_, same⟩
  intro none
  by_cases none' : inTail = []
  · rw [none', filled none'] at same
    apply (List.append_eq_nil_iff.mp _).1
    · exact inTail'
    · rw [same, List.append_nil, List.take_nil, List.drop_nil]
  · exact kept none' none

/-- A program of list operations that begins at the empty list. -/
inductive Making (α : Type) where
  | empty
  | push (list : Making α) (elt : α)
  | concat (left right : Making α)
  | slice (list : Making α) (start stop : ℕ)
deriving Repr

namespace Making

/-- The list that a program makes; the slots behind the `len` of a node read as `NULL`. -/
def make : Making α → Option (RrbPtr α)
  | empty => some .emptyRrb
  | push list elt => do rrbPushAt .null (← list.make) elt
  | concat left right => do rrbConcat .null (← left.make) (← right.make)
  | slice list start stop => do rrbSliceAt (← list.make) start stop

/-- The sequence that a program stands for. -/
def elements : Making α → List α
  | empty => []
  | push list elt => list.elements ++ [elt]
  | concat left right => left.elements ++ right.elements
  | slice list start stop => (list.elements.take stop).drop start

/-- Every operation of a program meets its condition. A slice has none. -/
def Safe : Making α → Prop
  | empty => True
  | push list _ => list.Safe ∧ ∀ made ∈ list.make, made.head.TakesPush
  | concat left right =>
      left.Safe ∧ right.Safe ∧ ∀ made ∈ left.make, ∀ made' ∈ right.make, Joins made.head made'.head
  | slice list _ _ => list.Safe

instance decidableSafe : ∀ making : Making α, Decidable making.Safe
  | empty => .isTrue trivial
  | push list _ =>
      have := decidableSafe list
      inferInstanceAs (Decidable (_ ∧ ∀ made ∈ list.make, made.head.TakesPush))
  | concat left right =>
      have := decidableSafe left
      have := decidableSafe right
      inferInstanceAs (Decidable (_ ∧ _ ∧ ∀ made ∈ left.make, ∀ made' ∈ right.make, Joins made.head made'.head))
  | slice list _ _ => decidableSafe list

theorem spells {making : Making α} (safe : making.Safe) :
    making.make.Yields fun list => list.head.Spells making.elements := by
  induction making with
  | empty => exact .some ⟨[], [], contains_create, fun _ => rfl, rfl⟩
  | push list elt ih =>
    obtain ⟨made, done, spells⟩ := ih safe.1
    rw [make, done]
    exact rrbPushAt_spells spells (safe.2 made done) elt
  | concat left right ih ih' =>
    obtain ⟨made, done, spells⟩ := ih safe.1
    obtain ⟨made', done', spells'⟩ := ih' safe.2.1
    rw [make, done, done']
    exact rrbConcat_spells spells spells' (safe.2.2 made done made' done')
  | slice list start stop ih =>
    obtain ⟨made, done, spells⟩ := ih safe
    rw [make, done]
    exact rrbSliceAt_spells spells start stop

end Making

/-- The elements of the left list and then those of the right one. -/
structure Concatenates (left right joined : RrbPtr α) : Prop where
  count : rrbCount joined.head = rrbCount left.head + rrbCount right.head
  front : ∀ i < rrbCount left.head, ∃ elt, rrbNth left.head i = some (some elt) ∧
    rrbNth joined.head i = some (some elt)
  back : ∀ i, rrbCount left.head ≤ i → i < rrbCount left.head + rrbCount right.head →
    ∃ elt, rrbNth right.head (i - rrbCount left.head) = some (some elt) ∧ rrbNth joined.head i = some (some elt)

private theorem Agrees.exists_nth {xs : List α} (agrees : Agrees rrb xs) {i : ℕ} (inside : i < rrbCount rrb) :
    ∃ elt, xs[i]? = some elt ∧ rrbNth rrb i = some (some elt) := by
  have bound : i < xs.length := agrees.1 ▸ inside
  refine ⟨xs[i], List.getElem?_eq_getElem bound, ?_⟩
  rw [agrees.2 i inside, List.getElem?_eq_getElem bound]

theorem Agrees.concatenates {left right joined : RrbPtr α} {xs ys : List α} (agrees : Agrees left.head xs)
    (agrees' : Agrees right.head ys) (whole : Agrees joined.head (xs ++ ys)) : Concatenates left right joined := by
  have count : rrbCount joined.head = rrbCount left.head + rrbCount right.head := by
    rw [whole.1, agrees.1, agrees'.1, List.length_append]
  refine ⟨count, ?_, ?_⟩
  · intro i inside
    obtain ⟨elt, found, nth⟩ := agrees.exists_nth inside
    refine ⟨elt, nth, ?_⟩
    rw [whole.2 i (by omega), List.getElem?_append_left (agrees.1 ▸ inside), found]
  · intro i behind inside
    obtain ⟨elt, found, nth⟩ := agrees'.exists_nth (show i - rrbCount left.head < rrbCount right.head by omega)
    refine ⟨elt, nth, ?_⟩
    rw [whole.2 i (by omega), List.getElem?_append_right (agrees.1 ▸ behind), ← agrees.1, found]

/-- Concatenation of two lists that safe programs make, under its condition, and both lists are what their programs
stand for. -/
theorem concat_concatenates (left right : Making α) (safe : (Making.concat left right).Safe) :
    ∃ made made' joined, left.make = some made ∧ right.make = some made' ∧ rrbConcat .null made made' = some joined ∧
      Agrees made.head left.elements ∧ Agrees made'.head right.elements ∧ Concatenates made made' joined := by
  obtain ⟨made, done, spells⟩ := Making.spells safe.1
  obtain ⟨made', done', spells'⟩ := Making.spells safe.2.1
  obtain ⟨joined, joins, whole⟩ := rrbConcat_spells spells spells' (safe.2.2 made done made' done')
  exact ⟨made, made', joined, done, done', joins, spells.agrees, spells'.agrees,
    spells.agrees.concatenates spells'.agrees whole.agrees⟩

/-- A full leaf and one more element. -/
def leafAndOne : Making ℕ := (List.range 33).foldl .push .empty

/-- The middle of two of them: five elements, of which two are in the tail and three in a tree of two leaves. -/
def aroundSeam : Making ℕ := .slice (.concat leafAndOne leafAndOne) 30 35

theorem concat_concatenates_aroundSeam :
    ∃ made made' joined, leafAndOne.make = some made ∧ aroundSeam.make = some made' ∧
      rrbConcat .null made made' = some joined ∧ Agrees made.head leafAndOne.elements ∧
        Agrees made'.head aroundSeam.elements ∧ Concatenates made made' joined :=
  concat_concatenates leafAndOne aroundSeam (by decide +kernel)

/-- On the left, the same five elements are taken for a list without a tree, and the tail takes the place of the
tree. -/
theorem concat_drops : ¬∀ (left right : Making ℕ) (made made' joined : RrbPtr ℕ), left.make = some made →
    right.make = some made' → rrbConcat .null made made' = some joined → Concatenates made made' joined := by
  intro claimed
  have first : (aroundSeam.make.bind fun made => rrbNth made.head 0) = some (some 30) := by decide +kernel
  have count : (aroundSeam.make.map fun made => rrbCount made.head) = some 5 := by decide +kernel
  have dropped : (aroundSeam.make.bind fun made => leafAndOne.make.bind fun made' =>
      (rrbConcat .null made made').bind fun joined => rrbNth joined.head 0) = some (some 0) := by decide +kernel
  obtain ⟨made, done, dropped⟩ := Option.bind_eq_some_iff.mp dropped
  obtain ⟨made', done', dropped⟩ := Option.bind_eq_some_iff.mp dropped
  obtain ⟨joined, joins, dropped⟩ := Option.bind_eq_some_iff.mp dropped
  rw [done] at first count
  have five : rrbCount made.head = 5 := Option.some.inj count
  have inside : 0 < rrbCount made.head := by omega
  obtain ⟨elt, found, nth⟩ := (claimed aroundSeam leafAndOne made made' joined done done' joins).front 0 inside
  cases found.symm.trans first
  cases nth.symm.trans dropped

end Owl.Lists
