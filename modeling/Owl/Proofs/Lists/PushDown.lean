import Owl.Proofs.Lists.Landing

/-! # The tail in the tree

A tail goes down into the tree below a slot of its own, or below a new root when the tree has no place. The elements
follow those of the tree in any case. The tree stays well-formed when the tail is full, the leaves without size tables
are full, and the last entry of a size table is exact where the tail gets a slot beside it.
-/

namespace Owl.Lists

open Blocks
open Option (Yields)
open Node (toList Shaped Totals)

variable {α : Type} {height i entry extra : ℕ} {node node' root copied : Node α} {child : List (Node α)} {table : List ℕ}
  {tail : List α} {rrb newRrb : Rrb α} {newTail : Node α}

theorem appendEmpty_toList (emptyHeight : ℕ) : (appendEmpty emptyHeight (.leaf tail)).toList emptyHeight = tail := by
  induction emptyHeight with
  | zero => rfl
  | succ emptyHeight ih => rw [appendEmpty, toList, List.flatMap_singleton, ih]

/-- A child with a place is there. -/
theorem Node.HasPlace.inhabited (place : (slot child i).HasPlace extra height) : 1 ≤ child.length := by
  cases child with
  | nil => cases height with
    | zero | succ => exact place.elim
  | cons first rest => exact Nat.succ_pos rest.length

theorem Landed.toList (landed : Landed tail height node node') : node'.toList height = node.toList height ++ tail := by
  induction landed with
  | own room noPlace longer =>
    rw [toList_snoc, appendEmpty_toList]
    rfl
  | @inner height sizeTable sizeTable' child copied place landed grown ih =>
    rw [set_last place.inhabited, toList_snoc, ih, toList_last sizeTable (split_last place.inhabited), List.append_assoc]
    rfl

theorem full_slots (full : tail.length = RRB_BRANCHING) : 1 ≤ tail.length ∧ tail.length ≤ RRB_BRANCHING := by
  rw [full]
  decide

theorem appendEmpty_slots (slots : 1 ≤ tail.length ∧ tail.length ≤ RRB_BRANCHING) (emptyHeight : ℕ) :
    (appendEmpty emptyHeight (.leaf tail)).Dense emptyHeight :=
  (appendEmpty_dense (show (Node.leaf tail).Dense 0 from slots) emptyHeight).1

theorem appendEmpty_size (emptyHeight : ℕ) : (appendEmpty emptyHeight (.leaf tail)).size emptyHeight = tail.length :=
  congrArg List.length (appendEmpty_toList emptyHeight)

/-- A dense tree of full leaves without a place is full. -/
private theorem Node.Dense.size_of_noPlace (dense : node.Dense height) (leaves : RRB_BRANCHING ∣ node.size height)
    (noPlace : ¬node.HasPlace RRB_MASK height) : node.size height = RRB_BRANCHING ^ (height + 1) := by
  apply dense.size_le.antisymm
  cases height with
  | zero =>
    have positive : 0 < node.size 0 := (dense.shaped : node.Shaped Eq 0).size_pos
    rw [zero_add, pow_one]
    exact Nat.le_of_dvd positive leaves
  | succ height =>
    rw [dense.hasPlace_iff] at noPlace
    obtain ⟨m, same⟩ := leaves
    obtain ⟨n, whole⟩ : RRB_BRANCHING ∣ RRB_BRANCHING ^ (height + 1 + 1) := Dvd.intro_left _ rfl
    rw [same, whole] at noPlace ⊢
    simp only [RRB_BRANCHING, RRB_MASK] at noPlace ⊢
    omega

private theorem Node.Dense.last_leaves (dense : (Node.internal none child).Dense (height + 1))
    (leaves : RRB_BRANCHING ∣ (Node.internal none child).size (height + 1)) :
    RRB_BRANCHING ∣ (slot child (child.length - 1)).size height := by
  have chunk : RRB_BRANCHING ∣ (child.length - 1) * RRB_BRANCHING ^ (height + 1) :=
    (Dvd.intro_left _ rfl : RRB_BRANCHING ∣ RRB_BRANCHING ^ (height + 1)).mul_left _
  rw [dense.size_last] at leaves
  exact (Nat.dvd_add_right chunk).mp leaves

/-- A full leaf behind full leaves. -/
theorem Landed.dense (full : tail.length = RRB_BRANCHING) (landed : Landed tail height node node')
    (dense : node.Dense height) (leaves : RRB_BRANCHING ∣ node.size height) : node'.Dense height := by
  have extra : tail.length - 1 = RRB_MASK := by
    rw [full]
    rfl
  induction landed with
  | @own height sizeTable sizeTable' child room noPlace longer =>
    cases sizeTable with
    | some => exact dense.elim
    | none =>
      cases longer
      have member : slot child (child.length - 1) ∈ child := slot_mem (by have := dense.1; omega)
      have split := split_last dense.1.1
      rw [extra] at noPlace
      rw [List.dropLast_eq_take] at split
      apply dense.snoc room
      · exact dense.allFull split ((dense.2.1 _ member).size_of_noPlace (dense.last_leaves leaves) noPlace)
      · exact appendEmpty_slots (full_slots full) height
  | @inner height sizeTable sizeTable' child copied place landed grown ih =>
    cases sizeTable with
    | some => exact dense.elim
    | none =>
      cases grown
      have bound : child.length - 1 < child.length := by have := dense.1; omega
      rw [set_last dense.1.1, List.dropLast_eq_take]
      exact dense.cut bound (ih (dense.2.1 _ (slot_mem bound)) (dense.last_leaves leaves))

/-- A size table with exact entries and one more. -/
theorem Node.Totals.snoc {fits : ℕ → ℕ → Prop} (totals : Totals Exact height child table)
    (fit : fits (before (toList height) child child.length + node.size height) entry) :
    Totals fits height (child ++ [node]) (table.take child.length ++ [entry]) := by
  have whole := totals.length_le
  have length : (child ++ [node]).length = child.length + 1 := List.length_append
  have tableLength : (table.take child.length).length = child.length := by
    rw [List.length_take]
    omega
  constructor
  · intro j inner
    rw [length] at inner
    rw [List.getElem?_append_left (by omega), List.getElem?_take, if_pos (by omega), before_append (by omega)]
    by_cases last : j + 1 < child.length
    · exact totals.inner j last
    · obtain ⟨_, stored, rfl⟩ := totals.last
      have same : j + 1 = child.length := by omega
      rwa [same, ← Nat.add_sub_cancel (n := j) (m := 1), same]
  · refine ⟨entry, ?_, ?_⟩
    · rw [length, Nat.add_sub_cancel, List.getElem?_append_right (by omega), tableLength, Nat.sub_self]
      rfl
    · have total : before (toList height) (child.take child.length ++ [node]) (child.length + 1) =
          before (toList height) child child.length + node.size height := before_replaced child.length node
      rw [List.take_length] at total
      rw [length, total]
      exact fit

/-- A size table with another last entry. -/
theorem Node.Totals.set {fits fits' : ℕ → ℕ → Prop} (totals : Totals fits height child table)
    (inhabited : 1 ≤ child.length)
    (fit : fits' (before (toList height) child (child.length - 1) + node.size height) entry) :
    Totals fits' height (child.set (child.length - 1) node) (table.set (child.length - 1) entry) := by
  have whole := totals.length_le
  have bound : child.length - 1 < child.length := by omega
  have cut := totals.cut bound fit
  rw [← List.dropLast_eq_take, ← set_last inhabited] at cut
  constructor
  · intro j inner
    rw [List.length_set] at inner
    rw [List.getElem?_set_ne (by omega), ← cut.inner j (by rwa [List.length_set]),
      List.getElem?_append_left (by rw [List.length_take]; omega), List.getElem?_take, if_pos (by omega)]
  · obtain ⟨stored, found, fits⟩ := cut.last
    rw [List.length_set] at found fits ⊢
    refine ⟨entry, List.getElem?_set_self (by omega), ?_⟩
    have tableLength : (table.take (child.length - 1)).length = child.length - 1 := by
      rw [List.length_take]
      omega
    rw [List.getElem?_append_right (by omega), tableLength, Nat.sub_self] at found
    cases found
    exact fits


/-- A full leaf in the place of a tree leaves it well-formed. A node without a size table has full leaves only. A node
with one has a last entry that stays a word, and that is exact when the leaf gets a slot of its own. -/
def Node.RightPlace : ℕ → Node α → Prop
  | height + 1, internal none child => RRB_BRANCHING ∣ (internal none child).size (height + 1)
  | height + 1, internal (some table) child =>
      ∃ entry, table[child.length - 1]? = some entry ∧ entry + RRB_BRANCHING < 2 ^ 32 ∧
        ((slot child (child.length - 1)).HasPlace RRB_MASK height → (slot child (child.length - 1)).RightPlace height) ∧
        (¬(slot child (child.length - 1)).HasPlace RRB_MASK height →
          entry = (internal (some table) child).size (height + 1))
  | _, _ => False

instance decidableRightPlace : ∀ (height : ℕ) (node : Node α), Decidable (node.RightPlace height)
  | _ + 1, .internal none _ => inferInstanceAs (Decidable (_ ∣ _))
  | height + 1, .internal (some table) child =>
      have := decidableRightPlace height (slot child (child.length - 1))
      inferInstanceAs (Decidable (∃ entry ∈ table[child.length - 1]?, _ ∧ (_ → _) ∧ (¬_ → _)))
  | 0, _ | _ + 1, .leaf _ | _ + 1, .null => .isFalse id

/-- A leaf in a slot of its own, below a node with a size table. -/
theorem Node.Shaped.snoc (shaped : (Node.internal (some table) child).Shaped Covers (height + 1))
    (room : child.length < RRB_BRANCHING) (stored : table[child.length - 1]? = some entry)
    (exact : entry = (Node.internal (some table) child).size (height + 1)) (word : entry + node.size height < 2 ^ 32)
    (nodeShaped : node.Shaped Covers height) :
    (Node.internal (some (table.take child.length ++ [entry + node.size height])) (child ++ [node])).Shaped Covers
      (height + 1) := by
  have totals : Totals Exact height child table := by
    refine ⟨shaped.2.2.inner, entry, stored, ?_⟩
    rw [Node.before_size (some table)]
    exact exact
  refine ⟨?_, ?_, ?_⟩
  · rw [List.length_append, List.length_singleton]
    omega
  · intro other member
    obtain member | rfl := List.mem_append.mp member |>.imp_right List.mem_singleton.mp
    · exact shaped.2.1 other member
    · exact nodeShaped
  · apply totals.snoc
    rw [Node.before_size (some table), ← exact]
    exact ⟨le_rfl, word⟩

/-- A leaf in the last child of a node with a size table. -/
private theorem Node.Shaped.setLast (shaped : (Node.internal (some table) child).Shaped Covers (height + 1))
    (stored : table[child.length - 1]? = some entry) (word : entry + tail.length < 2 ^ 32)
    (copiedShaped : copied.Shaped Covers height)
    (size : copied.size height = (slot child (child.length - 1)).size height + tail.length) :
    (Node.internal (some (table.set (child.length - 1) (entry + tail.length)))
      (child.set (child.length - 1) copied)).Shaped Covers (height + 1) := by
  obtain ⟨entry', edge⟩ := shaped.lastChild
  cases edge.stored.symm.trans stored
  refine ⟨?_, ?_, ?_⟩
  · rw [List.length_set]
    exact edge.slots
  · intro other member
    obtain member | rfl := List.mem_or_eq_of_mem_set member
    · exact shaped.2.1 other member
    · exact copiedShaped
  · apply shaped.2.2.set edge.slots.1
    have covers := edge.covers.1
    rw [size, ← Nat.add_assoc, edge.total]
    exact ⟨Nat.add_le_add_right covers _, word⟩

/-- The tree with a full leaf in its place. -/
theorem Landed.shaped (full : tail.length = RRB_BRANCHING) (landed : Landed tail height node node')
    (shaped : node.Shaped Covers height) (right : node.RightPlace height) : node'.Shaped Covers height := by
  have extra : tail.length - 1 = RRB_MASK := by
    rw [full]
    rfl
  induction landed with
  | @own height sizeTable sizeTable' child room noPlace longer =>
    cases sizeTable with
    | none => exact (Landed.dense full (.own room noPlace longer) shaped right).shaped
    | some table =>
      obtain ⟨entry, stored, fits, -, exact⟩ := right
      rw [← full] at fits
      rw [extra] at noPlace
      have table' : longerTable tail.length table child.length =
          some (table.take child.length ++ [entry + tail.length]) := by
        rw [longerTable, stored]
        dsimp only [Option.bind_eq_bind, Option.bind_some]
        rw [u32_of_lt fits]
        rfl
      change (longerTable tail.length table child.length).map some = some sizeTable' at longer
      rw [table'] at longer
      cases longer
      have snoc := shaped.snoc room stored (exact noPlace) (by rwa [appendEmpty_size])
        (appendEmpty_slots (full_slots full) height).shaped
      rwa [appendEmpty_size] at snoc
  | @inner height sizeTable sizeTable' child copied place landed grown ih =>
    cases sizeTable with
    | none => exact (Landed.dense full (.inner place landed grown) shaped right).shaped
    | some table =>
      obtain ⟨entry, stored, fits, inner, -⟩ := right
      rw [← full] at fits
      rw [extra] at place
      have table' : grownTable tail.length table child.length =
          some (table.set (child.length - 1) (entry + tail.length)) := by
        rw [grownTable, stored]
        dsimp only [Option.bind_eq_bind, Option.bind_some]
        rw [u32_of_lt fits]
        rfl
      change (grownTable tail.length table child.length).map some = some sizeTable' at grown
      rw [table'] at grown
      cases grown
      have member : slot child (child.length - 1) ∈ child := slot_mem (by have := shaped.slots; omega)
      apply shaped.setLast stored fits (ih (shaped.below _ member) (inner place))
      rw [Node.size, landed.toList, List.length_append]
      rfl

/-- What has become of a tree and its height when a tail has gone down into it. -/
inductive Sunk (tail : List α) (cnt height : ℕ) (root : Node α) : ℕ → Node α → Prop
  | placed {root' : Node α} (place : root.HasPlace (tail.length - 1) height) (landed : Landed tail height root root') :
      Sunk tail cnt height root height root'
  | above {table : Option (List ℕ)} (noPlace : ¬root.HasPlace (tail.length - 1) height)
      (tabled : tableAbove root cnt tail.length = some table) :
      Sunk tail cnt height root (height + 1) (.internal table [root, appendEmpty height (.leaf tail)])

theorem Node.Shaped.tableAbove {fits : ℕ → ℕ → Prop} (shaped : root.Shaped fits height) (cnt tailLen : ℕ) :
    ∃ table, Lists.tableAbove root cnt tailLen = some table := by
  rcases root with _ | _ | ⟨_ | table, child⟩
  · cases height with
    | zero | succ => exact shaped.elim
  · exact ⟨none, rfl⟩
  · exact ⟨none, rfl⟩
  · exact ⟨some _, rfl⟩

/-- A list without a tree has its tail for tree. -/
theorem pushDownTail_small (small : rrb.cnt ≤ RRB_BRANCHING) :
    pushDownTail .null rrb newRrb newTail = some { newRrb with tail := newTail, height := 0, root := newRrb.tail } := by
  rw [pushDownTail]
  exact if_pos small

theorem pushDownTail_yields (slots : 1 ≤ tail.length ∧ tail.length ≤ RRB_BRANCHING) (large : RRB_BRANCHING < rrb.cnt)
    (word : rrb.cnt < 2 ^ 32) (cnt : rrb.cnt = rrb.root.size rrb.height + tail.length)
    (shaped : rrb.root.Shaped Covers rrb.height) (searchable : rrb.root.Searchable rrb.height)
    (leafBehind : rrb.root.LeafBehind (tail.length - 1) rrb.height) (oldTail : newRrb.tail = .leaf tail)
    (height : newRrb.height = rrb.height) :
    (pushDownTail .null rrb newRrb newTail).Yields fun rrb' => ∃ height' root',
      rrb' = { newRrb with tail := newTail, height := height', root := root' } ∧
        Sunk tail rrb.cnt rrb.height rrb.root height' root' := by
  have tailLen : (Node.leaf tail : Node α).len = some tail.length := rfl
  have index : u32Sub rrb.cnt 1 = rrb.root.size rrb.height + (tail.length - 1) := by
    rw [u32Sub_of_le (by omega) word]
    omega
  have indexWord : rrb.root.size rrb.height + (tail.length - 1) < 2 ^ 32 := by omega
  rw [pushDownTail]
  dsimp only
  rw [if_neg (Nat.not_le_of_lt large), searchTail, index, oldTail, tailLen]
  by_cases place : rrb.root.HasPlace (tail.length - 1) rrb.height
  · obtain ⟨depth, root', lands, copied⟩ := shaped.lands slots searchable indexWord place leafBehind ⟨0, 0⟩
    rw [lands.searched]
    dsimp only [Option.bind_eq_bind, Option.bind_some]
    rw [if_neg (by omega), Nat.zero_add, Nat.zero_add, copied, height]
    exact .some ⟨_, root', rfl, .placed place lands.landed⟩
  · obtain ⟨table, tabled⟩ := shaped.tableAbove rrb.cnt tail.length
    rw [shaped.search_noPlace (by omega) searchable indexWord place]
    dsimp only [Option.bind_eq_bind, Option.bind_some]
    rw [if_pos rfl, tabled, Nat.zero_add, height]
    exact .some ⟨_, _, rfl, .above place tabled⟩

theorem Sunk.toList {cnt height' : ℕ} {root' : Node α} (pushed : Sunk tail cnt height root height' root') :
    root'.toList height' = root.toList height ++ tail := by
  cases pushed with
  | placed place landed => exact landed.toList
  | above noPlace tabled => rw [Node.toList, List.flatMap_cons, List.flatMap_singleton, appendEmpty_toList]

/-- The tree takes a full tail: in its place, or below a new root. -/
structure Node.TakesTail (height : ℕ) (root : Node α) : Prop where
  searchable : root.Searchable height
  inside : root.HasPlace RRB_MASK height → root.RightPlace height
  above : ¬root.HasPlace RRB_MASK height → height < RRB_MAX_HEIGHT ∧ (root.HasTable ∨ RRB_BRANCHING ∣ root.size height)

instance (height : ℕ) (root : Node α) : Decidable (root.TakesTail height) :=
  decidable_of_iff ((height ≤ RRB_MAX_HEIGHT ∧ (height < RRB_MAX_HEIGHT ∨ root.HasTable)) ∧
      (root.HasPlace RRB_MASK height → root.RightPlace height) ∧
      (¬root.HasPlace RRB_MASK height →
        height < RRB_MAX_HEIGHT ∧ (root.HasTable ∨ RRB_BRANCHING ∣ root.size height)))
    ⟨fun takes => ⟨⟨takes.1.1, takes.1.2⟩, takes.2.1, takes.2.2⟩,
      fun takes => ⟨⟨takes.searchable.low, takes.searchable.top⟩, takes.inside, takes.above⟩⟩

/-- The last element of a full tail is never in the slot of the last leaf. -/
private theorem Node.leafBehind_mask : ∀ {height} {node : Node α}, node.LeafBehind RRB_MASK height := by
  intro height
  induction height with
  | zero => exact fun {node} => by cases node <;> trivial
  | succ height ih =>
    intro node
    rcases node with _ | _ | ⟨_ | table, child⟩
    · trivial
    · trivial
    · rw [Node.LeafBehind]
      simp only [RRB_BRANCHING, RRB_MASK]
      omega
    · exact ih

private theorem Node.Shaped.dense_of_noTable {fits : ℕ → ℕ → Prop} (shaped : root.Shaped fits height)
    (noTable : ¬root.HasTable) : root.Dense height := by
  cases height with
  | zero => exact shaped
  | succ height =>
    obtain ⟨sizeTable, child, rfl, -⟩ := shaped.isInternal
    cases sizeTable with
    | none => exact shaped
    | some => exact absurd trivial noTable

/-- A new root with exact totals. -/
theorem Node.Shaped.above {below : Node α} (shaped : root.Shaped Covers height) (belowShaped : below.Shaped Covers height)
    (word : root.size height + below.size height < 2 ^ 32) :
    (Node.internal (some [root.size height, root.size height + below.size height]) [root, below]).Shaped Covers
      (height + 1) := by
  have first : before (toList height) [root, below] 1 = root.size height := by simp [before, Node.size]
  have both : before (toList height) [root, below] 2 = root.size height + below.size height := by
    simp [before, Node.size]
  refine ⟨show 1 ≤ 2 ∧ 2 ≤ RRB_BRANCHING by decide, by simp [shaped, belowShaped], ?_, ?_⟩
  · intro i inner
    have only : i = 0 := by
      rw [List.length_cons, List.length_singleton] at inner
      omega
    rw [only, zero_add, first]
    rfl
  · exact ⟨_, rfl, both.le, word⟩

/-- The tree with a full tail is well-formed. -/
theorem Sunk.shaped {height' : ℕ} {root' : Node α} (full : tail.length = RRB_BRANCHING)
    (pushed : Sunk tail (root.size height + tail.length) height root height' root')
    (shaped : root.Shaped Covers height) (word : root.size height + tail.length < 2 ^ 32)
    (takes : root.TakesTail height) : height' ≤ RRB_MAX_HEIGHT ∧ root'.Shaped Covers height' := by
  have extra : tail.length - 1 = RRB_MASK := by
    rw [full]
    rfl
  cases pushed with
  | placed place landed =>
    rw [extra] at place
    exact ⟨takes.searchable.low, landed.shaped full shaped (takes.inside place)⟩
  | @above table noPlace tabled =>
    rw [extra] at noPlace
    obtain ⟨low, either⟩ := takes.above noPlace
    have empties := appendEmpty_slots (full_slots full) height
    refine ⟨low, ?_⟩
    by_cases hasTable : root.HasTable
    · have exact : Lists.tableAbove root (root.size height + tail.length) tail.length =
          some (some [root.size height, root.size height + tail.length]) := by
        rcases root with _ | _ | ⟨_ | table, child⟩
        · exact hasTable.elim
        · exact hasTable.elim
        · exact hasTable.elim
        · rw [Lists.tableAbove, u32Sub_of_le (Nat.le_add_left ..) word, Nat.add_sub_cancel]
      cases tabled.symm.trans exact
      have above := shaped.above empties.shaped (by rwa [appendEmpty_size])
      rwa [appendEmpty_size] at above
    · have dense := shaped.dense_of_noTable hasTable
      have one : ∀ node ∈ [root], node.size height = RRB_BRANCHING ^ (height + 1) := by
        simp [dense.size_of_noPlace (either.resolve_left hasTable) noPlace]
      have exact : Lists.tableAbove root (root.size height + tail.length) tail.length = some none := by
        cases height with
        | zero => cases root with
          | leaf => rfl
          | null | internal => exact dense.elim
        | succ height =>
          obtain ⟨child, rfl⟩ := dense.isInternal
          rfl
      cases tabled.symm.trans exact
      exact ((dense_above dense).snoc (show 1 < RRB_BRANCHING by decide) one empties).shaped

/-- A full tail goes down into the tree of a list, or becomes the tree. -/
theorem pushDownTail_full {inTree : List α} (full : tail.length = RRB_BRANCHING)
    (tree : (inTree = [] ∧ rrb.root = .null) ∨ (rrb.root.Shaped Covers rrb.height ∧ rrb.root.toList rrb.height = inTree))
    (cnt : rrb.cnt = inTree.length + tail.length) (word : rrb.cnt < 2 ^ 32)
    (takes : RRB_BRANCHING < rrb.cnt → rrb.root.TakesTail rrb.height) (oldTail : newRrb.tail = .leaf tail)
    (height : newRrb.height = rrb.height) :
    (pushDownTail .null rrb newRrb newTail).Yields fun rrb' => ∃ height' root',
      rrb' = { newRrb with tail := newTail, height := height', root := root' } ∧ height' ≤ RRB_MAX_HEIGHT ∧
        root'.Shaped Covers height' ∧ root'.toList height' = inTree ++ tail := by
  obtain ⟨rfl, -⟩ | ⟨shaped, contents⟩ := tree
  · -- the tail becomes the tree
    rw [pushDownTail_small (by rw [cnt, full]; simp), oldTail]
    exact .some ⟨0, .leaf tail, rfl, Nat.zero_le _, full_slots full, rfl⟩
  · have size : rrb.root.size rrb.height = inTree.length := congrArg List.length contents
    have positive := shaped.size_pos
    have large : RRB_BRANCHING < rrb.cnt := by omega
    have total : rrb.cnt = rrb.root.size rrb.height + tail.length := by rw [size, cnt]
    have behind : rrb.root.LeafBehind (tail.length - 1) rrb.height := by
      rw [full]
      exact Node.leafBehind_mask
    refine Yields.mono
      (pushDownTail_yields (full_slots full) large word total shaped (takes large).searchable behind oldTail height) ?_
    rintro _ ⟨height', root', rfl, sunk⟩
    rw [total] at sunk
    obtain ⟨low, landed⟩ := sunk.shaped full shaped (by rwa [← total]) (takes large)
    exact ⟨height', root', rfl, low, landed, by rw [sunk.toList, contents]⟩

end Owl.Lists
