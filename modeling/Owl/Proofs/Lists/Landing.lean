import Owl.Proofs.Lists.Appending
import Owl.Proofs.Lists.Sizing

/-! # Places for a leaf

The search for the place of a leaf goes down the right edge of a tree with the index that the last element of the
leaf is to have. It takes the last slot of a node with a size table, and in a node without one the slot of the index.
-/

namespace Owl.Lists

open Blocks
open Node (toList Shaped Totals)

variable {α : Type} {height i index entry k extra : ℕ} {node node' last copied : Node α} {child : List (Node α)}
  {table : List ℕ} {tail : List α} {counts : Copyable}

namespace Node

def HasTable : Node α → Prop
  | internal (some _) _ => True
  | _ => False

/-- The search for an index, given by the number of elements between the tree and it, finds an unused slot on the
right edge of a tree. -/
def HasPlace (extra : ℕ) : ℕ → Node α → Prop
  | height + 1, internal none child =>
      (internal none child).size (height + 1) + extra < RRB_BRANCHING ^ (height + 1 + 1)
  | height + 1, internal (some _) child =>
      child.length < RRB_BRANCHING ∨ (slot child (child.length - 1)).HasPlace extra height
  | _, _ => False

/-- The slot of the index in the lowest node without a size table is not the slot of its last leaf. -/
def LeafBehind (extra : ℕ) : ℕ → Node α → Prop
  | height + 1, internal none child =>
      RRB_BRANCHING ∣ (internal none child).size (height + 1) ∨
        RRB_BRANCHING ≤ (internal none child).size (height + 1) % RRB_BRANCHING + extra
  | height + 1, internal (some _) child => (slot child (child.length - 1)).LeafBehind extra height
  | _, _ => True

/-- The search shifts words by less than their width. -/
structure Searchable (height : ℕ) (node : Node α) : Prop where
  low : height ≤ RRB_MAX_HEIGHT
  top : height < RRB_MAX_HEIGHT ∨ node.HasTable

theorem Searchable.below (searchable : node.Searchable (height + 1)) (child : Node α) : child.Searchable height :=
  ⟨Nat.le_of_succ_le searchable.low, .inl searchable.low⟩

instance : DecidablePred (HasTable : Node α → Prop)
  | internal (some _) _ => .isTrue trivial
  | internal none _ | leaf _ | null => .isFalse id

instance decidableHasPlace (extra : ℕ) : ∀ (height : ℕ) (node : Node α), Decidable (node.HasPlace extra height)
  | _ + 1, internal none _ => inferInstanceAs (Decidable (_ < _))
  | height + 1, internal (some _) child =>
      have := decidableHasPlace extra height (slot child (child.length - 1))
      inferInstanceAs (Decidable (_ < _ ∨ _))
  | 0, _ | _ + 1, leaf _ | _ + 1, null => .isFalse id

instance decidableLeafBehind (extra : ℕ) : ∀ (height : ℕ) (node : Node α), Decidable (node.LeafBehind extra height)
  | _ + 1, internal none _ => inferInstanceAs (Decidable (_ ∣ _ ∨ _ ≤ _))
  | height + 1, internal (some _) child => decidableLeafBehind extra height (slot child (child.length - 1))
  | 0, _ | _ + 1, leaf _ | _ + 1, null => .isTrue trivial

theorem Dense.isInternal (dense : node.Dense (height + 1)) : ∃ child, node = internal none child := by
  rcases node with _ | _ | ⟨_ | table, child⟩
  · exact dense.elim
  · exact dense.elim
  · exact ⟨child, rfl⟩
  · exact dense.elim

theorem Dense.hasPlace_iff (dense : node.Dense (height + 1)) :
    node.HasPlace extra (height + 1) ↔ node.size (height + 1) + extra < RRB_BRANCHING ^ (height + 1 + 1) := by
  obtain ⟨child, rfl⟩ := dense.isInternal
  rfl

private theorem Dense.leafBehind_iff (dense : node.Dense (height + 1)) : node.LeafBehind extra (height + 1) ↔
    RRB_BRANCHING ∣ node.size (height + 1) ∨ RRB_BRANCHING ≤ node.size (height + 1) % RRB_BRANCHING + extra := by
  obtain ⟨child, rfl⟩ := dense.isInternal
  rfl

end Node

/-- What lies between the leaves and the slot in which a leaf is put. -/
inductive Landed (tail : List α) : ℕ → Node α → Node α → Prop
  | own {height : ℕ} {sizeTable sizeTable' : Option (List ℕ)} {child : List (Node α)}
      (room : child.length < RRB_BRANCHING)
      (noPlace : ¬(slot child (child.length - 1)).HasPlace (tail.length - 1) height)
      (longer : sizeTable.mapM (fun table => longerTable tail.length table child.length) = some sizeTable') :
      Landed tail (height + 1) (.internal sizeTable child)
        (.internal sizeTable' (child ++ [appendEmpty height (.leaf tail)]))
  | inner {height : ℕ} {sizeTable sizeTable' : Option (List ℕ)} {child : List (Node α)} {copied : Node α}
      (place : (slot child (child.length - 1)).HasPlace (tail.length - 1) height)
      (landed : Landed tail height (slot child (child.length - 1)) copied)
      (grown : sizeTable.mapM (fun table => grownTable tail.length table child.length) = some sizeTable') :
      Landed tail (height + 1) (.internal sizeTable child) (.internal sizeTable' (child.set (child.length - 1) copied))

/-- The search reaches the depth of the slot. -/
structure Lands (tail : List α) (height : ℕ) (node : Node α) (counts : Copyable) (depth : ℕ) (node' : Node α) :
    Prop where
  reached : depth < height
  searched : (search .null height node (node.size height + (tail.length - 1)) counts).2 =
    some ⟨counts.nodesVisited + height, counts.nodesVisited + (depth + 1)⟩
  landed : Landed tail height node node'

/-- The index is in the last child. -/
private theorem Node.Dense.index_inner (dense : (Node.internal none child).Dense (height + 1)) :
    (Node.internal none child).size (height + 1) + extra =
      (child.length - 1) * RRB_BRANCHING ^ (height + 1) + ((slot child (child.length - 1)).size height + extra) := by
  rw [dense.size_last, Nat.add_assoc]

private theorem Node.Dense.last_leafBehind (dense : (Node.internal none child).Dense (height + 1 + 1))
    (leafBehind : (Node.internal none child).LeafBehind extra (height + 1 + 1)) :
    (slot child (child.length - 1)).LeafBehind extra (height + 1) := by
  have member : slot child (child.length - 1) ∈ child := slot_mem (by have := dense.1; omega)
  have chunk : RRB_BRANCHING ∣ (child.length - 1) * RRB_BRANCHING ^ (height + 1 + 1) :=
    (Dvd.intro_left _ rfl : RRB_BRANCHING ∣ RRB_BRANCHING ^ (height + 1 + 1)).mul_left _
  rw [dense.leafBehind_iff, dense.size_last, Nat.dvd_add_right chunk, Nat.add_mod, Nat.mod_eq_zero_of_dvd chunk,
    Nat.zero_add, Nat.mod_mod] at leafBehind
  exact (dense.2.1 _ member).leafBehind_iff.mpr leafBehind

/-- The index is behind the last child. -/
private theorem Node.Dense.index_own (dense : (Node.internal none child).Dense (height + 1)) (small : extra < RRB_BRANCHING)
    (full : RRB_BRANCHING ^ (height + 1) ≤ (slot child (child.length - 1)).size height + extra) :
    ∃ k < RRB_BRANCHING ^ (height + 1), (Node.internal none child).size (height + 1) + extra =
      child.length * RRB_BRANCHING ^ (height + 1) + k := by
  have member : slot child (child.length - 1) ∈ child := slot_mem (by have := dense.1; omega)
  have le := (dense.2.1 _ member).size_le
  have unit : RRB_BRANCHING ≤ RRB_BRANCHING ^ (height + 1) := Nat.le_self_pow (Nat.succ_ne_zero height) _
  have whole : child.length * RRB_BRANCHING ^ (height + 1) =
      (child.length - 1) * RRB_BRANCHING ^ (height + 1) + RRB_BRANCHING ^ (height + 1) := by
    rw [← Nat.succ_mul, Nat.succ_eq_add_one, Nat.sub_add_cancel dense.1.1]
  refine ⟨(slot child (child.length - 1)).size height + extra - RRB_BRANCHING ^ (height + 1), by omega, ?_⟩
  rw [dense.index_inner, whole]
  omega

/-- A leaf in a new slot, on the lowest level above the leaves. -/
private theorem Node.Dense.lands_bottom (slots : 1 ≤ tail.length ∧ tail.length ≤ RRB_BRANCHING)
    (dense : (Node.internal none child).Dense 1)
    (place : (Node.internal none child).HasPlace (tail.length - 1) 1)
    (leafBehind : (Node.internal none child).LeafBehind (tail.length - 1) 1) (counts : Copyable) :
    ∃ node', Lands tail 1 (.internal none child) counts 0 node' ∧
      ∀ index, index % RRB_BRANCHING ^ 2 = (Node.internal none child).size 1 + (tail.length - 1) →
        copyFirstK tail.length (.leaf tail) 1 1 (.internal none child) index = some node' := by
  have small : tail.length - 1 < RRB_BRANCHING := by omega
  have member : slot child (child.length - 1) ∈ child := slot_mem (by have := dense.1; omega)
  have lastDense := dense.2.1 _ member
  have full : RRB_BRANCHING ^ (0 + 1) ≤ (slot child (child.length - 1)).size 0 + (tail.length - 1) := by
    have positive : 0 < (slot child (child.length - 1)).size 0 := (lastDense.shaped : Shaped Eq 0 _).size_pos
    have le := lastDense.size_le
    rw [Node.LeafBehind, dense.size_last] at leafBehind
    simp only [RRB_BRANCHING, zero_add, pow_one] at leafBehind le small ⊢
    omega
  obtain ⟨k, inside, index⟩ := dense.index_own small full
  have room : child.length < RRB_BRANCHING := by
    rw [Node.HasPlace, index] at place
    simp only [RRB_BRANCHING] at place ⊢
    omega
  refine ⟨_, ⟨Nat.one_pos, ?_, .own room id rfl⟩, ?_⟩
  · simp [search, Node.len, room]
  · intro other same
    rw [index] at same
    exact copyFirstK_last (by decide) (digit_of_mod same inside).1

/-- In a tree without size tables there is a place for a leaf. -/
theorem Node.Dense.lands (slots : 1 ≤ tail.length ∧ tail.length ≤ RRB_BRANCHING) : ∀ {height} {node : Node α},
    height + 1 < RRB_MAX_HEIGHT → node.Dense (height + 1) → node.HasPlace (tail.length - 1) (height + 1) →
      node.LeafBehind (tail.length - 1) (height + 1) → ∀ counts, ∃ depth node', Lands tail (height + 1)
        node counts depth node' ∧
        ∀ index, index % RRB_BRANCHING ^ (height + 1 + 1) = node.size (height + 1) + (tail.length - 1) →
          copyFirstK tail.length (appendEmpty (height + 1 - (depth + 1)) (.leaf tail)) (depth + 1) (height + 1) node index =
            some node' := by
  intro height
  induction height with
  | zero =>
    intro node _ dense place leafBehind counts
    obtain ⟨child, rfl⟩ := dense.isInternal
    exact ⟨0, dense.lands_bottom slots place leafBehind counts⟩
  | succ height ih =>
    intro node low dense place leafBehind counts
    obtain ⟨child, rfl⟩ := dense.isInternal
    have small : tail.length - 1 < RRB_BRANCHING := by omega
    have member : slot child (child.length - 1) ∈ child := slot_mem (by have := dense.1; omega)
    have lastDense := dense.2.1 _ member
    have step := searchSlot_low low place child.length
    by_cases lower : (slot child (child.length - 1)).HasPlace (tail.length - 1) (height + 1)
    · -- the leaf goes to the last child
      have inside := lastDense.hasPlace_iff.mp lower
      have index : (Node.internal none child).size (height + 2) + (tail.length - 1) = _ := dense.index_inner
      obtain ⟨digit, rest⟩ := digit_eq (i := child.length - 1) inside
      rw [← index] at digit rest
      rw [digit, rest] at step
      have present : slot child (child.length - 1) ≠ .null := by
        intro absent
        rw [absent] at lastDense
        exact lastDense.elim
      have found : child.getD (child.length - 1) .null = slot child (child.length - 1) := rfl
      have follows : search .null (height + 2) (.internal none child) _ counts = _ := search_follows step found present
      obtain ⟨depth, node', lands, copied⟩ := ih (by omega) lastDense lower (dense.last_leafBehind leafBehind)
        (counts.follow (child.length - 1))
      refine ⟨depth + 1, _, ⟨Nat.succ_lt_succ lands.reached, ?_, .inner lower lands.landed rfl⟩, ?_⟩
      · rw [follows, lands.searched]
        simp only [Option.some.injEq, Copyable.mk.injEq, Copyable.follow_nodesVisited]
        omega
      · intro other same
        rw [index] at same
        obtain ⟨place, below⟩ := digit_of_mod same inside
        rw [Nat.add_sub_add_right]
        exact copyFirstK_inner (by omega) place (getElem?_last dense.1.1) (copied other below)
    · -- the leaf goes to a slot of its own
      have full := Nat.le_of_not_lt fun inside => lower (lastDense.hasPlace_iff.mpr inside)
      obtain ⟨k, inside, index⟩ := dense.index_own small full
      have digit := (digit_eq (i := child.length) inside).1
      rw [← index] at digit
      have room : child.length < RRB_BRANCHING := by
        rw [← digit, Nat.div_lt_iff_lt_mul (branching_pow_pos _), ← Nat.pow_succ']
        exact place
      rw [digit] at step
      have absent : child.getD child.length .null = .null := by simp
      have stops : search .null (height + 2) (.internal none child) _ counts = _ := search_stops step absent
      refine ⟨0, _, ⟨Nat.succ_pos _, ?_, .own room lower rfl⟩, ?_⟩
      · rw [stops]
        dsimp only
        rw [Option.some.injEq, Copyable.mk.injEq]
        omega
      · intro other same
        rw [index] at same
        exact copyFirstK_last (by omega) (digit_of_mod same inside).1

structure LastChild (height : ℕ) (table : List ℕ) (child : List (Node α)) (entry : ℕ) : Prop where
  slots : 1 ≤ child.length ∧ child.length ≤ RRB_BRANCHING
  shaped : (slot child (child.length - 1)).Shaped Covers height
  stored : table[child.length - 1]? = some entry
  covers : Covers ((Node.internal (some table) child).size (height + 1)) entry
  total : before (toList height) child (child.length - 1) + (slot child (child.length - 1)).size height =
    (Node.internal (some table) child).size (height + 1)
  front : child.length - 1 ≠ 0 → table[child.length - 1 - 1]? = some (before (toList height) child (child.length - 1))

theorem Node.Shaped.lastChild (shaped : (Node.internal (some table) child).Shaped Covers (height + 1)) :
    ∃ entry, LastChild height table child entry := by
  have slots := shaped.slots
  obtain ⟨entry, stored, covers⟩ := shaped.2.2.last
  refine ⟨entry, slots, shaped.below _ (slot_mem (by omega)), stored, ?_, ?_, ?_⟩
  · rwa [Node.before_size (some table)] at covers
  · have total : before (toList height) child (child.length - 1 + 1) =
        before (toList height) child (child.length - 1) + (slot child (child.length - 1)).size height :=
      before_succ (getElem?_last slots.1)
    rw [← total, Nat.sub_add_cancel slots.1, Node.before_size]
  · intro several
    have inner := shaped.2.2.inner (child.length - 1 - 1) (by omega)
    rwa [Nat.sub_add_cancel (by omega)] at inner

namespace LastChild

variable (edge : LastChild height table child entry)

include edge

theorem present : slot child (child.length - 1) ≠ .null := by
  have shaped := edge.shaped
  intro absent
  rw [absent] at shaped
  cases height with
  | zero | succ => exact shaped.elim

private theorem word_below (word : (Node.internal (some table) child).size (height + 1) + extra < 2 ^ 32) :
    (slot child (child.length - 1)).size height + extra < 2 ^ 32 := by
  have total := edge.total
  omega

/-- The index of an element behind the tree, less the elements in front of the last child. -/
private theorem index_eq (word : (Node.internal (some table) child).size (height + 1) + extra < 2 ^ 32) :
    u32Sub ((Node.internal (some table) child).size (height + 1) + extra)
      (before (toList height) child (child.length - 1)) = (slot child (child.length - 1)).size height + extra := by
  have total := edge.total
  rw [u32Sub_of_le (by omega) word]
  omega

private theorem searchSlot_eq (word : (Node.internal (some table) child).size (height + 1) + extra < 2 ^ 32) (level : ℕ) :
    searchSlot (some table) child.length ((Node.internal (some table) child).size (height + 1) + extra) level =
      some (some (child.length - 1, (slot child (child.length - 1)).size height + extra)) := by
  have index := edge.index_eq word
  rw [searchSlot]
  by_cases single : child.length - 1 = 0
  · rw [single, before_zero, u32Sub_of_le (Nat.zero_le _) word, Nat.sub_zero] at index
    rw [if_pos single, single, index]
  · have front : table[child.length - 2]? = _ := edge.front single
    rw [if_neg single, front]
    dsimp only [Option.bind_eq_bind, Option.bind_some]
    rw [index]
    rfl

/-- The leaf gets a slot of its own. -/
private theorem copy_own (tailSize : ℕ) (node : Node α) : ∃ table', longerTable tailSize table child.length = some table' ∧
    copyFirstK tailSize node 1 (height + 1) (.internal (some table) child) index =
      some (.internal (some table') (child ++ [node])) := by
  have longer : longerTable tailSize table child.length = some (table.take child.length ++ [u32 (entry + tailSize)]) := by
    rw [longerTable, edge.stored]
    rfl
  refine ⟨_, longer, ?_⟩
  rw [copyFirstK, longer]
  rfl

/-- The last child takes the leaf. -/
private theorem copy_inner {tailSize : ℕ} (word : (Node.internal (some table) child).size (height + 1) + extra < 2 ^ 32)
    (below : copyFirstK tailSize node (k + 1) height (slot child (child.length - 1))
      ((slot child (child.length - 1)).size height + extra) = some copied) :
    ∃ table', grownTable tailSize table child.length = some table' ∧
      copyFirstK tailSize node (k + 2) (height + 1) (.internal (some table) child)
        ((Node.internal (some table) child).size (height + 1) + extra) =
          some (.internal (some table') (child.set (child.length - 1) copied)) := by
  have grown : grownTable tailSize table child.length =
      some (table.set (child.length - 1) (u32 (entry + tailSize))) := by
    rw [grownTable, edge.stored]
    rfl
  have index := edge.index_eq word
  refine ⟨_, grown, ?_⟩
  rw [copyFirstK, grown]
  dsimp only [Option.bind_eq_bind, Option.bind_some]
  by_cases single : child.length - 1 = 0
  · have first : before (toList height) child (child.length - 1) = 0 := by rw [single, before_zero]
    rw [first] at index
    rw [if_pos single, index, below]
    rfl
  · rw [if_neg single, edge.front single]
    dsimp only [Option.bind_some]
    rw [index, below]
    rfl

end LastChild

/-- The search goes on in the last child of a node with a size table. -/
theorem LastChild.search_eq (edge : LastChild (height + 1) table child entry)
    (word : (Node.internal (some table) child).size (height + 2) + extra < 2 ^ 32) (counts : Copyable) :
    (search .null (height + 2) (.internal (some table) child)
        ((Node.internal (some table) child).size (height + 2) + extra) counts).2 =
      (search .null (height + 1) (slot child (child.length - 1))
        ((slot child (child.length - 1)).size (height + 1) + extra) (counts.follow (child.length - 1))).2 := by
  have found : child.getD (child.length - 1) .null = slot child (child.length - 1) := rfl
  rw [search_follows (edge.searchSlot_eq word (height + 2)) found edge.present]

private theorem search_noPlace_bottom (full : ¬child.length < RRB_BRANCHING) (sizeTable : Option (List ℕ)) :
    (search .null 1 (.internal sizeTable child) index counts).2 = some ⟨counts.nodesVisited + 1, counts.nodesToCopy⟩ := by
  simp [search, Node.len, full]

/-- Without a place below a node of height one, it has all its slots. -/
private theorem Node.Dense.slots_of_noPlace (small : extra < RRB_BRANCHING) (dense : (Node.internal none child).Dense 1)
    (noPlace : ¬(Node.internal none child).HasPlace extra 1) : ¬child.length < RRB_BRANCHING := by
  intro room
  have le := (dense.2.1 _ (slot_mem (show child.length - 1 < child.length by have := dense.1; omega))).size_le
  apply noPlace
  rw [Node.HasPlace, dense.size_last]
  simp only [RRB_BRANCHING] at room le small ⊢
  omega

/-- The search goes to the lowest level of a tree without a place, and counts no node to copy there. -/
theorem Node.Shaped.search_noPlace (small : extra < RRB_BRANCHING) : ∀ {height} {node : Node α} {counts : Copyable},
    node.Searchable height → node.Shaped Covers height → node.size height + extra < 2 ^ 32 →
      ¬node.HasPlace extra height → (search .null height node (node.size height + extra) counts).2 =
        some ⟨counts.nodesVisited + height, counts.nodesToCopy⟩ := by
  intro height
  induction height with
  | zero => exact fun _ _ _ _ => by rw [search]; rfl
  | succ height ih =>
    intro node counts searchable shaped word noPlace
    obtain ⟨sizeTable, child, rfl, slots, -⟩ := shaped.isInternal
    cases sizeTable with
    | none =>
      have dense : (Node.internal none child).Dense (height + 1) := shaped
      have low : height + 1 < RRB_MAX_HEIGHT := searchable.top.resolve_right id
      cases height with
      | zero => exact search_noPlace_bottom (dense.slots_of_noPlace small noPlace) none
      | succ height =>
        have above : 0 < ((Node.internal none child).size (height + 2) + extra) / RRB_BRANCHING ^ (height + 2 + 1) := by
          apply Nat.div_pos
          · exact Nat.le_of_not_lt noPlace
          · exact branching_pow_pos _
        have stops : searchSlot none child.length ((Node.internal none child).size (height + 2) + extra) (height + 2) =
            some none := by
          rw [searchSlot, shr_eq (show height + 2 + 1 ≤ RRB_MAX_HEIGHT from low)]
          exact if_pos above
        rw [search, stops]
        simp only [Nat.add_comm, Nat.add_left_comm]
    | some table =>
      obtain ⟨entry, edge⟩ := shaped.lastChild
      obtain ⟨full, lastNoPlace⟩ := not_or.mp noPlace
      cases height with
      | zero => exact search_noPlace_bottom full (some table)
      | succ height =>
        have masked : ¬child.length - 1 < RRB_MASK := by
          simp only [RRB_BRANCHING, RRB_MASK] at full ⊢
          omega
        rw [edge.search_eq word, ih (searchable.below _) edge.shaped (edge.word_below word) lastNoPlace, Copyable.follow]
        dsimp only
        rw [if_neg masked, Nat.add_assoc, Nat.add_comm 1]

/-- The search and the copy put a leaf into the place of a tree. -/
theorem Node.Shaped.lands (slots : 1 ≤ tail.length ∧ tail.length ≤ RRB_BRANCHING) : ∀ {height} {node : Node α},
    node.Searchable height → node.Shaped Covers height → node.size height + (tail.length - 1) < 2 ^ 32 →
      node.HasPlace (tail.length - 1) height → node.LeafBehind (tail.length - 1) height → ∀ counts,
        ∃ depth node', Lands tail height node counts depth node' ∧
          copyFirstK tail.length (appendEmpty (height - (depth + 1)) (.leaf tail)) (depth + 1) height node
            (node.size height + (tail.length - 1)) = some node' := by
  intro height
  induction height with
  | zero => exact fun _ _ _ place => place.elim
  | succ height ih =>
    intro node searchable shaped word place leafBehind counts
    obtain ⟨sizeTable, child, rfl, -⟩ := shaped.isInternal
    cases sizeTable with
    | none =>
      have low : height + 1 < RRB_MAX_HEIGHT := searchable.top.resolve_right id
      obtain ⟨depth, node', lands, copied⟩ := Node.Dense.lands slots low shaped place leafBehind counts
      exact ⟨depth, node', lands, copied _ (Nat.mod_eq_of_lt place)⟩
    | some table =>
      obtain ⟨entry, edge⟩ := shaped.lastChild
      have wordBelow := edge.word_below word
      by_cases lower : (slot child (child.length - 1)).HasPlace (tail.length - 1) height
      · -- the leaf goes to the last child
        obtain ⟨depth, copied, lands, done⟩ := ih (searchable.below _) edge.shaped wordBelow lower leafBehind
          (counts.follow (child.length - 1))
        obtain ⟨table', grown, copy⟩ := edge.copy_inner word done
        refine ⟨depth + 1, .internal (some table') (child.set (child.length - 1) copied),
          ⟨Nat.succ_lt_succ lands.reached, ?_, .inner lower lands.landed (congrArg (Option.map some) grown)⟩, ?_⟩
        · cases height with
          | zero => exact lower.elim
          | succ height =>
            rw [edge.search_eq word, lands.searched]
            simp only [Option.some.injEq, Copyable.mk.injEq, Copyable.follow_nodesVisited]
            omega
        · rw [Nat.add_sub_add_right]
          exact copy
      · -- the leaf goes to a slot of its own
        have room : child.length < RRB_BRANCHING := place.resolve_right lower
        obtain ⟨table', longer, copy⟩ := edge.copy_own tail.length (appendEmpty height (.leaf tail))
        refine ⟨0, .internal (some table') (child ++ [appendEmpty height (.leaf tail)]),
          ⟨Nat.succ_pos _, ?_, .own room lower (congrArg (Option.map some) longer)⟩, copy⟩
        cases height with
        | zero => simp [search, Node.len, room]
        | succ height =>
          have masked : child.length - 1 < RRB_MASK := by
            have := edge.slots.1
            simp only [RRB_BRANCHING, RRB_MASK] at room ⊢
            omega
          rw [edge.search_eq word,
            edge.shaped.search_noPlace (by omega) (searchable.below _) wordBelow lower, Copyable.follow]
          dsimp only
          rw [if_pos masked, Nat.add_assoc, Nat.add_comm 1]

end Owl.Lists
