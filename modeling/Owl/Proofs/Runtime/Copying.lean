import Owl.Proofs.Runtime.Collecting

/-! # Copying objects

A copier turns a good word that can be read to the depth of a collection into its image. Replacing
consecutive words by their images is the work that is common to all objects; around it an object is
copied either before its words, as terms are, or after them, as nodes are.
-/

namespace Owl.Runtime

open Except (SucceedsUnless)

namespace Heap

variable {old heap heap' : Heap} {graph : Finset Object} {atom : Term → Prop} {depth stack : ℕ} {busy : Set ℕ}

/-- The reference in a word. -/
def wordRef (isNode : Bool) (word : Term) : Ref := if isNode then .node word.toNat else .term word

theorem refAt_eq (heap : Heap) (address : ℕ) (isNode : Bool) :
    heap.refAt address isNode = wordRef isNode (heap.readTerm address) := by
  cases isNode with
  | false => simp [refAt, wordRef]
  | true =>
    have small := heap.mem.readNat_lt address 8
    simp only [refAt, wordRef, readTerm, if_true]
    rw [UInt64.toNat_ofNat_of_lt' (by simpa [UInt64.size] using small)]

theorem refAt_congr {address address' : ℕ} {isNode : Bool}
    (same : ∀ i < 8, heap'.mem (address' + i) = heap.mem (address + i)) :
    heap'.refAt address' isNode = heap.refAt address isNode := by
  rw [refAt, refAt, readTerm, readTerm, ByteMemory.readNat_shift same]

theorem readTerm_writeTerm (heap : Heap) (address : ℕ) (word : Term) :
    (heap.writeTerm address word).readTerm address = word := by
  rw [readTerm, writeTerm, ByteMemory.readNat_writeNat, Nat.mod_eq_of_lt (by simpa using word.toNat_lt),
    UInt64.ofNat_toNat]

/-- A copier replaces words by their images, unless they are deeper than the stack. -/
def Copies (old : Heap) (graph : Finset Object) (atom : Term → Prop) (stack : ℕ) (isNode : Bool)
    (copyWord : Heap → Term → Except Stop (Term × Heap)) : Prop :=
  ∀ depth busy heap word value, Collecting old graph depth busy heap →
    Good atom graph (wordRef isNode word) → old.decode depth (wordRef isNode word) = some value →
    value.whole = true →
    SucceedsUnless (stack < depth) .stackOverflow (copyWord heap word) fun (word', heap') =>
      Collecting old graph depth busy heap' ∧ Moves old graph depth ∅ 0 heap heap' ∧
        Image old heap' (wordRef isNode word) (wordRef isNode word')

/-- Only a change of its flag starts or ends the work on an object at work. -/
theorem Moves.flag_deep (laid : old.Laid atom graph) {changed : Set ℕ} {used : ℕ}
    (moves : Moves old graph depth changed used heap heap') {object : Object} (member : object ∈ graph)
    (deep : old.shallow depth object = false) (outside : object.address - 1 ∉ changed) :
    heap'.forwardFlag object.address = heap.forwardFlag object.address := by
  have positive := (holds_iff.mp (laid.held object member)).1
  apply forwardFlag_congr
  apply moves.keeps _ outside
  exact .inr ⟨object, member, deep, laid.owns_start member (by omega) (by omega)⟩

/-- A range in which words may be replaced: in an unfinished copy, or in an object at work. -/
def Scratch (old : Heap) (graph : Finset Object) (depth : ℕ) (busy : Set ℕ) (heap : Heap) (lo hi : ℕ) : Prop :=
  (∀ i, lo ≤ i → i < hi → i ∈ busy) ∨
    ∃ object ∈ graph, old.shallow depth object = false ∧ heap.forwardFlag object.address = false ∧
      object.address ≤ lo ∧ hi ≤ object.address + old.extent object

namespace Scratch

variable {lo hi : ℕ}

theorem narrow {lo' hi' : ℕ} (scratch : Scratch old graph depth busy heap lo hi) (lower : lo ≤ lo')
    (upper : hi' ≤ hi) : Scratch old graph depth busy heap lo' hi' := by
  rcases scratch with inside | ⟨object, member, deep, white, start, stop⟩
  · exact .inl fun i above below => inside i (by omega) (by omega)
  · exact .inr ⟨object, member, deep, white, by omega, by omega⟩

theorem loose (scratch : Scratch old graph depth busy heap lo hi) {i : ℕ} (lower : lo ≤ i) (upper : i < hi) :
    Loose old graph depth busy heap i := by
  rcases scratch with inside | ⟨object, member, deep, white, start, stop⟩
  · exact .inl (inside i lower upper)
  · exact .inr ⟨object, member, deep, white, .inl ⟨by omega, by omega⟩, by omega⟩

theorem kept (scratch : Scratch old graph depth busy heap lo hi)
    (collecting : Collecting old graph depth busy heap) {i : ℕ} (lower : lo ≤ i) (upper : i < hi) :
    Kept old graph depth heap i := by
  rcases scratch with inside | ⟨object, member, deep, -, start, stop⟩
  · exact .inl (collecting.busyInside i (inside i lower upper))
  · exact .inr ⟨object, member, deep, .inl ⟨by omega, by omega⟩⟩

/-- Work elsewhere leaves the range a scratch range. -/
theorem moves {changed : Set ℕ} {used : ℕ} (laid : old.Laid atom graph)
    (scratch : Scratch old graph depth busy heap lo hi)
    (moves : Moves old graph depth changed used heap heap') (above : ∀ i ∈ changed, lo ≤ i) :
    Scratch old graph depth busy heap' lo hi := by
  rcases scratch with inside | ⟨object, member, deep, white, start, stop⟩
  · exact .inl inside
  · refine .inr ⟨object, member, deep, ?_, start, stop⟩
    have positive := (holds_iff.mp (laid.held object member)).1
    rw [← white]
    apply moves.flag_deep laid member deep
    intro inside
    have := above _ inside
    omega

end Scratch

private theorem writeTerm_changes {address i : ℕ} {word : Term}
    (changed : (heap.writeTerm address word).mem i ≠ heap.mem i) : address ≤ i ∧ i < address + 8 := by
  by_contra outside
  exact changed (ByteMemory.writeBytes_outside (by simp only [littleEndian_length]; omega))

/-- An image stays through progress. -/
theorem Moves.image (laid : old.Laid atom graph) (divided : old.Divided) (away : old.AtomsAway atom)
    {changed : Set ℕ} {used : ℕ} (moves : Moves old graph depth changed used heap heap') {ref ref' : Ref}
    (good : Good atom graph ref) (image : Image old heap ref ref') : Image old heap' ref ref' :=
  image.mono fun object found => moves.black object (laid.target_mem divided away good found)

/-- Consecutive words are replaced by their images. -/
theorem mapWords_copies (laid : old.Laid atom graph) (divided : old.Divided) (away : old.AtomsAway atom)
    {copyWord : Heap → Term → Except Stop (Term × Heap)} {isNode : Bool}
    (copies : Copies old graph atom stack isNode copyWord) {count address : ℕ}
    (collecting : Collecting old graph depth busy heap)
    (scratch : Scratch old graph depth busy heap address (address + 8 * count))
    (words : ∀ k < count, Good atom graph (heap.refAt (address + 8 * k) isNode) ∧
      ∃ value, old.decode depth (heap.refAt (address + 8 * k) isNode) = some value ∧ value.whole = true) :
    SucceedsUnless (stack < depth) .stackOverflow (mapWords copyWord address count heap) fun heap' =>
      Collecting old graph depth busy heap' ∧
        Moves old graph depth {i | address ≤ i ∧ i < address + 8 * count} 0 heap heap' ∧
        ∀ k < count, Image old heap' (heap.refAt (address + 8 * k) isNode)
          (heap'.refAt (address + 8 * k) isNode) := by
  induction count generalizing heap address with
  | zero => exact .ok ⟨collecting, .refl heap, fun k small => absurd small (Nat.not_lt_zero k)⟩
  | succ count ih =>
    obtain ⟨good, value, read, whole⟩ := words 0 (Nat.succ_pos count)
    rw [Nat.mul_zero, Nat.add_zero] at good read
    rw [refAt_eq] at good read
    rw [mapWords]
    apply (copies depth busy heap _ value collecting good read whole).bind
    rintro ⟨word, heap₁⟩ ⟨collecting₁, moves₁, image⟩
    -- The word is written; nothing outside its eight bytes changes.
    have scratch₁ := scratch.moves laid moves₁ fun i inside => absurd inside (Set.notMem_empty i)
    have scribbles : Scribbles old graph depth busy heap₁ (heap₁.writeTerm address word) :=
      ⟨rfl, rfl, rfl, rfl, fun i changed => by
        obtain ⟨lower, upper⟩ := writeTerm_changes changed
        exact scratch₁.loose lower (by omega)⟩
    have collecting₂ := scribbles.collects laid divided collecting₁ away
    have moves₂ : Moves old graph depth {i | address ≤ i ∧ i < address + 8} 0 heap₁ (heap₁.writeTerm address word) :=
      scribbles.moves laid divided collecting₁ fun i changed => writeTerm_changes changed
    have scratch₂ := scratch₁.moves laid moves₂ fun i inside => inside.1
    have moves₂' := (moves₁.widen (Set.empty_subset _)).trans moves₂
    have same (k : ℕ) (small : k < count) : (heap₁.writeTerm address word).refAt (address + 8 + 8 * k) isNode =
        heap.refAt (address + 8 * (k + 1)) isNode := by
      rw [show address + 8 * (k + 1) = address + 8 + 8 * k by omega]
      refine refAt_congr fun i below => moves₂'.keeps _ ?_ ?_
      · rintro ⟨-, upper⟩
        omega
      · exact scratch.kept collecting (by omega) (by omega)
    have left : Scratch old graph depth busy (heap₁.writeTerm address word) (address + 8) (address + 8 + 8 * count) :=
      scratch₂.narrow (by omega) (by omega)
    have rest := ih collecting₂ left
      (fun k small => by rw [same k small]; exact words (k + 1) (by omega))
    refine rest.mono fun heap₃ after => ?_
    obtain ⟨collecting₃, moves₃, images⟩ := after
    have first : {i | address ≤ i ∧ i < address + 8} ⊆ {i | address ≤ i ∧ i < address + 8 * (count + 1)} := by
      rintro i ⟨lower, upper⟩
      exact ⟨lower, by omega⟩
    have others : {i | address + 8 ≤ i ∧ i < address + 8 + 8 * count} ⊆
        {i | address ≤ i ∧ i < address + 8 * (count + 1)} := by
      rintro i ⟨lower, upper⟩
      exact ⟨by omega, by omega⟩
    refine ⟨collecting₃, (moves₂'.widen first).trans (moves₃.widen others), fun k small => ?_⟩
    rcases k with _ | k
    · rw [Nat.mul_zero, Nat.add_zero]
      have written : heap₃.refAt address isNode = wordRef isNode word := by
        rw [← readTerm_writeTerm heap₁ address word, ← refAt_eq]
        refine refAt_congr fun i below => moves₃.keeps _ ?_ ?_
        · rintro ⟨lower, -⟩
          omega
        · exact scratch₂.kept collecting₂ (by omega) (by omega)
      rw [written, refAt_eq]
      have later := moves₂.image laid divided away good image
      exact moves₃.image laid divided away good later
    · rw [← same k (by omega), show address + 8 * (k + 1) = address + 8 + 8 * k by omega]
      exact images k (by omega)

end Heap

end Owl.Runtime
