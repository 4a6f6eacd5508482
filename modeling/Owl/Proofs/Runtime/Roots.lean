import Owl.Proofs.Runtime.Copier
import Owl.Proofs.Runtime.Collection

/-! # The root scan

A collection starts with an empty new space, and it has room because the objects of the graph share no
bytes. The scan replaces the registers of the live frames by their images, one after the other.
-/

namespace Owl.Runtime

open StateExcept Except

variable {World : Type} {host : Host World}

/-- What each action of a series keeps is kept by the series. -/
private theorem forFrom_succeeds {fails : Prop} {stop : Stop} {action : ℕ → Exec World Unit}
    (holds : ℕ → Vm World → Prop) (n : ℕ) :
    ∀ {start : ℕ} {vm : Vm World}, holds start vm →
      (∀ k vm, start ≤ k → k < start + n → holds k vm →
        SucceedsUnless fails stop (action k vm) fun done => holds (k + 1) done.2) →
      SucceedsUnless fails stop (forFrom action start n vm) fun done => holds (start + n) done.2 := by
  induction n with
  | zero => exact fun initial _ => .ok initial
  | succ n ih =>
    intro start vm initial each
    rw [show start + (n + 1) = start + 1 + n by omega]
    refine SucceedsUnless.bind (each start vm (Nat.le_refl _) (by omega) initial) fun ⟨_, middle⟩ here => ?_
    exact ih here fun k vm lower upper => each k vm (by omega) (by omega)

namespace Heap

variable {old heap : Heap} {graph : Finset Object} {atom : Term → Prop} {depth : ℕ}

/-- The bytes of an object. -/
def ownedBytes (heap : Heap) (object : Object) : Finset ℕ :=
  Finset.Ico (object.address - 1) (object.address + heap.extent object) ∪
    if heap.table object = 0 then ∅
    else Finset.Ico (heap.table object - 1) (heap.table object + tableExtent (heap.nodeLen object.address))

private theorem mem_ownedBytes {object : Object} {i : ℕ} : i ∈ heap.ownedBytes object ↔ heap.Owns object i := by
  rw [ownedBytes, Owns, Finset.mem_union, Finset.mem_Ico]
  constructor
  · rintro (⟨lower, upper⟩ | inside)
    · exact .inl ⟨by omega, upper⟩
    · split at inside
      · simp at inside
      · next tabled =>
        obtain ⟨lower, upper⟩ := Finset.mem_Ico.mp inside
        exact .inr ⟨tabled, by omega, upper⟩
  · rintro (⟨lower, upper⟩ | ⟨tabled, lower, upper⟩)
    · exact .inl ⟨by omega, upper⟩
    · rw [if_neg tabled, Finset.mem_Ico]
      exact .inr ⟨by omega, upper⟩

private theorem card_ownedBytes (laid : old.Laid atom graph) {object : Object} (member : object ∈ graph) :
    (old.ownedBytes object).card = old.footprint object := by
  have above := (holds_iff.mp (laid.held object member)).1
  rw [ownedBytes, footprint]
  split
  · rw [Finset.union_empty, Nat.card_Ico]
    omega
  · next tabled =>
    have apart := laid.tableApart object member tabled
    have disjoint : Disjoint (Finset.Ico (object.address - 1) (object.address + old.extent object))
        (Finset.Ico (old.table object - 1) (old.table object + tableExtent (old.nodeLen object.address))) := by
      rw [Finset.disjoint_left]
      intro i first second
      rw [Finset.mem_Ico] at first second
      omega
    rw [Finset.card_union_of_disjoint disjoint, Nat.card_Ico, Nat.card_Ico]
    omega

/-- All objects together take no more than the allocated bytes. -/
theorem sum_footprint_le (laid : old.Laid atom graph) :
    ∑ object ∈ graph, old.footprint object ≤ old.allocPtr - old.toSpace := by
  classical
  calc ∑ object ∈ graph, old.footprint object
      = ∑ object ∈ graph, (old.ownedBytes object).card :=
        Finset.sum_congr rfl fun object member => (card_ownedBytes laid member).symm
    _ = (graph.biUnion old.ownedBytes).card := by
        rw [Finset.card_biUnion]
        intro object member other otherMember different
        refine Finset.disjoint_left.mpr fun i first second => ?_
        rw [mem_ownedBytes] at first second
        exact different (laid.apart object member other otherMember i first second)
    _ ≤ (Finset.Ico old.toSpace old.allocPtr).card := by
        apply Finset.card_le_card
        intro i owned
        obtain ⟨object, member, owned⟩ := Finset.mem_biUnion.mp owned
        exact Finset.mem_Ico.mpr (owns_inside (laid.held object member) (mem_ownedBytes.mp owned))
    _ = old.allocPtr - old.toSpace := Nat.card_Ico _ _

private theorem left_le_sum : left old graph depth heap ≤ ∑ object ∈ graph, old.footprint object := by
  apply Finset.sum_le_sum
  intro object _
  split <;> omega

/-- A collection starts with the other space, which is empty. -/
private theorem collecting_swapSpaces (laid : old.Laid atom graph) (divided : old.Divided) (depth : ℕ) :
    Collecting old graph depth ∅ old.swapSpaces := by
  have white (object : Object) (member : object ∈ graph) : old.swapSpaces.forwardFlag object.address = false :=
    laid.unmoved object member
  constructor
  case toSpace => rfl
  case fromSpace => rfl
  case size => rfl
  case start => exact Nat.le_refl _
  case room =>
    have needed : left old graph depth old.swapSpaces ≤ _ := left_le_sum.trans (sum_footprint_le laid)
    have room := divided.room
    change old.fromSpace + _ ≤ old.fromSpace + old.size / 2
    omega
  case busyInside => exact fun i none => absurd none (Set.notMem_empty i)
  case white => exact fun _ _ _ _ _ _ => rfl
  case black =>
    intro object member black
    rw [white object member] at black
    contradiction
  case apart =>
    intro object member _ _ black
    rw [white object member] at black
    contradiction
  case idle =>
    intro object member black
    rw [white object member] at black
    contradiction
  case outside => exact fun _ _ => rfl

end Heap

/-- `gc_collect` with any copier. -/
def copyRegisterBy (copyTerm : Heap → Term → Except Stop (Term × Heap)) (i j : ℕ) : Exec World Unit := do
  let vm ← get
  let object := (vm.frames i).registers j
  if object ≠ 0 then
    let copied ← onHeap fun heap => copyTerm heap object
    modify fun vm => vm.setFrame i ((vm.frames i).setRegister j copied)

def gcCollectBy (copyTerm : Heap → Term → Except Stop (Term × Heap)) : Exec World Unit := do
  modify fun vm => { vm with heap := vm.heap.swapSpaces }
  let vm ← get
  forFrom (fun i => forFrom (copyRegisterBy copyTerm i) 0 REGISTER_COUNT) 0 (vm.currentFrame + 1)

theorem gcCollect_eq (host : Host World) :
    gcCollect host = gcCollectBy fun heap term => heap.copy host.emptyRrb host.stack term := rfl

/-- The register of a frame. -/
def Vm.register (vm : Vm World) (i j : ℕ) : Term := (vm.frames i).registers j

theorem Vm.register_setFrame (vm : Vm World) (i j a b : ℕ) (term : Term) :
    (vm.setFrame i ((vm.frames i).setRegister j term)).register a b =
      if a = i ∧ b = j then term else vm.register a b := by
  by_cases frame : a = i
  · subst frame
    by_cases here : b = j <;> simp [Vm.register, Vm.setFrame, Frame.setRegister, here]
  · simp [Vm.register, Vm.setFrame, frame]

theorem onHeap_run {α : Type} (run : Heap → Except Stop (α × Heap)) (vm : Vm World) :
    onHeap run vm = (run vm.heap).map fun result => (result.1, { vm with heap := result.2 }) := by
  rw [onHeap, get_bind]
  cases ran : run vm.heap with
  | error stop => rfl
  | ok result => rfl

theorem copyRegisterBy_run (copyTerm : Heap → Term → Except Stop (Term × Heap)) (i j : ℕ) (vm : Vm World) :
    copyRegisterBy copyTerm i j vm = if vm.register i j = 0 then .ok ((), vm)
      else (copyTerm vm.heap (vm.register i j)).map fun copied =>
        ((), { vm with heap := copied.2 }.setFrame i ((vm.frames i).setRegister j copied.1)) := by
  rw [copyRegisterBy, get_bind]
  change (if vm.register i j ≠ 0 then _ else _ : Exec World PUnit) vm = _
  by_cases none : vm.register i j = 0
  · rw [if_neg (not_not.mpr none), if_pos none]
    rfl
  · rw [if_pos none, if_neg none]
    change ((onHeap fun heap => copyTerm heap (vm.register i j)) >>= _) vm = _
    have scanned := onHeap_run (fun heap => copyTerm heap (vm.register i j)) vm
    cases copied : copyTerm vm.heap (vm.register i j) with
    | error stop =>
      rw [copied] at scanned
      exact bind_of_error scanned
    | ok result =>
      rw [copied] at scanned
      exact bind_of_ok scanned

/-- A machine with another heap and other registers. -/
def Vm.withRegisters (vm : Vm World) (heap : Heap) (registers : ℕ → ℕ → Term) : Vm World :=
  { vm with heap, frames := fun i => { vm.frames i with registers := registers i } }

/-- Only the heap and registers differ. -/
def Vm.SameButRegisters (vm vm' : Vm World) : Prop := ∃ heap registers, vm' = vm.withRegisters heap registers

theorem Vm.SameButRegisters.setRegister {vm vm' : Vm World} (same : vm.SameButRegisters vm') {heap : Heap} {i j : ℕ}
    {term : Term} :
    vm.SameButRegisters (({ vm' with heap } : Vm World).setFrame i ((vm'.frames i).setRegister j term)) := by
  obtain ⟨heap', registers, rfl⟩ := same
  refine ⟨heap, Function.update registers i (Function.update (registers i) j term), ?_⟩
  simp only [Vm.withRegisters, Vm.setFrame, Frame.setRegister, Vm.mk.injEq, and_true]
  funext a
  by_cases here : a = i
  · subst here
    simp
  · simp [here]

/-- The machine after the registers of some places have been scanned. -/
structure Scanned (graph : Finset Object) (depth : ℕ) (vm : Vm World) (done : ℕ → ℕ → Prop) (vm' : Vm World) :
    Prop where
  collecting : Heap.Collecting vm.heap graph depth ∅ vm'.heap
  moves : Heap.Moves vm.heap graph depth ∅ 0 vm.heap.swapSpaces vm'.heap
  rest : vm.SameButRegisters vm'
  fresh : ∀ i j, ¬ done i j → vm'.register i j = vm.register i j
  images : ∀ i j, done i j → Heap.Image vm.heap vm'.heap (.term (vm.register i j)) (.term (vm'.register i j))

/-- The places before one, in the order of the scan. -/
def Before (i j a b : ℕ) : Prop := (a < i ∨ a = i ∧ b < j) ∧ b < REGISTER_COUNT

section Scan

variable {graph : Finset Object} {atom : Term → Prop} {depth stack : ℕ} {vm : Vm World}
  {copyTerm : Heap → Term → Except Stop (Term × Heap)}

/-- A term that the collector can turn into its image at a depth. -/
def Collectable (heap : Heap) (graph : Finset Object) (atom : Term → Prop) (depth : ℕ) (term : Term) : Prop :=
  Good atom graph (.term term) ∧ ∃ value, heap.decode depth (.term term) = some value ∧ value.whole = true

/-- The registers of the live frames can be collected. -/
def Vm.Collectable (vm : Vm World) (graph : Finset Object) (atom : Term → Prop) (depth : ℕ) : Prop :=
  ∀ i ≤ vm.currentFrame, ∀ j < REGISTER_COUNT, Owl.Runtime.Collectable vm.heap graph atom depth (vm.register i j)

private theorem target_zero {heap : Heap} (divided : heap.Divided) : heap.target (.term 0) = none := by
  have positive := divided.positive
  have outside : ¬ heap.inArena 0 = true := by
    rw [Heap.inArena_iff]
    omega
  rw [Heap.target, show extractPtr 0 = 0 from rfl, if_neg outside]

variable (laid : vm.heap.Laid atom graph) (divided : vm.heap.Divided) (away : vm.heap.AtomsAway atom)
  (copies : Heap.Copies vm.heap graph atom stack false copyTerm) (roots : vm.Collectable graph atom depth)

include laid divided away copies roots

/-- One register. -/
theorem Scanned.register {vm' : Vm World} {i j : ℕ} (live : i ≤ vm.currentFrame) (inside : j < REGISTER_COUNT)
    (scanned : Scanned graph depth vm (Before i j) vm') :
    SucceedsUnless (stack < depth) .stackOverflow (copyRegisterBy copyTerm i j vm') fun done =>
      Scanned graph depth vm (Before i (j + 1)) done.2 := by
  have notYet : ¬ Before i j i j := by
    rintro ⟨earlier | ⟨-, earlier⟩, -⟩
    · exact Nat.lt_irrefl i earlier
    · exact Nat.lt_irrefl j earlier
  have next {a b : ℕ} : Before i (j + 1) a b ↔ Before i j a b ∨ a = i ∧ b = j := by
    simp only [Before]
    omega
  have unchanged := scanned.fresh i j notYet
  obtain ⟨good, value, read, whole⟩ := roots i live j inside
  rw [← unchanged] at good read
  rw [copyRegisterBy_run]
  split
  · next zero =>
    refine .ok ⟨scanned.collecting, scanned.moves, scanned.rest, ?_, ?_⟩
    · exact fun a b notDone => scanned.fresh a b fun before => notDone (next.mpr (.inl before))
    · intro a b done
      rcases next.mp done with before | ⟨rfl, rfl⟩
      · exact scanned.images a b before
      · rw [unchanged] at zero
        rw [unchanged, zero, Heap.Image, target_zero divided]
        exact .inl rfl
  · refine SucceedsUnless.map ((copies depth ∅ vm'.heap _ value scanned.collecting good read whole).mono ?_)
    rintro ⟨term, heap⟩ ⟨collecting, moves, image⟩
    rw [unchanged] at image
    have elsewhere {a b : ℕ} (other : ¬ (a = i ∧ b = j)) :
        (({ vm' with heap } : Vm World).setFrame i ((vm'.frames i).setRegister j term)).register a b =
          vm'.register a b :=
      (Vm.register_setFrame _ _ _ _ _ _).trans (if_neg other)
    have here : (({ vm' with heap } : Vm World).setFrame i ((vm'.frames i).setRegister j term)).register i j = term :=
      (Vm.register_setFrame _ _ _ _ _ _).trans (if_pos ⟨rfl, rfl⟩)
    refine ⟨collecting, scanned.moves.trans moves, scanned.rest.setRegister, ?_, ?_⟩
    · intro a b notDone
      rw [elsewhere fun same => notDone (next.mpr (.inr same))]
      exact scanned.fresh a b fun before => notDone (next.mpr (.inl before))
    · intro a b done
      by_cases same : a = i ∧ b = j
      · obtain ⟨rfl, rfl⟩ := same
        rw [here]
        exact image
      · rw [elsewhere same]
        have before := (next.mp done).resolve_right same
        have earlier : a ≤ vm.currentFrame := by
          have := before.1
          omega
        exact moves.image laid divided away (roots a earlier b before.2).1 (scanned.images a b before)

/-- The registers of all live frames. -/
theorem gcCollectBy_scanned : SucceedsUnless (stack < depth) .stackOverflow (gcCollectBy copyTerm vm) fun done =>
    Scanned graph depth vm (Before (vm.currentFrame + 1) 0) done.2 := by
  rw [gcCollectBy, modify_bind, get_bind]
  have initial : Scanned graph depth vm (Before 0 0) { vm with heap := vm.heap.swapSpaces } :=
    ⟨Heap.collecting_swapSpaces laid divided depth, .refl _, ⟨_, vm.register, rfl⟩, fun _ _ _ => rfl,
      fun a b before => by
        rcases before.1 with earlier | ⟨-, earlier⟩
        · exact absurd earlier (Nat.not_lt_zero a)
        · exact absurd earlier (Nat.not_lt_zero b)⟩
  have row (i : ℕ) (vm' : Vm World) (live : i ≤ vm.currentFrame) (scanned : Scanned graph depth vm (Before i 0) vm') :
      SucceedsUnless (stack < depth) .stackOverflow (forFrom (copyRegisterBy copyTerm i) 0 REGISTER_COUNT vm') fun done =>
        Scanned graph depth vm (Before (i + 1) 0) done.2 := by
    have registers := forFrom_succeeds (fun j => Scanned graph depth vm (Before i j)) REGISTER_COUNT scanned
      fun j vm'' _ inside scanned => scanned.register laid divided away copies roots live (by omega)
    refine registers.mono fun done scanned => ?_
    rw [Nat.zero_add] at scanned
    have same {a b : ℕ} : Before (i + 1) 0 a b ↔ Before i REGISTER_COUNT a b := by
      simp only [Before]
      omega
    exact ⟨scanned.collecting, scanned.moves, scanned.rest, fun a b notDone => scanned.fresh a b (same.not.mp notDone),
      fun a b done => scanned.images a b (same.mp done)⟩
  have frames := forFrom_succeeds (fun i => Scanned graph depth vm (Before i 0)) (vm.currentFrame + 1) initial
    fun i vm' _ live scanned => row i vm' (by omega) scanned
  rwa [Nat.zero_add] at frames

end Scan

end Owl.Runtime
