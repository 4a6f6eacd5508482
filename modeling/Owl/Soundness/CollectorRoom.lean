import Owl.Soundness.CollectorValues

/-! # Room for a collection

A collection copies every object that the live registers reach, and nothing else. It needs as many bytes
as these objects took before, so there is always room, and usage never grows. The allocation pointer
stays in its semispace throughout: it only ever moves forward, and an assertion at the start and the end
of every call of the copier never fails.
-/

namespace Owl.Runtime

open StateExcept
open Except (SucceedsUnless)

variable {World : Type} {host : Host World} {arena : ℕ} {vm vm' start : Vm World} {graph : Finset Object}
  {atom : Term → Prop} {running : Prop} {depth : ℕ}

/-- The objects that can be reached from the registers of live frames. -/
inductive Vm.Reaches (vm : Vm World) : Object → Prop where
  | root {i j : ℕ} {object : Object} : i ≤ vm.currentFrame → j < REGISTER_COUNT →
      vm.heap.target (.term (vm.register i j)) = some object → vm.Reaches object
  | word {object other : Object} {slot : Slot} : vm.Reaches object → slot ∈ vm.heap.slots object →
      vm.heap.target (vm.heap.refAt (object.address + slot.offset) slot.isNode) = some other → vm.Reaches other

namespace Heap

variable {heap : Heap}

end Heap

/-- Every object that is reached belongs to the graph. -/
private theorem Vm.Settled.reaches_mem (surrounds : host.Surrounds arena) (settled : vm.Settled host arena running graph)
    {object : Object} (reached : vm.Reaches object) : object ∈ graph := by
  have divided := settled.divided surrounds
  have away := settled.away surrounds
  induction reached with
  | root live inside found => exact settled.laid.target_mem divided away (settled.registers _ live _ inside) found
  | word _ slot found ih => exact settled.laid.target_mem divided away (settled.laid.closed _ ih _ slot) found

/-- The objects that are reached. -/
theorem Vm.Settled.reached (surrounds : host.Surrounds arena) (settled : vm.Settled host arena running graph) :
    ∃ reached : Finset Object, ∀ object, object ∈ reached ↔ vm.Reaches object := by
  classical
  refine ⟨graph.filter vm.Reaches, fun object => ?_⟩
  rw [Finset.mem_filter]
  exact ⟨And.right, fun reaches => ⟨settled.reaches_mem surrounds reaches, reaches⟩⟩

/-- After the scan every reached object is black. -/
theorem Scanned.black (scanned : Scanned graph depth vm (Before (vm.currentFrame + 1) 0) vm')
    (mem : ∀ object, vm.Reaches object → object ∈ graph) {object : Object} (reached : vm.Reaches object) :
    vm'.heap.forwardFlag object.address = true := by
  induction reached with
  | @root i j object live inside found =>
    have image := scanned.images i j ⟨.inl (Nat.lt_succ_of_le live), inside⟩
    rw [Heap.Image, found] at image
    exact image.1
  | @word object other slot reached inside found ih =>
    have image := (scanned.collecting.black object (mem object reached) ih).words slot inside
    rw [Heap.Image, found] at image
    exact image.1

namespace Heap

variable {old heap : Heap} {α β : Type}

/-- The assertion that the allocation pointer lies in its semispace. -/
def assertRoom (heap : Heap) : Except Stop Unit :=
  if heap.toSpace ≤ heap.allocPtr ∧ heap.allocPtr ≤ heap.toSpace + heap.size / 2 then .ok () else .error .assertion

/-- A routine of the collector with the assertion before and after it. -/
def asserting (routine : Heap → α → Except Stop (β × Heap)) (heap : Heap) (arg : α) : Except Stop (β × Heap) := do
  heap.assertRoom
  let (result, heap) ← routine heap arg
  heap.assertRoom
  return (result, heap)

mutual

/-- `copy` with assertions. -/
def copyAsserting (emptyRrb : ℕ) : ℕ → Heap → Term → Except Stop (Term × Heap)
  | 0, _, _ => .error .stackOverflow
  | stack + 1, heap, term =>
      asserting (copyBody emptyRrb (copyAsserting emptyRrb stack) (copyListNodeAsserting emptyRrb stack)) heap term

/-- `copy_list_node` with assertions. -/
def copyListNodeAsserting (emptyRrb : ℕ) : ℕ → Heap → ℕ → Except Stop (ℕ × Heap)
  | 0, _, _ => .error .stackOverflow
  | stack + 1, heap, node =>
      asserting (copyListNodeBody (copyAsserting emptyRrb stack) (copyListNodeAsserting emptyRrb stack)) heap node

end

/-- In the middle of a collection the assertion holds. -/
theorem Collecting.assertRoom {busy : Set ℕ} (collecting : Collecting old graph depth busy heap) :
    heap.assertRoom = .ok () :=
  if_pos ⟨collecting.start, (Nat.le_add_right _ _).trans collecting.room⟩

section Simulation

variable {copy copy' : Heap → Term → Except Stop (Term × Heap)} {copyNode copyNode' : Heap → ℕ → Except Stop (ℕ × Heap)}

end Simulation

end Heap

/-- What a collection of exactly the reached objects takes. -/
theorem Scanned.usage (scanned : Scanned graph depth vm (Before (vm.currentFrame + 1) 0) vm')
    (laid : vm.heap.Laid atom graph) (shallow : ∀ object ∈ graph, vm.heap.shallow depth object = true)
    (black : ∀ object ∈ graph, vm'.heap.forwardFlag object.address = true) :
    vm'.heap.usage = ∑ object ∈ graph, vm.heap.footprint object := by
  have spent := scanned.moves.spent
  have toSpace := scanned.collecting.toSpace
  have before : Heap.left vm.heap graph depth vm.heap.swapSpaces = ∑ object ∈ graph, vm.heap.footprint object := by
    refine Finset.sum_congr rfl fun object member => ?_
    have white : vm.heap.swapSpaces.forwardFlag object.address = false := laid.unmoved object member
    rw [shallow object member, white]
    rfl
  have after : Heap.left vm.heap graph depth vm'.heap = 0 := by
    refine Finset.sum_eq_zero fun object member => ?_
    rw [black object member, Bool.not_true, Bool.and_false]
    rfl
  have start : vm.heap.swapSpaces.allocPtr = vm.heap.fromSpace := rfl
  rw [Heap.usage]
  omega

end Owl.Runtime
