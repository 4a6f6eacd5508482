import Owl.Soundness.CollectorFrame

/-! # Values and roots of a collection

A collection keeps what the live registers stand for, unless a text on the heap loses its terminator or
an integer is taken for an address. It replaces all registers by references to copies; the running
function is not among the roots, and it is left behind exactly if it is a closure on the heap.
-/

namespace Owl.Runtime

open StateExcept
open Except (SucceedsUnless)

variable {World : Type} {host : Host World} {arena : ℕ} {vm vm' start : Vm World} {graph : Finset Object}
  {running : Prop} {depth : ℕ}

/-- No integer of a live value has the payload of an address that may be moved. -/
def Vm.Exact (vm : Vm World) : Prop :=
  ∀ i ≤ vm.currentFrame, ∀ j < REGISTER_COUNT, ∀ value, vm.heap.Denotes (.term (vm.register i j)) value →
    value.all (fun term => !vm.heap.mistakes term) (fun _ => true) = true

/-- The live registers of one machine stand for the same values in another. Reading a value fails unless
all its objects lie in allocated blocks. -/
def Vm.KeepsValues (vm vm' : Vm World) : Prop :=
  ∀ i ≤ vm.currentFrame, ∀ j < REGISTER_COUNT, ∀ value, vm.heap.Denotes (.term (vm.register i j)) value →
    vm'.heap.Denotes (.term (vm'.register i j)) value

theorem Scanned.keepsValues (surrounds : host.Surrounds arena) (settled : vm.Settled host arena running graph)
    (exact : vm.Exact) (scanned : Scanned graph depth vm (Before (vm.currentFrame + 1) 0) vm') : vm.KeepsValues vm' := by
  rintro i live j inside value ⟨level, read⟩
  have image := scanned.images i j ⟨.inl (Nat.lt_succ_of_le live), inside⟩
  obtain ⟨value', read', -, same⟩ := scanned.collecting.decode_image (settled.divided surrounds) settled.laid
    (settled.away surrounds) (atom_ints _) (settled.registers i live j inside) image read
  rw [← same (exact i live j inside value ⟨level, read⟩)]
  exact ⟨level, read'⟩

/-- Later steps that do not collect leave what a term stands for alone. -/
theorem Run.denotes {later : Vm World} (run : Run host (fun vm => ¬ vm.Collects) vm later)
    (bounded : vm.heap.allocPtr ≤ vm.heap.toSpace + vm.heap.size) {ref : Ref} {value : Value}
    (denotes : vm.heap.Denotes ref value) : later.heap.Denotes ref value := by
  obtain ⟨level, read⟩ := denotes
  exact ⟨level, (run.grows fun _ => id).decode bounded read⟩

/-- Every live register can be read to a depth, and no integer of its value may be mistaken. -/
def Vm.ExactWithin (depth : ℕ) (vm : Vm World) : Prop :=
  ∀ i ∈ List.range (vm.currentFrame + 1), ∀ j ∈ List.range REGISTER_COUNT,
    (vm.heap.decode depth (.term (vm.register i j))).any
      (Value.all (fun term => !vm.heap.mistakes term) fun _ => true) = true

instance (depth : ℕ) (vm : Vm World) : Decidable (vm.ExactWithin depth) :=
  inferInstanceAs (Decidable (∀ i ∈ List.range (vm.currentFrame + 1), ∀ j ∈ List.range REGISTER_COUNT, _ = true))

theorem Vm.ExactWithin.exact (within : vm.ExactWithin depth) : vm.Exact := by
  intro i live j inside value denotes
  have read := within i (List.mem_range.mpr (Nat.lt_succ_of_le live)) j (List.mem_range.mpr inside)
  obtain ⟨other, read, fine⟩ := Option.any_eq_true _ _ |>.mp read
  rwa [denotes.unique ⟨depth, read⟩]

/-- All pointers that the machine may follow lead to objects in allocated blocks. -/
def Vm.Rooted (vm : Vm World) : Prop :=
  (∀ i ≤ vm.currentFrame, ∀ j < REGISTER_COUNT, ∃ value, vm.heap.Denotes (.term (vm.register i j)) value) ∧
    (vm.Static ∨ vm.heap.holds ⟨.function, vm.currentFunction⟩ = true)

theorem Vm.Settled.rooted (surrounds : host.Surrounds arena) (settled : vm.Settled host arena True graph) : vm.Rooted := by
  constructor
  · intro i live j inside
    exact settled.laid.denotes (settled.divided surrounds) (settled.away surrounds) (settled.registers i live j inside)
  · rcases settled.function trivial with none | record | member
    · exact .inl (.inl none)
    · exact .inl (.inr record)
    · exact .inr (settled.laid.held _ member)

/-- The running function is in the evacuated semispace exactly if it is a closure on the heap. -/
theorem Vm.Settled.inToSpace_iff (surrounds : host.Surrounds arena) (settled : vm.Settled host arena True graph) :
    vm.heap.inToSpace vm.currentFunction = true ↔ ¬ vm.Static := by
  have divided := settled.divided surrounds
  have distant (static : vm.Static) : Distant arena vm.currentFunction ∨ vm.currentFunction = 0 := by
    rcases static with none | record
    · exact .inr none
    · exact .inl (surrounds.records _ (settled.placed.statics _ record))
  constructor
  · intro inside static
    have spaces := settled.placed.spaces
    have size := settled.placed.size
    have low := surrounds.low
    rw [Heap.inToSpace_iff] at inside
    rcases distant static with ⟨apart, -⟩ | none <;> omega
  · intro closure
    have member := (settled.function trivial).resolve_left fun none => closure (.inl none)
    exact inToSpace_held divided (settled.laid.held _ (member.resolve_left fun record => closure (.inr record)))

end Owl.Runtime
