import Owl.Proofs.Runtime.Reachable
import Owl.Proofs.Runtime.ReferenceLibrary

/-! # What a collection leaves alone

The collector moves an object if its address is in a range, and the range is as long as both semispaces
together. It treats the addresses of the evacuated semispace as it should, and every other address
except those of the second half of the range. When all objects outside the heap are placed elsewhere, a
collection changes no byte outside the semispaces and no reference to an object outside them.
-/

namespace Owl.Runtime

open StateExcept
open Except (SucceedsUnless)

variable {World : Type} {host : Host World} {arena : ℕ} {vm start : Vm World}

/-- The semispace in which objects are allocated; a collection evacuates it. -/
def Heap.inToSpace (heap : Heap) (ptr : ℕ) : Bool :=
  heap.toSpace ≤ ptr && ptr < heap.toSpace + heap.size / 2

theorem Heap.inToSpace_iff {heap : Heap} {ptr : ℕ} :
    heap.inToSpace ptr = true ↔ heap.toSpace ≤ ptr ∧ ptr < heap.toSpace + heap.size / 2 := by
  simp [inToSpace]

variable {graph : Finset Object} {atom : Term → Prop} {heap : Heap}

theorem inToSpace_held (divided : heap.Divided) {object : Object} (held : heap.holds object = true) :
    heap.inToSpace object.address = true := by
  obtain ⟨lower, upper, -⟩ := Heap.holds_iff.mp held
  have room := divided.room
  have positive := heap.extent_pos object
  rw [Heap.inToSpace_iff]
  omega

end Owl.Runtime
