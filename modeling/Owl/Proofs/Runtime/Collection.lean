import Owl.Proofs.Runtime.Control

/-! # Collecting keeps the spaces

A collection swaps the semispaces and then allocates in the new one. Whatever it copies, the arena is
divided as before and the allocation pointer is in the current half.
-/

namespace Owl.Runtime

open StateExcept

variable {World : Type} {host : Host World}

/-- The spaces are the same, and blocks are only added. -/
structure Heap.Fills (heap heap' : Heap) : Prop where
  toSpace : heap'.toSpace = heap.toSpace
  fromSpace : heap'.fromSpace = heap.fromSpace
  size : heap'.size = heap.size
  allocPtr : heap.allocPtr ≤ heap'.allocPtr
  roomy : heap.Roomy → heap'.Roomy

namespace Heap.Fills

variable {first second third : Heap}

theorem refl (heap : Heap) : heap.Fills heap := ⟨rfl, rfl, rfl, Nat.le_refl _, id⟩

theorem trans (left : first.Fills second) (right : second.Fills third) : first.Fills third where
  toSpace := right.toSpace.trans left.toSpace
  fromSpace := right.fromSpace.trans left.fromSpace
  size := right.size.trans left.size
  allocPtr := left.allocPtr.trans right.allocPtr
  roomy := right.roomy ∘ left.roomy

/-- Memory may change anywhere. -/
theorem write (filled : first.Fills second) (mem : ByteMemory) : first.Fills { second with mem } :=
  ⟨filled.toSpace, filled.fromSpace, filled.size, filled.allocPtr, filled.roomy⟩

theorem forward (filled : first.Fills second) (old new : ℕ) : first.Fills (second.forward old new) :=
  ((filled.write _).write _).write _

end Heap.Fills

/-- Every successful run fills the heap. -/
def Filling {α β : Type} (run : Heap → α → Except Stop (β × Heap)) : Prop :=
  ∀ heap input result heap', run heap input = .ok (result, heap') → heap.Fills heap'

/-- A run that returns its heap. -/
theorem Heap.Fills.unchanged {β : Type} {value result : β} {heap heap' : Heap}
    (run : (.ok (value, heap) : Except Stop (β × Heap)) = .ok (result, heap')) : heap.Fills heap' := by
  rw [← (Prod.mk.inj (Except.ok.inj run)).2]
  exact .refl heap

theorem bumpCpy_fills {heap heap' : Heap} {src size copied : ℕ}
    (run : heap.bumpCpy src size = .ok (copied, heap')) : heap.Fills heap' := by
  simp only [Heap.bumpCpy, Except.bind_eq_ok, Except.pure_eq_ok, Prod.mk.injEq] at run
  obtain ⟨_, room, rfl, rfl⟩ := run
  have taken : heap.Fills { heap with
      allocPtr := heap.allocPtr + ((if size < 8 then 8 else size) + 1) } :=
    ⟨rfl, rfl, rfl, Nat.le_add_right _ _, fun _ => Nat.le_succ_of_le (checkOverflow_ok room)⟩
  exact (taken.write _).forward _ _

theorem mapWords_fills {copyWord : Heap → Term → Except Stop (Term × Heap)} (each : Filling copyWord) :
    ∀ n address heap heap', Heap.mapWords copyWord address n heap = .ok heap' → heap.Fills heap'
  | 0, _, heap, _, run => by
      cases run
      exact .refl heap
  | n + 1, address, heap, heap', run => by
      simp only [Heap.mapWords, Except.bind_eq_ok, Prod.exists] at run
      obtain ⟨word, middle, copied, rest⟩ := run
      exact ((each _ _ _ _ copied).write _).trans (mapWords_fills each n _ _ _ rest)

section Recursion

variable {copy : Heap → Term → Except Stop (Term × Heap)}
  {copyListNode : Heap → ℕ → Except Stop (ℕ × Heap)}

theorem copyPointer_fills (node : Filling copyListNode) : Filling (Heap.copyPointer copyListNode) := by
  intro heap word result heap' run
  simp only [Heap.copyPointer, Except.bind_eq_ok, Except.pure_eq_ok, Prod.exists, Prod.mk.injEq] at run
  obtain ⟨_, _, copied, -, rfl⟩ := run
  exact node _ _ _ _ copied

private theorem copyNonNull_fills (term : Filling copy) : Filling (Heap.copyNonNull copy) := by
  intro heap word result heap' run
  unfold Heap.copyNonNull at run
  split at run
  · cases run
    exact .refl heap
  · exact term _ _ _ _ run

private theorem copyListNodeBody_fills (term : Filling copy) (node : Filling copyListNode) :
    Filling (Heap.copyListNodeBody copy copyListNode) := by
  intro heap address result heap' run
  unfold Heap.copyListNodeBody at run
  split at run
  · exact .unchanged run
  · split at run
    · obtain ⟨filled, elements, moved⟩ := Except.bind_eq_ok.mp run
      exact (mapWords_fills term _ _ _ _ elements).trans (bumpCpy_fills moved)
    · obtain ⟨filled, children, run⟩ := Except.bind_eq_ok.mp run
      have childrenFill := mapWords_fills (copyPointer_fills node) _ _ _ _ children
      dsimp only at run
      split at run
      · obtain ⟨⟨_, copied⟩, table, moved⟩ := Except.bind_eq_ok.mp run
        exact (childrenFill.trans ((bumpCpy_fills table).write _)).trans (bumpCpy_fills moved)
      · exact childrenFill.trans (bumpCpy_fills run)

private theorem copyRefs_fills (term : Filling copy) (node : Filling copyListNode) {heap heap' : Heap}
    {object : Term} (run : heap.copyRefs copy copyListNode object = .ok heap') : heap.Fills heap' := by
  simp only [Heap.copyRefs] at run
  split at run
  · cases run
    exact .refl _
  split at run
  · exact mapWords_fills term _ _ _ _ run
  split at run
  · exact mapWords_fills (copyNonNull_fills term) _ _ _ _ run
  split at run
  · split at run
    · obtain ⟨filled, root, tail⟩ := Except.bind_eq_ok.mp run
      exact (mapWords_fills (copyPointer_fills node) _ _ _ _ root).trans
        (mapWords_fills (copyPointer_fills node) _ _ _ _ tail)
    · exact mapWords_fills (copyPointer_fills node) _ _ _ _ run
  · cases run

private theorem copyBody_fills {emptyRrb : ℕ} (term : Filling copy) (node : Filling copyListNode) :
    Filling (Heap.copyBody emptyRrb copy copyListNode) := by
  intro heap object result heap' run
  simp only [Heap.copyBody] at run
  split at run
  · exact .unchanged run
  split at run
  · exact .unchanged run
  obtain ⟨heapSize, -, run⟩ := Except.bind_eq_ok.mp run
  split at run
  · exact .unchanged run
  obtain ⟨_, room, run⟩ := Except.bind_eq_ok.mp run
  obtain ⟨filled, refs, finish⟩ := Except.bind_eq_ok.mp run
  have taken : heap.Fills { heap with allocPtr := heap.allocPtr + (heapSize + 1) } :=
    ⟨rfl, rfl, rfl, Nat.le_add_right _ _, fun _ => Nat.succ_le_succ (checkOverflow_ok room)⟩
  rw [← (Prod.mk.inj (Except.ok.inj finish)).2]
  exact ((taken.write _).trans (copyRefs_fills term node refs)).forward _ _

end Recursion

private theorem copy_fills (emptyRrb : ℕ) : ∀ stack,
    Filling (Heap.copy emptyRrb stack) ∧ Filling (Heap.copyListNode emptyRrb stack)
  | 0 => by constructor <;> rintro _ _ _ _ ⟨⟩
  | stack + 1 => by
      obtain ⟨term, node⟩ := copy_fills emptyRrb stack
      exact ⟨copyBody_fills term node, copyListNodeBody_fills term node⟩

/-- The arena is divided as before; its halves may have changed their roles. -/
structure Heap.Stays (heap heap' : Heap) : Prop where
  size : heap'.size = heap.size
  spaces : heap'.toSpace = heap.toSpace ∧ heap'.fromSpace = heap.fromSpace ∨
    heap'.toSpace = heap.fromSpace ∧ heap'.fromSpace = heap.toSpace
  allocPtr : heap.toSpace ≤ heap.allocPtr → heap'.toSpace ≤ heap'.allocPtr
  roomy : heap.Roomy → heap'.Roomy

theorem Heap.Fills.stays {heap heap' : Heap} (fills : heap.Fills heap') : heap.Stays heap' where
  size := fills.size
  spaces := .inl ⟨fills.toSpace, fills.fromSpace⟩
  allocPtr inside := by rw [fills.toSpace]; exact inside.trans fills.allocPtr
  roomy := fills.roomy

theorem Heap.Grows.stays {heap heap' : Heap} (grows : heap.Grows heap') : heap.Stays heap' :=
  Heap.Fills.stays ⟨grows.toSpace, grows.fromSpace, grows.size, grows.allocPtr, grows.roomy⟩

theorem Heap.Stays.trans {first second third : Heap} (left : first.Stays second)
    (right : second.Stays third) : first.Stays third where
  size := right.size.trans left.size
  spaces := by grind [left.spaces, right.spaces]
  allocPtr inside := right.allocPtr (left.allocPtr inside)
  roomy := right.roomy ∘ left.roomy

private theorem Heap.swapSpaces_stays (heap : Heap) : heap.Stays heap.swapSpaces where
  size := rfl
  spaces := .inr ⟨rfl, rfl⟩
  allocPtr _ := Nat.le_refl _
  roomy _ := Nat.le_succ_of_le (Nat.le_add_right _ _)

instance : Std.Refl fun vm vm' : Vm World => vm.heap.Stays vm'.heap :=
  ⟨fun vm => (Heap.Fills.refl vm.heap).stays⟩

instance : IsTrans (Vm World) fun vm vm' => vm.heap.Stays vm'.heap := ⟨fun _ _ _ => .trans⟩

private theorem copyRegister_stays (host : Host World) (i j : ℕ) :
    Preserves (fun vm vm' => vm.heap.Stays vm'.heap) (copyRegister host i j) := by
  refine .get_bind fun vm _ vm' done => ?_
  split at done
  · obtain ⟨copied, vm₁, run, finish⟩ := bind_eq_ok.mp done
    obtain ⟨heap, copying, rfl⟩ := onHeap_ok run
    cases finish
    exact ((copy_fills _ _).1 _ _ _ _ copying).stays
  · cases done
    exact (Heap.Fills.refl vm.heap).stays

theorem forFrom_stays {action : ℕ → Exec World Unit}
    (each : ∀ i, Preserves (fun vm vm' => vm.heap.Stays vm'.heap) (action i)) :
    ∀ n start, Preserves (fun vm vm' => vm.heap.Stays vm'.heap) (forFrom action start n)
  | 0, _ => .pure ()
  | n + 1, start => .bind (each start) fun _ => forFrom_stays each n (start + 1)

theorem gcCollect_stays (host : Host World) :
    Preserves (fun vm vm' => vm.heap.Stays vm'.heap) (gcCollect host) := by
  refine .bind (.modify fun vm => vm.heap.swapSpaces_stays) fun _ => .get_bind fun vm _ vm' done => ?_
  exact forFrom_stays (fun i => forFrom_stays (copyRegister_stays host i) _ _) _ _ vm _ vm' done

theorem gcSafepoint_stays (host : Host World) :
    Preserves (fun vm vm' => vm.heap.Stays vm'.heap) (gcSafepoint host) := by
  intro vm _ vm' done
  rw [gcSafepoint_run] at done
  split at done
  · exact gcCollect_stays host vm _ vm' done
  · cases done
    exact (Heap.Fills.refl vm.heap).stays

end Owl.Runtime
