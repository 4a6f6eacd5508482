import Owl.Model.Runtime.ReferenceHost
import Owl.Proofs.Runtime.Library

/-! # The reference system keeps away from the arena

Its allocator, its texts and its empty list are away from an arena at address 4096, so its library is sound there.
-/

namespace Owl.Runtime

theorem referenceHost_surrounds : referenceHost.Surrounds 4096 := by
  constructor
  case low => decide
  case records =>
    rintro address ⟨tables, rfl⟩
    simp only [referenceHost, referenceSystem, System.host, Tables.malloc, Distant]
    omega
  case texts =>
    rintro address (⟨text, known, rfl⟩ | ⟨tables, pool, id, small, rfl⟩)
    · have few : literals.findIdx (· = text) ≤ literals.length := List.findIdx_le_length
      have length : literals.length = 5 := rfl
      simp only [referenceHost, referenceSystem, System.host, Distant]
      omega
    · cases pool <;>
      · simp only [referenceHost, referenceSystem, System.host, Tables.address, Distant]
        omega
  case emptyRrb => decide

theorem referenceHost_library : referenceHost.Library 4096 := System.library referenceHost_surrounds

end Owl.Runtime
