import Owl.ToMathlib.StateExcept
import Mathlib.Order.Defs.PartialOrder

/-! # Programs that extend a world

A world says what there is in a state, and programs only add to it. What has been shown about one world holds in
all worlds above it, so the specification of a program is stated in the world where it starts, and its result is
described in the world where it ends.
-/

namespace StateExcept

variable {ω σ ε α β : Type} [Preorder ω]

/-- Every successful run from a world above `world` ends in a world above that one, where its result meets a
condition. -/
def Extends (invariant : ω → σ → Prop) (world : ω) (prog : StateT σ (Except ε) α) (post : ω → α → Prop) : Prop :=
  ∀ here s a s', world ≤ here → invariant here s → prog s = .ok (a, s') →
    ∃ there, here ≤ there ∧ invariant there s' ∧ post there a

namespace Extends

variable {invariant : ω → σ → Prop} {world : ω} {prog : StateT σ (Except ε) α} {next : α → StateT σ (Except ε) β}
  {mid : ω → α → Prop} {post : ω → β → Prop}

theorem pure {a : β} (holds : ∀ here, world ≤ here → post here a) :
    Extends invariant world (Pure.pure a : StateT σ (Except ε) β) post := by
  intro here s _ s' above before run
  obtain ⟨rfl, rfl⟩ := pure_eq_ok.mp run
  exact ⟨here, le_refl here, before, holds here above⟩

theorem throw (stop : ε) : Extends invariant world (MonadExcept.throw stop : StateT σ (Except ε) β) post := by
  intro here s a s' above before run
  cases run

theorem bind (first : Extends invariant world prog mid)
    (second : ∀ here a, world ≤ here → mid here a → Extends invariant here (next a) post) :
    Extends invariant world (prog >>= next) post := by
  intro here s b s' above before run
  obtain ⟨a, middle, one, two⟩ := bind_eq_ok.mp run
  obtain ⟨between, higher, reached, holds⟩ := first here s a middle above before one
  obtain ⟨there, highest, after, result⟩ :=
    second between a (le_trans above higher) holds between middle b s' (le_refl between) reached two
  exact ⟨there, le_trans higher highest, after, result⟩

theorem ite {condition : Prop} [Decidable condition] {yes no : StateT σ (Except ε) β}
    (first : condition → Extends invariant world yes post) (second : ¬ condition → Extends invariant world no post) :
    Extends invariant world (if condition then yes else no) post := by
  split
  · next holds => exact first holds
  · next fails => exact second fails

theorem mono {weaker : ω → α → Prop} (run : Extends invariant world prog mid)
    (implied : ∀ here a, world ≤ here → mid here a → weaker here a) : Extends invariant world prog weaker := by
  intro here s a s' above before done
  obtain ⟨there, higher, after, holds⟩ := run here s a s' above before done
  exact ⟨there, higher, after, implied there a (le_trans above higher) holds⟩

/-- What holds from one world holds from all worlds above it. -/
theorem above {higher : ω} (run : Extends invariant world prog mid) (more : world ≤ higher) :
    Extends invariant higher prog mid :=
  fun here s a s' up => run here s a s' (le_trans more up)

end Extends

end StateExcept
