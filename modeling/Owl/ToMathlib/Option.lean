import Mathlib.Data.List.Forall2
import Mathlib.Tactic.Common

/-! # Results of partial programs

A program over `Option` yields a result of some kind, or ensures that its result, if it has one, is of that kind.
Stated as one predicate, the specification of a `do` block is built from those of its steps.
-/

namespace Option

variable {α β : Type}

theorem mapM_eq_some {f : α → Option β} {xs : List α} {ys : List β} :
    xs.mapM f = some ys ↔ List.Forall₂ (fun x y => f x = some y) xs ys := by
  induction xs generalizing ys with
  | nil => simp [eq_comm]
  | cons x xs ih =>
    cases ys with
    | nil => simp [List.mapM_cons, Option.bind_eq_some_iff]
    | cons y ys => simp [List.mapM_cons, Option.bind_eq_some_iff, ih]

theorem isSome_mapM {f : α → Option β} {xs : List α} : (xs.mapM f).isSome ↔ ∀ x ∈ xs, (f x).isSome := by
  induction xs with
  | nil => simp
  | cons x xs ih =>
    rw [List.forall_mem_cons, ← ih, List.mapM_cons]
    cases f x <;> cases xs.mapM f <;> simp

theorem exists_of_mem_mapM {f : α → Option β} {xs : List α} {ys : List β} {y : β} (done : xs.mapM f = some ys)
    (member : y ∈ ys) : ∃ x ∈ xs, f x = some y := by
  rw [mapM_eq_some] at done
  induction done with
  | nil => cases member
  | cons found _ ih =>
    obtain rfl | behind := List.mem_cons.mp member
    · exact ⟨_, List.mem_cons_self, found⟩
    · obtain ⟨x, inside, found'⟩ := ih behind
      exact ⟨x, List.mem_cons_of_mem _ inside, found'⟩

/-- A program has a result that meets a condition. -/
def Yields (x : Option α) (post : α → Prop) : Prop := ∃ a, x = some a ∧ post a

namespace Yields

variable {x : Option α} {post : α → Prop} {f : α → Option β} {post' : β → Prop}

theorem some {a : α} (holds : post a) : Yields (some a) post := ⟨a, rfl, holds⟩

theorem bind (first : Yields x post) (next : ∀ a, post a → Yields (f a) post') : Yields (x >>= f) post' := by
  obtain ⟨a, rfl, holds⟩ := first
  exact next a holds

theorem map {g : α → β} (first : Yields x fun a => post' (g a)) : Yields (x.map g) post' := by
  obtain ⟨a, rfl, holds⟩ := first
  exact ⟨g a, rfl, holds⟩

theorem mono {weaker : α → Prop} (first : Yields x post) (implied : ∀ a, post a → weaker a) : Yields x weaker := by
  obtain ⟨a, done, holds⟩ := first
  exact ⟨a, done, implied a holds⟩

end Yields

/-- Every result of a program meets a condition. -/
def Ensures (x : Option α) (post : α → Prop) : Prop := ∀ a, x = some a → post a

namespace Ensures

variable {x : Option α} {post : α → Prop} {f : α → Option β} {post' : β → Prop}

theorem none : Ensures (none : Option α) post := by
  intro _ done
  cases done

theorem some {a : α} (holds : post a) : Ensures (some a) post := by
  rintro _ ⟨⟩
  exact holds

theorem of_yields (yields : Yields x post) : Ensures x post := by
  rintro _ done
  obtain ⟨a, rfl, holds⟩ := yields
  cases done
  exact holds

theorem self : Ensures x fun a => x = Option.some a := fun _ done => done

theorem bind (first : Ensures x post) (next : ∀ a, post a → Ensures (f a) post') : Ensures (x >>= f) post' := by
  intro b done
  obtain ⟨a, here, there⟩ := Option.bind_eq_some_iff.mp done
  exact next a (first a here) b there

theorem map {g : α → β} (first : Ensures x fun a => post' (g a)) : Ensures (x.map g) post' := by
  intro b done
  obtain ⟨a, here, rfl⟩ := Option.map_eq_some_iff.mp done
  exact first a here

theorem ite {condition : Prop} [Decidable condition] {y : Option α} (holds : condition → Ensures x post)
    (fails : ¬condition → Ensures y post) : Ensures (if condition then x else y) post := by
  split
  · next condition => exact holds condition
  · next condition => exact fails condition

theorem mono {weaker : α → Prop} (first : Ensures x post) (implied : ∀ a, post a → weaker a) : Ensures x weaker :=
  fun a done => implied a (first a done)

end Ensures

end Option
