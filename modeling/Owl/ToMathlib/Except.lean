import Mathlib.Tactic.Common

/-! # Successful runs of fallible computations

A monadic program over `Except` succeeds exactly when each of its steps does. These lemmas take a
successful `do` block apart without unfolding the monad.
-/

namespace Except

universe u v

variable {ε : Type u} {α β : Type v}

theorem bind_eq_ok {x : Except ε α} {f : α → Except ε β} {b : β} :
    x >>= f = .ok b ↔ ∃ a, x = .ok a ∧ f a = .ok b := by
  cases x with
  | error e => simp [bind, Except.bind]
  | ok a => simp [bind, Except.bind]

theorem ok_bind (a : α) (f : α → Except ε β) : Except.ok a >>= f = f a := rfl

theorem pure_eq_ok {a b : α} : (pure a : Except ε α) = .ok b ↔ a = b := by
  simp [pure, Except.pure]

theorem toOption_eq_some {x : Except ε α} {a : α} : x.toOption = some a ↔ x = .ok a := by
  cases x <;> simp [Except.toOption]

theorem mapM_nil_eq_ok {f : α → Except ε β} {ys : List β} : [].mapM f = .ok ys ↔ ys = [] := by
  rw [List.mapM_nil, pure_eq_ok, eq_comm]

theorem mapM_cons_eq_ok {f : α → Except ε β} {x : α} {xs : List α} {ys : List β} :
    (x :: xs).mapM f = .ok ys ↔ ∃ y rest, f x = .ok y ∧ xs.mapM f = .ok rest ∧ ys = y :: rest := by
  simp only [List.mapM_cons, bind_eq_ok, pure_eq_ok]
  constructor
  · rintro ⟨y, head, rest, tail, rfl⟩
    exact ⟨y, rest, head, tail, rfl⟩
  · rintro ⟨y, rest, head, tail, rfl⟩
    exact ⟨y, head, rest, tail, rfl⟩

theorem ok_of_mapM {f : α → Except ε β} {xs : List α} {ys : List β} (success : xs.mapM f = .ok ys) :
    ∀ x ∈ xs, ∃ y, f x = .ok y := by
  induction xs generalizing ys with
  | nil => exact fun _ member => absurd member List.not_mem_nil
  | cons x xs ih =>
    obtain ⟨y, rest, head, tail, -⟩ := mapM_cons_eq_ok.mp success
    exact List.forall_mem_cons.mpr ⟨⟨y, head⟩, ih tail⟩

/-- A computation succeeds with a result of some kind, unless something fails and it stops with the given error. -/
def SucceedsUnless (fails : Prop) (stop : ε) (x : Except ε α) (post : α → Prop) : Prop :=
  fails ∧ x = .error stop ∨ ∃ a, x = .ok a ∧ post a

namespace SucceedsUnless

variable {fails fails' : Prop} {stop : ε} {x : Except ε α} {post : α → Prop} {f : α → Except ε β} {post' : β → Prop}

theorem ok {a : α} (holds : post a) : SucceedsUnless fails stop (.ok a) post := .inr ⟨a, rfl, holds⟩

theorem bind (first : SucceedsUnless fails stop x post)
    (next : ∀ a, post a → SucceedsUnless fails stop (f a) post') : SucceedsUnless fails stop (x >>= f) post' := by
  rcases first with ⟨failed, rfl⟩ | ⟨a, rfl, holds⟩
  · exact .inl ⟨failed, rfl⟩
  · exact next a holds

theorem map {g : α → β} (success : SucceedsUnless fails stop x fun a => post' (g a)) :
    SucceedsUnless fails stop (x.map g) post' := by
  rcases success with ⟨failed, rfl⟩ | ⟨a, rfl, holds⟩
  · exact .inl ⟨failed, rfl⟩
  · exact .inr ⟨g a, rfl, holds⟩

theorem mono {weaker : α → Prop} (success : SucceedsUnless fails stop x post) (implied : ∀ a, post a → weaker a) :
    SucceedsUnless fails stop x weaker := by
  rcases success with stopped | ⟨a, done, holds⟩
  · exact .inl stopped
  · exact .inr ⟨a, done, implied a holds⟩

/-- The computation may fail in more cases. -/
theorem weaken (success : SucceedsUnless fails stop x post) (implied : fails → fails') :
    SucceedsUnless fails' stop x post :=
  success.imp_left fun stopped => ⟨implied stopped.1, stopped.2⟩

end SucceedsUnless

end Except
