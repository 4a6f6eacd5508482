import Owl.ToMathlib.StateExcept
import Mathlib.Logic.Relation

/-! # Machines that do what a computation predicts

A machine repeats one program until it stops. A prediction says which result the machine arrives at, or how
it stops, or nothing at all. Predictions compose as computations do, so that the run of a machine is
described along the structure of the computation that predicts it.
-/

namespace StateExcept

variable {σ ε α β : Type}

/-- A result, a stop, or no statement. -/
abbrev Predicted (ε α : Type) := Except (Option ε) α

/-- Any number of successful rounds. -/
def Repeats (prog : StateT σ (Except ε) Unit) : σ → σ → Prop :=
  Relation.ReflTransGen fun s s' => prog s = .ok ((), s')

/-- The machine comes to a state that fits the predicted result, or to one in which it stops as predicted. -/
def Meets (prog : StateT σ (Except ε) Unit) (s : σ) (predicted : Predicted ε α) (post : α → σ → Prop) : Prop :=
  match predicted with
  | .ok a => ∃ s', Repeats prog s s' ∧ post a s'
  | .error (some stop) => ∃ s', Repeats prog s s' ∧ prog s' = .error stop
  | .error none => True

namespace Meets

variable {prog : StateT σ (Except ε) Unit} {s s' : σ} {x : Predicted ε α} {post : α → σ → Prop}

theorem result {a : α} (holds : post a s) : Meets prog s (.ok a) post := ⟨s, .refl, holds⟩

theorem nothing : Meets prog s (.error none : Predicted ε α) post := trivial

theorem stop {stop : ε} (stopped : prog s = .error stop) : Meets prog s (.error (some stop) : Predicted ε α) post :=
  ⟨s, .refl, stopped⟩

/-- What is met after some rounds is met before them. -/
theorem after (rounds : Repeats prog s s') (meets : Meets prog s' x post) : Meets prog s x post := by
  cases x with
  | ok a =>
    obtain ⟨last, rest, holds⟩ := meets
    exact ⟨last, rounds.trans rest, holds⟩
  | error stop =>
    cases stop with
    | none => trivial
    | some stop =>
      obtain ⟨last, rest, stopped⟩ := meets
      exact ⟨last, rounds.trans rest, stopped⟩

theorem step (round : prog s = .ok ((), s')) (meets : Meets prog s' x post) : Meets prog s x post :=
  meets.after (.single round)

/-- The consequence may depend on the prediction. -/
theorem mono {weaker : α → σ → Prop} (meets : Meets prog s x post)
    (implied : ∀ a s', x = .ok a → post a s' → weaker a s') : Meets prog s x weaker := by
  cases x with
  | ok a =>
    obtain ⟨last, rounds, holds⟩ := meets
    exact ⟨last, rounds, implied a last rfl holds⟩
  | error stop =>
    cases stop with
    | none => trivial
    | some stop => exact meets

/-- Rounds behind the result. -/
theorem further {later : α → σ → Prop} (meets : Meets prog s x post)
    (rest : ∀ a s', post a s' → ∃ s'', Repeats prog s' s'' ∧ later a s'') : Meets prog s x later := by
  cases x with
  | ok a =>
    obtain ⟨middle, rounds, holds⟩ := meets
    obtain ⟨last, others, holds⟩ := rest a middle holds
    exact ⟨last, rounds.trans others, holds⟩
  | error stop => cases stop <;> exact meets

theorem map {f : α → β} {post' : β → σ → Prop} (meets : Meets prog s x fun a s' => post' (f a) s') :
    Meets prog s (x.map f) post' := by
  cases x with
  | ok a => exact meets
  | error stop => cases stop <;> exact meets

/-- One computation after the other. -/
theorem bind {next : α → Predicted ε β} {post' : β → σ → Prop} (meets : Meets prog s x post)
    (rest : ∀ a s', x = .ok a → post a s' → Meets prog s' (next a) post') : Meets prog s (x >>= next) post' := by
  cases x with
  | ok a =>
    obtain ⟨middle, rounds, holds⟩ := meets
    exact (rest a middle rfl holds).after rounds
  | error stop =>
    cases stop with
    | none => trivial
    | some stop => exact meets

/-- One computation after the other, each with a state of its own. -/
theorem stateBind {τ : Type} {x : StateT τ (Predicted ε) α} {next : α → StateT τ (Predicted ε) β} {t : τ}
    {post : α × τ → σ → Prop} {post' : β × τ → σ → Prop} (meets : Meets prog s (x t) post)
    (rest : ∀ a t' s', x t = .ok (a, t') → post (a, t') s' → Meets prog s' (next a t') post') :
    Meets prog s ((x >>= next) t) post' :=
  meets.bind fun result s' => rest result.1 result.2 s'

end Meets

end StateExcept
