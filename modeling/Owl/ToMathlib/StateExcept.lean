import Mathlib.Order.Defs.Unbundled

/-! # Programs over a state that may stop

A program over `StateT σ (Except ε)` is a function from a state to a stop or to a result with a new
state. The first section takes successful runs apart; the second is a calculus of two-state relations:
a reflexive and transitive relation that every part of a program respects is respected by the whole.
-/

namespace StateExcept

variable {σ ε α β : Type}

section Runs

variable {s s' : σ} {a : α} {b : β}

theorem pure_eq_ok {a' : α} :
    (pure a : StateT σ (Except ε) α) s = .ok (a', s') ↔ a = a' ∧ s = s' := by
  rw [show (pure a : StateT σ (Except ε) α) s = .ok (a, s) from rfl, Except.ok.injEq, Prod.mk.injEq]

theorem bind_eq_ok {prog : StateT σ (Except ε) α} {next : α → StateT σ (Except ε) β} :
    (prog >>= next) s = .ok (b, s') ↔
      ∃ a middle, prog s = .ok (a, middle) ∧ next a middle = .ok (b, s') := by
  change (prog s >>= fun x => next x.1 x.2) = _ ↔ _
  cases prog s with
  | error stop => simp [bind, Except.bind]
  | ok result =>
    obtain ⟨a, middle⟩ := result
    refine ⟨fun done => ⟨a, middle, rfl, done⟩, ?_⟩
    rintro ⟨_, _, same, done⟩
    cases same
    exact done

theorem bind_of_ok {prog : StateT σ (Except ε) α} {next : α → StateT σ (Except ε) β}
    (done : prog s = .ok (a, s')) : (prog >>= next) s = next a s' := by
  change (prog s >>= fun x => next x.1 x.2) = _
  rw [done]
  rfl

theorem bind_of_error {prog : StateT σ (Except ε) α} {next : α → StateT σ (Except ε) β} {stop : ε}
    (stopped : prog s = .error stop) : (prog >>= next) s = .error stop := by
  change (prog s >>= fun x => next x.1 x.2) = _
  rw [stopped]
  rfl

/-- A computation that does not look at the state. -/
theorem lift_bind {run : Except ε α} {next : α → StateT σ (Except ε) β} :
    ((liftM run : StateT σ (Except ε) α) >>= next) s = run >>= fun a => next a s := by
  cases run <;> rfl

/-- What follows a part that may stop succeeds with whatever the part gives. -/
theorem bind_of_map {γ : Type} {prog : StateT σ (Except ε) α} {next : α → StateT σ (Except ε) β} {x : Except ε γ}
    {result : γ → α} {state state' : γ → σ} {last : γ → β} (run : prog s = x.map fun c => (result c, state c))
    (rest : ∀ c, next (result c) (state c) = .ok (last c, state' c)) :
    (prog >>= next) s = x.map fun c => (last c, state' c) := by
  change (prog s >>= fun r => next r.1 r.2) = _
  rw [run]
  cases x with
  | error stop => rfl
  | ok c => exact rest c

theorem get_bind {next : σ → StateT σ (Except ε) β} :
    ((get : StateT σ (Except ε) σ) >>= next) s = next s s := rfl

theorem modify_bind {f : σ → σ} {next : PUnit → StateT σ (Except ε) β} :
    ((modify f : StateT σ (Except ε) PUnit) >>= next) s = next ⟨⟩ (f s) := rfl

theorem set_bind {next : PUnit → StateT σ (Except ε) β} :
    ((set s' : StateT σ (Except ε) PUnit) >>= next) s = next ⟨⟩ s' := rfl

theorem lift_eq_ok {run : Except ε α} :
    (liftM run : StateT σ (Except ε) α) s = .ok (a, s') ↔ run = .ok a ∧ s = s' := by
  change (run >>= fun x => pure (x, s)) = _ ↔ _
  cases run <;> simp [bind, Except.bind, pure, Except.pure]

end Runs

/-- Every successful run relates its first state to its last. -/
def Preserves (relation : σ → σ → Prop) (prog : StateT σ (Except ε) α) : Prop :=
  ∀ s a s', prog s = .ok (a, s') → relation s s'

namespace Preserves

variable {relation : σ → σ → Prop}

theorem mono {weaker : σ → σ → Prop} {prog : StateT σ (Except ε) α}
    (run : Preserves relation prog) (implied : ∀ s s', relation s s' → weaker s s') :
    Preserves weaker prog :=
  fun s a s' done => implied s s' (run s a s' done)

theorem pure [Std.Refl relation] (a : α) :
    Preserves relation (Pure.pure a : StateT σ (Except ε) α) := by
  intro s _ s' run
  obtain ⟨-, rfl⟩ := pure_eq_ok.mp run
  exact Std.Refl.refl s

theorem bind [IsTrans σ relation] {prog : StateT σ (Except ε) α}
    {next : α → StateT σ (Except ε) β} (first : Preserves relation prog)
    (second : ∀ a, Preserves relation (next a)) : Preserves relation (prog >>= next) := by
  intro s b s' run
  obtain ⟨a, middle, one, two⟩ := bind_eq_ok.mp run
  exact IsTrans.trans _ _ _ (first s a middle one) (second a middle b s' two)

/-- Reading the state first: what follows may depend on it. -/
theorem get_bind {next : σ → StateT σ (Except ε) β}
    (rest : ∀ s b s', next s s = .ok (b, s') → relation s s') :
    Preserves relation ((get : StateT σ (Except ε) σ) >>= next) :=
  fun s b s' run => rest s b s' run

theorem modify {f : σ → σ} (step : ∀ s, relation s (f s)) :
    Preserves relation (MonadStateOf.modifyGet (fun s => (⟨⟩, f s)) : StateT σ (Except ε) PUnit) := by
  intro s _ s' run
  cases run
  exact step s

theorem throw (stop : ε) :
    Preserves relation (MonadExcept.throw stop : StateT σ (Except ε) α) := by
  intro s a s' run
  cases run

theorem lift [Std.Refl relation] (run : Except ε α) :
    Preserves relation (liftM run : StateT σ (Except ε) α) := by
  intro s a s' done
  obtain ⟨-, rfl⟩ := lift_eq_ok.mp done
  exact Std.Refl.refl s

theorem ite {condition : Prop} [Decidable condition] {yes no : StateT σ (Except ε) α}
    (first : Preserves relation yes) (second : Preserves relation no) :
    Preserves relation (if condition then yes else no) := by
  split
  · exact first
  · exact second

theorem discard [Std.Refl relation] [IsTrans σ relation] {prog : StateT σ (Except ε) α}
    (run : Preserves relation prog) : Preserves relation (Functor.discard prog) :=
  bind run fun _ => pure _

end Preserves

end StateExcept
