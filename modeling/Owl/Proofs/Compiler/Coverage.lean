import Owl.Proofs.Compiler.Variables

/-! # Covered sources

What has to hold of an expression for its generated code to compute it: literals that the decoder reads back,
operands that stay in consecutive registers, and conditions that bind no name. In covered expressions every
variable is in a register that its expression keeps.
-/

namespace Owl.Compiler

mutual

/-- What the generated code computes as the source says: literals of one digit in base 250, operands that
keep no register, and conditions that bind no name. -/
def exprCovered : Expr → Bool
  | .int digits => (parseU16 digits).any (· < 250)
  | .let _ right => exprCovered right
  | .apply _ name args => (decide (IsShortCircuit name) || leaks args == 0) && allCovered args
  | .if condition body elseBody =>
      condition.bindings.isEmpty && exprCovered condition && allCovered body && allCovered elseBody
  | .tuple elems => leaks elems == 0 && allCovered elems
  | .list elems => leaks elems == 0 && allCovered elems
  | .anonFn _ body => allCovered body
  | _ => true

def allCovered : List Expr → Bool
  | [] => true
  | expr :: exprs => exprCovered expr && allCovered exprs

end

private theorem allCovered_iff {es : List Expr} : allCovered es ↔ ∀ e ∈ es, exprCovered e := by
  induction es with
  | nil => simp [allCovered]
  | cons e es ih => rw [allCovered, Bool.and_eq_true, ih, List.forall_mem_cons]

theorem argBindings_eq_nil {es : List Expr} (each : ∀ e ∈ es, e.leak = 0 → e.bindings = []) (balanced : leaks es = 0) :
    argBindings es = [] := by
  induction es with
  | nil => rfl
  | cons e es ih =>
    rw [leaks, Nat.add_eq_zero_iff] at balanced
    rw [List.forall_mem_cons] at each
    rw [argBindings, each.1 balanced.1, ih each.2 balanced.2]
    rfl

/-- An expression that keeps no register binds no name. -/
theorem bindings_eq_nil (e : Expr) : e.leak = 0 → e.bindings = [] := by
  induction e with
  | let_ left right ih =>
    rw [Expr.leak]
    omega
  | if_ condition body elseBody =>
    rw [Expr.leak]
    omega
  | apply module name args ih =>
    rw [Expr.leak.eq_def, Expr.bindings.eq_def]
    dsimp only
    split
    · rcases args with _ | ⟨left, _ | ⟨right, rest⟩⟩
      · exact fun _ => rfl
      · exact fun _ => rfl
      · simp only [List.forall_mem_cons] at ih
        intro balanced
        obtain ⟨first, second⟩ := Nat.add_eq_zero_iff.mp balanced
        dsimp only
        rw [ih.1 first, ih.2.1 second]
        rfl
    · exact argBindings_eq_nil ih
  | tuple elems ih => exact argBindings_eq_nil ih
  | list elems ih => exact argBindings_eq_nil ih
  | int | true | false | nil | ident | str | capture | anonFn => exact fun _ => rfl

/-- Every variable is in a register that its expression keeps. -/
def Bindings.Within (bindings : Bindings) (n : ℕ) : Prop := ∀ binding ∈ bindings, binding.2 ≤ n

theorem Bindings.Within.nil (n : ℕ) : Bindings.Within [] n := fun _ member => absurd member List.not_mem_nil

theorem Bindings.Within.append {first second : Bindings} {m n : ℕ} (left : first.Within m) (right : second.Within n) :
    (first ++ second.raise m).Within (m + n) := by
  intro binding member
  rcases List.mem_append.mp member with member | member
  · exact Nat.le_add_right_of_le (left binding member)
  · obtain ⟨below, lower, same⟩ := Bindings.mem_raise.mp (show (binding.1, binding.2) ∈ _ from member)
    have := right _ lower
    dsimp only at this
    omega

theorem exprBindings_within {es : List Expr} (each : ∀ e ∈ es, exprCovered e → e.bindings.Within e.leak)
    (covered : allCovered es) : (exprBindings es).Within (leaks es) := by
  induction es with
  | nil => exact .nil _
  | cons e es ih =>
    rw [allCovered, Bool.and_eq_true] at covered
    rw [List.forall_mem_cons] at each
    exact (each.1 covered.1).append (ih each.2 covered.2)

theorem bindings_within (e : Expr) : exprCovered e → e.bindings.Within e.leak := by
  induction e with
  | let_ left right ih =>
    intro covered
    rw [exprCovered] at covered
    have whole : (Bindings.raise right.bindings 1 ++ [(left, 1)]).Within (1 + right.leak) := by
      intro binding member
      rcases List.mem_append.mp member with member | member
      · obtain ⟨below, lower, same⟩ := Bindings.mem_raise.mp (show (binding.1, binding.2) ∈ _ from member)
        have := ih covered _ lower
        dsimp only at this
        omega
      · rw [List.mem_singleton.mp member]
        exact Nat.le_add_right 1 _
    exact whole
  | if_ condition body elseBody _ thenWithin elseWithin =>
    intro covered
    simp only [exprCovered, Bool.and_eq_true, List.isEmpty_iff] at covered
    obtain ⟨⟨⟨none, _⟩, thenCovered⟩, elseCovered⟩ := covered
    rw [Expr.bindings, Expr.leak, none, show Bindings.raise [] _ = [] from rfl, List.append_nil]
    refine fun binding member => Nat.le_trans ?_ (show leaks body + leaks elseBody ≤ _ by omega)
    exact (exprBindings_within thenWithin thenCovered).append (exprBindings_within elseWithin elseCovered) _ member
  | apply module name args ih =>
    intro covered
    rw [exprCovered, Bool.and_eq_true, Bool.or_eq_true, decide_eq_true_eq, beq_iff_eq, allCovered_iff] at covered
    by_cases named : IsShortCircuit name
    · rw [Expr.leak.eq_def, Expr.bindings.eq_def]
      simp only [named, if_true]
      rcases args with _ | ⟨left, _ | ⟨right, rest⟩⟩
      · exact .nil _
      · exact .nil _
      · simp only [List.forall_mem_cons] at ih covered
        exact (ih.1 covered.2.1).append (ih.2.1 covered.2.2.1)
    · have balanced := covered.1.resolve_left named
      rw [bindings_eq_nil]
      · exact .nil _
      · rw [Expr.leak.eq_def]
        simpa only [named, if_false] using balanced
  | tuple elems =>
    intro covered
    rw [exprCovered, Bool.and_eq_true, beq_iff_eq] at covered
    rw [bindings_eq_nil (.tuple elems) covered.1]
    exact .nil _
  | list elems =>
    intro covered
    rw [exprCovered, Bool.and_eq_true, beq_iff_eq] at covered
    rw [bindings_eq_nil (.list elems) covered.1]
    exact .nil _
  | int | true | false | nil | ident | str | capture | anonFn => exact fun _ => .nil _

end Owl.Compiler
