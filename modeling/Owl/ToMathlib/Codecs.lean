import Owl.ToMathlib.Parsing

/-! # Parsers of formats

A parser decodes a format where it gives the values of a kind, each exactly in front of its code. Decoders are put
together in the way the codes are, so that a code is read in one way only.
-/

namespace Parser

variable {σ α β γ : Type}

/-- A value is given exactly where it is of the kind and its code starts the input. -/
def Decodes (parser : Parser σ α) (kind : α → Prop) (code : α → List σ) : Prop :=
  ∀ input a rest, parser input = some (a, rest) ↔ kind a ∧ input = code a ++ rest

/-- A number of symbols. -/
def count (n : ℕ) : Parser σ (List σ) := fun input =>
  if n ≤ input.length then some (input.take n, input.drop n) else none

/-- One value behind the other. -/
def andThen (first : Parser σ α) (second : Parser σ β) : Parser σ (α × β) := do
  let a ← first
  let b ← second
  return (a, b)

/-- Values up to the end of the input. A value takes a symbol, so the length of the input bounds their number. -/
def whole (parser : Parser σ α) : ℕ → List σ → Option (List α)
  | _, [] => some []
  | 0, _ => none
  | n + 1, input => do
      let (a, rest) ← parser input
      let values ← whole parser n rest
      return a :: values

namespace Decodes

variable {parser : Parser σ α} {second : Parser σ β} {next : α → Parser σ β} {kind : α → Prop} {kind' : β → Prop}
  {code : α → List σ} {code' : β → List σ}

theorem pure (a : α) : Decodes (Pure.pure a : Parser σ α) (· = a) fun _ => [] := by
  intro input b rest
  rw [pure_run, Option.some.injEq, Prod.mk.injEq, List.nil_append, eq_comm]

theorem failure (code : α → List σ) : Decodes (failure : Parser σ α) (fun _ => False) code := by
  intro input a rest
  refine ⟨fun run => ?_, fun impossible => impossible.1.elim⟩
  cases run

theorem satisfy (p : σ → Bool) : Decodes (satisfy p) (p · = true) fun c => [c] := by
  intro input c rest
  cases input with
  | nil =>
    refine ⟨fun run => ?_, fun impossible => ?_⟩
    · cases run
    · cases impossible.2
  | cons d input =>
    rw [Parser.satisfy, List.singleton_append, List.cons.injEq]
    split
    · next holds =>
      rw [Option.some.injEq, Prod.mk.injEq]
      exact ⟨fun same => ⟨same.1 ▸ holds, same⟩, And.right⟩
    · next fails =>
      refine ⟨fun run => ?_, fun found => absurd found.1 (found.2.1 ▸ fails)⟩
      cases run

theorem count (n : ℕ) : Decodes (count n : Parser σ (List σ)) (·.length = n) id := by
  intro input taken rest
  rw [Parser.count]
  split
  · next enough =>
    rw [Option.some.injEq, Prod.mk.injEq]
    constructor
    · rintro ⟨rfl, rfl⟩
      exact ⟨List.length_take_of_le enough, (List.take_append_drop n input).symm⟩
    · rintro ⟨rfl, rfl⟩
      exact ⟨List.take_left, List.drop_left⟩
  · next short =>
    refine ⟨fun run => ?_, ?_⟩
    · cases run
    · rintro ⟨rfl, rfl⟩
      exact absurd (List.length_append ▸ Nat.le_add_right ..) short

/-- The first value tells what follows it. -/
theorem bind {kinds : α → β → Prop} {codes : α → β → List σ} (first : Decodes parser kind code)
    (rest : ∀ a, kind a → Decodes (next a) (kinds a) (codes a)) (exactly : ∀ b, kind' b ↔ ∃ a, kind a ∧ kinds a b)
    (split : ∀ a b, kind a → kinds a b → code' b = code a ++ codes a b) : Decodes (parser >>= next) kind' code' := by
  intro input b tail
  constructor
  · intro run
    obtain ⟨a, middle, done, last⟩ := bind_eq_some run
    obtain ⟨holds, rfl⟩ := (first _ _ _).mp done
    obtain ⟨further, rfl⟩ := (rest a holds _ _ _).mp last
    exact ⟨(exactly b).mpr ⟨a, holds, further⟩, by rw [split a b holds further, List.append_assoc]⟩
  · rintro ⟨ofKind, rfl⟩
    obtain ⟨a, holds, further⟩ := (exactly b).mp ofKind
    rw [split a b holds further, List.append_assoc, bind_some ((first _ _ _).mpr ⟨holds, rfl⟩)]
    exact (rest a holds _ _ _).mpr ⟨further, rfl⟩

theorem map {make : α → β} (decodes : Decodes parser kind code) (exactly : ∀ b, kind' b ↔ ∃ a, kind a ∧ b = make a)
    (same : ∀ a, kind a → code' (make a) = code a) :
    Decodes (parser >>= fun a => Pure.pure (make a)) kind' code' :=
  decodes.bind (fun a _ => .pure (make a)) exactly fun a b holds made => by rw [made, same a holds, List.append_nil]

theorem andThen (first : Decodes parser kind code) (rest : Decodes second kind' code') :
    Decodes (parser.andThen second) (fun pair => kind pair.1 ∧ kind' pair.2) fun pair => code pair.1 ++ code' pair.2 := by
  have behind (a : α) : Decodes (second >>= fun b => Pure.pure (a, b)) (fun pair => kind' pair.2 ∧ pair.1 = a)
      fun pair => code' pair.2 := by
    refine rest.map (fun pair => ⟨fun found => ⟨pair.2, found.1, Prod.ext found.2 rfl⟩, ?_⟩) fun b _ => rfl
    rintro ⟨b, holds, rfl⟩
    exact ⟨holds, rfl⟩
  refine first.bind (fun a _ => behind a) (fun pair => ⟨fun found => ⟨pair.1, found.1, found.2, rfl⟩, ?_⟩)
    fun a pair _ same => ?_
  · rintro ⟨a, holds, further, rfl⟩
    exact ⟨holds, further⟩
  · rw [same.2]

theorem congr {kind' : α → Prop} {code' : α → List σ} (decodes : Decodes parser kind code)
    (kinds : ∀ a, kind' a ↔ kind a) (codes : ∀ a, kind a → code' a = code a) : Decodes parser kind' code' := by
  intro input a rest
  rw [decodes, kinds]
  exact and_congr_right fun holds => by rw [codes a holds]

private theorem whole_nil (longer : ∀ a, kind a → code a ≠ []) (n : ℕ) (values : List α) :
    whole parser n [] = some values ↔ (∀ a ∈ values, kind a) ∧ [] = values.flatMap code := by
  have nothing : Parser.whole parser n [] = some [] := by cases n <;> rfl
  rw [nothing, Option.some.injEq]
  constructor
  · rintro rfl
    exact ⟨List.forall_mem_nil _, rfl⟩
  · rintro ⟨all, empty⟩
    cases values with
    | nil => rfl
    | cons a values => exact absurd (List.append_eq_nil_iff.mp empty.symm).1 (longer a (all a List.mem_cons_self))

/-- The input is the codes of the values, one behind the other. -/
theorem whole (decodes : Decodes parser kind code) (longer : ∀ a, kind a → code a ≠ []) {n : ℕ} {input : List σ}
    (enough : input.length ≤ n) (values : List α) :
    whole parser n input = some values ↔ (∀ a ∈ values, kind a) ∧ input = values.flatMap code := by
  induction n generalizing input values with
  | zero =>
    obtain rfl := List.eq_nil_of_length_eq_zero (Nat.le_zero.mp enough)
    exact whole_nil longer 0 values
  | succ n ih =>
    cases input with
    | nil => exact whole_nil longer (n + 1) values
    | cons c input =>
      have shorter {a : α} {rest : List σ} (holds : kind a) (front : c :: input = code a ++ rest) : rest.length ≤ n := by
        have := List.length_pos_iff.mpr (longer a holds)
        have := congrArg List.length front
        rw [List.length_append, List.length_cons] at this
        rw [List.length_cons] at enough
        omega
      constructor
      · intro run
        obtain ⟨⟨a, rest⟩, done, run⟩ := Option.bind_eq_some_iff.mp run
        obtain ⟨later, more, same⟩ := Option.bind_eq_some_iff.mp run
        obtain ⟨holds, front⟩ := (decodes _ _ _).mp done
        obtain ⟨all, rfl⟩ := (ih (shorter holds front) later).mp more
        cases same
        exact ⟨List.forall_mem_cons.mpr ⟨holds, all⟩, front⟩
      · rintro ⟨all, front⟩
        cases values with
        | nil => cases front
        | cons a values =>
          rw [List.forall_mem_cons] at all
          rw [List.flatMap_cons] at front
          refine Option.bind_eq_some_iff.mpr ⟨(a, values.flatMap code), (decodes _ _ _).mpr ⟨all.1, front⟩, ?_⟩
          exact Option.bind_eq_some_iff.mpr ⟨values, (ih (shorter all.1 front) values).mpr ⟨all.2, rfl⟩, rfl⟩

end Decodes

end Parser
