import Owl.ToMathlib.Parsing

/-! # Reading what has been written, and what can be read

A parser reads a text of a value where it takes this text away and gives the value. Values that are written
with a separator between them are read one after the other. A parser yields a kind of values where it can give
no others.
-/

namespace Parser

variable {σ α β : Type}

/-- Texts with a separator between them. -/
def separated (between : List σ) : List (List σ) → List σ
  | [] => []
  | text :: texts => text ++ (texts.map (between ++ ·)).flatten

/-- The texts of some values are read in front of inputs of a kind, and a separator with the next value makes
such an input. -/
structure ReadsEach (parser : Parser σ α) (separator : Parser σ PUnit) (text : α → List σ) (between : List σ)
    (ends : List σ → Prop) (values : List α) : Prop where
  longer : between ≠ []
  reads : ∀ a ∈ values, ∀ rest, ends rest → parser (text a ++ rest) = some (a, rest)
  skips : ∀ a rest, parser (text a ++ rest) = some (a, rest) →
    separator (between ++ (text a ++ rest)) = some (⟨⟩, text a ++ rest)
  next : ∀ a rest, parser (text a ++ rest) = some (a, rest) → ends (between ++ (text a ++ rest))

section Separated

variable {parser : Parser σ α} {separator : Parser σ PUnit} {text : α → List σ} {between rest : List σ}
  {ends : List σ → Prop} {values : List α}

private theorem length_le_flatten (text : α → List σ) (longer : between ≠ []) (values : List α) :
    values.length ≤ ((values.map text).map (between ++ ·)).flatten.length := by
  induction values with
  | nil => exact Nat.zero_le _
  | cons a values ih =>
    have := List.length_pos_iff.mpr longer
    rw [List.map_cons, List.map_cons, List.flatten_cons, List.length_append, List.length_append, List.length_cons]
    omega

namespace ReadsEach

theorem tail {a : α} (each : ReadsEach parser separator text between ends (a :: values)) :
    ReadsEach parser separator text between ends values :=
  { each with reads := fun b member => each.reads b (List.mem_cons_of_mem a member) }

theorem ends_more (each : ReadsEach parser separator text between ends values) (last : ends rest) :
    ends (((values.map text).map (between ++ ·)).flatten ++ rest) := by
  induction values with
  | nil => exact last
  | cons a values ih =>
    have read := each.reads a List.mem_cons_self _ (ih each.tail)
    simpa using each.next a _ read

theorem sepByMore (each : ReadsEach parser separator text between ends values) (last : ends rest)
    (stops : ∀ middle, separator rest = some (⟨⟩, middle) → parser middle = none) {count : ℕ}
    (enough : values.length ≤ count) :
    Parser.sepByMore parser separator count (((values.map text).map (between ++ ·)).flatten ++ rest) =
      some (values, rest) := by
  induction values generalizing count with
  | nil =>
    cases count with
    | zero => rfl
    | succ count =>
      apply option_none
      cases skipped : separator rest with
      | none => exact bind_none skipped
      | some done => exact (bind_some skipped).trans (bind_none (stops done.2 skipped))
  | cons a values ih =>
    obtain ⟨count, rfl⟩ := Nat.exists_eq_succ_of_ne_zero (Nat.ne_zero_of_lt enough)
    have read := each.reads a List.mem_cons_self _ (each.tail.ends_more last)
    have more := ih each.tail (Nat.le_of_succ_le_succ enough)
    rw [List.map_cons, List.map_cons, List.flatten_cons, List.append_assoc, List.append_assoc]
    apply or_some
    rw [bind_some (each.skips a _ read), bind_some read, bind_some more]
    rfl

/-- Values with separators between them are read in front of what is neither a value nor a separator and a value. -/
theorem sepBy (each : ReadsEach parser separator text between ends values) (last : ends rest)
    (none : parser rest = none) (stops : ∀ middle, separator rest = some (⟨⟩, middle) → parser middle = Option.none) :
    Parser.sepBy parser separator (separated between (values.map text) ++ rest) = some (values, rest) := by
  cases values with
  | nil => exact option_none (bind_none none)
  | cons a values =>
    have long := length_le_flatten text each.longer values
    have read := each.reads a List.mem_cons_self _ (each.tail.ends_more last)
    have more := @sepByMore _ _ _ _ _ _ _ _ _ each.tail last stops
      (separated between ((a :: values).map text) ++ rest).length
      (by rw [List.map_cons, separated, List.length_append, List.length_append]; omega)
    rw [Parser.sepBy]
    apply or_some
    rw [List.map_cons, separated, List.append_assoc] at *
    rw [bind_some read, bind_some more]
    rfl

end ReadsEach

end Separated

/-- A parser that gives values of a kind only. -/
def Yields (kind : α → Prop) (parser : Parser σ α) : Prop :=
  ∀ input a rest, parser input = some (a, rest) → kind a

section Yields

variable {kind : α → Prop} {kind' : β → Prop} {parser first second : Parser σ α} {next : α → Parser σ β}
  {separator : Parser σ PUnit}

theorem Yields.pure {a : α} (holds : kind a) : Yields kind (pure a : Parser σ α) := by
  intro input b rest run
  cases run
  exact holds

theorem Yields.bind (yields : Yields kind parser) (yieldsNext : ∀ a, kind a → Yields kind' (next a)) :
    Yields kind' (parser >>= next) := by
  intro input b rest run
  obtain ⟨a, middle, done, run⟩ := bind_eq_some run
  exact yieldsNext a (yields input a middle done) middle b rest run

/-- A parser whose value does not matter. -/
theorem Yields.after (yieldsNext : ∀ a, Yields kind' (next a)) : Yields kind' (parser >>= next) := by
  intro input b rest run
  obtain ⟨a, middle, -, run⟩ := bind_eq_some run
  exact yieldsNext a middle b rest run

theorem or_left {input : List σ} (failed : second input = none) : or first second input = first input := by
  rw [Parser.or, failed, Option.or_none]

theorem option_some {default a : α} {input rest : List σ} (done : parser input = some (a, rest)) :
    option parser default input = some (a, rest) := or_some done

theorem or_nested (first second third : Parser σ α) (input : List σ) :
    (first.or second).or third input = first.or (second.or third) input := by
  simp only [Parser.or, Option.or_assoc]

theorem or_eq_some {input rest : List σ} {a : α} (run : or first second input = some (a, rest)) :
    first input = some (a, rest) ∨ first input = none ∧ second input = some (a, rest) := by
  cases ran : first input with
  | none => exact .inr ⟨rfl, (or_none ran).symm.trans run⟩
  | some done => exact .inl (ran.symm.trans (ran.trans ((or_some ran).symm.trans run)))

theorem Yields.or (yieldsFirst : Yields kind first) (yieldsSecond : Yields kind second) :
    Yields kind (first.or second) := by
  intro input a rest run
  obtain run | ⟨-, run⟩ := or_eq_some run
  · exact yieldsFirst input a rest run
  · exact yieldsSecond input a rest run

theorem Yields.option {a : α} (yields : Yields kind parser) (holds : kind a) : Yields kind (parser.option a) :=
  yields.or (.pure holds)

theorem Yields.sepByMore (yields : Yields kind parser) (count : ℕ) :
    Yields (fun values => ∀ a ∈ values, kind a) (sepByMore parser separator count) := by
  induction count with
  | zero => exact .pure (List.forall_mem_nil _)
  | succ count ih =>
    refine .option (.after fun _ => .bind yields fun a holds => .bind ih fun values all => .pure ?_) (List.forall_mem_nil _)
    exact List.forall_mem_cons.mpr ⟨holds, all⟩

theorem Yields.sepBy (yields : Yields kind parser) :
    Yields (fun values => ∀ a ∈ values, kind a) (parser.sepBy separator) := by
  intro input
  refine Yields.option (.bind yields fun a holds => .bind (.sepByMore yields input.length) fun values all => .pure ?_)
    (List.forall_mem_nil _) input
  exact List.forall_mem_cons.mpr ⟨holds, all⟩

end Yields

end Parser
