import Owl.Proofs.Compiler.Compounds

/-! # What the grammar accepts

Each rule gives only what can be written, where the parser of expressions does.
-/

namespace Owl.Grammar

open Owl.Compiler Parser

variable [Ascii]

theorem identifier_yields : Yields (IsWord isLowercase) identifier := fun _ _ _ run => (identOf_some run).1

private theorem capitalizedIdent_yields : Yields (IsWord isUppercase) capitalizedIdent :=
  fun _ _ _ run => (identOf_some run).1

private theorem modulePrefix_yields : Yields (fun module => ∀ m ∈ module, IsWord isUppercase m)
    (Chomp.option modulePrefix none) := by
  refine .option (.bind capitalizedIdent_yields fun name isName => .after fun _ => .pure ?_) ?_
  · rintro m ⟨rfl⟩
    exact isName
  · rintro m ⟨⟩

private theorem digits_yields :
    Yields (fun digits => digits ≠ [] ∧ ∀ c ∈ digits, isDigit c) (Chomp.takeWhile1 isDigit) := by
  intro input digits rest run
  rw [Chomp.takeWhile1_eq, takeWhile1] at run
  split at run
  · cases run
  next some' =>
    cases run
    exact ⟨fun none => some' (by rw [none]; rfl), List.all_eq_true.mp List.all_takeWhile⟩

private theorem int_yields : Yields Writable int := .bind digits_yields fun _ digits => .pure (.int digits.1 digits.2)

private theorem nil_yields : Yields Writable nil := .after fun _ => .pure .nil

private theorem bool_yields : Yields Writable bool := .or (.after fun _ => .pure .true) (.after fun _ => .pure .false)

omit [Ascii] in
private theorem escaped_apart (c : UInt8) (unquoted : c ≠ 34) :
    (∀ d ∈ [c], d ≠ 34) ∧ ¬ bytes "\\n" <+: [c] ∧ ¬ bytes "\\t" <+: [c] :=
  have long {word : Bytes} (two : word.length = 2) : ¬ word <+: [c] := fun found =>
    absurd (two.symm.le.trans found.length_le) (Nat.lt_irrefl 1)
  ⟨List.forall_mem_singleton.mpr unquoted, long rfl, long rfl⟩

private theorem takeStringBody_yields : Yields (fun content => (∀ c ∈ content, c ≠ 34) ∧ ¬ bytes "\\n" <+: content ∧
    ¬ bytes "\\t" <+: content) takeStringBody := by
  intro input content rest run
  obtain run | ⟨noNewline, run⟩ := or_eq_some run
  · obtain ⟨_, _, -, done⟩ := bind_eq_some run
    cases done
    exact escaped_apart 10 (by decide)
  obtain run | ⟨noTab, run⟩ := or_eq_some run
  · obtain ⟨_, _, -, done⟩ := bind_eq_some run
    cases done
    exact escaped_apart 9 (by decide)
  · have unread {word text : Bytes} (failed : (Chomp.string word >>= fun _ => pure text : Parser UInt8 Bytes)
      input = none) :
        ¬ word <+: input := by
      rintro ⟨tail, rfl⟩
      rw [bind_some (string_append word tail)] at failed
      cases failed
    cases run
    refine ⟨fun c member => of_decide_eq_true (List.all_eq_true.mp List.all_takeWhile c member), ?_, ?_⟩
    · exact fun found => unread noNewline (found.trans (List.takeWhile_prefix _))
    · exact fun found => unread noTab (found.trans (List.takeWhile_prefix _))

private theorem str_yields : Yields Writable str :=
  .after fun _ => .bind takeStringBody_yields fun _ body => .after fun _ => .pure (.str body.1 body.2.1 body.2.2)

/-- Behind the values that have been tried, a name starts with none of them. -/
theorem startsNoValue_of_none {name rest : Bytes} (failed : Chomp.or nil bool (name ++ rest) = none) :
    StartsNoValue name := by
  intro word member found
  obtain ⟨tail, rfl⟩ := found
  rw [List.append_assoc] at failed
  simp only [valueWords, List.mem_cons, List.not_mem_nil, or_false] at member
  rcases member with rfl | rfl | rfl
  · have reads : Chomp.or nil bool (bytes "nil" ++ (tail ++ rest)) = _ := or_some (bind_some (string_append _ _))
    rw [reads] at failed
    cases failed
  · have reads : Chomp.or nil bool (bytes "true" ++ (tail ++ rest)) = _ :=
      (or_none (nil_starts.cons (by decide) _)).trans <| or_some (bind_some (string_append _ _))
    rw [reads] at failed
    cases failed
  · have reads : Chomp.or nil bool (bytes "false" ++ (tail ++ rest)) = _ :=
      (or_none (nil_starts.cons (by decide) _)).trans <|
        (or_none ((Starts.string 116 _).bind.cons (by decide) _)).trans <| bind_some (string_append _ _)
    rw [reads] at failed
    cases failed

/-- The last alternatives: a value, a variable or a number. -/
private theorem lastAlternatives_yields : Yields Writable (Chomp.or nil <| Chomp.or bool <| Chomp.or ident int) := by
  intro input e rest run
  rw [← or_nested] at run
  obtain run | ⟨failed, run⟩ := or_eq_some run
  · exact nil_yields.or bool_yields input e rest run
  obtain run | ⟨-, run⟩ := or_eq_some run
  · obtain ⟨name, after, named, done⟩ := bind_eq_some run
    cases done
    obtain ⟨isName, rfl, -⟩ := identOf_some named
    exact .ident isName (startsNoValue_of_none failed)
  · exact int_yields input e rest run

private theorem digit_yields : Yields (fun c => isDigit c) (Chomp.satisfy isDigit) := by
  intro input c rest run
  cases input with
  | nil => cases run
  | cons d input =>
    rw [Chomp.satisfy_eq, satisfy] at run
    split at run
    next digit =>
      cases run
      exact digit
    next => cases run

private theorem arity_yields : Yields (· ≤ 9) arity := by
  refine .bind digit_yields fun c digit => .pure ?_
  simp only [isDigit, Bool.and_eq_true, decide_eq_true_eq] at digit
  have large := UInt8.le_iff_toNat_le.mp digit.1
  have small := UInt8.le_iff_toNat_le.mp digit.2
  rw [UInt8.le_iff_toNat_le, UInt8.toNat_sub_of_le _ _ digit.1]
  simp only [UInt8.reduceToNat] at large small ⊢
  omega

private theorem capture_yields : Yields Writable capture :=
  .bind modulePrefix_yields fun _ isModule => .bind identifier_yields fun _ isName => .after fun _ =>
    .bind arity_yields fun _ digit => .pure (.capture isModule isName digit)

section Forms

variable {expr : Parser UInt8 Expr} (yields : Yields Writable expr)

include yields

theorem block_yields : Yields (fun es => ∀ e ∈ es, Writable e) (block expr) :=
  .after fun _ => .after fun _ => .bind yields.sepBy fun _ each => .after fun _ => .after fun _ => .pure each

private theorem ifExpr_yields : Yields Writable (ifExpr expr) :=
  .after fun _ => .after fun _ => .bind yields fun _ condition => .after fun _ => .bind (block_yields yields) fun _ body =>
    .after fun _ => .bind (.option (.after fun _ => .after fun _ => block_yields yields) (List.forall_mem_nil _))
      fun _ elseBody => .pure (.if condition body elseBody)

private theorem letExpr_yields : Yields Writable (letExpr expr) :=
  .after fun _ => .after fun _ => .bind identifier_yields fun _ isName => .after fun _ => .after fun _ => .after fun _ =>
    .bind yields fun _ right => .pure (.let isName right)

private theorem anonFn_yields : Yields Writable (anonFn expr) :=
  .after fun _ => .bind identifier_yields.sepBy fun _ names => .after fun _ => .after fun _ => .after fun _ =>
    .after fun _ => .after fun _ => .bind (block_yields yields) fun _ body => .pure (.anonFn names body)

private theorem apply_yields : Yields Writable (apply expr) :=
  .bind modulePrefix_yields fun _ isModule => .bind identifier_yields fun _ isName => .after fun _ => .after fun _ =>
    .bind yields.sepBy fun _ args => .after fun _ => .after fun _ => .pure (.call isModule isName args)

private theorem unary_yields : Yields Writable (unary expr) :=
  .after fun _ => .bind yields fun _ arg => .pure (.unary arg)

private theorem tuple_yields : Yields Writable (tuple expr) :=
  .after fun _ => .bind yields.sepBy fun _ elems => .after fun _ => .pure (.tuple elems)

private theorem list_yields : Yields (fun e => Writable e ∧ IsOperand e) (list expr) :=
  .after fun _ => .bind yields.sepBy fun _ elems => .after fun _ => .pure ⟨.list elems, trivial⟩

/-- What stands on the left of an operator may stand there. -/
private theorem operand_yields : Yields (fun e => Writable e ∧ IsOperand e) (operand expr) := by
  have simple {parser : Parser UInt8 Expr} (writes : Yields Writable parser) (operands : Yields IsOperand parser) :
      Yields (fun e => Writable e ∧ IsOperand e) parser :=
    fun input e rest run => ⟨writes input e rest run, operands input e rest run⟩
  refine .or (simple str_yields (.after fun _ => .after fun _ => .after fun _ => .pure trivial)) <|
    .or (list_yields yields) <| .or (simple int_yields (.after fun _ => .pure trivial)) ?_
  intro input e rest run
  rw [← or_nested] at run
  obtain run | ⟨failed, run⟩ := or_eq_some run
  · exact simple (nil_yields.or bool_yields)
      (.or (.after fun _ => .pure trivial) (.or (.after fun _ => .pure trivial) (.after fun _ => .pure trivial)))
      input e rest run
  obtain run | ⟨-, run⟩ := or_eq_some run
  · have writable := apply_yields yields input e rest run
    obtain ⟨module, middle, prefixed, run⟩ := bind_eq_some run
    obtain ⟨name, after, named, called⟩ := bind_eq_some run
    obtain ⟨isName, rfl, -⟩ := identOf_some named
    have call : Yields (fun e => ∃ args, e = Expr.apply module name args) (do
        Chomp.token 40
        skipWhitespace
        let args ← Chomp.sepBy expr comma
        skipWhitespace
        Chomp.token 41
        return Expr.apply module name args) :=
      .after fun _ => .after fun _ => .after fun args => .after fun _ => .after fun _ => .pure ⟨args, rfl⟩
    obtain ⟨args, rfl⟩ := call _ _ _ called
    refine ⟨writable, isName, ?_⟩
    rintro rfl
    obtain prefixed | ⟨-, prefixed⟩ := or_eq_some prefixed
    · obtain ⟨_, _, -, prefixed⟩ := bind_eq_some prefixed
      obtain ⟨_, _, -, done⟩ := bind_eq_some prefixed
      cases done
    · cases prefixed
      exact startsNoValue_of_none failed
  · obtain ⟨name, after, named, done⟩ := bind_eq_some run
    cases done
    obtain ⟨isName, rfl, -⟩ := identOf_some named
    exact ⟨.ident isName (startsNoValue_of_none failed), trivial⟩

private theorem infixExpr_yields : Yields Writable (infixExpr expr) :=
  .bind (operand_yields yields) fun _ left => .after fun _ =>
    .bind (fun _ _ _ run => (oneOf_some run).1) fun _ member => .after fun _ => .bind yields fun _ right =>
      .pure (.operation member left.2 left.1 right)

private theorem alternatives_yields : Yields Writable (alternatives expr) :=
  .or (ifExpr_yields yields) <| .or (letExpr_yields yields) <| .or (infixExpr_yields yields) <|
    .or (anonFn_yields yields) <| .or str_yields <| .or (apply_yields yields) <| .or capture_yields <|
    .or (unary_yields yields) <| .or (tuple_yields yields) <|
    .or (fun input e rest run => (list_yields yields input e rest run).1) lastAlternatives_yields

private theorem function_yields : Yields WritableFunction (function expr) :=
  .after fun _ => .after fun _ => .bind identifier_yields fun _ isName => .after fun _ => .after fun _ =>
    .bind identifier_yields.sepBy fun _ args => .after fun _ => .after fun _ => .after fun _ =>
    .bind (block_yields yields) fun _ body => .pure ⟨isName, args, body⟩

theorem module_yields : Yields WritableModule (module expr) :=
  .after fun _ => .after fun _ => .bind capitalizedIdent_yields fun _ isName => .after fun _ => .after fun _ =>
    .after fun _ => .bind (function_yields yields).sepBy fun _ functions => .after fun _ => .after fun _ =>
    .after fun _ => .pure ⟨isName, functions⟩

end Forms

/-- The nested expressions are read with less fuel. -/
theorem expr_yields (fuel : ℕ) : Yields Writable (expr fuel) := by
  induction fuel with
  | zero => exact fun input e rest impossible => absurd impossible (Option.some_ne_none _).symm
  | succ fuel ih => exact alternatives_yields ih

end Owl.Grammar
