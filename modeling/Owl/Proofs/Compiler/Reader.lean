import Owl.Proofs.Compiler.Grammar
import Owl.Model.Compiler.Writer

/-! # The parser of expressions without its fuel

The length of the input is fuel enough, so there is one parser of expressions that satisfies the equation of the
grammar. What it does with a word depends on what follows the word: white space and an operator, white space and
an expression, or something that ends the word.
-/

namespace Owl.Grammar

open Owl.Compiler Parser

section Combinators

variable [Chomp] {α : Type} {parser first second third : Parser UInt8 α} {input rest : Bytes} {default a : α}

theorem or_left (failed : second input = none) : Chomp.or first second input = first input := by
  rw [Chomp.or_eq]
  exact Parser.or_left failed

theorem or_nested (first second third : Parser UInt8 α) (input : Bytes) :
    Chomp.or (Chomp.or first second) third input = Chomp.or first (Chomp.or second third) input := by
  simp only [Chomp.or_eq]
  exact Parser.or_nested first second third input

theorem or_eq_some (run : Chomp.or first second input = some (a, rest)) :
    first input = some (a, rest) ∨ first input = none ∧ second input = some (a, rest) := by
  rw [Chomp.or_eq] at run
  exact Parser.or_eq_some run

theorem option_some (done : parser input = some (a, rest)) : Chomp.option parser default input = some (a, rest) := by
  rw [Chomp.option_eq]
  exact Parser.option_some done

end Combinators

variable [Ascii]

instance (c : UInt8) : Decidable (OperandStart c) := inferInstanceAs (Decidable (_ ∨ _))

instance (c : UInt8) : Decidable (ExprStart c) := inferInstanceAs (Decidable (_ ∨ _))

/-- The parser of expressions, with as much fuel as its input needs. -/
def reader : Parser UInt8 Expr := fun input => expr (input.length + 1) input

private theorem reader_agree (bound : ℕ) : AgreeBelow bound (Grammar.expr bound) reader := by
  intro input short
  exact ⟨expr_enough short, (expr_agree short short input (Nat.lt_succ_self _)).2⟩

theorem reader_eq (input : Bytes) : reader input = alternatives reader input :=
  (alternatives_agree (reader_agree input.length) input (Nat.lt_succ_self _)).1

theorem reader_starts : Starts ExprStart reader :=
  fun input other => expr_starts (input.length + 1) input other

private theorem function_agree {bound : ℕ} {short long : Parser UInt8 Expr} (agree : AgreeBelow bound short long) :
    AgreeBelow bound (function short) (function long) :=
  .bind (Consumes.string 102 _).shrinks.agree fun _ => .bind (Consumes.satisfy _).shrinks.agree fun _ =>
    .bind identifier_shrinks.agree fun _ => .bind (Consumes.token 40).shrinks.agree fun _ =>
    .bind skipWhitespace_shrinks.agree fun _ => .bind (identifier_shrinks.agree.sepBy comma_shrinks) fun _ =>
    .bind skipWhitespace_shrinks.agree fun _ => .bind (Consumes.token 41).shrinks.agree fun _ =>
    .bind skipNewlineAndWhitespace_shrinks.agree fun _ => .bind (block_agree agree) fun _ => .pure _

private theorem module_agree {bound : ℕ} {short long : Parser UInt8 Expr} (agree : AgreeBelow bound short long) :
    AgreeBelow bound (module short) (module long) :=
  .bind (Consumes.string 109 _).shrinks.agree fun _ => .bind (Consumes.satisfy _).shrinks.agree fun _ =>
    .bind (identOf_consumes _).shrinks.agree fun _ => .bind skipNewlineAndWhitespace_shrinks.agree fun _ =>
    .bind (Consumes.token 123).shrinks.agree fun _ => .bind skipNewlineAndWhitespace_shrinks.agree fun _ =>
    .bind ((function_agree agree).sepBy skipNewlineAndWhitespace_shrinks) fun _ =>
    .bind skipNewlineAndWhitespace_shrinks.agree fun _ => .bind (Consumes.token 125).shrinks.agree fun _ =>
    .bind skipNewlineAndWhitespace_shrinks.agree fun _ => .pure _

theorem parseModule_eq (input : Bytes) :
    parseModule input = (module reader input).map Prod.fst :=
  congrArg (Option.map Prod.fst) (module_agree (reader_agree (input.length + 1)) input (Nat.lt_succ_self _)).1

section Blanks

variable {before rest : Bytes} {c : UInt8}

theorem Ascii.blank_le (line : Chomp.isEndOfLine c || Chomp.isWhitespace c) : c ≤ 32 :=
  ((Bool.or_eq_true _ _).mp line).elim (Ascii.endOfLine_le c) (Ascii.whitespace_le c)

private theorem Ascii.not_blank (visible : 32 < c) : (Chomp.isEndOfLine c || Chomp.isWhitespace c) = false :=
  Bool.eq_false_iff.mpr fun blank => absurd (Ascii.blank_le blank) (UInt8.not_le.mpr visible)

theorem skipNewlineAndWhitespace_run (blank : ∀ c ∈ before, Chomp.isEndOfLine c || Chomp.isWhitespace c)
    (stops : ∀ c ∈ rest.head?, 32 < c) :
    skipNewlineAndWhitespace (before ++ rest) = some (⟨⟩, rest) :=
  bind_some (takeWhile_append blank fun c head => Ascii.not_blank (stops c head))

theorem comma_run {after : Bytes} (blankBefore : Blank before) (blankAfter : Blank after)
    (stops : ∀ c ∈ rest.head?, 32 < c) : comma (before ++ 44 :: after ++ rest) = some (⟨⟩, rest) := by
  have first : skipWhitespace (before ++ (44 :: (after ++ rest))) = some (⟨⟩, 44 :: (after ++ rest)) :=
    skipWhitespace_run blankBefore (by rintro d ⟨rfl⟩; exact Ascii.space_lt (by decide))
  rw [List.append_assoc, List.cons_append, comma, bind_some first, bind_some (token_self 44 _)]
  exact skipWhitespace_run blankAfter fun d head => Ascii.space_lt (stops d head)

theorem skipWhitespace_eq (input : Bytes) :
    skipWhitespace input = some (⟨⟩, input.dropWhile Chomp.isWhitespace) := rfl

theorem comma_none (other : (rest.dropWhile Chomp.isWhitespace).head? ≠ some 44) : comma rest = none := by
  rw [comma, bind_some (skipWhitespace_eq rest)]
  exact bind_none (token_ne other)

omit [Ascii] in
theorem not_exprStart_of_blank (small : c ≤ 32) : ¬ ExprStart c :=
  fun start => absurd (exprStart_visible start).1 (UInt8.not_lt.mpr small)

theorem dropWhile_visible (visible : 32 < c) : (c :: rest).dropWhile Chomp.isWhitespace = c :: rest :=
  List.dropWhile_cons_of_neg (by rw [Ascii.space_lt visible]; decide)

end Blanks

section Alternatives

variable {expr : Parser UInt8 Expr} {c : UInt8} (rest : Bytes)

theorem alternatives_bang : alternatives expr (33 :: rest) = unary expr (33 :: rest) := by
  have before {parser : Parser UInt8 Expr} (next : Parser UInt8 Expr) {kind : UInt8 → Prop} (starts : Starts kind parser)
      (other : ¬ kind 33) : Chomp.or parser next (33 :: rest) = next (33 :: rest) := or_none (starts.cons other rest)
  refine (before _ (ifExpr_starts _) (by decide)).trans <| (before _ (letExpr_starts _) (by decide)).trans <|
    (before _ (operand_starts _).bind (by decide)).trans <| (before _ (anonFn_starts _) (by decide)).trans <|
    (before _ str_starts (by decide)).trans <| (before _ (apply_starts _) (by decide)).trans <|
    (before _ capture_starts (by decide)).trans <| or_left ?_
  exact (before _ (tuple_starts _) (by decide)).trans <| (before _ (list_starts _) (by decide)).trans <|
    (before _ nil_starts (by decide)).trans <| (before _ bool_starts (by decide)).trans <|
    (before _ ident_starts (by decide)).trans <| int_starts.cons (by decide) rest

theorem alternatives_paren :
    alternatives expr (40 :: rest) = Chomp.or (anonFn expr) (tuple expr) (40 :: rest) := by
  have before {parser : Parser UInt8 Expr} (next : Parser UInt8 Expr) {kind : UInt8 → Prop} (starts : Starts kind parser)
      (other : ¬ kind 40) : Chomp.or parser next (40 :: rest) = next (40 :: rest) := or_none (starts.cons other rest)
  refine (before _ (ifExpr_starts _) (by decide)).trans <| (before _ (letExpr_starts _) (by decide)).trans <|
    (before _ (operand_starts _).bind (by decide)).trans <| congrArg (Option.or _) ?_
  refine (before _ str_starts (by decide)).trans <| (before _ (apply_starts _) (by decide)).trans <|
    (before _ capture_starts (by decide)).trans <| (before _ (unary_starts _) (by decide)).trans <| or_left ?_
  exact (before _ (list_starts _) (by decide)).trans <| (before _ nil_starts (by decide)).trans <|
    (before _ bool_starts (by decide)).trans <| (before _ ident_starts (by decide)).trans <|
    int_starts.cons (by decide) rest

end Alternatives

section Operators

variable {op rest input : Bytes} {c : UInt8} {e : Expr}

omit [Ascii] in
theorem oneOf_some {texts : List Bytes} {text : Bytes} (run : oneOf texts input = some (text, rest)) :
    text ∈ texts ∧ text <+: input := by
  induction texts with
  | nil => cases run
  | cons first texts ih =>
    obtain run | ⟨-, run⟩ := Parser.or_eq_some run
    · rw [Parser.string] at run
      split at run
      next found =>
        cases run
        exact ⟨List.mem_cons_self, List.isPrefixOf_iff_prefix.mp found⟩
      next => cases run
    · obtain ⟨member, found⟩ := ih run
      exact ⟨List.mem_cons_of_mem _ member, found⟩

/-- Only one operator starts as an expression does, and the rest of it does not. -/
theorem reader_operator_none (member : op ∈ operators) (rest : Bytes) : reader (op ++ rest) = none := by
  simp only [operators_eq, List.mem_cons, List.not_mem_nil, or_false] at member
  have other {d : UInt8} (differs : ¬ ExprStart d) (tail : Bytes) : reader (d :: tail) = none :=
    reader_starts.cons differs tail
  rcases member with rfl | rfl | rfl | rfl | rfl | rfl | rfl | rfl | rfl | rfl | rfl
  case inr.inr.inr.inr.inl =>
    have bang : Chomp.string (bytes "!") (33 :: 61 :: rest) = some (bytes "!", 61 :: rest) := string_append [33] _
    change reader (33 :: 61 :: rest) = none
    rw [reader_eq, alternatives_bang, unary, bind_some bang]
    exact bind_none (other (by decide) rest)
  all_goals exact other (by decide) _

/-- What is read as an expression starts with no operator. -/
private theorem infixOp_none_of_reads (reads : reader input = some (e, rest)) : infixOp input = none := by
  cases run : infixOp input with
  | none => rfl
  | some done =>
    obtain ⟨member, tail, rfl⟩ := oneOf_some (show oneOf operators input = some (done.1, done.2) from run)
    rw [reader_operator_none member tail] at reads
    cases reads

theorem starts_of_reads (reads : reader input = some (e, rest)) : ∃ c tail, input = c :: tail ∧ ExprStart c := by
  cases input with
  | nil =>
    rw [reader_starts.nil] at reads
    cases reads
  | cons c tail =>
    refine ⟨c, tail, rfl, by_contra fun other => ?_⟩
    rw [reader_starts.cons other] at reads
    cases reads

end Operators

/-- What follows an expression that is read whole: neither more of its last word, nor an operator, nor the arrow
that would make a tuple the parameters of a function. A word that is a keyword too is one where its form does not
follow. -/
structure Ends (rest : Bytes) : Prop where
  word : ∀ c ∈ rest.head?, isIdentifierByte c = false ∧ c ≠ 40 ∧ c ≠ 92
  noOperator : infixOp (rest.dropWhile Chomp.isWhitespace) = none
  noArrow : (rest.dropWhile Chomp.isWhitespace).head? ≠ some 61
  noForm : ∀ c tail, rest = c :: tail → Chomp.isWhitespace c → ∀ d ∈ tail.head?, ¬ ExprStart d

section Ends

variable {before rest tail : Bytes} {c : UInt8}

omit [Ascii] in
theorem blank_ends_word (small : c ≤ 32) : isIdentifierByte c = false ∧ c ≠ 40 ∧ c ≠ 92 := by
  refine ⟨Bool.eq_false_iff.mpr fun found => ?_, ?_, ?_⟩
  · exact absurd (identifierByte_visible found) (UInt8.not_lt.mpr small)
  · rintro rfl
    exact absurd small (by decide)
  · rintro rfl
    exact absurd small (by decide)

omit [Ascii] in
private theorem not_operatorStart_of_blank (small : c ≤ 32) : ¬ OperatorStart c :=
  fun start => absurd (operatorStart_ends start).1 (UInt8.not_lt.mpr small)

/-- White space goes on with white space or ends. -/
private theorem dropWhile_blank (small : ∀ d ∈ before, d ≤ 32) (visible : 32 < c) :
    (before ++ c :: tail).dropWhile Chomp.isWhitespace = c :: tail ∨
      ∃ d after, (before ++ c :: tail).dropWhile Chomp.isWhitespace = d :: after ∧ d ≤ 32 := by
  induction before with
  | nil => exact .inl (dropWhile_visible visible)
  | cons d before ih =>
    rw [List.forall_mem_cons] at small
    rw [List.cons_append, List.dropWhile_cons]
    split
    · exact ih small.2
    · exact .inr ⟨d, _, rfl, small.1⟩

/-- White space in front of something visible that is no operator ends an expression, where it is long or an
expression does not follow. -/
private theorem ends_blank (small : ∀ d ∈ before, d ≤ 32) (visible : 32 < c) (noOperator : infixOp (c :: tail) = none)
    (noArrow : c ≠ 61) (apart : 2 ≤ before.length ∨ ¬ ExprStart c ∧ isIdentifierByte c = false ∧ c ≠ 40 ∧ c ≠ 92) :
    Ends (before ++ c :: tail) where
  word d head := by
    cases before with
    | nil =>
      cases head
      obtain impossible | ⟨-, ends⟩ := apart
      · exact absurd impossible (by decide)
      · exact ends
    | cons e before =>
      cases head
      exact blank_ends_word (small d List.mem_cons_self)
  noOperator := by
    obtain same | ⟨d, after, same, blank⟩ := @dropWhile_blank _ _ tail c small visible
    · rwa [same]
    · rw [same]
      exact infixOp_starts.cons (not_operatorStart_of_blank blank) after
  noArrow := by
    obtain same | ⟨d, after, same, blank⟩ := @dropWhile_blank _ _ tail c small visible
    · rw [same]
      exact fun head => noArrow (Option.some.inj head)
    · rw [same]
      rintro ⟨rfl⟩
      exact absurd blank (by decide)
  noForm := by
    intro d after split blank e head
    cases before with
    | nil =>
      obtain ⟨rfl, -⟩ := List.cons.inj split
      exact absurd blank (by rw [Ascii.space_lt visible]; decide)
    | cons b before =>
      obtain ⟨rfl, rfl⟩ := List.cons.inj split
      cases before with
      | nil =>
        cases head
        obtain impossible | ⟨notStart, -⟩ := apart
        · exact absurd impossible (Nat.not_succ_le_self 1)
        · exact notStart
      | cons f before =>
        cases head
        exact not_exprStart_of_blank (small e (by simp))

/-- The characters that close a form or separate its parts. -/
def closers : List UInt8 := [41, 44, 93, 123, 125]

omit [Ascii] in
theorem closer_ends (member : c ∈ closers) : 32 < c ∧ ¬ OperatorStart c ∧ c ≠ 61 ∧ ¬ ExprStart c ∧
    isIdentifierByte c = false ∧ c ≠ 40 ∧ c ≠ 92 := by
  simp only [closers, List.mem_cons, List.not_mem_nil, or_false] at member
  rcases member with rfl | rfl | rfl | rfl | rfl <;> decide

theorem ends_closer (small : ∀ d ∈ before, d ≤ 32) (member : c ∈ closers) (tail : Bytes) :
    Ends (before ++ c :: tail) := by
  obtain ⟨visible, notOperator, notArrow, notStart, word⟩ := closer_ends member
  exact ends_blank small visible (infixOp_starts.cons notOperator tail) notArrow (.inr ⟨notStart, word⟩)

theorem ends_reads {e : Expr} {input : Bytes} (small : ∀ d ∈ before, d ≤ 32) (long : 2 ≤ before.length)
    (reads : reader input = some (e, rest)) : Ends (before ++ input) := by
  have noOperator := infixOp_none_of_reads reads
  obtain ⟨c, tail, rfl, start⟩ := starts_of_reads reads
  exact ends_blank small (exprStart_visible start).1 noOperator (exprStart_visible start).2.2 (.inl long)

end Ends

end Owl.Grammar
