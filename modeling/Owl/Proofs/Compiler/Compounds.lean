import Owl.Proofs.Compiler.Forms

/-! # Reading compound forms

Calls, captures, operations, bindings, branches, tuples and anonymous functions. A tuple of names starts as the
parameters of an anonymous function do, so the parser of parameters has to stop where the tuple does.
-/

namespace Owl.Grammar

open Owl.Compiler Parser

variable [Ascii] {spacing : Spacing}

section Names

variable {first : UInt8 → Bool} {name input rest : Bytes} {module : Option Name}

theorem identOf_run (isWord : IsWord first name) (stops : ∀ c ∈ rest.head?, isIdentifierByte c = false) :
    identOf first (name ++ rest) = some (name, rest) := by
  obtain ⟨⟨c, head, kind⟩, all⟩ := isWord
  obtain ⟨tail, rfl⟩ := List.head?_eq_some_iff.mp head
  have peeked : Chomp.peekNext (c :: tail ++ rest) = some (c, c :: tail ++ rest) := rfl
  rw [identOf, bind_some peeked, if_pos kind]
  exact takeWhile1_append (List.cons_ne_nil _ _) all stops

theorem identOf_some (run : identOf first input = some (name, rest)) :
    IsWord first name ∧ input = name ++ rest ∧ ∀ c ∈ rest.head?, isIdentifierByte c = false := by
  obtain ⟨c, middle, peeked, run⟩ := bind_eq_some run
  cases input with
  | nil => cases peeked
  | cons d input =>
    cases peeked
    split at run
    next kind =>
      rw [anyCaseIdent, Chomp.takeWhile1_eq, takeWhile1] at run
      split at run
      · cases run
      next some' =>
        cases run
        refine ⟨⟨⟨c, ?_, kind⟩, List.all_eq_true.mp List.all_takeWhile⟩, ?_, ?_⟩
        · rw [List.takeWhile_cons] at some' ⊢
          split
          · rfl
          · next other => exact absurd (by rw [if_neg other]; rfl) some'
        · exact (List.takeWhile_append_dropWhile).symm
        · intro d head
          exact Bool.eq_false_iff.mpr fun word => by
            have := List.head?_dropWhile_not isIdentifierByte (c :: input)
            rw [head] at this
            simp [word] at this
    next => cases run

theorem prefix_run (isModule : ∀ m ∈ module, IsWord isUppercase m) (isName : IsIdentifier name) (rest : Bytes) :
    Chomp.option modulePrefix none (prefixText module ++ (name ++ rest)) = some (module, name ++ rest) := by
  cases module with
  | none => exact noModule_run isName rest
  | some m =>
    have spelled : prefixText (some m) ++ (name ++ rest) = m ++ 46 :: (name ++ rest) := by
      rw [prefixText, List.append_assoc]
      rfl
    have dot : Chomp.string (bytes ".") (46 :: (name ++ rest)) = some (bytes ".", name ++ rest) := string_append [46] _
    rw [spelled]
    apply or_some
    rw [modulePrefix, capitalizedIdent, bind_some (identOf_run (isModule m rfl) (by rintro d ⟨rfl⟩; rfl)), bind_some dot]
    rfl

omit [Ascii] in
/-- A text that starts with the name of a module. -/
theorem prefix_upper {m : Name} (isModule : IsWord isUppercase m) (rest : Bytes) :
    ∃ c tail, prefixText (some m) ++ rest = c :: tail ∧ isUppercase c := by
  obtain ⟨⟨c, head, upper⟩, -⟩ := isModule
  obtain ⟨tail, rfl⟩ := List.head?_eq_some_iff.mp head
  exact ⟨c, _, rfl, upper⟩

omit [Ascii] in
theorem upper_ne {c d : UInt8} (upper : isUppercase c) (other : isUppercase d = false) : c ≠ d := by
  rintro rfl
  rw [other] at upper
  exact Bool.noConfusion upper

end Names

section Calls

variable {module : Option Name} {name rest : Bytes} {args : List Expr} {arity : UInt8}

private theorem applyText_call (isName : IsWord isLowercase name) (texts : List Bytes) :
    spacing.applyText module name texts = spacing.callText module name texts := by
  have notBang : name ≠ bytes "!" := by
    rintro rfl
    obtain ⟨⟨c, ⟨rfl⟩, impossible⟩, -⟩ := isName
    exact Bool.noConfusion impossible
  have noOperator : name ∉ operators := by
    intro member
    obtain ⟨c, head, start⟩ := operator_head name member
    have word := isName.2 c (List.mem_of_mem_head? head)
    rw [(operatorStart_ends start).2.1] at word
    exact Bool.noConfusion word
  unfold Spacing.applyText
  split
  · exact if_neg notBang
  · exact if_neg (mt List.contains_iff_mem.mp noOperator)
  · rfl

private theorem elems_visible (each : ∀ e ∈ args, Readable spacing e) {c : UInt8} (member : c ∈ closers) (rest : Bytes) :
    ∀ d ∈ (spacing.commas (spacing.exprTexts args) ++ c :: rest).head?, 32 < d := by
  cases args with
  | nil => exact closer_visible member
  | cons arg args =>
    have parts : ReadsEach reader comma spacing.exprText (spacing.gap ++ 44 :: spacing.gap) Ends
        (arg :: args) :=
      { longer := by simp
        reads := fun e member => (each e member).reads
        skips := fun e rest reads => spacing.comma_run (visible_of_reads reads)
        next := fun e rest _ => spacing.comma_ends _ }
    have read := parts.reads arg List.mem_cons_self _ (parts.tail.ends_more (closer_ends_now member rest))
    rw [Spacing.exprTexts_eq, Spacing.commas, List.map_cons, separated, List.append_assoc]
    exact visible_of_reads read

private theorem callText_append (texts : List Bytes) (rest : Bytes) : spacing.callText module name texts ++ rest =
    prefixText module ++ (name ++ 40 :: (spacing.commas texts ++ 41 :: rest)) := by
  simp [Spacing.callText]

private theorem apply_run (isModule : ∀ m ∈ module, IsWord isUppercase m) (isName : IsIdentifier name)
    (each : ∀ e ∈ args, Readable spacing e) (rest : Bytes) :
    apply reader (prefixText module ++ (name ++ 40 :: (spacing.commas (spacing.exprTexts args) ++ 41 ::
      rest))) =
      some (.apply module name args, rest) := by
  have skips := @skipWhitespace_none _ _ fun d head => Ascii.space_lt
    (elems_visible each (show 41 ∈ closers by decide) rest d head)
  have closes := @skipWhitespace_none _ (41 :: rest) (by rintro d ⟨rfl⟩; exact Ascii.space_lt (by decide))
  rw [apply, bind_some (prefix_run isModule isName _), bind_some (identifier_run isName (by rintro d ⟨rfl⟩; rfl)),
    bind_some (token_self 40 _), bind_some skips, bind_some (elems_read each (by decide) (by decide) rest),
    bind_some closes, bind_some (token_self 41 rest)]
  rfl

private theorem paren_noOperator (rest : Bytes) : infixOp (((40 : UInt8) :: rest).dropWhile Chomp.isWhitespace) = none := by
  rw [dropWhile_visible (by decide)]
  exact infixOp_starts.cons (by decide) rest

theorem not_blank_cons {d : UInt8} (visible : 32 < d) {P : Bytes → Prop} (c : UInt8) (tail : Bytes)
    (split : d :: rest = c :: tail) (blank : Chomp.isWhitespace c) : P tail := by
  obtain ⟨rfl, -⟩ := List.cons.inj split
  rw [Ascii.space_lt visible] at blank
  exact Bool.noConfusion blank

private theorem operand_call (isModule : ∀ m ∈ module, IsWord isUppercase m) (isName : IsIdentifier name)
    (plain : module = none → StartsNoValue name) (each : ∀ e ∈ args, Readable spacing e) (rest : Bytes) :
    operand reader
      (prefixText module ++ (name ++ 40 :: (spacing.commas (spacing.exprTexts args) ++ 41 :: rest))) =
      some (.apply module name args, rest) := by
  have reads := apply_run isModule isName each rest
  cases module with
  | none =>
    rw [prefixText, List.nil_append] at reads ⊢
    rw [operand_word isName]
    exact (or_none (values_none (plain rfl) (by rintro d ⟨rfl⟩; rfl))).trans <| or_some reads
  | some m =>
    obtain ⟨c, tail, spelled, upper⟩ := prefix_upper (isModule m rfl)
      (name ++ 40 :: (spacing.commas (spacing.exprTexts args) ++ 41 :: rest))
    rw [spelled] at reads ⊢
    have notDigit : ¬ isDigit c = true := fun digit => by
      simp only [isDigit, isUppercase, Bool.and_eq_true, decide_eq_true_eq, UInt8.le_iff_toNat_le,
        UInt8.reduceToNat] at digit upper
      omega
    exact (or_none (str_starts.cons (upper_ne upper rfl) tail)).trans <|
      (or_none ((list_starts _).cons (upper_ne upper rfl) tail)).trans <|
      (or_none (int_starts.cons notDigit tail)).trans <| (or_none (nil_starts.cons (upper_ne upper rfl) tail)).trans <|
      (or_none (bool_starts.cons (not_or.mpr ⟨upper_ne upper rfl, upper_ne upper rfl⟩) tail)).trans <| or_some reads

private theorem readable_call (isModule : ∀ m ∈ module, IsWord isUppercase m) (isName : IsIdentifier name)
    (each : ∀ e ∈ args, Readable spacing e) : Readable spacing (.apply module name args) := by
  have spelled (rest : Bytes) : spacing.exprText (.apply module name args) ++ rest =
      prefixText module ++ (name ++ 40 :: (spacing.commas (spacing.exprTexts args) ++ 41 :: rest)) := by
    rw [Spacing.exprText, applyText_call isName, callText_append]
  constructor
  · intro rest ends
    have reads := apply_run isModule isName each rest
    rw [spelled, reader_eq]
    cases module with
    | none =>
      rw [prefixText, List.nil_append] at reads ⊢
      set input := spacing.commas (spacing.exprTexts args) ++ 41 :: rest
      have stops : ∀ c ∈ ((40 : UInt8) :: input).head?, isIdentifierByte c = false := by
        rintro c ⟨rfl⟩
        rfl
      obtain ⟨notIf, notLet⟩ := @keywords_none _ name (40 :: input) reader isName stops
        (not_blank_cons (by decide))
      have notInfix : infixExpr reader (name ++ 40 :: input) = none := by
        apply infixExpr_none
        intro l middle run
        rw [operand_word isName] at run
        obtain run | ⟨-, run⟩ := or_eq_some run
        · obtain ⟨more, leaves, rfl⟩ := values_run stops run
          exact noOperator_more (leaves.more_word isName) (paren_noOperator input)
        · cases (or_some reads).symm.trans run
          exact ends.noOperator
      obtain ⟨⟨c, head, lower⟩, -⟩ := isName
      obtain ⟨tail, rfl⟩ := List.head?_eq_some_iff.mp head
      exact (or_none notIf).trans <| (or_none notLet).trans <| (or_none notInfix).trans <|
        (or_none ((anonFn_starts _).cons (lowercase_ne lower rfl) _)).trans <|
        (or_none (str_starts.cons (lowercase_ne lower rfl) _)).trans <| or_some reads
    | some m =>
      have notInfix := infixExpr_operand_none
        (operand_call isModule isName (fun impossible => absurd impossible (Option.some_ne_none m)) each rest) ends
      obtain ⟨c, tail, split, upper⟩ := prefix_upper (isModule m rfl)
        (name ++ 40 :: (spacing.commas (spacing.exprTexts args) ++ 41 :: rest))
      rw [split] at reads notInfix ⊢
      exact (or_none ((ifExpr_starts _).cons (upper_ne upper rfl) tail)).trans <|
        (or_none ((letExpr_starts _).cons (upper_ne upper rfl) tail)).trans <| (or_none notInfix).trans <|
        (or_none ((anonFn_starts _).cons (upper_ne upper rfl) tail)).trans <|
        (or_none (str_starts.cons (upper_ne upper rfl) tail)).trans <| or_some reads
  · intro isOperand rest _
    rw [spelled]
    exact operand_call isModule isName isOperand.2 each rest

private theorem arity_run (digit : arity ≤ 9) (rest : Bytes) : Grammar.arity ((48 + arity) :: rest) =
    some (arity, rest) := by
  have isDigit : isDigit (48 + arity) = true := by
    have := UInt8.le_iff_toNat_le.mp digit
    have small : (9 : UInt8).toNat = 9 := rfl
    rw [Grammar.isDigit, Bool.and_eq_true, decide_eq_true_eq, decide_eq_true_eq, UInt8.le_iff_toNat_le,
      UInt8.le_iff_toNat_le, UInt8.toNat_add, show (48 : UInt8).toNat = 48 from rfl, show (57 : UInt8).toNat = 57 from rfl]
    omega
  have run : Chomp.satisfy Grammar.isDigit ((48 + arity) :: rest) = some (48 + arity, rest) := if_pos isDigit
  rw [Grammar.arity, bind_some run, UInt8.add_comm, UInt8.add_sub_cancel]
  rfl

private theorem readable_capture (isModule : ∀ m ∈ module, IsWord isUppercase m) (isName : IsIdentifier name)
    (digit : arity ≤ 9) : Readable spacing (.capture module name arity) := by
  have spelled (rest : Bytes) : spacing.exprText (.capture module name arity) ++ rest =
      prefixText module ++ (name ++ 92 :: (48 + arity) :: rest) := by
    simp [Spacing.exprText]
  constructor
  · intro rest ends
    have stops : ∀ c ∈ ((92 : UInt8) :: (48 + arity) :: rest).head?, isIdentifierByte c = false ∧ c ≠ 40 := by
      rintro c ⟨rfl⟩
      decide
    have named := identifier_run isName fun c head => (stops c head).1
    have reads : capture (prefixText module ++ (name ++ 92 :: (48 + arity) :: rest)) =
        some (.capture module name arity, rest) := by
      rw [capture, bind_some (prefix_run isModule isName _), bind_some named, bind_some (token_self 92 _),
        bind_some (arity_run digit rest)]
      rfl
    have notApply : apply reader (prefixText module ++ (name ++ 92 :: (48 + arity) :: rest)) = none := by
      rw [apply, bind_some (prefix_run isModule isName _), bind_some named]
      exact bind_none ((Starts.token 40).cons (by decide) _)
    rw [spelled, reader_eq]
    cases module with
    | none =>
      rw [prefixText, List.nil_append] at reads notApply ⊢
      obtain ⟨notIf, notLet⟩ := @keywords_none _ name _ reader isName (fun c head => (stops c head).1)
        (not_blank_cons (by decide))
      have notInfix := @infixExpr_word_none _ name _ reader isName stops
        (by rw [dropWhile_visible (by decide)]; exact infixOp_starts.cons (by decide) _)
      obtain ⟨⟨c, head, lower⟩, -⟩ := isName
      obtain ⟨tail, rfl⟩ := List.head?_eq_some_iff.mp head
      exact (or_none notIf).trans <| (or_none notLet).trans <| (or_none notInfix).trans <|
        (or_none ((anonFn_starts _).cons (lowercase_ne lower rfl) _)).trans <|
        (or_none (str_starts.cons (lowercase_ne lower rfl) _)).trans <| (or_none notApply).trans <| or_some reads
    | some m =>
      obtain ⟨c, tail, split, upper⟩ := prefix_upper (isModule m rfl) (name ++ 92 :: (48 + arity) :: rest)
      rw [split] at reads notApply ⊢
      have misses {parser : Parser UInt8 Expr} {kind : UInt8 → Prop} (starts : Starts kind parser)
          (other : ∀ d, kind d → isUppercase d = false) : parser (c :: tail) = none :=
        starts.cons (fun found => absurd upper (Bool.eq_false_iff.mp (other c found))) tail
      have digits (d : UInt8) (digit : isDigit d) : isUppercase d = false := by
        refine Bool.eq_false_iff.mpr fun upper => ?_
        simp only [isDigit, isUppercase, Bool.and_eq_true, decide_eq_true_eq, UInt8.le_iff_toNat_le,
          UInt8.reduceToNat] at digit upper
        omega
      have lowers (d : UInt8) (lower : isLowercase d) : isUppercase d = false :=
        Bool.eq_false_iff.mpr fun upper => absurd lower (Bool.eq_false_iff.mp (not_lowercase_of_uppercase d upper))
      have noOperand : operand reader (c :: tail) = none :=
        (or_none (misses str_starts (by rintro d rfl; rfl))).trans <|
          (or_none (misses (list_starts _) (by rintro d rfl; rfl))).trans <| (or_none (misses int_starts digits)).trans <|
          (or_none (misses nil_starts (by rintro d rfl; rfl))).trans <|
          (or_none (misses bool_starts (by rintro d (rfl | rfl) <;> rfl))).trans <| (or_none notApply).trans <|
          misses ident_starts lowers
      exact (or_none (misses (ifExpr_starts _) (by rintro d rfl; rfl))).trans <|
        (or_none (misses (letExpr_starts _) (by rintro d rfl; rfl))).trans <| (or_none (bind_none noOperand)).trans <|
        (or_none (misses (anonFn_starts _) (by rintro d rfl; rfl))).trans <|
        (or_none (misses str_starts (by rintro d rfl; rfl))).trans <| (or_none notApply).trans <| or_some reads
  · exact fun impossible => impossible.elim

end Calls

section Operations

variable {arg lhs rhs : Expr} {op rest : Bytes}

private theorem readable_unary (argument : Readable spacing arg) : Readable spacing (.apply none (bytes "!") [arg]) := by
  constructor
  · intro rest ends
    have spelled : spacing.exprText (.apply none (bytes "!") [arg]) ++ rest = 33 :: (spacing.exprText arg ++ rest) := by
      simp [Spacing.exprText, Spacing.exprTexts, Spacing.applyText, show bytes "!" = [33] from rfl]
    have bang : Chomp.string (bytes "!") (33 :: (spacing.exprText arg ++ rest)) =
      some (bytes "!", spacing.exprText arg ++ rest) :=
      string_append [33] _
    rw [spelled, reader_eq, alternatives_bang, unary, bind_some bang, bind_some (argument.reads rest ends)]
    rfl
  · rintro ⟨⟨⟨c, ⟨rfl⟩, impossible⟩, -⟩, -⟩
    exact Bool.noConfusion impossible

/-- What follows an operand in front of an operator. -/
private theorem operator_noForms (member : op ∈ operators) (right : Bytes) (c : UInt8) (tail : Bytes)
    (split : spacing.gap ++ op ++ right = c :: tail) (blank : Chomp.isWhitespace c) :
    reader tail = none ∧ identifier tail = none := by
  obtain ⟨d, head, start⟩ := operator_head op member
  obtain ⟨word, rfl⟩ := List.head?_eq_some_iff.mp head
  have small := spacing.gap_small
  cases gap : spacing.gap with
  | nil =>
    rw [gap] at split
    obtain ⟨rfl, -⟩ := List.cons.inj split
    rw [Ascii.space_lt (operatorStart_ends start).1] at blank
    exact Bool.noConfusion blank
  | cons e before =>
    rw [gap, List.cons_append] at split
    obtain ⟨rfl, rfl⟩ := List.cons.inj split
    cases before with
    | nil =>
      refine ⟨reader_operator_none member right, (identOf_starts _).cons (fun lower => ?_) _⟩
      have word : isIdentifierByte d := by
        rw [isIdentifierByte, show isLowercase d = true from lower]
        rfl
      rw [(operatorStart_ends start).2.1] at word
      exact Bool.noConfusion word
    | cons f before =>
      have other := not_exprStart_of_blank (small f (by rw [gap]; simp))
      exact ⟨reader_starts.cons other _,
        (identOf_starts _).cons (fun lower => other (.inl (.inr (.inr (.inr (.inr lower)))))) _⟩

/-- An operand in front of an operator is no form of its own. -/
private theorem operand_noForm (writable : Writable lhs) (isOperand : IsOperand lhs) (member : op ∈ operators)
    (right : Bytes) :
    ifExpr reader (spacing.exprText lhs ++ (spacing.gap ++ op ++ right)) = none ∧
      letExpr reader (spacing.exprText lhs ++ (spacing.gap ++ op ++ right)) = none := by
  have other {c : UInt8} (notIf : c ≠ 105) (notLet : c ≠ 108) (tail : Bytes) :
      ifExpr reader (c :: tail) = none ∧ letExpr reader (c :: tail) = none :=
    ⟨(ifExpr_starts _).cons notIf tail, (letExpr_starts _).cons notLet tail⟩
  cases writable with
  | int some' digits =>
    obtain ⟨c, tail, rfl⟩ := List.exists_cons_of_ne_nil some'
    have digit := digits c List.mem_cons_self
    constructor
    · exact (ifExpr_starts _).cons (by rintro rfl; exact Bool.noConfusion digit) _
    · exact (letExpr_starts _).cons (by rintro rfl; exact Bool.noConfusion digit) _
  | true => exact other (by decide) (by decide) _
  | false => exact other (by decide) (by decide) _
  | nil => exact other (by decide) (by decide) _
  | ident isName plain =>
    exact keywords_none isName (fun c head => (behind_operator spacing.gap_blank member c head).1)
      (operator_noForms member right)
  | list each => exact other (by decide) (by decide) _
  | str inside noNewline noTab => exact other (by decide) (by decide) _
  | @call module name args isModule isName each =>
    rw [Spacing.exprText, applyText_call isName, callText_append]
    cases module with
    | none =>
      rw [prefixText, List.nil_append]
      exact keywords_none isName (by rintro c ⟨rfl⟩; rfl) (not_blank_cons (by decide))
    | some m =>
      obtain ⟨c, tail, split, upper⟩ := prefix_upper (isModule m rfl)
        (name ++ 40 :: (spacing.commas (spacing.exprTexts args) ++ 41 :: (spacing.gap ++ op ++ right)))
      rw [split]
      exact other (upper_ne upper rfl) (upper_ne upper rfl) tail
  | unary =>
    obtain ⟨⟨c, ⟨rfl⟩, impossible⟩, -⟩ := isOperand.1
    exact Bool.noConfusion impossible
  | operation member' =>
    obtain ⟨c, head, start⟩ := operator_head _ member'
    have word := isOperand.1.2 c (List.mem_of_mem_head? head)
    rw [(operatorStart_ends start).2.1] at word
    exact Bool.noConfusion word
  | «let» | «if» | tuple | capture | anonFn => exact isOperand.elim

private theorem readable_infix (writable : Writable lhs) (isOperand : IsOperand lhs) (member : op ∈ operators)
    (left : Readable spacing lhs) (right : Readable spacing rhs) : Readable spacing (.apply none op [lhs, rhs]) := by
  constructor
  · intro rest ends
    have spelled : spacing.exprText (.apply none op [lhs, rhs]) ++ rest =
        spacing.exprText lhs ++ (spacing.gap ++ op ++ (spacing.gap ++ (spacing.exprText rhs ++ rest))) := by
      simp [Spacing.exprText, Spacing.exprTexts, Spacing.applyText, member]
    have leftReads := left.operand isOperand (spacing.gap ++ op ++ (spacing.gap ++ (spacing.exprText rhs ++ rest)))
      fun c head => ⟨(behind_operator spacing.gap_blank member c head).1,
        (behind_operator spacing.gap_blank member c head).2.1⟩
    have reads := infixExpr_run leftReads spacing.gap_blank member spacing.gap_blank reader_starts (right.reads rest ends)
    obtain ⟨notIf, notLet⟩ := @operand_noForm _ spacing _ _ writable isOperand member
      (spacing.gap ++ (spacing.exprText rhs ++ rest))
    rw [spelled, reader_eq]
    exact (or_none notIf).trans <| (or_none notLet).trans <| or_some reads
  · intro impossible
    obtain ⟨c, head, start⟩ := operator_head _ member
    have word := impossible.1.2 c (List.mem_of_mem_head? head)
    rw [(operatorStart_ends start).2.1] at word
    exact Bool.noConfusion word

end Operations

section Forms

variable {left : Name} {right condition : Expr} {body elseBody : List Expr}

private theorem gap_ends_word {c : UInt8} (other : isIdentifierByte c = false) (rest : Bytes) :
    ∀ d ∈ (spacing.gap ++ c :: rest).head?, isIdentifierByte d = false := by
  intro d head
  have small := spacing.gap_small
  cases gap : spacing.gap with
  | nil =>
    rw [gap] at head
    cases head
    exact other
  | cons e before =>
    rw [gap] at head small
    cases head
    exact (blank_ends_word (small d List.mem_cons_self)).1

private theorem blockText_head (texts : List Bytes) (rest : Bytes) :
    ∃ tail, spacing.blockText texts ++ rest = 123 :: tail := ⟨_, rfl⟩

theorem line_block_run (texts : List Bytes) (rest : Bytes) :
    skipNewlineAndWhitespace (spacing.line ++ (spacing.blockText texts ++ rest)) =
      some (⟨⟩, spacing.blockText texts ++ rest) := by
  apply spacing.line_run
  obtain ⟨tail, spelled⟩ := @blockText_head _ spacing texts rest
  rw [spelled]
  exact closer_visible (by decide)

private theorem readable_let (isName : IsIdentifier left) (value : Readable spacing right) :
    Readable spacing (.let left right) := by
  constructor
  · intro rest ends
    have spelled : spacing.exprText (.let left right) ++ rest = bytes "let" ++ (spacing.space ::
        (left ++ (spacing.gap ++ 61 :: (spacing.gap ++ (spacing.exprText right ++ rest))))) := by
      simp [Spacing.exprText]
    have shown := spacing.gap_run (visible_of_reads (value.reads rest ends))
    have equals := @Spacing.gap_run _ spacing (61 :: (spacing.gap ++ (spacing.exprText right ++ rest)))
      (by rintro c ⟨rfl⟩; decide)
    have named := identifier_run isName (@gap_ends_word _ spacing 61 rfl
      (spacing.gap ++ (spacing.exprText right ++ rest)))
    have notIf : ifExpr reader (bytes "let" ++ (spacing.space ::
        (left ++ (spacing.gap ++ 61 :: (spacing.gap ++ (spacing.exprText right ++ rest)))))) = none :=
      (ifExpr_starts _).cons (by decide) _
    rw [spelled, reader_eq]
    apply (or_none notIf).trans
    apply or_some
    rw [letExpr, bind_some (string_append _ _), bind_some (spacing.space_run _), bind_some named, bind_some equals,
      bind_some (token_self 61 _), bind_some shown, bind_some (value.reads rest ends)]
    rfl
  · exact fun impossible => impossible.elim

private theorem readable_if (isCondition : Readable spacing condition) (each : ∀ e ∈ body, Readable spacing e)
    (eachElse : ∀ e ∈ elseBody, Readable spacing e) : Readable spacing (.if condition body elseBody) := by
  constructor
  · intro rest ends
    have spelled : spacing.exprText (.if condition body elseBody) ++ rest = bytes "if" ++ (spacing.space ::
        (spacing.exprText condition ++ (spacing.line ++ (spacing.blockText (spacing.exprTexts body) ++
          (spacing.line ++ (bytes "else" ++ (spacing.line ++ (spacing.blockText (spacing.exprTexts elseBody) ++
            rest)))))))) := by
      simp [Spacing.exprText]
    have behind : Ends (spacing.line ++ (spacing.blockText (spacing.exprTexts body) ++ (spacing.line ++
        (bytes "else" ++ (spacing.line ++ (spacing.blockText (spacing.exprTexts elseBody) ++ rest)))))) := by
      obtain ⟨tail, spelled⟩ := @blockText_head _ spacing (spacing.exprTexts body) (spacing.line ++
        (bytes "else" ++ (spacing.line ++ (spacing.blockText (spacing.exprTexts elseBody) ++ rest))))
      rw [spelled]
      exact spacing.line_closer_ends (by decide) tail
    have between := @Spacing.line_run _ spacing
      (bytes "else" ++ (spacing.line ++ (spacing.blockText (spacing.exprTexts elseBody) ++ rest)))
      (by rintro c ⟨rfl⟩; decide)
    have other : elseBranch reader
        (bytes "else" ++ (spacing.line ++ (spacing.blockText (spacing.exprTexts elseBody) ++ rest))) =
          some (elseBody, rest) := by
      rw [elseBranch, bind_some (string_append _ _), bind_some (line_block_run _ _)]
      exact block_reads eachElse rest
    rw [spelled, reader_eq]
    apply or_some
    rw [ifExpr, bind_some (string_append _ _), bind_some (spacing.space_run _),
      bind_some (isCondition.reads _ behind), bind_some (line_block_run _ _), bind_some (block_reads each _),
      bind_some between, bind_some (option_some other)]
    rfl
  · exact fun impossible => impossible.elim

end Forms

section Tuples

variable {input rest : Bytes}

private theorem comma_some {middle : Bytes} (run : comma input = some (⟨⟩, middle)) :
    ∃ before tail, input = before ++ 44 :: tail ∧ ∀ c ∈ before, c ≤ 32 := by
  rw [comma, bind_some (skipWhitespace_eq input)] at run
  obtain ⟨⟨⟩, after, found, -⟩ := bind_eq_some run
  cases split : input.dropWhile Chomp.isWhitespace with
  | nil =>
    rw [split] at found
    cases found
  | cons c tail =>
    rw [split, Chomp.token_eq, token] at found
    split at found
    next same =>
      refine ⟨input.takeWhile Chomp.isWhitespace, tail, ?_, fun d member => ?_⟩
      · rw [← same, ← split, List.takeWhile_append_dropWhile]
      · exact Ascii.whitespace_le d (List.all_eq_true.mp List.all_takeWhile d member)
    next => cases found

/-- What follows a name that is followed by more names and a closing parenthesis. -/
private theorem names_end {count : ℕ} {args : List Name} {middle : Bytes}
    (run : sepByMore argument comma count input = some (args, 41 :: middle)) : Ends input := by
  cases count with
  | zero =>
    cases run
    exact closer_ends_now (by decide) middle
  | succ count =>
    obtain run | ⟨-, run⟩ := or_eq_some run
    · obtain ⟨⟨⟩, after, skipped, -⟩ := bind_eq_some run
      obtain ⟨before, tail, rfl, small⟩ := comma_some skipped
      exact ends_closer small (by decide) tail
    · cases run
      exact closer_ends_now (by decide) middle

/-- A value and the values behind it. -/
def valueThen {α : Type} (parser : Parser UInt8 α) (count : ℕ) : Parser UInt8 (List α) := do
  let value ← parser
  let values ← sepByMore parser comma count
  return value :: values

/-- Names are read as expressions up to the same closing parenthesis. -/
private theorem valueThen_sync {count : ℕ} {args : List Name} {elems : List Expr} {middle middle' : Bytes}
    (same : ∀ input args elems, sepByMore argument comma count input = some (args, 41 :: middle) →
      sepByMore reader comma count input = some (elems, 41 :: middle') → middle = middle')
    (names : valueThen argument count input = some (args, 41 :: middle))
    (exprs : valueThen reader count input = some (elems, 41 :: middle')) : middle = middle' := by
  obtain ⟨name, after, named, names⟩ := bind_eq_some names
  obtain ⟨args', left, moreNames, done⟩ := bind_eq_some names
  cases done
  obtain ⟨e, after', reads, exprs⟩ := bind_eq_some exprs
  obtain ⟨elems', left, moreExprs, done⟩ := bind_eq_some exprs
  cases done
  obtain ⟨isName, rfl, stops⟩ := identOf_some named
  rw [reader_word isName (names_end moreNames)] at reads
  obtain reads | ⟨-, reads⟩ := or_eq_some reads
  · obtain ⟨more, leaves, rfl⟩ := values_run stops reads
    cases more with
    | nil => exact same after args' elems' moreNames moreExprs
    | cons c more =>
      -- A value leaves the end of the name, and no comma is there.
      have word := leaves.more_word isName c List.mem_cons_self
      have notComma : comma (c :: more ++ after) = none := by
        apply comma_none
        rw [List.cons_append, dropWhile_visible (identifierByte_visible word)]
        rintro ⟨rfl⟩
        exact Bool.noConfusion word
      cases count with
      | zero =>
        cases moreExprs
        exact Bool.noConfusion word
      | succ count =>
        cases (option_none (bind_none notComma)).symm.trans moreExprs
        exact Bool.noConfusion word
  · have read : ident (name ++ after) = some (.ident name, after) := bind_some (identifier_run isName stops)
    cases (or_some read).symm.trans reads
    exact same after args' elems' moreNames moreExprs

private theorem sepByMore_sync (count : ℕ) {middle middle' : Bytes} (input : Bytes) (args : List Name) (elems : List Expr)
    (names : sepByMore argument comma count input = some (args, 41 :: middle))
    (exprs : sepByMore reader comma count input = some (elems, 41 :: middle')) : middle = middle' := by
  have closing (tail : Bytes) : comma (41 :: tail) = none := comma_closer_none (by decide) (by decide)
  induction count generalizing input args elems with
  | zero =>
    cases names
    cases exprs
    rfl
  | succ count ih =>
    obtain names | ⟨-, names⟩ := or_eq_some names
    · obtain ⟨⟨⟩, after, skipped, names⟩ := bind_eq_some names
      obtain exprs | ⟨-, exprs⟩ := or_eq_some exprs
      · rw [bind_some skipped] at exprs
        exact valueThen_sync ih names exprs
      · cases exprs
        rw [closing] at skipped
        cases skipped
    · cases names
      obtain exprs | ⟨-, exprs⟩ := or_eq_some exprs
      · rw [bind_none (closing middle)] at exprs
        cases exprs
      · cases exprs
        rfl

/-- The parameters of an anonymous function stop where a tuple of expressions does. -/
private theorem sepBy_sync {args : List Name} {elems : List Expr} {middle middle' : Bytes}
    (names : Chomp.sepBy argument comma input = some (args, 41 :: middle))
    (exprs : Chomp.sepBy reader comma input = some (elems, 41 :: middle')) : middle = middle' := by
  obtain names | ⟨-, names⟩ := or_eq_some names
  · obtain exprs | ⟨noExprs, exprs⟩ := or_eq_some exprs
    · exact valueThen_sync (sepByMore_sync input.length) names exprs
    · cases exprs
      obtain ⟨name, after, named, -⟩ := bind_eq_some names
      rw [argument, identifier, (identOf_starts isLowercase).cons (by decide)] at named
      cases named
  · cases names
    have none : Chomp.sepBy reader comma (41 :: middle) = some ([], 41 :: middle) :=
      option_none (bind_none (reader_starts.cons (by decide) middle))
    cases none.symm.trans exprs
    rfl

private theorem readable_tuple {elems : List Expr} (each : ∀ e ∈ elems, Readable spacing e) :
    Readable spacing (.tuple elems) := by
  constructor
  · intro rest ends
    have spelled : spacing.exprText (.tuple elems) ++ rest = 40 :: (spacing.commas (spacing.exprTexts elems) ++ 41 ::
      rest) := by
      simp [Spacing.exprText]
    have exprs := @elems_read _ spacing 41 elems each (by decide) (by decide) rest
    have notAnonFn : anonFn reader (40 :: (spacing.commas (spacing.exprTexts elems) ++ 41 :: rest)) =
      none := by
      rw [anonFn, bind_some (token_self 40 _)]
      cases names : Chomp.sepBy argument comma (spacing.commas (spacing.exprTexts elems) ++ 41 :: rest) with
      | none => exact bind_none names
      | some done =>
        obtain ⟨args, after⟩ := done
        rw [bind_some names]
        cases after with
        | nil => rfl
        | cons c middle =>
          by_cases closes : c = 41
          · subst closes
            obtain rfl := sepBy_sync names exprs
            rw [bind_some (token_self 41 middle)]
            cases middle with
            | nil => rfl
            | cons d tail =>
              cases blank : Chomp.isWhitespace d with
              | false => exact bind_none (satisfy_cons_none blank)
              | true =>
                have run : Chomp.satisfy Chomp.isWhitespace (d :: tail) = some (d, tail) := if_pos blank
                have arrow := ends.noArrow
                rw [List.dropWhile_cons_of_pos blank] at arrow
                rw [bind_some run, bind_some (skipWhitespace_eq tail)]
                exact bind_none (string_head_ne arrow)
          · exact bind_none (token_ne fun head => closes (Option.some.inj head))
    rw [spelled, reader_eq, alternatives_paren]
    apply (or_none notAnonFn).trans
    rw [tuple, bind_some (token_self 40 _), bind_some exprs, bind_some (token_self 41 rest)]
    rfl
  · exact fun impossible => impossible.elim

private theorem readable_anonFn {args : List Name} {body : List Expr} (names : ∀ arg ∈ args, IsWord isLowercase arg)
    (each : ∀ e ∈ body, Readable spacing e) : Readable spacing (.anonFn args body) := by
  constructor
  · intro rest ends
    have spelled : spacing.exprText (.anonFn args body) ++ rest = 40 :: (spacing.commas args ++ 41 :: (spacing.space ::
        (bytes "=>" ++ (spacing.gap ++ (spacing.blockText (spacing.exprTexts body) ++ rest))))) := by
      simp [Spacing.exprText]
    have arrow := @skipWhitespace_none _
      (bytes "=>" ++ (spacing.gap ++ (spacing.blockText (spacing.exprTexts body) ++ rest)))
      (by rintro c ⟨rfl⟩; exact Ascii.space_lt (by decide))
    have braces := @Spacing.gap_run _ spacing (spacing.blockText (spacing.exprTexts body) ++ rest)
      (closer_visible (by decide))
    rw [spelled, reader_eq, alternatives_paren]
    apply or_some
    rw [anonFn, bind_some (token_self 40 _), bind_some (names_read names _), bind_some (token_self 41 _),
      bind_some (spacing.space_run _), bind_some arrow, bind_some (string_append _ _), bind_some braces,
      bind_some (block_reads each rest)]
    rfl
  · exact fun impossible => impossible.elim

end Tuples

/-- What can be written can be read. -/
theorem Writable.readable {e : Expr} (writable : Writable e) : Readable spacing e := by
  induction writable with
  | int some' digits => exact readable_int some' digits
  | true => exact readable_true
  | false => exact readable_false
  | nil => exact readable_nil
  | «let» isName _ value => exact readable_let isName value
  | ident isName plain => exact readable_ident isName plain
  | call isModule isName _ each => exact readable_call isModule isName each
  | unary _ argument => exact readable_unary argument
  | operation member isOperand writable _ left right => exact readable_infix writable isOperand member left right
  | «if» _ _ _ isCondition each eachElse => exact readable_if isCondition each eachElse
  | tuple _ each => exact readable_tuple each
  | list _ each => exact readable_list each
  | str inside noNewline noTab => exact readable_str inside noNewline noTab
  | capture isModule isName digit => exact readable_capture isModule isName digit
  | anonFn names _ each => exact readable_anonFn names each

end Owl.Grammar
