import Owl.Model.Compiler.Parser

/-! # Reading expressions

What each rule can start with, that fuel beyond the length of the input changes nothing, and how the
rules for single words run.
-/

namespace Owl.Grammar

open Owl.Compiler Parser

section Combinators

variable [Chomp] {α : Type} {parser first second : Parser UInt8 α} {input rest text taken : Bytes} {a : α} {c : UInt8}
  {p : UInt8 → Bool}

theorem or_some (done : first input = some (a, rest)) : Chomp.or first second input = some (a, rest) := by
  rw [Chomp.or_eq]
  exact Parser.or_some done

theorem or_none (failed : first input = none) : Chomp.or first second input = second input := by
  rw [Chomp.or_eq]
  exact Parser.or_none failed

theorem option_none {default : α} (failed : parser input = none) :
    Chomp.option parser default input = some (default, input) := by
  rw [Chomp.option_eq]
  exact Parser.option_none failed

theorem token_self (c : UInt8) (rest : Bytes) : Chomp.token c (c :: rest) = some (⟨⟩, rest) := by
  rw [Chomp.token_eq]
  exact Parser.token_self c rest

theorem token_ne (differs : input.head? ≠ some c) : Chomp.token c input = none := by
  rw [Chomp.token_eq]
  exact Parser.token_ne differs

theorem string_append (text rest : Bytes) : Chomp.string text (text ++ rest) = some (text, rest) := by
  rw [Chomp.string_eq]
  exact Parser.string_append text rest

theorem string_none (differs : ¬ text <+: input) : Chomp.string text input = none := by
  rw [Chomp.string_eq]
  exact Parser.string_none differs

theorem takeWhile_append (all : ∀ d ∈ taken, p d) (stops : ∀ d ∈ rest.head?, p d = false) :
    Chomp.takeWhile p (taken ++ rest) = some (taken, rest) := by
  rw [Chomp.takeWhile_eq]
  exact Parser.takeWhile_append all stops

theorem takeWhile1_append (some' : taken ≠ []) (all : ∀ d ∈ taken, p d) (stops : ∀ d ∈ rest.head?, p d = false) :
    Chomp.takeWhile1 p (taken ++ rest) = some (taken, rest) := by
  rw [Chomp.takeWhile1_eq]
  exact Parser.takeWhile1_append some' all stops

theorem satisfy_cons_none (fails : p c = false) : Chomp.satisfy p (c :: rest) = none := by
  rw [Chomp.satisfy_eq]
  exact Parser.satisfy_cons_none fails

end Combinators

variable [Ascii]

section FirstCharacters

variable (expr : Parser UInt8 Expr)

theorem identOf_starts (first : UInt8 → Bool) : Starts (first · = true) (identOf first) := by
  intro input other
  cases input with
  | nil => rfl
  | cons c rest =>
    have run : Chomp.peekNext (c :: rest) = some (c, c :: rest) := rfl
    rw [identOf, bind_some run, if_neg (other c rfl)]
    rfl

theorem modulePrefix_starts : Starts (isUppercase · = true) modulePrefix := (identOf_starts _).bind

theorem str_starts : Starts (· = 34) str := (Starts.token 34).bind

theorem bool_starts : Starts (fun c => c = 116 ∨ c = 102) bool :=
  .or ((Starts.string 116 _).bind.mono fun _ => Or.inl) ((Starts.string 102 _).bind.mono fun _ => Or.inr)

theorem nil_starts : Starts (· = 110) nil := (Starts.string 110 _).bind

theorem ident_starts : Starts (isLowercase · = true) ident := (identOf_starts _).bind

theorem int_starts : Starts (isDigit · = true) int := (Starts.takeWhile1 isDigit).bind

theorem capture_starts : Starts (fun c => isUppercase c ∨ isLowercase c) capture :=
  (modulePrefix_starts.mono fun _ => Or.inl).option_bind none fun _ => ((identOf_starts _).mono fun _ => Or.inr).bind

theorem ifExpr_starts : Starts (· = 105) (ifExpr expr) := (Starts.string 105 _).bind

theorem letExpr_starts : Starts (· = 108) (letExpr expr) := (Starts.string 108 _).bind

theorem anonFn_starts : Starts (· = 40) (anonFn expr) := (Starts.token 40).bind

theorem apply_starts : Starts (fun c => isUppercase c ∨ isLowercase c) (apply expr) :=
  (modulePrefix_starts.mono fun _ => Or.inl).option_bind none fun _ => ((identOf_starts _).mono fun _ => Or.inr).bind

theorem unary_starts : Starts (· = 33) (unary expr) := (Starts.string 33 _).bind

theorem tuple_starts : Starts (· = 40) (tuple expr) := (Starts.token 40).bind

theorem list_starts : Starts (· = 91) (list expr) := (Starts.token 91).bind

/-- The characters an operand can start with. -/
def OperandStart (c : UInt8) : Prop := c = 34 ∨ c = 91 ∨ isDigit c ∨ isUppercase c ∨ isLowercase c

theorem operand_starts : Starts OperandStart (operand expr) := by
  have lower : ∀ c, isLowercase c → OperandStart c := fun c small => .inr (.inr (.inr (.inr small)))
  refine .or (str_starts.mono fun _ => Or.inl) <| .or ((list_starts expr).mono fun _ found => .inr (.inl found)) <|
    .or (int_starts.mono fun _ digit => .inr (.inr (.inl digit))) <| .or (nil_starts.mono ?_) <|
    .or (bool_starts.mono ?_) <| .or ((apply_starts expr).mono fun _ letter => .inr (.inr (.inr letter))) <|
    ident_starts.mono lower
  · rintro c rfl
    exact lower _ (by decide)
  · rintro c (rfl | rfl) <;> exact lower _ (by decide)

/-- The characters an expression can start with. -/
def ExprStart (c : UInt8) : Prop := OperandStart c ∨ c = 40 ∨ c = 33

private theorem alternatives_starts : Starts ExprStart (alternatives expr) := by
  have lower : ∀ c, isLowercase c → ExprStart c := fun c small => .inl (.inr (.inr (.inr (.inr small))))
  have letter : ∀ c, isUppercase c ∨ isLowercase c → ExprStart c := fun c found => .inl (.inr (.inr (.inr found)))
  refine .or ((ifExpr_starts expr).mono ?_) <| .or ((letExpr_starts expr).mono ?_) <|
    .or ((operand_starts expr).bind.mono fun _ => Or.inl) <|
    .or ((anonFn_starts expr).mono fun _ found => .inr (.inl found)) <|
    .or (str_starts.mono fun _ found => .inl (.inl found)) <| .or ((apply_starts expr).mono letter) <|
    .or (capture_starts.mono letter) <| .or ((unary_starts expr).mono fun _ found => .inr (.inr found)) <|
    .or ((tuple_starts expr).mono fun _ found => .inr (.inl found)) <|
    .or ((list_starts expr).mono fun _ found => .inl (.inr (.inl found))) <| .or (nil_starts.mono ?_) <|
    .or (bool_starts.mono ?_) <| .or (ident_starts.mono lower) <|
    int_starts.mono fun _ digit => .inl (.inr (.inr (.inl digit)))
  · rintro c rfl
    exact lower _ (by decide)
  · rintro c rfl
    exact lower _ (by decide)
  · rintro c rfl
    exact lower _ (by decide)
  · rintro c (rfl | rfl) <;> exact lower _ (by decide)

end FirstCharacters

theorem expr_starts (fuel : ℕ) : Starts ExprStart (expr fuel) := by
  cases fuel with
  | zero => exact fun _ _ => rfl
  | succ fuel => exact alternatives_starts _

section Fuel

theorem skipWhitespace_shrinks : Shrinks skipWhitespace :=
  AgreeBelow.shrinks fun _ => .bind (Shrinks.takeWhile _).agree fun _ => .pure _

theorem skipNewlineAndWhitespace_shrinks : Shrinks skipNewlineAndWhitespace :=
  AgreeBelow.shrinks fun _ => .bind (Shrinks.takeWhile _).agree fun _ => .pure _

theorem comma_shrinks : Shrinks comma :=
  AgreeBelow.shrinks fun _ => .bind skipWhitespace_shrinks.agree fun _ =>
    .bind (Consumes.token 44).shrinks.agree fun _ => skipWhitespace_shrinks.agree

theorem identOf_consumes (first : UInt8 → Bool) : Consumes (identOf first) := by
  intro input a rest run
  obtain ⟨c, middle, peeked, run⟩ := bind_eq_some run
  cases input with
  | nil => cases peeked
  | cons c input =>
    cases peeked
    split at run
    · exact Consumes.takeWhile1 isIdentifierByte _ _ _ run
    · cases run

theorem identifier_shrinks : Shrinks identifier := (identOf_consumes _).shrinks

private theorem modulePrefix_shrinks : Shrinks modulePrefix :=
  AgreeBelow.shrinks fun _ => .bind (identOf_consumes _).shrinks.agree fun _ =>
    .bind (Consumes.string 46 []).shrinks.agree fun _ => .pure _

private theorem str_shrinks : Shrinks str :=
  AgreeBelow.shrinks fun _ => .bind (Consumes.token 34).shrinks.agree fun _ =>
    .bind (.or (.bind (Consumes.string 92 _).shrinks.agree fun _ => .pure _) <|
      .or (.bind (Consumes.string 92 _).shrinks.agree fun _ => .pure _) (Shrinks.takeWhile _).agree) fun _ =>
    .bind (Consumes.token 34).shrinks.agree fun _ => .pure _

private theorem bool_shrinks : Shrinks bool :=
  AgreeBelow.shrinks fun _ => .or (.bind (Consumes.string 116 _).shrinks.agree fun _ => .pure _)
    (.bind (Consumes.string 102 _).shrinks.agree fun _ => .pure _)

private theorem nil_shrinks : Shrinks nil :=
  AgreeBelow.shrinks fun _ => .bind (Consumes.string 110 _).shrinks.agree fun _ => .pure _

private theorem ident_shrinks : Shrinks ident :=
  AgreeBelow.shrinks fun _ => .bind identifier_shrinks.agree fun _ => .pure _

private theorem int_shrinks : Shrinks int :=
  AgreeBelow.shrinks fun _ => .bind (Consumes.takeWhile1 _).shrinks.agree fun _ => .pure _

private theorem capture_shrinks : Shrinks capture :=
  AgreeBelow.shrinks fun _ => .bind (modulePrefix_shrinks.agree.option none) fun _ =>
    .bind identifier_shrinks.agree fun _ => .bind (Consumes.token 92).shrinks.agree fun _ =>
    .bind (.bind (Consumes.satisfy isDigit).shrinks.agree fun _ => .pure _) fun _ => .pure _

private theorem infixOp_consumes : Consumes infixOp := by
  refine .or (.string 43 _) <| .or (.string 43 _) <| .or (.string 45 _) <| .or (.string 61 _) <|
    .or (.string 33 _) <| .or (.string 62 _) <| .or (.string 62 _) <| .or (.string 60 _) <| .or (.string 60 _) <|
    .or (.string 38 _) <| .or (.string 124 _) ?_
  intro input a rest run
  cases run

variable {bound : ℕ} {short long : Parser UInt8 Expr}

theorem block_agree (agree : AgreeBelow bound short long) :
    AgreeBelow bound (block short) (block long) :=
  .bind (Consumes.token 123).shrinks.agree fun _ => .bind skipNewlineAndWhitespace_shrinks.agree fun _ =>
    .bind (agree.sepBy skipNewlineAndWhitespace_shrinks) fun _ =>
    .bind skipNewlineAndWhitespace_shrinks.agree fun _ =>
    .bind (Consumes.token 125).shrinks.agree fun _ => .pure _

private theorem ifExpr_agree (agree : AgreeBelow bound short long) :
    AgreeBelow (bound + 1) (ifExpr short) (ifExpr long) :=
  .bind_consumes (Consumes.string 105 _) fun _ => .bind (Consumes.satisfy _).shrinks.agree fun _ =>
    .bind agree fun _ => .bind skipNewlineAndWhitespace_shrinks.agree fun _ => .bind (block_agree agree) fun _ =>
    .bind skipNewlineAndWhitespace_shrinks.agree fun _ =>
    .bind (.option (.bind (Consumes.string 101 _).shrinks.agree fun _ =>
      .bind skipNewlineAndWhitespace_shrinks.agree fun _ => block_agree agree) []) fun _ => .pure _

private theorem letExpr_agree (agree : AgreeBelow bound short long) :
    AgreeBelow (bound + 1) (letExpr short) (letExpr long) :=
  .bind_consumes (Consumes.string 108 _) fun _ => .bind (Consumes.satisfy _).shrinks.agree fun _ =>
    .bind identifier_shrinks.agree fun _ => .bind skipWhitespace_shrinks.agree fun _ =>
    .bind (Consumes.token 61).shrinks.agree fun _ => .bind skipWhitespace_shrinks.agree fun _ =>
    .bind agree fun _ => .pure _

private theorem anonFn_agree (agree : AgreeBelow bound short long) :
    AgreeBelow (bound + 1) (anonFn short) (anonFn long) :=
  .bind_consumes (Consumes.token 40) fun _ =>
    .bind (AgreeBelow.sepBy identifier_shrinks.agree comma_shrinks) fun _ =>
    .bind (Consumes.token 41).shrinks.agree fun _ => .bind (Consumes.satisfy _).shrinks.agree fun _ =>
    .bind skipWhitespace_shrinks.agree fun _ => .bind (Consumes.string 61 _).shrinks.agree fun _ =>
    .bind skipWhitespace_shrinks.agree fun _ => .bind (block_agree agree) fun _ => .pure _

private theorem apply_agree (agree : AgreeBelow bound short long) :
    AgreeBelow (bound + 1) (apply short) (apply long) :=
  .bind (modulePrefix_shrinks.agree.option none) fun _ => .bind_consumes (identOf_consumes _) fun _ =>
    .bind (Consumes.token 40).shrinks.agree fun _ => .bind skipWhitespace_shrinks.agree fun _ =>
    .bind (agree.sepBy comma_shrinks) fun _ => .bind skipWhitespace_shrinks.agree fun _ =>
    .bind (Consumes.token 41).shrinks.agree fun _ => .pure _

private theorem unary_agree (agree : AgreeBelow bound short long) : AgreeBelow (bound + 1) (unary short) (unary long) :=
  .bind_consumes (Consumes.string 33 _) fun _ => .bind agree fun _ => .pure _

private theorem tuple_agree (agree : AgreeBelow bound short long) :
    AgreeBelow (bound + 1) (tuple short) (tuple long) :=
  .bind_consumes (Consumes.token 40) fun _ => .bind (agree.sepBy comma_shrinks) fun _ =>
    .bind (Consumes.token 41).shrinks.agree fun _ => .pure _

private theorem list_agree (agree : AgreeBelow bound short long) :
    AgreeBelow (bound + 1) (list short) (list long) :=
  .bind_consumes (Consumes.token 91) fun _ => .bind (agree.sepBy comma_shrinks) fun _ =>
    .bind (Consumes.token 93).shrinks.agree fun _ => .pure _

private theorem operand_agree (agree : AgreeBelow bound short long) :
    AgreeBelow (bound + 1) (operand short) (operand long) :=
  .or str_shrinks.agree <| .or (list_agree agree) <| .or int_shrinks.agree <| .or nil_shrinks.agree <|
    .or bool_shrinks.agree <| .or (apply_agree agree) ident_shrinks.agree

private theorem infixExpr_agree (agree : AgreeBelow bound short long) :
    AgreeBelow (bound + 1) (infixExpr short) (infixExpr long) :=
  .bind (operand_agree agree) fun _ => .bind skipWhitespace_shrinks.agree fun _ =>
    .bind_consumes infixOp_consumes fun _ => .bind skipWhitespace_shrinks.agree fun _ =>
    .bind agree fun _ => .pure _

theorem alternatives_agree (agree : AgreeBelow bound short long) :
    AgreeBelow (bound + 1) (alternatives short) (alternatives long) :=
  .or (ifExpr_agree agree) <| .or (letExpr_agree agree) <| .or (infixExpr_agree agree) <|
    .or (anonFn_agree agree) <| .or str_shrinks.agree <| .or (apply_agree agree) <| .or capture_shrinks.agree <|
    .or (unary_agree agree) <| .or (tuple_agree agree) <| .or (list_agree agree) <| .or nil_shrinks.agree <|
    .or bool_shrinks.agree <| .or ident_shrinks.agree int_shrinks.agree

/-- Two amounts of fuel beyond the length of the input read the same expression. -/
theorem expr_agree {bound few many : ℕ} (fewEnough : bound ≤ few) (manyEnough : bound ≤ many) :
    AgreeBelow bound (expr few) (expr many) := by
  induction bound generalizing few many with
  | zero => exact fun input impossible => absurd impossible (Nat.not_lt_zero _)
  | succ bound ih =>
    obtain ⟨few, rfl⟩ := Nat.exists_eq_succ_of_ne_zero (Nat.ne_zero_of_lt fewEnough)
    obtain ⟨many, rfl⟩ := Nat.exists_eq_succ_of_ne_zero (Nat.ne_zero_of_lt manyEnough)
    exact alternatives_agree (ih (Nat.le_of_succ_le_succ fewEnough) (Nat.le_of_succ_le_succ manyEnough))

theorem expr_enough {fuel : ℕ} {input : Bytes} (enough : input.length < fuel) :
    expr fuel input = expr (input.length + 1) input :=
  (expr_agree enough le_rfl input (Nat.lt_succ_self _)).1

end Fuel

section Words

variable {name before digits rest : Bytes}

theorem Ascii.space_lt {c : UInt8} (visible : 32 < c) : Chomp.isWhitespace c = false :=
  Bool.eq_false_iff.mpr fun space => absurd (Ascii.whitespace_le c space) (UInt8.not_le.mpr visible)

omit [Ascii] in
theorem identifierByte_visible {c : UInt8} (found : isIdentifierByte c) : 32 < c := by
  simp only [isIdentifierByte, isLowercase, Bool.or_eq_true, Bool.and_eq_true, decide_eq_true_eq,
    UInt8.le_iff_toNat_le] at found
  rw [UInt8.lt_iff_toNat_lt]
  obtain (((⟨large, -⟩ | ⟨large, -⟩) | ⟨large, -⟩) | rfl) | rfl := found
  · exact lt_of_lt_of_le (by decide) large
  · exact lt_of_lt_of_le (by decide) large
  · exact lt_of_lt_of_le (by decide) large
  · decide
  · decide

theorem skipWhitespace_run (space : ∀ c ∈ before, Chomp.isWhitespace c)
    (stops : ∀ c ∈ rest.head?, Chomp.isWhitespace c = false) :
    skipWhitespace (before ++ rest) = some (⟨⟩, rest) :=
  bind_some (takeWhile_append space stops)

theorem skipWhitespace_none (stops : ∀ c ∈ rest.head?, Chomp.isWhitespace c = false) :
    skipWhitespace rest = some (⟨⟩, rest) := by
  have run := skipWhitespace_run (List.forall_mem_nil _) stops
  rwa [List.nil_append] at run

theorem identifier_run (isName : IsIdentifier name) (stops : ∀ c ∈ rest.head?, isIdentifierByte c = false) :
    identifier (name ++ rest) = some (name, rest) := by
  obtain ⟨⟨first, head, lower⟩, all⟩ := isName
  obtain ⟨tail, rfl⟩ := List.head?_eq_some_iff.mp head
  have peeked : Chomp.peekNext (first :: tail ++ rest) = some (first, first :: tail ++ rest) := rfl
  rw [identifier, identOf, bind_some peeked, if_pos lower]
  exact takeWhile1_append (List.cons_ne_nil _ _) all stops

theorem int_run (some' : digits ≠ []) (all : ∀ c ∈ digits, isDigit c) (stops : ∀ c ∈ rest.head?, isDigit c = false) :
    int (digits ++ rest) = some (.int digits, rest) :=
  bind_some (takeWhile1_append some' all stops)

/-- The characters an operator can start with. -/
def OperatorStart (c : UInt8) : Prop := c ∈ ([43, 45, 61, 33, 62, 60, 38, 124] : List UInt8)

instance (c : UInt8) : Decidable (OperatorStart c) := inferInstanceAs (Decidable (_ ∈ _))

omit [Ascii] in
theorem operator_head (op : Bytes) (member : op ∈ operators) : ∃ c ∈ op.head?, OperatorStart c := by
  have found : (operators.all fun text => text.head?.any fun c => decide (OperatorStart c)) = true := by decide
  obtain ⟨c, head, start⟩ := (Option.any_eq_true _ _).mp (List.all_eq_true.mp found op member)
  exact ⟨c, head, of_decide_eq_true start⟩

theorem infixOp_starts : Starts OperatorStart infixOp := .oneOf operator_head

omit [Ascii] in
theorem operators_eq : operators =
    [[43, 43], [43], [45], [61, 61], [33, 61], [62, 61], [62], [60, 61], [60], [38, 38], [124, 124]] := rfl

/-- An operator is read whole where the next character does not make it a longer one. -/
private theorem infixOp_run {op : Bytes} (member : op ∈ operators) (stops : ∀ c ∈ rest.head?, c ≠ 43 ∧ c ≠ 61) :
    infixOp (op ++ rest) = some (op, rest) := by
  simp only [operators_eq, List.mem_cons, List.not_mem_nil, or_false] at member
  rcases member with rfl | rfl | rfl | rfl | rfl | rfl | rfl | rfl | rfl | rfl | rfl
  all_goals
    cases rest with
    | nil => rfl
    | cons c rest =>
      obtain ⟨notPlus, notEqual⟩ := stops c rfl
      change oneOf operators _ = _
      simp [operators_eq, oneOf, Parser.or, Parser.string, notPlus.symm, notEqual.symm]

end Words

section Alternatives

variable {expr : Parser UInt8 Expr} {name word rest : Bytes} {c : UInt8}

omit [Ascii] in
theorem lowercase_ne {d : UInt8} (lower : isLowercase c) (other : isLowercase d = false) : c ≠ d := by
  rintro rfl
  exact absurd lower (Bool.eq_false_iff.mp other)

omit [Ascii] in
private theorem lowercase_not {kind : UInt8 → Bool} (lower : isLowercase c) (other : ∀ d, kind d → isLowercase d = false) :
    ¬ kind c = true :=
  fun found => absurd lower (Bool.eq_false_iff.mp (other c found))

omit [Ascii] in
theorem not_lowercase_of_uppercase (c : UInt8) (upper : isUppercase c) : isLowercase c = false := by
  simp only [isUppercase, Bool.and_eq_true, decide_eq_true_eq, UInt8.le_iff_toNat_le] at upper
  simp only [isLowercase, Bool.and_eq_false_iff, decide_eq_false_iff_not, UInt8.le_iff_toNat_le]
  exact .inl (by have := upper.2; change _ ≤ 90 at this; change ¬ 97 ≤ _; omega)

omit [Ascii] in
theorem not_lowercase_of_digit (c : UInt8) (digit : isDigit c) : isLowercase c = false := by
  simp only [isDigit, Bool.and_eq_true, decide_eq_true_eq, UInt8.le_iff_toNat_le] at digit
  simp only [isLowercase, Bool.and_eq_false_iff, decide_eq_false_iff_not, UInt8.le_iff_toNat_le]
  exact .inl (by have := digit.2; change _ ≤ 57 at this; change ¬ 97 ≤ _; omega)

/-- A name is no module. -/
theorem noModule_run (isName : IsIdentifier name) (rest : Bytes) :
    Chomp.option modulePrefix none (name ++ rest) = some (none, name ++ rest) := by
  obtain ⟨⟨first, head, lower⟩, -⟩ := isName
  obtain ⟨tail, rfl⟩ := List.head?_eq_some_iff.mp head
  exact option_none (modulePrefix_starts.cons (lowercase_not lower not_lowercase_of_uppercase) _)

theorem apply_none (isName : IsIdentifier name) (stops : ∀ c ∈ rest.head?, isIdentifierByte c = false ∧ c ≠ 40) :
    apply expr (name ++ rest) = none := by
  rw [apply, bind_some (noModule_run isName rest),
    bind_some (identifier_run isName fun c head => (stops c head).1)]
  exact bind_none ((Starts.token 40) _ fun c head => (stops c head).2)

theorem capture_none (isName : IsIdentifier name) (stops : ∀ c ∈ rest.head?, isIdentifierByte c = false ∧ c ≠ 92) :
    capture (name ++ rest) = none := by
  rw [capture, bind_some (noModule_run isName rest),
    bind_some (identifier_run isName fun c head => (stops c head).1)]
  exact bind_none ((Starts.token 92) _ fun c head => (stops c head).2)

/-- A keyword is not read where a longer name starts. -/
theorem keyword_none {α : Type} {next : Bytes → UInt8 → Parser UInt8 α} (isWord : ∀ c ∈ word, isIdentifierByte c)
    (isName : IsIdentifier name) (differs : name ≠ word) (stops : ∀ c ∈ rest.head?, isIdentifierByte c = false) :
    (Chomp.string word >>= fun text => Chomp.satisfy Chomp.isWhitespace >>= next text) (name ++ rest) = none := by
  by_cases found : word <+: name
  · obtain ⟨tail, rfl⟩ := found
    rw [List.append_assoc, bind_some (string_append word _)]
    cases tail with
    | nil => exact absurd (List.append_nil word) differs
    | cons c tail =>
      have visible : 32 < c := identifierByte_visible (isName.2 c (by simp))
      exact bind_none (satisfy_cons_none (Ascii.space_lt visible))
  · exact bind_none (string_none (mt (prefix_of_prefix_append isWord stops) found))

theorem operand_lower (lower : isLowercase c) (rest : Bytes) :
    operand expr (c :: rest) =
      (nil.or <| bool.or <| (apply expr).or ident) (c :: rest) := by
  have notStr := str_starts.cons (lowercase_ne lower (show isLowercase 34 = false from rfl)) rest
  have notList := (@list_starts _ expr).cons (lowercase_ne lower (show isLowercase 91 = false from rfl)) rest
  have notInt := int_starts.cons (lowercase_not lower not_lowercase_of_digit) rest
  exact (or_none notStr).trans <| (or_none notList).trans <| or_none notInt

/-- Where a lower-case word is neither the start of a form nor a call, it is one of the last alternatives. -/
theorem alternatives_lower (lower : isLowercase c) (notIf : ifExpr expr (c :: rest) = none)
    (notLet : letExpr expr (c :: rest) = none) (notInfix : infixExpr expr (c :: rest) = none)
    (notApply : apply expr (c :: rest) = none) (notCapture : capture (c :: rest) = none) :
    alternatives expr (c :: rest) = (nil.or <| bool.or <| ident.or int) (c :: rest) := by
  have notAnonFn := (@anonFn_starts _ expr).cons (lowercase_ne lower (show isLowercase 40 = false from rfl)) rest
  have notStr := str_starts.cons (lowercase_ne lower (show isLowercase 34 = false from rfl)) rest
  have notUnary := (unary_starts expr).cons (lowercase_ne lower (show isLowercase 33 = false from rfl)) rest
  have notTuple := (@tuple_starts _ expr).cons (lowercase_ne lower (show isLowercase 40 = false from rfl)) rest
  have notList := (@list_starts _ expr).cons (lowercase_ne lower (show isLowercase 91 = false from rfl)) rest
  calc alternatives expr (c :: rest)
    _ = _ := (or_none notIf).trans <| (or_none notLet).trans <| or_none notInfix
    _ = _ := (or_none notAnonFn).trans <| (or_none notStr).trans <| or_none notApply
    _ = _ := (or_none notCapture).trans <| (or_none notUnary).trans <| or_none notTuple
    _ = _ := or_none notList

omit [Ascii] in
theorem exprStart_visible (start : ExprStart c) : 32 < c ∧ c ≠ 43 ∧ c ≠ 61 := by
  simp only [ExprStart, OperandStart, isDigit, isUppercase, isLowercase, Bool.and_eq_true, decide_eq_true_eq,
    UInt8.le_iff_toNat_le, ← UInt8.toNat_inj, UInt8.lt_iff_toNat_lt, UInt8.reduceToNat, ne_eq] at start ⊢
  omega

omit [Ascii] in
theorem operatorStart_ends (start : OperatorStart c) : 32 < c ∧ isIdentifierByte c = false ∧ c ≠ 40 ∧ c ≠ 92 := by
  simp only [OperatorStart, List.mem_cons, List.not_mem_nil, or_false] at start
  rcases start with rfl | rfl | rfl | rfl | rfl | rfl | rfl | rfl <;> decide

/-- What follows white space and an operator is no part of a word. -/
theorem behind_operator {before op : Bytes} (blank : Blank before) (member : op ∈ operators) :
    ∀ c ∈ (before ++ op ++ rest).head?, isIdentifierByte c = false ∧ c ≠ 40 ∧ c ≠ 92 := by
  intro c head
  cases before with
  | nil =>
    obtain ⟨d, opHead, start⟩ := operator_head op member
    obtain ⟨tail, rfl⟩ := List.head?_eq_some_iff.mp opHead
    cases head
    exact (operatorStart_ends start).2
  | cons d before =>
    cases head
    have small := Ascii.whitespace_le c (blank c List.mem_cons_self)
    refine ⟨Bool.eq_false_iff.mpr fun found => ?_, ?_, ?_⟩
    · exact absurd (identifierByte_visible found) (UInt8.not_lt.mpr small)
    · rintro rfl
      exact absurd small (by decide)
    · rintro rfl
      exact absurd small (by decide)

/-- An operand, an operator and an expression make an application. -/
theorem infixExpr_run {left before op after right : Bytes} {lhs rhs : Expr}
    (leftReads : operand expr (left ++ (before ++ op ++ (after ++ right))) =
      some (lhs, before ++ op ++ (after ++ right)))
    (blankBefore : Blank before) (member : op ∈ operators) (blankAfter : Blank after)
    (starts : Starts ExprStart expr) (rightReads : expr right = some (rhs, rest)) :
    infixExpr expr (left ++ (before ++ op ++ (after ++ right))) = some (.apply none op [lhs, rhs], rest) := by
  obtain ⟨c, tail, rfl, start⟩ : ∃ c tail, right = c :: tail ∧ ExprStart c := by
    cases right with
    | nil => exact absurd (starts.nil.symm.trans rightReads) (fun impossible => nomatch impossible)
    | cons c tail =>
      refine ⟨c, tail, rfl, by_contra fun other => ?_⟩
      exact absurd ((starts.cons other tail).symm.trans rightReads) (fun impossible => nomatch impossible)
  obtain ⟨visible, notPlus, notEqual⟩ := exprStart_visible start
  have opReads : infixOp (op ++ (after ++ c :: tail)) = some (op, after ++ c :: tail) := by
    apply infixOp_run member
    intro d head
    cases after with
    | nil =>
      cases head
      exact ⟨notPlus, notEqual⟩
    | cons e after =>
      cases head
      have small := Ascii.whitespace_le d (blankAfter d List.mem_cons_self)
      constructor <;> (rintro rfl; exact absurd small (by decide))
  have beforeReads : skipWhitespace (before ++ op ++ (after ++ c :: tail)) =
      some (⟨⟩, op ++ (after ++ c :: tail)) := by
    rw [List.append_assoc]
    apply skipWhitespace_run blankBefore
    obtain ⟨d, opHead, opStart⟩ := operator_head op member
    obtain ⟨opTail, rfl⟩ := List.head?_eq_some_iff.mp opHead
    rintro d ⟨rfl⟩
    exact Ascii.space_lt (operatorStart_ends opStart).1
  have afterReads : skipWhitespace (after ++ c :: tail) = some (⟨⟩, c :: tail) := by
    apply skipWhitespace_run blankAfter
    rintro d ⟨rfl⟩
    exact Ascii.space_lt visible
  rw [infixExpr, bind_some leftReads, bind_some beforeReads, bind_some opReads, bind_some afterReads,
    bind_some rightReads]
  rfl

end Alternatives

end Owl.Grammar
