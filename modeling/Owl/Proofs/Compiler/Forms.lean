import Owl.Proofs.Compiler.Words

/-! # Reading each form

The text of each form is read as the form where the texts of its parts are read as its parts.
-/

namespace Owl.Grammar

open Owl.Compiler Parser

variable [Ascii] (spacing : Spacing)

/-- An expression whose text is read whole, as an expression and, where it may be one, as an operand. -/
structure Readable (e : Expr) : Prop where
  reads : ∀ rest, Ends rest → reader (spacing.exprText e ++ rest) = some (e, rest)
  operand : IsOperand e → ∀ rest, (∀ c ∈ rest.head?, isIdentifierByte c = false ∧ c ≠ 40) →
    Grammar.operand reader (spacing.exprText e ++ rest) = some (e, rest)

variable {spacing}

section Parts

variable {c : UInt8} {rest : Bytes}

namespace Spacing

theorem gap_small : ∀ c ∈ spacing.gap, c ≤ 32 := fun c member => Ascii.whitespace_le c (spacing.gap_blank c member)

theorem line_small : ∀ c ∈ spacing.line, c ≤ 32 := fun c member => Ascii.blank_le (spacing.line_blank c member)

theorem space_run (rest : Bytes) : Chomp.satisfy Chomp.isWhitespace (spacing.space :: rest) = some (spacing.space, rest) :=
  if_pos spacing.isSpace

theorem gap_run (stops : ∀ c ∈ rest.head?, 32 < c) :
    skipWhitespace (spacing.gap ++ rest) = some (⟨⟩, rest) :=
  skipWhitespace_run spacing.gap_blank fun c head => Ascii.space_lt (stops c head)

theorem line_run (stops : ∀ c ∈ rest.head?, 32 < c) :
    skipNewlineAndWhitespace (spacing.line ++ rest) = some (⟨⟩, rest) :=
  skipNewlineAndWhitespace_run spacing.line_blank stops

theorem comma_run (stops : ∀ c ∈ rest.head?, 32 < c) :
    comma ((spacing.gap ++ 44 :: spacing.gap) ++ rest) = some (⟨⟩, rest) :=
  Grammar.comma_run spacing.gap_blank spacing.gap_blank stops

theorem comma_ends (rest : Bytes) : Ends ((spacing.gap ++ 44 :: spacing.gap) ++ rest) := by
  rw [List.append_assoc, List.cons_append]
  exact ends_closer spacing.gap_small (by decide) _

theorem line_closer_ends (member : c ∈ closers) (rest : Bytes) : Ends (spacing.line ++ c :: rest) :=
  ends_closer spacing.line_small member rest

end Spacing

theorem closer_ends_now (member : c ∈ closers) (rest : Bytes) : Ends (c :: rest) :=
  ends_closer (List.forall_mem_nil _) member rest

omit [Ascii] in
theorem closer_visible (member : c ∈ closers) : ∀ d ∈ (c :: rest).head?, 32 < d := by
  rintro d ⟨rfl⟩
  exact (closer_ends member).1

theorem visible_of_reads {e : Expr} {input : Bytes} (reads : reader input = some (e, rest)) :
    ∀ c ∈ input.head?, 32 < c := by
  obtain ⟨c, tail, rfl, start⟩ := starts_of_reads reads
  rintro d ⟨rfl⟩
  exact (exprStart_visible start).1

theorem comma_closer_none (member : c ∈ closers) (other : c ≠ 44) : comma (c :: rest) = none := by
  apply comma_none
  rw [dropWhile_visible (closer_ends member).1]
  exact fun head => other (Option.some.inj head)

theorem elems_read {es : List Expr} (each : ∀ e ∈ es, Readable spacing e) (member : c ∈ closers) (other : c ≠ 44)
    (rest : Bytes) : Chomp.sepBy reader comma (spacing.commas (spacing.exprTexts es) ++ c :: rest) =
      some (es, c :: rest) := by
  have parts : ReadsEach reader comma spacing.exprText (spacing.gap ++ 44 :: spacing.gap) Ends es :=
    { longer := by simp
      reads := fun e member => (each e member).reads
      skips := fun e rest reads => spacing.comma_run (visible_of_reads reads)
      next := fun e rest _ => spacing.comma_ends _ }
  rw [Spacing.exprTexts_eq]
  exact parts.sepBy (closer_ends_now member rest) (reader_starts.cons (closer_ends member).2.2.2.1 rest)
    fun middle skipped => absurd ((comma_closer_none member other).symm.trans skipped) (Option.some_ne_none _).symm

theorem names_read {names : List Name} (each : ∀ n ∈ names, IsWord isLowercase n) (rest : Bytes) :
    Chomp.sepBy argument comma (spacing.commas names ++ 41 :: rest) = some (names, 41 :: rest) := by
  have parts : ReadsEach argument comma id (spacing.gap ++ 44 :: spacing.gap)
      (fun rest => ∀ c ∈ rest.head?, isIdentifierByte c = false) names :=
    { longer := by simp
      reads := fun n member rest stops => identifier_run (each n member) stops
      skips := by
        intro n rest reads
        apply spacing.comma_run
        intro c head
        by_contra small
        have fails : argument (id n ++ rest) = none := by
          apply identOf_starts
          intro d head' lower
          obtain rfl : c = d := Option.some.inj (head.symm.trans head')
          exact small (exprStart_visible (.inl (.inr (.inr (.inr (.inr lower)))))).1
        exact absurd (fails.symm.trans reads) (Option.some_ne_none _).symm
      next := fun n rest _ c head => ((spacing.comma_ends _).word c head).1 }
  have run := @ReadsEach.sepBy _ _ _ _ _ _ (41 :: rest) _ _ parts (by rintro d ⟨rfl⟩; rfl)
    ((identOf_starts _).cons (by decide) rest)
    fun middle skipped =>
      absurd ((comma_closer_none (by decide) (by decide)).symm.trans skipped) (Option.some_ne_none _).symm
  rwa [List.map_id] at run

/-- Lines between braces are read to the closing brace. -/
theorem lines_read {α β : Type} {parser : Parser UInt8 α} {text : α → Bytes} {ends : Bytes → Prop} {values : List α}
    {kind : UInt8 → Prop} {next : List α → Parser UInt8 β}
    (parts : ReadsEach parser skipNewlineAndWhitespace text spacing.line ends values)
    (starts : Starts kind parser) (visible : ∀ c, kind c → 32 < c) (other : ¬ kind 125)
    (last : ends (spacing.line ++ 125 :: rest)) :
    (do
      skipNewlineAndWhitespace
      let values ← Chomp.sepBy parser skipNewlineAndWhitespace
      skipNewlineAndWhitespace
      Chomp.token 125
      next values) (spacing.line ++ (separated spacing.line (values.map text) ++ (spacing.line ++ 125 :: rest))) =
        next values rest := by
  have closing : ∀ c ∈ ((125 : UInt8) :: rest).head?, 32 < c := closer_visible (by decide)
  have ending := spacing.line_run closing
  have noMore : parser (125 :: rest) = none := starts.cons other rest
  cases values with
  | nil =>
    have first : skipNewlineAndWhitespace (spacing.line ++ (spacing.line ++ 125 :: rest)) =
        some (⟨⟩, 125 :: rest) := by
      rw [← List.append_assoc]
      apply skipNewlineAndWhitespace_run _ closing
      intro c member
      exact (List.mem_append.mp member).elim (spacing.line_blank c) (spacing.line_blank c)
    have none : Chomp.sepBy parser skipNewlineAndWhitespace (125 :: rest) = some ([], 125 :: rest) :=
      Parser.option_none (bind_none noMore)
    have stays : skipNewlineAndWhitespace (125 :: rest) = some (⟨⟩, 125 :: rest) :=
      skipNewlineAndWhitespace_run (List.forall_mem_nil _) closing
    rw [List.map_nil, separated, List.nil_append, bind_some first, bind_some none, bind_some stays,
      bind_some (token_self 125 rest)]
  | cons value values =>
    have read := parts.reads value List.mem_cons_self _ (parts.tail.ends_more last)
    have all : Chomp.sepBy parser skipNewlineAndWhitespace _ = _ := parts.sepBy last
      (by
        obtain ⟨d, line, split⟩ := List.exists_cons_of_ne_nil parts.longer
        rw [split]
        apply starts.cons
        intro start
        exact absurd (spacing.line_small d (split ▸ List.mem_cons_self)) (UInt8.not_le.mpr (visible d start)))
      (fun middle skipped => by
        cases ending.symm.trans skipped
        exact noMore)
    have shown : ∀ c ∈ (separated spacing.line ((value :: values).map text) ++ (spacing.line ++ 125 :: rest)).head?,
        32 < c := by
      intro c head
      by_contra small
      rw [List.map_cons, separated, List.append_assoc] at head
      have fails := starts _ fun d head' start => by
        obtain rfl : c = d := Option.some.inj (head.symm.trans head')
        exact small (visible c start)
      exact absurd (fails.symm.trans read) (Option.some_ne_none _).symm
    rw [bind_some (spacing.line_run shown), bind_some all, bind_some ending, bind_some (token_self 125 rest)]

theorem block_reads {es : List Expr} (each : ∀ e ∈ es, Readable spacing e) (rest : Bytes) :
    block reader (spacing.blockText (spacing.exprTexts es) ++ rest) = some (es, rest) := by
  have parts : ReadsEach reader skipNewlineAndWhitespace spacing.exprText spacing.line Ends es :=
    { longer := List.ne_nil_of_length_pos (Nat.lt_of_lt_of_le Nat.zero_lt_two spacing.line_long)
      reads := fun e member => (each e member).reads
      skips := fun e rest reads => spacing.line_run (visible_of_reads reads)
      next := fun e rest reads => ends_reads spacing.line_small spacing.line_long reads }
  have spelled : spacing.blockText (spacing.exprTexts es) ++ rest =
      123 :: (spacing.line ++ (separated spacing.line (es.map spacing.exprText) ++ (spacing.line ++ 125 :: rest))) := by
    simp [Spacing.blockText, Spacing.exprTexts_eq]
  rw [spelled, block, bind_some (token_self 123 _)]
  exact lines_read parts reader_starts (fun c start => (exprStart_visible start).1) (by decide)
    (spacing.line_closer_ends (by decide) rest)

end Parts

section Values

variable {value rest : Bytes} {e : Expr}

omit [Ascii] in
private theorem word_of_digit {c : UInt8} (digit : isDigit c) : isIdentifierByte c := by
  simp only [isDigit] at digit
  simp [isIdentifierByte, digit]

/-- An operand in front of the end of an expression is no operation. -/
theorem infixExpr_operand_none {input : Bytes} (reads : operand reader input = some (e, rest))
    (ends : Ends rest) : infixExpr reader input = none := by
  apply infixExpr_none
  intro l middle run
  cases reads.symm.trans run
  exact ends.noOperator

theorem readable_int (some' : value ≠ []) (digits : ∀ c ∈ value, isDigit c) : Readable spacing (.int value) := by
  obtain ⟨c, tail, rfl⟩ := List.exists_cons_of_ne_nil some'
  have digit := digits c List.mem_cons_self
  have misses {parser : Parser UInt8 Expr} {kind : UInt8 → Prop} (starts : Starts kind parser)
      (other : ∀ d, kind d → isDigit d = false) (rest : Bytes) : parser (c :: tail ++ rest) = none :=
    starts.cons (fun found => absurd digit (Bool.eq_false_iff.mp (other c found))) _
  have letter (d : UInt8) (found : isUppercase d ∨ isLowercase d) : isDigit d = false := by
    refine Bool.eq_false_iff.mpr fun digit' => ?_
    obtain upper | lower := found
    · simp only [isDigit, isUppercase, Bool.and_eq_true, decide_eq_true_eq, UInt8.le_iff_toNat_le,
        UInt8.reduceToNat] at digit' upper
      omega
    · exact absurd lower (Bool.eq_false_iff.mp (not_lowercase_of_digit d digit'))
  have operandReads (rest : Bytes) (stops : ∀ d ∈ rest.head?, isIdentifierByte d = false) :
      operand reader (c :: tail ++ rest) = some (.int (c :: tail), rest) := by
    have reads := int_run some' digits fun d head =>
      Bool.eq_false_iff.mpr fun digit' => absurd (word_of_digit digit') (Bool.eq_false_iff.mp (stops d head))
    exact (or_none (misses str_starts (by rintro d rfl; rfl) rest)).trans <|
      (or_none (misses (list_starts _) (by rintro d rfl; rfl) rest)).trans <| or_some reads
  constructor
  · intro rest ends
    have notInfix := infixExpr_operand_none (operandReads rest fun d head => (ends.word d head).1) ends
    have reads := int_run some' digits fun d head =>
      Bool.eq_false_iff.mpr fun digit' => absurd (word_of_digit digit') (Bool.eq_false_iff.mp (ends.word d head).1)
    rw [Spacing.exprText, reader_eq]
    exact (or_none (misses (ifExpr_starts _) (by rintro d rfl; rfl) rest)).trans <|
      (or_none (misses (letExpr_starts _) (by rintro d rfl; rfl) rest)).trans <| (or_none notInfix).trans <|
      (or_none (misses (anonFn_starts _) (by rintro d rfl; rfl) rest)).trans <|
      (or_none (misses str_starts (by rintro d rfl; rfl) rest)).trans <|
      (or_none (misses (apply_starts _) letter rest)).trans <| (or_none (misses capture_starts letter rest)).trans <|
      (or_none (misses (unary_starts _) (by rintro d rfl; rfl) rest)).trans <|
      (or_none (misses (tuple_starts _) (by rintro d rfl; rfl) rest)).trans <|
      (or_none (misses (list_starts _) (by rintro d rfl; rfl) rest)).trans <|
      (or_none (misses nil_starts (by rintro d rfl; rfl) rest)).trans <|
      (or_none (misses bool_starts (by rintro d (rfl | rfl) <;> rfl) rest)).trans <|
      (or_none (misses ident_starts (fun d lower => letter d (.inr lower)) rest)).trans reads
  · intro _ rest stops
    rw [Spacing.exprText]
    exact operandReads rest fun d head => (stops d head).1

private theorem str_run (inside : ∀ c ∈ value, c ≠ 34) (noNewline : ¬ bytes "\\n" <+: value)
    (noTab : ¬ bytes "\\t" <+: value)
    (rest : Bytes) : str (34 :: (value ++ 34 :: rest)) = some (.str value, rest) := by
  have escape {word : Bytes} (isWord : ∀ c ∈ word, decide (c ≠ 34)) (no : ¬ word <+: value) :
      Chomp.string word (value ++ 34 :: rest) = none :=
    string_none fun found => no (prefix_of_prefix_append isWord (by rintro d ⟨rfl⟩; rfl) found)
  have body : Chomp.takeWhile (fun c => decide (c ≠ 34)) (value ++ 34 :: rest) = some (value, 34 :: rest) :=
    takeWhile_append (fun c member => decide_eq_true (inside c member)) (by rintro d ⟨rfl⟩; rfl)
  have taken : takeStringBody (value ++ 34 :: rest) = some (value, 34 :: rest) :=
    (or_none (bind_none (escape (List.all_eq_true.mp (by decide)) noNewline))).trans <|
      (or_none (bind_none (escape (List.all_eq_true.mp (by decide)) noTab))).trans body
  rw [str, bind_some (token_self 34 _), bind_some taken, bind_some (token_self 34 rest)]
  rfl

theorem readable_str (inside : ∀ c ∈ value, c ≠ 34) (noNewline : ¬ bytes "\\n" <+: value)
    (noTab : ¬ bytes "\\t" <+: value) : Readable spacing (.str value) := by
  have spelled (rest : Bytes) : spacing.exprText (.str value) ++ rest = 34 :: (value ++ 34 :: rest) := by
    simp [Spacing.exprText]
  have reads := str_run inside noNewline noTab
  constructor
  · intro rest ends
    have notInfix := infixExpr_operand_none (or_some (reads rest)) ends
    rw [spelled, reader_eq]
    exact (or_none ((ifExpr_starts _).cons (by decide) _)).trans <|
      (or_none ((letExpr_starts _).cons (by decide) _)).trans <| (or_none notInfix).trans <|
      (or_none ((anonFn_starts _).cons (by decide) _)).trans <| or_some (reads rest)
  · intro _ rest _
    rw [spelled]
    exact or_some (reads rest)

theorem readable_list {elems : List Expr} (each : ∀ e ∈ elems, Readable spacing e) :
    Readable spacing (.list elems) := by
  have spelled (rest : Bytes) : spacing.exprText (.list elems) ++ rest =
      91 :: (spacing.commas (spacing.exprTexts elems) ++ 93 :: rest) := by
    simp [Spacing.exprText]
  have reads (rest : Bytes) : list reader (91 :: (spacing.commas (spacing.exprTexts elems) ++ 93 :: rest)) =
      some (.list elems, rest) := by
    rw [list, bind_some (token_self 91 _), bind_some (elems_read each (by decide) (by decide) rest),
      bind_some (token_self 93 rest)]
    rfl
  have operandReads (rest : Bytes) : operand reader
      (91 :: (spacing.commas (spacing.exprTexts elems) ++ 93 :: rest)) = some (.list elems, rest) :=
    (or_none (str_starts.cons (by decide) _)).trans <| or_some (reads rest)
  constructor
  · intro rest ends
    have notInfix := infixExpr_operand_none (operandReads rest) ends
    rw [spelled, reader_eq]
    exact (or_none ((ifExpr_starts _).cons (by decide) _)).trans <|
      (or_none ((letExpr_starts _).cons (by decide) _)).trans <| (or_none notInfix).trans <|
      (or_none ((anonFn_starts _).cons (by decide) _)).trans <| (or_none (str_starts.cons (by decide) _)).trans <|
      (or_none ((apply_starts _).cons (by decide) _)).trans <| (or_none (capture_starts.cons (by decide) _)).trans <|
      (or_none ((unary_starts _).cons (by decide) _)).trans <| (or_none ((tuple_starts _).cons (by decide) _)).trans <|
      or_some (reads rest)
  · intro _ rest _
    rw [spelled]
    exact operandReads rest

/-- The words that are values. -/
theorem readable_word {word : Bytes} (isName : IsIdentifier word)
    (reads : ∀ rest, (nil.or bool) (word ++ rest) = some (e, rest)) (spelled : spacing.exprText e = word) :
    Readable spacing e := by
  constructor
  · intro rest ends
    rw [spelled, reader_word isName ends]
    exact or_some (reads rest)
  · intro _ rest _
    rw [spelled, operand_word isName]
    exact or_some (reads rest)

theorem readable_nil : Readable spacing .nil :=
  @readable_word _ _ _ (bytes "nil") ⟨⟨110, rfl, rfl⟩, List.all_eq_true.mp (by decide)⟩
    (fun rest => or_some (bind_some (string_append _ rest))) rfl

theorem readable_true : Readable spacing .true :=
  @readable_word _ _ _ (bytes "true") ⟨⟨116, rfl, rfl⟩, List.all_eq_true.mp (by decide)⟩
    (fun rest => (or_none (nil_starts.cons (by decide) _)).trans <| or_some (bind_some (string_append _ rest))) rfl

theorem readable_false : Readable spacing .false :=
  @readable_word _ _ _ (bytes "false") ⟨⟨102, rfl, rfl⟩, List.all_eq_true.mp (by decide)⟩
    (fun rest => (or_none (nil_starts.cons (by decide) _)).trans <|
      (or_none ((Starts.string 116 _).bind.cons (by decide) _)).trans <| bind_some (string_append _ rest)) rfl

theorem readable_ident {name : Name} (isName : IsIdentifier name) (plain : StartsNoValue name) :
    Readable spacing (.ident name) := by
  constructor
  · intro rest ends
    have stops := fun c head => (ends.word c head).1
    rw [Spacing.exprText, reader_word isName ends]
    exact (or_none (values_none plain stops)).trans <| or_some (bind_some (identifier_run isName stops))
  · intro _ rest stops
    have stops' := fun c head => (stops c head).1
    rw [Spacing.exprText, operand_word isName]
    exact (or_none (values_none plain stops')).trans <| (or_none (apply_none isName stops)).trans <|
      bind_some (identifier_run isName stops')

end Values

end Owl.Grammar
