import Owl.Proofs.Compiler.Grammar

/-! # Reading string literals

The body of a literal is one escape or a run of characters that stay as they are. So a literal means what
its pieces say when it has no escape or is a single one, and in no other case.
-/

namespace Owl.Grammar

open Owl.Compiler Parser

/-- A piece of a string literal. -/
inductive Piece where
  | raw (c : UInt8) (plain : c ≠ 34 ∧ c ≠ 92)
  | newline
  | tab

namespace Piece

/-- The piece as it is written. -/
def text : Piece → Bytes
  | raw c _ => [c]
  | newline => bytes "\\n"
  | tab => bytes "\\t"

/-- The character that the piece stands for. -/
def char : Piece → UInt8
  | raw c _ => c
  | newline => 10
  | tab => 9

def IsRaw : Piece → Prop
  | raw _ _ => True
  | _ => False

end Piece

def textOf (pieces : List Piece) : Bytes := pieces.flatMap Piece.text

/-- The literal of some pieces is read as the string that they stand for. -/
def DecodesEscapes [Chomp] (pieces : List Piece) : Prop :=
  parseExpr ([34] ++ textOf pieces ++ [34]) = some (.str (pieces.map Piece.char))

variable {expr : Parser UInt8 Expr} {pieces : List Piece} {piece : Piece} {text rest : Bytes}

section Written

private theorem Piece.text_inside (piece : Piece) : ∀ c ∈ piece.text, c ≠ 34 := by
  intro c member
  cases piece with
  | raw d plain =>
    obtain rfl := List.mem_singleton.mp member
    exact plain.1
  | newline =>
    rintro rfl
    exact absurd member (by decide)
  | tab =>
    rintro rfl
    exact absurd member (by decide)

private theorem textOf_inside (pieces : List Piece) : ∀ c ∈ textOf pieces, c ≠ 34 := by
  intro c member
  obtain ⟨piece, -, inside⟩ := List.mem_flatMap.mp member
  exact piece.text_inside c inside

private theorem textOf_raw (allRaw : ∀ piece ∈ pieces, piece.IsRaw) : textOf pieces = pieces.map Piece.char := by
  induction pieces with
  | nil => rfl
  | cons piece pieces ih =>
    rw [List.forall_mem_cons] at allRaw
    cases piece with
    | raw c plain => exact congrArg (c :: ·) (ih allRaw.2)
    | newline => exact allRaw.1.elim
    | tab => exact allRaw.1.elim

/-- An escape is longer than the character it stands for. -/
private theorem textOf_length (pieces : List Piece) :
    pieces.length ≤ (textOf pieces).length ∧
      ((textOf pieces).length ≤ pieces.length → ∀ piece ∈ pieces, piece.IsRaw) := by
  induction pieces with
  | nil => exact ⟨le_rfl, fun _ _ impossible => nomatch impossible⟩
  | cons piece pieces ih =>
    have length : (textOf (piece :: pieces)).length = piece.text.length + (textOf pieces).length :=
      List.length_append
    rw [length, List.length_cons, List.forall_mem_cons]
    cases piece with
    | raw c plain =>
      have one : (Piece.raw c plain).text.length = 1 := rfl
      exact ⟨by omega, fun short => ⟨trivial, ih.2 (by omega)⟩⟩
    | newline =>
      have two : Piece.newline.text.length = 2 := rfl
      exact ⟨by omega, fun short => by omega⟩
    | tab =>
      have two : Piece.tab.text.length = 2 := rfl
      exact ⟨by omega, fun short => by omega⟩

end Written

section Reading

variable [Ascii]

/-- Without an escape in front the body is everything up to the closing quote. -/
private theorem str_plain (start : ∀ c ∈ text.head?, c ≠ 92) (inside : ∀ c ∈ text, c ≠ 34) :
    str (34 :: (text ++ [34])) = some (.str text, []) := by
  have noEscape : ∀ c ∈ (text ++ [34]).head?, ¬ c = 92 := by
    cases text with
    | nil =>
      rintro c ⟨rfl⟩
      decide
    | cons c text => exact start
  have notNewline : newline (text ++ [34]) = none := (Starts.string 92 _).bind _ noEscape
  have notTab : horizontalTab (text ++ [34]) = none := (Starts.string 92 _).bind _ noEscape
  have taken : Chomp.takeWhile (· ≠ 34) (text ++ [34]) = some (text, [34]) :=
    takeWhile_append (fun c member => decide_eq_true (inside c member)) (by rintro c ⟨rfl⟩; rfl)
  have body : takeStringBody (text ++ [34]) = some (text, [34]) :=
    (or_none notNewline).trans <| (or_none notTab).trans taken
  rw [str, bind_some (token_self 34 _), bind_some body]
  rfl

/-- Behind an escape in front the literal has to end. -/
private theorem str_escape (escape : ¬ piece.IsRaw) (rest : Bytes) :
    str (34 :: (piece.text ++ rest)) =
      (Chomp.token 34 >>= fun _ => (pure (.str [piece.char]) : Parser UInt8 Expr)) rest := by
  have body : takeStringBody (piece.text ++ rest) = some ([piece.char], rest) := by
    cases piece with
    | raw c plain => exact absurd trivial escape
    | newline => exact or_some (bind_some (string_append _ rest))
    | tab =>
      have notNewline : newline (Piece.tab.text ++ rest) = none := bind_none (string_none fun found => by
        obtain ⟨tail, whole⟩ := found
        exact absurd (show some (110 : UInt8) = some 116 from congrArg (·.tail.head?) whole) (by decide))
      exact (or_none notNewline).trans <| or_some (bind_some (string_append _ rest))
  rw [str, bind_some (token_self 34 _), bind_some body]

/-- A text that starts with a quote is a literal or nothing. -/
theorem alternatives_quote {read : Option (Expr × Bytes)} (reads : str (34 :: text) = read)
    (ends : ∀ value rest, read = some (value, rest) → rest = []) : alternatives expr (34 :: text) = read := by
  have notIf := (@ifExpr_starts _ expr).cons (show ¬ (34 : UInt8) = 105 by decide) text
  have notLet := (@letExpr_starts _ expr).cons (show ¬ (34 : UInt8) = 108 by decide) text
  have notAnonFn := (@anonFn_starts _ expr).cons (show ¬ (34 : UInt8) = 40 by decide) text
  have notApply := (@apply_starts _ expr).cons (show ¬ (isUppercase 34 ∨ isLowercase 34) by decide) text
  have notCapture := capture_starts.cons (show ¬ (isUppercase 34 ∨ isLowercase 34) by decide) text
  have notUnary := (unary_starts expr).cons (show ¬ (34 : UInt8) = 33 by decide) text
  have notTuple := (@tuple_starts _ expr).cons (show ¬ (34 : UInt8) = 40 by decide) text
  have notList := (@list_starts _ expr).cons (show ¬ (34 : UInt8) = 91 by decide) text
  have notNil := nil_starts.cons (show ¬ (34 : UInt8) = 110 by decide) text
  have notBool := bool_starts.cons (show ¬ ((34 : UInt8) = 116 ∨ (34 : UInt8) = 102) by decide) text
  have notIdent := ident_starts.cons (show ¬ isLowercase 34 by decide) text
  have notInt := int_starts.cons (show ¬ isDigit 34 by decide) text
  cases read with
  | none =>
    have notOperand : operand expr (34 :: text) = none :=
      (or_none reads).trans <| (or_none notList).trans <| (or_none notInt).trans <| (or_none notNil).trans <|
        (or_none notBool).trans <| (or_none notApply).trans notIdent
    calc alternatives expr (34 :: text)
      _ = _ := (or_none notIf).trans <| (or_none notLet).trans <| or_none (bind_none notOperand)
      _ = _ := (or_none notAnonFn).trans <| (or_none reads).trans <| (or_none notApply).trans <| or_none notCapture
      _ = _ := (or_none notUnary).trans <| (or_none notTuple).trans <| (or_none notList).trans <| or_none notNil
      _ = none := (or_none notBool).trans <| (or_none notIdent).trans notInt
  | some done =>
    obtain ⟨value, rest⟩ := done
    obtain rfl := ends value rest rfl
    have operandReads : operand expr (34 :: text) = some (value, []) := or_some reads
    have notInfix : infixExpr expr (34 :: text) = none := by
      have stays : skipWhitespace [] = some (⟨⟩, []) := rfl
      rw [infixExpr, bind_some operandReads, bind_some stays]
      exact bind_none infixOp_starts.nil
    calc alternatives expr (34 :: text)
      _ = _ := (or_none notIf).trans <| (or_none notLet).trans <| or_none notInfix
      _ = some (value, []) := (or_none notAnonFn).trans <| or_some reads

/-- A literal without an escape in front is read as it is written. -/
private theorem parseExpr_plain (start : ∀ c ∈ text.head?, c ≠ 92) (inside : ∀ c ∈ text, c ≠ 34) :
    parseExpr ([34] ++ text ++ [34]) = some (.str text) := by
  have run : alternatives (expr ([34] ++ text ++ [34]).length) (34 :: (text ++ [34])) = some (.str text, []) :=
    alternatives_quote (str_plain start inside) fun _ _ same => by cases same; rfl
  exact congrArg (Option.map Prod.fst) run

private theorem decodesEscapes_raw (front : ∀ piece ∈ pieces.head?, piece.IsRaw) :
    DecodesEscapes pieces ↔ ∀ piece ∈ pieces, piece.IsRaw := by
  have start : ∀ c ∈ (textOf pieces).head?, c ≠ 92 := by
    cases pieces with
    | nil => exact fun _ impossible => nomatch impossible
    | cons piece pieces =>
      have raw := front piece rfl
      cases piece with
      | raw d plain =>
        rintro c ⟨rfl⟩
        exact plain.2
      | newline => exact raw.elim
      | tab => exact raw.elim
  have reads := @parseExpr_plain _ _ start (textOf_inside pieces)
  constructor
  · intro decodes
    have same : textOf pieces = pieces.map Piece.char := Expr.str.inj (Option.some.inj (reads.symm.trans decodes))
    have length : (textOf pieces).length = pieces.length := (congrArg List.length same).trans (List.length_map _)
    exact (textOf_length pieces).2 length.le
  · intro allRaw
    rw [DecodesEscapes, reads, textOf_raw allRaw]

private theorem decodesEscapes_escape (escape : ¬ piece.IsRaw) : DecodesEscapes (piece :: pieces) ↔ pieces = [] := by
  have written : [34] ++ textOf (piece :: pieces) ++ [34] = 34 :: (piece.text ++ (textOf pieces ++ [34])) := by
    simp [textOf]
  rw [DecodesEscapes, written]
  cases pieces with
  | nil =>
    have reads : str (34 :: (piece.text ++ [34])) = some (.str [piece.char], []) := str_escape escape [34]
    have run := @alternatives_quote (expr (34 :: (piece.text ++ [34])).length) _ _ _ reads
      fun _ _ same => by cases same; rfl
    exact iff_of_true (congrArg (Option.map Prod.fst) run) rfl
  | cons next pieces =>
    have open' : ∀ c ∈ (textOf (next :: pieces) ++ [34]).head?, ¬ c = 34 := by
      intro c head
      have member : c ∈ next.text := by
        cases next <;> exact List.mem_of_mem_head? head
      exact next.text_inside c member
    have reads : str (34 :: (piece.text ++ (textOf (next :: pieces) ++ [34]))) = none :=
      (str_escape escape _).trans (bind_none (Starts.token 34 _ open'))
    have run := @alternatives_quote
      (expr (34 :: (piece.text ++ (textOf (next :: pieces) ++ [34]))).length) _ _ _ reads nofun
    have fails : parseExpr (34 :: (piece.text ++ (textOf (next :: pieces) ++ [34]))) = none :=
      congrArg (Option.map Prod.fst) run
    rw [fails]
    exact iff_of_false nofun nofun

end Reading

/-- A literal is read as the string that it stands for exactly when it has no escape or is a single one. -/
theorem decodesEscapes_iff [chomp : Chomp] (pieces : List Piece) :
    DecodesEscapes pieces ↔
      (∀ piece ∈ pieces, piece.IsRaw) ∨ pieces = [.newline] ∨ pieces = [.tab] := by
  obtain ⟨ascii, rfl⟩ := chomp.exists_ascii
  by_cases front : ∀ piece ∈ pieces.head?, piece.IsRaw
  · rw [decodesEscapes_raw front]
    constructor
    · exact .inl
    · rintro (allRaw | rfl | rfl)
      · exact allRaw
      · exact (front .newline rfl).elim
      · exact (front .tab rfl).elim
  · cases pieces with
    | nil => exact absurd nofun front
    | cons piece pieces =>
      have escape : ¬ piece.IsRaw := fun raw => front (by rintro _ ⟨rfl⟩; exact raw)
      rw [decodesEscapes_escape escape]
      constructor
      · rintro rfl
        cases piece with
        | raw c plain => exact absurd trivial escape
        | newline => exact .inr (.inl rfl)
        | tab => exact .inr (.inr rfl)
      · rintro (allRaw | single | single)
        · exact absurd (allRaw piece List.mem_cons_self) escape
        · exact (List.cons.inj single).2
        · exact (List.cons.inj single).2

/-- The backslash and the letter of an escape stay in the string where something stands in front. -/
theorem decodesEscapes_fails :
    @parseExpr .standard (bytes "\"a\\n\"") = some (.str (bytes "a\\n")) ∧
      ¬ @DecodesEscapes .standard [.raw 97 (by decide), .newline] := by
  have reads : @parseExpr .standard (bytes "\"a\\n\"") = some (.str (bytes "a\\n")) := rfl
  refine ⟨reads, fun decodes => ?_⟩
  have same := Expr.str.inj (Option.some.inj (reads.symm.trans decodes))
  exact absurd same (by decide)

end Owl.Grammar
