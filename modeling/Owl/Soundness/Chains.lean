import Owl.Proofs.Compiler.Grammar

/-! # Chains of additions and subtractions

The right side of an operator is a whole expression, so a chain nests to the right. Its tree is the
left-nested one only for a chain of two literals.
-/

namespace Owl.Grammar

open Owl.Compiler Parser

/-- An integer literal. -/
structure Literal where
  digits : Bytes
  nonempty : digits ≠ []
  isDigits : ∀ c ∈ digits, isDigit c

inductive Sign where
  | plus
  | minus
deriving DecidableEq, Repr

namespace Sign

def text : Sign → Bytes
  | plus => bytes "+"
  | minus => bytes "-"

def act : Sign → ℤ → ℤ → ℤ
  | plus => (· + ·)
  | minus => (· - ·)

private theorem text_mem (sign : Sign) : sign.text ∈ operators := by
  cases sign <;> decide

end Sign

/-- An operator between optional white space and the literal behind it. -/
structure Link [Chomp] where
  before : Bytes
  sign : Sign
  after : Bytes
  literal : Literal
  blankBefore : Blank before
  blankAfter : Blank after

section Trees

variable [Chomp]

def chainText (first : Literal) : List Link → Bytes
  | [] => first.digits
  | link :: links => first.digits ++ (link.before ++ link.sign.text ++ (link.after ++ chainText link.literal links))

/-- The number that digits write. -/
def number (digits : Bytes) : ℤ := digits.foldl (fun value c => 10 * value + (c.toNat - 48)) 0

/-- The value of a tree of additions and subtractions. -/
inductive HasValue : Expr → ℤ → Prop where
  | int (digits : Bytes) : HasValue (.int digits) (number digits)
  | apply {left right : Expr} {x y : ℤ} (sign : Sign) (leftValue : HasValue left x) (rightValue : HasValue right y) :
      HasValue (.apply none sign.text [left, right]) (sign.act x y)

/-- The tree that groups a chain from the left. -/
def leftNested (first : Literal) (links : List Link) : Expr :=
  links.foldl (fun tree link => .apply none link.sign.text [tree, .int link.literal.digits]) (.int first.digits)

/-- The result of calculating a chain from the left. -/
def leftToRight (first : Literal) (links : List Link) : ℤ :=
  links.foldl (fun total link => link.sign.act total (number link.literal.digits)) (number first.digits)

/-- A chain is read as its left-nested tree, whose value is the result from left to right. -/
def MeansWhatItSays (first : Literal) (links : List Link) : Prop :=
  ∃ tree, parseExpr (chainText first links) = some tree ∧
    tree = leftNested first links ∧ HasValue tree (leftToRight first links)

/-- The tree that groups a chain from the right. -/
def rightNested (first : Literal) : List Link → Expr
  | [] => .int first.digits
  | link :: links => .apply none link.sign.text [.int first.digits, rightNested link.literal links]

private theorem leftNested_value (first : Literal) (links : List Link) :
    HasValue (leftNested first links) (leftToRight first links) := by
  induction links using List.reverseRecOn with
  | nil => exact .int first.digits
  | append_singleton links link ih =>
    rw [leftNested, leftToRight, List.foldl_concat, List.foldl_concat]
    exact .apply link.sign ih (.int link.literal.digits)

/-- A tree that is nested to the left ends with a literal, one that is nested to the right with the rest. -/
private theorem leftNested_ne_rightNested (first : Literal) (link next : Link) (links : List Link) :
    leftNested first (link :: next :: links) ≠ rightNested first (link :: next :: links) := by
  obtain impossible | ⟨init, last, split⟩ := List.eq_nil_or_concat' (link :: next :: links)
  · exact nomatch impossible
  · have left : leftNested first (link :: next :: links) =
        .apply none last.sign.text [leftNested first init, .int last.literal.digits] := by
      rw [split, leftNested, List.foldl_concat]
      rfl
    rw [left, rightNested, rightNested]
    intro same
    injection same with _ _ args
    injection args with _ args
    injection args with impossible
    exact nomatch impossible

end Trees

section Reading

variable [Ascii]

section Literals

variable {expr : Parser UInt8 Expr} {rest : Bytes}

omit [Ascii] in
private theorem not_digit_of_not_identifierByte {c : UInt8} (other : isIdentifierByte c = false) : isDigit c = false := by
  simp only [isIdentifierByte, Bool.or_eq_false_iff] at other
  exact other.1.1.2

omit [Ascii] in
/-- A rule that starts with no digit does not read a literal. -/
theorem Literal.misses {α : Type} {kind : UInt8 → Prop} {parser : Parser UInt8 α} (literal : Literal)
    (starts : Starts kind parser) (other : ∀ c, kind c → isDigit c = false) (rest : Bytes) :
    parser (literal.digits ++ rest) = none := by
  obtain ⟨c, tail, spelled⟩ := List.exists_cons_of_ne_nil literal.nonempty
  have digit := literal.isDigits c (spelled ▸ List.mem_cons_self)
  rw [spelled]
  exact starts.cons (fun found => absurd digit (Bool.eq_false_iff.mp (other c found))) _

omit [Ascii] in
theorem not_digit_of_letter (c : UInt8) (letter : isUppercase c ∨ isLowercase c) : isDigit c = false := by
  refine Bool.eq_false_iff.mpr fun digit => ?_
  simp only [isDigit, isUppercase, isLowercase, Bool.and_eq_true, decide_eq_true_eq, UInt8.le_iff_toNat_le,
    UInt8.reduceToNat] at digit letter
  omega

private theorem operand_int (literal : Literal) (stops : ∀ c ∈ rest.head?, isDigit c = false) :
    operand expr (literal.digits ++ rest) = some (.int literal.digits, rest) := by
  have reads := int_run literal.nonempty literal.isDigits stops
  have notStr := literal.misses str_starts (by rintro c rfl; rfl) rest
  have notList := literal.misses (@list_starts _ expr) (by rintro c rfl; rfl) rest
  exact (or_none notStr).trans <| (or_none notList).trans <| or_some reads

private theorem forms_none_digit (literal : Literal) (rest : Bytes) :
    ifExpr expr (literal.digits ++ rest) = none ∧ letExpr expr (literal.digits ++ rest) = none :=
  ⟨literal.misses (ifExpr_starts expr) (by rintro c rfl; rfl) rest,
    literal.misses (letExpr_starts expr) (by rintro c rfl; rfl) rest⟩

/-- A literal with nothing behind it. -/
private theorem alternatives_int (literal : Literal) :
    alternatives expr literal.digits = some (.int literal.digits, []) := by
  have operandReads := @operand_int _ expr [] literal nofun
  have reads := @int_run _ literal.digits [] literal.nonempty literal.isDigits nofun
  obtain ⟨notIf, notLet⟩ := @forms_none_digit _ expr literal []
  have notInfix : infixExpr expr (literal.digits ++ []) = none := by
    have stays : skipWhitespace [] = some (⟨⟩, []) := rfl
    rw [infixExpr, bind_some operandReads, bind_some stays]
    exact bind_none infixOp_starts.nil
  have notAnonFn := literal.misses (@anonFn_starts _ expr) (by rintro c rfl; rfl) []
  have notStr := literal.misses str_starts (by rintro c rfl; rfl) []
  have notApply := literal.misses (@apply_starts _ expr) not_digit_of_letter []
  have notCapture := literal.misses capture_starts not_digit_of_letter []
  have notUnary := literal.misses (unary_starts expr) (by rintro c rfl; rfl) []
  have notTuple := literal.misses (@tuple_starts _ expr) (by rintro c rfl; rfl) []
  have notList := literal.misses (@list_starts _ expr) (by rintro c rfl; rfl) []
  have notNil := literal.misses nil_starts (by rintro c rfl; rfl) []
  have notBool := literal.misses bool_starts (by rintro c (rfl | rfl) <;> rfl) []
  have notIdent := literal.misses ident_starts (fun c lower => not_digit_of_letter c (.inr lower)) []
  rw [List.append_nil] at *
  calc alternatives expr literal.digits
    _ = _ := (or_none notIf).trans <| (or_none notLet).trans <| or_none notInfix
    _ = _ := (or_none notAnonFn).trans <| (or_none notStr).trans <| (or_none notApply).trans <| or_none notCapture
    _ = _ := (or_none notUnary).trans <| (or_none notTuple).trans <| (or_none notList).trans <| or_none notNil
    _ = _ := (or_none notBool).trans <| or_none notIdent
    _ = _ := reads

end Literals

/-- A chain is read to its end, nested to the right. -/
private theorem expr_chain (first : Literal) (links : List Link) (fuel : ℕ)
    (enough : (chainText first links).length < fuel) :
    expr fuel (chainText first links) = some (rightNested first links, []) := by
  induction links generalizing first fuel with
  | nil =>
    obtain ⟨fuel, rfl⟩ := Nat.exists_eq_succ_of_ne_zero (Nat.ne_zero_of_lt enough)
    exact alternatives_int first
  | cons link links ih =>
    obtain ⟨fuel, rfl⟩ := Nat.exists_eq_succ_of_ne_zero (Nat.ne_zero_of_lt enough)
    have some' := List.length_pos_of_ne_nil first.nonempty
    simp only [chainText, List.length_append] at enough
    have rightReads := ih link.literal fuel (by omega)
    have ends := @behind_operator _ (link.after ++ chainText link.literal links) link.before link.sign.text
      link.blankBefore link.sign.text_mem
    have operandReads := @operand_int _ (expr fuel) _ first fun c head =>
      not_digit_of_not_identifierByte (ends c head).1
    have infixReads := infixExpr_run operandReads link.blankBefore link.sign.text_mem link.blankAfter
      (expr_starts fuel) rightReads
    obtain ⟨notIf, notLet⟩ := @forms_none_digit _ (expr fuel) first
      (link.before ++ link.sign.text ++ (link.after ++ chainText link.literal links))
    exact (or_none notIf).trans <| (or_none notLet).trans <| or_some infixReads

end Reading

theorem parseExpr_chain [chomp : Chomp] (first : Literal) (links : List Link) :
    parseExpr (chainText first links) = some (rightNested first links) := by
  obtain ⟨ascii, rfl⟩ := chomp.exists_ascii
  exact congrArg (Option.map Prod.fst) (expr_chain first links _ (Nat.lt_succ_self _))

/-- A chain of two or more literals is read as its left-nested tree exactly when it has two. -/
theorem meansWhatItSays_iff [Chomp] (first : Literal) (links : List Link) (some' : links ≠ []) :
    MeansWhatItSays first links ↔ links.length = 1 := by
  constructor
  · rintro ⟨tree, reads, rfl, -⟩
    have same := Option.some.inj (reads.symm.trans (parseExpr_chain first links))
    match links, some' with
    | [link], _ => rfl
    | link :: next :: links, _ => exact absurd same (leftNested_ne_rightNested first link next links)
  · intro single
    obtain ⟨link, rfl⟩ := List.length_eq_one_iff.mp single
    exact ⟨_, parseExpr_chain first [link], rfl, leftNested_value first [link]⟩

def Literal.ofDigit (digit : Fin 10) : Literal where
  digits := [48 + digit.val.toUInt8]
  nonempty := List.cons_ne_nil _ _
  isDigits := by
    intro c member
    obtain rfl := List.mem_singleton.mp member
    revert digit
    decide

/-- A subtraction between single spaces. -/
def subtract (digit : Fin 10) : @Link .standard :=
  letI := Chomp.standard
  { before := bytes " "
    sign := .minus
    after := bytes " "
    literal := .ofDigit digit
    blankBefore := List.all_eq_true.mp rfl
    blankAfter := List.all_eq_true.mp rfl }

theorem meansWhatItSays_pair : @MeansWhatItSays .standard (.ofDigit 7) [subtract 2] :=
  (@meansWhatItSays_iff .standard (.ofDigit 7) [subtract 2] (List.cons_ne_nil _ _)).mpr rfl

/-- `7 - 2 - 3` is read as `7 - (2 - 3)`. -/
theorem meansWhatItSays_fails :
    @chainText .standard (.ofDigit 7) [subtract 2, subtract 3] = bytes "7 - 2 - 3" ∧
      @parseExpr .standard (bytes "7 - 2 - 3") = some (.apply none (bytes "-")
        [.int (bytes "7"), .apply none (bytes "-") [.int (bytes "2"), .int (bytes "3")]]) ∧
      ¬ @MeansWhatItSays .standard (.ofDigit 7) [subtract 2, subtract 3] := by
  have spelled : @chainText .standard (.ofDigit 7) [subtract 2, subtract 3] = bytes "7 - 2 - 3" := by decide
  have reads : @parseExpr .standard (bytes "7 - 2 - 3") = some (.apply none (bytes "-")
    [.int (bytes "7"), .apply none (bytes "-") [.int (bytes "2"), .int (bytes "3")]]) := rfl
  refine ⟨spelled, reads, ?_⟩
  rintro ⟨tree, read, rfl, -⟩
  exact absurd (read.symm.trans (@parseExpr_chain .standard _ _))
    (mt Option.some.inj (@leftNested_ne_rightNested .standard (.ofDigit 7) (subtract 2) (subtract 3) []))

end Owl.Grammar
