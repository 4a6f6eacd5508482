import Owl.Model.Compiler.Ast
import Owl.ToMathlib.Parsing

/-! # The grammar

One definition for each rule, under the rule's name. A rule that contains expressions takes the parser
of expressions, and `expr` ties the knot: each nested expression costs one unit of fuel. Every nested
expression starts behind a symbol, so the length of the input is fuel enough.

The parsers of `chomp` are parameters that do what its documentation says. It also decides which bytes are white
space and which end a line; the grammar relies on these being no printable characters.
-/

namespace Owl.Compiler

def isLowercase (c : UInt8) : Bool := 97 ≤ c && c ≤ 122

def isIdentifierByte (c : UInt8) : Bool :=
  isLowercase c || (65 ≤ c && c ≤ 90) || (48 ≤ c && c ≤ 57) || c = 95 || c = 63

/-- A text that the parser takes as an identifier. -/
def IsIdentifier (name : Name) : Prop :=
  (∃ first ∈ name.head?, isLowercase first) ∧ ∀ c ∈ name, isIdentifierByte c

end Owl.Compiler

namespace Owl.Grammar

open Owl.Compiler

def isUppercase (c : UInt8) : Bool := 65 ≤ c && c ≤ 90

def isDigit (c : UInt8) : Bool := 48 ≤ c && c ≤ 57

/-- The two classes of bytes that the language leaves to `chomp`. -/
class Ascii where
  isWhitespace : UInt8 → Bool
  isEndOfLine : UInt8 → Bool
  /-- The space is the last byte that is white space. -/
  whitespace_le : ∀ c, isWhitespace c → c ≤ 32
  endOfLine_le : ∀ c, isEndOfLine c → c ≤ 32

/-- Space, tabulator and the ends of lines. -/
@[reducible] def Ascii.standard : Ascii where
  isWhitespace c := c = 32 || (9 ≤ c && c ≤ 13)
  isEndOfLine c := c = 10
  whitespace_le := by
    intro c space
    rw [Bool.or_eq_true, Bool.and_eq_true, decide_eq_true_iff, decide_eq_true_iff, decide_eq_true_iff] at space
    obtain rfl | ⟨_, below⟩ := space
    · exact UInt8.le_refl 32
    · exact UInt8.le_trans below (by decide)
  endOfLine_le := by
    intro c line
    rw [decide_eq_true_iff.mp line]
    decide

/-- What the grammar uses of `chomp`: its parsers, with what its documentation says of them, and its two classes of
bytes. -/
class Chomp where
  token : UInt8 → Parser UInt8 PUnit
  satisfy : (UInt8 → Bool) → Parser UInt8 UInt8
  string : Bytes → Parser UInt8 Bytes
  peekNext : Parser UInt8 UInt8
  takeWhile : (UInt8 → Bool) → Parser UInt8 Bytes
  takeWhile1 : (UInt8 → Bool) → Parser UInt8 Bytes
  or : {α : Type} → Parser UInt8 α → Parser UInt8 α → Parser UInt8 α
  option : {α : Type} → Parser UInt8 α → α → Parser UInt8 α
  sepBy : {α : Type} → Parser UInt8 α → Parser UInt8 PUnit → Parser UInt8 (List α)
  classes : Ascii
  token_eq : ∀ c, token c = Parser.token c
  satisfy_eq : ∀ p, satisfy p = Parser.satisfy p
  string_eq : ∀ text, string text = Parser.string text
  peekNext_eq : peekNext = Parser.peekNext
  takeWhile_eq : ∀ p, takeWhile p = Parser.takeWhile p
  takeWhile1_eq : ∀ p, takeWhile1 p = Parser.takeWhile1 p
  or_eq : ∀ {α : Type} (first second : Parser UInt8 α), or first second = Parser.or first second
  option_eq : ∀ {α : Type} (parser : Parser UInt8 α) (default : α), option parser default = Parser.option parser default
  sepBy_eq : ∀ {α : Type} (parser : Parser UInt8 α) (separator : Parser UInt8 PUnit),
    sepBy parser separator = Parser.sepBy parser separator

namespace Chomp

def isWhitespace [chomp : Chomp] : UInt8 → Bool := chomp.classes.isWhitespace

def isEndOfLine [chomp : Chomp] : UInt8 → Bool := chomp.classes.isEndOfLine

/-- The parsers as they are documented, with given classes of bytes. -/
instance ofAscii [ascii : Ascii] : Chomp where
  token := Parser.token
  satisfy := Parser.satisfy
  string := Parser.string
  peekNext := Parser.peekNext
  takeWhile := Parser.takeWhile
  takeWhile1 := Parser.takeWhile1
  or := Parser.or
  option := Parser.option
  sepBy := Parser.sepBy
  classes := ascii
  token_eq _ := rfl
  satisfy_eq _ := rfl
  string_eq _ := rfl
  peekNext_eq := rfl
  takeWhile_eq _ := rfl
  takeWhile1_eq _ := rfl
  or_eq _ _ := rfl
  option_eq _ _ := rfl
  sepBy_eq _ _ := rfl

/-- White space is what it usually is. -/
@[reducible] def standard : Chomp := @ofAscii .standard

/-- The documentation leaves only the classes of bytes open. -/
theorem exists_ascii (chomp : Chomp) : ∃ ascii : Ascii, chomp = @ofAscii ascii := by
  obtain ⟨token, satisfy, string, peekNext, takeWhile, takeWhile1, or, option, sepBy, classes, token_eq, satisfy_eq,
    string_eq, peekNext_eq, takeWhile_eq, takeWhile1_eq, or_eq, option_eq, sepBy_eq⟩ := chomp
  obtain rfl : token = Parser.token := funext token_eq
  obtain rfl : satisfy = Parser.satisfy := funext satisfy_eq
  obtain rfl : string = Parser.string := funext string_eq
  obtain rfl := peekNext_eq
  obtain rfl : takeWhile = Parser.takeWhile := funext takeWhile_eq
  obtain rfl : takeWhile1 = Parser.takeWhile1 := funext takeWhile1_eq
  obtain rfl : @or = @Parser.or UInt8 := by
    funext α first second
    exact or_eq first second
  obtain rfl : @option = @Parser.option UInt8 := by
    funext α parser default
    exact option_eq parser default
  obtain rfl : @sepBy = @Parser.sepBy UInt8 := by
    funext α parser separator
    exact sepBy_eq parser separator
  exact ⟨classes, rfl⟩

end Chomp

section Rules

variable [Chomp]

/-- White space. -/
def Blank (text : Bytes) : Prop := ∀ c ∈ text, Chomp.isWhitespace c

def skipWhitespace : Parser UInt8 PUnit := do
  let _ ← Chomp.takeWhile Chomp.isWhitespace

def skipNewlineAndWhitespace : Parser UInt8 PUnit := do
  let _ ← Chomp.takeWhile fun c => Chomp.isEndOfLine c || Chomp.isWhitespace c

def comma : Parser UInt8 PUnit := do
  skipWhitespace
  Chomp.token 44
  skipWhitespace

def anyCaseIdent : Parser UInt8 Name := Chomp.takeWhile1 isIdentifierByte

/-- An identifier whose first character is of a kind. -/
def identOf (first : UInt8 → Bool) : Parser UInt8 Name := do
  let firstChar ← Chomp.peekNext
  if first firstChar then anyCaseIdent else failure

def identifier : Parser UInt8 Name := identOf isLowercase

def capitalizedIdent : Parser UInt8 Name := identOf isUppercase

def argument : Parser UInt8 Name := identifier

def arity : Parser UInt8 UInt8 := do
  let digit ← Chomp.satisfy isDigit
  return digit - 48

def modulePrefix : Parser UInt8 (Option Name) := do
  let name ← capitalizedIdent
  let _ ← Chomp.string (bytes ".")
  return some name

def newline : Parser UInt8 Bytes := do
  let _ ← Chomp.string (bytes "\\n")
  return bytes "\n"

def horizontalTab : Parser UInt8 Bytes := do
  let _ ← Chomp.string (bytes "\\t")
  return bytes "\t"

def takeStringBody : Parser UInt8 Bytes :=
  Chomp.or newline <| Chomp.or horizontalTab <| Chomp.takeWhile (· ≠ 34)

def str : Parser UInt8 Expr := do
  Chomp.token 34
  let content ← takeStringBody
  Chomp.token 34
  return .str content

def boolTrue : Parser UInt8 Expr := do
  let _ ← Chomp.string (bytes "true")
  return .true

def boolFalse : Parser UInt8 Expr := do
  let _ ← Chomp.string (bytes "false")
  return .false

def bool : Parser UInt8 Expr := Chomp.or boolTrue boolFalse

def nil : Parser UInt8 Expr := do
  let _ ← Chomp.string (bytes "nil")
  return .nil

def ident : Parser UInt8 Expr := do
  let name ← identifier
  return .ident name

def int : Parser UInt8 Expr := do
  let digits ← Chomp.takeWhile1 isDigit
  return .int digits

def capture : Parser UInt8 Expr := do
  let module ← Chomp.option modulePrefix none
  let name ← identifier
  Chomp.token 92
  let arity ← arity
  return .capture module name arity

/-- The operators in the order in which they are tried. -/
def operators : List Bytes :=
  [bytes "++", bytes "+", bytes "-", bytes "==", bytes "!=", bytes ">=", bytes ">", bytes "<=", bytes "<",
    bytes "&&", bytes "||"]

def infixOp : Parser UInt8 Bytes := (operators.map Chomp.string).foldr Chomp.or failure

variable (expr : Parser UInt8 Expr)

def block : Parser UInt8 (List Expr) := do
  Chomp.token 123
  skipNewlineAndWhitespace
  let body ← Chomp.sepBy expr skipNewlineAndWhitespace
  skipNewlineAndWhitespace
  Chomp.token 125
  return body

def elseBranch : Parser UInt8 (List Expr) := do
  let _ ← Chomp.string (bytes "else")
  skipNewlineAndWhitespace
  block expr

def ifExpr : Parser UInt8 Expr := do
  let _ ← Chomp.string (bytes "if")
  let _ ← Chomp.satisfy Chomp.isWhitespace
  let condition ← expr
  skipNewlineAndWhitespace
  let body ← block expr
  skipNewlineAndWhitespace
  let elseBody ← Chomp.option (elseBranch expr) []
  return .if condition body elseBody

/-- The bound name is read as an identifier, so building the node cannot fail. -/
def letExpr : Parser UInt8 Expr := do
  let _ ← Chomp.string (bytes "let")
  let _ ← Chomp.satisfy Chomp.isWhitespace
  let left ← identifier
  skipWhitespace
  Chomp.token 61
  skipWhitespace
  let right ← expr
  return .let left right

def anonFn : Parser UInt8 Expr := do
  Chomp.token 40
  let args ← Chomp.sepBy argument comma
  Chomp.token 41
  let _ ← Chomp.satisfy Chomp.isWhitespace
  skipWhitespace
  let _ ← Chomp.string (bytes "=>")
  skipWhitespace
  let body ← block expr
  return .anonFn args body

def apply : Parser UInt8 Expr := do
  let module ← Chomp.option modulePrefix none
  let name ← identifier
  Chomp.token 40
  skipWhitespace
  let args ← Chomp.sepBy expr comma
  skipWhitespace
  Chomp.token 41
  return .apply module name args

def unary : Parser UInt8 Expr := do
  let _ ← Chomp.string (bytes "!")
  let arg ← expr
  return .apply none (bytes "!") [arg]

def tuple : Parser UInt8 Expr := do
  Chomp.token 40
  let elems ← Chomp.sepBy expr comma
  Chomp.token 41
  return .tuple elems

def list : Parser UInt8 Expr := do
  Chomp.token 91
  let elems ← Chomp.sepBy expr comma
  Chomp.token 93
  return .list elems

/-- What may stand on the left of an operator. -/
def operand : Parser UInt8 Expr :=
  Chomp.or str <| Chomp.or (list expr) <| Chomp.or int <| Chomp.or nil <| Chomp.or bool <| Chomp.or (apply expr) ident

def infixExpr : Parser UInt8 Expr := do
  let lhs ← operand expr
  skipWhitespace
  let op ← infixOp
  skipWhitespace
  let rhs ← expr
  return .apply none op [lhs, rhs]

/-- The alternatives of an expression in the order in which they are tried. -/
def alternatives : Parser UInt8 Expr :=
  Chomp.or (ifExpr expr) <| Chomp.or (letExpr expr) <| Chomp.or (infixExpr expr) <| Chomp.or (anonFn expr) <|
  Chomp.or str <| Chomp.or (apply expr) <| Chomp.or capture <| Chomp.or (unary expr) <| Chomp.or (tuple expr) <|
  Chomp.or (list expr) <| Chomp.or nil <| Chomp.or bool <| Chomp.or ident int

def function : Parser UInt8 FunctionDef := do
  let _ ← Chomp.string (bytes "fn")
  let _ ← Chomp.satisfy Chomp.isWhitespace
  let name ← identifier
  Chomp.token 40
  skipWhitespace
  let args ← Chomp.sepBy argument comma
  skipWhitespace
  Chomp.token 41
  skipNewlineAndWhitespace
  let body ← block expr
  return { name, args, body }

def module : Parser UInt8 ModuleDef := do
  let _ ← Chomp.string (bytes "module")
  let _ ← Chomp.satisfy Chomp.isWhitespace
  let name ← capitalizedIdent
  skipNewlineAndWhitespace
  Chomp.token 123
  skipNewlineAndWhitespace
  let functions ← Chomp.sepBy (function expr) skipNewlineAndWhitespace
  skipNewlineAndWhitespace
  Chomp.token 125
  skipNewlineAndWhitespace
  return { name, functions }

end Rules

section Entry

variable [Chomp]

/-- `expr`, with fuel for nested expressions. -/
def expr : ℕ → Parser UInt8 Expr
  | 0 => failure
  | fuel + 1 => alternatives (expr fuel)

/-- Runs a rule on a whole input. What the rule leaves is not looked at. -/
def parseOnly {α : Type} (rule : Parser UInt8 Expr → Parser UInt8 α) (input : Bytes) : Option α :=
  (rule (expr (input.length + 1)) input).map Prod.fst

def parseExpr : Bytes → Option Expr := parseOnly id

def parseFn : Bytes → Option FunctionDef := parseOnly (function)

def parseModule : Bytes → Option ModuleDef := parseOnly (module)

end Entry

end Owl.Grammar
