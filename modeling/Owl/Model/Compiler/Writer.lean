import Owl.Model.Compiler.Parser
import Owl.ToMathlib.Reading

/-! # Writing modules

A text for each module and each spacing, and the modules that have a text. The compiler only reads: this is what
its grammar is for.
-/

namespace Owl.Grammar

open Owl.Compiler Parser

/-- A name that starts with a letter of a kind. -/
def IsWord (first : UInt8 → Bool) (name : Name) : Prop :=
  (∃ c ∈ name.head?, first c) ∧ ∀ c ∈ name, isIdentifierByte c

/-- The words that are values. -/
def valueWords : List Bytes := [bytes "nil", bytes "true", bytes "false"]

/-- A name that no value starts. -/
def StartsNoValue (name : Name) : Prop := ∀ word ∈ valueWords, ¬ word <+: name

/-- What may stand on the left of an operator. The words that are values are tried before names. -/
def IsOperand : Expr → Prop
  | .int _ | .true | .false | .nil | .ident _ | .list _ | .str _ => True
  | .apply module name _ => IsWord isLowercase name ∧ (module = none → StartsNoValue name)
  | _ => False

/-- An expression that some text stands for. -/
inductive Writable : Expr → Prop where
  | int {value : Bytes} (some' : value ≠ []) (digits : ∀ c ∈ value, isDigit c) : Writable (.int value)
  | true : Writable .true
  | false : Writable .false
  | nil : Writable .nil
  | let {left : Name} {right : Expr} (isName : IsWord isLowercase left) : Writable right → Writable (.let left right)
  | ident {name : Name} (isName : IsWord isLowercase name) (plain : StartsNoValue name) : Writable (.ident name)
  | call {module : Option Name} {name : Name} {args : List Expr} (isModule : ∀ m ∈ module, IsWord isUppercase m)
      (isName : IsWord isLowercase name) : (∀ arg ∈ args, Writable arg) → Writable (.apply module name args)
  | unary {arg : Expr} : Writable arg → Writable (.apply none (bytes "!") [arg])
  | operation {op : Bytes} {lhs rhs : Expr} (member : op ∈ operators) (operand : IsOperand lhs) :
      Writable lhs → Writable rhs → Writable (.apply none op [lhs, rhs])
  | if {condition : Expr} {body elseBody : List Expr} : Writable condition → (∀ e ∈ body, Writable e) →
      (∀ e ∈ elseBody, Writable e) → Writable (.if condition body elseBody)
  | tuple {elems : List Expr} : (∀ e ∈ elems, Writable e) → Writable (.tuple elems)
  | list {elems : List Expr} : (∀ e ∈ elems, Writable e) → Writable (.list elems)
  | str {value : Bytes} (inside : ∀ c ∈ value, c ≠ 34) (noNewline : ¬ bytes "\\n" <+: value)
      (noTab : ¬ bytes "\\t" <+: value) : Writable (.str value)
  | capture {module : Option Name} {name : Name} {arity : UInt8} (isModule : ∀ m ∈ module, IsWord isUppercase m)
      (isName : IsWord isLowercase name) (digit : arity ≤ 9) : Writable (.capture module name arity)
  | anonFn {args : List Name} {body : List Expr} (names : ∀ arg ∈ args, IsWord isLowercase arg) :
      (∀ e ∈ body, Writable e) → Writable (.anonFn args body)

structure WritableFunction (f : FunctionDef) : Prop where
  isName : IsWord isLowercase f.name
  args : ∀ arg ∈ f.args, IsWord isLowercase arg
  body : ∀ e ∈ f.body, Writable e

structure WritableModule (m : ModuleDef) : Prop where
  isName : IsWord isUppercase m.name
  functions : ∀ f ∈ m.functions, WritableFunction f

/-- The white space of a text: behind a keyword, around operators and commas, and between lines. -/
structure Spacing [Chomp] where
  space : UInt8
  gap : Bytes
  line : Bytes
  isSpace : Chomp.isWhitespace space
  gap_blank : ∀ c ∈ gap, Chomp.isWhitespace c
  line_blank : ∀ c ∈ line, Chomp.isEndOfLine c || Chomp.isWhitespace c
  /-- A word that is a keyword too is none when two blanks follow it. -/
  line_long : 2 ≤ line.length

/-- A single space, and an indented new line. -/
def Spacing.standard : @Spacing .standard :=
  letI := Chomp.standard
  { space := 32
    gap := [32]
    line := [10, 32, 32]
    isSpace := rfl
    gap_blank := List.all_eq_true.mp rfl
    line_blank := List.all_eq_true.mp rfl
    line_long := by decide }

def prefixText : Option Name → Bytes
  | none => []
  | some module => module ++ bytes "."

namespace Spacing

variable [Chomp] (spacing : Spacing)

/-- Texts between commas. -/
def commas (texts : List Bytes) : Bytes := separated (spacing.gap ++ 44 :: spacing.gap) texts

def blockText (texts : List Bytes) : Bytes :=
  123 :: spacing.line ++ separated spacing.line texts ++ (spacing.line ++ [125])

def callText (module : Option Name) (name : Name) (args : List Bytes) : Bytes :=
  prefixText module ++ (name ++ 40 :: (spacing.commas args ++ [41]))

def applyText : Option Name → Name → List Bytes → Bytes
  | none, name, [arg] => if name = bytes "!" then bytes "!" ++ arg else spacing.callText none name [arg]
  | none, name, [lhs, rhs] =>
    if operators.contains name then lhs ++ (spacing.gap ++ name ++ (spacing.gap ++ rhs))
    else spacing.callText none name [lhs, rhs]
  | module, name, args => spacing.callText module name args

mutual

def exprText : Expr → Bytes
  | .int value => value
  | .true => bytes "true"
  | .false => bytes "false"
  | .nil => bytes "nil"
  | .let left right => bytes "let" ++ spacing.space :: (left ++ (spacing.gap ++ 61 :: (spacing.gap ++ exprText right)))
  | .ident name => name
  | .apply module name args => spacing.applyText module name (exprTexts args)
  | .if condition body elseBody =>
    bytes "if" ++ spacing.space :: (exprText condition ++ (spacing.line ++ (spacing.blockText (exprTexts body) ++
      (spacing.line ++ (bytes "else" ++ (spacing.line ++ spacing.blockText (exprTexts elseBody)))))))
  | .tuple elems => 40 :: (spacing.commas (exprTexts elems) ++ [41])
  | .list elems => 91 :: (spacing.commas (exprTexts elems) ++ [93])
  | .str value => 34 :: (value ++ [34])
  | .capture module name arity => prefixText module ++ (name ++ [92, 48 + arity])
  | .anonFn args body =>
    40 :: (spacing.commas args ++ 41 :: spacing.space :: (bytes "=>" ++
      (spacing.gap ++ spacing.blockText (exprTexts body))))

def exprTexts : List Expr → List Bytes
  | [] => []
  | e :: es => exprText e :: exprTexts es

end

def functionText (f : FunctionDef) : Bytes :=
  bytes "fn" ++ spacing.space :: (f.name ++ 40 :: (spacing.commas f.args ++ 41 :: (spacing.line ++
    spacing.blockText (spacing.exprTexts f.body))))

def moduleText (m : ModuleDef) : Bytes :=
  bytes "module" ++ spacing.space :: (m.name ++ (spacing.line ++ 123 :: (spacing.line ++
    (separated spacing.line (m.functions.map spacing.functionText) ++ (spacing.line ++ 125 :: spacing.line)))))

theorem exprTexts_eq (es : List Expr) : spacing.exprTexts es = es.map spacing.exprText := by
  induction es with
  | nil => rfl
  | cons e es ih => rw [exprTexts, ih, List.map_cons]

end Spacing

end Owl.Grammar
