import Mathlib.Data.UInt

/-! # Abstract syntax of Owl modules

The tree that the parser hands to the generator. Identifiers, digits and string bodies are byte
slices of the source file: the parser builds them with `from_utf8_unchecked`, so nothing promises
that a string body is valid UTF-8 and every length the emitter writes is a length in bytes.
-/

namespace Owl.Compiler

abbrev Bytes := List UInt8

/-- The bytes of an ASCII text that the compiler spells out. -/
def bytes (text : String) : Bytes := text.toUTF8.data.toList

abbrev Name := Bytes

/-- The thirteen expression forms of the language. -/
inductive Expr where
  | int (value : Bytes)
  | true
  | false
  | nil
  | «let» (left : Name) (right : Expr)
  | ident (name : Name)
  | apply (module : Option Name) (name : Name) (args : List Expr)
  | «if» (condition : Expr) (body elseBody : List Expr)
  | tuple (elems : List Expr)
  | list (elems : List Expr)
  | str (value : Bytes)
  | capture (module : Option Name) (name : Name) (arity : UInt8)
  | anonFn (args : List Name) (body : List Expr)
deriving Repr

/-- A named function of a module; an argument is just its name. -/
structure FunctionDef where
  name : Name
  args : List Name
  body : List Expr
deriving Repr

structure ModuleDef where
  name : Name
  functions : List FunctionDef
deriving Repr

end Owl.Compiler
