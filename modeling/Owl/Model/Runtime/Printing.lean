import Owl.Model.Compiler.Instruction
import Owl.Model.Runtime.Strings

/-! # Printing terms

`owl_term_print` and `owl_term_to_string` walk over the same terms. A datum is what such a walk reads:
the payload of an integer, the bytes of a text, the elements of a tuple or a list, the name of a
function.
-/

namespace Owl.Runtime

open Compiler (decimal)

inductive Datum where
  | int (payload : ℕ)
  | «false»
  | «true»
  | nil
  | string (text : Bytes)
  | tuple (elems : List Datum)
  | list (elems : List Datum)
  | function (name : Bytes)
deriving Repr

/-- `printf("%d", value)`. -/
def formatInt (value : ℤ) : Bytes :=
  if value < 0 then bytes "-" ++ decimal value.natAbs else decimal value.natAbs

/-- `for (uint8_t i = 1; i <= size; i++)`: the counter passes every size but the largest. -/
def countsTo (size : ℕ) : Bool := size < 255

mutual

/-- The text that `owl_term_print` writes; a loop that does not end has none. -/
def Datum.print : Datum → Option Bytes
  | .int payload => some (formatInt (toInt payload))
  | .false => some (bytes "false")
  | .true => some (bytes "true")
  | .nil => some (bytes "nil")
  | .string text => some text
  | .tuple elems =>
      if countsTo elems.length then (Datum.prints elems).map (bytes ", ").intercalate else none
  | .list elems =>
      (Datum.prints elems).map fun texts => bytes "[" ++ (bytes ", ").intercalate texts ++ bytes "]"
  | .function name => some name

def Datum.prints : List Datum → Option (List Bytes)
  | [] => some []
  | elem :: elems => do
      let text ← elem.print
      let texts ← Datum.prints elems
      return text :: texts

end

mutual

/-- The content of the string that `owl_term_to_string` returns. -/
def Datum.toText : Datum → Option Bytes
  | .int payload => some (decimal payload)
  | .false => some (bytes "false")
  | .true => some (bytes "true")
  | .nil => some (bytes "nil")
  | .string text => some text
  | .tuple elems => if countsTo elems.length then (Datum.toTexts elems).map List.flatten else none
  | .list elems =>
      (Datum.toTexts elems).map fun texts => bytes "[" ++ (bytes ", ").intercalate texts ++ bytes "]"
  | .function name => some name

def Datum.toTexts : List Datum → Option (List Bytes)
  | [] => some []
  | elem :: elems => do
      let text ← elem.toText
      let texts ← Datum.toTexts elems
      return text :: texts

end

end Owl.Runtime
