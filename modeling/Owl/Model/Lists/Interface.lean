import Owl.Model.Lists.Slice
import Owl.Model.Runtime.Term

/-! # The functions on list terms

The public functions take indices as terms. The payload of a term has 61 bits; the functions of the tree take
words of 32 bits. An element is a term, and the zero word is `NULL`.
-/

namespace Owl.Lists

open Owl.Runtime

/-- `owl_list_nth`. -/
def owlListNth (list : Rrb Term) (owlIndex : Term) : Option Term := do
  let found ← rrbNth list (u32 (intOf owlIndex).toNat)
  match found with
  | none => return OWL_NIL
  | some elem => if elem = 0 then return OWL_NIL else return elem

/-- `owl_list_slice`. -/
def owlListSlice (list : Rrb Term) (start stop : Term) : Option (Rrb Term) :=
  rrbSlice list (u32 (intOf start).toNat) (u32 (intOf stop).toNat)

end Owl.Lists
