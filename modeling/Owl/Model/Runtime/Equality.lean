import Owl.Model.Compiler.Ast
import Owl.Model.Lists.Node
import Owl.Model.Runtime.Term

/-! # Comparing terms

`owl_terms_eq` looks at tags before it looks at constants, and follows the address of a term for tuples,
lists and strings. An address holds an object or nothing that may be read. The comparison takes fuel; without
enough of it the comparison is still running.
-/

namespace Owl.Runtime

open Owl.Lists
open Compiler (Bytes)

/-- What stands at an address: an allocated object, an interned text or the static empty list. -/
inductive Stored where
  | tuple (words : List Term)
  | string (text : Bytes)
  | list (rrb : Rrb Term)
  | function

abbrev Store := ℕ → Option Stored

inductive Halt where
  | running
  | badAddress
deriving DecidableEq, Repr

namespace Store

/-- `owl_extract_ptr` of a tuple. -/
def tupleAt (store : Store) (term : Term) : Except Halt (List Term) :=
  match store (extractPtr term) with
  | some (.tuple words) => .ok words
  | _ => .error .badAddress

/-- `owl_extract_ptr` of a string. -/
def stringAt (store : Store) (term : Term) : Except Halt Bytes :=
  match store (extractPtr term) with
  | some (.string text) => .ok text
  | _ => .error .badAddress

/-- `list_to_rrb`. -/
def listAt (store : Store) (term : Term) : Except Halt (Rrb Term) :=
  match store (extractPtr term) with
  | some (.list rrb) => .ok rrb
  | _ => .error .badAddress

end Store

/-- `ary[i]`. -/
def wordAt (words : List Term) (i : ℕ) : Except Halt Term :=
  match words[i]? with
  | some word => .ok word
  | none => .error .badAddress

/-- `(owl_term) rrb_nth(rrb, i)`. -/
def nthAt (rrb : Rrb Term) (i : ℕ) : Except Halt Term :=
  match rrbNth rrb i with
  | some found => .ok (found.getD 0)
  | none => .error .badAddress

/-- The words of two tuples at an index. -/
def wordsAt (left right : List Term) (i : ℕ) : Except Halt (Term × Term) := do
  return (← wordAt left i, ← wordAt right i)

/-- The elements of two lists at an index. -/
def nthsAt (left right : Rrb Term) (i : ℕ) : Except Halt (Term × Term) := do
  return (← nthAt left i, ← nthAt right i)

mutual

/-- `owl_terms_eq`. -/
def termsEq (store : Store) : ℕ → Term → Term → Except Halt Bool
  | 0, _, _ => .error .running
  | fuel + 1, left, right =>
      if left = right then .ok true
      else if tagOf left ≠ tagOf right then .ok false
      else if tagOf left = Tag.int.bits then .ok (left = right)
      else if tagOf left = Tag.tuple.bits then do
        let leftAry ← store.tupleAt left
        let rightAry ← store.tupleAt right
        let leftSize := (← wordAt leftAry 0).toUInt8
        let rightSize := (← wordAt rightAry 0).toUInt8
        if leftSize ≠ rightSize then return false
        -- `for (uint8_t i = 1; i <= left_size; i++)`
        else elemsEq store fuel 8 (leftSize.toNat + 1) (wordsAt leftAry rightAry) 1
      else if tagOf left = Tag.list.bits then do
        let leftList ← store.listAt left
        let rightList ← store.listAt right
        if rrbCount leftList ≠ rrbCount rightList then return false
        -- `for (uint32_t i = 0; i < left_count; i++)`
        else elemsEq store fuel 32 (rrbCount leftList) (nthsAt leftList rightList) 0
      else if tagOf left = Tag.string.bits then do
        let leftStr ← store.stringAt left
        let rightStr ← store.stringAt right
        return leftStr = rightStr
      else .ok false

/-- The loop over the elements of two tuples or two lists, with a counter of some bits. -/
def elemsEq (store : Store) : ℕ → ℕ → ℕ → (ℕ → Except Halt (Term × Term)) → ℕ → Except Halt Bool
  | 0, _, _, _, _ => .error .running
  | fuel + 1, width, stop, pair, i =>
      if i < stop then do
        let (left, right) ← pair i
        let equal ← termsEq store fuel left right
        if equal then elemsEq store fuel width stop pair ((i + 1) % 2 ^ width)
        else return false
      else .ok true

end

end Owl.Runtime
