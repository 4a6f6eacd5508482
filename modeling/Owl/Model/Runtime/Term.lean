import Mathlib.Data.Nat.Bitwise
import Mathlib.Tactic.NormNum
import Mathlib.Tactic.IntervalCases

/-! # Owl terms

A term is a 64-bit word: a payload above a three-bit tag. Integers keep their payload, all other
tagged terms hold an address. The constants false, true and nil are small even words; they carry the
bits of a tag, so the code compares them before it looks at tags.
-/

namespace Owl.Runtime

/-- `owl_term`. -/
abbrev Term := UInt64

inductive Tag where
  | pointer
  | int
  | tuple
  | list
  | string
  | function
deriving DecidableEq, Repr

/-- The values of `owl_tag`. -/
def Tag.bits : Tag → UInt64
  | pointer => 0
  | int => 1
  | tuple => 2
  | list => 3
  | string => 4
  | function => 5

/-- `owl_tag_as`. -/
def tagAs (term : UInt64) (tag : Tag) : Term := (term <<< 3) ||| tag.bits

/-- `owl_tag_of`; the two bit patterns without a tag of their own stay numbers. -/
def tagOf (term : Term) : UInt64 := term &&& 7

/-- `owl_extract_ptr`. -/
def extractPtr (term : Term) : ℕ := (term >>> 3).toNat

/-- `owl_int_from`. -/
def intFrom (val : UInt64) : Term := tagAs val .int

/-- `int_from_owl_int`: the payload of a term, whatever its tag. -/
def intOf (term : Term) : UInt64 := term >>> 3

def OWL_FALSE : Term := 2
def OWL_TRUE : Term := 4
def OWL_NIL : Term := 6

def falsey (term : Term) : Bool := term = OWL_FALSE || term = OWL_NIL

def truthy (term : Term) : Bool := !falsey term

/-- `owl_negate`. -/
def negate (term : Term) : Term := if truthy term then OWL_FALSE else OWL_TRUE

/-- `owl_bool`. -/
def ofBool (val : Bool) : Term := if val then OWL_TRUE else OWL_FALSE

theorem Tag.bits_lt (tag : Tag) : tag.bits.toNat < 8 := by cases tag <;> decide

theorem tagOf_toNat (term : Term) : (tagOf term).toNat = term.toNat % 8 := by
  rw [tagOf, UInt64.toNat_and]
  exact Nat.and_two_pow_sub_one_eq_mod term.toNat 3

theorem extractPtr_eq (term : Term) : extractPtr term = term.toNat / 8 := by
  rw [extractPtr, UInt64.toNat_shiftRight, Nat.shiftRight_eq_div_pow]
  rfl

theorem shiftOr_toNat (word : UInt64) {bits : UInt64} (small : bits.toNat < 8) :
    ((word <<< 3) ||| bits).toNat = word.toNat % 2 ^ 61 * 8 + bits.toNat := by
  have shifted : (word <<< 3).toNat = (word.toNat % 2 ^ 61) <<< 3 := by
    rw [UInt64.toNat_shiftLeft, show (3 : UInt64).toNat % 64 = 3 from rfl, Nat.shiftLeft_eq,
      Nat.shiftLeft_eq]
    omega
  rw [UInt64.toNat_or, shifted, ← Nat.shiftLeft_add_eq_or_of_lt small, Nat.shiftLeft_eq]

theorem tagAs_toNat (word : UInt64) (tag : Tag) :
    (tagAs word tag).toNat = word.toNat % 2 ^ 61 * 8 + tag.bits.toNat :=
  shiftOr_toNat word tag.bits_lt

@[simp] theorem tagOf_tagAs (word : UInt64) (tag : Tag) : tagOf (tagAs word tag) = tag.bits := by
  have small := tag.bits_lt
  rw [← UInt64.toNat_inj, tagOf_toNat, tagAs_toNat]
  omega

private theorem extractPtr_tagAs (word : UInt64) (tag : Tag) :
    extractPtr (tagAs word tag) = word.toNat % 2 ^ 61 := by
  have small := tag.bits_lt
  rw [extractPtr_eq, tagAs_toNat]
  omega

/-- A tag that is put on another address. -/
theorem tagOf_shiftOr (word term : UInt64) : tagOf ((word <<< 3) ||| tagOf term) = tagOf term := by
  have tag := tagOf_toNat term
  rw [← UInt64.toNat_inj, tagOf_toNat, shiftOr_toNat word (by omega)]
  omega

theorem extractPtr_shiftOr {address : ℕ} (small : address < 2 ^ 61) (term : UInt64) :
    extractPtr ((UInt64.ofNat address <<< 3) ||| tagOf term) = address := by
  have tag := tagOf_toNat term
  rw [extractPtr_eq, shiftOr_toNat _ (by omega), UInt64.toNat_ofNat_of_lt' (by simp only [UInt64.size]; omega)]
  omega

/-- An address below `2 ^ 61` survives tagging. -/
theorem extractPtr_tagAs_ofNat {address : ℕ} (small : address < 2 ^ 61) (tag : Tag) :
    extractPtr (tagAs (UInt64.ofNat address) tag) = address := by
  rw [extractPtr_tagAs, UInt64.toNat_ofNat_of_lt' (by simp only [UInt64.size]; omega)]
  omega

theorem intOf_toNat (term : Term) : (intOf term).toNat = term.toNat / 8 := extractPtr_eq term

theorem intOf_intFrom (word : UInt64) : (intOf (intFrom word)).toNat = word.toNat % 2 ^ 61 :=
  extractPtr_tagAs word .int

/-- A term is its payload with its tag. -/
theorem term_ext {left right : Term} (payload : extractPtr left = extractPtr right)
    (tag : tagOf left = tagOf right) : left = right := by
  rw [extractPtr_eq, extractPtr_eq] at payload
  rw [← UInt64.toNat_inj, tagOf_toNat, tagOf_toNat] at tag
  rw [← UInt64.toNat_inj]
  omega

end Owl.Runtime
