import Owl.Model.Runtime.Heap

/-! # Operations on text

Text ends at its first zero byte. `owl_string_slice` keeps its bounds in `int` variables, and their
difference wraps around in 32 bits.
-/

namespace Owl.Runtime

/-- How an operation on text ends without a result. -/
inductive TextFault where
  | stopped (message : String)
  | readsOutside
deriving DecidableEq, Repr

/-- A 64-bit word in an `int` variable. -/
def toInt (word : ℕ) : ℤ := if word % 2 ^ 32 < 2 ^ 31 then word % 2 ^ 32 else word % 2 ^ 32 - 2 ^ 32

/-- The value of an `int` expression, in two's complement. -/
def wrapInt (value : ℤ) : ℤ := (value + 2 ^ 31) % 2 ^ 32 - 2 ^ 31

/-- `memcpy` from the bytes of a text and its terminator. -/
def copyFrom (text : Bytes) (start : ℤ) (size : ℕ) : Except TextFault Bytes :=
  if 0 ≤ start ∧ start.toNat + size ≤ text.length + 1 then
    .ok (((text ++ [0]).drop start.toNat).take size)
  else
    .error .readsOutside

/-- The text that starts a buffer. -/
def textOf (buffer : Bytes) : Bytes := buffer.takeWhile (· ≠ 0)

/-- `owl_string_slice`: the text of the new string. -/
def stringSlice (text : Bytes) (start stop : Term) : Except TextFault Bytes := do
  let fromInt := toInt (intOf start).toNat
  let toInt := toInt (min (intOf stop).toNat text.length)
  let sliceSize := wrapInt (toInt - fromInt)
  if sliceSize < 1 then
    throw (.stopped "Slice size must be more over 0")
  else
    let sliced ← copyFrom text fromInt sliceSize.toNat
    return textOf (sliced ++ [0])

end Owl.Runtime
