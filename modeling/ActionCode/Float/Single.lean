/-!
# Single precision

Conversion between the bits of a double and the bits of a single, on integers. Widening is
exact; narrowing goes to the nearest single, and to the even one of two that are equally near.
-/

namespace ActionCode.Single

/-- The number of binary digits of a number. -/
def bitLength (n : Nat) : Nat := if n = 0 then 0 else n.log2 + 1

/-- `n` divided by `2 ^ shift`, to the nearest integer and to the even one of two. -/
def roundShift (n shift : Nat) : Nat :=
  let quotient := n / 2 ^ shift
  let twice := 2 * (n % 2 ^ shift)
  if twice > 2 ^ shift ∨ (twice = 2 ^ shift ∧ quotient % 2 = 1) then quotient + 1 else quotient

/-- The bits of the double with the value of a single. -/
def widen (bits : UInt32) : UInt64 :=
  let n := bits.toNat
  let sign := n / 2 ^ 31
  let exponent := n / 2 ^ 23 % 2 ^ 8
  let fraction := n % 2 ^ 23
  let magnitude :=
    if exponent = 255 then 2047 * 2 ^ 52 + fraction * 2 ^ 29
    else if exponent ≠ 0 then (exponent + 896) * 2 ^ 52 + fraction * 2 ^ 29
    else if fraction = 0 then 0
    else
      let length := bitLength fraction
      (length + 873) * 2 ^ 52 + (fraction * 2 ^ (53 - length) - 2 ^ 52)
  (sign * 2 ^ 63 + magnitude).toUInt64

/-- The bits of the single nearest to a double, unless it is finite and too large for one. -/
def narrow? (bits : UInt64) : Option UInt32 :=
  let n := bits.toNat
  let sign := n / 2 ^ 63 * 2 ^ 31
  let exponent := n / 2 ^ 52 % 2 ^ 11
  let fraction := n % 2 ^ 52
  let infinity := 255 * 2 ^ 23
  if exponent = 2047 then
    if fraction = 0 then some (sign + infinity).toUInt32
    else some (sign + infinity + 2 ^ 22 + fraction / 2 ^ 29 % 2 ^ 22).toUInt32
  else
    -- The value is `significand * 2 ^ (scale - 1074)`, and `unit - 149` is the exponent of the
    -- last binary place that a single of this size has.
    let significand := if exponent = 0 then fraction else fraction + 2 ^ 52
    let scale := exponent - 1
    let unit := scale + bitLength significand - 949
    let magnitude := unit * 2 ^ 23 + roundShift significand (unit + 925 - scale)
    if magnitude ≥ infinity then none else some (sign + magnitude).toUInt32

end ActionCode.Single
