/-!
# Binary floating point

The nonnegative values of 64-bit binary floating point, and rounding of exact fractions to them.
All arithmetic is exact on natural numbers, so nothing depends on the machine's own floats.
-/

namespace ClassWeave

inductive Binary64 where
  /-- The value `mantissa * 2 ^ (exponent - 1074)`; the mantissa is below `2 ^ 53`. -/
  | finite (mantissa exponent : Nat)
  | infinite
deriving DecidableEq, Repr, Inhabited

namespace Binary64

def roundDiv (num den : Nat) : Nat :=
  let q := num / den
  let r := num % den
  if den < 2 * r || (2 * r == den && q % 2 == 1) then q + 1 else q

/-- The largest `k` with `2 ^ k * den ≤ num * 2 ^ 1074`, so the place of the leading bit counted
from the smallest positive value. -/
def leadingBit (num den : Nat) : Nat := (num * Nat.pow 2 1074 / den).log2

def ofFraction (num den : Nat) : Binary64 :=
  if num = 0 || den = 0 then .finite 0 0
  else
    let exponent := leadingBit num den - 52
    let mantissa := roundDiv (num * Nat.pow 2 1074) (den * Nat.pow 2 exponent)
    let (mantissa, exponent) :=
      if mantissa < Nat.pow 2 53 then (mantissa, exponent) else (mantissa / 2, exponent + 1)
    if exponent ≤ 2045 then .finite mantissa exponent else .infinite

/-- The value nearest to `digits * 10 ^ scale`. Scales so far out that the result is zero or
infinite whatever the digits say are not computed. -/
def ofDecimal (digits : Nat) (scale : Int) : Binary64 :=
  let size : Int := (Nat.toDigits 10 digits).length
  if digits = 0 || size + scale < -400 then .finite 0 0
  else if 400 < size + scale then .infinite
  else match scale with
    | .ofNat n => ofFraction (digits * Nat.pow 10 n) 1
    | .negSucc n => ofFraction digits (Nat.pow 10 (n + 1))

def roundNat (n : Nat) : Nat :=
  let drop := n.log2 - 52
  roundDiv n (Nat.pow 2 drop) * Nat.pow 2 drop

def ofRadix (radix : Nat) (digits : List Nat) : Binary64 :=
  ofFraction (digits.foldl (fun value digit => roundNat (value * radix + digit)) 0) 1

end Binary64
end ClassWeave
