import ClassWeave.Number.Binary64
/-!
# Shortest decimal text

The text of a number is the one with the fewest significant digits that rounds back to it, and of
those the nearest. `Decimal` holds digits and scale; `Decimal.text` lays them out.
-/

namespace ClassWeave

structure Decimal where
  digits : Nat
  scale : Int
deriving DecidableEq, Repr

namespace Binary64

/-- An exact interval around a value: every fraction that rounds to it, in units of
`2 ^ (-1076)`, with `closed` telling whether the ends belong to it. -/
structure Interval where
  low : Nat
  value : Nat
  high : Nat
  closed : Bool

def interval (mantissa exponent : Nat) : Interval :=
  let unit := Nat.pow 2 exponent
  let value := 4 * mantissa * unit
  let below := if mantissa = Nat.pow 2 52 && 0 < exponent then unit else 2 * unit
  ⟨value - below, value, value + 2 * unit, mantissa % 2 == 0⟩

def Interval.has (i : Interval) (num den : Nat) : Bool :=
  if i.closed then i.low * den ≤ num && num ≤ i.high * den
  else i.low * den < num && num < i.high * den

/-- The multiple of `10 ^ scale` that lies in the interval and is nearest to its value, if one of
the value's two neighbours among those multiples lies in it. -/
def onGrid (i : Interval) (scale : Int) : Option Decimal :=
  let (up, down) : Nat × Nat := match scale with
    | .ofNat n => (Nat.pow 10 n * Nat.pow 2 1076, 1)
    | .negSucc n => (Nat.pow 2 1076, Nat.pow 10 (n + 1))
  let lower := i.value * down / up
  let upper := lower + 1
  let inside := fun digits => i.has (digits * up) down
  let fromLower := i.value * down - lower * up
  let toUpper := upper * up - i.value * down
  let preferLower := fromLower < toUpper || (fromLower == toUpper && lower % 2 == 0)
  match inside lower, inside upper with
  | true, true => some ⟨if preferLower then lower else upper, scale⟩
  | true, false => some ⟨lower, scale⟩
  | false, true => some ⟨upper, scale⟩
  | false, false => none

/-- The largest `d` with `10 ^ d` at most the value, searched downwards from `10 ^ 308`. -/
def magnitude (value : Nat) : Nat → Int
  | 0 => -324
  | n + 1 =>
    let d : Int := n - 324
    let reached : Bool := match d with
      | .ofNat k => Nat.pow 10 k * Nat.pow 2 1076 ≤ value
      | .negSucc k => Nat.pow 2 1076 ≤ value * Nat.pow 10 (k + 1)
    if reached then d else magnitude value n

def firstHit (i : Interval) (top : Int) (count : Nat) : Nat → Decimal
  | 0 => ⟨0, 0⟩
  | n + 1 => (onGrid i (top - count + 1)).getD (firstHit i top (count + 1) n)

def shortest (mantissa exponent : Nat) : Decimal :=
  if mantissa = 0 then ⟨0, 0⟩
  else
    let i := interval mantissa exponent
    firstHit i (magnitude i.value 633) 1 17

end Binary64

namespace Decimal

def significant (digits : Nat) : List Char :=
  ((Nat.toDigits 10 digits).reverse.dropWhile (· == '0')).reverse

/-- Digits positionally while the point stays within 21 places and at most six zeros lead; with an
exponent otherwise. -/
def text (d : Decimal) : List Char :=
  if d.digits = 0 then ['0']
  else
    let all := Nat.toDigits 10 d.digits
    let kept := significant d.digits
    let point : Int := all.length + d.scale
    if 0 < point && point ≤ 21 then
      let whole := point.toNat
      if kept.length ≤ whole then kept ++ List.replicate (whole - kept.length) '0'
      else kept.take whole ++ '.' :: kept.drop whole
    else if -6 < point && point ≤ 0 then
      '0' :: '.' :: List.replicate (-point).toNat '0' ++ kept
    else
      let power := point - 1
      let exponent := (if power < 0 then ['e', '-'] else ['e', '+']) ++ Nat.toDigits 10 power.natAbs
      match kept with
      | [] => ['0']
      | [digit] => digit :: exponent
      | digit :: more => digit :: '.' :: more ++ exponent

end Decimal

def Binary64.text : Binary64 → List Char
  | .infinite => "Infinity".toList
  | .finite mantissa exponent => (shortest mantissa exponent).text

end ClassWeave
