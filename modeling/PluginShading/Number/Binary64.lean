/-!
Non-negative binary floating-point numbers of 64 bits, as exact values `significand · 2 ^ exponent`.
Every operation is the exact one on fractions followed by `round`, to the nearest such number and on a
tie to the one with an even significand.
-/
namespace PluginShading.Number

structure Binary64 where
  significand : Nat
  exponent : Int
  deriving DecidableEq, Repr

namespace Binary64

def leastExponent : Int := -1074

def greatestExponent : Int := 971

/-- The significands of normal numbers reach from this to its double. -/
def hidden : Nat := Nat.pow 2 52

def zero : Binary64 := ⟨0, leastExponent⟩

/-- A quotient to the nearest natural number, on a tie to the even one. -/
def divideEven (num den : Nat) : Nat :=
  let q := num / den
  let r := num % den
  if 2 * r < den then q
  else if den < 2 * r then q + 1
  else if q % 2 = 0 then q else q + 1

/-- `num / den` scaled down by a power of two, as a fraction. -/
def scaled (num den : Nat) (exponent : Int) : Nat × Nat :=
  if 0 ≤ exponent then (num, den * Nat.pow 2 exponent.toNat)
  else (num * Nat.pow 2 (-exponent).toNat, den)

/-- The exponent with which the significand of `num / den` falls into the normal range, or the least
one for numbers below it. -/
def exponentOf (num den : Nat) : Int :=
  let guess : Int := (num.log2 : Int) - den.log2 - 52
  let at_ := scaled num den guess
  max leastExponent (if at_.1 / at_.2 < hidden then guess - 1 else guess)

/-- The number nearest to `num / den`; nothing where that is beyond the greatest. -/
def round (num den : Nat) : Option Binary64 :=
  if num = 0 then some zero
  else
    let e := exponentOf num den
    let at_ := scaled num den e
    let m := divideEven at_.1 at_.2
    let result : Binary64 := if m = 2 * hidden then ⟨hidden, e + 1⟩ else ⟨m, e⟩
    if result.exponent ≤ greatestExponent then some result else none

def ofNat (n : Nat) : Option Binary64 := round n 1

/-- The value as a fraction. -/
def fraction (x : Binary64) : Nat × Nat :=
  if 0 ≤ x.exponent then (x.significand * Nat.pow 2 x.exponent.toNat, 1)
  else (x.significand, Nat.pow 2 (-x.exponent).toNat)

def mul (x y : Binary64) : Option Binary64 :=
  round (x.fraction.1 * y.fraction.1) (x.fraction.2 * y.fraction.2)

def div (x y : Binary64) : Option Binary64 :=
  round (x.fraction.1 * y.fraction.2) (x.fraction.2 * y.fraction.1)

/-- The lower and upper end of the reals that round to `x`, in units of a quarter of its last place.
Just above a power of two the numbers below lie twice as dense. -/
def interval (x : Binary64) : Nat × Nat :=
  let dense := x.significand = hidden ∧ leastExponent < x.exponent
  (4 * x.significand - (if dense then 1 else 2), 4 * x.significand + 2)

end Binary64

end PluginShading.Number
