import PluginShading.Number.Binary64

/-!
The fewest digits that read back as a given number. For one digit, two digits and so on the two points
next to the number on that decimal grid are tried; the first grid with a point that rounds to the
number wins, and of two such points the nearer.
-/
namespace PluginShading.Number

/-- Digits without leading zero, read as a whole number, and the power of ten they are multiplied by. -/
structure Scientific where
  digits : Nat
  power : Int
  deriving DecidableEq, Repr

/-- How many decimal digits a natural number has. -/
def digitCount (n : Nat) : Nat := (Nat.toDigits 10 n).length

/-- `num / den` in units of a power of ten, as a fraction. -/
def inUnits (num den : Nat) (power : Int) : Nat × Nat :=
  if 0 ≤ power then (num, den * Nat.pow 10 power.toNat)
  else (num * Nat.pow 10 (-power).toNat, den)

/-- The power of ten of the leading digit of `num / den`. -/
def leadingPower (num den : Nat) : Int :=
  let guess : Int := (digitCount num : Int) - digitCount den
  let at_ := inUnits num den guess
  if at_.1 / at_.2 = 0 then guess - 1 else guess

/-- `c · 10 ^ power` is among the reals that round to `x`. -/
def readsBack (x : Binary64) (c : Nat) (power : Int) : Bool :=
  let quarter : Binary64 := ⟨1, x.exponent - 2⟩
  let unit := quarter.fraction
  let at_ := if 0 ≤ power then (c * Nat.pow 10 power.toNat, 1) else (c, Nat.pow 10 (-power).toNat)
  let ends := x.interval
  let low := ends.1 * unit.1 * at_.2
  let high := ends.2 * unit.1 * at_.2
  let point := at_.1 * unit.2
  if x.significand % 2 = 0 then low ≤ point && point ≤ high else low < point && point < high

/-- The best point with `n` digits, if one reads back. -/
def withDigits (x : Binary64) (n : Nat) : Option Scientific :=
  let value := x.fraction
  let power := leadingPower value.1 value.2 - (n : Int) + 1
  let at_ := inUnits value.1 value.2 power
  let c := at_.1 / at_.2
  let below := readsBack x c power
  let above := readsBack x (c + 1) power
  let nearAbove := at_.2 < 2 * (at_.1 % at_.2)
  if below && (!above || !nearAbove) then some ⟨c, power⟩
  else if above then some ⟨c + 1, power⟩
  else none

/-- Digits and power without zeros at the end of the digits. `fuel` bounds the zeros. -/
def dropZeros (fuel : Nat) (s : Scientific) : Scientific :=
  match fuel with
  | 0 => s
  | fuel + 1 =>
    if s.digits ≠ 0 ∧ s.digits % 10 = 0 then dropZeros fuel ⟨s.digits / 10, s.power + 1⟩ else s

/-- Seventeen digits always read back, so some number of digits up to that does. -/
def shortest (x : Binary64) : Scientific :=
  if x.significand = 0 then ⟨0, 0⟩
  else
    let found := ((List.range 17).map (· + 1)).findSome? (withDigits x)
    let s := found.getD ⟨x.significand, 0⟩
    dropZeros (digitCount s.digits) s

end PluginShading.Number
