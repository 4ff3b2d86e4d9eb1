import PluginShading.Number.Shortest

/-!
Numbers of a JSON text: how they are read, and how they are written again.

A whole number that fits 64 bits, signed or not, stays whole. Any other is a binary number, read in a
fixed way that does not always give the nearest one: digits are taken as long as they fit 64 bits, the
rest only count, and the result is multiplied or divided once by a power of ten.
-/
namespace PluginShading.Json

open PluginShading.Number

/-- A number as it stands in the text. -/
structure Numeral where
  negative : Bool
  whole : List Nat
  /-- The digits after the point, if there is one. -/
  decimals : Option (List Nat)
  /-- Whether the exponent is negative, and its digits. -/
  exponent : Option (Bool × List Nat)
  deriving DecidableEq, Repr

inductive Number
  | whole (negative : Bool) (magnitude : Nat)
  | binary (negative : Bool) (magnitude : Binary64)
  deriving DecidableEq, Repr

/-! ### Reading -/

def wordLimit : Nat := Nat.pow 2 64

/-- Takes digits while the number stays below `limit`; what does not fit is left. -/
def takeDigits (limit : Nat) (n : Nat) : List Nat → Nat × List Nat
  | [] => (n, [])
  | d :: rest =>
    if n * 10 + d < limit then takeDigits limit (n * 10 + d) rest else (n, d :: rest)

def greatestTable : Nat := 308

/-- Multiplies or divides by a power of ten, the latter in steps of the greatest one at hand. -/
def scale (fuel : Nat) (f : Binary64) (power : Int) : Option Binary64 :=
  if power.natAbs ≤ greatestTable then do
    let factor ← Binary64.ofNat (Nat.pow 10 power.natAbs)
    if 0 ≤ power then f.mul factor else f.div factor
  else if f.significand = 0 then some f
  else if 0 ≤ power then none
  else match fuel with
    | 0 => some Binary64.zero
    | fuel + 1 => do
      let factor ← Binary64.ofNat (Nat.pow 10 greatestTable)
      scale fuel (← f.div factor) (power + greatestTable)

/-- `n · 10 ^ power`; nothing where that is too great. -/
def binaryOf (n : Nat) (power : Int) : Option Binary64 := do
  scale 4 (← Binary64.ofNat n) power

def exponentLimit : Nat := Nat.pow 2 31

def clamp (n : Int) : Int := max (-2147483648) (min 2147483647 n)

/-- The part of the number in front of its exponent: an integer and a power of ten. -/
def Numeral.mantissa (t : Numeral) : Nat × Int :=
  let first := takeDigits wordLimit 0 t.whole
  match t.decimals with
  | none => (first.1, first.2.length)
  | some ds =>
    let second := takeDigits wordLimit first.1 ds
    (second.1, (first.2.length : Int) - ((ds.length : Int) - second.2.length))

/-- The value of a numeral; nothing where it is too great. -/
def Numeral.value (t : Numeral) : Option Number :=
  let (n, power) := t.mantissa
  match t.decimals, t.exponent with
  | none, none =>
    if power ≠ 0 then (binaryOf n power).map (.binary t.negative)
    else if t.negative = false then some (.whole false n)
    else if 0 < n ∧ n ≤ wordLimit / 2 then some (.whole true n)
    else (binaryOf n 0).map (.binary true)
  | _, none => (binaryOf n power).map (.binary t.negative)
  | _, some (down, ds) =>
    let exponent := takeDigits exponentLimit 0 ds
    if exponent.2 = [] then
      let total := if down then clamp (power - exponent.1) else clamp (power + exponent.1)
      (binaryOf n total).map (.binary t.negative)
    else if n ≠ 0 ∧ down = false then none
    else some (.binary t.negative Binary64.zero)

/-! ### Writing -/

/-- The decimal point of a number stands among its digits or next to them for points from here … -/
def leastPoint : Int := -4

/-- … to here; beyond, the number is written with an exponent. -/
def greatestPoint : Int := 16

def zeros (n : Nat) : List Char := List.replicate n '0'

/-- A number with at least one digit on each side of the point, or with an exponent, which carries its
sign. -/
def layOut (s : Scientific) : List Char :=
  let ds := Nat.toDigits 10 s.digits
  let point : Int := ds.length + s.power
  if 0 ≤ s.power ∧ point ≤ greatestPoint then ds ++ zeros s.power.toNat ++ ['.', '0']
  else if 0 < point ∧ point ≤ greatestPoint then
    ds.take point.toNat ++ '.' :: ds.drop point.toNat
  else if leastPoint ≤ point ∧ point ≤ 0 then
    '0' :: '.' :: zeros (-point).toNat ++ ds
  else
    let exponent := point - 1
    let sign := if exponent < 0 then '-' else '+'
    let fraction := if ds.length = 1 then [] else '.' :: ds.drop 1
    ds.take 1 ++ fraction ++ 'e' :: sign :: Nat.toDigits 10 exponent.natAbs

def Number.text : Number → String
  | whole negative n => String.ofList ((if negative then ['-'] else []) ++ Nat.toDigits 10 n)
  | binary negative x =>
    String.ofList ((if negative then ['-'] else []) ++ layOut (shortest x))

end PluginShading.Json
