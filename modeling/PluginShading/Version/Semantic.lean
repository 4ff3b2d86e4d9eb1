import PluginShading.Text.Pieces

/-!
Semantic versions: three numbers of 64 bits, perhaps a pre-release behind `-`, perhaps a build behind
`+`. Precedence compares the numbers, then the pre-releases; a version with a pre-release comes before
the one without, and the build does not count.
-/
namespace PluginShading.Version

structure Semantic where
  major : Nat
  minor : Nat
  patch : Nat
  /-- The identifiers of the pre-release, none for a release. -/
  pre : List (List Char) := []
  build : List (List Char) := []
  deriving DecidableEq, Repr

/-! ### Reading -/

def limit : Nat := Nat.pow 2 64

/-- The value of a text that is nothing but digits. -/
def digitsValue? (cs : List Char) : Option Nat :=
  if cs ≠ [] ∧ cs.all Char.isDigit then
    some (cs.foldl (fun n c => n * 10 + (c.toNat - 48)) 0)
  else none

/-- Digits that fit 64 bits. -/
def word? (cs : List Char) : Option Nat := (digitsValue? cs).filter (· < limit)

/-- A zero with digits behind it. -/
def hasLeadingZero : List Char → Bool
  | '0' :: _ :: _ => true
  | _ => false

def numeric (cs : List Char) : Bool := !cs.isEmpty && cs.all Char.isDigit

def isIdentifier (cs : List Char) : Bool :=
  !cs.isEmpty && cs.all fun c => c.isAlphanum || c == '-'

/-- The first number and what follows it. -/
def number? (cs : List Char) : Option (Nat × List Char) :=
  let digits := cs.takeWhile Char.isDigit
  if hasLeadingZero digits then none
  else (word? digits).map fun n => (n, cs.dropWhile Char.isDigit)

def dot? : List Char → Option (List Char)
  | '.' :: rest => some rest
  | _ => none

/-- Identifiers between dots. In a pre-release a number has no leading zero. -/
def identifiers? (zeros : Bool) (cs : List Char) : Option (List (List Char)) :=
  let ids := Text.pieces '.' cs
  if ids.all fun id => isIdentifier id && (zeros || !(numeric id && hasLeadingZero id)) then some ids
  else none

/-- What follows the numbers: a pre-release, a build, both or neither. -/
def suffixes? : List Char → Option (List (List Char) × List (List Char))
  | [] => some ([], [])
  | '+' :: rest => do pure ([], ← identifiers? true rest)
  | '-' :: rest =>
    match rest.dropWhile (· != '+') with
    | [] => do pure (← identifiers? false rest, [])
    | _ :: build => do
      pure (← identifiers? false (rest.takeWhile (· != '+')), ← identifiers? true build)
  | _ => none

def Semantic.ofText? (cs : List Char) : Option Semantic := do
  let (major, rest) ← number? cs
  let (minor, rest) ← number? (← dot? rest)
  let (patch, rest) ← number? (← dot? rest)
  let (pre, build) ← suffixes? rest
  pure ⟨major, minor, patch, pre, build⟩

/-! ### Writing -/

def Semantic.text (v : Semantic) : String :=
  toString v.major ++ "." ++ toString v.minor ++ "." ++ toString v.patch ++
    (if v.pre = [] then "" else "-" ++ String.ofList (Text.join '.' v.pre)) ++
    (if v.build = [] then "" else "+" ++ String.ofList (Text.join '.' v.build))

/-! ### Precedence -/

/-- Numbers by their value and before words; words by their characters. -/
def compareIdentifier (a b : List Char) : Ordering :=
  match numeric a, numeric b with
  | true, true => (compare a.length b.length).then (compareOfLessAndEq a b)
  | true, false => .lt
  | false, true => .gt
  | false, false => compareOfLessAndEq a b

/-- Identifier by identifier; more identifiers after equal ones come later. -/
def compareIdentifiers : List (List Char) → List (List Char) → Ordering
  | [], [] => .eq
  | [], _ :: _ => .lt
  | _ :: _, [] => .gt
  | a :: as, b :: bs => (compareIdentifier a b).then (compareIdentifiers as bs)

/-- A pre-release comes before the release. -/
def comparePre : List (List Char) → List (List Char) → Ordering
  | [], [] => .eq
  | [], _ :: _ => .gt
  | _ :: _, [] => .lt
  | as, bs => compareIdentifiers as bs

def Semantic.precedence (a b : Semantic) : Ordering :=
  (compare a.major b.major).then <| (compare a.minor b.minor).then <|
    (compare a.patch b.patch).then (comparePre a.pre b.pre)

end PluginShading.Version
