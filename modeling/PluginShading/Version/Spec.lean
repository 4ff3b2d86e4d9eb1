import PluginShading.Text.Space
import PluginShading.Version.Semantic

/-!
The versions of the shading specification and the window of them that is supported. A version may be
given short, as one number or two.
-/
namespace PluginShading.Version

/-- Digits that fit 64 bits; a plus sign in front and zeros in front do no harm. -/
def plainWord? : List Char → Option Nat
  | '+' :: rest => word? rest
  | cs => word? cs

/-- A full version, or one or two numbers standing for the version with zeros behind them. -/
def lenient? (text : List Char) : Option Semantic :=
  let cs := Text.trim text
  match Semantic.ofText? cs with
  | some v => some v
  | none =>
    match Text.pieces '.' cs with
    | [major] => do pure ⟨← plainWord? major, 0, 0, [], []⟩
    | [major, minor] => do pure ⟨← plainWord? major, ← plainWord? minor, 0, [], []⟩
    | _ => none

def oldest : Semantic := ⟨3, 0, 0, [], []⟩

def newest : Semantic := ⟨3, 1, 0, [], []⟩

inductive Support
  | supported (v : Semantic)
  | tooOld (v : Semantic)
  | tooNew (v : Semantic)
  deriving DecidableEq, Repr

def Support.of (v : Semantic) : Support :=
  if v.precedence oldest = .lt then tooOld v
  else if v.precedence newest = .gt then tooNew v
  else supported v

/-- Whether the version that a text gives is supported; nothing where it gives none. -/
def check? (text : List Char) : Option Support := (lenient? text).map Support.of

end PluginShading.Version
