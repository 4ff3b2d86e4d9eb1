/-!
The letters of the source language: which characters separate words, which may start a name, which
may continue one. Every character beyond ASCII may stand in a name; case is told apart in ASCII only.
-/
namespace PluginShading.Source

/-- What separates two tokens without being one. -/
def isBlank (c : Char) : Bool := c == ' ' || c == '\t' || c == '\n' || c == '\r'

def isNameStart (c : Char) : Bool := c.isAlpha || c == '_' || 0x80 ≤ c.toNat

def isNameChar (c : Char) : Bool := isNameStart c || c.isDigit

/-- The letters and digits that a number may run through, in any base. -/
def isNumeral (c : Char) : Bool := c.isAlphanum || c == '_'

/-- There is a first character, and it satisfies `p`. -/
def headIs (p : Char → Bool) : List Char → Bool
  | [] => false
  | c :: _ => p c

/-- The text is `word`, which is given in lower case, in any mixture of cases. -/
def spells (word : String) (text : List Char) : Bool := text.map Char.toLower == word.toList

end PluginShading.Source
