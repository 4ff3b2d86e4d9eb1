import PluginShading.Source.Alphabet
import PluginShading.Text.Space
import PluginShading.Text.Lines

/-!
Tokens. A token keeps its text, so a list of tokens is a division of the text it was read from and
`text` puts that text together again. The kinds tell apart only what splitting and shading look at:
names, the words that shape a file, braces, and what carries no meaning (`Token.significant`).
-/
namespace PluginShading.Source

/-- The words that a name may not be. Those that shape a file are told apart. -/
inductive Keyword
  | namespaceWord
  | useWord
  | classWord
  | interfaceWord
  | traitWord
  | enumWord
  | functionWord
  | constWord
  | other
  deriving DecidableEq, Repr, Inhabited

namespace Keyword

/-- Words that are reserved and shape nothing above the level of a statement. -/
def plainWords : List String :=
  ["abstract", "and", "array", "as", "break", "callable", "case", "catch", "clone", "continue",
   "declare", "default", "do", "echo", "else", "elseif", "empty", "enddeclare", "endfor",
   "endforeach", "endif", "endswitch", "endwhile", "eval", "exit", "die", "extends", "final",
   "finally", "fn", "for", "foreach", "global", "goto", "if", "implements", "include",
   "include_once", "instanceof", "insteadof", "isset", "list", "match", "new", "or", "print",
   "private", "protected", "public", "readonly", "require", "require_once", "return", "static",
   "switch", "throw", "try", "unset", "var", "while", "xor", "yield"]

/-- The keyword that a word is in every context. `enum` is one only where a declaration follows, so
it is none here. -/
def ofWord? (word : List Char) : Option Keyword :=
  if spells "namespace" word then some namespaceWord
  else if spells "use" word then some useWord
  else if spells "class" word then some classWord
  else if spells "interface" word then some interfaceWord
  else if spells "trait" word then some traitWord
  else if spells "function" word then some functionWord
  else if spells "const" word then some constWord
  else if plainWords.any (spells · word) then some other
  else none

/-- The word opens a declaration that is cut out of its file. -/
def declares : Keyword → Bool
  | classWord | interfaceWord | traitWord | enumWord => true
  | _ => false

/-- How messages write the keyword. -/
def text : Keyword → String
  | namespaceWord => "namespace"
  | useWord => "use"
  | classWord => "class"
  | interfaceWord => "interface"
  | traitWord => "trait"
  | enumWord => "enum"
  | functionWord => "function"
  | constWord => "const"
  | other => "keyword"

end Keyword

inductive TokenKind
  | identifier
  | qualifiedName
  | fullyQualifiedName
  | whitespace
  | comment
  | docComment
  | punctuation
  | openTag
  | keyword (word : Keyword)
  | other
  deriving DecidableEq, Repr, Inhabited

/-- How messages write the kind. -/
def TokenKind.describe : TokenKind → String
  | identifier => "identifier"
  | qualifiedName => "qualified name"
  | fullyQualifiedName => "fully qualified name"
  | whitespace => "whitespace"
  | comment => "comment"
  | docComment => "doc comment"
  | punctuation => "punctuation"
  | openTag => "open tag"
  | keyword word => "keyword `" ++ word.text ++ "`"
  | other => "token"

structure Token where
  kind : TokenKind
  text : List Char
  deriving DecidableEq, Repr, Inhabited

namespace Token

/-- White space and plain comments carry no meaning; a doc comment belongs to what follows it. -/
def significant (t : Token) : Bool :=
  match t.kind with
  | .whitespace | .comment => false
  | _ => true

def isPunctuation (t : Token) (mark : List Char) : Bool := t.kind == .punctuation && t.text == mark

def isKeyword (t : Token) (word : Keyword) : Bool := t.kind == .keyword word

/-- Braces opened less braces closed. Braces inside other tokens, such as literals, do not count. -/
def braceDelta (t : Token) : Int :=
  match t.kind with
  | .punctuation => t.text.count '{' - t.text.count '}'
  | _ => 0

def newlines (t : Token) : Nat := Text.newlines t.text

/-- How messages quote the token. -/
def describe (t : Token) : String :=
  t.kind.describe ++ " `" ++ String.ofList (Text.trim t.text) ++ "`"

end Token

/-- The text that a list of tokens divides. -/
def text (ts : List Token) : List Char := ts.flatMap Token.text

@[simp] theorem text_nil : text [] = [] := rfl

@[simp] theorem text_cons (t : Token) (ts : List Token) : text (t :: ts) = t.text ++ text ts := rfl

@[simp] theorem text_append (a b : List Token) : text (a ++ b) = text a ++ text b :=
  List.flatMap_append

end PluginShading.Source
