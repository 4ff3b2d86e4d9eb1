import PluginShading.Path
import PluginShading.Text.Lines
import PluginShading.Text.Pieces

/-!
Source files cut into a header and declarations, and how one declaration is laid out as a file of its
own: the header, blank lines, the code. The blank lines put the code back on the line it came from,
so that line numbers in stack traces keep their meaning.
-/
namespace PluginShading.Source

/-- A top-level class, interface, trait or enum. -/
structure Declaration where
  /-- The line on which `code` begins; the first line is 0. -/
  line : Nat
  name : List Char
  code : List Char
  deriving DecidableEq, Repr

/-- A file that declares one namespace. -/
structure File where
  path : Path
  /-- Everything through the last import of the contiguous run after the namespace statement. -/
  header : List Char
  /-- The declared namespace, without a leading separator. -/
  space : List Char
  declarations : List Declaration
  deriving DecidableEq, Repr

namespace File

def headerLines (f : File) : Nat := Text.newlines f.header

/-- The segments of the namespace, as directories. -/
def directory (f : File) : Path :=
  ((Text.pieces '\\' f.space).filter (· ≠ [])).foldl
    (fun p segment => p.join ⟨String.ofList segment⟩) ⟨""⟩

/-- The blank lines between header and code; `none` where the header already reaches further. -/
def padding (f : File) (d : Declaration) : Option Nat :=
  if f.headerLines ≤ d.line then some (d.line - f.headerLines) else none

/-- A declaration as a file of its own. -/
def render (f : File) (d : Declaration) : List Char :=
  f.header ++ List.replicate ((f.padding d).getD 0) '\n' ++ d.code

/-- Where the padding fits, the code begins on the line it came from. -/
theorem newlines_before_code (f : File) (d : Declaration) (h : f.headerLines ≤ d.line) :
    Text.newlines (f.header ++ List.replicate ((f.padding d).getD 0) '\n') = d.line := by
  simp only [headerLines] at h
  simp [padding, headerLines, h]

end File

end PluginShading.Source
