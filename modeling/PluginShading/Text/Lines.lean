/-!
Counting lines. A line ends at a line feed; positions are counted in line feeds, so the first line of
a text is line zero. `newlines_append` is what lets counts be kept piece by piece.
-/
namespace PluginShading.Text

def newlines (s : List Char) : Nat := s.count '\n'

@[simp] theorem newlines_nil : newlines [] = 0 := rfl

@[simp] theorem newlines_append (a b : List Char) : newlines (a ++ b) = newlines a + newlines b :=
  List.count_append

@[simp] theorem newlines_replicate (n : Nat) : newlines (List.replicate n '\n') = n := by
  simp [newlines]

end PluginShading.Text
