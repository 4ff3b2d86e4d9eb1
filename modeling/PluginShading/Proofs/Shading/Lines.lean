import PluginShading.Proofs.Shading.Survival
import PluginShading.Proofs.Source.Layout

/-!
Lines behind a list of rules.

Rules lengthen lines and add none, so a declaration that is written out in the shaded file begins on the
line it has in the source. `shaded_lines_kept` is the main statement: from the text that was split to the
text that is written, whatever the rules are, if no target holds a line feed.
-/
namespace PluginShading.Shading

open Source

variable {locate : Path → Path} {r : Rule} {rules : List Rule}

/-! ### One rule -/

/-- The line that is put in front of a fragment is gone again behind a rule. -/
theorem newlines_shadeCode (hline : '\n' ∉ r.target.text) {code shaded : List Char}
    (h : shadeCode r code = .ok shaded) : Text.newlines shaded = Text.newlines code := by
  obtain ⟨ts, hts, rfl⟩ := shadeCode_eq_ok h
  rw [← text_of_fragmentTokens hts]
  clear hts h
  induction ts with
  | nil => rfl
  | cons t rest ih =>
    rw [List.flatMap_cons, text_cons, Text.newlines_append, Text.newlines_append, ih,
      newlines_shadeToken hline]
    rfl

/-! ### A list of rules -/

/-- The two files have their declarations on the same lines, under the same names, behind headers of as
many lines. -/
structure SameLines (f g : File) : Prop where
  header : g.headerLines = f.headerLines
  names : g.declarations.map Declaration.name = f.declarations.map Declaration.name
  lines : g.declarations.map Declaration.line = f.declarations.map Declaration.line

theorem sameLines_shadeFile (hline : '\n' ∉ r.target.text) {f g : File} (h : shadeFile r f = .ok g) :
    SameLines f g := by
  obtain ⟨ts, ds, hts, hds, rfl⟩ := shadeFile_eq_ok h
  obtain ⟨hnames, hlines⟩ := shadeDeclarations_places hds
  refine ⟨newlines_shadeCode hline ?_, hnames, hlines⟩
  rw [shadeCode, hts]
  rfl

theorem sameLines_survivor (hline : ∀ r ∈ rules, '\n' ∉ r.target.text) {f g : File}
    (h : survivor locate rules f = some g) : SameLines f g := by
  induction rules generalizing f with
  | nil =>
    cases h
    exact ⟨rfl, rfl, rfl⟩
  | cons r rest ih =>
    obtain ⟨e, he, hg⟩ := survivor_cons_eq_some h
    have hfirst := sameLines_shadeFile (hline r List.mem_cons_self) he
    have hrest := ih (fun s hs => hline s (List.mem_cons_of_mem r hs)) hg
    exact ⟨hrest.header.trans hfirst.header, hrest.names.trans hfirst.names,
      hrest.lines.trans hfirst.lines⟩

/-! ### Declarations written out -/

/-- A declaration below the header is padded down to its line. -/
theorem exists_padding {f : File} {d : Declaration} (h : f.headerLines ≤ d.line) :
    ∃ blank, f.padding d = some blank ∧
      f.render d = f.header ++ List.replicate blank '\n' ++ d.code ∧
        Text.newlines (f.header ++ List.replicate blank '\n') = d.line := by
  have hpadding : f.padding d = some (d.line - f.headerLines) := if_pos h
  refine ⟨d.line - f.headerLines, hpadding, ?_, ?_⟩
  · rw [File.render, hpadding]
    rfl
  · have hlines := f.newlines_before_code d h
    rwa [hpadding] at hlines

/-- **A declaration that the rules keep is written out on the line it has in the source.** The header fits
in front of it, and as many line feeds stand before its code as stand before it in the source. -/
theorem shaded_lines_kept {path : Path} {source : List Char} {f g : File} {files result : List File}
    (hsplit : split path source = .ok f) (hf : f ∈ files)
    (hline : ∀ r ∈ rules, '\n' ∉ r.target.text) (h : applyRules locate rules files = .ok result)
    (hg : survivor locate rules f = some g) :
    result = files.filterMap (survivor locate rules) ∧ g ∈ result ∧
      g.declarations.map Declaration.name = f.declarations.map Declaration.name ∧
        ∃ l : Source.Layout, l.Fits source f ∧ ∀ (i : Nat) (d : Declaration), g.declarations[i]? = some d →
          ∃ blank, g.padding d = some blank ∧
            g.render d = g.header ++ List.replicate blank '\n' ++ d.code ∧
              Text.newlines (g.header ++ List.replicate blank '\n') =
                Text.newlines (Source.text (l.before i)) := by
  have hresult := applyRules_eq_filterMap h
  obtain ⟨found, statement, l, hparts⟩ := exists_parts hsplit
  have hsame := sameLines_survivor hline hg
  refine ⟨hresult, ?_, hsame.names, l, hparts.fits, fun i d hd => ?_⟩
  · rw [hresult]
    exact List.mem_filterMap.2 ⟨f, hf, hg⟩
  · have hlines : d.line = Text.newlines (Source.text (l.before i)) := by
      have hplace := congrArg (·[i]?) hsame.lines
      obtain ⟨e, he, heq⟩ : ∃ e, f.declarations[i]? = some e ∧ e.line = d.line := by
        simpa [hd] using hplace.symm
      rw [← heq, hparts.lines i e he]
    have hbelow : g.headerLines ≤ d.line := by
      rw [hsame.header, hlines, Source.Layout.before, text_append, Text.newlines_append, File.headerLines,
        hparts.fits.header]
      exact Nat.le_add_right _ _
    rw [← hlines]
    exact exists_padding hbelow

/-- The statement holds of a class whose header and code both move. -/
theorem exists_shaded_lines_kept : ∃ source r f g, split ⟨"D.php"⟩ source = .ok f ∧ f ≠ g ∧
    '\n' ∉ r.target.text ∧ applyRules id [r] [f] = .ok [g] ∧ ∃ l : Source.Layout, l.Fits source f ∧
      ∀ (i : Nat) (d : Declaration), g.declarations[i]? = some d → ∃ blank,
        g.padding d = some blank ∧ g.render d = g.header ++ List.replicate blank '\n' ++ d.code ∧
          Text.newlines (g.header ++ List.replicate blank '\n') =
            Text.newlines (Source.text (l.before i)) := by
  let source := "<?php\nnamespace A\\B;\nuse A\\B\\C;\n\n// D\nclass D extends \\A\\B\\C \x7b\x7d\n".toList
  let r : Rule := ⟨"A\\B".toList, by decide +kernel, ⟨['t'], by decide⟩, none, none⟩
  let f : File := ⟨⟨"D.php"⟩, "<?php\nnamespace A\\B;\nuse A\\B\\C;".toList, "A\\B".toList,
    [⟨5, ['D'], "class D extends \\A\\B\\C \x7b\x7d".toList⟩]⟩
  let g : File := ⟨⟨"D.php"⟩, "<?php\nnamespace t\\A\\B;\nuse t\\A\\B\\C;".toList, "t\\A\\B".toList,
    [⟨5, ['D'], "class D extends \\t\\A\\B\\C \x7b\x7d".toList⟩]⟩
  have hsplit : split ⟨"D.php"⟩ source = .ok f := by decide +kernel
  have happly : applyRules id [r] [f] = .ok [g] := by decide +kernel
  have hline : ∀ s ∈ [r], '\n' ∉ s.target.text := by
    intro s hs
    obtain rfl := List.mem_singleton.1 hs
    decide
  have hkept := shaded_lines_kept hsplit List.mem_cons_self hline happly (g := g) (by decide +kernel)
  exact ⟨source, r, f, g, hsplit, by decide +kernel, hline r List.mem_cons_self, happly, hkept.2.2.2⟩

end PluginShading.Shading
