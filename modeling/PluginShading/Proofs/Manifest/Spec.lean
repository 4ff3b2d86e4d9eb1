import PluginShading.Proofs.Json.Scanning
import PluginShading.Proofs.Manifest.Places
import PluginShading.Proofs.Version.Literals

/-!
The spec version of a manifest, given as a number or as a text.

A manifest with the version as a number is read as the one with the same characters between quotes, but for the version:
the number is kept as it is printed, the text as it is written. `spec_judged` says for each literal whether the verdict
is the same. It is not for `3.10`, which is printed without its last zero (`spec_loses_zero`).
-/
namespace PluginShading

open Json Version PluginShading.Number

/-- The manifest that was read, with this spec version in its shading block. -/
def withSpec (s : String) (m : Manifest × ShadingBlock) : Manifest :=
  {m.1 with shading := some {m.2 with spec := some s}}

variable {p : SpecPlace} {t text text' : List Char} {n : Numeral} {v : Json.Number}

/-- **A number is kept as it is printed**, a text as it is written; the rest of the manifest is the same. -/
theorem parse_spec (hv : n.value = some v) (htext : Json.parse text = some (p.fill (.number n)))
    (htext' : Json.parse text' = some (p.fill (.string (some (String.ofList t))))) (path : Path) :
    ∃ read : Except ManifestError (Manifest × ShadingBlock), Manifest.parse path text = read.map (withSpec v.text) ∧
      Manifest.parse path text' = read.map (withSpec (String.ofList t)) := by
  obtain ⟨read, hread⟩ := p.ofValue_fill path
  refine ⟨read, ?_, ?_⟩
  · rw [Manifest.parse, htext]
    exact hread _ _ (by simp [Value.sound, hv]) (by simp [Value.depth]) (by simp [specOf, hv])
  · rw [Manifest.parse, htext']
    exact hread _ _ (by simp [Value.sound]) (by simp [Value.depth]) rfl

/-- **Where a version means the same as a number and as a text.** The two manifests are read alike but for the version.
The verdicts on it agree for negative and for whole numbers. With an exponent they agree if the number is so great or so
small that it is printed with one. With decimals they agree if the numbers around the point have the same verdict before
and after they are printed; up to fifteen digits these are the cases but for zeros at the end of a minor version that is
one without them, and for numbers so small that they are printed with an exponent. -/
theorem spec_judged (ht : IsLiteral t n) (hv : n.value = some v) (htext : Json.parse text = some (p.fill (.number n)))
    (htext' : Json.parse text' = some (p.fill (.string (some (String.ofList t))))) (path : Path) :
    (∃ read : Except ManifestError (Manifest × ShadingBlock), Manifest.parse path text = read.map (withSpec v.text) ∧
        Manifest.parse path text' = read.map (withSpec (String.ofList t))) ∧
      (n.negative = true ∨ n.decimals = none ∧ n.exponent = none → Alike t v) ∧
      (n.negative = false → n.exponent ≠ none → ∃ x, v = .binary false x ∧ (Alike t v ↔ ¬ Plain (shortest x))) ∧
      ∀ ds, n.negative = false → n.decimals = some ds → n.exponent = none →
        (∃ x, v = .binary false x ∧ (Alike t v ↔ written (natOf n.whole) (natOf ds) = printed (shortest x))) ∧
          (natOf (n.whole ++ ds) < 10 ^ 15 → ds.length ≤ 22 →
            (Alike t v ↔ ¬ (natOf n.whole = 3 ∧ ∃ y, natOf ds = 10 ^ (y + 1)) ∧
              ¬ (0 < natOf (n.whole ++ ds) ∧ natOf (n.whole ++ ds) * 10 ^ 5 < 10 ^ ds.length))) := by
  refine ⟨parse_spec hv htext htext' path, fun h => ?_, fun hsign => alike_exponent ht hv hsign,
    fun ds hsign hdecimals hexponent => ⟨alike_decimal ht hv hsign hdecimals hexponent, fun hfew hlength =>
      alike_few ht hv hsign hdecimals hexponent hfew hlength⟩⟩
  cases hsign : n.negative with
  | true => exact alike_of_negative ht hv hsign
  | false =>
    obtain ⟨hdecimals, hexponent⟩ := h.resolve_left (by rw [hsign]; nofun)
    exact alike_of_whole ht hv hsign hdecimals hexponent

/-! ### Examples -/

/-- A manifest with nothing but the spec version. -/
def bare : SpecPlace where
  manifest := .field "extra" [] []
  extra := .field "virion" [] []
  before := []
  after := []
  isExtra := ⟨_, rfl, List.mem_singleton_self _⟩
  isShading := ⟨_, rfl, List.mem_cons_of_mem _ (List.mem_singleton_self _)⟩
  last _ h := absurd h List.not_mem_nil

/-- Its text, with this text for the version. -/
def bareText (spec : List Char) : List Char :=
  '{' :: '"' :: 'e' :: 'x' :: 't' :: 'r' :: 'a' :: '"' :: ':' ::
  '{' :: '"' :: 'v' :: 'i' :: 'r' :: 'i' :: 'o' :: 'n' :: '"' :: ':' ::
  '{' :: '"' :: 's' :: 'p' :: 'e' :: 'c' :: '"' :: ':' :: (spec ++ ['}', '}', '}'])

theorem parse_of_run {text : List Char} {ts : List Token} {v : Value} (htokens : tokens text = some ts)
    (hrun : (Reader.value []).run ts = some (.done v)) : Json.parse text = some v := by
  simp only [Json.parse, htokens, hrun]

theorem parse_bareText {c : Char} {rest : List Char} {token : Token} {value : Value} (hblank : isBlank c = false)
    (hnext : Token.next c (rest ++ ['}', '}', '}']) = some (token, ['}', '}', '}']))
    (hvalue : ∀ stack, Reader.begin? stack token = some (Reader.deliver value stack)) :
    Json.parse (bareText (c :: rest)) = some (bare.fill value) := by
  have hspec : tokens (c :: (rest ++ ['}', '}', '}'])) = some [token, .closeBrace, .closeBrace, .closeBrace] := by
    rw [tokens_of_next hblank hnext, tokens_of_next rfl rfl, tokens_of_next rfl rfl, tokens_of_next rfl rfl, tokens]
    rfl
  have htokens : tokens (bareText (c :: rest)) = some [.openBrace, .string (some (String.ofList ['e', 'x', 't', 'r', 'a'])),
      .colon, .openBrace, .string (some (String.ofList ['v', 'i', 'r', 'i', 'o', 'n'])), .colon, .openBrace,
      .string (some (String.ofList ['s', 'p', 'e', 'c'])), .colon, token, .closeBrace, .closeBrace, .closeBrace] := by
    unfold bareText
    rw [List.cons_append]
    generalize c :: (rest ++ ['}', '}', '}']) = tail at *
    rw [tokens_of_next rfl rfl, tokens_of_next rfl rfl, tokens_of_next rfl rfl, tokens_of_next rfl rfl,
      tokens_of_next rfl rfl, tokens_of_next rfl rfl, tokens_of_next rfl rfl, tokens_of_next rfl rfl,
      tokens_of_next rfl rfl, hspec]
    rfl
  have hrun : ∀ stack, (Reader.value stack).run [token, .closeBrace, .closeBrace, .closeBrace] =
      (Reader.deliver value stack).run [.closeBrace, .closeBrace, .closeBrace] := fun stack => by
    rw [Reader.run, Reader.step, hvalue]
  exact parse_of_run htokens (hrun _)

theorem exists_spec_judged : ∃ n v, IsLiteral ['3', '.', '1'] n ∧ n.value = some v ∧ v.text = "3.1" ∧
    Json.parse (bareText ['3', '.', '1']) = some (bare.fill (.number n)) ∧
    Json.parse (bareText ['"', '3', '.', '1', '"']) = some (bare.fill (.string (some (String.ofList ['3', '.', '1'])))) ∧
    Alike ['3', '.', '1'] v := by
  let n : Numeral := ⟨false, [3], some [1], none⟩
  let v : Json.Number := .binary false ⟨6980579422424269, -51⟩
  have ht : IsLiteral ['3', '.', '1'] n := ⟨_, _, rfl, rfl⟩
  have hv : n.value = some v := by decide
  have hnumber : Json.parse (bareText ['3', '.', '1']) = some (bare.fill (.number n)) :=
    parse_bareText rfl rfl fun _ => rfl
  have htext : Json.parse (bareText ['"', '3', '.', '1', '"']) =
      some (bare.fill (.string (some (String.ofList ['3', '.', '1'])))) := parse_bareText rfl rfl fun _ => rfl
  have halike := ((spec_judged ht hv hnumber htext ⟨"composer.json"⟩).2.2.2 [1] rfl rfl rfl).2 (by decide) (by decide)
  refine ⟨n, v, ht, hv, by decide, hnumber, htext, halike.2 ⟨?_, by decide⟩⟩
  rintro ⟨-, y, hy⟩
  have hlarge := Nat.le_self_pow (Nat.succ_ne_zero y) 10
  exact absurd hlarge (by rw [← hy]; decide)

/-- A zero at the end is lost: `3.10` as a number is the version 3.1, which is supported, and as a text 3.10, which is
too new. -/
theorem spec_loses_zero :
    Manifest.parse ⟨"composer.json"⟩ (bareText ['3', '.', '1', '0']) =
        .ok {path := ⟨"composer.json"⟩, shading := some {spec := some "3.1"}} ∧
      verdict? "3.1".toList = some .supported ∧
      Manifest.parse ⟨"composer.json"⟩ (bareText ['"', '3', '.', '1', '0', '"']) =
        .ok {path := ⟨"composer.json"⟩, shading := some {spec := some "3.10"}} ∧
      verdict? "3.10".toList = some .tooNew := by
  have hnumber : Json.parse (bareText ['3', '.', '1', '0']) = some (bare.fill (.number ⟨false, [3], some [1, 0], none⟩)) :=
    parse_bareText rfl rfl fun _ => rfl
  have htext : Json.parse (bareText ['"', '3', '.', '1', '0', '"']) = some (bare.fill (.string (some "3.10"))) :=
    parse_bareText rfl rfl fun _ => rfl
  refine ⟨?_, by decide, ?_, by decide⟩
  · rw [Manifest.parse, hnumber]
    decide
  · rw [Manifest.parse, htext]
    decide

end PluginShading
