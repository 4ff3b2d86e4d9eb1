import PluginShading.Text.Hex
import PluginShading.Text.Pieces

/-!
Namespaces as texts: segments between backslashes. A name is under a root when its segments begin with
the root's (`under_iff`), so `Foo\Barx` is not under `Foo\Bar`. A `Target` is the private namespace
under which a build moves every shaded root.
-/
namespace PluginShading.Shading

open Text (hexDigit)

def separator : Char := '\\'

/-- `name` is `root` itself or lies under it. -/
def under (root name : List Char) : Bool :=
  root.isPrefixOf name &&
    match name.drop root.length with
    | [] => true
    | c :: _ => c == separator

theorem under_iff {root name : List Char} :
    under root name = true ↔ name = root ∨ ∃ rest, name = root ++ separator :: rest := by
  simp only [under, Bool.and_eq_true, List.isPrefixOf_iff_prefix]
  constructor
  · rintro ⟨⟨tail, rfl⟩, h⟩
    rw [List.drop_left] at h
    cases tail with
    | nil => exact .inl (List.append_nil root)
    | cons c rest => exact .inr ⟨rest, by simp at h; rw [h]⟩
  · rintro (rfl | ⟨rest, rfl⟩)
    · exact ⟨List.prefix_rfl, by simp⟩
    · exact ⟨List.prefix_append .., by simp⟩

/-- Why a namespace cannot be shaded, or not be moved to. -/
inductive ShadingError
  | invalidNamespace (space : List Char)
  | invalidTarget (target : List Char)
  deriving DecidableEq, Repr

namespace ShadingError

def message : ShadingError → String
  | invalidNamespace space => "\"" ++ String.ofList space ++ "\" is not a valid namespace root"
  | invalidTarget target =>
    "target prefix \"" ++ String.ofList target ++
      "\" must not be empty or start or end with a backslash"

/-- The name under which diagnostics list the error. -/
def code : ShadingError → String
  | invalidNamespace _ => "shadepack::shading::invalid_namespace"
  | invalidTarget _ => "shadepack::shading::invalid_prefix"

def help : ShadingError → Option String
  | invalidNamespace _ => some "a namespace root needs at least two segments, e.g. `Vendor\\Library`"
  | invalidTarget _ => none

end ShadingError

/-! ### Targets -/

/-- Something with no separator at either end. -/
def isTarget (text : List Char) : Bool :=
  text ≠ [] && text.head? ≠ some separator && text.getLast? ≠ some separator

structure Target where
  text : List Char
  valid : isTarget text = true
  deriving DecidableEq, Repr

def Target.ofText (text : List Char) : Except ShadingError Target :=
  if h : isTarget text = true then .ok ⟨text, h⟩ else .error (.invalidTarget text)

/-- Behind the target and a separator. -/
def Target.relocate (t : Target) (name : List Char) : List Char := t.text ++ separator :: name

/-! ### Generated targets -/

/-- The sixteen hexadecimal digits of a word. -/
def hexWord (seed : UInt64) : List Char :=
  (List.range 16).map fun i => hexDigit (seed.toNat / Nat.pow 16 (15 - i) % 16)

/-- The namespace that the libraries share, and the beginning of a segment below it. -/
def leafLead : List Char := ['l', 'i', 'b', 's', separator, '_']

/-- `libs\_` and sixteen digits, which no two builds share. -/
def leaf (seed : UInt64) : List Char := leafLead ++ hexWord seed

def trimSeparators (s : List Char) : List Char :=
  ((s.dropWhile (· == separator)).reverse.dropWhile (· == separator)).reverse

/-- The text of a generated target: the leaf, behind the parent if one is given that is more than
separators. -/
def generatedText (parent : Option (List Char)) (seed : UInt64) : List Char :=
  let trimmed := trimSeparators (parent.getD [])
  if trimmed = [] then leaf seed else trimmed ++ separator :: leaf seed

theorem hexDigit_ne_separator (n : Nat) : hexDigit (n % 16) ≠ separator := by
  have h : ∀ k < 16, hexDigit k ≠ separator := by decide
  exact h _ (Nat.mod_lt _ (by decide))

theorem getLast?_hexWord (seed : UInt64) :
    (hexWord seed).getLast? = some (hexDigit (seed.toNat % 16)) := by
  simp only [hexWord, List.getLast?_map, List.getLast?_range, Nat.reduceEqDiff, if_false]
  exact congrArg (fun n => some (hexDigit (n % 16))) (Nat.div_one _)

theorem getLast?_leaf (seed : UInt64) :
    (leaf seed).getLast? = some (hexDigit (seed.toNat % 16)) := by
  rw [leaf, List.getLast?_append, getLast?_hexWord]
  rfl

theorem head?_trimSeparators (s : List Char) : (trimSeparators s).head? ≠ some separator := by
  intro h
  simp only [trimSeparators, List.head?_reverse] at h
  have hsub : ((s.dropWhile (· == separator)).reverse.dropWhile (· == separator)) <:+
      (s.dropWhile (· == separator)).reverse := List.dropWhile_suffix _
  obtain ⟨front, hf⟩ := hsub
  have hlast : (s.dropWhile (· == separator)).reverse.getLast? = some separator := by
    rw [← hf, List.getLast?_append, h]; rfl
  rw [List.getLast?_reverse] at hlast
  cases hd : s.dropWhile (· == separator) with
  | nil => rw [hd] at hlast; simp at hlast
  | cons c rest =>
    rw [hd] at hlast
    simp only [List.head?_cons, Option.some.injEq] at hlast
    have := List.head_dropWhile_not (l := s) (· == separator) (by rw [hd]; simp)
    simp [hd, hlast] at this

theorem isTarget_generatedText (parent : Option (List Char)) (seed : UInt64) :
    isTarget (generatedText parent seed) = true := by
  have hlast : (leaf seed).getLast? ≠ some separator := by
    rw [getLast?_leaf]
    simp only [ne_eq, Option.some.injEq]
    exact hexDigit_ne_separator _
  simp only [generatedText]
  split
  · simp only [isTarget, ne_eq, Bool.and_eq_true, decide_eq_true_eq]
    exact ⟨⟨by simp [leaf, leafLead], by simp [leaf, leafLead, separator]⟩, hlast⟩
  · rename_i hne
    simp only [isTarget, ne_eq, Bool.and_eq_true, decide_eq_true_eq]
    refine ⟨⟨by simp, ?_⟩, ?_⟩
    · have := head?_trimSeparators (parent.getD [])
      cases ht : trimSeparators (parent.getD []) with
      | nil => exact absurd ht hne
      | cons c rest => rw [ht] at this; simpa using this
    · rw [List.getLast?_append]
      have : (separator :: leaf seed).getLast? = (leaf seed).getLast? := by
        rw [List.getLast?_cons]; simp [getLast?_leaf]
      rw [this]
      simpa [getLast?_leaf] using hexDigit_ne_separator _

/-- A fresh target under `parent`, which may carry separators at its ends. -/
def Target.generate (parent : Option (List Char)) (seed : UInt64) : Target :=
  ⟨generatedText parent seed, isTarget_generatedText parent seed⟩

end PluginShading.Shading
