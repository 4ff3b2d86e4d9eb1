import PluginShading.Proofs.Shading.Fragment
import PluginShading.Proofs.Source.Cutting
import PluginShading.Proofs.Source.Statement

/-!
A source cut in two.

Between two tokens of code with nothing open, a source may be cut: what stands behind is divided as it was, behind an
open tag (`tokenize_behind`), and what stands in front is divided as it was (`tokenize_front`).
-/
namespace PluginShading.Shading

open Source

variable {source : List Char} {before after : List Token} {m m' : Machine} {ts : List Token}

/-- What a machine that reads code reads, with nothing open, is what there is behind an open tag. -/
theorem tokenize_behind (hm : m.Plain) (h : Machine.Steps m ts m') (hrest : m'.rest = []) (hs : m'.stack = []) :
    tokenize (openLine ++ Source.text ts) = .ok (⟨.openTag, openLine⟩ :: ts) := by
  have hsame : ∀ t ∈ ts, Moved True t (Token.text t) := fun _ _ => .same
  have hlike := hm.resembles (plain_inCode (Source.text ts))
  have hend : Machine.Ends ts m'.rest [] := .inl ⟨hrest, rfl⟩
  have htext : (inCode (Source.text ts)).rest = ts.flatMap Token.text ++ [] := (List.append_nil _).symm
  obtain ⟨ts', n, hsteps, hall, htexts, hrest', hlike'⟩ := h.moved hm.sound hsame hend hlike htext
  rw [Machine.eq_map_retext hall htexts, show Token.retext Token.text = id from rfl, List.map_id] at hsteps
  refine tokenize_eq_ok_iff.2 ⟨n, .next (next_openLine _) hsteps, hrest', ?_⟩
  have hstack := hlike'.stack
  rwa [hs, List.map_nil, List.map_eq_nil_iff] at hstack

/-- The tokens in front are read again, but a keyword `enum` with nothing but white space behind it is a name. -/
theorem tokenize_front (hm : Machine.Steps (Machine.start source) before m) (hs : m.stack = [])
    (ho : m.outside = false) : ∃ before', tokenize (Source.text before) = .ok before' ∧
      (before' = before ∨ ∃ front word blanks, before = front ++ ⟨.keyword .enumWord, word⟩ :: blanks ∧
        (∀ t ∈ blanks, t.kind = .whitespace) ∧ before' = front ++ ⟨.identifier, word⟩ :: blanks) := by
  obtain ⟨before', n, hsteps, hrest, hstack, hbefore⟩ := hm.repeated (Machine.sound_start source) hs ho
  exact ⟨before', tokenize_eq_ok_iff.2 ⟨n, hsteps, hrest, hstack⟩, hbefore⟩

/-- **A source may be cut between two tokens of code.** Nothing may be open there, and no member may be named next. What
stands behind is divided as it was, behind an open tag; what stands in front is divided as it was, but for a word `enum`
that ends it. -/
theorem tokenize_divided (h : tokenize source = .ok (before ++ after))
    (hm : Machine.Steps (Machine.start source) before m) (hs : m.stack = []) (ho : m.outside = false)
    (hlast : namesMember (lastSignificant before) = false) :
    tokenize (openLine ++ Source.text after) = .ok (⟨.openTag, openLine⟩ :: after) ∧
    ∃ before', tokenize (Source.text before) = .ok before' ∧
      (before' = before ∨ ∃ front word blanks, before = front ++ ⟨.keyword .enumWord, word⟩ :: blanks ∧
        (∀ t ∈ blanks, t.kind = .whitespace) ∧ before' = front ++ ⟨.identifier, word⟩ :: blanks) := by
  obtain ⟨l, hl, hrest, hstack⟩ := tokenize_eq_ok_iff.1 h
  obtain ⟨k, hk, hafter⟩ := hl.split
  obtain rfl := hm.unique hk
  have hmember : namesMember m.last = false := by
    rw [hm.last, show (Machine.start source).last = none from rfl, Option.or_none]
    exact hlast
  exact ⟨tokenize_behind ⟨ho, hs, hmember⟩ hafter hrest hstack, tokenize_front hm hs ho⟩

/-- The source is cut behind `enum`, which is a name then. -/
theorem exists_tokenize_divided : ∃ source before after, tokenize source = .ok (before ++ after) ∧
    tokenize (openLine ++ Source.text after) = .ok (⟨.openTag, openLine⟩ :: after) ∧
      ∃ before', tokenize (Source.text before) = .ok before' ∧ before' ≠ before := by
  let source := "<?php enum A \x7b\x7d".toList
  let tag : Token := ⟨.openTag, "<?php ".toList⟩
  let word : Token := ⟨.keyword .enumWord, "enum".toList⟩
  let after : List Token := [⟨.whitespace, [' ']⟩, ⟨.identifier, ['A']⟩, ⟨.whitespace, [' ']⟩, ⟨.punctuation, ['{']⟩,
    ⟨.punctuation, ['}']⟩]
  let l := (Machine.start source).readOutside.2
  have hl : (Machine.start source).next = .ok (some (tag, l)) := rfl
  have hvalue : (l.next.toOption.join.map fun r => (r.1, r.2.stack, r.2.outside)) = some (word, [], false) := by
    decide +kernel
  obtain ⟨t, k, hn, hvalues⟩ := Machine.exists_next hvalue
  simp only [Prod.mk.injEq] at hvalues
  obtain ⟨rfl, hs, ho⟩ := hvalues
  have h : tokenize source = .ok ([tag, word] ++ after) := by decide +kernel
  obtain ⟨hbehind, before', hfront, hbefore⟩ :=
    tokenize_divided h (.next hl (.next hn (.refl k))) hs ho (by decide +kernel)
  refine ⟨source, [tag, word], after, h, hbehind, before', hfront, ?_⟩
  rintro rfl
  revert hfront
  decide +kernel

end PluginShading.Shading
