import PluginShading.Proofs.Shading.Opening
import PluginShading.Proofs.Shading.Survival

/-!
References to the declarations of the files that are kept.

A declaration moves with the namespace of its file, a reference to it by its full name. `references_bound`
is the main statement: under a list of rules the one follows the other, in every fragment of every file,
but for declarations whose full name is itself under a root that their namespace is not under
(`bound_iff`).
-/
namespace PluginShading.Shading

open Source

variable {locate : Path → Path} {r : Rule} {rules : List Rule} {t : Target}

/-! ### Names behind a list of rules -/

/-- The full name of what is declared in a namespace. -/
def qualify (space name : List Char) : List Char := space ++ separator :: name

/-- The full name moves where the namespace does: some rule moves both, or none moves either. -/
def Bound (rules : List Rule) (space name : List Char) : Prop :=
  (∃ r ∈ rules, r.shades space = true) ∨ ∀ r ∈ rules, r.shades (qualify space name) = false

theorem under_qualify {root space : List Char} (h : under root space = true) (name : List Char) :
    under root (qualify space name) = true := by
  refine under_iff.2 (.inr ?_)
  rcases under_iff.1 h with rfl | ⟨rest, rfl⟩
  · exact ⟨name, rfl⟩
  · exact ⟨rest ++ separator :: name, by simp [qualify]⟩

/-- A root that moves a full name moves its namespace, or is the full name. -/
theorem under_qualify_iff {root space name : List Char} (hname : separator ∉ name) :
    under root (qualify space name) = true ↔ under root space = true ∨ root = qualify space name := by
  constructor
  · intro h
    rcases under_iff.1 h with heq | ⟨rest, heq⟩
    · exact .inr heq.symm
    · refine .inl (under_iff.2 ?_)
      rcases List.append_eq_append_iff.1 heq with ⟨mid, rfl, hsep⟩ | ⟨mid, rfl, hsep⟩
      · cases mid with
        | nil => exact .inl (List.append_nil space).symm
        | cons c tail =>
          obtain ⟨rfl, rfl⟩ := List.cons_eq_cons.1 hsep
          exact absurd (List.mem_append_right tail List.mem_cons_self) hname
      · cases mid with
        | nil => exact .inl (List.append_nil root)
        | cons c tail =>
          obtain ⟨rfl, -⟩ := List.cons_eq_cons.1 hsep
          exact .inr ⟨tail, rfl⟩
  · rintro (h | rfl)
    · exact under_qualify h name
    · exact under_iff.2 (.inl rfl)

/-- A name is bound unless it is a root of its own, in a namespace that does not move. -/
theorem bound_iff {space name : List Char} (hname : separator ∉ name) :
    Bound rules space name ↔
      (∃ r ∈ rules, r.shades space = true) ∨ ∀ r ∈ rules, r.root ≠ qualify space name := by
  constructor
  · rintro (h | h)
    · exact .inl h
    · refine .inr fun r hr heq => ?_
      have hout := h r hr
      rw [Rule.shades, heq, under_iff.2 (.inl rfl)] at hout
      cases hout
  · rintro (h | h)
    · exact .inl h
    · by_cases hmoves : ∃ r ∈ rules, r.shades space = true
      · exact .inl hmoves
      · refine .inr fun r hr => ?_
        cases hfull : r.shades (qualify space name) with
        | false => rfl
        | true =>
          rcases (under_qualify_iff hname).1 hfull with hspace | heq
          · exact absurd ⟨r, hr, hspace⟩ hmoves
          · exact absurd heq (h r hr)

theorem spaceAfter_qualify_iff {space name : List Char} (htarget : ∀ r ∈ rules, r.target = t)
    (hfree : ∀ r ∈ rules, ∀ name, r.shades (t.relocate name) = false) :
    spaceAfter rules (qualify space name) = qualify (spaceAfter rules space) name ↔
      Bound rules space name := by
  by_cases hspace : ∃ r ∈ rules, r.shades space = true
  · have hfull : ∃ r ∈ rules, r.shades (qualify space name) = true := by
      obtain ⟨r, hr, h⟩ := hspace
      exact ⟨r, hr, under_qualify h name⟩
    rw [spaceAfter_of_shades htarget hfree hspace, spaceAfter_of_shades htarget hfree hfull]
    exact iff_of_true (by simp [Target.relocate, qualify]) (.inl hspace)
  · have hstay : spaceAfter rules space = space := by
      refine spaceAfter_of_not_shades fun r hr => ?_
      cases h : r.shades space with
      | false => rfl
      | true => exact absurd ⟨r, hr, h⟩ hspace
    rw [hstay]
    by_cases hfull : ∃ r ∈ rules, r.shades (qualify space name) = true
    · rw [spaceAfter_of_shades htarget hfree hfull]
      refine iff_of_false ?_ ?_
      · intro heq
        have := congrArg List.length heq
        simp [Target.relocate] at this
        omega
      · rintro (h | h)
        · exact hspace h
        · obtain ⟨r, hr, hr'⟩ := hfull
          rw [h r hr] at hr'
          cases hr'
    · have hnone : ∀ r ∈ rules, r.shades (qualify space name) = false := by
        intro r hr
        cases h : r.shades (qualify space name) with
        | false => rfl
        | true => exact absurd ⟨r, hr, h⟩ hfull
      rw [spaceAfter_of_not_shades hnone]
      exact iff_of_true rfl (.inr hnone)

/-! ### Tokens behind a list of rules -/

/-- What becomes of a token: names move as namespaces do, and nothing else changes its text. -/
structure Follows (rules : List Rule) (u u' : Token) : Prop where
  other : isNameKind u.kind = false → isNameKind u'.kind = false ∧ u'.text = u.text
  qualified : u.kind = .qualifiedName → u' = ⟨.qualifiedName, spaceAfter rules u.text⟩
  fullyQualified : ∀ name, u = ⟨.fullyQualifiedName, '\\' :: name⟩ →
    u' = ⟨.fullyQualifiedName, '\\' :: spaceAfter rules name⟩

theorem Follows.refl (u : Token) : Follows [] u u where
  other hk := ⟨hk, rfl⟩
  qualified hk := by rw [← hk]; rfl
  fullyQualified _ h := h

theorem Follows.cons {rest : List Rule} {u v w : Token} (h : Renames False u v)
    (htext : v.text = shadeToken r u) (hrest : Follows rest v w) : Follows (r :: rest) u w where
  other hk := by
    have hv : isNameKind v.kind = false := by
      rcases h.kind with heq | ⟨-, -, hl⟩
      · rw [heq, hk]
      · simp only [List.mem_cons, List.not_mem_nil, or_false] at hl
        rcases hl with hl | hl <;> rw [hl] <;> rfl
    obtain ⟨hw, hsame⟩ := hrest.other hv
    exact ⟨hw, by rw [hsame, h.text_eq hk]⟩
  qualified hk := by
    have hv : v.kind = .qualifiedName := (h.kind.eq_iff (by decide)).2 hk
    obtain ⟨kind, name⟩ := u
    obtain rfl : kind = .qualifiedName := hk
    rw [hrest.qualified hv, htext, shadeToken_qualified]
    rfl
  fullyQualified name heq := by
    have hv : v.kind = .fullyQualifiedName := (h.kind.eq_iff (by decide)).2 (by rw [heq])
    have hmove : v.text = '\\' :: r.move name := by
      rw [htext, heq, shadeToken_fullyQualified]
      unfold Rule.move Rule.shades
      split <;> rfl
    obtain ⟨kind, text⟩ := v
    obtain rfl : kind = .fullyQualifiedName := hv
    obtain rfl : text = '\\' :: r.move name := hmove
    exact hrest.fullyQualified (r.move name) rfl

theorem forall₂_follows {rest : List Rule} {us vs ws : List Token}
    (h : List.Forall₂ (Renames False) us vs) (htext : vs.map Token.text = us.map (shadeToken r))
    (hrest : List.Forall₂ (Follows rest) vs ws) : List.Forall₂ (Follows (r :: rest)) us ws := by
  induction h generalizing ws with
  | nil =>
    cases hrest
    exact .nil
  | cons hhead _ ih =>
    rw [List.map_cons, List.map_cons, List.cons.injEq] at htext
    cases hrest with
    | cons hfollows hmore => exact .cons (.cons hhead htext.1 hfollows) (ih htext.2 hmore)

/-! ### Fragments behind a list of rules -/

/-- What a rule shades of a file. -/
def fragments (f : File) : List (List Char) := f.header :: f.declarations.map Declaration.code

/-- **A fragment behind a list of rules is divided into what became of its tokens.** -/
theorem fragmentTokens_follows {code code' : List Char} {ts : List Token}
    (ht : Fronts False t.text) (htarget : ∀ r ∈ rules, r.target = t)
    (hsteady : Steady t.text code) (hts : fragmentTokens code = .ok ts)
    (h : rules.foldlM (fun code r => shadeCode r code) code = .ok code') :
    ∃ ts', fragmentTokens code' = .ok ts' ∧ List.Forall₂ (Follows rules) ts ts' := by
  induction rules generalizing code ts with
  | nil =>
    obtain rfl : code = code' := Except.ok.inj h
    exact ⟨ts, hts, List.forall₂_same.2 fun u _ => Follows.refl u⟩
  | cons r rest ih =>
    obtain rfl := htarget r List.mem_cons_self
    have hshade : shadeCode r code = .ok (ts.flatMap (shadeToken r)) := by
      rw [shadeCode, hts]
      rfl
    rw [List.foldlM_cons, hshade] at h
    have hmoved : ∀ u ∈ ts, Moved False u (shadeToken r u) :=
      fun u _ => moved_shadeToken ht (by simp) u
    obtain ⟨us, hus, hrenames, htexts⟩ :=
      fragmentTokens_shaded hts hmoved (hsteady.opensCode_eq ht hts)
    obtain ⟨ts', hts', hfollows⟩ := ih (fun s hs => htarget s (List.mem_cons_of_mem r hs))
      (hsteady.shade ht hts) hus h
    exact ⟨ts', hts', forall₂_follows hrenames htexts hfollows⟩

theorem shadeDeclarations_code {ds ds' : List Declaration} (h : shadeDeclarations r ds = .ok ds')
    {k : Nat} {d : Declaration} (hk : ds[k]? = some d) :
    ∃ d', ds'[k]? = some d' ∧ shadeCode r d.code = .ok d'.code := by
  obtain ⟨hlength, hall⟩ := List.forall₂_iff_get.1 (shadeDeclarations_eq_ok h)
  obtain ⟨hlt, rfl⟩ := List.getElem?_eq_some_iff.1 hk
  have hlt' : k < ds'.length := hlength ▸ hlt
  refine ⟨ds'[k], List.getElem?_eq_getElem hlt', ?_⟩
  simpa using (shadeDeclaration_parts (hall k hlt hlt')).1

theorem shadeFile_fragment {f g : File} (h : shadeFile r f = .ok g) {k : Nat} {code : List Char}
    (hk : (fragments f)[k]? = some code) :
    ∃ code', (fragments g)[k]? = some code' ∧ shadeCode r code = .ok code' := by
  obtain ⟨ts, ds, hts, hds, rfl⟩ := shadeFile_eq_ok h
  cases k with
  | zero =>
    obtain rfl : f.header = code := by simpa [fragments] using hk
    refine ⟨_, rfl, ?_⟩
    rw [shadeCode, hts]
    rfl
  | succ k =>
    obtain ⟨d, hd, rfl⟩ : ∃ d, f.declarations[k]? = some d ∧ d.code = code := by
      simpa [fragments] using hk
    obtain ⟨d', hd', hshade⟩ := shadeDeclarations_code hds hd
    exact ⟨d'.code, by simp [fragments, hd'], hshade⟩

theorem survivor_fragment {f g : File} (h : survivor locate rules f = some g) {k : Nat}
    {code : List Char} (hk : (fragments f)[k]? = some code) :
    ∃ code', (fragments g)[k]? = some code' ∧
      rules.foldlM (fun code r => shadeCode r code) code = .ok code' := by
  induction rules generalizing f code with
  | nil =>
    obtain rfl : f = g := Option.some.inj h
    exact ⟨code, hk, rfl⟩
  | cons r rest ih =>
    obtain ⟨e, he, hg⟩ := survivor_cons_eq_some h
    obtain ⟨middle, hmiddle, hshade⟩ := shadeFile_fragment he hk
    obtain ⟨code', hcode', hrest⟩ := ih hg hmiddle
    refine ⟨code', hcode', ?_⟩
    rw [List.foldlM_cons, hshade]
    exact hrest

/-! ### References -/

/-- What becomes of a token where the file that declares `name` moves from `space` to `space'`: a
reference to the declaration follows it exactly if the name is bound. -/
structure Rebinds (rules : List Rule) (name space space' : List Char) (u u' : Token) : Prop where
  other : isNameKind u.kind = false → u'.text = u.text
  fullyQualified : u = ⟨.fullyQualifiedName, '\\' :: qualify space name⟩ →
    (u' = ⟨.fullyQualifiedName, '\\' :: qualify space' name⟩ ↔ Bound rules space name)
  imported : u = ⟨.qualifiedName, qualify space name⟩ →
    (u' = ⟨.qualifiedName, qualify space' name⟩ ↔ Bound rules space name)

theorem Follows.rebinds {space name : List Char} {u u' : Token} (h : Follows rules u u')
    (hmove : spaceAfter rules (qualify space name) = qualify (spaceAfter rules space) name ↔
      Bound rules space name) : Rebinds rules name space (spaceAfter rules space) u u' where
  other hk := (h.other hk).2
  fullyQualified hu := by
    rw [h.fullyQualified _ hu, ← hmove]
    simp
  imported hu := by
    rw [h.qualified (by rw [hu]), hu, ← hmove]
    simp

/-- **References stay bound.** Where the rules keep two files, every token in the one that refers to a
declaration in the other refers to it again afterwards, exactly if its name is bound. -/
theorem references_bound {files result : List File} (ht : isNamespace t.text = true)
    (htarget : ∀ r ∈ rules, r.target = t)
    (hapart : ∀ r ∈ rules, under r.root t.text = false ∧ under t.text r.root = false)
    (h : applyRules locate rules files = .ok result) :
    result = files.filterMap (survivor locate rules) ∧
      ∀ f ∈ files, ∀ f', survivor locate rules f = some f' → ∀ d ∈ f.declarations,
        ∀ g ∈ files, ∀ g', survivor locate rules g = some g' →
          ∀ (k : Nat) (code : List Char), (fragments g)[k]? = some code → Steady t.text code →
            ∃ code', (fragments g')[k]? = some code' ∧ ∀ ts, fragmentTokens code = .ok ts →
              ∃ ts', fragmentTokens code' = .ok ts' ∧
                List.Forall₂ (Rebinds rules d.name f.space f'.space) ts ts' := by
  refine ⟨applyRules_eq_filterMap h, ?_⟩
  intro f _ f' hf d _ g _ g' hg k code hcode hsteady
  obtain ⟨code', hcode', hshade⟩ := survivor_fragment hg hcode
  refine ⟨code', hcode', fun ts hts => ?_⟩
  obtain ⟨ts', hts', hfollows⟩ := fragmentTokens_follows (fronts_of_isNamespace ht) htarget hsteady hts hshade
  have hfree : ∀ r ∈ rules, ∀ name, r.shades (t.relocate name) = false := by
    intro r hr name
    exact under_relocate (hapart r hr).1 (hapart r hr).2 name
  have hspace : f'.space = spaceAfter rules f.space := (survivor_eq_some hf).2
  refine ⟨ts', hts', hfollows.imp fun u u' hu => ?_⟩
  rw [hspace]
  exact hu.rebinds (spaceAfter_qualify_iff htarget hfree)

/-- The statement holds of a file that imports a class of the library. -/
theorem exists_references_bound : ∃ r f g f' g' ts, isNamespace r.target.text = true ∧
    under r.root r.target.text = false ∧ under r.target.text r.root = false ∧
    applyRules id [r] [f, g] = .ok [f', g'] ∧ Bound [r] f.space ['C'] ∧
      fragmentTokens g.header = .ok ts ∧ ⟨.qualifiedName, qualify f.space ['C']⟩ ∈ ts ∧
        ∃ ts', fragmentTokens g'.header = .ok ts' ∧
          List.Forall₂ (Rebinds [r] ['C'] f.space f'.space) ts ts' := by
  let r : Rule := ⟨"A\\B".toList, by decide +kernel, ⟨['t'], by decide⟩, none, none⟩
  let f : File := ⟨⟨"C.php"⟩, "<?php namespace A\\B;".toList, "A\\B".toList, [⟨0, ['C'], "class C;".toList⟩]⟩
  let f' : File :=
    ⟨⟨"C.php"⟩, "<?php namespace t\\A\\B;".toList, "t\\A\\B".toList, [⟨0, ['C'], "class C;".toList⟩]⟩
  let g : File := ⟨⟨"D.php"⟩, "<?php namespace D; use A\\B\\C;".toList, ['D'], []⟩
  let g' : File := ⟨⟨"D.php"⟩, "<?php namespace D; use t\\A\\B\\C;".toList, ['D'], []⟩
  let ts : List Token := [⟨.openTag, "<?php ".toList⟩, ⟨.keyword .namespaceWord, "namespace".toList⟩,
    ⟨.whitespace, [' ']⟩, ⟨.identifier, ['D']⟩, ⟨.punctuation, [';']⟩, ⟨.whitespace, [' ']⟩,
    ⟨.keyword .useWord, "use".toList⟩, ⟨.whitespace, [' ']⟩, ⟨.qualifiedName, "A\\B\\C".toList⟩,
    ⟨.punctuation, [';']⟩]
  have ht : isNamespace r.target.text = true := by decide +kernel
  have hapart : under r.root r.target.text = false ∧ under r.target.text r.root = false := by
    decide +kernel
  have happly : applyRules id [r] [f, g] = .ok [f', g'] := by decide +kernel
  have hbound : Bound [r] f.space ['C'] := .inl ⟨r, List.mem_cons_self, by decide +kernel⟩
  have hts : fragmentTokens g.header = .ok ts := by decide +kernel
  have htarget : ∀ s ∈ [r], s.target = r.target := by simp
  obtain ⟨-, hall⟩ := references_bound ht htarget (by simpa using hapart) happly
  obtain ⟨code', hcode', htokens⟩ := hall f (by simp) f' (by decide +kernel) _ List.mem_cons_self g
    (by simp) g' (by decide +kernel) 0 g.header rfl fun _ => .inr (by decide +kernel)
  obtain rfl : g'.header = code' := Option.some.inj hcode'
  exact ⟨r, f, g, f', g', ts, ht, hapart.1, hapart.2, happly, hbound, hts, by decide +kernel,
    htokens ts hts⟩

/-! ### References that are not bound -/

/-- Where `f` and `g` become `f'` and `g'`, every fully qualified reference in the one to a declaration of
the other follows it. -/
def References (f f' g g' : File) : Prop :=
  ∀ d ∈ f.declarations, ∀ (k : Nat) (code code' : List Char) (ts ts' : List Token) (i : Nat),
    (fragments g)[k]? = some code → (fragments g')[k]? = some code' → fragmentTokens code = .ok ts →
      fragmentTokens code' = .ok ts' →
        ts[i]? = some ⟨.fullyQualifiedName, '\\' :: qualify f.space d.name⟩ →
          ts'[i]? = some ⟨.fullyQualifiedName, '\\' :: qualify f'.space d.name⟩

/-- The full name of a class is a root: the reference to it moves, and the class stays. -/
theorem root_reference_lost : ∃ (t : Target) (r : Rule) (f g f' g' : File),
    isNamespace t.text = true ∧ r.target = t ∧ under r.root t.text = false ∧
      under t.text r.root = false ∧ applyRules id [r] [f, g] = .ok [f', g'] ∧ ¬ References f f' g g' := by
  let r : Rule := ⟨"Foo\\Bar".toList, by decide +kernel, ⟨"libs_xyz".toList, by decide +kernel⟩, none, none⟩
  let f : File := ⟨⟨"a.php"⟩, "<?php namespace Foo;".toList, "Foo".toList,
    [⟨0, "Bar".toList, "class Bar \x7b\x7d".toList⟩]⟩
  let g : File := ⟨⟨"b.php"⟩, "<?php namespace D;".toList, ['D'],
    [⟨0, ['X'], "class X extends \\Foo\\Bar \x7b\x7d".toList⟩]⟩
  let g' : File := ⟨⟨"b.php"⟩, "<?php namespace D;".toList, ['D'],
    [⟨0, ['X'], "class X extends \\libs_xyz\\Foo\\Bar \x7b\x7d".toList⟩]⟩
  let words : List Token := [⟨.keyword .classWord, "class".toList⟩, ⟨.whitespace, [' ']⟩,
    ⟨.identifier, ['X']⟩, ⟨.whitespace, [' ']⟩, ⟨.keyword .other, "extends".toList⟩, ⟨.whitespace, [' ']⟩]
  let body : List Token := [⟨.whitespace, [' ']⟩, ⟨.punctuation, ['\x7b']⟩, ⟨.punctuation, ['\x7d']⟩]
  refine ⟨r.target, r, f, g, f, g', by decide +kernel, rfl, by decide +kernel, by decide +kernel,
    by decide +kernel, fun h => ?_⟩
  have hlost := h _ List.mem_cons_self 1 _ _
    (words ++ ⟨.fullyQualifiedName, "\\Foo\\Bar".toList⟩ :: body)
    (words ++ ⟨.fullyQualifiedName, "\\libs_xyz\\Foo\\Bar".toList⟩ :: body) 6 rfl rfl
    (by decide +kernel) (by decide +kernel) (by decide +kernel)
  exact absurd hlost (by decide +kernel)

/-- A name behind `<?` makes an open tag under a target that begins with `php`: the second rule finds no
code in the fragment, and its reference stays. -/
theorem tag_reference_lost : ∃ (t : Target) (r s : Rule) (f g f' g' : File),
    isNamespace t.text = true ∧ r.target = t ∧ s.target = t ∧
      (∀ q ∈ [r, s], under q.root t.text = false ∧ under t.text q.root = false) ∧
        Bound [r, s] f.space ['C'] ∧ applyRules id [r, s] [f, g] = .ok [f', g'] ∧
          ¬ References f f' g g' := by
  let r : Rule := ⟨"E\\F".toList, by decide +kernel, ⟨"php_x".toList, by decide +kernel⟩, none, none⟩
  let s : Rule := ⟨"A\\B".toList, by decide +kernel, ⟨"php_x".toList, by decide +kernel⟩, none, none⟩
  let f : File := ⟨⟨"a.php"⟩, "<?php namespace A\\B;".toList, "A\\B".toList,
    [⟨0, ['C'], "class C \x7b\x7d".toList⟩]⟩
  let f' : File := ⟨⟨"a.php"⟩, "<?php namespace php_x\\A\\B;".toList, "php_x\\A\\B".toList,
    [⟨0, ['C'], "class C \x7b\x7d".toList⟩]⟩
  let g : File := ⟨⟨"b.php"⟩, "<?php namespace D;".toList, ['D'],
    [⟨0, ['X'], "<?E\\F \\A\\B\\C class X \x7b\x7d".toList⟩]⟩
  let g' : File := ⟨⟨"b.php"⟩, "<?php namespace D;".toList, ['D'],
    [⟨0, ['X'], "<?php_x\\E\\F \\A\\B\\C class X \x7b\x7d".toList⟩]⟩
  refine ⟨r.target, r, s, f, g, f', g', by decide +kernel, rfl, rfl, by decide +kernel,
    .inl ⟨s, by simp, by decide +kernel⟩, by decide +kernel, fun h => ?_⟩
  have hlost := h _ List.mem_cons_self 1 _ _
    [⟨.punctuation, ['<']⟩, ⟨.punctuation, ['?']⟩, ⟨.qualifiedName, "E\\F".toList⟩, ⟨.whitespace, [' ']⟩,
      ⟨.fullyQualifiedName, "\\A\\B\\C".toList⟩, ⟨.whitespace, [' ']⟩,
      ⟨.keyword .classWord, "class".toList⟩, ⟨.whitespace, [' ']⟩, ⟨.identifier, ['X']⟩,
      ⟨.whitespace, [' ']⟩, ⟨.punctuation, ['\x7b']⟩, ⟨.punctuation, ['\x7d']⟩]
    [⟨.other, "<?php_x\\E\\F \\A\\B\\C class X \x7b\x7d".toList⟩] 4 rfl rfl
    (by decide +kernel) (by decide +kernel) (by decide +kernel)
  exact absurd hlost (by decide +kernel)

end PluginShading.Shading
