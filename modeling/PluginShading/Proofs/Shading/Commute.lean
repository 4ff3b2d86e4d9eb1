import PluginShading.Proofs.Shading.Opening
import PluginShading.Proofs.Source.Division

/-!
Shading a whole source and shading its pieces.

`split_shaded_source` is the main statement: a file that the rules keep is the split of its source with the
rules applied to the whole of it. One rule is one step: the header and every declaration are divided on
their own as they are in the source (`shadeDeclarations_cut`), and the shaded source splits into the
shaded pieces.
-/
namespace PluginShading.Shading

open Source

variable {r : Rule}

/-! ### One rule -/

theorem newline_not_mem_of_fronts {strict : Prop} {target : List Char} (h : Fronts strict target) :
    '\n' ∉ target := by
  obtain ⟨word, more, rfl, hword, hmore, -⟩ := h.eq_segments
  have hfree : ∀ piece, isIdentifier piece = true → '\n' ∉ piece := by
    intro piece hpiece hmem
    have := List.all_eq_true.1 (Bool.and_eq_true_iff.1 hpiece).2 '\n' hmem
    exact absurd this (by decide)
  simp only [segments, List.mem_append, List.mem_flatMap, List.mem_cons, not_or, not_exists, not_and]
  exact ⟨hfree word hword, fun piece hm => ⟨by decide, hfree piece (hmore piece hm)⟩⟩

/-- A rule changes names only, and no lines. -/
theorem keeps_shadeToken (ht : Fronts False r.target.text) : Keeps (shadeToken r) where
  text _ hk := shadeToken_of_kind r hk
  newlines := newlines_shadeToken (newline_not_mem_of_fronts ht)

/-- **Each declaration is shaded as it is in its source.** -/
theorem shadeDeclarations_cut {ts : List Token} {ds ds' : List Declaration} {ps : List (List Token)}
    {m m' : Machine} (hcuts : Cuts ts ds ps) (hsteps : Machine.Steps m ts m') (hm : m.Plain)
    (ht : Fronts False r.target.text) (htags : ∀ d ∈ ds, startsTag d.code = false)
    (h : shadeDeclarations r ds = .ok ds') :
    ds' = List.zipWith (Declaration.recode (shadeToken r)) ds ps ∧
      ∀ d ∈ ds', startsTag d.code = false := by
  induction hcuts generalizing m ds' with
  | nil =>
    cases h
    simp
  | @cons gap piece rest d ds ps hgap hcode hlast _ ih =>
    obtain ⟨k, hk, hpieces⟩ := hsteps.split
    obtain ⟨l, hl, hrest⟩ := hpieces.split
    have hplain := hk.plain_of_insignificant hm hgap
    have htag := htags d List.mem_cons_self
    simp only [shadeDeclarations] at h
    split at h
    · cases h
    · rename_i d' hd
      obtain ⟨us, hus, rfl⟩ := shadeDeclaration_eq_ok hd
      have hstop : ∃ t, piece.getLast? = some t ∧ isStopToken t = true := by
        obtain ⟨t, ht, hclose⟩ := hlast
        exact ⟨t, ht, by simp [isStopToken, hclose]⟩
      have hstart : fragmentStart (Source.text piece) = inCode (Source.text piece) :=
        fragmentStart_of_not_opensCode (hcode ▸ opensCode_of_not_startsTag htag)
      obtain ⟨rfl, hafter⟩ := fragmentTokens_cut hl hplain.sound hstop
        (hstart ▸ hplain.resembles (plain_inCode _)) (hcode ▸ hus)
      cases hmore : shadeDeclarations r ds with
      | error e =>
        rw [hmore] at h
        cases h
      | ok more =>
        rw [hmore] at h
        obtain rfl : {d with code := us.flatMap (shadeToken r)} :: more = ds' := Except.ok.inj h
        obtain ⟨rfl, hfree⟩ :=
          ih hrest hafter (fun e he => htags e (List.mem_cons_of_mem d he)) hmore
        refine ⟨rfl, fun e he => ?_⟩
        rcases List.mem_cons.1 he with rfl | he
        · exact startsTag_shaded ht hus htag
        · exact hfree e he

/-- The declared namespace moves where its token does. -/
theorem shadeToken_space {name : Token} (hk : name.kind = .qualifiedName ∨ name.kind = .identifier)
    (hword : name.kind = .identifier → ∀ c ∈ name.text, isNameChar c = true) :
    shadeToken r name = if r.shades name.text then r.relocate name.text else name.text := by
  obtain ⟨kind, space⟩ := name
  rcases hk with rfl | rfl
  · exact shadeToken_qualified r space
  · have hout : r.shades space = false := by
      cases hs : r.shades space with
      | false => rfl
      | true =>
        obtain ⟨first, second, more, hroot, -⟩ := eq_segments_of_isRoot r.root_valid
        have hmem : '\\' ∈ space := by
          rcases under_iff.1 hs with rfl | ⟨rest, rfl⟩ <;> simp [hroot, segments]
        exact absurd (hword rfl '\\' hmem) (by decide)
    rw [hout]
    rfl

/-- What is true of the source of a file and of the file before a rule is true after it. -/
structure Splits (path : Path) (source : List Char) (f : File) : Prop where
  opens : opensCode source = true
  split : split path source = .ok f
  free : ∀ d ∈ f.declarations, startsTag d.code = false

/-- The header of a source that opens code opens it. -/
theorem opensCode_header {source : List Char} {header : List Token} {m : Machine}
    (h : Machine.Steps (Machine.start source) header m) (hne : header ≠ [])
    (ho : opensCode source = true) : opensCode (Source.text header) = true := by
  cases h with
  | refl => exact absurd rfl hne
  | next hn _ =>
    rw [text_cons]
    exact opensCode_append (opensCode_first hn ho).1 _

/-- **A rule applied to the source gives the source of the shaded file.** -/
theorem Splits.shade {path : Path} {source : List Char} {f f' : File} (h : Splits path source f)
    (ht : isNamespace r.target.text = true) (hr : startsReserved r.root = false)
    (hshade : shadeFile r f = .ok f') :
    ∃ shaded, shadeCode r source = .ok shaded ∧ Splits path shaded f' := by
  obtain ⟨hopens, hsplit, hfree⟩ := h
  unfold Source.split at hsplit
  split at hsplit
  · cases hsplit
  rename_i ts hts
  obtain ⟨m, hm, hrest, hstack⟩ := tokenize_eq_ok_iff.1 hts
  have hmarks := hm.forall_tokens (P := isMarkToken) fun _ _ _ => Machine.next_isMarkToken
  have hwords := hm.forall_tokens (P := isWordToken) fun _ _ _ => Machine.next_isWordToken
  obtain ⟨header, rest, ps, name, hname, hpath, happend, hheader, hlast, hcuts, hk, hspace, hmap⟩ :=
    splitTokens_retext hmarks hsplit
  obtain ⟨us, ds, hus, hds, rfl⟩ := shadeFile_eq_ok hshade
  have hsteps := hm
  rw [happend] at hsteps
  obtain ⟨k, hfront, hpieces⟩ := hsteps.split
  have hne : header ≠ [] := by
    rintro rfl
    simp at hlast
  -- The header, divided on its own, is what it is in the source.
  have hstop : ∃ t, header.getLast? = some t ∧ isStopToken t = true := by
    obtain ⟨t, hlast, hsemi⟩ := hlast
    have hsemi : t.isPunctuation [';'] = true := hsemi
    exact ⟨t, hlast, by simp [isStopToken, hsemi]⟩
  have hlike : (Machine.start source).Resembles (fragmentStart (Source.text header)) := by
    rw [fragmentStart_of_opensCode (opensCode_header hfront hne hopens)]
    exact ⟨rfl, rfl, rfl⟩
  obtain ⟨rfl, hplain⟩ :=
    fragmentTokens_cut hfront (Machine.sound_start source) hstop hlike (hheader ▸ hus)
  obtain ⟨rfl, hfree'⟩ := shadeDeclarations_cut hcuts hpieces hplain
    (fronts_of_isNamespace ht) hfree hds
  -- The shaded source is divided into the shaded tokens.
  have hopens' : opensCode (ts.flatMap (shadeToken r)) = true :=
    opensCode_shaded hm (by simp [happend, hne]) hopens
  have htokens : fragmentTokens source = .ok ts := by rw [fragmentTokens_of_opensCode hopens, hts]
  have hmoved : ∀ t ∈ ts, Moved True t (shadeToken r t) :=
    fun t _ => moved_shadeToken (fronts_of_isNamespace ht) (fun _ => hr) t
  obtain ⟨ts', hts', hall, htexts⟩ :=
    fragmentTokens_shaded htokens hmoved (by rw [hopens', hopens])
  rw [Machine.eq_map_retext hall htexts, fragmentTokens_of_opensCode hopens'] at hts'
  refine ⟨ts.flatMap (shadeToken r), by rw [shadeCode, htokens]; rfl, hopens', ?_, hfree'⟩
  rw [Source.split, hts']
  rw [hpath, hspace, ← shadeToken_space hk (hwords name hname)]
  exact hmap (shadeToken r) (keeps_shadeToken (fronts_of_isNamespace ht))

/-- **A file that the rules keep is the split of its source with the rules applied to the whole of it.** -/
theorem split_shaded_source {locate : Path → Path} {rules : List Rule} {path : Path}
    {source : List Char} {f f' : File} (hopens : opensCode source = true)
    (hsplit : Source.split path source = .ok f)
    (hfree : ∀ d ∈ f.declarations, startsTag d.code = false)
    (htargets : ∀ r ∈ rules, isNamespace r.target.text = true)
    (hroots : ∀ r ∈ rules, startsReserved r.root = false)
    (hkept : applyRules locate rules [f] = .ok [f']) :
    ∃ shaded, rules.foldlM (fun code r => shadeCode r code) source = .ok shaded ∧
      Source.split path shaded = .ok f' := by
  have h : Splits path source f := ⟨hopens, hsplit, hfree⟩
  clear hopens hsplit hfree
  induction rules generalizing source f with
  | nil =>
    cases hkept
    exact ⟨source, rfl, h.split⟩
  | cons r rest ih =>
    simp only [applyRules, pass] at hkept
    split at hkept
    · cases hkept
    · rename_i files hpass
      split at hpass
      · cases hpass
        have hnone : ∀ rules, applyRules locate rules [] = .ok [] := by
          intro rules
          induction rules with
          | nil => rfl
          | cons r rest ih => exact ih
        rw [hnone] at hkept
        cases hkept
      · split at hpass
        · cases hpass
        · rename_i g hshade
          obtain rfl : [g] = files := Except.ok.inj hpass
          obtain ⟨middle, hmiddle, hsplits⟩ := h.shade (htargets r List.mem_cons_self)
            (hroots r List.mem_cons_self) hshade
          obtain ⟨shaded, hshaded, hsplit⟩ := ih
            (fun s hs => htargets s (List.mem_cons_of_mem r hs))
            (fun s hs => hroots s (List.mem_cons_of_mem r hs)) hkept hsplits
          refine ⟨shaded, ?_, hsplit⟩
          rw [List.foldlM_cons, hmiddle]
          exact hshaded

/-- The statement holds of a class that uses a trait of its own library. -/
theorem exists_split_shaded_source : ∃ source path r f f' shaded,
    Source.split path source = .ok f ∧ applyRules id [r] [f] = .ok [f'] ∧ f ≠ f' ∧
      [r].foldlM (fun code r => shadeCode r code) source = .ok shaded ∧
        Source.split path shaded = .ok f' := by
  let source := "<?php\nnamespace A\\B;\nclass C \x7b use \\A\\B\\D; \x7d".toList
  let r : Rule :=
    ⟨"A\\B".toList, by decide +kernel, ⟨"libs\\_1".toList, by decide +kernel⟩, none, none⟩
  let f : File := ⟨⟨"src/C.php"⟩, "<?php\nnamespace A\\B;".toList, "A\\B".toList,
    [⟨2, ['C'], "class C \x7b use \\A\\B\\D; \x7d".toList⟩]⟩
  let f' : File := ⟨⟨"src/C.php"⟩, "<?php\nnamespace libs\\_1\\A\\B;".toList,
    "libs\\_1\\A\\B".toList, [⟨2, ['C'], "class C \x7b use \\libs\\_1\\A\\B\\D; \x7d".toList⟩]⟩
  have hsplit : Source.split ⟨"src/C.php"⟩ source = .ok f := by decide +kernel
  have hkept : applyRules id [r] [f] = .ok [f'] := by decide +kernel
  obtain ⟨shaded, hshaded⟩ := split_shaded_source (by decide +kernel) hsplit (by decide +kernel)
    (by decide +kernel) (by decide +kernel) hkept
  exact ⟨source, _, r, f, f', shaded, hsplit, hkept, by decide +kernel, hshaded⟩

end PluginShading.Shading
