import PluginShading.Proofs.Source.Rerun
import PluginShading.Shading.Pass

/-!
Fragments before and after a rule.

A rule moves names in the tokens of a fragment, and the text that results is divided into what became of
those tokens (`fragmentTokens_shaded`), as long as the fragment opens the same way. A fragment that is cut
out of a run behind a stop is divided as it was there (`fragmentTokens_cut`).
-/
namespace PluginShading.Shading

open Source

variable {strict : Prop} {r : Rule}

/-! ### Names under a root -/

/-- A root is two words or more. -/
theorem eq_segments_of_isRoot {root : List Char} (h : isRoot root = true) :
    ∃ first second more, root = first ++ segments (second :: more) ∧
      Text.pieces '\\' root = first :: second :: more ∧ first ≠ [] ∧
      ∀ c ∈ first, isSegmentChar c = true := by
  have hjoin := Text.join_pieces '\\' root
  have h := Bool.and_eq_true_iff.1 h
  have hlength : 2 ≤ (Text.pieces '\\' root).length := of_decide_eq_true h.1
  have hall := List.all_eq_true.1 h.2
  cases hp : Text.pieces '\\' root with
  | nil => simp [hp] at hlength
  | cons first rest =>
    cases rest with
    | nil => simp [hp] at hlength
    | cons second more =>
      rw [hp, join_cons] at hjoin
      have hfirst := hall first (hp ▸ List.mem_cons_self)
      simp only [Bool.and_eq_true, Bool.not_eq_true', List.isEmpty_eq_false_iff,
        List.all_eq_true] at hfirst
      exact ⟨first, second, more, hjoin.symm, rfl, hfirst⟩

theorem isNameChar_of_isNumeral {c : Char} (h : isNumeral c = true) : isNameChar c = true := by
  have hstop : isNameChar c = false → isNumeral c = false :=
    fun hc => headIs_isNumeral_of_stop (show headIs isNameChar [c] = false from hc)
  cases hc : isNameChar c with
  | true => rfl
  | false =>
    rw [hstop hc] at h
    cases h

/-- Names under a root may be moved. -/
theorem movable_of_under {name : List Char} (h : under r.root name = true)
    (hs : strict → startsReserved r.root = false) : Movable strict name := by
  obtain ⟨first, second, more, hroot, hpieces, hne, hall⟩ := eq_segments_of_isRoot r.root_valid
  obtain ⟨rest, rfl⟩ : ∃ rest, name = first ++ '\\' :: rest := by
    rcases under_iff.1 h with rfl | ⟨rest, rfl⟩
    · exact ⟨second ++ segments more, hroot⟩
    · exact ⟨second ++ segments more ++ separator :: rest, by simp [hroot, segments]⟩
  have hword : ∀ c ∈ first, isNameChar c = true :=
    fun c hc => isNameChar_of_isNumeral (hall c hc)
  constructor
  · cases first with
    | nil => exact absurd rfl hne
    | cons c tail => exact hall c List.mem_cons_self
  · intro hstrict
    have hfree : isReserved first = false := by simpa [startsReserved, hpieces] using hs hstrict
    simp only [isReserved, Bool.or_eq_false_iff] at hfree
    have hstop : headIs isNameChar ('\\' :: rest) = false := rfl
    simp only [isClause, takeWhile_append_stop hword hstop, hfree.1.2, hfree.2, Bool.or_self]

/-! ### What a rule makes of a token -/

theorem shadeToken_qualified (r : Rule) (name : List Char) :
    shadeToken r ⟨.qualifiedName, name⟩ = if under r.root name then r.relocate name else name := by
  cases name <;> rfl

theorem shadeToken_fullyQualified (r : Rule) (name : List Char) :
    shadeToken r ⟨.fullyQualifiedName, '\\' :: name⟩ =
      if under r.root name then '\\' :: r.relocate name else '\\' :: name := rfl

theorem shadeToken_of_ne (r : Rule) {c : Char} (name : List Char) (hc : c ≠ '\\') :
    shadeToken r ⟨.fullyQualifiedName, c :: name⟩ = c :: name := by
  unfold shadeToken
  split <;> simp_all

theorem shadeToken_of_kind (r : Rule) {t : Token} (hk : isNameKind t.kind = false) :
    shadeToken r t = t.text := by
  obtain ⟨kind, text⟩ := t
  cases kind <;> first | rfl | cases hk

/-- A token that a rule changes holds a name under the root. -/
theorem shadeToken_cases (r : Rule) (t : Token) : shadeToken r t = t.text ∨
    (t.kind = .qualifiedName ∧ under r.root t.text = true ∧ shadeToken r t = r.relocate t.text) ∨
    ∃ name, t = ⟨.fullyQualifiedName, '\\' :: name⟩ ∧ under r.root name = true ∧
      shadeToken r t = '\\' :: r.relocate name := by
  cases hk : isNameKind t.kind with
  | false => exact .inl (shadeToken_of_kind r hk)
  | true =>
    obtain ⟨kind, text⟩ := t
    simp only [isNameKind, Bool.or_eq_true, beq_iff_eq] at hk
    rcases hk with rfl | rfl
    · rw [shadeToken_qualified]
      split
      · exact .inr (.inl ⟨rfl, ‹_›, rfl⟩)
      · exact .inl rfl
    · cases text with
      | nil => exact .inl rfl
      | cons c name =>
        by_cases hc : c = '\\'
        · rw [hc, shadeToken_fullyQualified]
          split
          · exact .inr (.inr ⟨name, rfl, ‹_›, rfl⟩)
          · exact .inl rfl
        · exact .inl (shadeToken_of_ne r name hc)

/-- A rule moves names and nothing else. -/
theorem moved_shadeToken (ht : Fronts strict r.target.text)
    (hs : strict → startsReserved r.root = false) (t : Token) :
    Moved strict t (shadeToken r t) := by
  rcases shadeToken_cases r t with h | ⟨hk, hunder, h⟩ | ⟨name, rfl, hunder, h⟩
  · rw [h]
    exact .same
  · rw [h]
    exact .qualified ht hk (movable_of_under hunder hs)
  · rw [h]
    exact .fullyQualified ht rfl rfl (movable_of_under hunder hs)

/-! ### Lines -/

theorem newlines_relocate (hline : '\n' ∉ r.target.text) (name : List Char) :
    Text.newlines (r.relocate name) = Text.newlines name := by
  have hfree : Text.newlines r.target.text = 0 := List.count_eq_zero_of_not_mem hline
  have hseparator : Text.newlines (separator :: name) = Text.newlines name := by
    simp [Text.newlines, separator]
  rw [Rule.relocate, Target.relocate, Text.newlines_append, hfree, hseparator, Nat.zero_add]

theorem newlines_shadeToken (hline : '\n' ∉ r.target.text) (t : Token) :
    Text.newlines (shadeToken r t) = t.newlines := by
  rcases shadeToken_cases r t with h | ⟨-, -, h⟩ | ⟨name, rfl, -, h⟩
  · rw [h]
    rfl
  · rw [h, newlines_relocate hline]
    rfl
  · have hlead : ∀ s, Text.newlines ('\\' :: s) = Text.newlines s := by simp [Text.newlines]
    rw [h, hlead, newlines_relocate hline, Token.newlines, hlead]

/-! ### Dividing fragments -/

/-- The machine behind the tag that is put in front of a fragment. -/
def inCode (code : List Char) : Machine := ⟨code, 2, false, [], some ⟨.openTag, openLine⟩⟩

theorem plain_inCode (code : List Char) : (inCode code).Plain := ⟨rfl, rfl, rfl⟩

theorem next_openLine (code : List Char) :
    (Machine.start (openLine ++ code)).next = .ok (some (⟨.openTag, openLine⟩, inCode code)) := rfl

/-- The machine that divides a fragment. -/
def fragmentStart (code : List Char) : Machine :=
  if opensCode code then Machine.start code else inCode code

theorem fragmentTokens_of_opensCode {code : List Char} (h : opensCode code = true) :
    fragmentTokens code = tokenize code := by
  unfold fragmentTokens
  rw [if_pos h]

theorem fragmentStart_of_opensCode {code : List Char} (h : opensCode code = true) :
    fragmentStart code = Machine.start code := by
  unfold fragmentStart
  rw [if_pos h]

theorem fragmentStart_of_not_opensCode {code : List Char} (h : opensCode code = false) :
    fragmentStart code = inCode code := by
  unfold fragmentStart
  rw [h]
  rfl

theorem fragmentStart_rest (code : List Char) : (fragmentStart code).rest = code := by
  unfold fragmentStart
  split <;> rfl

theorem sound_fragmentStart (code : List Char) : (fragmentStart code).Sound := by
  unfold fragmentStart
  split
  · exact Machine.sound_start code
  · exact (plain_inCode code).sound

theorem fragmentTokens_eq_ok_iff {code : List Char} {ts : List Token} :
    fragmentTokens code = .ok ts ↔
      ∃ m, Machine.Steps (fragmentStart code) ts m ∧ m.rest = [] ∧ m.stack = [] := by
  unfold fragmentTokens fragmentStart
  split
  · exact tokenize_eq_ok_iff
  · constructor
    · intro h
      cases ht : tokenize (openLine ++ code) with
      | error e => rw [ht] at h; cases h
      | ok us =>
        rw [ht] at h
        obtain rfl : us.tail = ts := Except.ok.inj h
        obtain ⟨m, hm, hend⟩ := tokenize_eq_ok_iff.1 ht
        cases hm with
        | refl => simp [Machine.start, openLine] at hend
        | next hn hrest =>
          rw [next_openLine] at hn
          cases hn
          exact ⟨m, hrest, hend⟩
    · rintro ⟨m, hm, hend⟩
      have := tokenize_eq_ok_iff.2 ⟨m, .next (next_openLine code) hm, hend⟩
      rw [this]
      rfl

theorem text_of_fragmentTokens {code : List Char} {ts : List Token}
    (h : fragmentTokens code = .ok ts) : Source.text ts = code := by
  obtain ⟨m, hm, hrest, -⟩ := fragmentTokens_eq_ok_iff.1 h
  have htext := hm.text
  rwa [hrest, List.append_nil, fragmentStart_rest] at htext

/-- **What a rule leaves of a fragment is divided into what became of its tokens.** -/
theorem fragmentTokens_shaded {code : List Char} {ts : List Token}
    (hts : fragmentTokens code = .ok ts) {g : Token → List Char}
    (hg : ∀ t ∈ ts, Moved strict t (g t)) (hopen : opensCode (ts.flatMap g) = opensCode code) :
    ∃ ts', fragmentTokens (ts.flatMap g) = .ok ts' ∧ List.Forall₂ (Renames strict) ts ts' ∧
      ts'.map Token.text = ts.map g := by
  obtain ⟨m, hm, hrest, hstack⟩ := fragmentTokens_eq_ok_iff.1 hts
  have hlike : (fragmentStart code).Resembles (fragmentStart (ts.flatMap g)) := by
    unfold fragmentStart
    rw [hopen]
    split <;> exact ⟨rfl, rfl, rfl⟩
  have hend : Machine.Ends ts m.rest [] := .inl ⟨hrest, rfl⟩
  obtain ⟨ts', n, hn, hall, htexts, hrest', hlike'⟩ :=
    hm.moved (sound_fragmentStart code) hg hend hlike (by rw [fragmentStart_rest, List.append_nil])
  refine ⟨ts', fragmentTokens_eq_ok_iff.2 ⟨n, hn, hrest', ?_⟩, hall, htexts⟩
  have := hlike'.stack
  rwa [hstack, List.map_nil, List.map_eq_nil_iff] at this

/-- **A fragment that ends with a stop is divided as it was in its place.** -/
theorem fragmentTokens_cut {m m' : Machine} {ts us : List Token} (h : Machine.Steps m ts m')
    (hm : m.Sound) (hstop : ∃ t, ts.getLast? = some t ∧ isStopToken t = true)
    (hlike : m.Resembles (fragmentStart (Source.text ts)))
    (hus : fragmentTokens (Source.text ts) = .ok us) : us = ts ∧ m'.Plain := by
  obtain ⟨n, hn, hrest, hlike'⟩ := h.cut hm hstop hlike (fragmentStart_rest _)
  obtain ⟨k, hk, hrest', hstack⟩ := fragmentTokens_eq_ok_iff.1 hus
  have hrun := hn.run
  rw [hk.run, Machine.run_of_next_eq_none (Machine.next_eq_none_iff.2 ⟨hrest', hstack⟩),
    Prod.mk.injEq, List.append_nil] at hrun
  obtain ⟨l, hl, hend⟩ := Machine.steps_of_run hrun.2.symm
  obtain ⟨hnil, rfl⟩ := hl.eq_nil hrest
  rw [hnil, List.append_nil] at hrun
  have hopen := hlike'.stack
  rw [(Machine.next_eq_none_iff.1 hend).2, List.map_nil, eq_comm, List.map_eq_nil_iff] at hopen
  exact ⟨hrun.1, h.plain hm hstop hopen⟩

/-! ### Fragments of a file -/

theorem shadeCode_eq_ok {code shaded : List Char} (h : shadeCode r code = .ok shaded) :
    ∃ ts, fragmentTokens code = .ok ts ∧ shaded = ts.flatMap (shadeToken r) := by
  unfold shadeCode at h
  cases hts : fragmentTokens code with
  | error e =>
    rw [hts] at h
    cases h
  | ok ts =>
    rw [hts] at h
    exact ⟨ts, rfl, (Except.ok.inj h).symm⟩

theorem shadeDeclaration_eq_ok {d d' : Declaration} (h : shadeDeclaration r d = .ok d') :
    ∃ ts, fragmentTokens d.code = .ok ts ∧ d' = {d with code := ts.flatMap (shadeToken r)} := by
  unfold shadeDeclaration at h
  cases hcode : shadeCode r d.code with
  | error e =>
    rw [hcode] at h
    cases h
  | ok code =>
    rw [hcode] at h
    obtain ⟨ts, hts, rfl⟩ := shadeCode_eq_ok hcode
    exact ⟨ts, hts, (Except.ok.inj h).symm⟩

/-- A rule changes the code of a declaration only. -/
theorem shadeDeclaration_parts {d d' : Declaration} (h : shadeDeclaration r d = .ok d') :
    shadeCode r d.code = .ok d'.code ∧ d'.line = d.line ∧ d'.name = d.name := by
  obtain ⟨ts, hts, rfl⟩ := shadeDeclaration_eq_ok h
  refine ⟨?_, rfl, rfl⟩
  rw [shadeCode, hts]
  rfl

/-- Each declaration is shaded on its own. -/
theorem shadeDeclarations_eq_ok {ds ds' : List Declaration} (h : shadeDeclarations r ds = .ok ds') :
    List.Forall₂ (fun d d' => shadeDeclaration r d = .ok d') ds ds' := by
  induction ds generalizing ds' with
  | nil =>
    cases h
    exact .nil
  | cons d rest ih =>
    simp only [shadeDeclarations] at h
    split at h
    · cases h
    · rename_i d' hd
      cases hrest : shadeDeclarations r rest with
      | error e =>
        rw [hrest] at h
        cases h
      | ok more =>
        rw [hrest] at h
        obtain rfl : d' :: more = ds' := Except.ok.inj h
        exact .cons hd (ih hrest)

/-- Names and lines of declarations stay. -/
theorem shadeDeclarations_places {ds ds' : List Declaration} (h : shadeDeclarations r ds = .ok ds') :
    ds'.map Declaration.name = ds.map Declaration.name ∧
      ds'.map Declaration.line = ds.map Declaration.line := by
  have hall := shadeDeclarations_eq_ok h
  clear h
  induction hall with
  | nil => exact ⟨rfl, rfl⟩
  | cons hd _ ih =>
    obtain ⟨-, hline, hname⟩ := shadeDeclaration_parts hd
    exact ⟨by simp [hname, ih.1], by simp [hline, ih.2]⟩

theorem shadeFile_eq_ok {f f' : File} (h : shadeFile r f = .ok f') :
    ∃ ts ds, fragmentTokens f.header = .ok ts ∧ shadeDeclarations r f.declarations = .ok ds ∧
      f' = ⟨f.path, ts.flatMap (shadeToken r),
        if r.shades f.space then r.relocate f.space else f.space, ds⟩ := by
  unfold shadeFile at h
  split at h
  · cases h
  · rename_i header hheader
    split at h
    · cases h
    · rename_i ds hds
      obtain ⟨ts, hts, rfl⟩ := shadeCode_eq_ok hheader
      exact ⟨ts, ds, hts, hds, (Except.ok.inj h).symm⟩

end PluginShading.Shading
