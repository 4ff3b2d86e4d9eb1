import PluginShading.Proofs.Files.Names
import PluginShading.Proofs.Shading.Opening
import PluginShading.Proofs.Source.Shapes
import PluginShading.Proofs.Source.Spelling

/-!
Fragments token by token, and names segment by segment.

A name is under a root if its segments begin with those of the root (`under_iff_pieces`). Shading a fragment
puts the target in front of the first segment of every such name and keeps every other token; the text that
results is divided into just these tokens again. It is left as it is by shading it once more exactly if the
root, moved behind the target, is not under the root again (`shadeCode_tokenwise`).
-/
namespace PluginShading.Shading

open Source

variable {r : Rule} {root name : List Char} {t : Target}

/-! ### Roots as lists of segments -/

theorem under_iff_pieces :
    under root name = true ↔ Text.pieces separator root <+: Text.pieces separator name := by
  rw [under_iff]
  constructor
  · rintro (rfl | ⟨rest, rfl⟩)
    · exact List.prefix_rfl
    · rw [Text.pieces_append]
      exact List.prefix_append _ _
  · rintro ⟨more, hmore⟩
    have hjoin := Text.join_pieces separator name
    rw [← hmore] at hjoin
    cases more with
    | nil =>
      rw [List.append_nil, Text.join_pieces] at hjoin
      exact .inl hjoin.symm
    | cons piece rest =>
      rw [Text.join_append (Text.pieces_ne_nil _ _) (List.cons_ne_nil _ _), Text.join_pieces] at hjoin
      exact .inr ⟨_, hjoin.symm⟩

theorem pieces_relocate (t : Target) (name : List Char) :
    Text.pieces separator (t.relocate name) = Text.pieces separator t.text ++ Text.pieces separator name :=
  Text.pieces_append _ _ _

/-- A moved name is under the root again exactly if the moved root is. -/
theorem under_relocate_iff (h : under root name = true) :
    under root (t.relocate name) = true ↔ under root (t.relocate root) = true := by
  simp only [under_iff_pieces, pieces_relocate] at h ⊢
  obtain ⟨more, hmore⟩ := h
  rw [← hmore, ← List.append_assoc]
  constructor
  · exact fun hp => List.prefix_of_prefix_length_le hp (List.prefix_append _ _) (by simp)
  · exact fun hp => hp.trans (List.prefix_append _ _)

/-- A list that begins itself behind another one begins behind any number of copies of that. -/
theorem prefix_replicate {α : Type} {front list : List α} (h : list <+: front ++ list) (count : Nat) :
    list <+: (List.replicate count front).flatten ++ list := by
  induction count with
  | zero => exact List.prefix_rfl
  | succ count ih =>
    rw [List.replicate_succ, List.flatten_cons, List.append_assoc]
    exact h.trans ((List.prefix_append_right_inj front).2 ih)

/-- Such a list consists of nothing else. -/
theorem mem_of_prefix_append {α : Type} {front list : List α} (h : list <+: front ++ list) (hne : front ≠ []) :
    ∀ x ∈ list, x ∈ front := by
  have hcopies : list <+: (List.replicate list.length front).flatten := by
    refine List.prefix_of_prefix_length_le (prefix_replicate h list.length) (List.prefix_append _ _) ?_
    simp only [List.length_flatten, List.map_replicate, List.sum_replicate, smul_eq_mul]
    exact Nat.le_mul_of_pos_right _ (List.length_pos_iff.2 hne)
  intro x hx
  obtain ⟨copy, hcopy, hmem⟩ := List.mem_flatten.1 (hcopies.subset hx)
  rwa [List.eq_of_mem_replicate hcopy] at hmem

/-- A root that is under itself behind a target is spelled like the target. -/
theorem isNamespace_of_under_relocate (ht : isNamespace t.text = true) (hr : startsReserved root = false)
    (h : under root (t.relocate root) = true) : isNamespace root = true := by
  rw [under_iff_pieces, pieces_relocate] at h
  have hall := List.all_eq_true.1 (Bool.and_eq_true_iff.1 ht).1
  simp only [isNamespace, hr, Bool.not_false, Bool.and_true, List.all_eq_true]
  exact fun piece hp => hall piece (mem_of_prefix_append h (Text.pieces_ne_nil _ _) piece hp)

theorem isNamespace_relocate (ht : isNamespace t.text = true) (hname : isNamespace name = true) :
    isNamespace (t.relocate name) = true := by
  simp only [isNamespace, startsReserved, Bool.and_eq_true, List.all_eq_true, Bool.not_eq_true'] at ht hname ⊢
  have hpieces := pieces_relocate t name
  rw [separator] at hpieces
  rw [hpieces, List.head?_append_of_ne_nil _ (Text.pieces_ne_nil _ _), List.forall_mem_append]
  exact ⟨⟨ht.1, hname.1⟩, ht.2⟩

/-- A name is no tag. -/
theorem startsTag_of_isFront (hname : isFront name = true) : startsTag name = false := by
  rw [Bool.eq_false_iff]
  intro htag
  obtain ⟨rest, rfl⟩ := List.isPrefixOf_iff_prefix.1 htag
  obtain ⟨c, more, heq, hc⟩ := (fronts_of_isFront hname).head
  obtain rfl : '<' = c := (List.cons_eq_cons.1 heq).1
  exact absurd hc (by decide +revert)

theorem isFront_of_isNamespace (hname : isNamespace name = true) : isFront name = true :=
  (fronts_of_isNamespace hname : Fronts False name).front

theorem startsTag_of_isNamespace (hname : isNamespace name = true) : startsTag name = false :=
  startsTag_of_isFront (isFront_of_isNamespace hname)

/-! ### Tokens -/

/-- The segments of a name, without the separator in front of it. Other tokens have none. -/
def segmentsOf (u : Token) : List (List Char) :=
  match u.kind with
  | .qualifiedName => Text.pieces separator u.text
  | .fullyQualifiedName => Text.pieces separator u.text.tail
  | _ => []

/-- A name with the target and a separator in front of its first segment. -/
def insertTarget (t : Target) (u : Token) : Token :=
  match u.kind with
  | .fullyQualifiedName => {u with text := separator :: t.text ++ separator :: u.text.tail}
  | _ => {u with text := t.text ++ separator :: u.text}

/-- What a rule makes of a token: a name whose segments begin with those of the root moves. -/
def Rule.rename (r : Rule) (u : Token) : Token :=
  if Text.pieces separator r.root <+: segmentsOf u then insertTarget r.target u else u

theorem segmentsOf_of_kind {u : Token} (hk : isNameKind u.kind = false) : segmentsOf u = [] := by
  obtain ⟨kind, text⟩ := u
  cases kind <;> first | rfl | cases hk

theorem rename_of_not_name {u : Token} (hk : isNameKind u.kind = false) : r.rename u = u := by
  rw [Rule.rename, segmentsOf_of_kind hk, if_neg]
  rw [List.prefix_nil]
  exact Text.pieces_ne_nil _ _

theorem kind_rename (u : Token) : (r.rename u).kind = u.kind := by
  unfold Rule.rename insertTarget
  split
  · split <;> rfl
  · rfl

/-- The text that shading gives to a token of the lexer. -/
theorem retext_shadeToken {u : Token} (hu : u.Shaped) : u.retext (shadeToken r) = r.rename u := by
  cases hk : isNameKind u.kind with
  | false =>
    rw [rename_of_not_name hk, Token.retext, shadeToken_of_kind r hk]
  | true =>
    obtain ⟨kind, text⟩ := u
    simp only [isNameKind, Bool.or_eq_true, beq_iff_eq] at hk
    rcases hk with rfl | rfl
    · simp only [Token.retext, shadeToken_qualified, Rule.rename, segmentsOf, ← under_iff_pieces]
      split <;> rfl
    · obtain ⟨words, htext, hne, -⟩ := hu
      obtain ⟨word, more, rfl⟩ := List.exists_cons_of_ne_nil hne
      obtain rfl : text = '\\' :: (word ++ segments more) := htext
      simp only [Token.retext, shadeToken_fullyQualified, Rule.rename, segmentsOf, List.tail_cons,
        ← under_iff_pieces]
      split <;> rfl

theorem shaped_of_fragmentTokens {code : List Char} {ts : List Token} (h : fragmentTokens code = .ok ts) :
    ∀ u ∈ ts, u.Shaped := by
  obtain ⟨m, hm, -⟩ := fragmentTokens_eq_ok_iff.1 h
  exact hm.forall_tokens fun _ _ _ => Machine.next_shaped

/-! ### Fragments -/

/-- **The shaded fragment is divided into the tokens that the rule makes of those of the fragment.** -/
theorem fragmentTokens_renamed {code : List Char} {ts : List Token} (ht : isNamespace r.target.text = true)
    (hr : startsReserved r.root = false) (hopen : startsTag code = true → opensCode code = true)
    (hts : fragmentTokens code = .ok ts) :
    fragmentTokens (ts.flatMap (shadeToken r)) = .ok (ts.map r.rename) ∧
      opensCode (ts.flatMap (shadeToken r)) = opensCode code := by
  have hfronts : Fronts True r.target.text := fronts_of_isNamespace ht
  have hfronts' : Fronts False r.target.text := fronts_of_isNamespace ht
  have hsteady : Steady r.target.text code := fun htag => .inl (hopen htag)
  have hsame := hsteady.opensCode_eq hfronts' hts
  obtain ⟨us, hus, hrenames, htexts⟩ :=
    fragmentTokens_shaded hts (fun u _ => moved_shadeToken hfronts (fun _ => hr) u) hsame
  rw [Machine.eq_map_retext hrenames htexts] at hus
  refine ⟨hus.trans (congrArg Except.ok (List.map_congr_left fun u hu => ?_)), hsame⟩
  exact retext_shadeToken (shaped_of_fragmentTokens hts u hu)

/-- What a rule leaves of a token it keeps, unless the moved root is under the root. -/
theorem shadeToken_rename (h : under r.root (r.relocate r.root) = false) {u : Token} (hu : u.Shaped) :
    shadeToken r (r.rename u) = shadeToken r u := by
  have hagain : ∀ {name}, under r.root name = true → under r.root (r.relocate name) = false := fun hname => by
    rw [Bool.eq_false_iff] at h ⊢
    exact fun hu => h ((under_relocate_iff hname).1 hu)
  rw [← retext_shadeToken hu, Token.retext]
  rcases shadeToken_cases r u with hsame | ⟨hk, hunder, hmoved⟩ | ⟨name, rfl, hunder, hmoved⟩
  · rw [hsame]
    exact hsame
  · rw [hmoved, hk, shadeToken_qualified, hagain hunder]
    rfl
  · rw [hmoved, shadeToken_fullyQualified, hagain hunder]
    rfl

/-- A qualified name alone is a fragment of one token. -/
theorem fragmentTokens_name {name : List Char} (hname : isFront name = true)
    (hlong : 2 ≤ (Text.pieces separator name).length) : fragmentTokens name = .ok [⟨.qualifiedName, name⟩] := by
  have hclosed : opensCode name = false := by
    rw [Bool.eq_false_iff]
    exact fun hopens => absurd (startsTag_of_opensCode hopens) (Bool.eq_false_iff.1 (startsTag_of_isFront hname))
  obtain ⟨word, more, rfl, hword, hwords, hspell, -⟩ := (fronts_of_isFront hname).eq_segments
  have hmore : more ≠ [] := by
    rintro rfl
    have hpieces : Text.pieces separator (word ++ segments []) = [word] := pieces_segments hword hwords
    simp [hpieces] at hlong
  obtain ⟨m, hnext, hplain, hrest⟩ : ∃ m, (inCode (word ++ segments more)).next =
      .ok (some (⟨.qualifiedName, word ++ segments more⟩, m)) ∧ m.Plain ∧ m.rest = [] :=
    (plain_inCode _).next_qualified hword hspell hwords hmore rfl (List.append_nil _).symm
  refine fragmentTokens_eq_ok_iff.2 ⟨m, .next ?_ (.refl m), hrest, hplain.stack⟩
  rw [fragmentStart, if_neg (by simp [hclosed])]
  exact hnext

theorem shadeCode_name {name : List Char} (hname : isFront name = true)
    (hlong : 2 ≤ (Text.pieces separator name).length) (hunder : under r.root name = true) :
    shadeCode r name = .ok (r.relocate name) := by
  rw [shadeCode, fragmentTokens_name hname hlong]
  simp [Except.map, shadeToken_qualified, hunder]

/-- **Shading a fragment is a map of its tokens.** It succeeds where the fragment can be divided into tokens,
and the result is divided into as many, of the same kinds. Shading twice is shading once, for every fragment,
exactly if the root moved behind the target is not under the root. -/
theorem shadeCode_tokenwise (ht : isNamespace r.target.text = true) (hr : startsReserved r.root = false) :
    (∀ code ts, (startsTag code = true → opensCode code = true) → fragmentTokens code = .ok ts →
      ∃ out, shadeCode r code = .ok out ∧ fragmentTokens out = .ok (ts.map r.rename) ∧
        (ts.map r.rename).map Token.kind = ts.map Token.kind) ∧
    ((∀ code out, (startsTag code = true → opensCode code = true) → shadeCode r code = .ok out →
      shadeCode r out = .ok out) ↔ under r.root (r.relocate r.root) = false) := by
  refine ⟨fun code ts hopen hts => ⟨ts.flatMap (shadeToken r), ?_, (fragmentTokens_renamed ht hr hopen hts).1, ?_⟩,
    fun htwice => ?_, fun hapart code out hopen hout => ?_⟩
  · rw [shadeCode, hts]
    rfl
  · rw [List.map_map]
    exact List.map_congr_left fun u _ => kind_rename u
  · -- The root alone is a fragment, which moves a second time if the moved root is under the root.
    rw [Bool.eq_false_iff]
    intro hunder
    have hroot := isNamespace_of_under_relocate ht hr hunder
    have hlong : 2 ≤ (Text.pieces separator r.root).length :=
      of_decide_eq_true (Bool.and_eq_true_iff.1 r.root_valid).1
    have honce : shadeCode r r.root = .ok (r.relocate r.root) :=
      shadeCode_name (isFront_of_isNamespace hroot) hlong (under_iff.2 (.inl rfl))
    have hagain : shadeCode r (r.relocate r.root) = .ok (r.relocate (r.relocate r.root)) := by
      refine shadeCode_name (isFront_of_isNamespace (isNamespace_relocate ht hroot)) (hlong.trans ?_) hunder
      rw [Rule.relocate, pieces_relocate, List.length_append]
      exact Nat.le_add_left _ _
    have hsame := htwice _ _ (fun htag => absurd htag (Bool.eq_false_iff.1 (startsTag_of_isNamespace hroot))) honce
    rw [hagain, Except.ok.injEq] at hsame
    have hlength := congrArg List.length hsame
    simp only [Rule.relocate, Target.relocate, List.length_append, List.length_cons] at hlength
    omega
  · obtain ⟨ts, hts, rfl⟩ := shadeCode_eq_ok hout
    have hshaped := shaped_of_fragmentTokens hts
    rw [shadeCode, (fragmentTokens_renamed ht hr hopen hts).1]
    show Except.ok ((ts.map r.rename).flatMap (shadeToken r)) = _
    rw [List.flatMap_map]
    exact congrArg Except.ok (List.flatMap_congr fun u hu => shadeToken_rename hapart (hshaped u hu))

/-- The statement holds of a name that stands alone, one behind a separator, one in a literal, and one that only
begins like the root. -/
theorem exists_shadeCode_tokenwise : ∃ r code ts out, isNamespace r.target.text = true ∧
    startsReserved r.root = false ∧ (startsTag code = true → opensCode code = true) ∧
      fragmentTokens code = .ok ts ∧ shadeCode r code = .ok out ∧ fragmentTokens out = .ok (ts.map r.rename) ∧
        (ts.map r.rename).count ⟨.fullyQualifiedName, "\\t\\A\\B\\C".toList⟩ = 2 ∧ shadeCode r out = .ok out := by
  let r : Rule := {root := "A\\B".toList, root_valid := by decide, target := ⟨"t".toList, by decide⟩}
  let code := "new A\\B(\\A\\B\\C::D, \"\x7b$a->b(\\A\\B\\C::D)\x7d\", A\\Bar::class);".toList
  let ts := (fragmentTokens code).toOption.getD []
  have ht : isNamespace r.target.text = true := by decide
  have hr : startsReserved r.root = false := by decide
  have hopen : startsTag code = true → opensCode code = true := by decide
  have hts : fragmentTokens code = .ok ts := by decide +kernel
  obtain ⟨hmap, htwice⟩ := shadeCode_tokenwise ht hr
  obtain ⟨out, hout, hread, -⟩ := hmap code ts hopen hts
  exact ⟨r, code, ts, out, ht, hr, hopen, hts, hout, hread, by decide +kernel,
    htwice.2 (by decide) code out hopen hout⟩

/-- A target above the root: a name that has been moved is under the root again, and is moved once more. -/
theorem target_above_root_moves_again : ∃ r code once twice, isNamespace r.target.text = true ∧
    startsReserved r.root = false ∧ under r.root r.target.text = false ∧ startsTag code = false ∧
      shadeCode r code = .ok once ∧ shadeCode r once = .ok twice ∧ twice ≠ once := by
  let r : Rule := {root := "A\\A".toList, root_valid := by decide, target := ⟨"A".toList, by decide⟩}
  exact ⟨r, "new A\\A;".toList, "new A\\A\\A;".toList, "new A\\A\\A\\A;".toList, by decide, by decide,
    by decide, by decide, by decide +kernel, by decide +kernel, by decide⟩

end PluginShading.Shading
