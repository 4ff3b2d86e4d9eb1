import PluginShading.Proofs.Shading.References

/-!
Many passes as one substitution.

`applyRules_eq_simultaneous` is the main statement: rules that own no sources leave of every file what one
pass over its tokens would, which moves each name that is under any of the roots behind the target, once.
So neither the order of the rules nor a root that is listed twice or lies under another root changes
anything. A pass reads what the pass before it wrote; that it reads a moved name as one name again, among
the tokens that were there, is `moveCode_moved`.
-/
namespace PluginShading.Shading

open Source

variable {locate : Path → Path} {r : Rule} {rules : List Rule} {t : Target}

/-! ### One substitution -/

/-- The name behind the target if it is under one of the roots, and as it is otherwise. -/
def substitute (t : Target) (roots : List (List Char)) (name : List Char) : List Char :=
  if roots.any (under · name) then t.relocate name else name

/-- What stands behind a leading separator, moved. -/
def moveBehindSeparator (move : List Char → List Char) : List Char → List Char
  | '\\' :: name => '\\' :: move name
  | other => other

/-- The text of a token with its name moved. -/
def moveToken (move : List Char → List Char) (u : Token) : List Char :=
  match u.kind with
  | .qualifiedName => move u.text
  | .fullyQualifiedName => moveBehindSeparator move u.text
  | _ => u.text

/-- A fragment with all its names moved; one that cannot be divided into tokens stays. -/
def moveCode (move : List Char → List Char) (code : List Char) : List Char :=
  match fragmentTokens code with
  | .ok ts => ts.flatMap (moveToken move)
  | .error _ => code

/-- A file with its namespace and all names in its fragments moved. -/
def moveFile (move : List Char → List Char) (f : File) : File where
  path := f.path
  header := moveCode move f.header
  space := move f.space
  declarations := f.declarations.map fun d => {d with code := moveCode move d.code}

/-! ### One token behind two rules -/

theorem moveBehindSeparator_of_ne (move : List Char → List Char) {c : Char} (name : List Char)
    (hc : c ≠ '\\') : moveBehindSeparator move (c :: name) = c :: name := by
  unfold moveBehindSeparator
  split <;> simp_all

theorem moveBehindSeparator_comp (first second : List Char → List Char) (text : List Char) :
    moveBehindSeparator second (moveBehindSeparator first text) =
      moveBehindSeparator (second ∘ first) text := by
  cases text with
  | nil => rfl
  | cons c name =>
    by_cases hc : c = '\\'
    · rw [hc]
      rfl
    · simp only [moveBehindSeparator_of_ne _ name hc]

theorem moveToken_of_kind (move : List Char → List Char) {u : Token} (hk : isNameKind u.kind = false) :
    moveToken move u = u.text := by
  obtain ⟨kind, text⟩ := u
  cases kind <;> first | rfl | cases hk

theorem shadeToken_eq_moveToken (r : Rule) (u : Token) : shadeToken r u = moveToken r.move u := by
  cases hk : isNameKind u.kind with
  | false => rw [shadeToken_of_kind r hk, moveToken_of_kind _ hk]
  | true =>
    obtain ⟨kind, text⟩ := u
    simp only [isNameKind, Bool.or_eq_true, beq_iff_eq] at hk
    rcases hk with rfl | rfl
    · exact shadeToken_qualified r text
    · cases text with
      | nil => rfl
      | cons c name =>
        by_cases hc : c = '\\'
        · rw [hc, shadeToken_fullyQualified]
          exact (apply_ite (List.cons '\\') _ _ _).symm
        · rw [shadeToken_of_ne r name hc]
          exact (moveBehindSeparator_of_ne _ name hc).symm

theorem isNameKind_of_renames {u v : Token} (h : Renames False u v) :
    isNameKind v.kind = isNameKind u.kind := by
  rcases h.kind with heq | ⟨-, hk, hl⟩
  · rw [heq]
  · simp only [List.mem_cons, List.not_mem_nil, or_false] at hk hl
    rcases hk with hk | hk <;> rcases hl with hl | hl <;> rw [hk, hl] <;> rfl

/-- A name that has been moved is moved on as one name. -/
theorem moveToken_moved {first second : List Char → List Char} {u v : Token} (h : Renames False u v)
    (htext : v.text = moveToken first u) :
    moveToken second v = moveToken (second ∘ first) u := by
  have hkind := isNameKind_of_renames h
  cases hk : isNameKind u.kind with
  | false =>
    rw [moveToken_of_kind _ (hkind.trans hk), moveToken_of_kind _ hk, htext, moveToken_of_kind _ hk]
  | true =>
    obtain ⟨kind, text⟩ := u
    obtain ⟨kind', text'⟩ := v
    obtain rfl : text' = _ := htext
    simp only [isNameKind, Bool.or_eq_true, beq_iff_eq] at hk
    rcases hk with rfl | rfl
    · obtain rfl : kind' = .qualifiedName := (h.kind.eq_iff (by decide)).2 rfl
      rfl
    · obtain rfl : kind' = .fullyQualifiedName := (h.kind.eq_iff (by decide)).2 rfl
      exact moveBehindSeparator_comp first second text

theorem flatMap_moveToken_moved {first second : List Char → List Char} {us vs : List Token}
    (h : List.Forall₂ (Renames False) us vs) (htexts : vs.map Token.text = us.map (moveToken first)) :
    vs.flatMap (moveToken second) = us.flatMap (moveToken (second ∘ first)) := by
  induction h with
  | nil => rfl
  | cons hhead _ ih =>
    obtain ⟨htext, htexts⟩ := List.cons_eq_cons.1 htexts
    rw [List.flatMap_cons, List.flatMap_cons, moveToken_moved hhead htext, ih htexts]

/-! ### One fragment -/

/-- The fragment can be divided into tokens, and opens the same way whatever moves behind the target. -/
structure Ready (t : Target) (code : List Char) : Prop where
  reads : ∃ ts, fragmentTokens code = .ok ts
  steady : Steady t.text code

theorem moveCode_of_reads {move : List Char → List Char} {code : List Char} {ts : List Token}
    (h : fragmentTokens code = .ok ts) : moveCode move code = ts.flatMap (moveToken move) := by
  rw [moveCode, h]

theorem moveToken_id : moveToken id = Token.text := by
  funext ⟨kind, text⟩
  cases kind with
  | fullyQualifiedName =>
    show moveBehindSeparator id text = text
    unfold moveBehindSeparator
    split <;> rfl
  | _ => rfl

theorem moveCode_id (code : List Char) : moveCode id code = code := by
  unfold moveCode
  split
  · rename_i ts hts
    rw [moveToken_id]
    exact text_of_fragmentTokens hts
  · rfl

theorem shadeCode_of_ready {code : List Char} (h : ∃ ts, fragmentTokens code = .ok ts) :
    shadeCode r code = .ok (moveCode r.move code) := by
  obtain ⟨ts, hts⟩ := h
  rw [shadeCode, hts, moveCode_of_reads hts]
  exact congrArg (fun g => Except.ok (ts.flatMap g)) (funext (shadeToken_eq_moveToken r))

/-- **What a rule leaves of a fragment is divided into the tokens that were there**, so that a second
substitution is made in the same pass. -/
theorem moveCode_moved {code : List Char} (ht : Fronts False t.text) (hr : r.target = t)
    (h : Ready t code) (move : List Char → List Char) :
    Ready t (moveCode r.move code) ∧ moveCode move (moveCode r.move code) = moveCode (move ∘ r.move) code := by
  obtain ⟨⟨ts, hts⟩, hsteady⟩ := h
  subst hr
  have hmoved : ∀ u ∈ ts, Moved False u (shadeToken r u) := fun u _ => moved_shadeToken ht (by simp) u
  obtain ⟨us, hus, hrenames, htexts⟩ := fragmentTokens_shaded hts hmoved (hsteady.opensCode_eq ht hts)
  have hsteady' := hsteady.shade ht hts
  have hshade : shadeToken r = moveToken r.move := funext (shadeToken_eq_moveToken r)
  rw [hshade] at hus htexts hsteady'
  rw [moveCode_of_reads hts, moveCode_of_reads hus, moveCode_of_reads hts]
  exact ⟨⟨⟨us, hus⟩, hsteady'⟩, flatMap_moveToken_moved hrenames htexts⟩

/-! ### One file -/

theorem moveFile_id (f : File) : moveFile id f = f := by
  simp [moveFile, moveCode_id]

theorem fragments_moveFile (move : List Char → List Char) (f : File) :
    fragments (moveFile move f) = (fragments f).map (moveCode move) := by
  simp [fragments, moveFile]

theorem shadeDeclarations_of_ready {ds : List Declaration}
    (h : ∀ d ∈ ds, ∃ ts, fragmentTokens d.code = .ok ts) :
    shadeDeclarations r ds = .ok (ds.map fun d => {d with code := moveCode r.move d.code}) := by
  induction ds with
  | nil => rfl
  | cons d rest ih =>
    have hd : shadeDeclaration r d = .ok {d with code := moveCode r.move d.code} := by
      rw [shadeDeclaration, shadeCode_of_ready (h d List.mem_cons_self)]
      rfl
    rw [shadeDeclarations, hd, ih fun e he => h e (List.mem_cons_of_mem d he)]
    rfl

theorem shadeFile_of_ready {f : File} (h : ∀ code ∈ fragments f, ∃ ts, fragmentTokens code = .ok ts) :
    shadeFile r f = .ok (moveFile r.move f) := by
  have hheader := shadeCode_of_ready (r := r) (h f.header List.mem_cons_self)
  have hds := shadeDeclarations_of_ready (r := r) fun d hd =>
    h d.code (List.mem_cons_of_mem _ (List.mem_map_of_mem hd))
  rw [shadeFile, hheader, hds]
  rfl

/-- A pass over a file leaves it ready for the next one, which could as well be made in the same pass. -/
theorem moveFile_moved {f : File} (ht : Fronts False t.text) (hr : r.target = t)
    (h : ∀ code ∈ fragments f, Ready t code) (move : List Char → List Char) :
    (∀ code ∈ fragments (moveFile r.move f), Ready t code) ∧
      moveFile move (moveFile r.move f) = moveFile (move ∘ r.move) f := by
  constructor
  · intro code hcode
    rw [fragments_moveFile] at hcode
    obtain ⟨old, hold, rfl⟩ := List.mem_map.1 hcode
    exact (moveCode_moved ht hr (h old hold) move).1
  · have hheader := (moveCode_moved ht hr (h f.header List.mem_cons_self) move).2
    have hds : ∀ d ∈ f.declarations,
        moveCode move (moveCode r.move d.code) = moveCode (move ∘ r.move) d.code := fun d hd =>
      (moveCode_moved ht hr (h d.code (List.mem_cons_of_mem _ (List.mem_map_of_mem hd))) move).2
    simp only [moveFile, hheader, List.map_map, Function.comp_apply, File.mk.injEq, true_and]
    refine List.map_congr_left fun d hd => ?_
    simp only [Function.comp_apply, hds d hd]

/-! ### All files -/

theorem strays_of_sources {f : File} (h : r.sources = none) : strays locate r f = false := by
  simp [strays, owns, h]

theorem pass_of_ready {files : List File} (hsources : r.sources = none)
    (h : ∀ f ∈ files, ∀ code ∈ fragments f, ∃ ts, fragmentTokens code = .ok ts) :
    pass locate r files = .ok (files.map (moveFile r.move)) := by
  induction files with
  | nil => rfl
  | cons f rest ih =>
    rw [pass, strays_of_sources hsources, shadeFile_of_ready (h f List.mem_cons_self),
      ih fun g hg => h g (List.mem_cons_of_mem f hg)]
    rfl

/-- Rules one after the other are one move of names, the moves of the rules one after the other. -/
theorem applyRules_of_ready {files : List File} (ht : Fronts False t.text)
    (htarget : ∀ r ∈ rules, r.target = t) (hsources : ∀ r ∈ rules, r.sources = none)
    (h : ∀ f ∈ files, ∀ code ∈ fragments f, Ready t code) :
    applyRules locate rules files = .ok (files.map (moveFile (spaceAfter rules))) := by
  induction rules generalizing files with
  | nil =>
    have hstay : moveFile (spaceAfter []) = id := funext moveFile_id
    rw [applyRules, hstay, List.map_id]
  | cons r rest ih =>
    have hr := htarget r List.mem_cons_self
    have hpass : pass locate r files = .ok (files.map (moveFile r.move)) :=
      pass_of_ready (hsources r List.mem_cons_self) fun f hf code hcode => (h f hf code hcode).reads
    have hmoved : ∀ g ∈ files.map (moveFile r.move), ∀ code ∈ fragments g, Ready t code := by
      intro g hg
      obtain ⟨f, hf, rfl⟩ := List.mem_map.1 hg
      exact (moveFile_moved ht hr (h f hf) id).1
    have hrest := ih (fun s hs => htarget s (List.mem_cons_of_mem r hs))
      (fun s hs => hsources s (List.mem_cons_of_mem r hs)) hmoved
    simp only [applyRules, hpass, hrest, List.map_map]
    refine congrArg Except.ok (List.map_congr_left fun f hf => ?_)
    exact (moveFile_moved ht hr (h f hf) (spaceAfter rest)).2

/-- Rules whose roots are apart from the target move a name at most once. -/
theorem spaceAfter_eq_substitute (htarget : ∀ r ∈ rules, r.target = t)
    (hapart : ∀ r ∈ rules, under r.root t.text = false ∧ under t.text r.root = false) :
    spaceAfter rules = substitute t (rules.map Rule.root) := by
  funext name
  have hany : (rules.map Rule.root).any (under · name) = rules.any (·.shades name) := by
    rw [List.any_map]
    rfl
  rw [substitute, hany]
  split
  · rename_i hshades
    refine spaceAfter_of_shades htarget (fun r hr other => ?_) (by simpa using hshades)
    exact under_relocate (hapart r hr).1 (hapart r hr).2 other
  · rename_i hshades
    exact spaceAfter_of_not_shades (by simpa using hshades)

/-- What a list of rules moves depends on which roots it has. -/
theorem substitute_congr {roots roots' : List (List Char)} (h : ∀ root, root ∈ roots ↔ root ∈ roots') :
    substitute t roots = substitute t roots' := by
  funext name
  have hany : roots.any (under · name) = roots'.any (under · name) := by
    rw [Bool.eq_iff_iff]
    simp [h]
  rw [substitute, substitute, hany]

/-- **Many passes equal one simultaneous substitution.** Every file is kept, and moved as one pass over its
tokens would move it. Rules with the same roots, in another order or listed more than once, leave the
same. -/
theorem applyRules_eq_simultaneous {files : List File} (ht : isFront t.text = true)
    (htarget : ∀ r ∈ rules, r.target = t) (hsources : ∀ r ∈ rules, r.sources = none)
    (hapart : ∀ r ∈ rules, under r.root t.text = false ∧ under t.text r.root = false)
    (hreads : ∀ f ∈ files, ∀ code ∈ fragments f, (fragmentTokens code).isOk = true ∧
      (startsTag code = true → opensCode code = true)) :
    applyRules locate rules files = .ok (files.map (moveFile (substitute t (rules.map Rule.root)))) ∧
      ∀ others : List Rule, (∀ r ∈ others, r.target = t ∧ r.sources = none) →
        (∀ root, root ∈ others.map Rule.root ↔ root ∈ rules.map Rule.root) →
          applyRules locate others files = applyRules locate rules files := by
  have hready : ∀ f ∈ files, ∀ code ∈ fragments f, Ready t code := by
    intro f hf code hcode
    obtain ⟨hok, hopen⟩ := hreads f hf code hcode
    refine ⟨?_, fun htag => .inl (hopen htag)⟩
    cases hts : fragmentTokens code with
    | error e =>
      rw [hts] at hok
      cases hok
    | ok ts => exact ⟨ts, rfl⟩
  have happly : applyRules locate rules files = .ok (files.map (moveFile (spaceAfter rules))) :=
    applyRules_of_ready (fronts_of_isFront ht) htarget hsources hready
  rw [spaceAfter_eq_substitute htarget hapart] at happly
  refine ⟨happly, fun others hothers hroots => ?_⟩
  have htarget' : ∀ r ∈ others, r.target = t := fun r hr => (hothers r hr).1
  have hapart' : ∀ r ∈ others, under r.root t.text = false ∧ under t.text r.root = false := by
    intro r hr
    obtain ⟨s, hs, hroot⟩ := List.mem_map.1 ((hroots r.root).1 (List.mem_map_of_mem hr))
    exact hroot ▸ hapart s hs
  rw [applyRules_of_ready (fronts_of_isFront ht) htarget' (fun r hr => (hothers r hr).2) hready,
    spaceAfter_eq_substitute htarget' hapart', substitute_congr hroots, happly]

/-- The statement holds of a root that is listed twice with one under it in between. -/
theorem exists_applyRules_eq_simultaneous : ∃ rules f g, applyRules id rules [f] = .ok [g] ∧
    g = moveFile (substitute ⟨['t'], by decide⟩ ["A\\B".toList, "A\\B\\C".toList, "A\\B".toList]) f ∧
      g ≠ f ∧ applyRules id rules.reverse [f] = .ok [g] := by
  let t : Target := ⟨['t'], by decide⟩
  let outer : Rule := ⟨"A\\B".toList, by decide +kernel, t, none, none⟩
  let inner : Rule := ⟨"A\\B\\C".toList, by decide +kernel, t, none, none⟩
  let rules : List Rule := [outer, inner, outer]
  let f : File := ⟨⟨"D.php"⟩, "<?php namespace A\\B; use A\\B\\C\\E;".toList, "A\\B".toList,
    [⟨0, ['D'], "class D \x7b const F = \"\x7b$g->h(\\A\\B\\C\\I::class)\x7d\"; \x7d".toList⟩]⟩
  let g : File := ⟨⟨"D.php"⟩, "<?php namespace t\\A\\B; use t\\A\\B\\C\\E;".toList, "t\\A\\B".toList,
    [⟨0, ['D'], "class D \x7b const F = \"\x7b$g->h(\\t\\A\\B\\C\\I::class)\x7d\"; \x7d".toList⟩]⟩
  have hrule : ∀ r ∈ rules, r.target = t ∧ r.sources = none ∧ under r.root t.text = false ∧
      under t.text r.root = false := by decide +kernel
  have hreads : ∀ e ∈ [f], ∀ code ∈ fragments e, (fragmentTokens code).isOk = true ∧
      (startsTag code = true → opensCode code = true) := by decide +kernel
  obtain ⟨happly, hothers⟩ := @applyRules_eq_simultaneous id rules t [f] (by decide +kernel)
    (fun r hr => (hrule r hr).1) (fun r hr => (hrule r hr).2.1) (fun r hr => (hrule r hr).2.2) hreads
  have hmoved : moveFile (substitute t (rules.map Rule.root)) f = g := by decide +kernel
  have hreverse := hothers rules.reverse
    (fun r hr => ⟨(hrule r (List.mem_reverse.1 hr)).1, (hrule r (List.mem_reverse.1 hr)).2.1⟩)
    (fun root => by simp)
  rw [List.map_singleton, hmoved] at happly
  exact ⟨rules, f, g, happly, hmoved.symm, by decide +kernel, hreverse.trans happly⟩

end PluginShading.Shading
