import PluginShading.Proofs.Shading.Segments

/-!
Imports in groups.

`use A\{B, C};` stands for `use A\B;` and `use A\C;`. Shading looks at one token at a time, and the full names
stand in none of them: what is under the root or not is the part in front of the braces and each part between
them. `group_imports_shaded` says which imports a shaded group stands for, and where these are the shaded
imports that the group stood for.
-/
namespace PluginShading.Shading

open Source

/-! ### Names -/

/-- A name that an import gives, or a part of one. -/
structure ImportName where
  /-- A separator stands in front. -/
  absolute : Bool
  first : List Char
  more : List (List Char)
  valid : ∀ word ∈ first :: more, isIdentifier word = true
  free : absolute = false → spells "namespace" first = false
  deriving DecidableEq

namespace ImportName

def words (n : ImportName) : List (List Char) := n.first :: n.more

/-- The text without the separator in front. -/
def bare (n : ImportName) : List Char := n.first ++ segments n.more

def text (n : ImportName) : List Char := if n.absolute then separator :: n.bare else n.bare

def ofWords? (absolute : Bool) : List (List Char) → Option ImportName
  | [] => none
  | first :: more =>
    if h : (∀ word ∈ first :: more, isIdentifier word = true) ∧
        (absolute = false → spells "namespace" first = false) then
      some ⟨absolute, first, more, h.1, h.2⟩
    else none

/-- One name behind the other, as in a group. -/
def append (a b : ImportName) : ImportName where
  absolute := a.absolute
  first := a.first
  more := a.more ++ b.words
  valid := by
    rw [← List.cons_append, List.forall_mem_append]
    exact ⟨a.valid, b.valid⟩
  free := a.free

variable {r : Rule} {n : ImportName}

theorem ofWords?_words (n : ImportName) : ofWords? n.absolute n.words = some n :=
  dif_pos ⟨n.valid, n.free⟩

theorem pieces_bare (n : ImportName) : Text.pieces separator n.bare = n.words :=
  pieces_segments (n.valid _ List.mem_cons_self) fun word hword => n.valid word (List.mem_cons_of_mem _ hword)

theorem bare_append (a b : ImportName) : (a.append b).bare = a.bare ++ separator :: b.bare := by
  simp [bare, append, words, segments, separator]

theorem text_append (a b : ImportName) : (a.append b).text = a.text ++ separator :: b.bare := by
  cases habsolute : a.absolute <;> simp [text, habsolute, bare_append, show (a.append b).absolute = a.absolute from rfl]

/-- What a rule makes of a name: behind the target if the name is under the root. -/
def shade (r : Rule) (ht : isFront r.target.text = true) (n : ImportName) : ImportName :=
  if Text.pieces separator r.root <+: n.words then
    { absolute := n.absolute
      first := (Text.pieces separator r.target.text).head (Text.pieces_ne_nil _ _)
      more := (Text.pieces separator r.target.text).tail ++ n.words
      valid := by
        rw [← List.cons_append, List.cons_head_tail, List.forall_mem_append]
        exact ⟨List.all_eq_true.1 (Bool.and_eq_true_iff.1 ht).1, n.valid⟩
      free := fun _ => by
        have hfree := (Bool.and_eq_true_iff.1 ht).2
        rw [show Text.pieces '\\' r.target.text = Text.pieces separator r.target.text from rfl,
          List.head?_eq_some_head (Text.pieces_ne_nil _ _)] at hfree
        simpa using hfree }
  else n

variable (ht : isFront r.target.text = true)

theorem words_shade (n : ImportName) : (n.shade r ht).words =
    if Text.pieces separator r.root <+: n.words then Text.pieces separator r.target.text ++ n.words else n.words := by
  unfold shade
  split
  · exact (List.cons_append ..).symm.trans (congrArg (· ++ n.words) (List.cons_head_tail _))
  · rfl

theorem absolute_shade (n : ImportName) : (n.shade r ht).absolute = n.absolute := by
  unfold shade
  split <;> rfl

theorem ext_words {a b : ImportName} (habsolute : a.absolute = b.absolute) (hwords : a.words = b.words) :
    a = b := by
  obtain ⟨_, _, _, _, _⟩ := a
  obtain ⟨_, _, _, _, _⟩ := b
  obtain ⟨rfl, rfl⟩ := List.cons_eq_cons.1 hwords
  obtain rfl := habsolute
  rfl

theorem bare_eq_join (n : ImportName) : n.bare = Text.join separator n.words := (join_cons n.first n.more).symm

theorem bare_shade (n : ImportName) :
    (n.shade r ht).bare = if under r.root n.bare then r.relocate n.bare else n.bare := by
  have hunder : under r.root n.bare = true ↔ Text.pieces separator r.root <+: n.words := by
    rw [under_iff_pieces, pieces_bare]
  rw [bare_eq_join, words_shade]
  simp only [hunder]
  split
  · rw [Text.join_append (Text.pieces_ne_nil _ _) (show n.words ≠ [] from List.cons_ne_nil _ _), Text.join_pieces]
    exact congrArg (fun name => r.target.text ++ separator :: name) (bare_eq_join n).symm
  · exact (bare_eq_join n).symm

/-- A root has two segments at least. -/
theorem shade_single (h : n.more = []) : n.shade r ht = n := by
  refine if_neg fun hprefix => ?_
  have hlong : 2 ≤ (Text.pieces separator r.root).length :=
    of_decide_eq_true (Bool.and_eq_true_iff.1 r.root_valid).1
  have hlength := hprefix.length_le
  rw [words, h, List.length_singleton] at hlength
  omega

end ImportName

/-! ### Tokens of imports -/

/-- What a token is to an import. -/
inductive Symbol
  | use
  /-- The word for functions or for constants. -/
  | sort
  | as
  | separator
  | opening
  | closing
  | comma
  | semicolon
  | word (n : ImportName)
  | qualified (n : ImportName)
  | absolute (n : ImportName)
  | other
  deriving DecidableEq

namespace Symbol

def map (f : ImportName → ImportName) : Symbol → Symbol
  | word n => word (f n)
  | qualified n => qualified (f n)
  | absolute n => absolute (f n)
  | s => s

def ofMark (mark : List Char) : Symbol :=
  if mark = ['\\'] then separator
  else if mark = ['{'] then opening
  else if mark = ['}'] then closing
  else if mark = [','] then comma
  else if mark = [';'] then semicolon
  else other

/-- White space and comments of either kind are nothing to an import. -/
def ofToken (t : Token) : Option Symbol :=
  match t.kind with
  | .whitespace | .comment | .docComment => none
  | .keyword .useWord => some use
  | .keyword .functionWord | .keyword .constWord => some sort
  | .keyword .other => some (if spells "as" t.text then as else other)
  | .identifier | .keyword .enumWord => some (((ImportName.ofWords? false [t.text]).map word).getD other)
  | .qualifiedName =>
    some (((ImportName.ofWords? false (Text.pieces '\\' t.text)).map qualified).getD other)
  | .fullyQualifiedName =>
    some (((ImportName.ofWords? true (Text.pieces '\\' t.text.tail)).map absolute).getD other)
  | .punctuation => some (ofMark t.text)
  | _ => some other

theorem map_ofMark (f : ImportName → ImportName) (mark : List Char) : (ofMark mark).map f = ofMark mark := by
  unfold ofMark
  repeat' split
  all_goals rfl

variable {r : Rule} {t t' : Token}

theorem ofToken_qualified {n : ImportName} (h : n.absolute = false) :
    ofToken ⟨.qualifiedName, n.bare⟩ = some (.qualified n) := by
  have hwords := n.ofWords?_words
  rw [h, ← n.pieces_bare] at hwords
  simp only [ofToken]
  rw [show (Text.pieces '\\' n.bare) = Text.pieces Shading.separator n.bare from rfl, hwords]
  rfl

theorem ofToken_absolute {n : ImportName} (h : n.absolute = true) :
    ofToken ⟨.fullyQualifiedName, '\\' :: n.bare⟩ = some (.absolute n) := by
  have hwords := n.ofWords?_words
  rw [h, ← n.pieces_bare] at hwords
  simp only [ofToken, List.tail_cons]
  rw [show (Text.pieces '\\' n.bare) = Text.pieces Shading.separator n.bare from rfl, hwords]
  rfl

theorem ofToken_word (h : t.kind ∈ [.identifier, .keyword .enumWord]) :
    ofToken t = some (((ImportName.ofWords? false [t.text]).map word).getD other) := by
  simp only [List.mem_cons, List.not_mem_nil, or_false] at h
  rcases h with h | h <;> simp only [ofToken, h]

/-- Words are no names that a rule moves. -/
theorem map_ofToken_word (ht : isFront r.target.text = true) (h : t.kind ∈ [.identifier, .keyword .enumWord]) :
    (ofToken t).map (Symbol.map (ImportName.shade r ht)) = ofToken t := by
  rw [ofToken_word h, Option.map_some]
  by_cases hword : (∀ word ∈ [t.text], isIdentifier word = true) ∧ (false = false → spells "namespace" t.text = false)
  · rw [show ImportName.ofWords? false [t.text] = some ⟨false, t.text, [], hword.1, hword.2⟩ from dif_pos hword]
    exact congrArg (fun n => some (word n)) (ImportName.shade_single ht rfl)
  · rw [show ImportName.ofWords? false [t.text] = none from dif_neg hword]
    rfl

theorem map_ofToken (ht : isFront r.target.text = true) (h : isNameKind t.kind = false) :
    (ofToken t).map (Symbol.map (ImportName.shade r ht)) = ofToken t := by
  by_cases hword : t.kind ∈ [.identifier, .keyword .enumWord]
  · exact map_ofToken_word ht hword
  · unfold ofToken
    split
    all_goals try rfl
    · split <;> rfl
    · exact absurd (by simp [*]) hword
    · exact absurd (by simp [*]) hword
    · rename_i hkind
      simp [isNameKind, hkind] at h
    · rename_i hkind
      simp [isNameKind, hkind] at h
    · exact congrArg some (map_ofMark _ _)

/-- **A token that is shaded is to an import what it was, with its name shaded.** -/
theorem ofToken_shaded (ht : isFront r.target.text = true) (hshaped : t.Shaped) (h : Renames False t t')
    (htext : t'.text = shadeToken r t) : ofToken t' = (ofToken t).map (Symbol.map (ImportName.shade r ht)) := by
  cases hname : isNameKind t.kind with
  | false =>
    rw [map_ofToken ht hname]
    rw [shadeToken_of_kind r hname] at htext
    -- What is shaded elsewhere may turn `enum` from a keyword into an identifier, or back.
    rcases h.kind with hkind | ⟨-, hk, hk'⟩
    · obtain ⟨kind, text⟩ := t
      obtain ⟨kind', text'⟩ := t'
      obtain rfl : kind' = kind := hkind
      obtain rfl : text' = text := htext
      rfl
    · rw [ofToken_word hk, ofToken_word hk', htext]
  | true =>
    obtain ⟨kind, text⟩ := t
    obtain ⟨kind', text'⟩ := t'
    simp only [isNameKind, Bool.or_eq_true, beq_iff_eq] at hname
    rcases hname with rfl | rfl
    · obtain rfl : kind' = .qualifiedName := (h.kind.eq_iff (by decide)).2 rfl
      obtain ⟨first, more, rfl, -, hwords, hfree⟩ := hshaped
      let n : ImportName := ⟨false, first, more, hwords, fun _ => hfree⟩
      obtain rfl : text' = (n.shade r ht).bare := by
        rw [ImportName.bare_shade, ← shadeToken_qualified]
        exact htext
      have hold : ofToken ⟨.qualifiedName, first ++ segments more⟩ = some (qualified n) :=
        ofToken_qualified (n := n) rfl
      rw [ofToken_qualified (ImportName.absolute_shade ht n), hold]
      rfl
    · obtain rfl : kind' = .fullyQualifiedName := (h.kind.eq_iff (by decide)).2 rfl
      obtain ⟨words, rfl, hne, hwords⟩ := hshaped
      obtain ⟨first, more, rfl⟩ := List.exists_cons_of_ne_nil hne
      let n : ImportName := ⟨true, first, more, hwords, fun h => absurd h (by decide)⟩
      obtain rfl : text' = '\\' :: (n.shade r ht).bare := by
        rw [ImportName.bare_shade]
        refine htext.trans ((shadeToken_fullyQualified r n.bare).trans ?_)
        split <;> rfl
      have hold : ofToken ⟨.fullyQualifiedName, segments (first :: more)⟩ = some (absolute n) :=
        ofToken_absolute (n := n) rfl
      rw [ofToken_absolute (ImportName.absolute_shade ht n), hold]
      rfl

end Symbol

/-! ### Reading groups -/

/-- What stands in front of the braces, and what stands between them: one import of a group. -/
structure GroupImport where
  front : ImportName
  member : ImportName
  deriving DecidableEq

namespace GroupImport

def map (f : ImportName → ImportName) (g : GroupImport) : GroupImport := ⟨f g.front, f g.member⟩

/-- The name that is imported. -/
def fullName (g : GroupImport) : ImportName := g.front.append g.member

end GroupImport

/-- How far the reading of a group has come, with the imports found in it. -/
inductive Phase
  | outside
  /-- Behind `use`. -/
  | used
  /-- Behind the word for functions or for constants. -/
  | sorted
  | fronted (front : ImportName)
  | separated (front : ImportName)
  /-- A member is to follow. -/
  | opened (front : ImportName) (found : List GroupImport)
  | named (front : ImportName) (found : List GroupImport)
  /-- Behind `as`. -/
  | aliasing (front : ImportName) (found : List GroupImport)
  | aliased (front : ImportName) (found : List GroupImport)
  | closed (found : List GroupImport)
  deriving DecidableEq

namespace Phase

variable {f : ImportName → ImportName}

def map (f : ImportName → ImportName) : Phase → Phase
  | outside => outside
  | used => used
  | sorted => sorted
  | fronted a => fronted (f a)
  | separated a => separated (f a)
  | opened a found => opened (f a) (found.map (GroupImport.map f))
  | named a found => named (f a) (found.map (GroupImport.map f))
  | aliasing a found => aliasing (f a) (found.map (GroupImport.map f))
  | aliased a found => aliased (f a) (found.map (GroupImport.map f))
  | closed found => closed (found.map (GroupImport.map f))

/-- One token of an import, and the imports of the group that it ends. -/
def step : Phase → Symbol → Phase × List GroupImport
  | used, .sort => (sorted, [])
  | used, .word a | used, .qualified a | used, .absolute a => (fronted a, [])
  | sorted, .word a | sorted, .qualified a | sorted, .absolute a => (fronted a, [])
  | fronted a, .separator => (separated a, [])
  | separated a, .opening => (opened a [], [])
  | opened a found, .word b | opened a found, .qualified b => (named a (found ++ [⟨a, b⟩]), [])
  | named a found, .comma | aliased a found, .comma => (opened a found, [])
  | named _ found, .closing | aliased _ found, .closing => (closed found, [])
  | named a found, .as => (aliasing a found, [])
  | aliasing a found, .word _ => (aliased a found, [])
  | closed found, .semicolon => (outside, found)
  | _, .use => (used, [])
  | _, _ => (outside, [])

/-- The imports of all groups from here on. -/
def run (p : Phase) : List Symbol → List GroupImport
  | [] => []
  | s :: rest => (p.step s).2 ++ run (p.step s).1 rest

theorem step_map (p : Phase) (s : Symbol) :
    (p.map f).step (s.map f) = ((p.step s).1.map f, (p.step s).2.map (GroupImport.map f)) := by
  cases p <;> cases s <;> first
    | rfl
    | simp [step, map, Symbol.map, GroupImport.map]

theorem run_map (p : Phase) (ss : List Symbol) :
    run (p.map f) (ss.map (Symbol.map f)) = (run p ss).map (GroupImport.map f) := by
  induction ss generalizing p with
  | nil => rfl
  | cons s rest ih =>
    simp only [List.map_cons, run, step_map, ih, List.map_append]

/-- A member as it is written, which may be given another name. -/
inductive IsMember : List Symbol → ImportName → Prop
  | word (b : ImportName) : IsMember [.word b] b
  | qualified (b : ImportName) : IsMember [.qualified b] b
  | wordAs (b c : ImportName) : IsMember [.word b, .as, .word c] b
  | qualifiedAs (b c : ImportName) : IsMember [.qualified b, .as, .word c] b

inductive IsMembers : List Symbol → List ImportName → Prop
  | last {ss : List Symbol} {b : ImportName} : IsMember ss b → IsMembers ss [b]
  | more {ss rest : List Symbol} {b : ImportName} {bs : List ImportName} : IsMember ss b → IsMembers rest bs →
      IsMembers (ss ++ .comma :: rest) (b :: bs)

/-- A group: `use`, perhaps the word for functions or constants, a name, and members in braces behind a
separator. -/
inductive IsGroup : List Symbol → List GroupImport → Prop
  | mk {sort members : List Symbol} {name : Symbol} {a : ImportName} {bs : List ImportName} :
      sort ∈ [[], [.sort]] → name ∈ [.word a, .qualified a, .absolute a] → IsMembers members bs →
      IsGroup (.use :: (sort ++ name :: .separator :: .opening :: (members ++ [.closing, .semicolon])))
        (bs.map (⟨a, ·⟩))

theorem run_members {a : ImportName} {members : List Symbol} {bs : List ImportName} (h : IsMembers members bs)
    (found : List GroupImport) (rest : List Symbol) :
    run (opened a found) (members ++ .closing :: .semicolon :: rest) =
      found ++ bs.map (⟨a, ·⟩) ++ run outside rest := by
  induction h generalizing found with
  | last hmember => cases hmember <;> simp [run, step]
  | more hmember _ ih => cases hmember <;> simp [run, step, ih]

/-- **A group is read as its imports**, wherever it stands. -/
theorem run_group {ss : List Symbol} {gs : List GroupImport} (h : IsGroup ss gs) (p : Phase)
    (rest : List Symbol) : run p (ss ++ rest) = gs ++ run outside rest := by
  obtain ⟨hsort, hname, hmembers⟩ := h
  simp only [List.mem_cons, List.not_mem_nil, or_false] at hsort hname
  rcases hsort with rfl | rfl <;> rcases hname with rfl | rfl | rfl <;>
    simp [run, step, run_members hmembers]

end Phase

/-- The imports of the groups in tokens. -/
def groupImports (ts : List Token) : List GroupImport := Phase.run .outside (ts.filterMap Symbol.ofToken)

/-! ### Shading a group -/

/-- The name is the root or under it. -/
def ImportName.Under (root : List Char) (n : ImportName) : Prop := Text.pieces separator root <+: n.words

instance (root : List Char) (n : ImportName) : Decidable (n.Under root) :=
  inferInstanceAs (Decidable (_ <+: _))

/-- The import comes to the same in its group, where each part is shaded by itself, as alone. Either the member is not
under the root, and the whole name is only if the part in front is. Or the member is and the part in front is not,
and the whole name is all the same, with the target on either side of the part in front. -/
def GroupImport.Alike (r : Rule) (g : GroupImport) : Prop :=
  if g.member.Under r.root then
    ¬ g.front.Under r.root ∧ g.fullName.Under r.root ∧
      g.front.words ++ Text.pieces separator r.target.text = Text.pieces separator r.target.text ++ g.front.words
  else g.front.Under r.root ∨ ¬ g.fullName.Under r.root

instance (r : Rule) (g : GroupImport) : Decidable (g.Alike r) := by
  unfold GroupImport.Alike
  infer_instance

/-- A target put in front of two lists, or of the list they make. -/
theorem append_moved_iff {α : Type} [DecidableEq α] {root target a b : List α} (hne : target ≠ []) :
    ((if root <+: a then target ++ a else a) ++ if root <+: b then target ++ b else b) =
        (if root <+: a ++ b then target ++ (a ++ b) else a ++ b) ↔
      if root <+: b then ¬ root <+: a ∧ root <+: a ++ b ∧ a ++ target = target ++ a
      else root <+: a ∨ ¬ root <+: a ++ b := by
  have hpos := List.length_pos_iff.2 hne
  have hlonger : ∀ front tail : List α, front ++ tail ≠ front ++ (target ++ tail) := by
    intro front tail h
    have hlength := congrArg List.length (List.append_cancel_left h)
    rw [List.length_append] at hlength
    omega
  by_cases ha : root <+: a
  · have hab : root <+: a ++ b := ha.trans (List.prefix_append a b)
    by_cases hb : root <+: b
    · simp only [ha, hb, hab, if_true, not_true_eq_false, false_and, iff_false]
      rw [← List.append_assoc target a b]
      exact (hlonger _ _).symm
    · simp [ha, hb, hab]
  · by_cases hb : root <+: b
    · by_cases hab : root <+: a ++ b
      · simp only [ha, hb, hab, if_true, if_false, not_false_eq_true, true_and]
        rw [← List.append_assoc, ← List.append_assoc]
        exact List.append_left_inj b
      · simp only [ha, hb, hab, if_true, if_false, false_and, and_false, iff_false]
        exact (hlonger _ _).symm
    · by_cases hab : root <+: a ++ b
      · simp only [ha, hb, hab, if_true, if_false, not_true_eq_false, or_self, iff_false]
        exact hlonger [] (a ++ b)
      · simp [ha, hb, hab]

namespace GroupImport

variable {r : Rule} (ht : isFront r.target.text = true)

theorem words_fullName (g : GroupImport) : g.fullName.words = g.front.words ++ g.member.words := rfl

/-- **Shaded part by part, an import is what it is shaded as a whole exactly if it is alike.** -/
theorem fullName_map_shade_iff (g : GroupImport) :
    (g.map (ImportName.shade r ht)).fullName = g.fullName.shade r ht ↔ g.Alike r := by
  have hwords : (g.map (ImportName.shade r ht)).fullName = g.fullName.shade r ht ↔
      (g.map (ImportName.shade r ht)).fullName.words = (g.fullName.shade r ht).words := by
    refine ⟨congrArg _, ImportName.ext_words ?_⟩
    rw [ImportName.absolute_shade]
    exact ImportName.absolute_shade ht g.front
  rw [hwords, words_fullName, ImportName.words_shade, words_fullName]
  simp only [map, ImportName.words_shade]
  exact append_moved_iff (Text.pieces_ne_nil _ _)

end GroupImport

/-- The imports that a shaded group stands for. -/
theorem groupImports_shaded {r : Rule} (ht : isFront r.target.text = true) {ts ts' : List Token}
    (h : List.Forall₂ (Renames False) ts ts') (htexts : ts'.map Token.text = ts.map (shadeToken r))
    (hshaped : ∀ t ∈ ts, t.Shaped) :
    groupImports ts' = (groupImports ts).map (GroupImport.map (ImportName.shade r ht)) := by
  have hsymbols : ts'.filterMap Symbol.ofToken =
      (ts.filterMap Symbol.ofToken).map (Symbol.map (ImportName.shade r ht)) := by
    induction h with
    | nil => rfl
    | @cons t t' ts ts' hrename _ ih =>
      obtain ⟨htext, htexts⟩ := List.cons_eq_cons.1 htexts
      rw [List.forall_mem_cons] at hshaped
      rw [List.filterMap_cons, List.filterMap_cons, ih htexts hshaped.2,
        Symbol.ofToken_shaded ht hshaped.1 hrename htext]
      cases Symbol.ofToken t <;> rfl
  rw [groupImports, groupImports, hsymbols, ← Phase.run_map]
  rfl

/-! ### One import alone -/

/-- An import statement of its own. -/
def useStatement (n : ImportName) : List Char := ['u', 's', 'e', ' '] ++ (n.text ++ [';'])

namespace ImportName

variable {r : Rule} {n : ImportName}

/-- A name with a separator in it is one token. -/
def token (n : ImportName) : Token := ⟨if n.absolute then .fullyQualifiedName else .qualifiedName, n.text⟩

theorem next_token {m : Machine} (hm : m.Plain) (hlong : n.absolute = true ∨ n.more ≠ [])
    (hrest : m.rest = n.text ++ [';']) :
    ∃ m', m.next = .ok (some (n.token, m')) ∧ m'.Plain ∧ m'.rest = [';'] := by
  unfold token
  unfold text at hrest ⊢
  cases habsolute : n.absolute with
  | true =>
    rw [habsolute] at hrest
    have hvalid : ∀ word ∈ n.words, isIdentifier word = true := n.valid
    exact hm.next_fullyQualified hvalid (List.cons_ne_nil _ _) rfl hrest
  | false =>
    rw [habsolute] at hrest
    exact hm.next_qualified (n.valid _ List.mem_cons_self) (n.free habsolute)
      (fun word hword => n.valid word (List.mem_cons_of_mem _ hword)) (hlong.resolve_left (by simp [habsolute]))
      rfl hrest

theorem headIs_text (n : ImportName) (rest : List Char) : headIs isBlank (n.text ++ rest) = false := by
  unfold text
  split
  · rfl
  · obtain ⟨c, more, hfirst, hc⟩ := exists_cons_of_isIdentifier (n.valid _ List.mem_cons_self)
    rw [bare, hfirst]
    exact isBlank_of_isNameStart hc

theorem readCode_use (last : Option Token) (line : Nat) (rest : List Char) (hlast : namesMember last = false) :
    readCode last line 'u' ('s' :: 'e' :: ' ' :: rest) =
      .ok (.plain (.keyword .useWord) (['u', 's', 'e'], ' ' :: rest)) := by
  rw [readCode_of_nameStart last line _ (by decide)]
  have hword : ('u' :: 's' :: 'e' :: ' ' :: rest).takeWhile isNameChar = ['u', 's', 'e'] := rfl
  have hafter : ('u' :: 's' :: 'e' :: ' ' :: rest).dropWhile isNameChar = ' ' :: rest := rfl
  rw [readWord, hword, hafter, nameSegments_stop rfl]
  simp only [wordKind, hlast]
  rfl

theorem fragmentTokens_useStatement (hlong : n.absolute = true ∨ n.more ≠ []) :
    fragmentTokens (useStatement n) = .ok [⟨.keyword .useWord, ['u', 's', 'e']⟩, ⟨.whitespace, [' ']⟩, n.token,
      ⟨.punctuation, [';']⟩] := by
  have hname := n.headIs_text [';']
  obtain ⟨m₁, huse, hm₁, hrest₁⟩ := (plain_inCode (useStatement n)).next_code rfl
    (readCode_use _ _ (n.text ++ [';']) rfl) rfl rfl rfl
  have hblank : readCode m₁.last m₁.line ' ' (n.text ++ [';']) =
      .ok (.plain .whitespace ([' '], n.text ++ [';'])) := by
    rw [readCode_of_blank _ _ (by decide), takeWhile_of_stop hname]
    exact congrArg (fun rest => Except.ok (Reading.plain .whitespace ([' '], rest)))
      (dropWhile_append_stop (t := []) nofun hname)
  obtain ⟨m₂, hspace, hm₂, hrest₂⟩ := hm₁.next_code hrest₁ hblank rfl rfl rfl
  obtain ⟨m₃, htoken, hm₃, hrest₃⟩ := next_token hm₂ hlong hrest₂
  obtain ⟨m₄, hmark, hm₄, hrest₄⟩ := hm₃.next_code hrest₃ (show readCode m₃.last m₃.line ';' [] =
    .ok (.plain .punctuation ([';'], [])) from rfl) rfl rfl rfl
  exact fragmentTokens_eq_ok_iff.2
    ⟨m₄, .next huse (.next hspace (.next htoken (.next hmark (.refl m₄)))), hrest₄, hm₄.stack⟩

theorem shadeToken_token (ht : isFront r.target.text = true) (n : ImportName) :
    shadeToken r n.token = (n.shade r ht).text := by
  unfold token text
  rw [absolute_shade, bare_shade]
  split
  · refine (shadeToken_fullyQualified r n.bare).trans ?_
    split <;> rfl
  · exact shadeToken_qualified r n.bare

/-- **An import alone is shaded as a whole.** -/
theorem shadeCode_useStatement (ht : isFront r.target.text = true) (hlong : n.absolute = true ∨ n.more ≠ []) :
    shadeCode r (useStatement n) = .ok (useStatement (n.shade r ht)) := by
  rw [shadeCode, fragmentTokens_useStatement hlong]
  simp only [Except.map, List.flatMap_cons, List.flatMap_nil, shadeToken_token ht, useStatement]
  rfl

end ImportName

/-! ### Groups -/

/-- **What a shaded group stands for.** Each part of a group is shaded by itself, the name in front of the braces and
every one between them. So the groups of a fragment come to the imports they stand for, each shaded alone, exactly if
that makes no difference to any of these. -/
theorem group_imports_shaded {r : Rule} {code : List Char} {ts : List Token} (ht : isFront r.target.text = true)
    (hsteady : Steady r.target.text code) (hts : fragmentTokens code = .ok ts) :
    ∃ out ts', shadeCode r code = .ok out ∧ fragmentTokens out = .ok ts' ∧
      groupImports ts' = (groupImports ts).map (GroupImport.map (ImportName.shade r ht)) ∧
      (∀ g ∈ groupImports ts,
        shadeCode r (useStatement g.fullName) = .ok (useStatement (g.fullName.shade r ht))) ∧
      ((groupImports ts').map GroupImport.fullName =
          ((groupImports ts).map GroupImport.fullName).map (ImportName.shade r ht) ↔
        ∀ g ∈ groupImports ts, g.Alike r) := by
  have hfronts : Fronts False r.target.text := ⟨ht, False.elim⟩
  obtain ⟨ts', hts', hrenames, htexts⟩ := fragmentTokens_shaded hts
    (fun t _ => moved_shadeToken hfronts False.elim t) (hsteady.opensCode_eq hfronts hts)
  have hgroups := groupImports_shaded ht hrenames htexts (shaped_of_fragmentTokens hts)
  refine ⟨ts.flatMap (shadeToken r), ts', ?_, hts', hgroups, fun g _ => ?_, ?_⟩
  · rw [shadeCode, hts]
    rfl
  · exact ImportName.shadeCode_useStatement ht (.inr (List.append_ne_nil_of_right_ne_nil _ (List.cons_ne_nil _ _)))
  · rw [hgroups, List.map_map, List.map_map, List.map_inj_left]
    exact forall₂_congr fun g _ => g.fullName_map_shade_iff ht

/-- The statement holds of a group under the root, one of whose members gets another name, and of one that is not. -/
theorem exists_group_imports_shaded : ∃ (r : Rule) (ht : isFront r.target.text = true) (code : List Char)
    (ts : List Token), Steady r.target.text code ∧ fragmentTokens code = .ok ts ∧
      (groupImports ts).map (fun g => (g.front.text, g.member.text)) =
        [("Foo\\Bar".toList, ['C']), ("Foo\\Bar".toList, "D\\E".toList), ("\\X".toList, ['y'])] ∧
      ∃ out ts', shadeCode r code = .ok out ∧ fragmentTokens out = .ok ts' ∧
        (groupImports ts').map GroupImport.fullName =
          ((groupImports ts).map GroupImport.fullName).map (ImportName.shade r ht) := by
  let r : Rule := {root := "Foo\\Bar".toList, root_valid := by decide, target := ⟨"t".toList, by decide⟩}
  let code := "<?php namespace A;use Foo\\Bar\\\x7bC,D\\E as F\x7d;use function \\X\\\x7by\x7d;".toList
  have ht : isFront r.target.text = true := by decide
  have hsteady : Steady r.target.text code := fun _ => .inl (by decide)
  let a : ImportName := ⟨false, ['A'], [], by decide, by decide⟩
  let foo : ImportName := ⟨false, "Foo".toList, ["Bar".toList], by decide, by decide⟩
  let c : ImportName := ⟨false, ['C'], [], by decide, by decide⟩
  let d : ImportName := ⟨false, ['D'], [['E']], by decide, by decide⟩
  let f : ImportName := ⟨false, ['F'], [], by decide, by decide⟩
  let x : ImportName := ⟨true, ['X'], [], by decide, by decide⟩
  let y : ImportName := ⟨false, ['y'], [], by decide, by decide⟩
  let above : List Symbol := [.other, .other, .word a, .semicolon]
  let first : List Symbol := [.use, .qualified foo, .separator, .opening, .word c, .comma, .qualified d, .as, .word f,
    .closing, .semicolon]
  let second : List Symbol := [.use, .sort, .absolute x, .separator, .opening, .word y, .closing, .semicolon]
  have hfirst : Phase.IsGroup first [⟨foo, c⟩, ⟨foo, d⟩] :=
    @Phase.IsGroup.mk [] _ (.qualified foo) foo _ (by decide) (by decide) (.more (.word c) (.last (.qualifiedAs d f)))
  have hsecond : Phase.IsGroup second [⟨x, y⟩] :=
    @Phase.IsGroup.mk [.sort] _ (.absolute x) x _ (by decide) (by decide) (.last (.word y))
  obtain ⟨ts, hts, hsymbols⟩ : ∃ ts, fragmentTokens code = .ok ts ∧
      ts.filterMap Symbol.ofToken = above ++ (first ++ (second ++ [])) :=
    ⟨(fragmentTokens code).toOption.getD [], by decide +kernel, by decide +kernel⟩
  have hgroups : groupImports ts = [⟨foo, c⟩, ⟨foo, d⟩] ++ ([⟨x, y⟩] ++ []) := by
    rw [groupImports, hsymbols]
    exact (Phase.run_group hfirst _ _).trans (congrArg _ (Phase.run_group hsecond _ []))
  obtain ⟨out, ts', hout, hts', -, -, halike⟩ := group_imports_shaded ht hsteady hts
  refine ⟨r, ht, code, ts, hsteady, hts, ?_, out, ts', hout, hts', halike.2 ?_⟩
  · rw [hgroups]
    decide
  · rw [hgroups]
    decide

/-- A root that ends behind the brace: the group stays, and the import that it stands for would move. And a target
that is no name: the group is none any more. -/
theorem group_import_divided :
    (∃ (source : List Char) (f : File) (r : Rule) (ht : isFront r.target.text = true) (ts : List Token),
      split ⟨"a.php"⟩ source = .ok f ∧ fragmentTokens f.header = .ok ts ∧ shadeCode r f.header = .ok f.header ∧
        (groupImports ts).map GroupImport.fullName ≠
          ((groupImports ts).map GroupImport.fullName).map (ImportName.shade r ht)) ∧
    ∃ (source : List Char) (f : File) (r : Rule) (ts : List Token) (out : List Char) (ts' : List Token),
      split ⟨"a.php"⟩ source = .ok f ∧ isFront r.target.text = false ∧ fragmentTokens f.header = .ok ts ∧
        shadeCode r f.header = .ok out ∧ fragmentTokens out = .ok ts' ∧
          (groupImports ts').length ≠ (groupImports ts).length := by
  let tokens (code : List Char) : List Token := (fragmentTokens code).toOption.getD []
  let r (target : Target) : Rule := {root := "Foo\\Bar".toList, root_valid := by decide, target := target}
  let divided := "<?php namespace A;use Foo\\\x7bBar\\B\x7d;".toList
  let whole := "<?php namespace A;use Foo\\Bar\\\x7bB\x7d;".toList
  let broken := "<?php namespace A;use a;b\\Foo\\Bar\\\x7bB\x7d;".toList
  let f (header : List Char) : File := ⟨⟨"a.php"⟩, header, ['A'], []⟩
  constructor
  · exact ⟨divided, f divided, r ⟨"t".toList, by decide⟩, by decide, tokens divided, by decide +kernel,
      by decide +kernel, by decide +kernel, by decide +kernel⟩
  · exact ⟨whole, f whole, r ⟨"a;b".toList, by decide⟩, tokens whole, broken, tokens broken, by decide +kernel,
      by decide, by decide +kernel, by decide +kernel, by decide +kernel, by decide +kernel⟩

end PluginShading.Shading
