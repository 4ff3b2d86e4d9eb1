import PluginShading.Proofs.Json.Relisting
import PluginShading.Proofs.Manifest.Places

/-!
Manifests with empty lists for empty objects.

Each part of a manifest is read by a way of its own: records and tables from objects or lists, texts and paths from
neither or from lists of them, the shading block a second time with its last fields only. What each of them reads from a
value it reads from the value with empty lists for some empty objects as well. Since such values are also as deep and as
sound (`usable_relisted`), the manifest is the same (`parse_relisted`).
-/
namespace PluginShading

open Json (Value Fields Token table setField Relisted RelistedField)

variable {α β γ : Type} {v w : Value} {level : Nat} {names : List (List String)} {ns : List String} {k : String}

/-! ### Fitness for use -/

mutual

theorem fit_relisted {v w : Value} (h : v.Relisted w) : w.depth = v.depth ∧ w.sound = v.sound := by
  cases h with
  | same => exact ⟨rfl, rfl⟩
  | empty => exact ⟨rfl, rfl⟩
  | array hitems =>
    obtain ⟨hdepth, hsound⟩ := itemsFit_relisted hitems
    exact ⟨congrArg (1 + ·) hdepth, hsound⟩
  | object hfields =>
    obtain ⟨hdepth, hsound⟩ := fieldsFit_relisted hfields
    exact ⟨congrArg (1 + ·) hdepth, hsound⟩

theorem itemsFit_relisted {a b : List Value} (h : List.Forall₂ Value.Relisted a b) :
    Value.itemsDepth b = Value.itemsDepth a ∧ Value.itemsSound b = Value.itemsSound a := by
  cases h with
  | nil => exact ⟨rfl, rfl⟩
  | cons hv hrest =>
    obtain ⟨hdepth, hsound⟩ := fit_relisted hv
    obtain ⟨hmoreDepth, hmoreSound⟩ := itemsFit_relisted hrest
    simp only [Value.itemsDepth, Value.itemsSound, hdepth, hsound, hmoreDepth, hmoreSound, and_self]

theorem fieldsFit_relisted {a b : Fields} (h : List.Forall₂ RelistedField a b) :
    Value.fieldsDepth b = Value.fieldsDepth a ∧ Value.fieldsSound b = Value.fieldsSound a := by
  cases h with
  | nil => exact ⟨rfl, rfl⟩
  | cons hf hrest =>
    obtain ⟨hmoreDepth, hmoreSound⟩ := fieldsFit_relisted hrest
    cases hf with
    | mk k hv =>
      obtain ⟨hdepth, hsound⟩ := fit_relisted hv
      simp only [Value.fieldsDepth, Value.fieldsSound, hdepth, hsound, hmoreDepth, hmoreSound, and_self]

end

/-- An empty list is as deep as an empty object, and as sound. -/
theorem usable_relisted (h : v.Relisted w) (level : Nat) : w.usable level = v.usable level := by
  obtain ⟨hdepth, hsound⟩ := fit_relisted h
  rw [Value.usable, Value.usable, hdepth, hsound]

/-! ### Records -/

theorem mapM_forall₂ {R : α → β → Prop} {S : γ → γ → Prop} {f : α → Option γ} {g : β → Option γ} {as : List α}
    {bs : List β} {cs : List γ} (h : List.Forall₂ R as bs)
    (hfg : ∀ a b c, R a b → f a = some c → ∃ d, g b = some d ∧ S c d) (hcs : as.mapM f = some cs) :
    ∃ ds, bs.mapM g = some ds ∧ List.Forall₂ S cs ds := by
  induction h generalizing cs with
  | nil =>
    obtain rfl := Option.some.inj hcs
    exact ⟨[], rfl, .nil⟩
  | cons hab _ ih =>
    simp only [List.mapM_cons, Option.bind_eq_bind, Option.bind_eq_some_iff, Option.pure_def, Option.some.injEq] at hcs ⊢
    obtain ⟨c, hc, more, hmore, rfl⟩ := hcs
    obtain ⟨d, hd, hcd⟩ := hfg _ _ _ hab hc
    obtain ⟨ds, hds, hrel⟩ := ih hmore
    exact ⟨d :: ds, ⟨d, hd, ds, hds, rfl⟩, .cons hcd hrel⟩

theorem map_eq_of_forall₂ {R : α → β → Prop} {f : α → γ} {g : β → γ} {as : List α} {bs : List β}
    (h : List.Forall₂ R as bs) (hfg : ∀ a b, R a b → f a = g b) : as.map f = bs.map g := by
  have hmap : List.Forall₂ Eq (as.map f) (bs.map g) := List.rel_map hfg h
  rwa [List.forall₂_eq_eq_eq] at hmap

/-- What a function gives for each entry it gives for a related one, and so for the list. -/
theorem mapM_eq_of_forall₂ {R : α → α → Prop} {f : α → Option γ} {as bs : List α} {cs : List γ}
    (h : List.Forall₂ R as bs) (hf : ∀ a b c, R a b → f a = some c → f b = some c) (hcs : as.mapM f = some cs) :
    bs.mapM f = some cs := by
  obtain ⟨ds, hds, heq⟩ := mapM_forall₂ (S := Eq) h (fun a b c hab hc => ⟨c, hf a b c hab hc, rfl⟩) hcs
  rw [List.forall₂_eq_eq_eq] at heq
  exact heq ▸ hds

theorem fieldOf_relisted {a b : Fields} {found : Option Value} (h : List.Forall₂ RelistedField a b)
    (hfound : fieldOf a ns = some found) : ∃ found', fieldOf b ns = some found' ∧ Option.Rel Value.Relisted found found' := by
  have hfilter : List.Forall₂ RelistedField (a.filter fun f => ns.any fun n => f.1 = some n)
      (b.filter fun f => ns.any fun n => f.1 = some n) := by
    refine List.rel_filter ?_ h
    rintro _ _ ⟨k, -⟩
    exact Iff.rfl
  unfold fieldOf at hfound ⊢
  generalize a.filter _ = fs at hfilter hfound
  generalize b.filter _ = gs at hfilter
  cases hfilter with
  | nil =>
    obtain rfl := Option.some.inj hfound
    exact ⟨none, rfl, .none⟩
  | cons hf hrest =>
    cases hrest with
    | nil =>
      cases hf with
      | mk k hv =>
        obtain rfl := Option.some.inj hfound
        exact ⟨_, rfl, .some hv⟩
    | cons => cases hfound

theorem relisted_refl : ∀ o : Option Value, Option.Rel Value.Relisted o o
  | none => .none
  | some v => .some (.same v)

/-- No fields and no items are the same record. -/
theorem recordOf_nil (names : List (List String)) : recordOf names (.object []) = recordOf names (.array []) := by
  show names.mapM (fun _ => pure none) = some ([] ++ List.replicate names.length none)
  rw [List.mapM_pure, List.map_const', List.nil_append]
  rfl

theorem recordOf_relisted {found : List (Option Value)} (h : v.Relisted w) (hfound : recordOf names v = some found) :
    ∃ found', recordOf names w = some found' ∧ List.Forall₂ (Option.Rel Value.Relisted) found found' := by
  have hsame : ∀ found : List (Option Value), List.Forall₂ (Option.Rel Value.Relisted) found found := fun found =>
    List.forall₂_same.2 fun o _ => relisted_refl o
  cases h with
  | same => exact ⟨found, hfound, hsame found⟩
  | empty => exact ⟨found, recordOf_nil names ▸ hfound, hsame found⟩
  | array hitems =>
    unfold recordOf at hfound ⊢
    dsimp only at hfound ⊢
    rw [← hitems.length_eq]
    split at hfound
    · rename_i hfew
      obtain rfl := Option.some.inj hfound
      exact ⟨_, if_pos hfew, List.rel_append (List.rel_map (fun _ _ hv => .some hv) hitems) (hsame _)⟩
    · cases hfound
  | @object a b hfields =>
    unfold recordOf at hfound ⊢
    dsimp only at hfound ⊢
    have hkeys : a.map (·.1.isSome) = b.map (·.1.isSome) := map_eq_of_forall₂ hfields (by rintro _ _ ⟨k, -⟩; rfl)
    have hall := congrArg (List.all · id) hkeys
    simp only [List.all_map] at hall
    split at hfound
    · rename_i htexts
      rw [show b.all (·.1.isSome) = true from hall.symm.trans htexts, if_pos rfl]
      exact mapM_forall₂ (List.forall₂_same.2 fun ns _ => rfl : List.Forall₂ Eq names names)
        (by rintro ns _ found rfl hf; exact fieldOf_relisted hfields hf) hfound
    · cases hfound

/-! ### Texts and tables -/

/-- What is read from no container is read the same. -/
theorem read_relisted {read : Option Value → Option α} (harray : ∀ items, read (some (.array items)) = none)
    (hobject : ∀ fields, read (some (.object fields)) = none) {o o' : Option Value} {found : α}
    (h : Option.Rel Value.Relisted o o') (ho : read o = some found) : read o' = some found := by
  cases h with
  | none => exact ho
  | some hv =>
    cases hv with
    | same => exact ho
    | array => exact absurd ((harray _).symm.trans ho) (by simp)
    | empty | object => exact absurd ((hobject _).symm.trans ho) (by simp)

theorem textOf_relisted {o o' : Option Value} {text : Option String} (h : Option.Rel Value.Relisted o o')
    (ho : textOf? o = some text) : textOf? o' = some text := read_relisted (fun _ => rfl) (fun _ => rfl) h ho

theorem specOf_relisted {o o' : Option Value} {text : Option String} (h : Option.Rel Value.Relisted o o')
    (ho : specOf o = some text) : specOf o' = some text := read_relisted (fun _ => rfl) (fun _ => rfl) h ho

theorem pathsOf_relisted {paths : List String} (h : v.Relisted w) (hpaths : pathsOf v = some paths) :
    pathsOf w = some paths := by
  cases h with
  | same => exact hpaths
  | empty | object => cases hpaths
  | array hitems =>
    refine mapM_eq_of_forall₂ hitems (fun a b path hab hpath => ?_) hpaths
    cases hab with
    | same => exact hpath
    | empty | array | object => cases hpath

/-- Entries of a table under the same key. -/
def RelistedEntry (p q : String × Value) : Prop := p.1 = q.1 ∧ p.2.Relisted q.2

theorem setField_relisted {t u : List (String × Value)} (hv : v.Relisted w) (h : List.Forall₂ RelistedEntry t u) :
    List.Forall₂ RelistedEntry (setField k v t) (setField k w u) := by
  induction h with
  | nil => exact .cons ⟨rfl, hv⟩ .nil
  | @cons p q t u hpq hrest ih =>
    obtain ⟨k', v'⟩ := p
    obtain ⟨_, w'⟩ := q
    obtain rfl : k' = _ := hpq.1
    rw [setField, setField]
    split
    · exact .cons ⟨rfl, hv⟩ hrest
    · exact .cons hpq ih

theorem table_relisted {a b : Fields} (h : List.Forall₂ RelistedField a b) :
    List.Forall₂ RelistedEntry (table a) (table b) := by
  refine List.rel_foldl (fun t u htu f g hfg => ?_) List.Forall₂.nil h
  obtain ⟨k, hv⟩ := hfg
  cases k with
  | none => exact htu
  | some k => exact setField_relisted hv htu

theorem tableOf_relisted {t : List (String × Value)} (h : v.Relisted w) (ht : tableOf v = some t) :
    ∃ u, tableOf w = some u ∧ List.Forall₂ RelistedEntry t u := by
  have hsame : ∀ t, List.Forall₂ RelistedEntry t t := fun t => List.forall₂_same.2 fun p _ => ⟨rfl, .same p.2⟩
  cases h with
  | same => exact ⟨t, ht, hsame t⟩
  | empty =>
    obtain rfl := Option.some.inj ht
    exact ⟨[], rfl, .nil⟩
  | array hitems =>
    cases hitems with
    | nil => exact ⟨t, ht, hsame t⟩
    | cons => cases ht
  | object hfields =>
    obtain rfl := Option.some.inj ht
    exact ⟨_, rfl, table_relisted hfields⟩

theorem usableTable_relisted {o o' : Option Value} {t : List (String × Value)} (h : Option.Rel Value.Relisted o o')
    (ht : usableTable level o = some t) : ∃ u, usableTable level o' = some u ∧ List.Forall₂ RelistedEntry t u := by
  cases h with
  | none =>
    obtain rfl := Option.some.inj ht
    exact ⟨[], rfl, .nil⟩
  | @some v w hv =>
    simp only [usableTable, usable_relisted hv] at ht ⊢
    split at ht
    · rename_i husable
      rw [if_pos husable]
      exact tableOf_relisted hv ht
    · cases ht

/-! ### Parts -/

theorem spaceMapsOf_relisted {standard : AutoloadStandard} {layouts : List Layout} (h : v.Relisted w)
    (hlayouts : spaceMapsOf standard v = some layouts) : spaceMapsOf standard w = some layouts := by
  obtain ⟨t, ht, hmaps⟩ := Option.bind_eq_some_iff.1 hlayouts
  obtain ⟨u, hu, htu⟩ := tableOf_relisted h ht
  rw [spaceMapsOf, hu]
  refine mapM_eq_of_forall₂ htu ?_ hmaps
  rintro ⟨space, v⟩ ⟨_, w⟩ layout ⟨rfl, hv⟩ hlayout
  obtain ⟨paths, hpaths, hone⟩ := Option.bind_eq_some_iff.1 hlayout
  dsimp only
  rw [pathsOf_relisted hv hpaths]
  exact hone

theorem layoutsOf_relisted {kind : String} {layouts : List Layout} (h : v.Relisted w)
    (hlayouts : layoutsOf kind v = some layouts) : layoutsOf kind w = some layouts := by
  have hpaths : ∀ f : List String → Layout, ((pathsOf v).bind fun paths => some [f paths]) = some layouts →
      ((pathsOf w).bind fun paths => some [f paths]) = some layouts := fun f hf => by
    obtain ⟨paths, hp, hone⟩ := Option.bind_eq_some_iff.1 hf
    rw [pathsOf_relisted h hp]
    exact hone
  unfold layoutsOf at hlayouts ⊢
  split_ifs at hlayouts ⊢
  · exact spaceMapsOf_relisted h hlayouts
  · exact spaceMapsOf_relisted h hlayouts
  · exact hpaths _ hlayouts
  · exact hpaths _ hlayouts
  · exact hlayouts

/-- The value with the last field of each name, if it has fields. -/
def lastFields : Value → Value
  | .object fields => .object ((table fields).map fun f => (some f.1, f.2))
  | v => v

theorem shadingOf_eq (v : Value) : shadingOf v = (recordOf shadingNames (lastFields v)).bind readBlock := by
  rfl

theorem lastFields_relisted (h : v.Relisted w) : (lastFields v).Relisted (lastFields w) := by
  cases h with
  | same => exact .same _
  | empty => exact .empty
  | array hitems => exact .array hitems
  | object hfields =>
    refine .object (List.rel_map ?_ (table_relisted hfields))
    rintro ⟨k, v⟩ ⟨_, w⟩ ⟨rfl, hv⟩
    exact .mk (some k) hv

theorem readBlock_relisted {found found' : List (Option Value)} {block : ShadingBlock}
    (h : List.Forall₂ (Option.Rel Value.Relisted) found found') (hblock : readBlock found = some block) :
    readBlock found' = some block := by
  rcases h with _ | ⟨hspec, _ | ⟨hroot, _ | ⟨hshared, _ | _⟩⟩⟩
  · cases hblock
  · cases hblock
  · cases hblock
  · obtain ⟨spec, hs, hblock⟩ := Option.bind_eq_some_iff.1 hblock
    obtain ⟨root, hr, hblock⟩ := Option.bind_eq_some_iff.1 hblock
    obtain ⟨shared, hsh, hblock⟩ := Option.bind_eq_some_iff.1 hblock
    rw [readBlock, specOf_relisted hspec hs, textOf_relisted hroot hr, textOf_relisted hshared hsh]
    exact hblock
  · cases hblock

theorem shadingOf_relisted {block : ShadingBlock} (h : v.Relisted w) (hblock : shadingOf v = some block) :
    shadingOf w = some block := by
  rw [shadingOf_eq] at hblock ⊢
  obtain ⟨found, hfound, hread⟩ := Option.bind_eq_some_iff.1 hblock
  obtain ⟨found', hfound', hrel⟩ := recordOf_relisted (lastFields_relisted h) hfound
  rw [hfound']
  exact readBlock_relisted hrel hread

theorem usableShading_relisted {o o' : Option Value} {shading : Option Value} (h : Option.Rel Value.Relisted o o')
    (hshading : usableShading o = some shading) :
    ∃ shading', usableShading o' = some shading' ∧ Option.Rel Value.Relisted shading shading' := by
  cases h with
  | none =>
    obtain rfl := Option.some.inj hshading
    exact ⟨none, rfl, .none⟩
  | @some v w hv =>
    have hwhole : (if v.usable 2 then some (some v) else none) = some shading →
        ∃ shading', (if w.usable 2 then some (some w) else none) = some shading' ∧
          Option.Rel Value.Relisted shading shading' := fun h => by
      rw [usable_relisted hv]
      split at h
      · rename_i husable
        obtain rfl := Option.some.inj h
        exact ⟨_, if_pos husable, .some hv⟩
      · cases h
    cases hv with
    | same => exact ⟨shading, hshading, relisted_refl shading⟩
    | empty | array | object => exact hwhole hshading

theorem readExtra_relisted {o o' : Option Value} {shading : Option Value} (h : Option.Rel Value.Relisted o o')
    (hshading : readExtra o = some shading) :
    ∃ shading', readExtra o' = some shading' ∧ Option.Rel Value.Relisted shading shading' := by
  cases h with
  | none =>
    obtain rfl := Option.some.inj hshading
    exact ⟨none, rfl, .none⟩
  | some hextra =>
    obtain ⟨found, hfound, hread⟩ := Option.bind_eq_some_iff.1 hshading
    obtain ⟨found', hfound', hrel⟩ := recordOf_relisted hextra hfound
    rcases hrel with _ | ⟨hone, _ | _⟩
    · cases hread
    · rw [readExtra, hfound']
      exact usableShading_relisted hone hread
    · cases hread

/-- The outline is the same but for the shading block. -/
theorem outlineOf_relisted {o : Outline} (h : v.Relisted w) (ho : outlineOf v = some o) :
    ∃ shading, outlineOf w = some {o with shading := shading} ∧ Option.Rel Value.Relisted o.shading shading := by
  rw [outlineOf_eq] at ho ⊢
  obtain ⟨found, hfound, hread⟩ := Option.bind_eq_some_iff.1 ho
  obtain ⟨found', hfound', hrel⟩ := recordOf_relisted h hfound
  rw [hfound', Option.bind_some]
  rcases hrel with _ | ⟨hname, _ | ⟨hrequire, _ | ⟨hautoload, _ | ⟨hextra, _ | _⟩⟩⟩⟩
  · cases hread
  · cases hread
  · cases hread
  · cases hread
  · obtain ⟨name, hn, hread⟩ := Option.bind_eq_some_iff.1 hread
    obtain ⟨require, hr, hread⟩ := Option.bind_eq_some_iff.1 hread
    obtain ⟨autoload, ha, hread⟩ := Option.bind_eq_some_iff.1 hread
    obtain ⟨shading, hs, hread⟩ := Option.bind_eq_some_iff.1 hread
    obtain ⟨layouts, hl, hread⟩ := Option.bind_eq_some_iff.1 hread
    obtain rfl := Option.some.inj hread
    obtain ⟨require', hr', hkeys⟩ := usableTable_relisted hrequire hr
    obtain ⟨autoload', ha', hentries⟩ := usableTable_relisted hautoload ha
    obtain ⟨shading', hs', hshading⟩ := readExtra_relisted hextra hs
    have hl' := mapM_eq_of_forall₂ hentries (by
      rintro ⟨kind, v⟩ ⟨_, w⟩ layouts ⟨rfl, hv⟩ hlayouts
      exact layoutsOf_relisted hv hlayouts) hl
    have hnames : require'.map Prod.fst = require.map Prod.fst := (map_eq_of_forall₂ hkeys fun p q hpq => hpq.1).symm
    refine ⟨shading', ?_, hshading⟩
    simp only [textOf_relisted hname hn, hr', ha', hs', hl', Option.bind_eq_bind, Option.bind_some, hnames]
    rfl
  · cases hread

theorem ofValue_relisted {path : Path} {m : Manifest} (h : v.Relisted w) (hm : Manifest.ofValue path v = .ok m) :
    Manifest.ofValue path w = .ok m := by
  unfold Manifest.ofValue at hm ⊢
  split at hm
  · cases hm
  · rename_i o ho
    obtain ⟨shading, ho', hrel⟩ := outlineOf_relisted h ho
    rw [ho']
    obtain ⟨name, require, layouts, shading₀⟩ := o
    cases hrel with
    | none => exact hm
    | some hv =>
      dsimp only at hm ⊢
      split at hm
      · cases hm
      · rename_i block hblock
        rw [shadingOf_relisted hv hblock]
        exact hm

/-- **An empty list reads as an empty object.** If a manifest is accepted, it may have empty lists for any of its empty
objects, and is then the same manifest, with the same source roots. Whichever are chosen, there is such a text. -/
theorem parse_relisted {path : Path} {m : Manifest} {text : List Char} (hm : Manifest.parse path text = .ok m) :
    (∀ text', Relisted text text' → Manifest.parse path text' = .ok m) ∧
      ∀ ts us, Json.tokens text = some ts → Token.Relisted ts us →
        ∃ text', Relisted text text' ∧ Json.tokens text' = some us ∧ Manifest.parse path text' = .ok m := by
  have hall : ∀ text', Relisted text text' → Manifest.parse path text' = .ok m := fun text' h => by
    unfold Manifest.parse at hm ⊢
    split at hm
    · cases hm
    · rename_i v hv
      obtain ⟨w, hw, hvw⟩ := h.parse hv
      rw [hw]
      exact ofValue_relisted hvw hm
  refine ⟨hall, fun ts us hts h => ?_⟩
  obtain ⟨text', hrel, hus⟩ := Json.exists_relisted hts h
  exact ⟨text', hrel, hus, hall text' hrel⟩

/-- Of two empty objects one, the shading block, is written as a list. -/
theorem exists_parse_relisted :
    let text := ['{', '"', 'a', '"', ':', '{', '}', ',', '"', 'e', 'x', 't', 'r', 'a', '"', ':', '[', '{', ' ', '}', ']', '}']
    let text' := ['{', '"', 'a', '"', ':', '{', '}', ',', '"', 'e', 'x', 't', 'r', 'a', '"', ':', '[', '[', ']', ']', '}']
    let m : Manifest := {path := ⟨"composer.json"⟩, shading := some {}}
    Manifest.parse m.path text = .ok m ∧ Relisted text text' ∧ Manifest.parse m.path text' = .ok m := by
  intro text text' m
  have hm : Manifest.parse m.path text = .ok m := by decide +kernel
  have hbehind : Relisted [']', '}'] [']', '}'] :=
    @Relisted.token ']' [] _ _ _ rfl rfl <| @Relisted.token '}' [] _ _ _ rfl rfl .nil
  have hblock : Relisted ['{', ' ', '}', ']', '}'] ['[', ']', ']', '}'] := @Relisted.empty [' '] [] _ _ rfl rfl hbehind
  have hextra : Relisted ['"', 'e', 'x', 't', 'r', 'a', '"', ':', '[', '{', ' ', '}', ']', '}']
      ['"', 'e', 'x', 't', 'r', 'a', '"', ':', '[', '[', ']', ']', '}'] :=
    @Relisted.token '"' ['e', 'x', 't', 'r', 'a', '"'] _ _ _ rfl rfl <| @Relisted.token ':' [] _ _ _ rfl rfl <|
    @Relisted.token '[' [] _ _ _ rfl rfl hblock
  have hrel : Relisted text text' :=
    @Relisted.token '{' [] _ _ _ rfl rfl <| @Relisted.token '"' ['a', '"'] _ _ _ rfl rfl <|
    @Relisted.token ':' [] _ _ _ rfl rfl <| @Relisted.token '{' [] _ _ _ rfl rfl <|
    @Relisted.token '}' [] _ _ _ rfl rfl <| @Relisted.token ',' [] _ _ _ rfl rfl hextra
  exact ⟨hm, hrel, (parse_relisted hm).1 text' hrel⟩

end PluginShading
