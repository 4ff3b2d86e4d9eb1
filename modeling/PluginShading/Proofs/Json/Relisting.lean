import PluginShading.Json.Value
import PluginShading.Proofs.Json.Scanning

/-!
Empty objects written as empty lists.

Some writers put an empty list where an empty object is meant. `Relisted` says of two texts that the second is the first
with some of its empty objects written so. It can be any of them (`exists_relisted`). The tokens differ in these places
only (`Relisted.tokens`), and since a list may stand wherever an object may, the reader comes to the same end with values
that differ in these places only (`Relisted.parse`).
-/
namespace PluginShading.Json

variable {a b text text' : List Char} {ts us : List Token} {v w : Value}

/-! ### Texts -/

/-- The second text is the first with some of its empty objects written as empty lists. -/
inductive Relisted : List Char → List Char → Prop
  | nil : Relisted [] []
  | blank {c : Char} {a b : List Char} : isBlank c = true → Relisted a b → Relisted (c :: a) (c :: b)
  | token {c : Char} {lexeme a b : List Char} {t : Token} : isBlank c = false → Token.next c (lexeme ++ a) = some (t, a) →
      Relisted a b → Relisted (c :: (lexeme ++ a)) (c :: (lexeme ++ b))
  | empty {gap gap' a b : List Char} : gap.all isBlank = true → gap'.all isBlank = true → Relisted a b →
      Relisted ('{' :: (gap ++ '}' :: a)) ('[' :: (gap' ++ ']' :: b))

/-- The same for tokens. -/
inductive Token.Relisted : List Token → List Token → Prop
  | nil : Token.Relisted [] []
  | token {t : Token} {ts us : List Token} : Token.Relisted ts us → Token.Relisted (t :: ts) (t :: us)
  | empty {ts us : List Token} : Token.Relisted ts us →
      Token.Relisted (.openBrace :: .closeBrace :: ts) (.openBracket :: .closeBracket :: us)

theorem Relisted.sameHead (h : Relisted a b) : SameHead a b := by
  cases h with
  | nil => exact .inl rfl
  | blank => exact .inl rfl
  | token => exact .inl rfl
  | empty => exact .inr ⟨rfl, rfl⟩

theorem Relisted.tokens (h : Relisted text text') (hts : tokens text = some ts) :
    ∃ us, Json.tokens text' = some us ∧ Token.Relisted ts us := by
  induction h generalizing ts with
  | nil =>
    obtain rfl : [] = ts := by rwa [Json.tokens, Option.some.injEq] at hts
    exact ⟨[], by rw [Json.tokens], .nil⟩
  | blank hc _ ih =>
    rw [tokens_blank hc] at hts ⊢
    exact ih hts
  | token hc hnext hab ih =>
    rw [tokens_of_next hc hnext] at hts
    obtain ⟨more, hmore, rfl⟩ := Option.map_eq_some_iff.1 hts
    obtain ⟨us, hus, hrel⟩ := ih hmore
    obtain ⟨front, hfront, hswap⟩ := looksOnce_token hnext
    obtain rfl := List.append_cancel_right hfront
    refine ⟨_ :: us, ?_, .token hrel⟩
    rw [tokens_of_next hc (hswap _ hab.sameHead), hus]
    rfl
  | empty hgap hgap' hab ih =>
    rw [tokens_of_next rfl rfl, tokens_gap hgap, tokens_of_next rfl rfl, Option.map_map] at hts
    obtain ⟨more, hmore, rfl⟩ := Option.map_eq_some_iff.1 hts
    obtain ⟨us, hus, hrel⟩ := ih hmore
    refine ⟨.openBracket :: .closeBracket :: us, ?_, .empty hrel⟩
    rw [tokens_of_next rfl rfl, tokens_gap hgap', tokens_of_next rfl rfl, hus]
    rfl

/-- **Any of the empty objects may be chosen**: whatever tokens result, there is a text with them. -/
theorem exists_relisted (hts : tokens text = some ts) (h : Token.Relisted ts us) :
    ∃ text', Relisted text text' ∧ tokens text' = some us := by
  induction hn : text.length using Nat.strong_induction_on generalizing text ts us with
  | _ n ih =>
    subst hn
    cases text with
    | nil =>
      obtain rfl : [] = ts := by rwa [tokens, Option.some.injEq] at hts
      cases h
      exact ⟨[], .nil, by rw [tokens]⟩
    | cons c rest =>
      cases hblank : isBlank c with
      | true =>
        rw [tokens_blank hblank] at hts
        obtain ⟨text', hrel, htext'⟩ := ih _ (Nat.lt_succ_self _) hts h rfl
        exact ⟨c :: text', .blank hblank hrel, by rw [tokens_blank hblank, htext']⟩
      | false =>
        obtain ⟨t, after, more, hnext, hmore, rfl⟩ := exists_next hblank hts
        obtain ⟨front, rfl, hswap⟩ := looksOnce_token hnext
        cases h with
        | token h =>
          obtain ⟨after', hrel, hafter'⟩ := ih _ (by simp) hmore h rfl
          refine ⟨c :: (front ++ after'), .token hblank hnext hrel, ?_⟩
          rw [tokens_of_next hblank (hswap _ hrel.sameHead), hafter']
          rfl
        | empty h =>
          obtain ⟨hfront, rfl⟩ := eq_of_next_brace (.inl rfl) hnext
          obtain ⟨gap, behind, rfl, hgap, hbehind⟩ := exists_gap hmore
          obtain ⟨behind', hrel, hbehind'⟩ := ih _ (by simp; omega) hbehind h rfl
          refine ⟨'[' :: ']' :: behind', ?_, ?_⟩
          · rw [if_pos rfl, hfront]
            exact @Relisted.empty gap [] behind behind' hgap rfl hrel
          · rw [tokens_of_next rfl rfl, tokens_of_next rfl rfl, hbehind']
            rfl

/-! ### Values -/

mutual

/-- The second value is the first with some of its empty objects as empty lists. -/
inductive Value.Relisted : Value → Value → Prop
  | same (v : Value) : Value.Relisted v v
  | empty : Value.Relisted (.object []) (.array [])
  | array {a b : List Value} : List.Forall₂ Value.Relisted a b → Value.Relisted (.array a) (.array b)
  | object {a b : Fields} : List.Forall₂ RelistedField a b → Value.Relisted (.object a) (.object b)

inductive RelistedField : Option String × Value → Option String × Value → Prop
  | mk (k : Option String) {v w : Value} : Value.Relisted v w → RelistedField (k, v) (k, w)

end

inductive Open.Relisted : Open → Open → Prop
  | array {a b : List Value} : List.Forall₂ Value.Relisted a b → Open.Relisted (.array a) (.array b)
  | object {a b : Fields} : List.Forall₂ RelistedField a b → Open.Relisted (.object a) (.object b)
  | pair (k : Option String) {a b : Fields} : List.Forall₂ RelistedField a b → Open.Relisted (.pair k a) (.pair k b)

/-- Readers that are at the same place of such values. -/
inductive Reader.Relisted : Reader → Reader → Prop
  | value {s s' : List Open} : List.Forall₂ Open.Relisted s s' → Reader.Relisted (.value s) (.value s')
  | itemOrClose {s s' : List Open} : List.Forall₂ Open.Relisted s s' → Reader.Relisted (.itemOrClose s) (.itemOrClose s')
  | keyOrClose {s s' : List Open} : List.Forall₂ Open.Relisted s s' → Reader.Relisted (.keyOrClose s) (.keyOrClose s')
  | key {a b : Fields} {s s' : List Open} : List.Forall₂ RelistedField a b → List.Forall₂ Open.Relisted s s' →
      Reader.Relisted (.key a s) (.key b s')
  | colon (k : Option String) {a b : Fields} {s s' : List Open} : List.Forall₂ RelistedField a b →
      List.Forall₂ Open.Relisted s s' → Reader.Relisted (.colon k a s) (.colon k b s')
  | commaOrClose {s s' : List Open} : List.Forall₂ Open.Relisted s s' → Reader.Relisted (.commaOrClose s) (.commaOrClose s')
  | done {v w : Value} : v.Relisted w → Reader.Relisted (.done v) (.done w)

namespace Reader

variable {r r' q : Reader} {s s' : List Open} {t : Token}

theorem relisted_deliver (hv : v.Relisted w) (hs : List.Forall₂ Open.Relisted s s') :
    Reader.Relisted (deliver v s) (deliver w s') := by
  cases hs with
  | nil => exact .done hv
  | cons htop hrest =>
    cases htop with
    | array hitems => exact .commaOrClose (.cons (.array (.cons hv hitems)) hrest)
    | object hfields => exact .commaOrClose (.cons (.object hfields) hrest)
    | pair k hfields => exact .commaOrClose (.cons (.object (.cons (.mk k hv) hfields)) hrest)

theorem relisted_begin (hs : List.Forall₂ Open.Relisted s s') (h : begin? s t = some q) :
    ∃ q', begin? s' t = some q' ∧ q.Relisted q' := by
  cases t with
  | openBrace =>
    obtain rfl := Option.some.inj h
    exact ⟨_, rfl, .keyOrClose hs⟩
  | openBracket =>
    obtain rfl := Option.some.inj h
    exact ⟨_, rfl, .itemOrClose hs⟩
  | null | truth | number | string =>
    obtain rfl := Option.some.inj h
    exact ⟨_, rfl, relisted_deliver (.same _) hs⟩
  | closeBrace | closeBracket | comma | colon => cases h

theorem relisted_step (hr : r.Relisted r') (h : r.step t = some q) : ∃ q', r'.step t = some q' ∧ q.Relisted q' := by
  cases hr with
  | value hs => exact relisted_begin hs h
  | itemOrClose hs =>
    by_cases ht : t = .closeBracket
    · subst ht
      obtain rfl := Option.some.inj h
      exact ⟨_, rfl, relisted_deliver (.same _) hs⟩
    · have hstep : ∀ s, (itemOrClose s).step t = begin? (.array [] :: s) t := fun s => by
        cases t <;> first | rfl | exact absurd rfl ht
      rw [hstep] at h ⊢
      exact relisted_begin (.cons (.array .nil) hs) h
  | keyOrClose hs =>
    cases t with
    | closeBrace =>
      obtain rfl := Option.some.inj h
      exact ⟨_, rfl, relisted_deliver (.same _) hs⟩
    | string k =>
      obtain rfl := Option.some.inj h
      exact ⟨_, rfl, .colon k .nil hs⟩
    | _ => cases h
  | key hfields hs =>
    cases t with
    | string k =>
      obtain rfl := Option.some.inj h
      exact ⟨_, rfl, .colon k hfields hs⟩
    | _ => cases h
  | colon k hfields hs =>
    cases t with
    | colon =>
      obtain rfl := Option.some.inj h
      exact ⟨_, rfl, .value (.cons (.pair k hfields) hs)⟩
    | _ => cases h
  | commaOrClose hs =>
    cases hs with
    | nil => cases h
    | cons htop hrest =>
      cases htop with
      | array hitems =>
        cases t with
        | comma =>
          obtain rfl := Option.some.inj h
          exact ⟨_, rfl, .value (.cons (.array hitems) hrest)⟩
        | closeBracket =>
          obtain rfl := Option.some.inj h
          exact ⟨_, rfl, relisted_deliver (.array (List.rel_reverse hitems)) hrest⟩
        | _ => cases h
      | object hfields =>
        cases t with
        | comma =>
          obtain rfl := Option.some.inj h
          exact ⟨_, rfl, .key hfields hrest⟩
        | closeBrace =>
          obtain rfl := Option.some.inj h
          exact ⟨_, rfl, relisted_deliver (.object (List.rel_reverse hfields)) hrest⟩
        | _ => cases h
      | pair => cases h
  | done => cases h

/-- An empty object may stand where a value may, and so may an empty list. -/
theorem relisted_empty (hr : r.Relisted r') (h : r.run [.openBrace, .closeBrace] = some q) :
    ∃ q', r'.run [.openBracket, .closeBracket] = some q' ∧ q.Relisted q' := by
  cases hr with
  | value hs =>
    obtain rfl := Option.some.inj h
    exact ⟨_, rfl, relisted_deliver .empty hs⟩
  | itemOrClose hs =>
    obtain rfl := Option.some.inj h
    exact ⟨_, rfl, relisted_deliver .empty (.cons (.array .nil) hs)⟩
  | commaOrClose hs =>
    cases hs with
    | nil => cases h
    | cons htop => cases htop <;> cases h
  | keyOrClose | key | colon | done => cases h

theorem run_cons (r : Reader) (t : Token) (rest : List Token) : r.run (t :: rest) = (r.step t).bind (·.run rest) := by
  rw [run]
  cases r.step t <;> rfl

theorem relisted_run (hr : r.Relisted r') (hts : Token.Relisted ts us) (h : r.run ts = some q) :
    ∃ q', r'.run us = some q' ∧ q.Relisted q' := by
  induction hts generalizing r r' with
  | nil =>
    obtain rfl := Option.some.inj h
    exact ⟨r', rfl, hr⟩
  | token _ ih =>
    rw [run_cons] at h
    obtain ⟨mid, hstep, hrest⟩ := Option.bind_eq_some_iff.1 h
    obtain ⟨mid', hstep', hmid⟩ := relisted_step hr hstep
    rw [run_cons, hstep']
    exact ih hmid hrest
  | @empty ts us _ ih =>
    rw [show Token.openBrace :: .closeBrace :: ts = [.openBrace, .closeBrace] ++ ts from rfl, run_append] at h
    obtain ⟨mid, htwo, hrest⟩ := Option.bind_eq_some_iff.1 h
    obtain ⟨mid', htwo', hmid⟩ := relisted_empty hr htwo
    rw [show Token.openBracket :: .closeBracket :: us = [.openBracket, .closeBracket] ++ us from rfl, run_append, htwo']
    exact ih hmid hrest

end Reader

/-- **A text with empty lists for empty objects** is read as the value with empty lists for empty objects. -/
theorem Relisted.parse (h : Relisted text text') (hv : Json.parse text = some v) :
    ∃ w, Json.parse text' = some w ∧ v.Relisted w := by
  unfold Json.parse at hv
  split at hv
  · cases hv
  · rename_i ts hts
    split at hv
    · rename_i u hrun
      obtain rfl := Option.some.inj hv
      obtain ⟨us, hus, hrel⟩ := h.tokens hts
      obtain ⟨q, hrun', hq⟩ := Reader.relisted_run (.value .nil) hrel hrun
      cases hq with
      | done hw => exact ⟨_, by simp only [Json.parse, hus, hrun'], hw⟩
    · cases hv

end PluginShading.Json
