import Mathlib.Data.List.Induction
import PluginShading.Files.Tree

/-!
Trees of files that a disk can hold.

A tree is `Sound` when every entry lies in a directory and goes by a name. The elementary changes keep it
so: what is set lies in a directory (`Sound.set`), and what is erased leaves nothing below it
(`Sound.erase`, `Sound.eraseBelow`).
-/
namespace PluginShading.Files

/-- What an entry can be called in its directory. -/
def isName (name : String) : Bool :=
  name ≠ "" && !name.toList.contains '/' && name ≠ "." && name ≠ ".."

/-! ### Places -/

theorem ne_append_singleton (p : Place) (name : String) : p ≠ p ++ [name] := by
  intro h
  simpa using congrArg List.length h

theorem append_singleton_ne_nil (p : Place) (name : String) : p ++ [name] ≠ [] := by simp

theorem below_append_singleton (p : Place) (name : String) : Below p (p ++ [name]) :=
  ⟨List.prefix_append p [name], ne_append_singleton p name⟩

theorem below_append (p : Place) {rest : Place} (h : rest ≠ []) : Below p (p ++ rest) :=
  ⟨List.prefix_append p rest, fun heq => h (List.append_cancel_left ((List.append_nil p).trans heq)).symm⟩

theorem Below.exists_append {p q : Place} (h : Below p q) : ∃ rest, rest ≠ [] ∧ q = p ++ rest := by
  obtain ⟨⟨rest, rfl⟩, hne⟩ := h
  exact ⟨rest, fun hnil => hne (by rw [hnil, List.append_nil]), rfl⟩

theorem Below.append_singleton {p q : Place} (h : Below p q) (name : String) :
    Below p (q ++ [name]) := by
  refine ⟨h.1.trans (List.prefix_append q [name]), ?_⟩
  rintro rfl
  have hlength := h.1.length_le
  rw [List.length_append, List.length_singleton] at hlength
  omega

/-- What is below a place is at or below an entry of it. -/
theorem eq_or_below {p q : Place} (h : p <+: q) : q = p ∨ Below p q := by
  by_cases hq : q = p
  · exact .inl hq
  · exact .inr ⟨h, fun h => hq h.symm⟩

namespace Tree

variable {t : Tree} {p q : Place}

/-! ### Looking up -/

@[simp] theorem get?_nil (t : Tree) : t.get? [] = some .directory := by simp [get?]

theorem get?_set (t : Tree) {p : Place} (hp : p ≠ []) (e : Entry) (q : Place) :
    (t.set p e).get? q = if q = p then some e else t.get? q := by
  split
  · rename_i h
    rw [h, get?_set_self t e hp]
  · exact get?_set_of_ne t e ‹_›

theorem get?_erase (t : Tree) {p : Place} (hp : p ≠ []) (q : Place) :
    (t.erase p).get? q = if q = p then none else t.get? q := by
  split
  · rename_i h
    rw [h, get?_erase_self t hp]
  · exact get?_erase_of_ne t ‹_›

theorem lookup_filter (entries : List (Place × Entry)) (keep : Place → Bool) (q : Place) :
    (entries.filter fun e => keep e.1).lookup q = if keep q then entries.lookup q else none := by
  induction entries with
  | nil => simp
  | cons e rest ih =>
    obtain ⟨at_, entry⟩ := e
    by_cases hq : q = at_
    · subst hq
      cases hk : keep q with
      | true => simp [hk]
      | false => simp [hk, ih]
    · have hne : (q == at_) = false := by simpa using hq
      cases hk : keep at_ with
      | true => rw [List.filter_cons_of_pos (by simp [hk]), List.lookup_cons, List.lookup_cons, hne, ih]
      | false => rw [List.filter_cons_of_neg (by simp [hk]), ih, List.lookup_cons, hne]

theorem get?_eraseBelow (t : Tree) (p q : Place) :
    (t.eraseBelow p).get? q = if Below p q then none else t.get? q := by
  by_cases hq : q = []
  · subst hq
    have hnot : ¬ Below p [] := fun h => h.2 (List.prefix_nil.1 h.1)
    simp [hnot]
  · have := lookup_filter t.entries (fun at_ => decide ¬ Below p at_) q
    simp only [get?, hq, if_false, eraseBelow, this]
    by_cases hb : Below p q <;> simp [hb]

/-- What is in a tree from which something was erased was there before. -/
theorem get?_of_erase {e : Entry} (h : (t.erase p).get? q = some e) : t.get? q = some e := by
  by_cases hq : q = []
  · rw [hq, get?_nil] at h ⊢
    exact h
  · have hlookup := lookup_filter t.entries (fun at_ => decide (at_ ≠ p)) q
    simp only [get?, hq, if_false, erase, hlookup] at h ⊢
    split at h
    · exact h
    · cases h

theorem get?_of_eraseBelow {e : Entry} (h : (t.eraseBelow p).get? q = some e) : t.get? q = some e := by
  rw [get?_eraseBelow] at h
  split at h
  · cases h
  · exact h

/-- What is listed in a tree is somewhere in it. -/
theorem get?_of_mem {at_ : Place} {entry : Entry} (h : (at_, entry) ∈ t.entries) :
    ∃ e, t.get? at_ = some e := by
  by_cases hp : at_ = []
  · exact ⟨.directory, by simp [get?, hp]⟩
  · cases hl : t.entries.lookup at_ with
    | some e => exact ⟨e, by simp [get?, hp, hl]⟩
    | none =>
      rw [List.lookup_eq_none_iff] at hl
      simpa using hl _ h

/-! ### Sound trees -/

/-- Every entry lies in a directory and goes by a name. -/
structure Sound (t : Tree) : Prop where
  parent : ∀ p name e, t.get? (p ++ [name]) = some e → t.get? p = some .directory
  named : ∀ p name e, t.get? (p ++ [name]) = some e → isName name = true

/-- It is enough to look at what is listed. -/
theorem sound_iff : t.Sound ↔ ∀ e ∈ t.entries, e.1 = [] ∨
    t.get? e.1.dropLast = some .directory ∧ isName (e.1.getLastD "") = true := by
  constructor
  · rintro h ⟨at_, entry⟩ hmem
    rcases List.eq_nil_or_concat at_ with rfl | ⟨p, name, rfl⟩
    · exact .inl rfl
    · rw [List.concat_eq_append] at hmem ⊢
      obtain ⟨e, hget⟩ := get?_of_mem hmem
      refine .inr ?_
      simpa using And.intro (h.parent p name e hget) (h.named p name e hget)
  · intro h
    have hlisted : ∀ p name e, t.get? (p ++ [name]) = some e →
        t.get? p = some .directory ∧ isName name = true := by
      intro p name e hget
      rw [get?, if_neg (append_singleton_ne_nil p name)] at hget
      obtain ⟨before, after, hentries, -⟩ := List.lookup_eq_some_iff.1 hget
      have hmem : (p ++ [name], e) ∈ t.entries := by
        rw [hentries]
        exact List.mem_append_right _ List.mem_cons_self
      simpa using (h _ hmem).resolve_left (append_singleton_ne_nil p name)
    exact ⟨fun p name e hget => (hlisted p name e hget).1, fun p name e hget => (hlisted p name e hget).2⟩

instance : Decidable t.Sound := decidable_of_iff _ sound_iff.symm

namespace Sound

/-- What lies below an entry lies below a directory. -/
theorem directory_of_below (h : t.Sound) {e : Entry} (hq : t.get? q = some e) (hb : Below p q) :
    t.get? p = some .directory := by
  obtain ⟨rest, rfl⟩ := hb.1
  induction rest using List.reverseRecOn generalizing e with
  | nil => exact absurd (List.append_nil p).symm hb.2
  | append_singleton rest name ih =>
    rw [← List.append_assoc] at hq
    have hparent := h.parent _ _ _ hq
    by_cases hrest : rest = []
    · rwa [hrest, List.append_nil] at hparent
    · exact ih hparent ⟨List.prefix_append p rest, by simpa using fun h => hrest h⟩

/-- What lies on the way to an entry is the entry itself or a directory. -/
theorem eq_or_directory (h : t.Sound) {e : Entry} (hq : t.get? q = some e) (hp : p <+: q) :
    p = q ∨ t.get? p = some .directory :=
  (eq_or_below hp).imp Eq.symm (h.directory_of_below hq)

theorem directory_of_prefix (h : t.Sound) (hq : t.get? q = some .directory) (hp : p <+: q) :
    t.get? p = some .directory :=
  (h.eq_or_directory hq hp).elim (fun heq => heq ▸ hq) id

theorem exists_of_prefix (h : t.Sound) {e : Entry} (hq : t.get? q = some e) (hp : p <+: q) :
    ∃ e, t.get? p = some e :=
  (h.eq_or_directory hq hp).elim (fun heq => ⟨e, heq ▸ hq⟩) fun hdir => ⟨_, hdir⟩

/-- Every entry but the root lies by a name in a directory. -/
theorem exists_parent (h : t.Sound) {e : Entry} (hget : t.get? p = some e) (hp : p ≠ []) :
    ∃ parent name, p = parent ++ [name] ∧ t.get? parent = some .directory ∧ isName name = true := by
  obtain ⟨parent, name, rfl⟩ := (List.eq_nil_or_concat p).resolve_left hp
  rw [List.concat_eq_append] at hget ⊢
  exact ⟨parent, name, rfl, h.parent _ _ _ hget, h.named _ _ _ hget⟩

/-- Where nothing is, nothing is below. -/
theorem none_of_prefix (h : t.Sound) (hp : t.get? p = none) (hq : p <+: q) : t.get? q = none := by
  rcases eq_or_below hq with rfl | hb
  · exact hp
  · cases hget : t.get? q with
    | none => rfl
    | some e =>
      rw [h.directory_of_below hget hb] at hp
      cases hp

/-- What is somewhere is led to by names. -/
theorem names (h : t.Sound) {rest : Place} {e : Entry} (hget : t.get? (p ++ rest) = some e) :
    ∀ n ∈ rest, isName n = true := by
  induction rest using List.reverseRecOn generalizing e with
  | nil => nofun
  | append_singleton front last ih =>
    rw [← List.append_assoc] at hget
    exact List.forall_mem_append.2 ⟨ih (h.parent _ _ _ hget), by simpa using h.named _ _ _ hget⟩

theorem set (h : t.Sound) {name : String} {e : Entry} (hp : t.get? p = some .directory)
    (hname : isName name = true) (hold : t.get? (p ++ [name]) = some .directory → e = .directory) :
    (t.set (p ++ [name]) e).Sound := by
  have hne := append_singleton_ne_nil p name
  constructor
  · intro q child entry hq
    rw [get?_set t hne] at hq ⊢
    have hparent : t.get? q = some .directory := by
      split at hq
      · rename_i heq
        rw [(List.append_inj' heq rfl).1]
        exact hp
      · exact h.parent q child entry hq
    split
    · rename_i heq
      rw [heq] at hparent
      rw [hold hparent]
    · exact hparent
  · intro q child entry hq
    rw [get?_set t hne] at hq
    split at hq
    · rename_i heq
      obtain rfl : child = name := by simpa using (List.append_inj' heq rfl).2
      exact hname
    · exact h.named q child entry hq

theorem eraseBelow (h : t.Sound) (p : Place) : (t.eraseBelow p).Sound := by
  constructor
  · intro q name entry hq
    rw [get?_eraseBelow] at hq ⊢
    split at hq
    · cases hq
    · rename_i hnot
      rw [if_neg fun hb => hnot (hb.append_singleton name)]
      exact h.parent q name entry hq
  · intro q name entry hq
    rw [get?_eraseBelow] at hq
    split at hq
    · cases hq
    · exact h.named q name entry hq

/-- Nothing is left without its directory where nothing is below what goes. -/
theorem erase (h : t.Sound) (hp : p ≠ []) (hbelow : ∀ name, t.get? (p ++ [name]) = none) :
    (t.erase p).Sound := by
  constructor
  · intro q name entry hq
    rw [get?_erase t hp] at hq ⊢
    split at hq
    · cases hq
    · split
      · rename_i heq
        rw [heq, hbelow] at hq
        cases hq
      · exact h.parent q name entry hq
  · intro q name entry hq
    rw [get?_erase t hp] at hq
    split at hq
    · cases hq
    · exact h.named q name entry hq

end Sound

end Tree

end PluginShading.Files
