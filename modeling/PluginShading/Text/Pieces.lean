/-!
Dividing a text at a mark. `pieces` keeps empty pieces, so joining is its inverse (`join_pieces`).
-/
namespace PluginShading.Text

/-- The stretches between the occurrences of `mark`, the first and the last included. -/
def pieces (mark : Char) : List Char → List (List Char)
  | [] => [[]]
  | c :: rest =>
    if c = mark then [] :: pieces mark rest
    else match pieces mark rest with
      | [] => [[c]]
      | piece :: more => (c :: piece) :: more

def join (mark : Char) : List (List Char) → List Char
  | [] => []
  | [piece] => piece
  | piece :: more => piece ++ mark :: join mark more

theorem pieces_ne_nil (mark : Char) (s : List Char) : pieces mark s ≠ [] := by
  cases s with
  | nil => simp [pieces]
  | cons c rest =>
    simp only [pieces]
    split
    · simp
    · split <;> simp

theorem join_pieces (mark : Char) (s : List Char) : join mark (pieces mark s) = s := by
  induction s with
  | nil => rfl
  | cons c rest ih =>
    have hne := pieces_ne_nil mark rest
    simp only [pieces]
    split
    · rename_i hc
      cases hp : pieces mark rest with
      | nil => exact absurd hp hne
      | cons piece more => rw [hp] at ih; simp [join, ih, hc]
    · cases hp : pieces mark rest with
      | nil => exact absurd hp hne
      | cons piece more =>
        rw [hp] at ih
        cases more with
        | nil => simpa [join] using ih
        | cons second more => simpa [join] using ih

theorem not_mem_of_mem_pieces {mark : Char} {s piece : List Char} (h : piece ∈ pieces mark s) :
    mark ∉ piece := by
  induction s generalizing piece with
  | nil => simp [pieces] at h; simp [h]
  | cons c rest ih =>
    simp only [pieces] at h
    split at h
    · rcases List.mem_cons.1 h with rfl | h
      · simp
      · exact ih h
    · rename_i hc
      cases hp : pieces mark rest with
      | nil => exact absurd hp (pieces_ne_nil mark rest)
      | cons first more =>
        rw [hp] at h ih
        rcases List.mem_cons.1 h with rfl | h
        · simp [Ne.symm hc, ih List.mem_cons_self]
        · exact ih (List.mem_cons_of_mem first h)

theorem mem_of_mem_pieces {mark : Char} {s piece : List Char} (h : piece ∈ pieces mark s) :
    ∀ c ∈ piece, c ∈ s := by
  induction s generalizing piece with
  | nil =>
    obtain rfl := List.mem_singleton.1 h
    nofun
  | cons x rest ih =>
    intro c hc
    simp only [pieces] at h
    split at h
    · rcases List.mem_cons.1 h with rfl | h
      · cases hc
      · exact List.mem_cons_of_mem x (ih h c hc)
    · split at h
      · obtain rfl := List.mem_singleton.1 h
        obtain rfl := List.mem_singleton.1 hc
        exact List.mem_cons_self
      · rename_i first more hrest
        rcases List.mem_cons.1 h with rfl | h
        · rcases List.mem_cons.1 hc with rfl | hc
          · exact List.mem_cons_self
          · exact List.mem_cons_of_mem x (ih (hrest ▸ List.mem_cons_self) c hc)
        · exact List.mem_cons_of_mem x (ih (hrest ▸ List.mem_cons_of_mem first h) c hc)

/-- What is no mark stands in a piece. -/
theorem exists_mem_pieces {mark c : Char} {s : List Char} (h : c ∈ s) (hc : c ≠ mark) :
    ∃ piece ∈ pieces mark s, c ∈ piece := by
  induction s with
  | nil => cases h
  | cons x rest ih =>
    simp only [pieces]
    split
    · rename_i hx
      obtain ⟨piece, hpiece, hmem⟩ := ih ((List.mem_cons.1 h).resolve_left fun heq => hc (heq.trans hx))
      exact ⟨piece, List.mem_cons_of_mem _ hpiece, hmem⟩
    · split
      · rename_i hnil
        exact absurd hnil (pieces_ne_nil mark rest)
      · rename_i first more hrest
        rcases List.mem_cons.1 h with rfl | h
        · exact ⟨_, List.mem_cons_self, List.mem_cons_self⟩
        · obtain ⟨piece, hpiece, hmem⟩ := ih h
          rw [hrest] at hpiece
          rcases List.mem_cons.1 hpiece with rfl | hpiece
          · exact ⟨_, List.mem_cons_self, List.mem_cons_of_mem _ hmem⟩
          · exact ⟨piece, List.mem_cons_of_mem _ hpiece, hmem⟩

theorem pieces_append (mark : Char) (a b : List Char) :
    pieces mark (a ++ mark :: b) = pieces mark a ++ pieces mark b := by
  induction a with
  | nil => simp [pieces]
  | cons c rest ih =>
    by_cases hc : c = mark
    · simp [pieces, hc, ih]
    · simp only [List.cons_append, pieces, if_neg hc, ih]
      cases hp : pieces mark rest with
      | nil => exact absurd hp (pieces_ne_nil mark rest)
      | cons piece more => rfl

theorem pieces_of_not_mem {mark : Char} {s : List Char} (h : mark ∉ s) : pieces mark s = [s] := by
  induction s with
  | nil => rfl
  | cons c rest ih =>
    rw [List.mem_cons, not_or] at h
    simp [pieces, Ne.symm h.1, ih h.2]

/-- Pieces that are joined are found again. -/
theorem pieces_join {mark : Char} {ps : List (List Char)} (hne : ps ≠ []) (hfree : ∀ piece ∈ ps, mark ∉ piece) :
    pieces mark (join mark ps) = ps := by
  induction ps with
  | nil => contradiction
  | cons piece rest ih =>
    obtain ⟨hpiece, hrest⟩ := List.forall_mem_cons.1 hfree
    cases rest with
    | nil => exact pieces_of_not_mem hpiece
    | cons second more =>
      show pieces mark (piece ++ mark :: join mark (second :: more)) = _
      rw [pieces_append, pieces_of_not_mem hpiece, ih (List.cons_ne_nil _ _) hrest]
      rfl

end PluginShading.Text
