import Mathlib
import PluginShading.Proofs.Source.Machine

/-!
Braces of tokens, and what the lexer counts of them.

In an interpolation the lexer counts the braces that are open, to see where it ends. The count follows the
braces of code (`counts_code`), but it misses the mark `$\x7b` of an interpolation further in, whose closing
brace it counts. `Settles` says what becomes of the braces and of the count behind tokens that close what is open, and
how this is put together: a token in front (`Settles.cons`, `Settles.dollar`), and tokens that close what they
open (`Settles.append`).
-/
namespace PluginShading.Source

/-! ### Counting braces -/

/-- Braces opened less braces closed. -/
def braces (ts : List Token) : Int := (ts.map Token.braceDelta).sum

@[simp] theorem braces_nil : braces [] = 0 := rfl

@[simp] theorem braces_cons (t : Token) (ts : List Token) : braces (t :: ts) = t.braceDelta + braces ts :=
  List.sum_cons

@[simp] theorem braces_append (a b : List Token) : braces (a ++ b) = braces a + braces b := by
  simp [braces]

/-- The mark that opens an interpolation and counts for no other. -/
def Token.isDollarBrace (t : Token) : Bool := t.isPunctuation ['$', '{']

/-- What a token makes of the braces that are open in an interpolation, as the lexer counts them. -/
def Token.count (t : Token) (n : Nat) : Nat :=
  if t.isPunctuation ['{'] then n + 1 else if t.isPunctuation ['}'] then n - 1 else n

/-- What tokens make of them. -/
def tally (ts : List Token) (n : Nat) : Nat := ts.foldl (fun n t => t.count n) n

@[simp] theorem tally_nil (n : Nat) : tally [] n = n := rfl

@[simp] theorem tally_cons (t : Token) (ts : List Token) (n : Nat) :
    tally (t :: ts) n = tally ts (t.count n) := rfl

@[simp] theorem tally_append (a b : List Token) (n : Nat) : tally (a ++ b) n = tally b (tally a n) :=
  List.foldl_append

theorem Token.count_mono (t : Token) {n k : Nat} (h : n ≤ k) : t.count n ≤ t.count k := by
  unfold Token.count
  split
  · omega
  · split <;> omega

theorem tally_mono (ts : List Token) {n k : Nat} (h : n ≤ k) : tally ts n ≤ tally ts k := by
  induction ts generalizing n k with
  | nil => exact h
  | cons t rest ih => exact ih (t.count_mono h)

theorem Token.count_add_le (t : Token) (n y : Nat) : t.count (n + y) ≤ t.count n + y := by
  unfold Token.count
  split
  · omega
  · split <;> omega

/-- Counted from further up, the count ends at most as much further up. -/
theorem tally_add_le (ts : List Token) (n y : Nat) : tally ts (n + y) ≤ tally ts n + y := by
  induction ts generalizing n with
  | nil => exact le_rfl
  | cons t rest ih => exact (tally_mono rest (t.count_add_le n y)).trans (ih _)

theorem Token.count_of_kind {t : Token} (hk : t.kind ≠ .punctuation) (n : Nat) : t.count n = n := by
  simp [Token.count, Token.isPunctuation, hk]

theorem Token.braceDelta_of_kind {t : Token} (hk : t.kind ≠ .punctuation) : t.braceDelta = 0 := by
  unfold Token.braceDelta
  split
  · contradiction
  · rfl

theorem Token.isDollarBrace_of_kind {t : Token} (hk : t.kind ≠ .punctuation) : t.isDollarBrace = false := by
  simp [Token.isDollarBrace, Token.isPunctuation, hk]

/-! ### Braces of tokens that close a level -/

/-- The tokens close the `lift` braces that are open. No beginning of them closes more. A count that was `y`
above the open braces ends at `y` or lower: at `y` if all marks are counted, lower if one is not and all
braces are closed nevertheless. -/
structure Settles (lift : Nat) (ts : List Token) : Prop where
  front : ∀ front back, ts = front ++ back → 0 ≤ lift + braces front
  tally_le : ∀ y, tally ts (lift + y) ≤ y
  tally_lt : lift + braces ts = 0 → (∃ t ∈ ts, t.isDollarBrace = true) →
    ∀ y, 0 < y → tally ts (lift + y) < y
  tally_eq : (∀ t ∈ ts, t.isDollarBrace = false) → ∀ y, tally ts (lift + y) = y

namespace Settles

variable {lift lift' : Nat} {t : Token} {ts us : List Token}

theorem nil : Settles 0 [] where
  front front back h := by simp [(List.nil_eq_append_iff.1 h).1]
  tally_le y := by simp
  tally_lt _ h := by simp at h
  tally_eq _ y := by simp

theorem total (h : Settles lift ts) : 0 ≤ lift + braces ts := h.front ts [] (List.append_nil ts).symm

/-- A token in front that counts for all that is open. -/
theorem cons (h : Settles lift' ts) (hdelta : (lift' : Int) = lift + t.braceDelta)
    (hcount : ∀ y, t.count (lift + y) = lift' + y) (ht : t.isDollarBrace = false) : Settles lift (t :: ts) where
  front front back hsplit := by
    rcases List.cons_eq_append_iff.1 hsplit with ⟨rfl, -⟩ | ⟨more, rfl, hmore⟩
    · simp
    · have := h.front more back hmore
      rw [braces_cons]
      omega
  tally_le y := by
    rw [tally_cons, hcount]
    exact h.tally_le y
  tally_lt hzero hmark y hy := by
    rw [tally_cons, hcount]
    refine h.tally_lt ?_ ?_ y hy
    · rw [braces_cons] at hzero
      omega
    · simpa [ht] using hmark
  tally_eq hfree y := by
    rw [tally_cons, hcount]
    exact h.tally_eq (fun u hu => hfree u (List.mem_cons_of_mem t hu)) y

/-- A mark in front that opens an interpolation and is not counted. -/
theorem dollar (h : Settles 1 ts) (hdelta : t.braceDelta = 1) (hcount : ∀ n, t.count n = n)
    (ht : t.isDollarBrace = true) : Settles 0 (t :: ts) where
  front front back hsplit := by
    rcases List.cons_eq_append_iff.1 hsplit with ⟨rfl, -⟩ | ⟨more, rfl, hmore⟩
    · simp
    · have := h.front more back hmore
      rw [braces_cons]
      omega
  tally_le y := by
    rw [tally_cons, hcount]
    exact (tally_mono ts (by omega)).trans (h.tally_le y)
  tally_lt _ _ y hy := by
    obtain ⟨z, rfl⟩ := Nat.exists_eq_succ_of_ne_zero hy.ne'
    rw [tally_cons, hcount, Nat.zero_add, Nat.succ_eq_one_add]
    have := h.tally_le z
    omega
  tally_eq hfree := by
    have := hfree t List.mem_cons_self
    rw [ht] at this
    cases this

/-- A literal or an interpolation in front, which closes what it opens and may lower the count. -/
theorem append (h : Settles 0 ts) (h' : Settles lift' us) (hle : lift' ≤ lift)
    (hcount : ∀ y, tally ts (lift + y) ≤ lift' + y)
    (hfree : (∀ t ∈ ts, t.isDollarBrace = false) → lift' = lift) : Settles lift (ts ++ us) where
  front front back hsplit := by
    have htotal := h.total
    rcases List.append_eq_append_iff.1 hsplit with ⟨more, rfl, hmore⟩ | ⟨more, hmore, -⟩
    · have := h'.front more back hmore
      rw [braces_append]
      omega
    · have := h.front front more hmore
      omega
  tally_le y := by
    rw [tally_append]
    exact (tally_mono us (hcount y)).trans (h'.tally_le y)
  tally_lt hzero hmark y hy := by
    have htotal := h.total
    have htotal' := h'.total
    rw [braces_append] at hzero
    rw [tally_append]
    obtain ⟨t, ht, hmark⟩ := hmark
    rcases List.mem_append.1 ht with ht | ht
    · have hlow := h.tally_lt (by omega) ⟨t, ht, hmark⟩ (lift + y) (by omega)
      rw [Nat.zero_add] at hlow
      have hend := (tally_mono us (show tally ts (lift + y) ≤ lift' + (y - 1) by omega)).trans (h'.tally_le _)
      omega
    · exact (tally_mono us (hcount y)).trans_lt (h'.tally_lt (by omega) ⟨t, ht, hmark⟩ y hy)
  tally_eq hall y := by
    have hts := fun t ht => hall t (List.mem_append_left us ht)
    have heven := h.tally_eq hts (lift + y)
    rw [Nat.zero_add] at heven
    rw [tally_append, heven, ← hfree hts]
    exact h'.tally_eq (fun t ht => hall t (List.mem_append_right ts ht)) y

end Settles

/-! ### Levels behind tokens -/

/-- The level behind tokens that leave it open. -/
def Level.behind (ts : List Token) (level : Level) : Level := ts.foldl (fun level t => level.count t) level

/-- The braces that are open in the level, with the one that closes it. -/
def Level.lift : Level → Nat
  | .interpolation depth _ => depth + 1
  | _ => 0

namespace Level

@[simp] theorem behind_nil (level : Level) : level.behind [] = level := rfl

@[simp] theorem behind_cons (t : Token) (ts : List Token) (level : Level) :
    level.behind (t :: ts) = (level.count t).behind ts := rfl

@[simp] theorem behind_append (a b : List Token) (level : Level) :
    level.behind (a ++ b) = (level.behind a).behind b := List.foldl_append

theorem map_behind_cons (t : Token) (ts : List Token) (levels : List Level) :
    (levels.map (Level.count t)).map (behind ts) = levels.map (behind (t :: ts)) :=
  List.map_map

theorem count_interpolation (t : Token) (depth line : Nat) :
    (interpolation depth line).count t = interpolation (t.count depth) line := by
  simp only [Level.count, Token.count]
  repeat' split
  all_goals rfl

theorem behind_interpolation (ts : List Token) (depth line : Nat) :
    (interpolation depth line).behind ts = interpolation (tally ts depth) line := by
  induction ts generalizing depth with
  | nil => rfl
  | cons t rest ih => rw [behind_cons, count_interpolation, ih, tally_cons]

theorem count_of_isLiteral {level : Level} (h : level.isLiteral = true) (t : Token) : level.count t = level := by
  cases level <;> first | rfl | cases h

theorem behind_of_isLiteral {level : Level} (h : level.isLiteral = true) (ts : List Token) :
    level.behind ts = level := by
  induction ts with
  | nil => rfl
  | cons t rest ih => rw [behind_cons, count_of_isLiteral h, ih]

theorem lift_of_isLiteral {level : Level} (h : level.isLiteral = true) : level.lift = 0 := by
  cases level <;> first | rfl | cases h

end Level

/-! ### Tokens of code -/

theorem readCode_counts {last : Option Token} {line : Nat} {c : Char} {rest : List Char} {r : Reading}
    (h : readCode last line c rest = .ok r) :
    r.token.kind ≠ .punctuation ∨ r.token = ⟨.punctuation, [c]⟩ := by
  rcases readCode_cases h with ⟨-, rfl⟩ | ⟨-, -, rfl⟩ | ht | hk
  · left
    rcases readWord_kind last (c :: rest) with hk | ⟨word, hk⟩
    · intro hp
      simp [hp] at hk
    · simp [hk]
  · exact .inl nofun
  · exact .inr ht
  · left
    intro hp
    simp [hp] at hk

theorem isDollarBrace_of_readCode {last : Option Token} {line : Nat} {c : Char} {rest : List Char} {r : Reading}
    (h : readCode last line c rest = .ok r) : r.token.isDollarBrace = false := by
  rcases readCode_counts h with hk | ht
  · exact Token.isDollarBrace_of_kind hk
  · rw [ht]
    simp [Token.isDollarBrace, Token.isPunctuation]

/-- A token of code counts for all that is open as it counts for braces. -/
theorem counts_code {t : Token} (depth : Nat)
    (ht : t.kind ≠ .punctuation ∨ ∃ c, t = ⟨.punctuation, [c]⟩ ∧ (depth = 0 → c ≠ '}')) :
    (t.count depth : Int) = depth + t.braceDelta ∧ ∀ y, t.count (depth + 1 + y) = t.count depth + 1 + y := by
  rcases ht with hk | ⟨c, rfl, hc⟩
  · simp [Token.count_of_kind hk, Token.braceDelta_of_kind hk]
  by_cases hopen : c = '{'
  · subst hopen
    have hcount : ∀ n, (⟨.punctuation, ['{']⟩ : Token).count n = n + 1 := fun n => rfl
    have hdelta : (⟨.punctuation, ['{']⟩ : Token).braceDelta = 1 := rfl
    rw [hcount, hdelta]
    exact ⟨by omega, fun y => by rw [hcount]; omega⟩
  by_cases hclose : c = '}'
  · subst hclose
    have hdepth : depth ≠ 0 := fun hd => hc hd rfl
    have hcount : ∀ n, (⟨.punctuation, ['}']⟩ : Token).count n = n - 1 := fun n => rfl
    have hdelta : (⟨.punctuation, ['}']⟩ : Token).braceDelta = -1 := rfl
    rw [hcount, hdelta]
    exact ⟨by omega, fun y => by rw [hcount]; omega⟩
  · simp [Token.count, Token.isPunctuation, Token.braceDelta, hopen, hclose]

end PluginShading.Source
