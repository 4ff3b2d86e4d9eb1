import Mathlib.Data.List.Forall2
import PluginShading.World

/-!
What actions keep.

`Act.Ensures I a Q` says that `a` keeps `I` of the disk whether it succeeds or fails, and that `Q` is
true of what it returns. An action is put together from smaller ones, and what they all keep it keeps.
`Act.Yields a d Q` says that from the disk `d` it succeeds, with `Q` of what it returns and leaves.
`Act.KeepsTools a` says that it leaves the tools of the world as they are.
-/
namespace PluginShading.Act

open Files (Disk)

variable {α β : Type} {I : Disk → Prop} {Q : α → Prop} {R : β → Prop} {a : Act α}

/-- `a` keeps `I`, whatever its outcome, and returns nothing but what satisfies `Q`. -/
def Ensures (I : Disk → Prop) (a : Act α) (Q : α → Prop) : Prop :=
  ∀ w, I w.disk → I (a w).2.disk ∧ ∀ x, (a w).1 = .ok x → Q x

/-- `a` keeps `I`, whatever its outcome. -/
def Keeps (I : Disk → Prop) (a : Act α) : Prop := Ensures I a fun _ => True

theorem bind_apply (a : Act α) (f : α → Act β) (w : World) :
    (a >>= f) w = match a w with
      | (.ok x, w) => f x w
      | (.error e, w) => (.error e, w) := by
  show (match a w with | (x, w) => ExceptT.bindCont f x w) = _
  rcases a w with ⟨x | x, w⟩ <;> rfl

/-- A sequence that succeeds has succeeded in both parts. -/
theorem bind_eq_ok {f : α → Act β} {w w' : World} {y : β} (h : (a >>= f) w = (.ok y, w')) :
    ∃ x w₁, a w = (.ok x, w₁) ∧ f x w₁ = (.ok y, w') := by
  rw [bind_apply] at h
  cases hrun : a w with
  | mk outcome w₁ =>
    rw [hrun] at h
    cases outcome with
    | error e => cases h
    | ok x => exact ⟨x, w₁, rfl, h⟩

/-- A sequence that fails has failed in one of its parts. -/
theorem bind_eq_error {f : α → Act β} {w w' : World} {e : Failure} (h : (a >>= f) w = (.error e, w')) :
    a w = (.error e, w') ∨ ∃ x w₁, a w = (.ok x, w₁) ∧ f x w₁ = (.error e, w') := by
  rw [bind_apply] at h
  cases hrun : a w with
  | mk outcome w₁ =>
    rw [hrun] at h
    cases outcome with
    | error e =>
      cases h
      exact .inl rfl
    | ok x => exact .inr ⟨x, w₁, rfl, h⟩

theorem bind_of_ok {f : α → Act β} {w w₁ : World} {x : α} (h : a w = (.ok x, w₁)) :
    (a >>= f) w = f x w₁ := by
  rw [bind_apply, h]

theorem bind_of_error {f : α → Act β} {w w₁ : World} {e : Failure} (h : a w = (.error e, w₁)) :
    (a >>= f) w = (.error e, w₁) := by
  rw [bind_apply, h]

theorem eq_ok {w : World} {x : α} (h : (a w).1 = .ok x) : a w = (.ok x, (a w).2) := by
  rw [← h]
  rfl

theorem eq_error {w : World} {e : Failure} (h : (a w).1 = .error e) : a w = (.error e, (a w).2) := by
  rw [← h]
  rfl

theorem report_apply (severity : Severity) (message : String) (w : World) :
    report severity message w = (.ok (), {w with log := w.log ++ [⟨severity, message⟩]}) := rfl

theorem change_fails {note : Note} {step : Disk → Except Files.IoError Disk} {w w' : World} {f : Failure}
    (h : change note step w = (.error f, w')) : w' = w := by
  unfold change at h
  split at h <;> cases h
  rfl

/-- A random word changes the next one only. (The next one is kept from being computed.) -/
theorem exists_random (w : World) : ∃ seed, random w = (.ok w.seed, {w with seed := seed}) := ⟨_, rfl⟩

namespace Ensures

theorem weaken {Q' : α → Prop} (h : Ensures I a Q) (hQ : ∀ x, Q x → Q' x) : Ensures I a Q' :=
  fun w hw => ⟨(h w hw).1, fun x hx => hQ x ((h w hw).2 x hx)⟩

theorem keeps (h : Ensures I a Q) : Keeps I a := h.weaken fun _ _ => trivial

/-- Nothing is asked of an action. -/
theorem any (a : Act α) : Keeps (fun _ => True) a := fun _ _ => ⟨trivial, fun _ _ => trivial⟩

theorem pure {x : α} (hx : Q x) : Ensures I (Pure.pure x) Q := by
  intro w hw
  refine ⟨hw, fun y hy => ?_⟩
  obtain rfl : x = y := Except.ok.inj hy
  exact hx

theorem bind {f : α → Act β} (ha : Ensures I a Q) (hf : ∀ x, Q x → Ensures I (f x) R) :
    Ensures I (a >>= f) R := by
  intro w hw
  rw [bind_apply]
  obtain ⟨hkept, hreturned⟩ := ha w hw
  cases h : a w with
  | mk outcome w' =>
    rw [h] at hkept hreturned
    cases outcome with
    | error e => exact ⟨hkept, nofun⟩
    | ok x => exact hf x (hreturned x rfl) w' hkept

theorem fail {f : Failure} : Ensures I (Act.fail f : Act α) Q := fun _ hw => ⟨hw, nofun⟩

theorem ofExcept {ε : Type} {toFailure : ε → Failure} {x : Except ε α} (h : ∀ y, x = .ok y → Q y) :
    Ensures I (Act.ofExcept toFailure x) Q := by
  cases x with
  | error e => exact fail
  | ok y => exact pure (h y rfl)

theorem within {note : Note} (h : Ensures I a Q) : Ensures I (Act.within note a) Q := by
  intro w hw
  have ha := h w hw
  unfold Act.within
  cases hrun : a w with
  | mk outcome w' =>
    rw [hrun] at ha
    cases outcome with
    | error e => exact ⟨ha.1, nofun⟩
    | ok x => exact ha

/-- A question is about the disk as it is. -/
theorem ask {note : Note} {question : Disk → Except Files.IoError α}
    (h : ∀ d x, I d → question d = .ok x → Q x) : Ensures I (Act.ask note question) Q := by
  intro w hw
  unfold Act.ask
  split
  · rename_i x hx
    refine ⟨hw, fun y hy => ?_⟩
    obtain rfl : x = y := Except.ok.inj hy
    exact h w.disk x hw hx
  · exact ⟨hw, nofun⟩

theorem change {note : Note} {step : Disk → Except Files.IoError Disk}
    (h : ∀ d d', I d → step d = .ok d' → I d') : Ensures I (Act.change note step) fun _ => True := by
  intro w hw
  unfold Act.change
  split
  · rename_i d hd
    exact ⟨h w.disk d hw hd, fun _ _ => trivial⟩
  · exact ⟨hw, nofun⟩

theorem disk : Ensures I Act.disk I := by
  intro w hw
  refine ⟨hw, fun d hd => ?_⟩
  obtain rfl : w.disk = d := Except.ok.inj hd
  exact hw

theorem tools : Keeps I Act.tools := fun _ hw => ⟨hw, fun _ _ => trivial⟩

theorem report {severity : Severity} {message : String} : Keeps I (Act.report severity message) :=
  fun _ hw => ⟨hw, fun _ _ => trivial⟩

theorem reports {events : Log} : Keeps I (Act.reports events) := fun _ hw => ⟨hw, fun _ _ => trivial⟩

theorem random : Keeps I Act.random := by
  intro w hw
  obtain ⟨seed, hrandom⟩ := exists_random w
  rw [hrandom]
  exact ⟨hw, fun _ _ => trivial⟩

/-! ### Loops -/

variable {γ : Type}

theorem forM {f : γ → Act Unit} {l : List γ} (h : ∀ x ∈ l, Keeps I (f x)) : Keeps I (l.forM f) := by
  induction l with
  | nil =>
    show Keeps I (Pure.pure ())
    exact pure trivial
  | cons x rest ih =>
    show Keeps I (f x >>= fun _ => rest.forM f)
    refine bind (h x List.mem_cons_self) fun _ _ => ?_
    exact ih fun y hy => h y (List.mem_cons_of_mem x hy)

theorem foldlM {P : β → Prop} {f : β → γ → Act β} {l : List γ} {init : β} (hinit : P init)
    (h : ∀ x ∈ l, ∀ b, P b → Ensures I (f b x) P) : Ensures I (l.foldlM f init) P := by
  induction l generalizing init with
  | nil => exact pure hinit
  | cons x rest ih =>
    rw [List.foldlM_cons]
    refine bind (h x List.mem_cons_self init hinit) fun b hb => ?_
    exact ih hb fun y hy => h y (List.mem_cons_of_mem x hy)

theorem mapM {f : γ → Act β} {l : List γ} (h : ∀ x ∈ l, Ensures I (f x) R) :
    Ensures I (l.mapM f) fun ys => ∀ y ∈ ys, R y := by
  induction l with
  | nil =>
    rw [List.mapM_nil]
    exact pure nofun
  | cons x rest ih =>
    rw [List.mapM_cons]
    refine bind (h x List.mem_cons_self) fun y hy => ?_
    refine bind (ih fun z hz => h z (List.mem_cons_of_mem x hz)) fun ys hys => ?_
    refine pure fun z hz => ?_
    rcases List.mem_cons.1 hz with rfl | hz
    · exact hy
    · exact hys z hz

end Ensures

/-! ### Tools -/

/-- The tools are the same afterwards, whatever the outcome. -/
def KeepsTools (a : Act α) : Prop := ∀ w, (a w).2.tools = w.tools

namespace KeepsTools

theorem bind {f : α → Act β} (ha : KeepsTools a) (hf : ∀ x, KeepsTools (f x)) : KeepsTools (a >>= f) := by
  intro w
  rw [bind_apply]
  have hfirst := ha w
  cases h : a w with
  | mk outcome w' =>
    rw [h] at hfirst
    cases outcome with
    | error e => exact hfirst
    | ok x => exact (hf x w').trans hfirst

theorem random : KeepsTools Act.random := by
  intro w
  obtain ⟨seed, hrandom⟩ := exists_random w
  rw [hrandom]

theorem change {note : Note} {step : Disk → Except Files.IoError Disk} : KeepsTools (Act.change note step) := by
  intro w
  unfold Act.change
  split <;> rfl

end KeepsTools

/-! ### Success -/

/-- From the disk `d`, `a` succeeds, and `Q` is true of what it returns and the disk it leaves. -/
def Yields (a : Act α) (d : Disk) (Q : α → Disk → Prop) : Prop :=
  ∀ w, w.disk = d → ∃ x w', a w = (.ok x, w') ∧ Q x w'.disk

namespace Yields

variable {d : Disk} {Q Q' : α → Disk → Prop} {R : β → Disk → Prop}

theorem weaken (h : Yields a d Q) (hQ : ∀ x d', Q x d' → Q' x d') : Yields a d Q' := by
  intro w hw
  obtain ⟨x, w', hrun, hx⟩ := h w hw
  exact ⟨x, w', hrun, hQ x w'.disk hx⟩

theorem pure {x : α} (h : Q x d) : Yields (Pure.pure x) d Q := fun w hw => ⟨x, w, rfl, hw ▸ h⟩

theorem bind {f : α → Act β} (ha : Yields a d Q) (hf : ∀ x d', Q x d' → Yields (f x) d' R) :
    Yields (a >>= f) d R := by
  intro w hw
  obtain ⟨x, w₁, hrun, hx⟩ := ha w hw
  obtain ⟨y, w', hrest, hy⟩ := hf x w₁.disk hx w₁ rfl
  exact ⟨y, w', (bind_of_ok hrun).trans hrest, hy⟩

theorem disk : Yields Act.disk d fun x d' => x = d ∧ d' = d :=
  fun w hw => ⟨w.disk, w, rfl, hw, hw⟩

theorem reports {events : Log} : Yields (Act.reports events) d fun _ d' => d' = d :=
  fun _ hw => ⟨(), _, rfl, hw⟩

theorem change {note : Note} {step : Disk → Except Files.IoError Disk} {d' : Disk} (h : step d = .ok d') :
    Yields (Act.change note step) d fun _ left => left = d' := by
  intro w hw
  refine ⟨(), {w with disk := d'}, ?_, rfl⟩
  rw [Act.change, hw, h]

theorem ask {note : Note} {question : Disk → Except Files.IoError α} {x : α} (h : question d = .ok x) :
    Yields (Act.ask note question) d fun y d' => y = x ∧ d' = d := by
  intro w hw
  refine ⟨x, w, ?_, rfl, hw⟩
  rw [Act.ask, hw, h]

/-- A loop succeeds where every round does, and `I` says what holds after the first rounds. -/
theorem forM {γ : Type} {f : γ → Act Unit} {l : List γ} {I : List γ → Disk → Prop} (hinit : I [] d)
    (h : ∀ before x after d', l = before ++ x :: after → I before d' →
      Yields (f x) d' fun _ => I (before ++ [x])) : Yields (l.forM f) d fun _ => I l := by
  suffices hrest : ∀ rest before d', l = before ++ rest → I before d' →
      Yields (rest.forM f) d' fun _ => I l from hrest l [] d rfl hinit
  intro rest
  induction rest with
  | nil =>
    intro before d' hl hb
    rw [List.append_nil] at hl
    exact pure (hl ▸ hb)
  | cons x rest ih =>
    intro before d' hl hb
    show Yields (f x >>= fun _ => rest.forM f) d' fun _ => I l
    refine bind (h before x rest d' hl hb) fun _ d'' hb' => ?_
    exact ih (before ++ [x]) d'' (by rw [hl, List.append_assoc]; rfl) hb'

theorem foldlM {γ : Type} {f : β → γ → Act β} {l : List γ} {init : β} {I : List γ → β → Disk → Prop}
    (hinit : I [] init d)
    (h : ∀ before x after b d', l = before ++ x :: after → I before b d' →
      Yields (f b x) d' (I (before ++ [x]))) : Yields (l.foldlM f init) d (I l) := by
  suffices hrest : ∀ rest before b d', l = before ++ rest → I before b d' →
      Yields (rest.foldlM f b) d' (I l) from hrest l [] init d rfl hinit
  intro rest
  induction rest with
  | nil =>
    intro before b d' hl hb
    rw [List.append_nil] at hl
    exact pure (hl ▸ hb)
  | cons x rest ih =>
    intro before b d' hl hb
    rw [List.foldlM_cons]
    refine bind (h before x rest b d' hl hb) fun b' d'' hb' => ?_
    exact ih (before ++ [x]) b' d'' (by rw [hl, List.append_assoc]; rfl) hb'

end Yields

theorem ask_eq_ok {note : Note} {question : Disk → Except Files.IoError α} {x : α} {w w' : World}
    (h : ask note question w = (.ok x, w')) : question w.disk = .ok x ∧ w' = w := by
  unfold ask at h
  split at h
  · rename_i y hy
    cases h
    exact ⟨hy, rfl⟩
  · cases h

section Loops

variable {γ : Type} {f g : γ → Act Unit} {l : List γ} {w w' : World}

/-- Two loops do the same where their rounds do, as long as what they keep is true. -/
theorem forM_congr (hkeeps : ∀ x ∈ l, Keeps I (f x)) (heq : ∀ x ∈ l, ∀ w, I w.disk → f x w = g x w)
    (hw : I w.disk) : l.forM f w = l.forM g w := by
  induction l generalizing w with
  | nil => rfl
  | cons x rest ih =>
    show (f x >>= fun _ => rest.forM f) w = (g x >>= fun _ => rest.forM g) w
    rw [bind_apply, bind_apply, ← heq x List.mem_cons_self w hw]
    have hkept := (hkeeps x List.mem_cons_self w hw).1
    cases hrun : f x w with
    | mk outcome w' =>
      rw [hrun] at hkept
      cases outcome with
      | error e => rfl
      | ok _ =>
        exact ih (fun y hy => hkeeps y (List.mem_cons_of_mem x hy)) (fun y hy => heq y (List.mem_cons_of_mem x hy))
          hkept

/-- Every round of a loop that succeeds has succeeded, and lies between its beginning and its end: `R` relates a disk to
what it becomes. -/
theorem forM_eq_ok {R : Disk → Disk → Prop} (hrefl : ∀ {d d'}, R d d' → R d' d')
    (htrans : ∀ {d d' d''}, R d d' → R d' d'' → R d d'') (hkeeps : ∀ d, ∀ x ∈ l, Keeps (R d) (f x))
    (hw : R w.disk w.disk) (h : l.forM f w = (.ok (), w')) :
    R w.disk w'.disk ∧ ∀ x ∈ l, ∃ w₁ w₂, R w.disk w₁.disk ∧ f x w₁ = (.ok (), w₂) ∧ R w₂.disk w'.disk := by
  induction l generalizing w with
  | nil =>
    cases h
    exact ⟨hw, List.forall_mem_nil _⟩
  | cons x rest ih =>
    obtain ⟨_, w₁, hx, hrest⟩ := bind_eq_ok (a := f x) (f := fun _ => rest.forM f) h
    have hstep := (hkeeps w.disk x List.mem_cons_self w hw).1
    rw [hx] at hstep
    obtain ⟨hafter, hrounds⟩ := ih (fun d y hy => hkeeps d y (List.mem_cons_of_mem x hy)) (hrefl hstep) hrest
    refine ⟨htrans hstep hafter, List.forall_mem_cons.2 ⟨⟨w, w₁, hw, hx, hafter⟩, fun y hy => ?_⟩⟩
    obtain ⟨w₂, w₃, hbefore, hy, hlater⟩ := hrounds y hy
    exact ⟨w₂, w₃, htrans hstep hbefore, hy, hlater⟩

end Loops

/-- Every round of a loop that succeeds has succeeded. -/
theorem foldlM_eq_ok {γ : Type} {f : β → γ → Act β} {l : List γ} {init y : β} {w w' : World}
    (h : l.foldlM f init w = (.ok y, w')) : ∀ x ∈ l, ∃ b b' w₁ w₂, f b x w₁ = (.ok b', w₂) := by
  induction l generalizing init w with
  | nil => nofun
  | cons x rest ih =>
    rw [List.foldlM_cons] at h
    obtain ⟨b, w₁, hx, hrest⟩ := bind_eq_ok h
    exact List.forall_mem_cons.2 ⟨⟨init, b, w, w₁, hx⟩, ih hrest⟩

end PluginShading.Act
