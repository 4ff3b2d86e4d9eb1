import PluginShading.Proofs.Build.Parts

/-!
Where a build writes.

Until its output is complete, a build changes nothing but below its staging directory (`fill_below`), so that
what it does elsewhere it does by putting the results in place. It is the names it is given that this rests
on: those of the inputs and of the source root, and the namespace of the plugin's main class. A name taken
from the end of a path is never one to lead out (`staysIn_fileName`); any other may be, and an input that goes
by `../x` is written beside the staging directory (`input_leads_out`).
-/
namespace PluginShading.Build

open Files (Disk StaysIn Below)

/-! ### Names of inputs -/

/-- The last component of a path stays where it starts. -/
theorem staysIn_fileName {p : Path} {name : String} (h : p.fileName = some name) : StaysIn ⟨name⟩ := by
  have hmem : Component.name name ∈ p.components := by
    unfold Path.fileName at h
    split at h
    · rename_i last hlast
      cases h
      exact List.mem_of_getLast? hlast
    · cases h
  have hlead : Component.name name ∉ (Path.lead p.chars).1 := by
    unfold Path.lead
    split <;> simp
  obtain ⟨piece, hpiece, hcomponent⟩ :=
    List.mem_filterMap.1 ((List.mem_append.1 hmem).resolve_left hlead)
  unfold Path.component? at hcomponent
  split at hcomponent
  · cases hcomponent
  · split at hcomponent
    · cases hcomponent
    · rename_i hup
      cases hcomponent
      exact (Files.leadsDown_of_free (Text.not_mem_of_mem_pieces hpiece) hup).staysIn

/-- A bare argument goes by its last component, or by itself where it has none. -/
theorem name_of_bare {argument : String} {input : Input} (h : Input.parse argument = .ok input)
    (hbare : splitName (trimSeparators argument.toList) = none) :
    input.name = input.path.fileName.getD input.path.text := by
  unfold Input.parse at h
  dsimp only at h
  split at h
  · cases h
  · rw [hbare] at h
    dsimp only at h
    split at h
    · cases h
    · rw [← Except.ok.inj h]

/-- So it goes by a name that stays where it starts if it has a last component. -/
theorem staysIn_of_bare {argument : String} {input : Input} (h : Input.parse argument = .ok input)
    (hbare : splitName (trimSeparators argument.toList) = none) (hname : input.path.fileName.isSome = true) :
    StaysIn ⟨input.name⟩ := by
  obtain ⟨name, hlast⟩ := Option.isSome_iff_exists.1 hname
  rw [name_of_bare h hbare, hlast]
  exact staysIn_fileName hlast

/-! ### Until the output is complete -/

/-- **Until its output is complete, a build changes nothing but below its staging directory**, whether or not
it gets that far. -/
theorem fill_below {o : Options} {plan : Plan} {w w₁ w₂ : World} {staged : Path}
    (hsound : (prepare o w).2.disk.Sound) (hnames : StayingNames o) (hmain : StayingMain o w)
    (hprepare : prepare o w = (.ok plan, w₁)) (hstage : stage o.outputDirectory w₁ = (.ok staged, w₂)) :
    run o w = withStaging staged (build o plan staged) w₂ ∧
      ∃ place, w₂.disk.find staged false = .ok (.found place .directory) ∧ ∀ p, ¬ Below place p →
        (fill o plan.roots plan.rules staged w₂).2.disk.tree.get? p = w₂.disk.tree.get? p := by
  obtain ⟨s, rfl, -, hbefore, hafter⟩ := inside_fill hsound hnames hmain hprepare hstage
  refine ⟨?_, s.place, hbefore.find_path, fun p hp => ?_⟩
  · rw [run_eq, Act.bind_of_ok hprepare, Act.bind_of_ok hstage]
  · by_cases hin : s.place <+: p
    · rcases Files.eq_or_below hin with rfl | hbelow
      · rw [hafter.made, hbefore.made]
      · exact absurd hbelow hp
    · rw [hafter.outside p hin, hbefore.outside p hin]

/-- The statement holds of a build that copies an input whose name goes down, up and down again, and one that is
given by its path alone. -/
theorem exists_fill_below : ∃ argument input o w plan w₁ staged w₂, Input.parse argument = .ok input ∧
    input ∈ o.inputs ∧ (prepare o w).2.disk.Sound ∧ StayingNames o ∧
    StayingMain o w ∧ prepare o w = (.ok plan, w₁) ∧ stage o.outputDirectory w₁ = (.ok staged, w₂) ∧
      (fill o plan.roots plan.rules staged w₂).2.disk.readText (staged.join ⟨"x"⟩) = .ok "h" ∧
      run o w = withStaging staged (build o plan staged) w₂ ∧
        ∃ place, w₂.disk.find staged false = .ok (.found place .directory) ∧ ∀ p, ¬ Below place p →
          (fill o plan.roots plan.rules staged w₂).2.disk.tree.get? p = w₂.disk.tree.get? p := by
  let bare : Input := ⟨"b.txt", ⟨"../d/b.txt"⟩⟩
  let o : Options := {inputs := [⟨"docs/../x", ⟨"a.txt"⟩⟩, bare], outputDirectory := some ⟨"out"⟩}
  let w : World := {disk := {tree := ⟨[(["a.txt"], .file ⟨[104], 0, false⟩), (["d"], .directory),
    (["d", "b.txt"], .file ⟨[], 0, false⟩)]⟩}}
  let plan : Plan := ⟨Shading.Target.generate none 0, [], []⟩
  let staged : Path := ⟨"/./.shadepack-sf1Fb7"⟩
  have hparse : Input.parse "../d/b.txt/" = .ok bare := by decide +kernel
  have hbare : StaysIn ⟨bare.name⟩ := staysIn_of_bare hparse (by decide +kernel) (by decide +kernel)
  have hsound : (prepare o w).2.disk.Sound := by decide +kernel
  have hnames : StayingNames o :=
    ⟨List.forall_mem_cons.2 ⟨by decide +kernel, List.forall_mem_singleton.2 hbare⟩, by decide +kernel⟩
  have hmain : StayingMain o w := by
    intro space w' h
    cases h
  have hprepare : prepare o w = (.ok plan, (prepare o w).2) := rfl
  have hstage : stage o.outputDirectory (prepare o w).2 =
      (.ok staged, (stage o.outputDirectory (prepare o w).2).2) := Act.eq_ok (by decide +kernel)
  exact ⟨_, bare, o, w, plan, _, staged, _, hparse, by decide, hsound, hnames, hmain, hprepare, hstage,
    by decide +kernel, fill_below hsound hnames hmain hprepare hstage⟩

/-- An input that goes by `../x` is written beside the staging directory. -/
theorem input_leads_out : ∃ argument input o w plan w₁ staged w₂ place p,
    Input.parse argument = .ok input ∧ o.inputs = [input] ∧ (prepare o w).2.disk.Sound ∧
      prepare o w = (.ok plan, w₁) ∧ stage o.outputDirectory w₁ = (.ok staged, w₂) ∧
        w₂.disk.find staged false = .ok (.found place .directory) ∧ ¬ Below place p ∧
          (fill o plan.roots plan.rules staged w₂).2.disk.tree.get? p ≠ w₂.disk.tree.get? p := by
  let o : Options := {inputs := [⟨"../x", ⟨"a.txt"⟩⟩], outputDirectory := some ⟨"out"⟩}
  let w : World := {disk := {tree := ⟨[(["a.txt"], .file ⟨[104], 0, false⟩)]⟩}}
  let plan : Plan := ⟨Shading.Target.generate none 0, [], []⟩
  let staged : Path := ⟨"/./.shadepack-sf1Fb7"⟩
  have hprepare : prepare o w = (.ok plan, (prepare o w).2) := rfl
  have hstage : stage o.outputDirectory (prepare o w).2 =
      (.ok staged, (stage o.outputDirectory (prepare o w).2).2) := Act.eq_ok (by decide +kernel)
  exact ⟨"../x:a.txt", _, o, w, plan, _, staged, _, [".shadepack-sf1Fb7"], ["x"], by decide +kernel, rfl,
    by decide +kernel, hprepare, hstage, by decide +kernel, by decide +kernel, by decide +kernel⟩

end PluginShading.Build
