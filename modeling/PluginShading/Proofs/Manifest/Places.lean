import Mathlib
import PluginShading.Manifest.Reader

/-!
One place in a manifest: that of the spec version.

A value stands in a container, in a field or among the items (`Layer`), and the containers lie within each other
(`SpecPlace`). Reading a record whose one field is filled with a value gives that value for the field, and for the
others what it gives anyway (`recordOf_fill`). So the manifests that differ in the spec alone are read alike but for it
(`ofValue_fill`).
-/
namespace PluginShading

open Json (Value Fields table setField)

/-! ### Containers with a place -/

/-- A container with one place left open. -/
inductive Layer
  | field (key : String) (before after : Fields)
  | item (before after : List Value)

namespace Layer

def fill (v : Value) : Layer → Value
  | field key before after => .object (before ++ (some key, v) :: after)
  | item before after => .array (before ++ v :: after)

/-- The place is that of the field number `i` of a record. -/
def IsField (names : List (List String)) (i : Nat) : Layer → Prop
  | field key _ _ => ∃ ns, names[i]? = some ns ∧ key ∈ ns
  | item before _ => before.length = i

end Layer

variable {l : Layer} {v : Value} {key : String} {before after fields : Fields} {names : List (List String)}
  {ns : List String} {i : Nat}

theorem itemsSound_append (a b : List Value) :
    Value.itemsSound (a ++ b) = (Value.itemsSound a && Value.itemsSound b) := by
  induction a with
  | nil => rfl
  | cons v rest ih => simp only [List.cons_append, Value.itemsSound, ih, Bool.and_assoc]

theorem fieldsSound_append (a b : Fields) : Value.fieldsSound (a ++ b) = (Value.fieldsSound a && Value.fieldsSound b) := by
  induction a with
  | nil => rfl
  | cons f rest ih => simp only [List.cons_append, Value.fieldsSound, ih, Bool.and_assoc]

theorem itemsDepth_append (a b : List Value) :
    Value.itemsDepth (a ++ b) = max (Value.itemsDepth a) (Value.itemsDepth b) := by
  induction a with
  | nil => simp [Value.itemsDepth]
  | cons v rest ih => simp only [List.cons_append, Value.itemsDepth, ih, max_assoc]

theorem fieldsDepth_append (a b : Fields) :
    Value.fieldsDepth (a ++ b) = max (Value.fieldsDepth a) (Value.fieldsDepth b) := by
  induction a with
  | nil => simp [Value.fieldsDepth]
  | cons f rest ih => simp only [List.cons_append, Value.fieldsDepth, ih, max_assoc]

/-- A sound value that is no container makes no difference to whether what it stands in can be used. -/
theorem usable_fill (l : Layer) (level : Nat) (hsound : v.sound = true) (hdepth : v.depth = 0) :
    (l.fill v).usable level = (l.fill .null).usable level := by
  cases l with
  | field key before after =>
    simp only [Layer.fill, Value.usable, Value.sound, Value.depth, fieldsSound_append, fieldsDepth_append,
      Value.fieldsSound, Value.fieldsDepth, hsound, hdepth]
  | item before after =>
    simp only [Layer.fill, Value.usable, Value.sound, Value.depth, itemsSound_append, itemsDepth_append,
      Value.itemsSound, Value.itemsDepth, hsound, hdepth]

/-! ### Records -/

/-- A field that goes by none of the names is not asked for. -/
theorem fieldOf_of_not_mem (h : key ∉ ns) (v : Value) :
    fieldOf (before ++ (some key, v) :: after) ns = fieldOf (before ++ (some key, .null) :: after) ns := by
  have hnone : (ns.any fun n => decide (some key = some n)) = false := by
    rw [List.any_eq_false]
    intro n hn
    rw [decide_eq_true_eq, Option.some.injEq]
    rintro rfl
    exact h hn
  simp only [fieldOf, List.filter_append, List.filter_cons, hnone, Bool.false_eq_true, if_false]

/-- A field that goes by one of the names is the one that is found, if it is the only one. -/
theorem fieldOf_of_mem (h : key ∈ ns) (v : Value) : fieldOf (before ++ (some key, v) :: after) ns =
    (fieldOf (before ++ (some key, .null) :: after) ns).map fun _ => some v := by
  have hany : (ns.any fun n => decide (some key = some n)) = true :=
    List.any_eq_true.2 ⟨key, h, decide_eq_true rfl⟩
  simp only [fieldOf, List.filter_append, List.filter_cons, hany, if_true]
  generalize before.filter _ = front
  generalize after.filter _ = back
  cases front with
  | nil => cases back <;> rfl
  | cons f rest => cases rest <;> rfl

theorem mapM_congr_left {α β : Type} {f g : α → Option β} {as : List α} (h : ∀ a ∈ as, f a = g a) :
    as.mapM f = as.mapM g := by
  induction as with
  | nil => rfl
  | cons a rest ih =>
    obtain ⟨ha, hrest⟩ := List.forall_mem_cons.1 h
    rw [List.mapM_cons, List.mapM_cons, ha, ih hrest]

theorem mapM_fieldOf (hnames : names.Pairwise List.Disjoint) (hns : names[i]? = some ns) (hkey : key ∈ ns) (v : Value) :
    names.mapM (fieldOf (before ++ (some key, v) :: after)) =
      (names.mapM (fieldOf (before ++ (some key, .null) :: after))).map (·.set i (some v)) := by
  induction names generalizing i with
  | nil => cases hns
  | cons first rest ih =>
    obtain ⟨hfirst, hrest⟩ := List.pairwise_cons.1 hnames
    simp only [List.mapM_cons, Option.bind_eq_bind, Option.pure_def]
    cases i with
    | zero =>
      obtain rfl : first = ns := Option.some.inj hns
      -- No other field goes by the same name.
      have hothers : rest.mapM (fieldOf (before ++ (some key, v) :: after)) =
          rest.mapM (fieldOf (before ++ (some key, .null) :: after)) :=
        mapM_congr_left fun ns' hmem => fieldOf_of_not_mem (fun hkey' => hfirst ns' hmem hkey hkey') v
      rw [fieldOf_of_mem hkey v, hothers]
      cases fieldOf (before ++ (some key, .null) :: after) first with
      | none => rfl
      | some found => cases rest.mapM (fieldOf (before ++ (some key, .null) :: after)) <;> rfl
    | succ i =>
      have hmem : ns ∈ rest := List.mem_of_getElem? hns
      rw [fieldOf_of_not_mem (fun hkey' => hfirst ns hmem hkey' hkey) v, ih hrest hns]
      cases fieldOf (before ++ (some key, .null) :: after) first with
      | none => rfl
      | some found => cases rest.mapM (fieldOf (before ++ (some key, .null) :: after)) <;> rfl

/-- **A record is read as it is but for the field that is filled.** -/
theorem recordOf_fill (hnames : names.Pairwise List.Disjoint) (hl : l.IsField names i) (v : Value) :
    recordOf names (l.fill v) = (recordOf names (l.fill .null)).map (·.set i (some v)) := by
  cases l with
  | field key before after =>
    obtain ⟨ns, hns, hkey⟩ := hl
    have hkeys : ∀ v, (before ++ (some key, v) :: after).all (·.1.isSome) = (before ++ after).all (·.1.isSome) := by
      simp
    simp only [Layer.fill, recordOf, hkeys]
    split
    · exact mapM_fieldOf hnames hns hkey v
    · rfl
  | item before after =>
    obtain rfl : before.length = i := hl
    simp only [Layer.fill, recordOf, List.length_append, List.length_cons]
    split
    · simp
    · rfl

theorem recordOf_length {found : List (Option Value)} (h : recordOf names v = some found) :
    found.length = names.length := by
  unfold recordOf at h
  split at h
  · split at h
    · induction names generalizing found with
      | nil =>
        obtain rfl := Option.some.inj h
        rfl
      | cons first rest ih =>
        simp only [List.mapM_cons, Option.bind_eq_bind, Option.pure_def, Option.bind_eq_some_iff, Option.some.injEq] at h
        obtain ⟨value, -, more, hmore, rfl⟩ := h
        exact congrArg _ (ih hmore)
    · cases h
  · split at h
    · obtain rfl := Option.some.inj h
      simp only [List.length_append, List.length_map, List.length_replicate]
      omega
    · cases h
  · cases h

/-! ### Tables -/

/-- Setting another key leaves the place of this one. -/
theorem setField_fill {k : String} {u : Value} (hk : k ≠ key) (front back : List (String × Value)) :
    ∃ front' back', ∀ v, setField k u (front ++ (key, v) :: back) = front' ++ (key, v) :: back' := by
  induction front with
  | nil => exact ⟨[], setField k u back, fun v => by rw [List.nil_append, setField, if_neg hk.symm]; rfl⟩
  | cons f rest ih =>
    obtain ⟨k', w⟩ := f
    by_cases hsame : k' = k
    · exact ⟨(k, u) :: rest, back, fun v => by rw [List.cons_append, setField, if_pos hsame]; rfl⟩
    · obtain ⟨front', back', hset⟩ := ih
      exact ⟨(k', w) :: front', back', fun v => by rw [List.cons_append, setField, if_neg hsame, hset]; rfl⟩

/-- The key itself goes to its place or to the end. -/
theorem setField_key (key : String) (t : List (String × Value)) :
    ∃ front back, ∀ v, setField key v t = front ++ (key, v) :: back := by
  induction t with
  | nil => exact ⟨[], [], fun v => rfl⟩
  | cons f rest ih =>
    obtain ⟨k', w⟩ := f
    by_cases hsame : k' = key
    · exact ⟨[], rest, fun v => by rw [setField, if_pos hsame]; rfl⟩
    · obtain ⟨front, back, hset⟩ := ih
      exact ⟨(k', w) :: front, back, fun v => by rw [setField, if_neg hsame, hset]; rfl⟩

/-- A field goes into the table, if its key has a text. -/
def addField (t : List (String × Value)) (f : Option String × Value) : List (String × Value) :=
  match f.1 with
  | some k => setField k f.2 t
  | none => t

theorem table_eq (fields : Fields) : table fields = fields.foldl addField [] := rfl

/-- The last field with a key has a place in the table. -/
theorem table_fill (before : Fields) (hlast : ∀ f ∈ after, f.1 ≠ some key) :
    ∃ front back, ∀ v, table (before ++ (some key, v) :: after) = front ++ (key, v) :: back := by
  obtain ⟨front, back, hset⟩ := setField_key key (table before)
  suffices hmore : ∃ front' back', ∀ v, after.foldl addField (front ++ (key, v) :: back) = front' ++ (key, v) :: back' by
    obtain ⟨front', back', hrest⟩ := hmore
    refine ⟨front', back', fun v => ?_⟩
    rw [← hrest, ← hset, table_eq, List.foldl_append, List.foldl_cons, ← table_eq]
    rfl
  clear hset
  induction after generalizing front back with
  | nil => exact ⟨front, back, fun v => rfl⟩
  | cons f rest ih =>
    obtain ⟨hf, hrest⟩ := List.forall_mem_cons.1 hlast
    obtain ⟨k, u⟩ := f
    cases k with
    | none => exact ih hrest front back
    | some k =>
      obtain ⟨front', back', hset⟩ := setField_fill (u := u) (fun heq => hf (congrArg some heq)) front back
      obtain ⟨front'', back'', hmore⟩ := ih hrest front' back'
      exact ⟨front'', back'', fun v => by rw [List.foldl_cons, ← hmore, ← hset]; rfl⟩

/-! ### The place of the spec version -/

/-- The fields of a manifest that are looked at. -/
def manifestNames : List (List String) := [["name"], ["require"], ["autoload"], ["extra"]]

def extraNames : List (List String) := [["shading", "virion"]]

def shadingNames : List (List String) := [["spec"], ["namespace-root"], ["shared-namespace-root"]]

/-- A manifest with the place of the spec version left open: it is the last field of that name in the shading block,
which stands in a field of the extra record. -/
structure SpecPlace where
  manifest : Layer
  extra : Layer
  before : Fields
  after : Fields
  isExtra : manifest.IsField manifestNames 3
  isShading : extra.IsField extraNames 0
  last : ∀ f ∈ after, f.1 ≠ some "spec"

/-- The shading block from its fields. -/
def readBlock : List (Option Value) → Option ShadingBlock
  | [spec, root, shared] => do pure ⟨← specOf spec, ← textOf? root, ← textOf? shared⟩
  | _ => none

/-- The shading block of the extra record, not looked into. -/
def readExtra : Option Value → Option (Option Value)
  | none => some none
  | some extra => (recordOf extraNames extra).bind fun
    | [shading] => usableShading shading
    | _ => none

theorem outlineOf_eq (v : Value) : outlineOf v = (recordOf manifestNames v).bind fun
    | [name, require, autoload, extra] => do
      let name ← textOf? name
      let require ← usableTable 1 require
      let autoload ← usableTable 1 autoload
      let shading ← readExtra extra
      let layouts ← autoload.mapM fun (kind, v) => layoutsOf kind v
      pure ⟨name, require.map Prod.fst, layouts.flatten, shading⟩
    | _ => none := by
  unfold outlineOf
  show (recordOf manifestNames v).bind _ = _
  congr 1
  funext found
  match found with
  | [] | [_] | [_, _] | [_, _, _] | _ :: _ :: _ :: _ :: _ :: _ => rfl
  | [name, require, autoload, none] => rfl
  | [name, require, autoload, some extra] =>
    dsimp only [readExtra]
    rw [show [["shading", "virion"]] = extraNames from rfl]
    generalize recordOf extraNames extra = inner
    match inner with
    | none | some [] | some [_] | some (_ :: _ :: _) => rfl

namespace SpecPlace

variable (p : SpecPlace)

def block (v : Value) : Value := .object (p.before ++ (some "spec", v) :: p.after)

def fill (v : Value) : Value := p.manifest.fill (p.extra.fill (p.block v))

/-- The block is read as it is but for the spec version. -/
theorem shadingOf_block : ∃ block : Option ShadingBlock, ∀ (v : Value) (s : String), specOf (some v) = some (some s) →
    shadingOf (p.block v) = block.map fun b => {b with spec := some s} := by
  obtain ⟨front, back, htable⟩ := table_fill p.before p.last
  let inner : Layer := .field "spec" (front.map fun f => (some f.1, f.2)) (back.map fun f => (some f.1, f.2))
  have honce : ∀ v, Value.object ((table (p.before ++ (some "spec", v) :: p.after)).map fun f => (some f.1, f.2)) =
      inner.fill v := fun v => by
    rw [htable, List.map_append]
    rfl
  have hrecord : ∀ v, recordOf shadingNames (inner.fill v) =
      (recordOf shadingNames (inner.fill .null)).map (·.set 0 (some v)) :=
    recordOf_fill (by simp [shadingNames]) ⟨_, rfl, List.mem_singleton_self _⟩
  have hread : ∀ v, shadingOf (p.block v) = (recordOf shadingNames (inner.fill v)).bind readBlock := fun v => by
    simp only [shadingOf, block, honce]
    rfl
  cases hnull : recordOf shadingNames (inner.fill .null) with
  | none =>
    refine ⟨none, fun v s hv => ?_⟩
    rw [hread, hrecord, hnull]
    rfl
  | some found =>
    obtain ⟨spec, root, shared, rfl⟩ := List.length_eq_three.1 (recordOf_length hnull)
    refine ⟨do pure ⟨none, ← textOf? root, ← textOf? shared⟩, fun v s hv => ?_⟩
    rw [hread, hrecord, hnull]
    simp only [Option.map_some, List.set_cons_zero, Option.bind_some, readBlock, hv]
    cases textOf? root with
    | none => rfl
    | some root => cases textOf? shared <;> rfl

/-- The extra record is read as it is but for the block. -/
theorem readExtra_fill : ∃ readable : Bool, ∀ v : Value, v.sound = true → v.depth = 0 →
    readExtra (some (p.extra.fill (p.block v))) = if readable then some (some (p.block v)) else none := by
  have hrecord := recordOf_fill (l := p.extra) (by simp [extraNames]) p.isShading
  have husable : ∀ v : Value, v.sound = true → v.depth = 0 → usableShading (some (p.block v)) =
      if (p.block .null).usable 2 then some (some (p.block v)) else none := fun v hsound hdepth => by
    have hsame := usable_fill (.field "spec" p.before p.after) 2 hsound hdepth
    show (if (p.block v).usable 2 then some (some (p.block v)) else none) = _
    rw [show (p.block v).usable 2 = (p.block .null).usable 2 from hsame]
  cases hnull : recordOf extraNames (p.extra.fill .null) with
  | none =>
    refine ⟨false, fun v _ _ => ?_⟩
    rw [readExtra, hrecord, hnull]
    rfl
  | some found =>
    obtain ⟨shading, rfl⟩ := List.length_eq_one_iff.1 (recordOf_length hnull)
    refine ⟨(p.block .null).usable 2, fun v hsound hdepth => ?_⟩
    rw [readExtra, hrecord, hnull]
    exact husable v hsound hdepth

/-- The outline is the same but for the block. -/
theorem outlineOf_fill : ∃ outline : Option Outline, ∀ v : Value, v.sound = true → v.depth = 0 →
    outlineOf (p.fill v) = outline.map fun o => {o with shading := some (p.block v)} := by
  have hrecord := recordOf_fill (l := p.manifest) (by simp [manifestNames]) p.isExtra
  obtain ⟨readable, hshading⟩ := p.readExtra_fill
  cases hnull : recordOf manifestNames (p.manifest.fill .null) with
  | none =>
    refine ⟨none, fun v _ _ => ?_⟩
    rw [outlineOf_eq, fill, hrecord, hnull]
    rfl
  | some found =>
    have hlength := recordOf_length hnull
    obtain ⟨name, require, autoload, extra, rfl⟩ : ∃ a b c d, found = [a, b, c, d] := by
      match found, hlength with
      | [a, b, c, d], _ => exact ⟨a, b, c, d, rfl⟩
    refine ⟨do
      let name ← textOf? name
      let require ← usableTable 1 require
      let autoload ← usableTable 1 autoload
      let layouts ← autoload.mapM fun (kind, v) => layoutsOf kind v
      if readable then pure ⟨name, require.map Prod.fst, layouts.flatten, none⟩ else none, fun v hsound hdepth => ?_⟩
    rw [outlineOf_eq, fill, hrecord, hnull]
    simp only [Option.map_some, List.set_cons_succ, List.set_cons_zero, Option.bind_some, hshading v hsound hdepth]
    cases textOf? name with
    | none => rfl
    | some name =>
      cases usableTable 1 require with
      | none => rfl
      | some require =>
        cases usableTable 1 autoload with
        | none => rfl
        | some autoload =>
          cases readable with
          | false =>
            simp
          | true =>
            simp only [Option.bind_eq_bind, Option.bind_some, if_true]
            cases autoload.mapM fun x => layoutsOf x.1 x.2 <;> rfl

/-- **Manifests that differ in the spec version are read alike** but for it: both fail, or both give the same manifest
with the one version and with the other. -/
theorem ofValue_fill (path : Path) : ∃ read : Except ManifestError (Manifest × ShadingBlock), ∀ (v : Value) (s : String),
    v.sound = true → v.depth = 0 → specOf (some v) = some (some s) →
      Manifest.ofValue path (p.fill v) = read.map fun m => {m.1 with shading := some {m.2 with spec := some s}} := by
  obtain ⟨outline, houtline⟩ := p.outlineOf_fill
  obtain ⟨block, hblock⟩ := p.shadingOf_block
  cases outline with
  | none =>
    refine ⟨.error (.malformed path), fun v s hsound hdepth _ => ?_⟩
    rw [Manifest.ofValue, houtline v hsound hdepth]
    rfl
  | some o =>
    cases block with
    | none =>
      refine ⟨.error (.invalidShading path), fun v s hsound hdepth hspec => ?_⟩
      simp only [Manifest.ofValue, houtline v hsound hdepth, Option.map_some, hblock v s hspec, Option.map_none]
      rfl
    | some b =>
      refine ⟨.ok (⟨path, o.name, o.require, o.layouts, none⟩, b), fun v s hsound hdepth hspec => ?_⟩
      simp only [Manifest.ofValue, houtline v hsound hdepth, Option.map_some, hblock v s hspec]
      rfl

end SpecPlace

end PluginShading
