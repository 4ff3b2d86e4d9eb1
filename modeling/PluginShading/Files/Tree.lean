import PluginShading.Files.Bytes

/-!
A tree of files as a flat map. A place is the list of names from the root to an entry; the root itself
is a directory and has no entry in the map. Changing one place changes no other (`get?_set_of_ne`,
`get?_erase_of_ne`), which is what most facts about files rest on.
-/
namespace PluginShading.Files

abbrev Place := List String

structure FileData where
  bytes : Bytes
  /-- Seconds since the beginning of 1970. -/
  modified : Int := 0
  executable : Bool := false
  deriving DecidableEq, Repr

inductive Entry
  | file (data : FileData)
  | directory
  /-- A symbolic link with its text, which need not lead anywhere. -/
  | link (target : String)
  deriving DecidableEq, Repr

def Entry.isFile : Entry → Bool
  | file _ => true
  | _ => false

def Entry.isDirectory : Entry → Bool
  | directory => true
  | _ => false

def Entry.isLink : Entry → Bool
  | link _ => true
  | _ => false

structure Tree where
  entries : List (Place × Entry) := []
  deriving DecidableEq, Repr

/-- `q` lies strictly below `p`. -/
def Below (p q : Place) : Prop := p <+: q ∧ p ≠ q

instance (p q : Place) : Decidable (Below p q) := inferInstanceAs (Decidable (_ ∧ _))

namespace Tree

def get? (t : Tree) (p : Place) : Option Entry :=
  if p = [] then some .directory else t.entries.lookup p

def erase (t : Tree) (p : Place) : Tree := ⟨t.entries.filter fun e => e.1 ≠ p⟩

def set (t : Tree) (p : Place) (e : Entry) : Tree := ⟨(p, e) :: (t.erase p).entries⟩

/-- Removes everything strictly below a place. -/
def eraseBelow (t : Tree) (p : Place) : Tree := ⟨t.entries.filter fun e => ¬ Below p e.1⟩

/-- Moves an entry with everything below it; what was at the new place goes. -/
def move (t : Tree) (old new : Place) : Tree :=
  ⟨((t.erase new).eraseBelow new).entries.map fun e =>
    if old <+: e.1 then (new ++ e.1.drop old.length, e.2) else e⟩

/-- The entries strictly below a place, by the names that lead to them from there. A directory stands
before what it holds, and siblings stand in the order of their names. -/
def below (t : Tree) (p : Place) : List (Place × Entry) :=
  ((t.entries.filter fun e => Below p e.1).map fun e => (e.1.drop p.length, e.2)).mergeSort
    fun a b => !List.lex b.1 a.1 (fun s t => s < t)

/-- The entries directly in a place, in the order of their names. -/
def children (t : Tree) (p : Place) : List (String × Entry) :=
  (t.below p).filterMap fun e =>
    match e.1 with
    | [name] => some (name, e.2)
    | _ => none

/-! ### Looking up after a change -/

theorem lookup_filter_ne (entries : List (Place × Entry)) {p q : Place} (h : q ≠ p) :
    (entries.filter fun e => e.1 ≠ p).lookup q = entries.lookup q := by
  induction entries with
  | nil => rfl
  | cons e rest ih =>
    obtain ⟨at_, entry⟩ := e
    by_cases hp : at_ = p
    · subst hp
      have hq : (q == at_) = false := by simpa using h
      rw [List.filter_cons_of_neg (by simp), ih, List.lookup_cons, hq]
    · rw [List.filter_cons_of_pos (by simpa using hp), List.lookup_cons, List.lookup_cons, ih]

theorem lookup_filter_self (entries : List (Place × Entry)) (p : Place) :
    (entries.filter fun e => e.1 ≠ p).lookup p = none := by
  rw [List.lookup_eq_none_iff]
  intro e he
  simp only [List.mem_filter, decide_eq_true_eq] at he
  simpa using fun h => he.2 h.symm

theorem get?_erase_of_ne (t : Tree) {p q : Place} (h : q ≠ p) : (t.erase p).get? q = t.get? q := by
  simp only [get?, erase, lookup_filter_ne t.entries h]

theorem get?_erase_self (t : Tree) {p : Place} (h : p ≠ []) : (t.erase p).get? p = none := by
  simp only [get?, h, if_false, erase, lookup_filter_self]

theorem get?_set_self (t : Tree) {p : Place} (e : Entry) (h : p ≠ []) :
    (t.set p e).get? p = some e := by
  simp [get?, h, set]

theorem get?_set_of_ne (t : Tree) {p q : Place} (e : Entry) (h : q ≠ p) :
    (t.set p e).get? q = t.get? q := by
  have : (q == p) = false := by simpa using h
  simp only [get?, set, List.lookup_cons, this, erase, lookup_filter_ne t.entries h]

end Tree

end PluginShading.Files
