import PluginShading.Json.Token

/-!
JSON values and reading them. The reader takes one token at a time and keeps the arrays and objects
that are still open on a stack, so it is a fold over the tokens and a text may be nested to any depth.

What is read is everything the text says: repeated keys stay, and so do strings without a text and
numbers of any size. Whether a value is fit for use (`sound`) is asked only of the parts that are used.
-/
namespace PluginShading.Json

inductive Value
  | null
  | truth (value : Bool)
  | number (n : Numeral)
  | string (text : Option String)
  | array (items : List Value)
  | object (fields : List (Option String × Value))
  deriving Repr, Inhabited

abbrev Fields := List (Option String × Value)

/-! ### Reading -/

/-- A container that is not closed yet, with what it holds so far, the last first. -/
inductive Open
  | array (items : List Value)
  | object (fields : Fields)
  /-- Behind a key and its colon. -/
  | pair (key : Option String) (fields : Fields)
  deriving Repr

/-- What may come next. -/
inductive Reader
  | value (stack : List Open)
  /-- Right behind `[`. -/
  | itemOrClose (stack : List Open)
  /-- Right behind an opening brace. -/
  | keyOrClose (stack : List Open)
  /-- Behind a comma between pairs. -/
  | key (fields : Fields) (stack : List Open)
  | colon (key : Option String) (fields : Fields) (stack : List Open)
  | commaOrClose (stack : List Open)
  /-- Nothing: the text is complete. -/
  | done (v : Value)
  deriving Repr

namespace Reader

/-- A value is complete: it goes into the innermost open container. -/
def deliver (v : Value) : List Open → Reader
  | [] => done v
  | .array items :: stack => commaOrClose (.array (v :: items) :: stack)
  | .pair k fields :: stack => commaOrClose (.object ((k, v) :: fields) :: stack)
  | .object fields :: stack => commaOrClose (.object fields :: stack)

/-- The beginning of a value. -/
def begin? (stack : List Open) : Token → Option Reader
  | .openBrace => some (keyOrClose stack)
  | .openBracket => some (itemOrClose stack)
  | .null => some (deliver .null stack)
  | .truth b => some (deliver (.truth b) stack)
  | .number n => some (deliver (.number n) stack)
  | .string s => some (deliver (.string s) stack)
  | _ => none

def step : Reader → Token → Option Reader
  | value stack, t => begin? stack t
  | itemOrClose stack, .closeBracket => some (deliver (.array []) stack)
  | itemOrClose stack, t => begin? (.array [] :: stack) t
  | keyOrClose stack, .closeBrace => some (deliver (.object []) stack)
  | keyOrClose stack, .string k => some (colon k [] stack)
  | key fields stack, .string k => some (colon k fields stack)
  | colon k fields stack, .colon => some (value (.pair k fields :: stack))
  | commaOrClose (.array items :: stack), .comma => some (value (.array items :: stack))
  | commaOrClose (.array items :: stack), .closeBracket =>
    some (deliver (.array items.reverse) stack)
  | commaOrClose (.object fields :: stack), .comma => some (key fields stack)
  | commaOrClose (.object fields :: stack), .closeBrace =>
    some (deliver (.object fields.reverse) stack)
  | _, _ => none

def run (r : Reader) : List Token → Option Reader
  | [] => some r
  | t :: rest =>
    match r.step t with
    | none => none
    | some r => run r rest

theorem run_append (r : Reader) (a b : List Token) :
    r.run (a ++ b) = (r.run a).bind fun r => r.run b := by
  induction a generalizing r with
  | nil => rfl
  | cons t rest ih =>
    simp only [List.cons_append, run]
    split
    · rfl
    · exact ih _

end Reader

/-- The value that a text is. -/
def parse (text : List Char) : Option Value :=
  match tokens text with
  | none => none
  | some ts =>
    match (Reader.value []).run ts with
    | some (.done v) => some v
    | _ => none

/-! ### Fitness for use -/

namespace Value

mutual

/-- How many containers lie within each other. -/
def depth : Value → Nat
  | .array items => 1 + itemsDepth items
  | .object fields => 1 + fieldsDepth fields
  | _ => 0

def itemsDepth : List Value → Nat
  | [] => 0
  | v :: rest => max v.depth (itemsDepth rest)

def fieldsDepth : List (Option String × Value) → Nat
  | [] => 0
  | (_, v) :: rest => max v.depth (fieldsDepth rest)

end

mutual

/-- Every string in the value has a text and every number a value. -/
def sound : Value → Bool
  | .number n => n.value.isSome
  | .string s => s.isSome
  | .array items => itemsSound items
  | .object fields => fieldsSound fields
  | _ => true

def itemsSound : List Value → Bool
  | [] => true
  | v :: rest => v.sound && itemsSound rest

def fieldsSound : List (Option String × Value) → Bool
  | [] => true
  | (k, v) :: rest => k.isSome && v.sound && fieldsSound rest

end

/-- Containers that are used may lie this deep within each other. -/
def depthLimit : Nat := 127

/-- The value can be used inside `level` containers. -/
def usable (level : Nat) (v : Value) : Bool := v.sound && level + v.depth ≤ depthLimit

end Value

/-! ### Objects as tables -/

/-- Sets a key: a new one goes to the end, a known one keeps its place. -/
def setField (k : String) (v : Value) : List (String × Value) → List (String × Value)
  | [] => [(k, v)]
  | (k', v') :: rest => if k' = k then (k, v) :: rest else (k', v') :: setField k v rest

/-- The table that an object is when each key takes the last value given for it. -/
def table (fields : Fields) : List (String × Value) :=
  fields.foldl (fun t f => match f.1 with | some k => setField k f.2 t | none => t) []

end PluginShading.Json
