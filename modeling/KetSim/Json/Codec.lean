import KetSim.Json.Reading
/-!
# Stored forms

A type is stored as a JSON value. What is written for a value is fixed; reading is a little wider:
members that are not known are ignored, an absent optional member is none, and a structure may be
given as the array of its fields in order. A known member that occurs twice, a required one that is
absent, and a key that is no text are refused.
-/
namespace KetSim.Json

/-- A type with a stored form. -/
class Codec (α : Type) where
  encode : α → Value
  decode : Value → Option α

namespace Codec

def toText {α : Type} [Codec α] (a : α) : String := (encode a).render

def ofText? (α : Type) [Codec α] (s : String) : Option α := do decode (← parse s)

/-! ## Parts of a value -/

/-- Members whose keys are all texts. -/
def textKeys? (members : List (Content × Value)) : Option (List (String × Value)) :=
  members.mapM fun (k, v) => k.map fun k => (k, v)

/-- The member of the given name, if it is there; refused where it occurs twice. -/
def member? (members : List (String × Value)) (name : String) : Option (Option Value) :=
  match members.filter (·.1 == name) with
  | [] => some none
  | [(_, v)] => some (some v)
  | _ => none

/-- The fields of a structure in the order of their names, each with its value if it is there. -/
def fields? (names : List String) : Value → Option (List (Option Value))
  | .object members => do
    let members ← textKeys? members
    names.mapM (member? members)
  | .array items => if items.length = names.length then some (items.map some) else none
  | _ => none

/-- The name of a case and what it carries: a name alone, or the only member of an object. -/
def case? : Value → Option (String × Option Value)
  | .text (some name) => some (name, none)
  | .object [(some name, v)] => some (name, some v)
  | _ => none

/-- A case that carries nothing: its name alone, or with `null`. -/
def bareCase? (v : Value) : Option String :=
  match case? v with
  | some (name, none) => some name
  | some (name, some .null) => some name
  | _ => none

def carryingCase (name : String) (v : Value) : Value := .record [(name, v)]

/-! ## Plain types -/

instance : Codec String where
  encode := .string
  decode
    | .text s => s
    | _ => none

/-- A signed word. -/
instance : Codec Int where
  encode := .int
  decode
    | .number l => l.toSignedWord?
    | _ => none

/-- An unsigned word. -/
instance : Codec Nat where
  encode := .nat
  decode
    | .number l => l.toWord?
    | _ => none

instance : Codec Float where
  encode := .float
  decode
    | .number l => l.toFloat?
    | _ => none

instance {α : Type} [Codec α] : Codec (List α) where
  encode xs := .array (xs.map encode)
  decode
    | .array items => items.mapM decode
    | _ => none

instance {α : Type} [Codec α] : Codec (Option α) where
  encode := Value.optional encode
  decode
    | .null => some none
    | v => (decode v).map some

def optionalField? {α : Type} [Codec α] : Option Value → Option (Option α)
  | none => some none
  | some v => decode v

end Codec

end KetSim.Json
