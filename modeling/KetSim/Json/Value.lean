import KetSim.Json.Literal
import KetSim.Json.Text
/-!
# JSON values

A value as it is written: members of an object stay in order and may repeat, numbers keep their
digits. `Value.render` writes a value without blanks. A string that is no text can be read, and has
no written form of its own.
-/
namespace KetSim.Json

/-- The content of a string, absent where it is no text. -/
abbrev Content := Option String

inductive Value where
  | null
  | bool (b : Bool)
  | number (l : Literal)
  | text (content : Content)
  | array (items : List Value)
  | object (members : List (Content × Value))
  deriving Repr, Inhabited

namespace Value

def contentChars (s : Content) : List Char := Text.quote (s.getD "")

mutual

def chars : Value → List Char
  | null => "null".toList
  | bool true => "true".toList
  | bool false => "false".toList
  | number l => l.chars
  | text s => contentChars s
  | array [] => ['[', ']']
  | array (v :: vs) => '[' :: v.chars ++ itemsChars vs ++ [']']
  | object [] => [Char.ofNat 123, Char.ofNat 125]
  | object ((k, v) :: ms) =>
    Char.ofNat 123 :: contentChars k ++ ':' :: v.chars ++ membersChars ms ++ [Char.ofNat 125]

def itemsChars : List Value → List Char
  | [] => []
  | v :: vs => ',' :: v.chars ++ itemsChars vs

def membersChars : List (Content × Value) → List Char
  | [] => []
  | (k, v) :: ms => ',' :: contentChars k ++ ':' :: v.chars ++ membersChars ms

end

def render (v : Value) : String := String.ofList v.chars

/-! ## Building values -/

def string (s : String) : Value := text (some s)

def nat (n : Nat) : Value := number (.ofNat n)

def int (n : Int) : Value := number (.ofInt n)

def record (fields : List (String × Value)) : Value :=
  object (fields.map fun (k, v) => (some k, v))

/-- The value, or `null` where there is none. -/
def optional {α : Type} (f : α → Value) : Option α → Value
  | some a => f a
  | none => null

/-- A finite float as a number; anything else as `null`. -/
def float (x : Float) : Value := optional number (Literal.ofFloat? x)

end Value

end KetSim.Json
