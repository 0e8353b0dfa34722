import KetSim.Json.Token
/-!
# Reading JSON

Tokens are put together to a value by a stack of open arrays and objects. `parse` accepts exactly
one value.
-/
namespace KetSim.Json

/-- An array or object that is still open. Items and members are kept latest first. -/
inductive Frame where
  | items (before : List Value)
  | member (before : List (Content × Value)) (key : Content)
  deriving Repr

/-- What may come next. -/
inductive Progress where
  /-- A value. -/
  | value (stack : List Frame)
  /-- A first item or the end of an array. -/
  | firstItem (stack : List Frame)
  /-- A first key or the end of an object. -/
  | firstKey (stack : List Frame)
  /-- A further key of an object. -/
  | key (before : List (Content × Value)) (stack : List Frame)
  /-- The colon after a key. -/
  | colon (before : List (Content × Value)) (key : Content) (stack : List Frame)
  /-- A comma or the end, after a value has been put into the innermost frame. -/
  | afterItem (before : List Value) (stack : List Frame)
  | afterMember (before : List (Content × Value)) (stack : List Frame)
  /-- Nothing: the value is complete. -/
  | done (v : Value)
  deriving Repr

namespace Progress

/-- Put a complete value into the innermost open frame. -/
def deliver (v : Value) : List Frame → Progress
  | [] => done v
  | .items before :: stack => afterItem (v :: before) stack
  | .member before k :: stack => afterMember ((k, v) :: before) stack

/-- A token where a value has to start. -/
def startValue (stack : List Frame) : Token → Option Progress
  | .openArray => some (firstItem stack)
  | .openObject => some (firstKey stack)
  | .null => some (deliver .null stack)
  | .bool b => some (deliver (.bool b) stack)
  | .number l => some (deliver (.number l) stack)
  | .text s => some (deliver (.text s) stack)
  | _ => none

def step : Progress → Token → Option Progress
  | value stack, t => startValue stack t
  | firstItem stack, .closeArray => some (deliver (.array []) stack)
  | firstItem stack, t => startValue (.items [] :: stack) t
  | firstKey stack, .closeObject => some (deliver (.object []) stack)
  | firstKey stack, .text k => some (colon [] k stack)
  | key before stack, .text k => some (colon before k stack)
  | colon before k stack, .colon => some (value (.member before k :: stack))
  | afterItem before stack, .comma => some (value (.items before :: stack))
  | afterItem before stack, .closeArray => some (deliver (.array before.reverse) stack)
  | afterMember before stack, .comma => some (key before stack)
  | afterMember before stack, .closeObject => some (deliver (.object before.reverse) stack)
  | _, _ => none

end Progress

def parse (s : String) : Option Value := do
  match ← (← Token.scanAll s.toList).foldlM Progress.step (.value []) with
  | .done v => some v
  | _ => none

end KetSim.Json
