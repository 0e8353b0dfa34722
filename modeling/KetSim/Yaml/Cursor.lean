/-!
# Places in a text

A cursor is what is left of a text together with where that begins: how many octets and lines come
before it, and how many characters on its line. Every kind of line break has become a line feed
before a cursor is made.
-/
namespace KetSim.Yaml

/-- The rest of a text and its place. -/
structure Cursor where
  rest : List Char
  index : Nat
  line : Nat
  column : Nat
  deriving Repr

def isBlank (c : Char) : Bool := c == ' ' || c == '\t'

def isBreak (c : Char) : Bool := c == '\n'

/-- Every line break as a line feed. -/
def unifyBreaks : List Char → List Char
  | [] => []
  | '\r' :: '\n' :: rest => '\n' :: unifyBreaks rest
  | c :: rest =>
    if c = '\r' ∨ c = '\u0085' ∨ c = '\u2028' ∨ c = '\u2029' then '\n' :: unifyBreaks rest
    else c :: unifyBreaks rest

def isAllowed (c : Char) : Bool :=
  let n := c.toNat
  n == 0x09 || n == 0x0A || (0x20 ≤ n && n ≤ 0x7E)
    || (0xA0 ≤ n && n != 0xFFFE && n != 0xFFFF)

def byteOrderMark : Char := '\uFEFF'

namespace Cursor

def ofText (s : String) : Option Cursor :=
  let cs := unifyBreaks s.toList
  if cs.all isAllowed then some ⟨cs, 0, 0, 0⟩ else none

def next (c : Cursor) : Cursor :=
  match c.rest with
  | [] => c
  | '\n' :: rest => ⟨rest, c.index + 1, c.line + 1, 0⟩
  | d :: rest => ⟨rest, c.index + d.utf8Size, c.line, c.column + 1⟩

def advance (c : Cursor) (n : Nat) : Cursor := Nat.repeat next n c

/-- The place where the given rest of the text begins. -/
def upTo (c : Cursor) (rest : List Char) : Cursor := c.advance (c.rest.length - rest.length)

def head? (c : Cursor) : Option Char := c.rest.head?

end Cursor

/-- A blank, a line break or the end stands first. -/
def startsBlank : List Char → Bool
  | [] => true
  | c :: _ => isBlank c || isBreak c

/-- A line that separates documents stands first. -/
def startsMark : List Char → Bool
  | '-' :: '-' :: '-' :: rest => startsBlank rest
  | '.' :: '.' :: '.' :: rest => startsBlank rest
  | _ => false

end KetSim.Yaml
