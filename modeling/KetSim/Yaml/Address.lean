import KetSim.Numeral
import KetSim.Yaml.Cursor
/-!
# Addresses

Tags are addresses: octets that are written as ASCII characters of an address, or each as a percent
sign with two hexadecimal digits. Escaped octets come in groups of the lengths that characters have
in UTF-8. Only the shape of a group is looked at, so its octets need not make up a character.
-/
namespace KetSim.Yaml

/-- The octets of an address. -/
abbrev Address := List UInt8

def isNameChar (c : Char) : Bool := c.isAlphanum || c == '_' || c == '-'

/-- A sign of an address that ends nothing around it. -/
def isAddressSign (c : Char) : Bool :=
  c == ';' || c == '/' || c == '?' || c == ':' || c == '@' || c == '&' || c == '=' || c == '+'
    || c == '$' || c == '.' || c == '!' || c == '~' || c == '*' || c == '\'' || c == '(' || c == ')'

namespace Address

def octet (c : Char) : UInt8 := c.toNat.toUInt8

/-- The address that ASCII text writes without escapes. -/
def ofText (s : String) : Address := s.toList.map octet

/-- The octet that two hexadecimal digits write. -/
def escaped? (high low : Char) : Option UInt8 := do
  return ((← Numeral.digit? 16 high) * 16 + (← Numeral.digit? 16 low)).toUInt8

/-- How many octets have to follow one at the start of a group. -/
def following? (first : UInt8) : Option Nat :=
  if first < 0x80 then some 0
  else if first < 0xC0 then none
  else if first < 0xE0 then some 1
  else if first < 0xF0 then some 2
  else if first < 0xF8 then some 3
  else none

/-- How many octets are due after an escaped one, when some were due before it. -/
def dueAfter (octet : UInt8) : Nat → Option Nat
  | 0 => following? octet
  | due + 1 => if 0x80 ≤ octet ∧ octet < 0xC0 then some due else none

/-- The address at the start, and what follows it, when some octets of a group are still due. Commas
and square brackets belong to it only where it stands alone. -/
def take (alone : Bool) (due : Nat) : List Char → Option (Address × List Char)
  | '%' :: high :: low :: rest => do
    let o ← escaped? high low
    let (taken, rest) ← take alone (← dueAfter o due) rest
    return (o :: taken, rest)
  | [] => if due = 0 then some ([], []) else none
  | c :: rest =>
    if due ≠ 0 ∨ c = '%' then none
    else if isNameChar c || isAddressSign c || (alone && (c == ',' || c == '[' || c == ']')) then do
      let (taken, rest) ← take alone 0 rest
      return (octet c :: taken, rest)
    else some ([], c :: rest)

/-- An address of at least one octet, and what follows it. -/
def takeSome (alone : Bool) (cs : List Char) : Option (Address × List Char) := do
  let (taken, rest) ← take alone 0 cs
  if taken.isEmpty then none else some (taken, rest)

end Address

end KetSim.Yaml
