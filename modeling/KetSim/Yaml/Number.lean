import KetSim.Numeral
import KetSim.Yaml.Node
/-!
# Numbers

A number is a scalar whose text is a numeral of this format. Its numerals are stricter than others
about leading zeros, and have other bases and spellings for what is not finite.
-/
namespace KetSim.Yaml

/-- The word that a scalar writes, in decimal digits without leading zeros or behind the sign of
another base. It may have a plus sign. -/
def word? (text : String) : Option Nat :=
  match Numeral.dropPlus text.toList with
  | '0' :: 'x' :: ds => Numeral.digits? 16 ds
  | '0' :: 'o' :: ds => Numeral.digits? 8 ds
  | '0' :: 'b' :: ds => Numeral.digits? 2 ds
  | '0' :: _ :: _ => none
  | ds => Numeral.digits? 10 ds

def infinities : List String := [".inf", ".Inf", ".INF"]

def notNumbers : List String := [".nan", ".NaN", ".NAN"]

/-- The float that a scalar writes. What is not finite has spellings of its own, behind a point. -/
def float? (text : String) : Option Float :=
  let cs := Numeral.dropPlus text.toList
  let unsigned := String.ofList cs
  if infinities.contains unsigned then some (1.0 / 0.0)
  else if (infinities.map ("-" ++ ·)).contains text then some (-1.0 / 0.0)
  else if notNumbers.contains text then some (0.0 / 0.0)
  else if unsigned != text && (Numeral.takeSign cs).2 != cs then none
  else (Numeral.float? unsigned).filter Float.isFinite

namespace Node

/-- The text of a number: a plain scalar, or a literal block with the tag of its kind. -/
def numberText? (kind : String) : Node → Option String
  | .scalar _ .plain _ text => some text
  | .scalar _ .literal (some tag) text =>
    if tag = .ofText ("tag:yaml.org,2002:" ++ kind) then some text else none
  | _ => none

def word? (n : Node) : Option Nat := (n.numberText? "int").bind Yaml.word?

def float? (n : Node) : Option Float := (n.numberText? "float").bind Yaml.float?

end Node

end KetSim.Yaml
