import KetSim.Decimal
/-!
# Number literals

A JSON number as it is written: sign, digits before the point, digits after it, exponent. An integer
is a literal without point and exponent, and minus zero is no integer. A literal is read as a float
by collecting its digits in a word as long as they fit and scaling once by a power of ten, in steps
where the power is out of range; a literal too large to be finite has no value.
-/
namespace KetSim.Json

/-- A number as written. A fraction without digits is no fraction. -/
structure Literal where
  negative : Bool
  whole : List Char
  fraction : List Char
  exponent : Option Int
  deriving Repr, DecidableEq

namespace Literal

def ofNat (n : Nat) : Literal := ⟨false, Decimal.digitChars n, [], none⟩

def ofInt : Int → Literal
  | .ofNat n => ofNat n
  | .negSucc n => ⟨true, Decimal.digitChars (n + 1), [], none⟩

def toInt? (l : Literal) : Option Int :=
  match l.fraction, l.exponent with
  | [], none =>
    let n := Decimal.readDigits l.whole
    if l.negative then if n = 0 then none else some (-n) else some n
  | _, _ => none

/-- The natural number that is written, where it fits a word. -/
def toWord? (l : Literal) : Option Nat :=
  match l.toInt? with
  | some (.ofNat n) => if n < 1 <<< 64 then some n else none
  | _ => none

/-- The integer that is written, where it fits a signed word. -/
def toSignedWord? (l : Literal) : Option Int :=
  match l.toInt? with
  | some z => if -0x8000000000000000 ≤ z ∧ z ≤ 0x7FFFFFFFFFFFFFFF then some z else none
  | none => none

/-! ## Floats -/

/-- A float is written with the fewest digits that read back, of two equally near decimals the one
with the even last digit; positionally with at least one place from a hundred-thousandth up to ten
to the sixteenth, otherwise with one digit before the point and an exponent. -/
def ofFinite (negative : Bool) (m : Nat) (e : Int) : Literal :=
  let d := Decimal.shortest .toEven m e
  let place := d.pointPlace
  if -5 < place ∧ place ≤ 16 then
    match d.positional with
    | (whole, []) => ⟨negative, whole, ['0'], none⟩
    | (whole, fraction) => ⟨negative, whole, fraction, none⟩
  else
    let cs := Decimal.digitChars d.digits
    ⟨negative, cs.take 1, cs.drop 1, some (place - 1)⟩

/-- The literal of a float. Only finite floats have one. -/
def ofFloat? (x : Float) : Option Literal :=
  match x.toModel.unpack with
  | .finite s m e _ => some (ofFinite (s == .negative) m e)
  | .zero s => some ⟨s == .negative, ['0'], ['0'], none⟩
  | _ => none

/-- A word and the power of ten that it is to be scaled by. -/
structure Scaled where
  word : Nat
  exponent : Int

/-- The word with one more digit, where that still fits. -/
def pushDigit? (word : Nat) (c : Char) : Option Nat :=
  let n := word * 10 + Decimal.digitValue c
  if n < 1 <<< 64 then some n else none

/-- Digits before the point: from the first that does not fit on, they only count. -/
def collectWhole (word : Nat) : List Char → Scaled
  | [] => ⟨word, 0⟩
  | c :: rest =>
    match pushDigit? word c with
    | some n => collectWhole n rest
    | none => ⟨word, (c :: rest).length⟩

/-- Digits after the point: from the first that does not fit on, they are dropped. -/
def collectFraction (s : Scaled) : List Char → Scaled
  | [] => s
  | c :: rest =>
    match pushDigit? s.word c with
    | some n => collectFraction ⟨n, s.exponent - 1⟩ rest
    | none => s

/-- Scale a float by a power of ten: at once where the power is a float, otherwise downwards in
steps of the largest power. -/
def scaleFloat (x : Float) (e : Int) : Option Float :=
  if 0 ≤ e then
    if e ≤ 308 then
      let y := x * Float.ofScientific 1 false e.toNat
      if y.isInf then none else some y
    else if x == 0.0 then some x else none
  else if -308 ≤ e then some (x / Float.ofScientific 1 false (-e).toNat)
  else if x == 0.0 then some x
  else scaleFloat (x / 1e308) (e + 308)
termination_by e.natAbs

/-- The largest exponent that is taken at its value. -/
def maxExponent : Int := 0x7FFFFFFF

/-- The value of the digits and the exponent, without the sign. An integer that fits a word is
rounded once. -/
def magnitude? (l : Literal) : Option Float :=
  let s := collectFraction (collectWhole 0 l.whole) l.fraction
  match l.exponent with
  | none => scaleFloat s.word.toUInt64.toFloat s.exponent
  | some e =>
    if e.natAbs ≤ maxExponent.toNat then scaleFloat s.word.toUInt64.toFloat (s.exponent + e)
    else if s.word = 0 ∨ e < 0 then some 0.0 else none

def toFloat? (l : Literal) : Option Float :=
  l.magnitude?.map fun x => if l.negative then -x else x

/-! ## Text -/

def exponentChars : Option Int → List Char
  | none => []
  | some (.ofNat n) => 'e' :: '+' :: Decimal.digitChars n
  | some (.negSucc n) => 'e' :: '-' :: Decimal.digitChars (n + 1)

def fractionChars : List Char → List Char
  | [] => []
  | cs => '.' :: cs

def chars (l : Literal) : List Char :=
  (if l.negative then ['-'] else []) ++ l.whole ++ fractionChars l.fraction
    ++ exponentChars l.exponent

end Literal

end KetSim.Json
