import KetSim.Decimal
/-!
# Texts of machine floats

Errors show a number in full: the fewest digits that read back, always positional, a whole number
without a point. States and charts show four places, rounded to the nearest, halves to even. A sign
is kept even where only zeros follow it.
-/
namespace KetSim.Scalar.Machine
open Float.Model

/-- The sign in front of a number; zeros have one too. -/
def signText : UnpackedFloat.Sign → List Char
  | .negative => ['-']
  | .positive => []

def fullText (x : Float) : String :=
  match x.toModel.unpack with
  | .notANumber => "NaN"
  | .infinity s => String.ofList (signText s ++ "inf".toList)
  | .zero s => String.ofList (signText s ++ ['0'])
  | .finite s m e _ =>
    match (Decimal.shortest .upward m e).positional with
    | (whole, []) => String.ofList (signText s ++ whole)
    | (whole, places) => String.ofList (signText s ++ whole ++ '.' :: places)

def fourPlaces (x : Float) : String :=
  match x.toModel.unpack with
  | .notANumber => "NaN"
  | .infinity s => String.ofList (signText s ++ "inf".toList)
  | .zero s => String.ofList (signText s ++ Decimal.toPlaces 4 0 0)
  | .finite s m e _ => String.ofList (signText s ++ Decimal.toPlaces 4 m e)

end KetSim.Scalar.Machine
