import KetSim.Amplitude
import KetSim.Scalar.Machine
import KetSim.Scalar.Text
import KetSim.StateVector
/-!
# Texts of states

An amplitude is written as real part, sign and imaginary part, each to four places. Only a number
below zero counts as negative, so the sign of a zero stays inside its digits.
-/
namespace KetSim
open Scalar.Machine

def Amplitude.text (a : Amplitude Float) : String :=
  let re := if a.re < 0.0 then "-" ++ fourPlaces a.re.abs else fourPlaces a.re
  let im := if a.im < 0.0 then "-" ++ fourPlaces a.im.abs else "+" ++ fourPlaces a.im
  re ++ im ++ "i"

def StateVector.text (s : StateVector (Amplitude Float)) : String :=
  "StateVector[" ++ ", ".intercalate (s.amplitudes.toList.map Amplitude.text) ++ "]"

end KetSim
