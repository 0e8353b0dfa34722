import KetSim.Distribution
import KetSim.Scalar.Machine
import KetSim.Scalar.Text
/-!
# Charts

A distribution is shown as a line for each outcome: its label, its probability to four places, and a
bar as long as the probability, forty blocks for one.
-/
namespace KetSim
open Scalar.Machine

/-- The number of blocks of a bar, halves rounded up. Nothing is drawn for a negative number. -/
def Outcome.barLength (e : Outcome Float) : Nat := (e.probability * 40).round.toUInt64.toNat

def padLeft (width : Nat) (s : String) : String :=
  String.ofList (List.replicate (width - s.length) ' ') ++ s

def Outcome.chartLine (e : Outcome Float) : String :=
  "  " ++ e.label ++ " " ++ padLeft 7 (fourPlaces e.probability) ++ " "
    ++ String.ofList (List.replicate e.barLength '█') ++ "\n"

/-- The longest bar that can be held: a block takes three bytes. -/
def maxBar : Nat := (1 <<< 63 - 1) / 3

namespace Distribution

/-- A heading, then a line for each outcome. -/
def chartText (d : Distribution Float) : String :=
  "Probability distribution (" ++ toString d.numQubits ++ " qubits):\n"
    ++ String.join (d.outcomes.map Outcome.chartLine)

/-- The chart of a distribution whose bars can be held. -/
def chart (d : Distribution Float) : Except Fault String :=
  if d.outcomes.all (·.barLength ≤ maxBar) then .ok d.chartText else .error .unaddressable

end Distribution

end KetSim
