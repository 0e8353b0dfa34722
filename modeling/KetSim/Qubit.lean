import KetSim.Error
/-!
# Qubits

A qubit is named by its place in the register. Qubit 0 is the most significant digit of a basis
index, so a label reads from qubit 0 on the left to the last qubit on the right.
-/
namespace KetSim

structure Qubit where
  index : Nat
  deriving Repr, DecidableEq

namespace Qubit

def text (q : Qubit) : String := "q[" ++ toString q.index ++ "]"

/-- The place of the qubit's digit in a basis index, counted from the least significant one. A
register that is too narrow for the qubit has no such place. -/
def bitPosition (q : Qubit) (width : Nat) : Except Fault Nat :=
  if q.index < width then .ok (width - 1 - q.index) else .error .negativeDifference

end Qubit

end KetSim
