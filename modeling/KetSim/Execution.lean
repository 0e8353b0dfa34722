import KetSim.Distribution
import KetSim.Engine
import KetSim.Lowering
/-!
# Execution

A program is lowered to a circuit, the circuit run on a backend, and the amplitudes turned into a
distribution. The zero-norm tolerance is the backend's own unless the caller gives one.
-/
namespace KetSim

/-- What an execution gives: the circuit that was run and the distribution of its outcomes. -/
structure Execution (R : Type) where
  circuit : Circuit
  distribution : Distribution R
  deriving Repr

def Backend.execute {R : Type} [Scalar R] (b : Backend R) (tolerance : Option R)
    (statements : List Statement) : Report R (Execution R) := do
  let circuit ← Circuit.ofStatements statements
  Report.note (.executing circuit.width circuit.operations.length)
  let amps ← b.run circuit
  let distribution ←
    Distribution.ofAmplitudes amps.toList (tolerance.getD b.zeroNormTolerance)
  return ⟨circuit, distribution⟩

end KetSim
