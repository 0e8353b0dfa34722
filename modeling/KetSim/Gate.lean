import KetSim.Amplitude
/-!
# The gate table

Five gates, each with the name by which a program calls it, its number of qubits and the two-by-two
matrix that acts on its target. The table is closed: a name outside it is no gate.
-/
namespace KetSim

inductive Gate where
  | x | y | z | h
  /-- Flips its second qubit where the first is one. -/
  | cnot
  deriving Repr, DecidableEq

namespace Gate

def all : List Gate := [x, y, z, h, cnot]

/-- The name by which a program calls the gate. -/
def name : Gate → String
  | x => "x"
  | y => "y"
  | z => "z"
  | h => "h"
  | cnot => "cx"

def ofName? (name : String) : Option Gate := all.find? (·.name == name)

def arity : Gate → Nat
  | cnot => 2
  | _ => 1

/-- The letter that marks the target of the gate in a drawing. -/
def symbol : Gate → Char
  | x | cnot => 'X'
  | y => 'Y'
  | z => 'Z'
  | h => 'H'

/-- A two-by-two matrix: rows are outcomes, columns are inputs. -/
structure Matrix (A : Type) where
  m00 : A
  m01 : A
  m10 : A
  m11 : A
  deriving Repr, DecidableEq

/-- The matrix that acts on the gate's target; for `cnot`, where its control is one. -/
def matrix {A : Type} [Coefficient A] : Gate → Matrix A
  | x | cnot => ⟨0, 1, 1, 0⟩
  | y => ⟨0, -Coefficient.imaginary, Coefficient.imaginary, 0⟩
  | z => ⟨1, 0, 0, -1⟩
  | h => ⟨Coefficient.invSqrt2, Coefficient.invSqrt2, Coefficient.invSqrt2, -Coefficient.invSqrt2⟩

theorem ofName?_name (g : Gate) : ofName? g.name = some g := by cases g <;> decide

end Gate

end KetSim
