import KetSim.Operation
/-!
# Circuits

The width of a register and the operations applied to it, in order. `Circuit.check` decides whether
every operation fits: the right number of qubits, all inside the register, none twice. It names the
first misfit, looking at the number of qubits before the qubits themselves and at the qubits from
left to right.
-/
namespace KetSim

/-- A register width and operations in the order in which they are applied. -/
structure Circuit where
  width : Nat
  operations : List Operation
  deriving Repr, DecidableEq

namespace Circuit
variable {R : Type}

/-- The largest index an error can name. -/
def maxNamedIndex : Nat := 1 <<< 63 - 1

/-- Every qubit lies inside the register and differs from those before it. -/
def checkTargets (position : Nat) (gate : Gate) (width : Nat) (before : List Qubit) :
    List Qubit → Except (Error R) Unit
  | [] => .ok ()
  | q :: rest =>
    if width ≤ q.index then
      .error (.targetOutOfRange position gate.name (min q.index maxNamedIndex) width)
    else if q ∈ before then
      .error (.repeatedTarget position gate.name q.index)
    else checkTargets position gate width (q :: before) rest

/-- The operation at the given position fits a register of the given width. -/
def checkOperation (width position : Nat) (op : Operation) : Except (Error R) Unit :=
  if op.targets.length = op.gate.arity then
    checkTargets position op.gate width [] op.targets
  else .error (.arity position op.gate.name op.gate.arity op.targets.length)

/-- All operations fit, the first of them standing at the given position. -/
def checkFrom (width position : Nat) : List Operation → Except (Error R) Unit
  | [] => .ok ()
  | op :: rest => do
    checkOperation width position op
    checkFrom width (position + 1) rest

/-- The register is not empty and every operation fits it. -/
def check (c : Circuit) : Except (Error R) Unit :=
  if c.width = 0 then .error (.registerSize 0 0) else checkFrom c.width 0 c.operations

/-- The circuit of a width and operations, provided that they fit. -/
def make (width : Nat) (operations : List Operation) : Except (Error R) Circuit := do
  let c : Circuit := ⟨width, operations⟩
  c.check
  return c

end Circuit

end KetSim
