import KetSim.Gate
import KetSim.Qubit
/-!
# Operations

A gate applied to qubits. The type does not say that the number of qubits fits the gate or that they
differ; `KetSim.Circuit.check` does.
-/
namespace KetSim

/-- A gate with the qubits it is applied to, in call order. -/
structure Operation where
  gate : Gate
  targets : List Qubit
  deriving Repr, DecidableEq

namespace Operation

/-- The qubit that decides whether the gate acts: the first one of a controlled gate. -/
def control? (op : Operation) : Option Qubit :=
  match op.gate with
  | .cnot => op.targets.head?
  | _ => none

/-- The qubit on which the gate's matrix acts: the last one. -/
def target? (op : Operation) : Option Qubit := op.targets.getLast?

def text (op : Operation) : String :=
  match op.targets with
  | [] => op.gate.name
  | qs => op.gate.name ++ " " ++ ", ".intercalate (qs.map Qubit.text)

def single (g : Gate) (target : Qubit) : Operation := ⟨g, [target]⟩

def cnot (control target : Qubit) : Operation := ⟨.cnot, [control, target]⟩

@[simp] theorem target?_single (g : Gate) (q : Qubit) : (single g q).target? = some q := rfl

@[simp] theorem control?_single {g : Gate} (h : g ≠ .cnot) (q : Qubit) :
    (single g q).control? = none := by
  cases g with
  | cnot => exact absurd rfl h
  | _ => rfl

@[simp] theorem target?_cnot (c t : Qubit) : (cnot c t).target? = some t := rfl

@[simp] theorem control?_cnot (c t : Qubit) : (cnot c t).control? = some c := rfl

end Operation

end KetSim
