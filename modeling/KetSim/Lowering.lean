import KetSim.Circuit
import KetSim.Event
/-!
# Lowering a program to a circuit

Statements are read one by one. The first quantum declaration fixes the register, wherever it
stands; later ones are ignored. Calls of gates in the table are collected; every other statement is
ignored. Each ignored statement, and each declaration, is reported with its position. Only when all
statements are read are the calls checked against the register, so the first misfit in program order
is the one reported.
-/
namespace KetSim

/-- A call of a gate in the table: where it stands, the gate, and the operands as written. -/
structure Call where
  position : Nat
  gate : Gate
  targets : List Int
  deriving Repr, DecidableEq

/-- What has been read of a program. -/
structure Lowering where
  /-- The number of statements read, which is the position of the next one. -/
  position : Nat
  /-- Position and size of the first register declaration. -/
  declaration : Option (Nat × Int)
  /-- The recognised gate calls, latest first. -/
  calls : List Call
  deriving Repr, DecidableEq

namespace Lowering
variable {R : Type}

def start : Lowering := ⟨0, none, []⟩

/-- A register declared without a size holds one qubit. -/
def declaredSize (size : Option Int) : Int := size.getD 1

def add (l : Lowering) (s : Statement) : Lowering :=
  let next := { l with position := l.position + 1 }
  match s with
  | .qubits _ size =>
    match l.declaration with
    | none => { next with declaration := some (l.position, declaredSize size) }
    | some _ => next
  | .gateCall name targets =>
    match Gate.ofName? name with
    | some gate => { next with calls := ⟨l.position, gate, targets⟩ :: l.calls }
    | none => next
  | _ => next

/-- What is reported when a statement is read: nothing exactly for a recognised gate call. -/
def notice? (l : Lowering) (s : Statement) : Option (Event R) :=
  match s with
  | .qubits identifier size =>
    match l.declaration with
    | none => some (.registerDeclared l.position identifier (declaredSize size))
    | some (first, _) => some (.declarationIgnored l.position (declaredSize size) first)
  | .gateCall name _ =>
    match Gate.ofName? name with
    | some _ => none
    | none => some (.gateSkipped l.position name)
  | s => some (.statementSkipped l.position s.kind)

def addAll (l : Lowering) : List Statement → Logged R Lowering
  | [] => pure l
  | s :: rest => do
    match notice? l s with
    | some e => Logged.note e
    | none => pure ()
    addAll (l.add s) rest

/-- The operands of a call as qubits of the register, each inside it and different from those
before it. -/
def resolveTargets (position : Nat) (gate : Gate) (width : Nat) (before : List Qubit) :
    List Int → Except (Error R) (List Qubit)
  | [] => .ok []
  | raw :: rest =>
    if 0 ≤ raw ∧ raw < width then
      let q : Qubit := ⟨raw.toNat⟩
      if q ∈ before then .error (.repeatedTarget position gate.name q.index)
      else do return q :: (← resolveTargets position gate width (q :: before) rest)
    else .error (.targetOutOfRange position gate.name raw width)

/-- One recognised call as an operation on a register of the given width. -/
def resolve (width : Nat) (call : Call) : Except (Error R) Operation :=
  if call.targets.length = call.gate.arity then do
    return ⟨call.gate, ← resolveTargets call.position call.gate width [] call.targets⟩
  else .error (.arity call.position call.gate.name call.gate.arity call.targets.length)

/-- The circuit of what has been read. -/
def finish (l : Lowering) : Report R Circuit := do
  match l.declaration with
  | none => throw .noRegister
  | some (position, size) =>
    if 0 < size then
      let width := size.toNat
      let operations ← Report.ofExcept (l.calls.reverse.mapM (resolve width))
      Report.note (.circuitBuilt width operations.length)
      return ⟨width, operations⟩
    else throw (.registerSize position size)

end Lowering

def Circuit.ofStatements {R : Type} (statements : List Statement) : Report R Circuit := do
  let l ← ExceptT.lift (Lowering.start.addAll statements)
  l.finish

end KetSim
