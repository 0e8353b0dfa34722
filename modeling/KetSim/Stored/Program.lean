import KetSim.Json.Codec
import KetSim.Program
/-!
# Stored programs

A statement is stored as an object with one member, named for its kind; a program as an object that
holds the list of them.
-/
namespace KetSim.Stored
open Json

instance : Codec Statement.Kind where
  encode k := .string k.name
  decode v := do Statement.Kind.ofName? (← Codec.bareCase? v)

def encodeDeclaration (identifier : String) (size : Option Int) : Value :=
  .record [("identifier", Codec.encode identifier), ("size", Codec.encode size)]

def decodeDeclaration (v : Value) : Option (String × Option Int) := do
  match ← Codec.fields? ["identifier", "size"] v with
  | [some identifier, size] => return (← Codec.decode identifier, ← Codec.optionalField? size)
  | _ => none

/-- What a statement carries besides its kind. -/
def statementFields : Statement → Value
  | .version text => Codec.encode text
  | .inclusion path => Codec.encode path
  | .qubits identifier size => encodeDeclaration identifier size
  | .bits identifier size => encodeDeclaration identifier size
  | .gateCall name targets =>
    .record [("name", Codec.encode name), ("targets", Codec.encode targets)]
  | .measurement qubit bit =>
    .record [("qubit", Codec.encode qubit), ("bit", Codec.encode bit)]
  | .barrier qubits => .record [("qubits", Codec.encode qubits)]
  | .other text => Codec.encode text

/-- The statement of a kind with what it carries. -/
def statementOfFields? (kind : Statement.Kind) (v : Value) : Option Statement :=
  match kind with
  | .version => return .version (← Codec.decode v)
  | .inclusion => return .inclusion (← Codec.decode v)
  | .qubits => do
    let (identifier, size) ← decodeDeclaration v
    return .qubits identifier size
  | .bits => do
    let (identifier, size) ← decodeDeclaration v
    return .bits identifier size
  | .gateCall => do
    match ← Codec.fields? ["name", "targets"] v with
    | [some name, some targets] => return .gateCall (← Codec.decode name) (← Codec.decode targets)
    | _ => none
  | .measurement => do
    match ← Codec.fields? ["qubit", "bit"] v with
    | [some qubit, bit] => return .measurement (← Codec.decode qubit) (← Codec.optionalField? bit)
    | _ => none
  | .barrier => do
    match ← Codec.fields? ["qubits"] v with
    | [some qubits] => return .barrier (← Codec.decode qubits)
    | _ => none
  | .other => return .other (← Codec.decode v)

instance : Codec Statement where
  encode s := Codec.carryingCase s.kind.name (statementFields s)
  decode v := do
    match ← Codec.case? v with
    | (name, some carried) => statementOfFields? (← Statement.Kind.ofName? name) carried
    | (_, none) => none

instance : Codec Program where
  encode p := .record [("records", Codec.encode p.statements)]
  decode v := do
    match ← Codec.fields? ["records"] v with
    | [some statements] => return ⟨← Codec.decode statements⟩
    | _ => none

end KetSim.Stored
