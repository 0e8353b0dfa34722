/-!
# Statements of a program

One statement of a program after parsing. Integers are kept as they were written; whether they make
sense is decided when the program is lowered to a circuit.
-/
namespace KetSim

inductive Statement where
  /-- The language version. -/
  | version (text : String)
  | inclusion (path : String)
  /-- A quantum register; no size means a single qubit. -/
  | qubits (identifier : String) (size : Option Int)
  /-- A classical register; no size means a single bit. -/
  | bits (identifier : String) (size : Option Int)
  | gateCall (name : String) (targets : List Int)
  | measurement (qubit : Int) (bit : Option Int)
  | barrier (qubits : List Int)
  /-- Any other statement, kept as its text. -/
  | other (text : String)
  deriving Repr, DecidableEq

namespace Statement

inductive Kind where
  | version | inclusion | qubits | bits | gateCall | measurement | barrier | other
  deriving Repr, DecidableEq

def kind : Statement → Kind
  | version _ => .version
  | inclusion _ => .inclusion
  | qubits _ _ => .qubits
  | bits _ _ => .bits
  | gateCall _ _ => .gateCall
  | measurement _ _ => .measurement
  | barrier _ => .barrier
  | other _ => .other

namespace Kind

def all : List Kind := [version, inclusion, qubits, bits, gateCall, measurement, barrier, other]

/-- The name of the kind in events and in stored programs. -/
def name : Kind → String
  | version => "Version"
  | inclusion => "Include"
  | qubits => "QuantumDeclaration"
  | bits => "ClassicalDeclaration"
  | gateCall => "GateCall"
  | measurement => "Measurement"
  | barrier => "Barrier"
  | other => "Unsupported"

def ofName? (name : String) : Option Kind := all.find? (·.name == name)

theorem ofName?_name (k : Kind) : ofName? k.name = some k := by cases k <;> decide

end Kind

def operand (index : Int) : String := "q[" ++ toString index ++ "]"

/-- Operands after a keyword, set off by a blank and separated by commas. -/
def operands : List Int → String
  | [] => ""
  | first :: rest => " " ++ ", ".intercalate ((first :: rest).map operand)

def declarationText (keyword identifier : String) : Option Int → String
  | some n => keyword ++ "[" ++ toString n ++ "] " ++ identifier ++ ";"
  | none => keyword ++ " " ++ identifier ++ ";"

/-- The statement in the language's own notation. -/
def text : Statement → String
  | version v => "OPENQASM " ++ v ++ ";"
  | inclusion path => "include \"" ++ path ++ "\";"
  | qubits identifier size => declarationText "qubit" identifier size
  | bits identifier size => declarationText "bit" identifier size
  | gateCall name targets => name ++ operands targets ++ ";"
  | measurement qubit (some bit) =>
    "c[" ++ toString bit ++ "] = measure " ++ operand qubit ++ ";"
  | measurement qubit none => "measure " ++ operand qubit ++ ";"
  | barrier targets => "barrier" ++ operands targets ++ ";"
  | other text => text

/-- The declaration of a register `q` of the given size. -/
def declare (size : Int) : Statement := qubits "q" (some size)

end Statement

end KetSim
