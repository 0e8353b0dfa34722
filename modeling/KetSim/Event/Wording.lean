import KetSim.Error.Message
import KetSim.Event
/-!
# Event texts

Each event has a level, a message and named fields, in a fixed order.
-/
namespace KetSim

inductive Level where
  | trace | debug | info | warn
  deriving Repr, DecidableEq

inductive Field where
  | int (n : Int)
  | real (x : Float)
  | text (s : String)
  deriving Repr

namespace Event

def level : Event Float → Level
  | gateSkipped .. | statementSkipped .. => .trace
  | engineReady .. => .info
  | normDrifted .. | bootstrapFailed .. => .warn
  | _ => .debug

def message : Event Float → String
  | registerDeclared .. => "register declared"
  | declarationIgnored .. => "ignoring additional register declaration"
  | gateSkipped .. => "skipping gate outside the supported set"
  | statementSkipped .. => "skipping record"
  | circuitBuilt .. => "circuit plan built"
  | normDrifted .. => "state drifted from unit norm"
  | statePrepared .. => "statevector prepared"
  | distributionBuilt .. => "distribution built"
  | executing .. => "executing plan"
  | engineReady .. => "statevector engine ready"
  | bootstrapFailed .. => "statevector engine bootstrap failed"
  | enginePublished .. => "engine published"

def fields : Event Float → List (String × Field)
  | registerDeclared position register size =>
    [("position", .int position), ("register", .text register), ("size", .int size)]
  | declarationIgnored position size firstPosition =>
    [("position", .int position), ("size", .int size), ("first_position", .int firstPosition)]
  | gateSkipped position gate => [("position", .int position), ("gate", .text gate)]
  | statementSkipped position kind => [("position", .int position), ("kind", .text kind.name)]
  | circuitBuilt width operations =>
    [("register_size", .int width), ("operations", .int operations)]
  | normDrifted error => [("error", .text error.message)]
  | statePrepared dim => [("dim", .int dim)]
  | distributionBuilt numQubits scale scaledNorm =>
    [("num_qubits", .int numQubits), ("scale", .real scale), ("scaled_norm", .real scaledNorm)]
  | executing width operations => [("register_size", .int width), ("ops", .int operations)]
  | engineReady maxQubits => [("max_qubits", .int maxQubits)]
  | bootstrapFailed error => [("error", .text error.message)]
  | enginePublished backend => [("backend", .text backend)]

end Event

end KetSim
