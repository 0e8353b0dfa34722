import KetSim.Circuit
import KetSim.Json.Codec
/-!
# Stored circuits

A gate is stored under its tag, a qubit as its index. Reading a circuit checks nothing but its
shape: whether the operations fit the register is for `Circuit.check` to say.
-/
namespace KetSim.Stored
open Json

/-- The name of a gate in stored circuits. -/
def gateTag : Gate → String
  | .x => "X"
  | .y => "Y"
  | .z => "Z"
  | .h => "H"
  | .cnot => "CNOT"

def gateOfTag? (tag : String) : Option Gate := Gate.all.find? (gateTag · == tag)

theorem gateOfTag?_gateTag (g : Gate) : gateOfTag? (gateTag g) = some g := by cases g <;> decide

instance : Codec Gate where
  encode g := .string (gateTag g)
  decode v := do gateOfTag? (← Codec.bareCase? v)

instance : Codec Qubit where
  encode q := Codec.encode q.index
  decode v := (Codec.decode v).map Qubit.mk

instance : Codec Operation where
  encode op := .record [("kind", Codec.encode op.gate), ("targets", Codec.encode op.targets)]
  decode v := do
    match ← Codec.fields? ["kind", "targets"] v with
    | [some gate, some targets] => return ⟨← Codec.decode gate, ← Codec.decode targets⟩
    | _ => none

instance : Codec Circuit where
  encode c :=
    .record [("register_size", Codec.encode c.width), ("operations", Codec.encode c.operations)]
  decode v := do
    match ← Codec.fields? ["register_size", "operations"] v with
    | [some width, some operations] => return ⟨← Codec.decode width, ← Codec.decode operations⟩
    | _ => none

end KetSim.Stored
