import KetSim.Distribution
import KetSim.Json.Codec
/-!
# Stored distributions

An amplitude is stored as the pair of its components. Reading a distribution takes its numbers and
labels as they are.
-/
namespace KetSim.Stored
open Json

instance : Codec (Amplitude Float) where
  encode a := .array [Codec.encode a.re, Codec.encode a.im]
  decode
    | .array [re, im] => return ⟨← Codec.decode re, ← Codec.decode im⟩
    | _ => none

instance : Codec (Outcome Float) where
  encode e :=
    .record [("index", Codec.encode e.index), ("label", Codec.encode e.label),
      ("amplitude", Codec.encode e.amplitude), ("probability", Codec.encode e.probability)]
  decode v := do
    match ← Codec.fields? ["index", "label", "amplitude", "probability"] v with
    | [some index, some label, some amplitude, some probability] =>
      return ⟨← Codec.decode index, ← Codec.decode label, ← Codec.decode amplitude,
        ← Codec.decode probability⟩
    | _ => none

instance : Codec (Distribution Float) where
  encode d :=
    .record [("num_qubits", Codec.encode d.numQubits), ("entries", Codec.encode d.outcomes)]
  decode v := do
    match ← Codec.fields? ["num_qubits", "entries"] v with
    | [some numQubits, some outcomes] => return ⟨← Codec.decode numQubits, ← Codec.decode outcomes⟩
    | _ => none

end KetSim.Stored
