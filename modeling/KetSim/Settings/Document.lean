import KetSim.Scalar.Machine
import KetSim.Settings
import KetSim.Yaml.Number
/-!
# Settings from a document

A YAML document holds settings as one mapping. Settings that are not written take their standard
values, other keys are passed over, and a setting is written at most once. Numbers are plain
scalars.
-/
namespace KetSim.Settings
open Scalar.Machine Yaml

/-- The settings that a document has named so far. -/
structure Written where
  maxQubits : Option Nat
  zeroNormTolerance : Option Float
  normalizationTolerance : Option Float

def writeOnce {α : Type} (written : Option α) (value : Option α) : Option (Option α) :=
  match written, value with
  | none, some a => some (some a)
  | _, _ => none

/-- Write a setting under its key. Other keys are passed over. -/
def Written.set (w : Written) (key : String) (value : Node) : Option Written := do
  match key with
  | "max_qubits" => return { w with maxQubits := ← writeOnce w.maxQubits value.word? }
  | "zero_norm_tolerance" =>
    return { w with zeroNormTolerance := ← writeOnce w.zeroNormTolerance value.float? }
  | "normalization_tolerance" =>
    return { w with normalizationTolerance := ← writeOnce w.normalizationTolerance value.float? }
  | _ => return w

/-- Take one entry of the mapping in the document with the given root. -/
def Written.add (root : Node) (w : Written) (entry : Node × Node) : Option Written := do
  match ← root.resolve entry.1 with
  | .scalar _ _ _ key => w.set key (← root.resolve entry.2)
  | _ => none

/-- The written settings, and the standard ones where nothing is written. -/
def Written.complete (w : Written) : Settings Float :=
  ⟨w.maxQubits.getD standard.maxQubits, w.zeroNormTolerance.getD standard.zeroNormTolerance,
    w.normalizationTolerance.getD standard.normalizationTolerance⟩

/-- The settings that the root of a document writes. A root that is left out writes none. -/
def ofRoot? (root : Node) : Option (Settings Float) :=
  match root with
  | .scalar _ .plain _ "" => some standard
  | .mapping _ entries =>
    (entries.foldlM (Written.add root) ⟨none, none, none⟩).map Written.complete
  | _ => none

/-- The settings that a document writes, checked. -/
def ofDocument (text : String) : Except (SettingsProblem Float) (Settings Float) := do
  let s ← match Yaml.parse text with
    | some none => pure standard
    | some (some n) =>
      match ofRoot? n with
      | some s => pure s
      | none => throw .document
    | none => throw .document
  s.validate
  return s

end KetSim.Settings
