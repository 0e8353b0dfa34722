import KetSim.Event
import KetSim.Ket
import KetSim.Normalization
/-!
# Probability distributions

The distribution of a vector of amplitudes lists every basis state with its label, its normalized
amplitude and its probability. Amplitudes are divided by their largest component before they are
squared, so nothing overflows or vanishes and any finite vector but the zero vector has a
distribution. A distribution can also be read from text, and then holds whatever was written.
-/
namespace KetSim

/-- One basis state of a distribution. -/
structure Outcome (R : Type) where
  index : Nat
  label : String
  amplitude : Amplitude R
  probability : R
  deriving Repr, DecidableEq

/-- Basis states with their probabilities, in order. -/
structure Distribution (R : Type) where
  numQubits : Nat
  outcomes : List (Outcome R)
  deriving Repr, DecidableEq

namespace Distribution
variable {R : Type} [Scalar R]

/-- The largest magnitude of a component. -/
def largestComponent (amps : List (Amplitude R)) : R :=
  amps.foldl (fun m a => Scalar.larger (Scalar.larger m (Scalar.abs a.re)) (Scalar.abs a.im)) 0

/-- The outcome at an index, from its scaled amplitude and the norm of all scaled amplitudes. -/
def outcome (numQubits : Nat) (norm : R) (index : Nat) (scaled : Amplitude R) : Outcome R :=
  let share := scaled.magnitude / norm
  { index
    label := Ket.label index numQubits
    amplitude := scaled.scaleDown norm
    probability := Scalar.cap (share * share) 1 }

def norm (amps : List (Amplitude R)) : R :=
  Scalar.sqrt (Scalar.sum (amps.map fun a => a.magnitude * a.magnitude))

/-- The distribution of a vector of amplitudes. A vector with a component that is not finite, or
whose largest component is zero or at most the tolerance, has none. -/
def ofAmplitudes (amps : List (Amplitude R)) (zeroNormTolerance : R) :
    Report R (Distribution R) := do
  let numQubits ← Report.ofExcept (Amplitude.qubitCount amps.length)
  unless amps.all Amplitude.isFinite do
    throw (.zeroNorm amps.length)
  let scale := largestComponent amps
  if Scalar.same scale 0 || Scalar.le scale zeroNormTolerance then
    throw (.zeroNorm amps.length)
  let scaled := amps.map (·.scaleDown scale)
  let norm := norm scaled
  let outcomes := scaled.zipIdx.map fun (a, index) => outcome numQubits norm index a
  Report.note (.distributionBuilt numQubits scale norm)
  return ⟨numQubits, outcomes⟩

section Access
omit [Scalar R]

def labels (d : Distribution R) : List String := d.outcomes.map Outcome.label

def probabilities (d : Distribution R) : List R := d.outcomes.map Outcome.probability

/-- The probability of the first outcome with the given label. -/
def get? (d : Distribution R) (label : String) : Option R :=
  (d.outcomes.find? (·.label == label)).map Outcome.probability

end Access

/-- The more probable of two outcomes; the first one when they are equally probable. -/
def likelier (best e : Outcome R) : Outcome R :=
  if Scalar.le e.probability best.probability then best else e

/-- The most probable outcome; of several the first one. -/
def mostLikely? (d : Distribution R) : Option (Outcome R) :=
  match d.outcomes with
  | [] => none
  | first :: rest => some (rest.foldl likelier first)

def total (d : Distribution R) : R := Scalar.sum d.probabilities

def positiveCount (d : Distribution R) : Nat :=
  d.outcomes.countP fun e => Scalar.lt 0 e.probability

end Distribution

end KetSim
