import KetSim.Distribution
import KetSim.Keystream
/-!
# Sampling

Outcomes are drawn in proportion to their probabilities. A draw is a fraction of the total weight,
and falls to the first outcome whose running sum lies above it; the last outcome takes what remains.
Counts are kept by label.
-/
namespace KetSim

/-- Weights prepared for drawing. -/
structure Sampler (R : Type) where
  /-- The running sums of all weights but the last. -/
  bounds : List R
  total : R
  deriving Repr

namespace Sampler
variable {R : Type} [Scalar R]

/-- The running sums of weights, up to but without the last, and the total. -/
def runningSums (sum : R) : List R → List R × R
  | [] => ([], sum)
  | w :: rest =>
    let (bounds, total) := runningSums (sum + w) rest
    (sum :: bounds, total)

/-- A sampler of weights. There is none for no weights, for a weight that is not at least zero, and
for weights whose total is zero or not finite. -/
def ofWeights? : List R → Option (Sampler R)
  | [] => none
  | w :: rest =>
    if (w :: rest).all (Scalar.le 0) then
      let (bounds, total) := runningSums w rest
      if Scalar.same total 0 || !Scalar.isFinite total then none else some ⟨bounds, total⟩
    else none

/-- The index of the outcome that a draw falls to. -/
def pick (s : Sampler R) (draw : Nat) : Nat :=
  let point := Scalar.fraction draw * s.total
  s.bounds.countP fun bound => Scalar.le bound point

end Sampler

/-- How often each label was drawn, in the order of first arrival. -/
abbrev Tally := List (String × Nat)

namespace Tally

def bump (label : String) : Tally → Tally
  | [] => [(label, 1)]
  | (l, n) :: rest => if l = label then (l, n + 1) :: rest else (l, n) :: bump label rest

def count (label : String) (t : Tally) : Nat :=
  match t with
  | [] => 0
  | (l, n) :: rest => if l = label then n else count label rest

end Tally

namespace Distribution
variable {R : Type} [Scalar R]

def drawOnce (d : Distribution R) (s : Sampler R) (state : Tally × Keystream) : Tally × Keystream :=
  let (draw, stream) := state.2.nextDraw
  match d.outcomes[s.pick draw]? with
  | some e => (state.1.bump e.label, stream)
  | none => (state.1, stream)

/-- The counts of the given number of draws, with the stream where they end. -/
def draws (d : Distribution R) (s : Sampler R) (stream : Keystream) (shots : Nat) :
    Tally × Keystream :=
  Nat.repeat (d.drawOnce s) shots ([], stream)

/-- The counts of the given number of draws under a seed. Weights that cannot be drawn from give no
counts. -/
def sampleCounts (d : Distribution R) (shots : Nat) (seed : UInt64) : Tally :=
  match Sampler.ofWeights? d.probabilities with
  | none => []
  | some s => (d.draws s (Keystream.ofSeed seed) shots).1

end Distribution

end KetSim
