import KetSim.Operation
/-!
# State vectors

The state of a register is one coefficient for each basis index. A gate replaces pairs of entries
whose indices differ in one bit: a single-qubit gate all pairs, found by inserting a zero bit into a
shorter index, a controlled gate those pairs whose control bit is one, found by looking at every
index. Both work in place, pair by pair. Whatever leaves the vector or the machine word is a fault.
-/
namespace KetSim

/-- The coefficients of a register of the given width, by basis index. -/
structure StateVector (A : Type) where
  width : Nat
  amplitudes : Array A
  deriving Repr

namespace StateVector
variable {A : Type}

/-- The word with one bit set. A word has sixty-four of them. -/
def bitMask (place : Nat) : Except Fault Nat :=
  if place < 64 then .ok (1 <<< place) else .error .shiftOutOfRange

section Kernels
variable [Add A] [Mul A]

/-- Replace a pair of entries by the product of the matrix with it. -/
def mixPair (m : Gate.Matrix A) (amps : Array A) (i0 i1 : Nat) : Except Fault (Array A) :=
  if h : i0 < amps.size ∧ i1 < amps.size then
    let a0 := amps[i0]
    let a1 := amps[i1]
    .ok ((amps.set i0 (m.m00 * a0 + m.m01 * a1)).setIfInBounds i1 (m.m10 * a0 + m.m11 * a1))
  else .error .indexOutOfRange

/-- The index with a zero bit inserted at the given place. -/
def insertZero (place i : Nat) : Nat :=
  ((i >>> place) <<< (place + 1)) ||| (i &&& (1 <<< place - 1))

/-- The matrix on every pair of entries whose indices differ in the given bit. -/
def mixAll (m : Gate.Matrix A) (place : Nat) (amps : Array A) : Except Fault (Array A) := do
  let mask ← bitMask place
  -- inserting a bit shifts by one place more
  let _ ← bitMask (place + 1)
  (List.range (amps.size / 2)).foldlM
    (fun amps i => mixPair m amps (insertZero place i) (insertZero place i ||| mask)) amps

/-- The matrix on every pair of entries whose indices differ in the target bit and have the control
bit set. -/
def mixControlled (m : Gate.Matrix A) (control target : Nat) (amps : Array A) :
    Except Fault (Array A) := do
  let controlMask ← bitMask control
  let targetMask ← bitMask target
  (List.range amps.size).foldlM
    (fun amps i =>
      if i &&& controlMask = 0 ∨ i &&& targetMask ≠ 0 then .ok amps
      else mixPair m amps i (i ||| targetMask)) amps

end Kernels

variable [Coefficient A]

/-- The most coefficients that can be held: each takes sixteen bytes. -/
def maxEntries : Nat := (1 <<< 63 - 1) / 16

/-- All digits zero: the coefficient one at index zero and zero elsewhere. The register must not be
wider than can be held. -/
def zeroState (width : Nat) : Except Fault (StateVector A) := do
  let dim ← bitMask width
  if dim ≤ maxEntries then return ⟨width, (Array.replicate dim 0).setIfInBounds 0 1⟩
  else throw .unaddressable

/-- Apply one operation. An operation without a target does nothing. -/
def apply (s : StateVector A) (op : Operation) : Except Fault (StateVector A) := do
  match op.control?, op.target? with
  | some control, some target =>
    let c ← control.bitPosition s.width
    let t ← target.bitPosition s.width
    return { s with amplitudes := ← mixControlled op.gate.matrix c t s.amplitudes }
  | none, some target =>
    let t ← target.bitPosition s.width
    return { s with amplitudes := ← mixAll op.gate.matrix t s.amplitudes }
  | _, none => return s

def applyAll (s : StateVector A) (ops : List Operation) : Except Fault (StateVector A) :=
  ops.foldlM apply s

end StateVector

end KetSim
