import KetSim.Proofs.Commutation
import KetSim.Proofs.LabelSemantics
/-!
# Gate identities

The textbook identities between short sequences of gates, as facts about runs from an arbitrary
state: sequences that are equal lead to the same state vector, entry by entry, at whatever places of
the register the qubits stand (`StateVector.gate_identities`). On one qubit they are equations of
matrices. The ones about a controlled flip follow from these: a Hadamard gate on both sides turns the
flip into a controlled change of sign, which is the same with control and target exchanged.
-/
namespace KetSim
open Index StateVector

variable {h : ℝ}

/-! ## Matrices -/

namespace Gate

theorem h_mul_x_mul_h (hh : 2 * h ^ 2 = 1) :
    (Gate.h.matrix : Matrix (Amplitude (Exact h))).mul (Gate.x.matrix.mul Gate.h.matrix) =
      Gate.z.matrix := by
  have hc : (2 : ℂ) * (h : ℂ) ^ 2 = 1 := by exact_mod_cast hh
  apply Matrix.eq_of_value <;> simp [matrix, Matrix.mul]
  · linear_combination hc
  · linear_combination -hc

theorem h_mul_z_mul_h (hh : 2 * h ^ 2 = 1) :
    (Gate.h.matrix : Matrix (Amplitude (Exact h))).mul (Gate.z.matrix.mul Gate.h.matrix) =
      Gate.x.matrix := by
  have hc : (2 : ℂ) * (h : ℂ) ^ 2 = 1 := by exact_mod_cast hh
  apply Matrix.eq_of_value <;> simp [matrix, Matrix.mul]
  · linear_combination hc
  · linear_combination hc

theorem h_mul_y_mul_h (hh : 2 * h ^ 2 = 1) :
    (Gate.h.matrix : Matrix (Amplitude (Exact h))).mul (Gate.y.matrix.mul Gate.h.matrix) =
      Gate.y.matrix.scale (-1) := by
  have hc : (2 : ℂ) * (h : ℂ) ^ 2 = 1 := by exact_mod_cast hh
  apply Matrix.eq_of_value <;> simp [matrix, Matrix.mul, Matrix.scale]
  · linear_combination Complex.I * hc
  · linear_combination -Complex.I * hc

theorem z_mul_x :
    (Gate.z.matrix : Matrix (Amplitude (Exact h))).mul Gate.x.matrix =
      Gate.y.matrix.scale Coefficient.imaginary := by
  apply Matrix.eq_of_value <;> simp [matrix, Matrix.mul, Matrix.scale]

end Gate

/-! ## Coefficients -/

/-- A controlled change of sign asks for both bits alike. -/
theorem StateVector.mixedWhere_z_comm (c t : Nat) (f : Nat → Amplitude (Exact h)) :
    mixedWhere Gate.z.matrix c t f = mixedWhere Gate.z.matrix t c f := by
  funext j
  cases hc : j.testBit c <;> cases ht : j.testBit t <;> simp [mixedWhere, mixed_z, hc, ht]

def Index.exchange (c t i : Nat) : Nat :=
  if i.testBit c = i.testBit t then i else flip c (flip t i)

theorem Index.exchange_exchange (c t i : Nat) : exchange c t (exchange c t i) = i := by
  by_cases hct : c = t
  · simp [exchange, hct]
  · cases hc : i.testBit c <;> cases ht : i.testBit t <;>
      simp [exchange, hc, ht, hct, Ne.symm hct, flip_comm t c]

theorem Index.exchange_lt {c t n i : Nat} (hc : c < n) (ht : t < n) (hi : i < 2 ^ n) :
    exchange c t i < 2 ^ n := by
  unfold exchange
  split
  · exact hi
  · exact flip_lt hc (flip_lt ht hi)

section
variable {n : Nat} {q c t : Qubit}

theorem evolve_single {g : Gate} (hg : g ≠ .cnot) (f : Nat → Amplitude (Exact h)) :
    evolve n [.single g q] f = mixed g.matrix (q.place n) f := by
  rw [evolve_cons, evolve_nil, Operation.act_single hg]

/-- A gate with another one on both sides is one matrix. -/
theorem evolve_sandwich {g k : Gate} (hg : g ≠ .cnot) (hk : k ≠ .cnot)
    (f : Nat → Amplitude (Exact h)) :
    evolve n [.single g q, .single k q, .single g q] f =
      mixed (g.matrix.mul (k.matrix.mul g.matrix)) (q.place n) f := by
  rw [evolve_cons, evolve_cons, evolve_single hg, Operation.act_single hg, Operation.act_single hk,
    mixed_mixed_mul k.matrix, mixed_mixed_mul]

theorem evolve_reversed (hh : 2 * h ^ 2 = 1) (hct : c.place n ≠ t.place n)
    (f : Nat → Amplitude (Exact h)) :
    evolve n [.single .h c, .single .h t, .cnot c t, .single .h c, .single .h t] f =
      evolve n [.cnot t c] f := by
  simp only [evolve_cons, evolve_nil, Operation.act_cnot, Operation.act_single (g := .h) (by simp)]
  have hone := Gate.h.matrix_mul_self hh
  let H := (Gate.h.matrix : Gate.Matrix (Amplitude (Exact h)))
  calc mixed H (t.place n) (mixed H (c.place n) (mixedWhere Gate.x.matrix (c.place n) (t.place n)
        (mixed H (t.place n) (mixed H (c.place n) f))))
    _ = mixed H (c.place n) (mixed H (t.place n) (mixedWhere Gate.x.matrix (c.place n) (t.place n)
        (mixed H (t.place n) (mixed H (c.place n) f)))) := mixed_comm _ _ (Ne.symm hct) _
    _ = mixed H (c.place n) (mixedWhere Gate.z.matrix (c.place n) (t.place n)
        (mixed H (c.place n) f)) := by
      rw [mixed_mixedWhere_mixed hone hct, Gate.h_mul_x_mul_h hh]
    _ = mixed H (c.place n) (mixedWhere Gate.z.matrix (t.place n) (c.place n)
        (mixed H (c.place n) f)) := by rw [mixedWhere_z_comm]
    _ = mixedWhere Gate.x.matrix (t.place n) (c.place n) f := by
      rw [mixed_mixedWhere_mixed hone (Ne.symm hct), Gate.h_mul_z_mul_h hh]

theorem evolve_x_control (hct : c.place n ≠ t.place n) (f : Nat → Amplitude (Exact h)) :
    evolve n [.cnot c t, .single .x c, .cnot c t] f =
      evolve n [.single .x c, .single .x t] f := by
  funext j
  simp only [evolve_cons, evolve_nil, Operation.act_cnot, Operation.act_single (g := .x) (by simp),
    mixed_x, mixedWhere_cnot]
  cases hc : j.testBit (c.place n) <;>
    simp [hc, Ne.symm hct, flip_comm (t.place n)]

theorem evolve_z_target (hct : c.place n ≠ t.place n) (f : Nat → Amplitude (Exact h)) :
    evolve n [.cnot c t, .single .z t, .cnot c t] f =
      evolve n [.single .z c, .single .z t] f := by
  funext j
  apply Amplitude.value_injective
  simp only [evolve_cons, evolve_nil, Operation.act_cnot, Operation.act_single (g := .z) (by simp),
    mixed_z, mixedWhere_cnot]
  cases hc : j.testBit (c.place n) <;> cases ht : j.testBit (t.place n) <;>
    simp [hc, ht, Ne.symm hct]

theorem evolve_swap (hct : c.place n ≠ t.place n) (f : Nat → Amplitude (Exact h)) (j : Nat) :
    evolve n [.cnot c t, .cnot t c, .cnot c t] f j = f (exchange (c.place n) (t.place n) j) := by
  simp only [evolve_cons, evolve_nil, Operation.act_cnot, mixedWhere_cnot, exchange]
  cases hc : j.testBit (c.place n) <;> cases ht : j.testBit (t.place n) <;>
    simp [hc, ht, Ne.symm hct, flip_comm (t.place n)]

end

/-! ## Labels -/

namespace Ket

def exchange (c t : Qubit) (s : String) : String :=
  withDigit (withDigit s c (digit s t)) t (digit s c)

theorem exchange_label {n i : Nat} (hi : i < 2 ^ n) {c t : Qubit} (hc : c.index < n)
    (ht : t.index < n) (hct : c ≠ t) :
    exchange c t (label i n) = label (Index.exchange (c.place n) (t.place n) i) n := by
  have hplace := Qubit.place_ne hc ht hct
  -- the first digit alone gives an index whose other bits are those of `i`
  let k := if i.testBit (c.place n) = i.testBit (t.place n) then i else flip (c.place n) i
  have hk : k < 2 ^ n := by
    simp only [k]
    split
    · exact hi
    · exact flip_lt (Qubit.place_lt hc) hi
  have hkc : k.testBit (c.place n) = i.testBit (t.place n) := by
    cases hbc : i.testBit (c.place n) <;> cases hbt : i.testBit (t.place n) <;>
      simp [k, hbc, hbt]
  have hfirst := withDigit_label hi hk hc fun p hp => by
    simp only [k]
    split <;> simp [hp]
  have hexchange := exchange_lt (Qubit.place_lt hc) (Qubit.place_lt ht) hi
  have hsecond := withDigit_label hk hexchange ht fun p hp => by
    simp only [k, Index.exchange]
    split <;> simp [hp]
  have hbit : (Index.exchange (c.place n) (t.place n) i).testBit (t.place n) =
      i.testBit (c.place n) := by
    cases hbc : i.testBit (c.place n) <;> cases hbt : i.testBit (t.place n) <;>
      simp [Index.exchange, hbc, hbt, hplace]
  rw [exchange, digit_label hi hc, digit_label hi ht, ← hkc, hfirst, ← hbit, hsecond]

end Ket

/-! ## Runs -/

namespace StateVector
variable {A : Type}

def scale [Mul A] (x : A) (s : StateVector A) : StateVector A :=
  { s with amplitudes := s.amplitudes.map (x * ·) }

/-- Wherever two sequences of operations both give a result on a state, their results are related.
On a register whose indices fit a word they do. -/
def Relates [Coefficient A] (s : StateVector A) (r : StateVector A → StateVector A → Prop)
    (ops ops' : List Operation) : Prop :=
  (∀ t t', s.applyAll ops = .ok t → s.applyAll ops' = .ok t' → r t t') ∧
  (s.width < 64 → ∃ t t', s.applyAll ops = .ok t ∧ s.applyAll ops' = .ok t' ∧ r t t')

/-- What holds of the coefficients that two sequences lead to holds of their runs. -/
theorem relates_of_evolve [Coefficient A] {s : StateVector A} (hs : s.amplitudes.size = 2 ^ s.width)
    {r : StateVector A → StateVector A → Prop} {ops ops' : List Operation}
    (hops : ∀ op ∈ ops, op.Fits s.width) (hops' : ∀ op ∈ ops', op.Fits s.width)
    (hr : ∀ t t', t.width = s.width → t'.width = s.width →
      Holds t.amplitudes s.width (evolve s.width ops s.coefficient) →
      Holds t'.amplitudes s.width (evolve s.width ops' s.coefficient) → r t t') :
    s.Relates r ops ops' := by
  have hcoeff := holds_coefficient hs
  constructor
  · intro t t' e e'
    obtain ⟨hw, ht⟩ := holds_of_applyAll hcoeff hops e
    obtain ⟨hw', ht'⟩ := holds_of_applyAll hcoeff hops' e'
    exact hr t t' hw hw' ht ht'
  · intro hword
    obtain ⟨t, e, hw, ht⟩ := applyAll_holds hcoeff hops fun op hop => (hops op hop).inWord hword
    obtain ⟨t', e', hw', ht'⟩ :=
      applyAll_holds hcoeff hops' fun op hop => (hops' op hop).inWord hword
    exact ⟨t, t', e, e', hr t t' hw hw' ht ht'⟩

theorem relates_eq [Coefficient A] {s : StateVector A} (hs : s.amplitudes.size = 2 ^ s.width)
    {ops ops' : List Operation} (hops : ∀ op ∈ ops, op.Fits s.width)
    (hops' : ∀ op ∈ ops', op.Fits s.width)
    (he : evolve s.width ops s.coefficient = evolve s.width ops' s.coefficient) :
    s.Relates (· = ·) ops ops' := by
  refine relates_of_evolve hs hops hops' fun t t' hw hw' ht ht' => ?_
  rw [he] at ht
  exact eq_of_holds (hw.trans hw'.symm) ht ht'

theorem relates_scale [Coefficient A] {s : StateVector A} (hs : s.amplitudes.size = 2 ^ s.width)
    {ops ops' : List Operation} (hops : ∀ op ∈ ops, op.Fits s.width)
    (hops' : ∀ op ∈ ops', op.Fits s.width) {x : A}
    (he : ∀ j, evolve s.width ops s.coefficient j = x * evolve s.width ops' s.coefficient j) :
    s.Relates (fun t t' => t = t'.scale x) ops ops' := by
  refine relates_of_evolve hs hops hops' fun t t' hw hw' ht ht' => ?_
  have hscaled : Holds (t'.scale x).amplitudes s.width (evolve s.width ops s.coefficient) :=
    ⟨by simp [scale, ht'.size_eq], fun i hi => by simp [scale, ht'.getElem?_eq i hi, he]⟩
  exact eq_of_holds (hw.trans hw'.symm) ht hscaled

/-- The identities between gates on one qubit. -/
structure QubitIdentities (s : StateVector (Amplitude (Exact h))) (q : Qubit) : Prop where
  h_x_h : s.Relates (· = ·) [.single .h q, .single .x q, .single .h q] [.single .z q]
  h_z_h : s.Relates (· = ·) [.single .h q, .single .z q, .single .h q] [.single .x q]
  h_y_h : s.Relates (fun t t' => t = t'.scale (-1))
    [.single .h q, .single .y q, .single .h q] [.single .y q]
  x_z : s.Relates (fun t t' => t = t'.scale Coefficient.imaginary)
    [.single .x q, .single .z q] [.single .y q]

/-- The identities between a controlled flip and gates on its qubits. -/
structure PairIdentities (s : StateVector (Amplitude (Exact h))) (c t : Qubit) : Prop where
  /-- Hadamard gates on both sides exchange control and target. -/
  reversed : s.Relates (· = ·)
    [.single .h c, .single .h t, .cnot c t, .single .h c, .single .h t] [.cnot t c]
  x_control : s.Relates (· = ·) [.cnot c t, .single .x c, .cnot c t] [.single .x c, .single .x t]
  z_target : s.Relates (· = ·) [.cnot c t, .single .z t, .cnot c t] [.single .z c, .single .z t]
  /-- Three flips move every coefficient to the label with the two digits exchanged. -/
  swap : s.Relates (fun moved start => ∀ label a, Ket.At start.amplitudes s.width label a →
      Ket.At moved.amplitudes s.width (Ket.exchange c t label) a)
    [.cnot c t, .cnot t c, .cnot c t] []

theorem qubitIdentities (hh : 2 * h ^ 2 = 1) {s : StateVector (Amplitude (Exact h))}
    (hs : s.amplitudes.size = 2 ^ s.width) {q : Qubit} (hq : q.index < s.width) :
    s.QubitIdentities q := by
  have hfits {g : Gate} (hg : g ≠ .cnot) : (Operation.single g q).Fits s.width :=
    Operation.fits_single hg hq
  refine ⟨relates_eq hs (by simp [hfits]) (by simp [hfits]) ?_,
    relates_eq hs (by simp [hfits]) (by simp [hfits]) ?_,
    relates_scale hs (by simp [hfits]) (by simp [hfits]) fun j => ?_,
    relates_scale hs (by simp [hfits]) (by simp [hfits]) fun j => ?_⟩
  · rw [evolve_sandwich (by simp) (by simp), Gate.h_mul_x_mul_h hh, evolve_single (by simp)]
  · rw [evolve_sandwich (by simp) (by simp), Gate.h_mul_z_mul_h hh, evolve_single (by simp)]
  · rw [evolve_sandwich (by simp) (by simp), Gate.h_mul_y_mul_h hh, mixed_scale,
      evolve_single (by simp)]
  · rw [evolve_cons, evolve_single (by simp), Operation.act_single (by simp), mixed_mixed_mul,
      Gate.z_mul_x, mixed_scale, evolve_single (by simp)]

theorem pairIdentities (hh : 2 * h ^ 2 = 1) {s : StateVector (Amplitude (Exact h))}
    (hs : s.amplitudes.size = 2 ^ s.width) {c t : Qubit} (hc : c.index < s.width)
    (ht : t.index < s.width) (hct : c ≠ t) : s.PairIdentities c t := by
  have hplace := Qubit.place_ne hc ht hct
  have hflip : (Operation.cnot c t).Fits s.width := Operation.fits_cnot hc ht hct
  have hback : (Operation.cnot t c).Fits s.width := Operation.fits_cnot ht hc (Ne.symm hct)
  have hfits {g : Gate} (hg : g ≠ .cnot) {q : Qubit} (hq : q.index < s.width) :
      (Operation.single g q).Fits s.width := Operation.fits_single hg hq
  refine ⟨relates_eq hs (by simp [hfits, hc, ht, hflip]) (by simp [hback])
      (evolve_reversed hh hplace _),
    relates_eq hs (by simp [hfits, hc, hflip]) (by simp [hfits, hc, ht])
      (evolve_x_control hplace _),
    relates_eq hs (by simp [hfits, ht, hflip]) (by simp [hfits, hc, ht])
      (evolve_z_target hplace _),
    relates_of_evolve hs (by simp [hflip, hback]) (by simp) ?_⟩
  intro moved start _ _ hmoved hstart label a ha
  obtain ⟨i, hi, rfl, rfl⟩ := (Ket.at_iff_of_holds hstart).1 ha
  refine (Ket.at_iff_of_holds hmoved).2
    ⟨_, exchange_lt (Qubit.place_lt hc) (Qubit.place_lt ht) hi, ?_, ?_⟩
  · rw [Ket.exchange_label hi hc ht hct]
  · rw [evolve_swap hplace, exchange_exchange, evolve_nil]

/-- **The gate identities** hold from every state of a register, on every qubit and on every pair of
different qubits. -/
theorem gate_identities (hh : 2 * h ^ 2 = 1) {s : StateVector (Amplitude (Exact h))}
    (hs : s.amplitudes.size = 2 ^ s.width) :
    (∀ q : Qubit, q.index < s.width → s.QubitIdentities q) ∧
    (∀ c t : Qubit, c.index < s.width → t.index < s.width → c ≠ t → s.PairIdentities c t) :=
  ⟨fun _ hq => qubitIdentities hh hs hq, fun _ _ hc ht hct => pairIdentities hh hs hc ht hct⟩

/-- Three entangled qubits with coefficients on both axes, and a control that stands after its
target. -/
theorem gate_identities_entangled :
    let s : StateVector (Amplitude (Exact (√2)⁻¹)) :=
      ⟨3, #[1, Coefficient.imaginary, 0, 1, 0, -1, Coefficient.invSqrt2, 0]⟩
    s.amplitudes.size = 2 ^ s.width ∧ s.QubitIdentities ⟨1⟩ ∧ s.PairIdentities ⟨2⟩ ⟨0⟩ := by
  intro s
  have hs : s.amplitudes.size = 2 ^ s.width := rfl
  obtain ⟨single, pair⟩ := gate_identities Exact.two_mul_inv_sqrt_two_sq hs
  exact ⟨hs, single ⟨1⟩ (by decide), pair ⟨2⟩ ⟨0⟩ (by decide) (by decide) (by decide)⟩

end StateVector

end KetSim
