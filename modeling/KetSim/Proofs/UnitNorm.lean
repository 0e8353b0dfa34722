import KetSim.Proofs.Evolution
import KetSim.Proofs.Transform
import Mathlib.Algebra.BigOperators.Fin
import Mathlib.Algebra.Order.BigOperators.Group.Finset
import Mathlib.Tactic.LinearCombination
/-!
# Norms of exact runs

In exact arithmetic every gate keeps the squared norm of each pair of coefficients it mixes, so the
state of a circuit has norm one (`Circuit.sum_weight`). All its coefficients lie on one axis, the
real or the imaginary one (`Circuit.onAxis`), so the largest component is also the largest
magnitude. A register of `n` qubits thus has a component of at least one over the root of `2 ^ n`
(`Circuit.le_largestComponent`), and a Hadamard gate on every qubit leaves it none that is larger
(`Circuit.largestComponent_spread`).
-/
namespace KetSim
open Index StateVector

variable {h : ℝ}

/-! ## Pairs of coefficients -/

noncomputable def weight (f : Nat → Amplitude (Exact h)) (j : Nat) : ℝ := Complex.normSq (f j).value

/-- The matrix of every gate keeps the norm of a pair. -/
theorem Gate.weight_matrix (hh : 2 * h ^ 2 = 1) (g : Gate) (a b : Amplitude (Exact h)) :
    Complex.normSq (g.matrix.m00 * a + g.matrix.m01 * b).value +
        Complex.normSq (g.matrix.m10 * a + g.matrix.m11 * b).value =
      Complex.normSq a.value + Complex.normSq b.value := by
  cases g with
  | x | cnot => simp [matrix, Complex.normSq_apply]; ring
  | y => simp [matrix, Complex.normSq_apply]; ring
  | z => simp [matrix, Complex.normSq_apply]
  | h =>
    simp only [matrix, Complex.normSq_apply, Amplitude.value_add, Amplitude.value_mul,
      Amplitude.value_neg, Amplitude.value_invSqrt2, Complex.add_re, Complex.add_im, Complex.mul_re,
      Complex.mul_im, Complex.neg_re, Complex.neg_im, Complex.ofReal_re, Complex.ofReal_im]
    linear_combination (a.value.re ^ 2 + a.value.im ^ 2 + b.value.re ^ 2 + b.value.im ^ 2) * hh

theorem weight_mixed (hh : 2 * h ^ 2 = 1) (g : Gate) (k : Nat) (f : Nat → Amplitude (Exact h))
    (j : Nat) :
    weight (mixed g.matrix k f) j + weight (mixed g.matrix k f) (flip k j) =
      weight f j + weight f (flip k j) := by
  cases hj : j.testBit k with
  | false => simpa [weight, mixed, hj] using g.weight_matrix hh (f j) (f (flip k j))
  | true =>
    have := g.weight_matrix hh (f (flip k j)) (f j)
    simp only [weight, mixed, hj, testBit_flip, Index.flip_flip] at this ⊢
    simpa [add_comm] using this

theorem weight_mixedWhere (hh : 2 * h ^ 2 = 1) (g : Gate) {c t : Nat} (hct : c ≠ t)
    (f : Nat → Amplitude (Exact h)) (j : Nat) :
    weight (mixedWhere g.matrix c t f) j + weight (mixedWhere g.matrix c t f) (flip t j) =
      weight f j + weight f (flip t j) := by
  have hc : (flip t j).testBit c = j.testBit c := by simp [Ne.symm hct]
  cases hj : j.testBit c with
  | false => simp [weight, mixedWhere, hc, hj]
  | true => simpa [weight, mixedWhere, hc, hj] using weight_mixed hh g t f j

/-- An operation keeps the norm of any two coefficients whose indices differ at its target. -/
theorem Operation.weight_act (hh : 2 * h ^ 2 = 1) {n : Nat} {op : Operation} (hop : op.Fits n)
    {t : Qubit} (ht : op.target? = some t) (f : Nat → Amplitude (Exact h)) (j : Nat) :
    weight (op.act n f) j + weight (op.act n f) (flip (t.place n) j) =
      weight f j + weight f (flip (t.place n) j) := by
  rcases hop.cases with ⟨g, q, rfl, hg, hq⟩ | ⟨c, q, rfl, hc, hq, hcq⟩
  · obtain rfl : q = t := by simpa using ht
    rw [act_single hg]
    exact weight_mixed hh g (q.place n) f j
  · obtain rfl : q = t := by simpa using ht
    exact weight_mixedWhere hh .cnot (Qubit.place_ne hc hq hcq) f j

/-! ## The norm of a state -/

/-- Flipping a bit lists the indices in another order. -/
theorem sum_flip {n k : Nat} (hk : k < n) (w : Nat → ℝ) :
    ∑ j ∈ Finset.range (2 ^ n), w (flip k j) = ∑ j ∈ Finset.range (2 ^ n), w j := by
  refine Finset.sum_nbij' (flip k) (flip k) ?_ ?_ (fun j _ => Index.flip_flip k j)
    (fun j _ => Index.flip_flip k j) (fun _ _ => rfl)
  · exact fun j hj => Finset.mem_range.2 (flip_lt hk (Finset.mem_range.1 hj))
  · exact fun j hj => Finset.mem_range.2 (flip_lt hk (Finset.mem_range.1 hj))

/-- What agrees on all pairs agrees in total. -/
theorem sum_eq_of_pairs {n k : Nat} (hk : k < n) {v w : Nat → ℝ}
    (hvw : ∀ j < 2 ^ n, v j + v (flip k j) = w j + w (flip k j)) :
    ∑ j ∈ Finset.range (2 ^ n), v j = ∑ j ∈ Finset.range (2 ^ n), w j := by
  have twice : ∑ j ∈ Finset.range (2 ^ n), (v j + v (flip k j)) =
      ∑ j ∈ Finset.range (2 ^ n), (w j + w (flip k j)) :=
    Finset.sum_congr rfl fun j hj => hvw j (Finset.mem_range.1 hj)
  rw [Finset.sum_add_distrib, Finset.sum_add_distrib, sum_flip hk, sum_flip hk] at twice
  linarith

theorem sum_weight_evolve (hh : 2 * h ^ 2 = 1) {n : Nat} {ops : List Operation}
    (hops : ∀ op ∈ ops, op.Fits n) (f : Nat → Amplitude (Exact h)) :
    ∑ j ∈ Finset.range (2 ^ n), weight (evolve n ops f) j =
      ∑ j ∈ Finset.range (2 ^ n), weight f j := by
  refine evolve_invariant (P := fun g => ∑ j ∈ Finset.range (2 ^ n), weight g j =
    ∑ j ∈ Finset.range (2 ^ n), weight f j) (fun op hop g hg => ?_) rfl
  obtain ⟨t, ht, htn⟩ := (hops op hop).exists_target
  have hpairs := sum_eq_of_pairs (Qubit.place_lt htn) fun j _ =>
    op.weight_act hh (hops op hop) ht g j
  exact hpairs.trans hg

theorem sum_weight_zeroDigits (n : Nat) :
    ∑ j ∈ Finset.range (2 ^ n), weight (zeroDigits : Nat → Amplitude (Exact h)) j = 1 := by
  rw [Finset.sum_eq_single 0]
  · simp [weight, zeroDigits]
  · intro j _ hj
    simp [weight, zeroDigits, hj]
  · simp

/-- **The state of a valid circuit has norm one.** -/
theorem Circuit.sum_weight (hh : 2 * h ^ 2 = 1) {c : Circuit} (hc : c.Valid) :
    ∑ j ∈ Finset.range (2 ^ c.width), weight (c.amplitude : Nat → Amplitude (Exact h)) j = 1 := by
  rw [amplitude, sum_weight_evolve hh hc.fits, sum_weight_zeroDigits]

theorem Circuit.totalNormSq_eq_sum_weight (c : Circuit) :
    (Amplitude.totalNormSq
      (c.finalState : StateVector (Amplitude (Exact h))).amplitudes.toList).real =
      ∑ j ∈ Finset.range (2 ^ c.width), weight (c.amplitude : Nat → Amplitude (Exact h)) j := by
  rw [Amplitude.totalNormSq_eq_sum, finalState, Array.toList_ofFn, List.map_ofFn, List.sum_ofFn,
    Finset.sum_range]
  rfl

/-! ## The axis of a state -/

/-- All coefficients are real, or all are imaginary. -/
def OnAxis (f : Nat → Amplitude (Exact h)) : Prop :=
  (∀ j, (f j).value.im = 0) ∨ ∀ j, (f j).value.re = 0

/-- All gates but `y` have real coefficients, and those of `y` turn the axes into each other. -/
theorem onAxis_mixed (g : Gate) (k : Nat) {f : Nat → Amplitude (Exact h)} (hf : OnAxis f) :
    OnAxis (mixed g.matrix k f) := by
  rcases hf with hf | hf
  · cases g with
    | y => exact .inr fun j => by cases hj : j.testBit k <;> simp_all [mixed, Gate.matrix]
    | _ => exact .inl fun j => by cases hj : j.testBit k <;> simp_all [mixed, Gate.matrix]
  · cases g with
    | y => exact .inl fun j => by cases hj : j.testBit k <;> simp_all [mixed, Gate.matrix]
    | _ => exact .inr fun j => by cases hj : j.testBit k <;> simp_all [mixed, Gate.matrix]

theorem onAxis_mixedWhere_cnot (c t : Nat) {f : Nat → Amplitude (Exact h)} (hf : OnAxis f) :
    OnAxis (mixedWhere Gate.cnot.matrix c t f) := by
  rcases hf with hf | hf
  · exact .inl fun j => by
      cases hc : j.testBit c <;> cases ht : j.testBit t <;>
        simp_all [mixedWhere, mixed, Gate.matrix]
  · exact .inr fun j => by
      cases hc : j.testBit c <;> cases ht : j.testBit t <;>
        simp_all [mixedWhere, mixed, Gate.matrix]

theorem Operation.onAxis_act {n : Nat} {op : Operation} (hop : op.Fits n)
    {f : Nat → Amplitude (Exact h)} (hf : OnAxis f) : OnAxis (op.act n f) := by
  rcases hop.cases with ⟨g, q, rfl, hg, -⟩ | ⟨c, t, rfl, -, -, -⟩
  · rw [act_single hg]
    exact onAxis_mixed g _ hf
  · exact onAxis_mixedWhere_cnot _ _ hf

theorem onAxis_evolve {n : Nat} {ops : List Operation} (hops : ∀ op ∈ ops, op.Fits n)
    {f : Nat → Amplitude (Exact h)} (hf : OnAxis f) : OnAxis (evolve n ops f) :=
  evolve_invariant (fun op hop _ hf => op.onAxis_act (hops op hop) hf) hf

theorem Circuit.onAxis {c : Circuit} (hc : c.Valid) :
    OnAxis (c.amplitude : Nat → Amplitude (Exact h)) := by
  refine onAxis_evolve hc.fits (.inl fun j => ?_)
  by_cases hj : j = 0 <;> simp [zeroDigits, hj]

/-! ## The largest component of a state -/

/-- Some coefficient is at least the mean. -/
theorem Circuit.exists_weight_le (hh : 2 * h ^ 2 = 1) {c : Circuit} (hc : c.Valid) :
    ∃ i < 2 ^ c.width,
      ((2 : ℝ) ^ c.width)⁻¹ ≤ weight (c.amplitude : Nat → Amplitude (Exact h)) i := by
  have total : ∑ _i ∈ Finset.range (2 ^ c.width), ((2 : ℝ) ^ c.width)⁻¹ ≤
      ∑ i ∈ Finset.range (2 ^ c.width), weight (c.amplitude : Nat → Amplitude (Exact h)) i := by
    rw [sum_weight hh hc]
    simp
  obtain ⟨i, hi, hle⟩ := Finset.exists_le_of_sum_le ⟨0, by simp⟩ total
  exact ⟨i, Finset.mem_range.1 hi, hle⟩

/-- **The largest component of a state has at least the root mean square magnitude.** -/
theorem Circuit.le_largestComponent (hh : 2 * h ^ 2 = 1) {c : Circuit} (hc : c.Valid) :
    (√(2 ^ c.width))⁻¹ ≤
      (Distribution.largestComponent
        (c.finalState : StateVector (Amplitude (Exact h))).amplitudes.toList).real := by
  obtain ⟨i, hi, hle⟩ := exists_weight_le hh hc
  have hmem : (c.amplitude i : Amplitude (Exact h)) ∈ c.finalState.amplitudes.toList := by
    rw [finalState, Array.mem_toList_iff, Array.mem_ofFn]
    exact ⟨⟨i, hi⟩, rfl⟩
  obtain ⟨hre, him⟩ := Distribution.le_largestComponent hmem
  have root {x : ℝ} (hx : ((2 : ℝ) ^ c.width)⁻¹ ≤ x * x) : (√(2 ^ c.width))⁻¹ ≤ |x| := by
    rw [← Real.sqrt_inv, ← Real.sqrt_mul_self_eq_abs]
    exact Real.sqrt_le_sqrt hx
  rw [weight, Complex.normSq_apply] at hle
  rcases onAxis (h := h) hc with hz | hz
  · rw [hz i, mul_zero, add_zero] at hle
    exact (root hle).trans hre
  · rw [hz i, mul_zero, zero_add] at hle
    exact (root hle).trans him

/-! ## The bound is met -/

/-- A Hadamard gate on every qubit of a register. -/
def Circuit.spread (n : Nat) : Circuit := ⟨n, (List.range n).map fun i => .single .h ⟨i⟩⟩

theorem Circuit.valid_spread {n : Nat} (hn : 0 < n) : (spread n).Valid := by
  refine ⟨hn, fun op hop => ?_⟩
  obtain ⟨i, hi, rfl⟩ := List.mem_map.1 hop
  exact Operation.fits_single (by simp) (List.mem_range.1 hi)

/-- A Hadamard gate spreads the coefficients to indices with one more low bit. -/
theorem value_mixed_h {n p : Nat} (hp : p < n) {f : Nat → Amplitude (Exact h)} {a : ℂ}
    (hf : ∀ j < 2 ^ n, (f j).value = if 2 ^ (p + 1) ∣ j then a else 0) :
    ∀ j < 2 ^ n, (mixed Gate.h.matrix p f j).value = if 2 ^ p ∣ j then a * h else 0 := by
  intro j hj
  have hflip := hf (flip p j) (flip_lt hp hj)
  cases hb : j.testBit p <;> by_cases hd : 2 ^ p ∣ j <;>
    simp [mixed, Gate.matrix, hb, hf j hj, hflip, two_pow_succ_dvd, two_pow_dvd_flip, hd, mul_comm]

theorem value_evolve_spread {n k : Nat} (hk : k ≤ n) :
    ∀ j < 2 ^ n, (evolve n ((List.range k).map fun i => .single .h ⟨i⟩)
      (zeroDigits : Nat → Amplitude (Exact h)) j).value =
        if 2 ^ (n - k) ∣ j then (h : ℂ) ^ k else 0 := by
  induction k with
  | zero =>
    intro j hj
    have hdvd : 2 ^ n ∣ j ↔ j = 0 :=
      ⟨fun hd => Nat.eq_zero_of_dvd_of_lt hd hj, fun e => e ▸ Nat.dvd_zero _⟩
    by_cases h0 : j = 0 <;> simp [evolve, zeroDigits, hdvd, h0]
  | succ k ih =>
    intro j hj
    rw [List.range_succ, List.map_append, evolve_append, List.map_singleton, evolve_cons,
      evolve_nil, Operation.act_single (by simp), pow_succ,
      show n - (k + 1) = Qubit.place n ⟨k⟩ by unfold Qubit.place; simp only; omega]
    refine value_mixed_h (Qubit.place_lt (by simpa using hk)) ?_ j hj
    rw [show Qubit.place n ⟨k⟩ + 1 = n - k by unfold Qubit.place; simp only; omega]
    exact ih (by omega)

/-- All coefficients of the spread register are equal. -/
theorem Circuit.value_spread {n i : Nat} (hi : i < 2 ^ n) :
    ((spread n).amplitude i : Amplitude (Exact h)).value = (h : ℂ) ^ n := by
  have := value_evolve_spread (h := h) (Nat.le_refl n) i hi
  rwa [Nat.sub_self, pow_zero, if_pos (Nat.one_dvd i)] at this

/-- The largest component of the spread register has exactly the root mean square magnitude. -/
theorem Circuit.largestComponent_spread (hh : 2 * h ^ 2 = 1) (n : Nat) :
    (Distribution.largestComponent
      ((spread n).finalState : StateVector (Amplitude (Exact h))).amplitudes.toList).real ≤
      (√(2 ^ n))⁻¹ := by
  have hroot : |h ^ n| = (√(2 ^ n))⁻¹ := by
    have hsq : h ^ n * h ^ n = ((2 : ℝ) ^ n)⁻¹ := by
      rw [← mul_pow, ← inv_pow, show h * h = 2⁻¹ by linear_combination hh / 2]
    rw [← Real.sqrt_inv, ← hsq, Real.sqrt_mul_self_eq_abs]
  refine Distribution.largestComponent_le (by positivity) fun a ha => ?_
  rw [finalState, Array.mem_toList_iff, Array.mem_ofFn] at ha
  obtain ⟨i, rfl⟩ := ha
  have hi : (i : Nat) < 2 ^ n := i.2
  rw [value_spread hi, ← Complex.ofReal_pow, Complex.ofReal_re, Complex.ofReal_im, hroot, abs_zero]
  exact ⟨le_refl _, by positivity⟩

end KetSim
