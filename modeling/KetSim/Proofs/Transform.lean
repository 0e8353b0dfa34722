import KetSim.Distribution
import KetSim.Proofs.Exact
import KetSim.Proofs.MostLikely
import Mathlib.Algebra.BigOperators.Ring.List
import Mathlib.Algebra.Order.BigOperators.Group.List
/-!
# The transform to probabilities

Amplitudes are turned down if one of them is not finite or if the largest component is too small
(`Distribution.Rejects`); otherwise there is one outcome for each of them, in order and with its
label (`lists_normalized`). In exact arithmetic nothing is left of the division by the largest
component: the probability of an outcome is the share of its amplitude in the squared norm
(`exists_of_mem_normalized`), and the most probable outcome is at least as probable as any other
(`Leads.real_le`) and as the mean of all (`Leads.inv_le_probability`).
-/
namespace KetSim

namespace Distribution
variable {R : Type} [Scalar R]

/-! ## When amplitudes are accepted -/

/-- The transform does not accept the amplitudes: one of them is not finite, or the largest
component is zero or at most the tolerance. -/
def Rejects (amps : List (Amplitude R)) (tolerance : R) : Prop :=
  (∃ a ∈ amps, a.isFinite = false) ∨ Scalar.same (largestComponent amps) 0 = true ∨
    Scalar.le (largestComponent amps) tolerance = true

instance (amps : List (Amplitude R)) (tolerance : R) : Decidable (Rejects amps tolerance) :=
  inferInstanceAs (Decidable (_ ∨ _ ∨ _))

/-- The distribution of amplitudes that are accepted. -/
def normalized (numQubits : Nat) (amps : List (Amplitude R)) : Distribution R :=
  let scaled := amps.map (·.scaleDown (largestComponent amps))
  ⟨numQubits, scaled.zipIdx.map fun (a, index) => outcome numQubits (norm scaled) index a⟩

omit [Scalar R] in
theorem qubitCount_two_pow (n : Nat) : Amplitude.qubitCount (R := R) (2 ^ n) = .ok n := by
  simp [Amplitude.qubitCount, Nat.one_shiftLeft]

omit [Scalar R] in
theorem qubitCount_eq_ok {length n : Nat}
    (h : Amplitude.qubitCount (R := R) length = .ok n) : length = 2 ^ n := by
  rw [Amplitude.qubitCount] at h
  split at h
  · cases h
  · split at h
    · rename_i hlog
      rw [← Except.ok.inj h, ← Nat.one_shiftLeft, hlog]
    · cases h

/-- The transform of as many amplitudes as a register has basis states. -/
theorem result_ofAmplitudes {amps : List (Amplitude R)} {n : Nat} (hlen : amps.length = 2 ^ n)
    (tolerance : R) :
    (ofAmplitudes amps tolerance).result =
      if Rejects amps tolerance then .error (.zeroNorm (2 ^ n)) else .ok (normalized n amps) := by
  rw [ofAmplitudes, Report.result_bind, Report.result_ofExcept, hlen, qubitCount_two_pow]
  show Report.result _ = _
  by_cases hfin : amps.all Amplitude.isFinite = true
  · have hall : ¬ ∃ a ∈ amps, a.isFinite = false := by simpa using hfin
    rw [if_pos hfin]
    by_cases hsmall : (Scalar.same (largestComponent amps) 0 ||
        Scalar.le (largestComponent amps) tolerance) = true
    · rw [if_pos (show Rejects amps tolerance from .inr (by simpa using hsmall))]
      show Report.result (if _ then _ else _) = _
      rw [if_pos hsmall]
      rfl
    · rw [if_neg (show ¬ Rejects amps tolerance from
        fun h => h.elim hall fun h => hsmall (by simpa using h))]
      show Report.result (if _ then _ else _) = _
      rw [if_neg hsmall]
      rfl
  · rw [if_neg hfin, if_pos (show Rejects amps tolerance from .inl (by simpa using hfin))]
    rfl

/-- Amplitudes with a distribution are as many as a register has basis states, and accepted. -/
theorem of_result_ofAmplitudes {amps : List (Amplitude R)} {tolerance : R} {d : Distribution R}
    (hd : (ofAmplitudes amps tolerance).result = .ok d) :
    amps.length = 2 ^ d.numQubits ∧ ¬ Rejects amps tolerance ∧
      d = normalized d.numQubits amps := by
  have hcount : ∃ n, Amplitude.qubitCount (R := R) amps.length = .ok n := by
    rw [ofAmplitudes, Report.result_bind, Report.result_ofExcept] at hd
    cases hq : Amplitude.qubitCount (R := R) amps.length with
    | ok n => exact ⟨n, rfl⟩
    | error e =>
      rw [hq] at hd
      cases hd
  obtain ⟨n, hn⟩ := hcount
  have hlen := qubitCount_eq_ok hn
  rw [result_ofAmplitudes hlen] at hd
  split at hd
  · cases hd
  · rename_i hr
    obtain rfl := Except.ok.inj hd
    exact ⟨hlen, hr, rfl⟩

/-! ## The list of outcomes -/

/-- The outcome at an index comes from the amplitude at this index. -/
theorem outcomes_normalized_getElem? (n : Nat) (amps : List (Amplitude R)) (i : Nat) :
    (normalized n amps).outcomes[i]? = amps[i]?.map fun a =>
      outcome n (norm (amps.map (·.scaleDown (largestComponent amps)))) i
        (a.scaleDown (largestComponent amps)) := by
  simp [normalized, List.getElem?_zipIdx, Option.map_map, Function.comp_def]

/-- There is one outcome for each basis state of a register, in order and with its label. -/
structure Lists (d : Distribution R) (n : Nat) : Prop where
  numQubits_eq : d.numQubits = n
  length_eq : d.outcomes.length = 2 ^ n
  outcome_eq : ∀ i o, d.outcomes[i]? = some o → o.index = i ∧ o.label = Ket.label i n

theorem lists_normalized {amps : List (Amplitude R)} {n : Nat} (hlen : amps.length = 2 ^ n) :
    (normalized n amps).Lists n := by
  refine ⟨rfl, by simp [normalized, hlen], fun i o ho => ?_⟩
  rw [outcomes_normalized_getElem?, Option.map_eq_some_iff] at ho
  obtain ⟨a, -, rfl⟩ := ho
  exact ⟨rfl, rfl⟩

end Distribution

/-! ## Exact arithmetic -/

variable {h : ℝ}

theorem Amplitude.totalNormSq_eq_sum (amps : List (Amplitude (Exact h))) :
    (totalNormSq amps).real = (amps.map fun a => Complex.normSq a.value).sum := by
  simp [totalNormSq, Function.comp_def]

theorem Amplitude.totalNormSq_nonneg (amps : List (Amplitude (Exact h))) :
    0 ≤ (totalNormSq amps).real := by
  rw [totalNormSq_eq_sum]
  refine List.sum_nonneg fun x hx => ?_
  obtain ⟨a, -, rfl⟩ := List.mem_map.1 hx
  exact Complex.normSq_nonneg _

/-- The squared magnitude of an amplitude is a part of the squared norm of all. -/
theorem Amplitude.normSq_le_totalNormSq {amps : List (Amplitude (Exact h))}
    {a : Amplitude (Exact h)} (ha : a ∈ amps) :
    Complex.normSq a.value ≤ (totalNormSq amps).real := by
  rw [totalNormSq_eq_sum]
  refine List.single_le_sum ?_ _ (List.mem_map_of_mem ha)
  rintro x hx
  obtain ⟨b, -, rfl⟩ := List.mem_map.1 hx
  exact Complex.normSq_nonneg _

theorem Amplitude.totalNormSq_scaleDown (amps : List (Amplitude (Exact h))) (scale : Exact h) :
    (totalNormSq (amps.map (scaleDown · scale))).real =
      (totalNormSq amps).real / (scale.real * scale.real) := by
  simp only [totalNormSq_eq_sum, List.map_map, Function.comp_def, value_scaleDown,
    Complex.normSq_div, Complex.normSq_ofReal]
  simp only [div_eq_mul_inv, List.sum_map_mul_right]

/-- A norm of exactly one is accepted whatever the tolerance. -/
theorem Amplitude.checkNormalized_of_total {amps : List (Amplitude (Exact h))}
    (htotal : (totalNormSq amps).real = 1) {tolerance : Exact h} (ht : 0 ≤ tolerance.real) :
    checkNormalized tolerance amps = .ok () := by
  rw [checkNormalized]
  simp [htotal, not_lt.2 ht]

namespace Distribution

/-! ### The largest component -/

theorem le_foldl_larger (amps : List (Amplitude (Exact h))) (m : Exact h) :
    let top := amps.foldl
      (fun m a => Scalar.larger (Scalar.larger m (Scalar.abs a.re)) (Scalar.abs a.im)) m
    m.real ≤ top.real ∧ ∀ a ∈ amps, |a.value.re| ≤ top.real ∧ |a.value.im| ≤ top.real := by
  induction amps generalizing m with
  | nil => simp
  | cons a rest ih =>
    obtain ⟨hm, hrest⟩ := ih (Scalar.larger (Scalar.larger m (Scalar.abs a.re)) (Scalar.abs a.im))
    simp only [Exact.real_larger, Exact.real_abs, max_le_iff] at hm
    refine ⟨hm.1.1, fun b hb => ?_⟩
    rcases List.mem_cons.1 hb with rfl | hb
    · exact ⟨hm.1.2, hm.2⟩
    · exact hrest b hb

/-- No component is larger than the largest one. -/
theorem le_largestComponent {amps : List (Amplitude (Exact h))} {a : Amplitude (Exact h)}
    (ha : a ∈ amps) :
    |a.value.re| ≤ (largestComponent amps).real ∧ |a.value.im| ≤ (largestComponent amps).real :=
  (le_foldl_larger amps 0).2 a ha

theorem foldl_larger_le {bound : ℝ} :
    ∀ (amps : List (Amplitude (Exact h))) (m : Exact h), m.real ≤ bound →
      (∀ a ∈ amps, |a.value.re| ≤ bound ∧ |a.value.im| ≤ bound) →
      (amps.foldl (fun m a => Scalar.larger (Scalar.larger m (Scalar.abs a.re)) (Scalar.abs a.im))
        m).real ≤ bound
  | [], _, hm, _ => hm
  | a :: rest, m, hm, hall => by
    obtain ⟨ha, hrest⟩ := List.forall_mem_cons.1 hall
    exact foldl_larger_le rest _ (by simpa using ⟨⟨hm, ha.1⟩, ha.2⟩) hrest

/-- A bound of all components bounds the largest one. -/
theorem largestComponent_le {amps : List (Amplitude (Exact h))} {bound : ℝ}
    (hpos : 0 ≤ bound) (hall : ∀ a ∈ amps, |a.value.re| ≤ bound ∧ |a.value.im| ≤ bound) :
    (largestComponent amps).real ≤ bound :=
  foldl_larger_le amps 0 hpos hall

theorem rejects_iff {amps : List (Amplitude (Exact h))} {tolerance : Exact h} :
    Rejects amps tolerance ↔
      (largestComponent amps).real = 0 ∨ (largestComponent amps).real ≤ tolerance.real := by
  simp [Rejects]

theorem largestComponent_ne_zero {amps : List (Amplitude (Exact h))} {tolerance : Exact h}
    (hr : ¬ Rejects amps tolerance) : (largestComponent amps).real ≠ 0 :=
  fun e => hr (rejects_iff.2 (.inl e))

/-! ### Probabilities -/

theorem real_norm (amps : List (Amplitude (Exact h))) :
    (norm amps).real = √(Amplitude.totalNormSq amps).real := by
  have hsq (a : Amplitude (Exact h)) :
      √(Complex.normSq a.value) * √(Complex.normSq a.value) = Complex.normSq a.value :=
    Real.mul_self_sqrt (Complex.normSq_nonneg _)
  simp [norm, Amplitude.totalNormSq_eq_sum, Function.comp_def, hsq]

/-- The square of what an outcome has of the norm. The scale cancels. -/
theorem share_mul_share (amps : List (Amplitude (Exact h))) (a : Amplitude (Exact h))
    {scale : Exact h} (hs : scale.real ≠ 0) :
    let share := (a.scaleDown scale).magnitude / norm (amps.map (·.scaleDown scale))
    share.real * share.real = Complex.normSq a.value / (Amplitude.totalNormSq amps).real := by
  have hsq : 0 ≤ scale.real * scale.real := mul_self_nonneg _
  simp only [Exact.real_div, Amplitude.real_magnitude, Amplitude.value_scaleDown, real_norm,
    Amplitude.totalNormSq_scaleDown, Complex.normSq_div, Complex.normSq_ofReal]
  rw [← pow_two, div_pow, Real.sq_sqrt (div_nonneg (Complex.normSq_nonneg _) hsq),
    Real.sq_sqrt (div_nonneg (Amplitude.totalNormSq_nonneg amps) hsq),
    div_div_div_cancel_right₀ (mul_self_ne_zero.2 hs)]

/-- It is at most one, so the cap changes nothing. -/
theorem share_mul_share_le_one {amps : List (Amplitude (Exact h))} {a : Amplitude (Exact h)}
    (ha : a ∈ amps) {scale : Exact h} (hs : scale.real ≠ 0) :
    let share := (a.scaleDown scale).magnitude / norm (amps.map (·.scaleDown scale))
    share.real * share.real ≤ 1 := by
  intro share
  rw [share_mul_share amps a hs]
  exact div_le_one_of_le₀ (Amplitude.normSq_le_totalNormSq ha) (Amplitude.totalNormSq_nonneg amps)

/-- The probability of an outcome is the share of its amplitude in the squared norm. -/
theorem probability_outcome {amps : List (Amplitude (Exact h))} {a : Amplitude (Exact h)}
    (ha : a ∈ amps) {scale : Exact h} (hs : scale.real ≠ 0) (n i : Nat) :
    (outcome n (norm (amps.map (·.scaleDown scale))) i (a.scaleDown scale)).probability.real =
      Complex.normSq a.value / (Amplitude.totalNormSq amps).real := by
  rw [outcome, Exact.real_cap, Exact.real_mul, Exact.real_one,
    min_eq_left (share_mul_share_le_one ha hs), share_mul_share amps a hs]

/-- What the outcomes of accepted amplitudes are. -/
theorem exists_of_mem_normalized {amps : List (Amplitude (Exact h))} {n : Nat}
    {tolerance : Exact h} (hr : ¬ Rejects amps tolerance) {o : Outcome (Exact h)}
    (ho : o ∈ (normalized n amps).outcomes) :
    ∃ i a, amps[i]? = some a ∧ o.label = Ket.label i n ∧
      o.probability.real = Complex.normSq a.value / (Amplitude.totalNormSq amps).real := by
  obtain ⟨i, hi⟩ := List.mem_iff_getElem?.1 ho
  rw [outcomes_normalized_getElem?, Option.map_eq_some_iff] at hi
  obtain ⟨a, ha, rfl⟩ := hi
  have hprob := probability_outcome (List.mem_of_getElem? ha) (largestComponent_ne_zero hr) n i
  exact ⟨i, a, ha, rfl, hprob⟩

/-! ### The most probable outcome -/

/-- Exact numbers are compared as real numbers. -/
theorem ordered_exact : Scalar.Ordered (fun _ : Exact h => True) Exact.real where
  le_iff _ _ := decide_eq_true_iff
  lt_iff _ _ := decide_eq_true_iff

theorem Leads.real_le {es : List (Outcome (Exact h))} {k : Nat} {o e : Outcome (Exact h)}
    (ho : Leads es k o) (he : e ∈ es) : e.probability.real ≤ o.probability.real :=
  of_decide_eq_true (ho.le e he)

/-- Of so many probabilities that sum to one the leading one is at least their mean. -/
theorem Leads.inv_le_probability {d : Distribution (Exact h)} {k : Nat} {o : Outcome (Exact h)}
    (ho : Leads d.outcomes k o) (htotal : d.total = 1) :
    (d.outcomes.length : ℝ)⁻¹ ≤ o.probability.real := by
  have hlength : (0 : ℝ) < d.outcomes.length :=
    Nat.cast_pos.2 (List.length_pos_of_mem ho.mem)
  have hterm : ∀ x ∈ d.probabilities.map Exact.real, x ≤ o.probability.real := by
    intro x hx
    obtain ⟨y, hy, rfl⟩ := List.mem_map.1 hx
    obtain ⟨e, he, rfl⟩ := List.mem_map.1 hy
    exact ho.real_le he
  have hsum : (d.probabilities.map Exact.real).sum = 1 := by
    rw [← Exact.real_sum]
    exact congrArg Exact.real htotal
  have hle := List.sum_le_card_nsmul _ _ hterm
  rw [hsum, List.length_map, probabilities, List.length_map, nsmul_eq_mul] at hle
  exact (inv_le_iff_one_le_mul₀' hlength).2 hle

end Distribution

end KetSim
