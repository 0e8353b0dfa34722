import KetSim.Proofs.DoubleOrder
import KetSim.Proofs.Transform
/-!
# Which amplitudes have a distribution

The transform tests the length, then every component, then the largest one against the tolerance. On
doubles of any kind, not-a-numbers and infinities among them, this amounts to tests of one component
at a time (`Distribution.decided`): amplitudes are accepted if all components are finite and one of
them is not zero and not of a magnitude up to the tolerance. A tolerance that is no number is no
bound, and neither is zero, so the two do the same.
-/
namespace KetSim

namespace Distribution
open Scalar.Machine

variable {amps : List (Amplitude Float)}

/-! ## One component at a time -/

/-- A component that is not zero and not of a magnitude up to the tolerance. -/
def Exceeds (tolerance c : Float) : Prop := ¬ (c == 0.0) = true ∧ ¬ c.abs ≤ tolerance

instance (tolerance c : Float) : Decidable (Exceeds tolerance c) :=
  inferInstanceAs (Decidable (_ ∧ _))

theorem exists_isFinite_eq_false_iff : (∃ a ∈ amps, a.isFinite = false) ↔
    ∃ c ∈ Amplitude.components amps, c.isFinite = false := by
  constructor
  · rintro ⟨a, ha, hfin⟩
    rw [Amplitude.isFinite, Bool.and_eq_false_iff] at hfin
    rcases hfin with hre | him
    · exact ⟨a.re, Amplitude.mem_components.2 ⟨a, ha, .inl rfl⟩, hre⟩
    · exact ⟨a.im, Amplitude.mem_components.2 ⟨a, ha, .inr rfl⟩, him⟩
  · rintro ⟨c, hc, hfin⟩
    obtain ⟨a, ha, rfl | rfl⟩ := Amplitude.mem_components.1 hc
    · exact ⟨a, ha, Bool.and_eq_false_iff.2 (.inl hfin)⟩
    · exact ⟨a, ha, Bool.and_eq_false_iff.2 (.inr hfin)⟩

/-- Where everything is finite, the largest component exceeds the tolerance if any one does. -/
theorem largestComponent_exceeds_iff
    (hfin : ∀ c ∈ Amplitude.components amps, c.isFinite = true) (tolerance : Float) :
    (¬ Scalar.same (largestComponent amps) 0 = true ∧
      ¬ Scalar.le (largestComponent amps) tolerance = true) ↔
      ∃ c ∈ Amplitude.components amps, Exceeds tolerance c := by
  have htop := largestComponent_of_reads reads hfin
  have hsame : Scalar.same (largestComponent amps) 0 = true ↔ real (largestComponent amps) = 0 :=
    beq_zero_iff htop
  rw [hsame]
  constructor
  · rintro ⟨hne, hgt⟩
    rcases largestComponent_eq_or_of_reads reads hfin with heq | ⟨c, hc, heq⟩
    · refine absurd ?_ hne
      rw [heq]
      exact real_zero
    · have habs : real (largestComponent amps) = |real c| := by
        rw [heq]
        exact real_abs (hfin c hc)
      refine ⟨c, hc, fun hzero => hne ?_, fun hle => hgt ?_⟩
      · rw [habs, (beq_zero_iff (hfin c hc)).1 hzero, abs_zero]
      · rw [heq]
        exact decide_eq_true hle
  · rintro ⟨c, hc, hne, hgt⟩
    have hle := le_largestComponent_of_reads reads hfin hc
    refine ⟨fun hzero => hne ?_, fun htole => hgt ?_⟩
    · rw [hzero] at hle
      exact (beq_zero_iff (hfin c hc)).2 (abs_nonpos_iff.1 hle)
    · refine le_trans_of_real_le (isFinite_abs (hfin c hc)) htop ?_ (of_decide_eq_true htole)
      rwa [real_abs (hfin c hc)]

theorem rejects_iff_components (amps : List (Amplitude Float)) (tolerance : Float) :
    Rejects amps tolerance ↔ (∃ c ∈ Amplitude.components amps, c.isFinite = false) ∨
      ¬ ∃ c ∈ Amplitude.components amps, Exceeds tolerance c := by
  rw [Rejects, exists_isFinite_eq_false_iff]
  by_cases hfin : ∀ c ∈ Amplitude.components amps, c.isFinite = true
  · rw [← largestComponent_exceeds_iff hfin, not_and_or, not_not, not_not]
    exact Iff.rfl
  · have hsome : ∃ c ∈ Amplitude.components amps, c.isFinite = false := by
      simpa only [not_forall, Bool.not_eq_true, exists_prop] using hfin
    exact iff_of_true (.inl hsome) (.inl hsome)

/-- Neither a tolerance of zero nor one that is no number lets a finite component through but by
being zero. -/
theorem exceeds_iff_of_isNaN {tolerance c : Float} (hnan : tolerance.isNaN = true)
    (hc : c.isFinite = true) : Exceeds tolerance c ↔ Exceeds 0.0 c := by
  refine and_congr_right fun hne => iff_of_true (not_le_of_isNaN hnan) fun hle => hne ?_
  rw [le_iff_real_le (isFinite_abs hc) isFinite_zero, real_abs hc, real_zero] at hle
  exact (beq_zero_iff hc).2 (abs_nonpos_iff.1 hle)

/-- The least double there is exceeds a tolerance that is no number. -/
example : Exceeds (0.0 / 0.0) 5e-324 := by decide +kernel

theorem rejects_iff_of_isNaN {tolerance : Float} (hnan : tolerance.isNaN = true) :
    Rejects amps tolerance ↔ Rejects amps 0.0 := by
  rw [rejects_iff_components, rejects_iff_components]
  by_cases hfin : ∀ c ∈ Amplitude.components amps, c.isFinite = true
  · have hexceeds : (∃ c ∈ Amplitude.components amps, Exceeds tolerance c) ↔
        ∃ c ∈ Amplitude.components amps, Exceeds 0.0 c :=
      exists_congr fun c => and_congr_right fun hc => exceeds_iff_of_isNaN hnan (hfin c hc)
    rw [hexceeds]
  · have hsome : ∃ c ∈ Amplitude.components amps, c.isFinite = false := by
      simpa only [not_forall, Bool.not_eq_true, exists_prop] using hfin
    exact iff_of_true (.inl hsome) (.inl hsome)

/-! ## The order of the tests -/

section
variable {R : Type} [Scalar R]

/-- A length that is not taken is the only reason that is given. -/
theorem result_ofAmplitudes_of_error {amps : List (Amplitude R)} {problem : Error R}
    (h : Amplitude.qubitCount amps.length = .error problem) (tolerance : R) :
    (ofAmplitudes amps tolerance).result = .error problem := by
  rw [ofAmplitudes, Report.result_bind, Report.result_ofExcept, h]
  rfl

omit [Scalar R] in
theorem qubitCount_of_ne_two_pow {length : Nat} (hpos : length ≠ 0) (hpow : ∀ n, length ≠ 2 ^ n) :
    Amplitude.qubitCount (R := R) length = .error (.lengthNotPowerOfTwo length) := by
  have hlog : ¬ 1 <<< length.log2 = length := by
    rw [Nat.one_shiftLeft]
    exact fun h => hpow _ h.symm
  rw [Amplitude.qubitCount, if_neg hpos, if_neg hlog]

end

/-- What the transform answers, whatever the amplitudes and the tolerance: the first test that fails,
or a distribution. -/
structure Decided (amps : List (Amplitude Float)) (tolerance : Float) : Prop where
  emptyVector_iff : (ofAmplitudes amps tolerance).result = .error .emptyVector ↔ amps.length = 0
  /-- The components do not matter here. -/
  lengthNotPowerOfTwo_iff : ∀ length,
    (ofAmplitudes amps tolerance).result = .error (.lengthNotPowerOfTwo length) ↔
      length = amps.length ∧ amps.length ≠ 0 ∧ ∀ n, amps.length ≠ 2 ^ n
  zeroNorm_iff : ∀ length,
    (ofAmplitudes amps tolerance).result = .error (.zeroNorm length) ↔
      length = amps.length ∧ (∃ n, amps.length = 2 ^ n) ∧
        ((∃ c ∈ Amplitude.components amps, c.isFinite = false) ∨
          ¬ ∃ c ∈ Amplitude.components amps, Exceeds tolerance c)
  /-- Otherwise there is a distribution, which lists the basis states in order. -/
  succeeds : ∀ n, amps.length = 2 ^ n → (∀ c ∈ Amplitude.components amps, c.isFinite = true) →
    (∃ c ∈ Amplitude.components amps, Exceeds tolerance c) →
    ∃ d, (ofAmplitudes amps tolerance).result = .ok d ∧ d.Lists n
  /-- A tolerance that is no number acts like zero. -/
  nan : tolerance.isNaN = true → (ofAmplitudes amps tolerance).result = (ofAmplitudes amps 0.0).result

/-- Without amplitudes there is nothing else to test. -/
theorem decided_of_length_eq_zero (hempty : amps.length = 0) (tolerance : Float) :
    Decided amps tolerance := by
  have hresult (t : Float) : (ofAmplitudes amps t).result = .error .emptyVector :=
    result_ofAmplitudes_of_error (by rw [Amplitude.qubitCount, if_pos hempty]) t
  have hpow (n : Nat) : amps.length ≠ 2 ^ n := by
    have := Nat.two_pow_pos n
    omega
  refine ⟨?_, ?_, ?_, fun n hn => absurd hn (hpow n), fun _ => by rw [hresult, hresult]⟩
  · rw [hresult]
    exact iff_of_true rfl hempty
  · intro length
    rw [hresult]
    exact iff_of_false (fun h => by cases h) fun h => h.2.1 hempty
  · intro length
    rw [hresult]
    exact iff_of_false (fun h => by cases h) fun h => h.2.1.elim hpow

/-- With a length that is no power of two, components and tolerance are not looked at. -/
theorem decided_of_ne_two_pow (hempty : amps.length ≠ 0) (hpow : ∀ n, amps.length ≠ 2 ^ n)
    (tolerance : Float) : Decided amps tolerance := by
  have hresult (t : Float) :
      (ofAmplitudes amps t).result = .error (.lengthNotPowerOfTwo amps.length) :=
    result_ofAmplitudes_of_error (qubitCount_of_ne_two_pow hempty hpow) t
  refine ⟨?_, ?_, ?_, fun n hn => absurd hn (hpow n), fun _ => by rw [hresult, hresult]⟩
  · rw [hresult]
    exact iff_of_false (fun h => by cases h) hempty
  · intro length
    rw [hresult]
    constructor
    · intro h
      injection h with h
      injection h with h
      exact ⟨h.symm, hempty, hpow⟩
    · rintro ⟨rfl, -⟩
      rfl
  · intro length
    rw [hresult]
    exact iff_of_false (fun h => by cases h) fun h => h.2.1.elim hpow

theorem decided_of_two_pow {n : Nat} (hn : amps.length = 2 ^ n) (tolerance : Float) :
    Decided amps tolerance := by
  have hresult (t : Float) := result_ofAmplitudes hn t
  have hreject := rejects_iff_components amps tolerance
  refine ⟨?_, ?_, ?_, ?_, ?_⟩
  · rw [hresult]
    refine iff_of_false (fun h => by split at h <;> cases h) ?_
    rw [hn]
    exact (Nat.two_pow_pos n).ne'
  · intro length
    rw [hresult]
    exact iff_of_false (fun h => by split at h <;> cases h) fun h => h.2.2 n hn
  · intro length
    rw [hresult, ← hreject]
    split
    · rename_i hr
      constructor
      · intro h
        injection h with h
        injection h with h
        exact ⟨by rw [hn, h], ⟨n, hn⟩, hr⟩
      · rintro ⟨rfl, -, -⟩
        rw [hn]
    · rename_i hr
      exact iff_of_false (fun h => by cases h) fun h => hr h.2.2
  · intro k hk hfin hexceeds
    obtain rfl : k = n := Nat.pow_right_injective le_rfl (hk.symm.trans hn)
    have hr : ¬ Rejects amps tolerance := by
      rw [hreject]
      rintro (⟨c, hc, hinf⟩ | hnone)
      · rw [hfin c hc] at hinf
        cases hinf
      · exact hnone hexceeds
    exact ⟨_, by rw [hresult, if_neg hr], lists_normalized hn⟩
  · intro hnan
    rw [hresult, hresult]
    simp only [rejects_iff_of_isNaN hnan]

/-- **Every vector of doubles gets one answer.** Whatever the components and the tolerance are, the
length is looked at first, then whether every component is finite, then whether one exceeds the
tolerance; and what passes has a distribution. -/
theorem decided (amps : List (Amplitude Float)) (tolerance : Float) : Decided amps tolerance := by
  by_cases hempty : amps.length = 0
  · exact decided_of_length_eq_zero hempty tolerance
  by_cases hpow : ∃ n, amps.length = 2 ^ n
  · obtain ⟨n, hn⟩ := hpow
    exact decided_of_two_pow hn tolerance
  · exact decided_of_ne_two_pow hempty (not_exists.1 hpow) tolerance

end Distribution

end KetSim
