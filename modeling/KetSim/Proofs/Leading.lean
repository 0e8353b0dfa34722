import KetSim.Proofs.DoubleOrder
import KetSim.Proofs.Rescaling
/-!
# The leading outcome

A distribution that was read from text can hold any probabilities. As long as each of them is a
number, the most probable outcome is the first of those that none exceeds: infinities and numbers
below zero have their places in the order, and of the two zeros neither is above the other. In a
distribution that was made of amplitudes the probabilities sum to one, so the most probable outcome
has at least the mean of them (`Distribution.mostLikely_leads`).
-/
namespace KetSim.Distribution

variable {h : ℝ} {amps : List (Amplitude (Exact h))} {tolerance : Exact h}
  {d : Distribution (Exact h)}

theorem total_of_ofAmplitudes (hd : (ofAmplitudes amps tolerance).result = .ok d) :
    d.total = 1 := by
  obtain ⟨-, hr, heq⟩ := of_result_ofAmplitudes hd
  have htop := largestComponent_ne_zero hr
  rw [heq, normalized_eq_plain htop]
  exact total_plain (mt totalNormSq_eq_zero_iff.1 htop) _

/-- The most probable of `2 ^ n` outcomes has at least what each had if all were equal. -/
theorem inv_two_pow_le_probability {n : Nat} (hlen : amps.length = 2 ^ n)
    (hd : (ofAmplitudes amps tolerance).result = .ok d) :
    ∃ o, d.mostLikely? = some o ∧ ((2 : ℝ) ^ n)⁻¹ ≤ o.probability.real := by
  have hlength : d.outcomes.length = 2 ^ n := by
    obtain ⟨hcount, -, heq⟩ := of_result_ofAmplitudes hd
    rw [heq, (lists_normalized hcount).length_eq, ← hcount, hlen]
  have hne : d.outcomes ≠ [] := by
    rw [← List.length_pos_iff, hlength]
    exact Nat.two_pow_pos n
  obtain ⟨k, o, hmost, hleads⟩ := exists_leads ordered_exact (fun _ _ => trivial) hne
  have hle := hleads.inv_le_probability (total_of_ofAmplitudes hd)
  rw [hlength, Nat.cast_pow, Nat.cast_ofNat] at hle
  exact ⟨o, hmost, hle⟩

/-- **The most probable outcome leads.** Whatever doubles other than not-a-numbers the probabilities
are, it is the first outcome that none exceeds; and where they come from `2 ^ n` amplitudes, it is
no less probable than if all were equal. -/
theorem mostLikely_leads :
    (∀ d : Distribution Float, (∀ e ∈ d.outcomes, e.probability.isNaN = false) → d.PicksFirst) ∧
    ∀ {h : ℝ} {n : Nat} {amps : List (Amplitude (Exact h))} {tolerance : Exact h}
      {d : Distribution (Exact h)}, amps.length = 2 ^ n →
      (ofAmplitudes amps tolerance).result = .ok d →
      d.PicksFirst ∧ ∃ o, d.mostLikely? = some o ∧ ((2 : ℝ) ^ n)⁻¹ ≤ o.probability.real :=
  ⟨fun _ hd => picksFirst Scalar.Machine.ordered hd, fun hlen hd =>
    ⟨picksFirst ordered_exact fun _ _ => trivial, inv_two_pow_le_probability hlen hd⟩⟩

/-- The negative zero comes before the other one, with less on either side; two shares are equal. -/
theorem mostLikely_leads_ties :
    let zero : Outcome Float := ⟨7, "low", ⟨0.0, 0.0⟩, -0.0⟩
    let read : Distribution Float := ⟨9,
      [⟨1, "a", ⟨0.0, 0.0⟩, -2.0⟩, zero, ⟨1, "a", ⟨0.0, 0.0⟩, 0.0⟩,
        ⟨0, "", ⟨0.0, 0.0⟩, -1.0 / 0.0⟩]⟩
    let amps : List (Amplitude (Exact (√2)⁻¹)) := [⟨⟨-3⟩, ⟨0⟩⟩, ⟨⟨0⟩, ⟨3⟩⟩]
    (∀ e ∈ read.outcomes, e.probability.isNaN = false) ∧
      read.PicksFirst ∧ read.mostLikely? = some zero ∧
      amps.length = 2 ^ 1 ∧ (ofAmplitudes amps 1).result = .ok (plain 1 amps) ∧
      (plain 1 amps).PicksFirst ∧
      ∃ o, (plain 1 amps).mostLikely? = some o ∧ ((2 : ℝ) ^ 1)⁻¹ ≤ o.probability.real := by
  intro zero read amps
  have htop : (largestComponent amps).real = 3 := by
    norm_num [largestComponent, amps]
  have hok : (ofAmplitudes amps 1).result = .ok (plain 1 amps) := by
    rw [result_ofAmplitudes_plain (n := 1) rfl, htop]
    norm_num
  have hnumbers : ∀ e ∈ read.outcomes, e.probability.isNaN = false := by decide +kernel
  exact ⟨hnumbers, mostLikely_leads.1 read hnumbers, by decide +kernel, rfl, hok,
    mostLikely_leads.2 rfl hok⟩

end KetSim.Distribution
