import KetSim.Proofs.Tallies
import Mathlib.Algebra.Order.Floor.Semiring
import Mathlib.Order.Interval.Finset.Nat
/-!
# How often an outcome is drawn

A draw is one of `2^52` equally likely numbers. In exact arithmetic the draws that fall to an outcome
are an interval of them (`Sampler.filter_pick_eq_Ico`): it starts at the first draw whose point
reaches the sum of the weights before the outcome (`Sampler.threshold`) and ends where that of the
next outcome starts. Its length is the outcome's share of all draws, rounded up or down
(`Distribution.draws_proportional`), so zeros and equal weights anywhere favour no outcome.
-/
namespace KetSim

variable {h : ℝ}

namespace Sampler

/-! ## Running sums -/

/-- The sum of the weights before an index. -/
def weightBefore (weights : List (Exact h)) (i : Nat) : ℝ := ((weights.take i).map Exact.real).sum

theorem weightBefore_succ {weights : List (Exact h)} {i : Nat} {w : Exact h}
    (hw : weights[i]? = some w) : weightBefore weights (i + 1) = weightBefore weights i + w.real := by
  unfold weightBefore
  rw [List.take_add_one, hw]
  simp

/-- The sum of all weights. -/
theorem weightBefore_length (weights : List (Exact h)) :
    weightBefore weights weights.length = (weights.map Exact.real).sum := by
  simp [weightBefore]

theorem weightBefore_mono {weights : List (Exact h)} (hnonneg : ∀ w ∈ weights, 0 ≤ w.real) :
    Monotone (weightBefore weights) := by
  apply monotone_nat_of_le_succ
  intro i
  cases hw : weights[i]? with
  | none =>
    have hlen := List.getElem?_eq_none_iff.1 hw
    simp [weightBefore, List.take_of_length_le hlen, List.take_of_length_le (Nat.le_succ_of_le hlen)]
  | some w =>
    rw [weightBefore_succ hw]
    have := hnonneg w (List.mem_of_getElem? hw)
    linarith

theorem weightBefore_nonneg {weights : List (Exact h)} (hnonneg : ∀ w ∈ weights, 0 ≤ w.real)
    (i : Nat) : 0 ≤ weightBefore weights i := by
  have hle := weightBefore_mono hnonneg (Nat.zero_le i)
  simpa [weightBefore] using hle

theorem length_runningSums (rest : List (Exact h)) (sum : Exact h) :
    (runningSums sum rest).1.length = rest.length := by
  induction rest generalizing sum with
  | nil => rfl
  | cons w rest ih => simp [runningSums, ih]

/-- The bound at an index is the start of the sum and what comes before the index. -/
theorem real_of_runningSums_getElem? {rest : List (Exact h)} {sum bound : Exact h} {j : Nat}
    (hb : (runningSums sum rest).1[j]? = some bound) :
    bound.real = sum.real + weightBefore rest j := by
  induction rest generalizing sum j with
  | nil => simp [runningSums] at hb
  | cons w rest ih =>
    cases j with
    | zero =>
      obtain rfl : sum = bound := by simpa [runningSums] using hb
      simp [weightBefore]
    | succ j =>
      have hb' : (runningSums (sum + w) rest).1[j]? = some bound := by simpa [runningSums] using hb
      rw [ih hb', Exact.real_add, add_assoc]
      simp [weightBefore]

/-- Among bounds in order, those up to a point come first. -/
theorem lt_countP_iff {bounds : List (Exact h)} (hsorted : bounds.Pairwise (·.real ≤ ·.real))
    (point : Exact h) (j : Nat) :
    j < bounds.countP (Scalar.le · point) ↔
      ∃ bound, bounds[j]? = some bound ∧ bound.real ≤ point.real := by
  induction bounds generalizing j with
  | nil => simp
  | cons b bounds ih =>
    obtain ⟨hb, hsorted⟩ := List.pairwise_cons.1 hsorted
    by_cases hle : b.real ≤ point.real
    · rw [List.countP_cons_of_pos (by simpa using hle)]
      cases j with
      | zero => simp [hle]
      | succ j => simpa using ih hsorted j
    · -- no later bound is smaller than the first one
      have hzero : (b :: bounds).countP (Scalar.le · point) = 0 := by
        rw [List.countP_eq_zero]
        intro c hc
        rcases List.mem_cons.1 hc with rfl | hc
        · simpa using hle
        · have := hb c hc
          simp only [Exact.le_eq, decide_eq_true_eq]
          linarith
      rw [hzero]
      refine ⟨fun hj => absurd hj (Nat.not_lt_zero j), ?_⟩
      rintro ⟨c, hc, hcle⟩
      rcases List.mem_cons.1 (List.mem_of_getElem? hc) with rfl | hc
      · exact absurd hcle hle
      · exact absurd ((hb c hc).trans hcle) hle

theorem pairwise_runningSums {rest : List (Exact h)} (hrest : ∀ w ∈ rest, 0 ≤ w.real)
    (sum : Exact h) : (runningSums sum rest).1.Pairwise (·.real ≤ ·.real) := by
  induction rest generalizing sum with
  | nil => exact List.Pairwise.nil
  | cons w rest ih =>
    obtain ⟨hw, hrest⟩ := List.forall_mem_cons.1 hrest
    refine List.pairwise_cons.2 ⟨fun bound hb => ?_, ih hrest (sum + w)⟩
    have := le_of_mem_runningSums hrest hb
    rw [Exact.real_add] at this
    linarith

/-! ## Where a draw falls -/

section
variable {weights : List (Exact h)} {s : Sampler (Exact h)}

/-- The sampler holds the running sums of weights that are not negative and not all zero. -/
structure Samples (s : Sampler (Exact h)) (weights : List (Exact h)) : Prop where
  nonneg : ∀ w ∈ weights, 0 ≤ w.real
  total_pos : 0 < (weights.map Exact.real).sum
  total_eq : s.total.real = (weights.map Exact.real).sum
  length_eq : s.bounds.length + 1 = weights.length
  bound_eq : ∀ j bound, s.bounds[j]? = some bound → bound.real = weightBefore weights (j + 1)
  sorted : s.bounds.Pairwise (·.real ≤ ·.real)

theorem samples_of_ofWeights? (hs : ofWeights? weights = some s) : s.Samples weights := by
  obtain ⟨hall, hsum, w, rest, rfl, rfl⟩ := ofWeights?_eq_some_iff.1 hs
  have hrest := (List.forall_mem_cons.1 hall).2
  refine ⟨hall, lt_of_le_of_ne (List.sum_nonneg (by simpa using hall)) hsum.symm, ?_, ?_, ?_, ?_⟩
  · simp [total_runningSums]
  · simp [length_runningSums]
  · intro j bound hb
    rw [real_of_runningSums_getElem? hb]
    simp [weightBefore]
  · exact pairwise_runningSums hrest w

/-- The first draw whose point reaches the sum of the weights before an index. -/
noncomputable def threshold (weights : List (Exact h)) (i : Nat) : Nat :=
  ⌈(2 ^ 52 : Nat) * weightBefore weights i / (weights.map Exact.real).sum⌉₊

theorem threshold_eq (weights : List (Exact h)) (i : Nat) :
    threshold weights i = ⌈2 ^ 52 * weightBefore weights i / (weights.map Exact.real).sum⌉₊ := by
  unfold threshold
  rw [Nat.cast_pow, Nat.cast_ofNat]

namespace Samples
variable (hs : s.Samples weights)
include hs

theorem pick_lt_length (draw : Nat) : s.pick draw < weights.length := by
  have hle : s.pick draw ≤ s.bounds.length := List.countP_le_length
  have := hs.length_eq
  omega

/-- The index of a draw is the number of running sums, without the last, up to its point. -/
theorem pick_eq_countP (draw : Nat) :
    s.pick draw = (List.range (weights.length - 1)).countP fun j =>
      weightBefore weights (j + 1) ≤ (draw : ℝ) / 2 ^ 52 * (weights.map Exact.real).sum := by
  have hbounds : s.bounds.map Exact.real =
      (List.range (weights.length - 1)).map fun j => weightBefore weights (j + 1) := by
    apply List.ext_getElem
    · have := hs.length_eq
      simp
      omega
    · intro j hj _
      have hj' : j < s.bounds.length := by simpa using hj
      simpa using hs.bound_eq j _ (List.getElem?_eq_getElem hj')
  have hreal : s.pick draw = (s.bounds.map Exact.real).countP fun x =>
      x ≤ (draw : ℝ) / 2 ^ 52 * (weights.map Exact.real).sum := by
    rw [List.countP_map, pick, ← hs.total_eq]
    rfl
  rw [hreal, hbounds, List.countP_map]
  rfl

/-- A draw passes an index exactly from the threshold of the index on. -/
theorem le_pick_iff {i : Nat} (hi : i < weights.length) (draw : Nat) :
    i ≤ s.pick draw ↔ threshold weights i ≤ draw := by
  have hpoint : threshold weights i ≤ draw ↔
      weightBefore weights i ≤ (draw : ℝ) / 2 ^ 52 * s.total.real := by
    rw [threshold_eq, Nat.ceil_le, div_le_iff₀ hs.total_pos, ← hs.total_eq, div_mul_eq_mul_div,
      le_div_iff₀ (by positivity), mul_comm (weightBefore weights i)]
  rw [hpoint]
  cases i with
  | zero =>
    have htotal := hs.total_pos
    rw [← hs.total_eq] at htotal
    simp only [Nat.zero_le, true_iff]
    have : (0 : ℝ) ≤ (draw : ℝ) / 2 ^ 52 * s.total.real := by positivity
    simpa [weightBefore] using this
  | succ j =>
    have hcount := lt_countP_iff hs.sorted (Scalar.fraction draw * s.total) j
    rw [Exact.real_mul, Exact.real_fraction] at hcount
    rw [Nat.succ_le_iff, pick, hcount]
    constructor
    · rintro ⟨bound, hb, hle⟩
      rwa [hs.bound_eq j bound hb] at hle
    · intro hle
      have hj : j < s.bounds.length := by
        have := hs.length_eq
        omega
      refine ⟨s.bounds[j], List.getElem?_eq_getElem hj, ?_⟩
      rwa [hs.bound_eq j _ (List.getElem?_eq_getElem hj)]

/-- A larger draw falls to no earlier index. -/
theorem pick_mono : Monotone s.pick := by
  intro u v huv
  have hu := hs.pick_lt_length u
  exact (hs.le_pick_iff hu v).2 (((hs.le_pick_iff hu u).1 le_rfl).trans huv)

theorem threshold_mono : Monotone (threshold weights) := by
  intro i j hij
  have hle := weightBefore_mono hs.nonneg hij
  have hpos := hs.total_pos
  rw [threshold_eq, threshold_eq]
  exact Nat.ceil_mono (by gcongr)

/-- No draw reaches the sum of all weights. -/
theorem threshold_length : threshold weights weights.length = 2 ^ 52 := by
  rw [threshold_eq, weightBefore_length, mul_div_assoc, div_self hs.total_pos.ne', mul_one]
  exact_mod_cast Nat.ceil_natCast (R := ℝ) (2 ^ 52)

theorem threshold_le {i : Nat} (hi : i ≤ weights.length) : threshold weights i ≤ 2 ^ 52 :=
  hs.threshold_length ▸ hs.threshold_mono hi

/-- The draws that fall to an index are those from its threshold up to the next one. -/
theorem filter_pick_eq_Ico {i : Nat} (hi : i < weights.length) :
    {draw ∈ Finset.range (2 ^ 52) | s.pick draw = i} =
      Finset.Ico (threshold weights i) (threshold weights (i + 1)) := by
  have hnext (draw : Nat) (hdraw : draw < 2 ^ 52) :
      i + 1 ≤ s.pick draw ↔ threshold weights (i + 1) ≤ draw := by
    by_cases hlast : i + 1 < weights.length
    · exact hs.le_pick_iff hlast draw
    · -- behind the last index nothing is left
      obtain hlen : i + 1 = weights.length := by omega
      have hlt := hs.pick_lt_length draw
      rw [hlen, hs.threshold_length]
      omega
  ext draw
  rw [Finset.mem_filter, Finset.mem_range, Finset.mem_Ico]
  have hthis := hs.le_pick_iff hi draw
  constructor
  · rintro ⟨hdraw, hpick⟩
    have := hnext draw hdraw
    omega
  · rintro ⟨hlow, hhigh⟩
    have hdraw : draw < 2 ^ 52 := hhigh.trans_le (hs.threshold_le hi)
    have := hnext draw hdraw
    omega

/-- The number of draws that fall to an index is its share of all draws, rounded up or down. -/
theorem abs_card_sub_lt {i : Nat} {w : Exact h} (hw : weights[i]? = some w) :
    |(({draw ∈ Finset.range (2 ^ 52) | s.pick draw = i}.card : ℕ) : ℝ) -
      2 ^ 52 * w.real / (weights.map Exact.real).sum| < 1 := by
  have hi : i < weights.length := (List.getElem?_eq_some_iff.1 hw).1
  have hpos := hs.total_pos
  rw [hs.filter_pick_eq_Ico hi, Nat.card_Ico, Nat.cast_sub (hs.threshold_mono i.le_succ)]
  have hshare : 2 ^ 52 * w.real / (weights.map Exact.real).sum =
      2 ^ 52 * weightBefore weights (i + 1) / (weights.map Exact.real).sum -
        2 ^ 52 * weightBefore weights i / (weights.map Exact.real).sum := by
    rw [weightBefore_succ hw]
    ring
  have hceil (j : Nat) :
      2 ^ 52 * weightBefore weights j / (weights.map Exact.real).sum ≤ threshold weights j ∧
        threshold weights j < 2 ^ 52 * weightBefore weights j / (weights.map Exact.real).sum + 1 := by
    have hnonneg : 0 ≤ 2 ^ 52 * weightBefore weights j / (weights.map Exact.real).sum :=
      div_nonneg (mul_nonneg (by norm_num) (weightBefore_nonneg hs.nonneg j)) hpos.le
    rw [threshold_eq]
    exact ⟨Nat.le_ceil _, Nat.ceil_lt_add_one hnonneg⟩
  obtain ⟨hlow, hhigh⟩ := hceil i
  obtain ⟨hlow', hhigh'⟩ := hceil (i + 1)
  rw [hshare, abs_lt]
  constructor <;> linarith

end Samples

end

end Sampler

/-! ## Draws of a distribution -/

namespace Distribution
variable {d : Distribution (Exact h)}

/-- How the draws are shared out among the outcomes of a distribution. -/
structure Proportional (d : Distribution (Exact h)) (s : Sampler (Exact h)) : Prop where
  /-- The index of a draw is the number of running sums, without the last, up to its point. -/
  pick_eq : ∀ draw, s.pick draw = (List.range (d.outcomes.length - 1)).countP fun j =>
    Sampler.weightBefore d.probabilities (j + 1) ≤ (draw : ℝ) / 2 ^ 52 * d.total.real
  /-- Every shot takes the next draw and counts the outcome at its index. -/
  shot : ∀ seed shots,
    let draw := (d.draws s (Keystream.ofSeed seed) shots).2.nextDraw.1
    draw < 2 ^ 52 ∧ ∃ e, d.outcomes[s.pick draw]? = some e ∧
      d.sampleCounts (shots + 1) seed = (d.sampleCounts shots seed).bump e.label
  mono : Monotone s.pick
  lt_length : ∀ draw, s.pick draw < d.outcomes.length
  /-- An outcome gets its share of all draws, rounded up or down. -/
  share : ∀ i e, d.outcomes[i]? = some e →
    |(({draw ∈ Finset.range (2 ^ 52) | s.pick draw = i}.card : ℕ) : ℝ) -
      2 ^ 52 * e.probability.real / d.total.real| < 1

theorem real_total (d : Distribution (Exact h)) :
    d.total.real = (d.probabilities.map Exact.real).sum := by
  rw [total, Exact.real_sum]

theorem proportional_of_ofWeights? {s : Sampler (Exact h)}
    (hs : Sampler.ofWeights? d.probabilities = some s) : d.Proportional s := by
  have hsamples := Sampler.samples_of_ofWeights? hs
  have hlen : d.probabilities.length = d.outcomes.length := by simp [probabilities]
  refine ⟨fun draw => ?_, fun seed shots => ?_, hsamples.pick_mono, fun draw => ?_, ?_⟩
  · rw [real_total, ← hlen]
    exact hsamples.pick_eq_countP draw
  · refine ⟨Keystream.nextDraw_lt _, ?_⟩
    obtain ⟨e, he, -⟩ := exists_pos_at_draw hs (d.draws s (Keystream.ofSeed seed) shots).2
    refine ⟨e, he, ?_⟩
    have hstep : d.draws s (Keystream.ofSeed seed) (shots + 1) =
        d.drawOnce s (d.draws s (Keystream.ofSeed seed) shots) := rfl
    simp only [sampleCounts, hs, hstep, drawOnce, he]
  · rw [← hlen]
    exact hsamples.pick_lt_length draw
  · intro i e he
    rw [real_total]
    exact hsamples.abs_card_sub_lt (by rw [probabilities, List.getElem?_map, he]; rfl)

/-- **Every outcome is drawn in proportion to its probability.** Of the `2^52` equally likely draws,
as many fall to an outcome as its probability asks for, up to less than one of them, whatever zeros
and equal weights stand around it. -/
theorem draws_proportional (hnonneg : ∀ e ∈ d.outcomes, 0 ≤ e.probability.real)
    (hpos : 0 < d.total.real) :
    ∃ s, Sampler.ofWeights? d.probabilities = some s ∧ d.Proportional s := by
  have hsome : ∃ e ∈ d.outcomes, 0 < e.probability.real := by
    by_contra hnone
    rw [real_total] at hpos
    refine hpos.ne' (List.sum_eq_zero fun x hx => ?_)
    obtain ⟨w, hw, rfl⟩ := List.mem_map.1 hx
    obtain ⟨e, he, rfl⟩ := List.mem_map.1 hw
    exact le_antisymm (not_lt.1 fun hlt => hnone ⟨e, he, hlt⟩) (hnonneg e he)
  obtain ⟨s, hs⟩ := exists_sampler_iff.2 ⟨hnonneg, hsome⟩
  exact ⟨s, hs, proportional_of_ofWeights? hs⟩

/-- Impossible outcomes first, between and last; a third of all draws is no whole number. -/
theorem draws_proportional_thirds :
    let e (i : Nat) (p : ℝ) : Outcome (Exact (√2)⁻¹) := ⟨i, "a", 0, ⟨p⟩⟩
    let d : Distribution (Exact (√2)⁻¹) := ⟨3, [e 0 0, e 1 1, e 2 0, e 3 1, e 4 1, e 5 0]⟩
    ((∀ o ∈ d.outcomes, 0 ≤ o.probability.real) ∧ 0 < d.total.real) ∧
      ∃ s, Sampler.ofWeights? d.probabilities = some s ∧ d.Proportional s := by
  intro e d
  have hnonneg : ∀ o ∈ d.outcomes, 0 ≤ o.probability.real := by simp [d, e]
  have hpos : 0 < d.total.real := by
    rw [real_total]
    norm_num [d, e, probabilities]
  exact ⟨⟨hnonneg, hpos⟩, draws_proportional hnonneg hpos⟩

end Distribution

end KetSim
