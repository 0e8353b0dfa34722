import KetSim.Distribution.Sampling
import KetSim.Proofs.Exact
import Mathlib.Algebra.Order.BigOperators.Group.List
import Mathlib.Tactic.Linarith
/-!
# What can be drawn

A draw is at least zero and less than the total, and in exact arithmetic the running sums between
which it falls enclose a positive weight (`Sampler.exists_pos_at_pick`). An outcome of probability
zero is therefore never drawn, wherever it stands, and every draw counts the label of an outcome
(`Distribution.drawOnce_eq_bump`). If all outcomes that can be drawn have one label, all shots go to
it (`Distribution.sampleCounts_of_label`).
-/
namespace KetSim

/-- A draw has fifty-two bits. -/
theorem Keystream.nextDraw_lt (s : Keystream) : s.nextDraw.1 < 2 ^ 52 := by
  have hlow := s.nextWord.1.toNat_lt
  have hhigh := s.nextWord.2.nextWord.1.toNat_lt
  simp only [nextDraw, Nat.shiftLeft_eq, Nat.shiftRight_eq_div_pow]
  omega

variable {h : ℝ}

/-! ## Picks -/

namespace Sampler

theorem total_runningSums (rest : List (Exact h)) (sum : Exact h) :
    (runningSums sum rest).2.real = sum.real + (rest.map Exact.real).sum := by
  induction rest generalizing sum with
  | nil => simp [runningSums]
  | cons w rest ih => simp [runningSums, ih, add_assoc]

/-- Running sums of weights that are not negative do not fall below the first one. -/
theorem le_of_mem_runningSums {rest : List (Exact h)} (hrest : ∀ w ∈ rest, 0 ≤ w.real)
    {sum bound : Exact h} (hb : bound ∈ (runningSums sum rest).1) : sum.real ≤ bound.real := by
  induction rest generalizing sum with
  | nil => simp [runningSums] at hb
  | cons w rest ih =>
    obtain ⟨hw, hrest⟩ := List.forall_mem_cons.1 hrest
    rcases List.mem_cons.1 hb with rfl | hb
    · rfl
    · have := ih hrest hb
      rw [Exact.real_add] at this
      linarith

/-- The number of running sums up to a point is the index of a positive weight. The point lies
between the sum of all weights before `w` and the sum of all weights. -/
theorem exists_pos_at_countP {w : Exact h} {rest : List (Exact h)}
    (hrest : ∀ v ∈ rest, 0 ≤ v.real) {sum point : Exact h} (hlow : sum.real - w.real ≤ point.real)
    (hhigh : point.real < (runningSums sum rest).2.real) :
    ∃ v, (w :: rest)[(runningSums sum rest).1.countP (Scalar.le · point)]? = some v ∧
      0 < v.real := by
  induction rest generalizing w sum with
  | nil =>
    simp only [runningSums] at hhigh
    exact ⟨w, by simp [runningSums], by linarith⟩
  | cons next rest ih =>
    obtain ⟨-, hrest'⟩ := List.forall_mem_cons.1 hrest
    by_cases hsum : sum.real ≤ point.real
    · -- the point has passed `w`
      have hlow' : (sum + next).real - next.real ≤ point.real := by simpa using hsum
      obtain ⟨v, hv, hpos⟩ := ih hrest' hlow' hhigh
      exact ⟨v, by simpa [runningSums, hsum] using hv, hpos⟩
    · -- all running sums lie above the point
      have hzero : (runningSums sum (next :: rest)).1.countP (Scalar.le · point) = 0 := by
        rw [List.countP_eq_zero]
        intro bound hb
        have := le_of_mem_runningSums hrest hb
        simp only [Exact.le_eq, decide_eq_true_eq]
        linarith
      exact ⟨w, by rw [hzero]; rfl, by linarith⟩

/-- A sampler holds the running sums of weights that are not negative and do not add up to zero. -/
theorem ofWeights?_eq_some_iff {weights : List (Exact h)} {s : Sampler (Exact h)} :
    ofWeights? weights = some s ↔
      (∀ v ∈ weights, 0 ≤ v.real) ∧ (weights.map Exact.real).sum ≠ 0 ∧
        ∃ w rest, weights = w :: rest ∧
          s = ⟨(runningSums w rest).1, (runningSums w rest).2⟩ := by
  cases weights with
  | nil => simp [ofWeights?]
  | cons w rest =>
    have htotal := total_runningSums rest w
    by_cases hall : ∀ v ∈ w :: rest, 0 ≤ v.real
    · have hle : (w :: rest).all (Scalar.le 0) = true := by simpa using hall
      by_cases h0 : (runningSums w rest).2.real = 0
      · simp [ofWeights?, hle, h0, ← htotal]
      · obtain ⟨hw, hrest⟩ := List.forall_mem_cons.1 hall
        simpa [ofWeights?, hle, h0, ← htotal, hw, eq_comm (a := s)] using fun _ => hrest
    · have hle : ¬ (w :: rest).all (Scalar.le 0) = true := by simpa using hall
      simp only [ofWeights?, if_neg hle, hall, false_and, reduceCtorEq]

/-- There is a sampler of weights that are not negative and not all zero, and of no others. -/
theorem exists_ofWeights?_iff {weights : List (Exact h)} :
    (∃ s, ofWeights? weights = some s) ↔
      (∀ w ∈ weights, 0 ≤ w.real) ∧ ∃ w ∈ weights, 0 < w.real := by
  constructor
  · rintro ⟨s, hs⟩
    obtain ⟨hall, hsum, -⟩ := ofWeights?_eq_some_iff.1 hs
    refine ⟨hall, ?_⟩
    by_contra hnone
    refine hsum (List.sum_eq_zero fun x hx => ?_)
    obtain ⟨w, hw, rfl⟩ := List.mem_map.1 hx
    exact le_antisymm (not_lt.1 fun hpos => hnone ⟨w, hw, hpos⟩) (hall w hw)
  · rintro ⟨hall, w, hw, hpos⟩
    have hsum : w.real ≤ (weights.map Exact.real).sum :=
      List.single_le_sum (by simpa using hall) _ (List.mem_map_of_mem hw)
    obtain ⟨first, rest, rfl⟩ := List.exists_cons_of_ne_nil (List.ne_nil_of_mem hw)
    exact ⟨_, ofWeights?_eq_some_iff.2 ⟨hall, (hpos.trans_le hsum).ne', first, rest, rfl, rfl⟩⟩

/-- **A draw falls to a positive weight.** -/
theorem exists_pos_at_pick {weights : List (Exact h)} {s : Sampler (Exact h)}
    (hs : ofWeights? weights = some s) {draw : Nat} (hdraw : draw < 2 ^ 52) :
    ∃ w, weights[s.pick draw]? = some w ∧ 0 < w.real := by
  obtain ⟨hall, hsum, w, rest, rfl, rfl⟩ := ofWeights?_eq_some_iff.1 hs
  have htotal : (runningSums w rest).2.real = ((w :: rest).map Exact.real).sum := by
    simp [total_runningSums]
  have hpos : 0 < (runningSums w rest).2.real := by
    rw [htotal]
    exact lt_of_le_of_ne (List.sum_nonneg (by simpa using hall)) hsum.symm
  have hfraction : ((draw : ℝ) / 2 ^ 52) < 1 := by
    rw [div_lt_one (by positivity)]
    exact_mod_cast hdraw
  refine exists_pos_at_countP (List.forall_mem_cons.1 hall).2 ?_ ?_
  · rw [sub_self, Exact.real_mul, Exact.real_fraction]
    positivity
  · rw [Exact.real_mul, Exact.real_fraction]
    exact mul_lt_of_lt_one_left hpos hfraction

end Sampler

/-! ## Draws -/

namespace Distribution

/-- The index that is drawn is the index of an outcome that is not impossible. -/
theorem exists_pos_at_draw {d : Distribution (Exact h)} {s : Sampler (Exact h)}
    (hs : Sampler.ofWeights? d.probabilities = some s) (stream : Keystream) :
    ∃ e, d.outcomes[s.pick stream.nextDraw.1]? = some e ∧ 0 < e.probability.real := by
  obtain ⟨w, hw, hpos⟩ := Sampler.exists_pos_at_pick hs stream.nextDraw_lt
  rw [probabilities, List.getElem?_map, Option.map_eq_some_iff] at hw
  obtain ⟨e, he, rfl⟩ := hw
  exact ⟨e, he, hpos⟩

/-- A draw counts the label of this outcome. -/
theorem drawOnce_eq_bump {d : Distribution (Exact h)} {s : Sampler (Exact h)}
    (hs : Sampler.ofWeights? d.probabilities = some s) (state : Tally × Keystream) :
    ∃ e ∈ d.outcomes, 0 < e.probability.real ∧
      d.drawOnce s state = (state.1.bump e.label, state.2.nextDraw.2) := by
  obtain ⟨e, he, hpos⟩ := exists_pos_at_draw hs state.2
  exact ⟨e, List.mem_of_getElem? he, hpos, by simp only [drawOnce, he]⟩

/-- If whatever can be drawn has one label, all draws count for it. -/
theorem draws_of_label {d : Distribution (Exact h)} {s : Sampler (Exact h)}
    (hs : Sampler.ofWeights? d.probabilities = some s) {label : String}
    (hlabel : ∀ e ∈ d.outcomes, 0 < e.probability.real → e.label = label) (stream : Keystream)
    (shots : Nat) : (d.draws s stream shots).1 = if shots = 0 then [] else [(label, shots)] := by
  induction shots with
  | zero => rfl
  | succ shots ih =>
    obtain ⟨e, he, hpos, hdraw⟩ := drawOnce_eq_bump hs (d.draws s stream shots)
    have hstep : d.draws s stream (shots + 1) = d.drawOnce s (d.draws s stream shots) := rfl
    rw [hstep, hdraw, hlabel e he hpos, ih]
    by_cases h0 : shots = 0 <;> simp [h0, Tally.bump]

/-- If there is no negative probability and some positive one, and whatever is possible has one
label, all shots are counted for it. -/
theorem sampleCounts_of_label {d : Distribution (Exact h)}
    (hall : ∀ e ∈ d.outcomes, 0 ≤ e.probability.real)
    (hpos : ∃ e ∈ d.outcomes, 0 < e.probability.real) {label : String}
    (hlabel : ∀ e ∈ d.outcomes, 0 < e.probability.real → e.label = label) {shots : Nat}
    (hshots : 0 < shots) (seed : UInt64) : d.sampleCounts shots seed = [(label, shots)] := by
  obtain ⟨s, hs⟩ : ∃ s, Sampler.ofWeights? d.probabilities = some s := by
    rw [Sampler.exists_ofWeights?_iff]
    simpa [probabilities] using And.intro hall hpos
  rw [sampleCounts, hs]
  simp [draws_of_label hs hlabel, hshots.ne']

end Distribution

end KetSim
