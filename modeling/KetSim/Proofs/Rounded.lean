import KetSim.Proofs.LargestComponent
import KetSim.Proofs.Transform
import Mathlib.Algebra.Order.Floor.Ring
/-!
# The transform under rounding

Real numbers where every arithmetic operation is done exactly and then rounded once. Of the rounding
only this is assumed: it is monotone, what is rounded stays as it is, and zero and plus or minus one
are not moved (`Rounding`). That is enough to keep the transform in bounds
(`Distribution.keepsBounds_of_ofAmplitudes`). The reason is that a quotient by the largest component
is at most one and somewhere exactly one, so a square of one enters the sum of squares, and no later
square makes it smaller.
-/
namespace KetSim

/-- A way of rounding real numbers. -/
structure Rounding where
  round : ℝ → ℝ
  mono : Monotone round
  round_round : ∀ x, round (round x) = round x
  round_zero : round 0 = 0
  round_one : round 1 = 1
  round_neg_one : round (-1) = -1

namespace Rounding
variable (ρ : Rounding) {x : ℝ}

theorem round_nonneg (hx : 0 ≤ x) : 0 ≤ ρ.round x := by
  have := ρ.mono hx
  rwa [ρ.round_zero] at this

theorem one_le_round (hx : 1 ≤ x) : 1 ≤ ρ.round x := by
  have := ρ.mono hx
  rwa [ρ.round_one] at this

theorem round_mem_Icc (hx : x ∈ Set.Icc (-1) 1) : ρ.round x ∈ Set.Icc (-1) 1 := by
  have hlow := ρ.mono hx.1
  have hhigh := ρ.mono hx.2
  rw [ρ.round_neg_one] at hlow
  rw [ρ.round_one] at hhigh
  exact ⟨hlow, hhigh⟩

/-- Down to a multiple of one over `k`. -/
noncomputable def downTo (k : Nat) (hk : 0 < k) : Rounding where
  round x := ⌊k * x⌋ / k
  mono x y hxy := by
    have hfloor : (⌊k * x⌋ : ℝ) ≤ ⌊k * y⌋ := by
      exact_mod_cast Int.floor_mono (mul_le_mul_of_nonneg_left hxy k.cast_nonneg)
    exact div_le_div_of_nonneg_right hfloor k.cast_nonneg
  round_round x := by
    have hk' : (k : ℝ) ≠ 0 := by exact_mod_cast hk.ne'
    rw [mul_div_cancel₀ _ hk', Int.floor_intCast]
  round_zero := by simp
  round_one := by
    have hk' : (k : ℝ) ≠ 0 := by exact_mod_cast hk.ne'
    rw [mul_one, Int.floor_natCast, Int.cast_natCast, div_self hk']
  round_neg_one := by
    have hk' : (k : ℝ) ≠ 0 := by exact_mod_cast hk.ne'
    have hfloor : ⌊(k : ℝ) * -1⌋ = -(k : Int) := by
      rw [mul_neg_one, ← Int.cast_natCast, ← Int.cast_neg, Int.floor_intCast]
    rw [hfloor, Int.cast_neg, Int.cast_natCast, neg_div, div_self hk']

end Rounding

/-- A real number that is computed with under a rounding. Negation, magnitude and comparisons are
exact, every other operation is the real one rounded. -/
@[ext] structure Rounded (ρ : Rounding) where
  real : ℝ

namespace Rounded
variable {ρ : Rounding}

noncomputable instance : Scalar (Rounded ρ) where
  zero := ⟨0⟩
  one := ⟨1⟩
  neg a := ⟨-a.real⟩
  add a b := ⟨ρ.round (a.real + b.real)⟩
  sub a b := ⟨ρ.round (a.real - b.real)⟩
  mul a b := ⟨ρ.round (a.real * b.real)⟩
  div a b := ⟨ρ.round (a.real / b.real)⟩
  abs a := ⟨|a.real|⟩
  sqrt a := ⟨ρ.round √a.real⟩
  hypot a b := ⟨ρ.round √(a.real ^ 2 + b.real ^ 2)⟩
  invSqrt2 := ⟨ρ.round (√(2 : Nat))⁻¹⟩
  fraction n := ⟨ρ.round (n / (2 ^ 52 : Nat))⟩
  le a b := decide (a.real ≤ b.real)
  lt a b := decide (a.real < b.real)
  same a b := decide (a.real = b.real)
  isFinite _ := true

@[simp] theorem real_zero : (0 : Rounded ρ).real = 0 := rfl

@[simp] theorem real_one : (1 : Rounded ρ).real = 1 := rfl

@[simp] theorem real_neg (a : Rounded ρ) : (-a).real = -a.real := rfl

@[simp] theorem real_add (a b : Rounded ρ) : (a + b).real = ρ.round (a.real + b.real) := rfl

@[simp] theorem real_mul (a b : Rounded ρ) : (a * b).real = ρ.round (a.real * b.real) := rfl

@[simp] theorem real_div (a b : Rounded ρ) : (a / b).real = ρ.round (a.real / b.real) := rfl

@[simp] theorem real_sqrt (a : Rounded ρ) : (Scalar.sqrt a).real = ρ.round √a.real := rfl

@[simp] theorem real_hypot (a b : Rounded ρ) :
    (Scalar.hypot a b).real = ρ.round √(a.real ^ 2 + b.real ^ 2) := rfl

@[simp] theorem le_eq (a b : Rounded ρ) : Scalar.le a b = decide (a.real ≤ b.real) := rfl

@[simp] theorem same_eq (a b : Rounded ρ) : Scalar.same a b = decide (a.real = b.real) := rfl

@[simp] theorem isFinite_eq (a : Rounded ρ) : Scalar.isFinite a = true := rfl

/-- Maxima and caps are exact. -/
theorem reads : Scalar.Reads (fun _ : Rounded ρ => True) real where
  zero := trivial
  real_zero := rfl
  abs _ := trivial
  real_abs _ := rfl
  le_iff _ _ := by simp

@[simp] theorem real_cap (a top : Rounded ρ) : (Scalar.cap a top).real = min a.real top.real :=
  (reads.cap trivial trivial).2

/-! ## Running sums -/

noncomputable def runningSum (xs : List (Rounded ρ)) (k : Nat) : ℝ := (Scalar.sum (xs.take k)).real

theorem runningSum_zero (xs : List (Rounded ρ)) : runningSum xs 0 = 0 := by
  unfold runningSum Scalar.sum
  simp

theorem runningSum_succ {xs : List (Rounded ρ)} {k : Nat} {x : Rounded ρ} (hx : xs[k]? = some x) :
    runningSum xs (k + 1) = ρ.round (runningSum xs k + x.real) := by
  unfold runningSum Scalar.sum
  rw [List.take_add_one, hx, List.foldl_append]
  rfl

theorem runningSum_length (xs : List (Rounded ρ)) :
    runningSum xs xs.length = (Scalar.sum xs).real := by
  unfold runningSum
  rw [List.take_length]

/-- A running sum is zero or has been rounded, so rounding leaves it as it is. -/
theorem round_runningSum (xs : List (Rounded ρ)) (k : Nat) :
    ρ.round (runningSum xs k) = runningSum xs k := by
  induction k with
  | zero => rw [runningSum_zero, ρ.round_zero]
  | succ k ih =>
    cases hx : xs[k]? with
    | none =>
      unfold runningSum at ih ⊢
      rw [List.take_add_one, hx]
      simpa using ih
    | some x => rw [runningSum_succ hx, ρ.round_round]

/-- Adding what is not negative makes no sum smaller. -/
theorem runningSum_mono {xs : List (Rounded ρ)} (hxs : ∀ x ∈ xs, 0 ≤ x.real) :
    Monotone (runningSum xs) := by
  apply monotone_nat_of_le_succ
  intro k
  cases hx : xs[k]? with
  | none =>
    unfold runningSum
    rw [List.take_add_one, hx]
    simp
  | some x =>
    have hnonneg := hxs x (List.mem_of_getElem? hx)
    calc runningSum xs k = ρ.round (runningSum xs k) := (round_runningSum xs k).symm
      _ ≤ ρ.round (runningSum xs k + x.real) := ρ.mono (by linarith)
      _ = runningSum xs (k + 1) := (runningSum_succ hx).symm

/-- A sum is at least each of the numbers in it that rounding leaves as it is. -/
theorem le_sum {xs : List (Rounded ρ)} (hxs : ∀ x ∈ xs, 0 ≤ x.real) {x : Rounded ρ} (hx : x ∈ xs)
    (hfix : ρ.round x.real = x.real) : x.real ≤ (Scalar.sum xs).real := by
  obtain ⟨k, hk⟩ := List.mem_iff_getElem?.1 hx
  have hbefore : 0 ≤ runningSum xs k := by
    rw [← runningSum_zero xs]
    exact runningSum_mono hxs (Nat.zero_le k)
  have hlen : k + 1 ≤ xs.length := (List.getElem?_eq_some_iff.1 hk).1
  calc x.real = ρ.round x.real := hfix.symm
    _ ≤ ρ.round (runningSum xs k + x.real) := ρ.mono (by linarith)
    _ = runningSum xs (k + 1) := (runningSum_succ hk).symm
    _ ≤ runningSum xs xs.length := runningSum_mono hxs hlen
    _ = (Scalar.sum xs).real := runningSum_length xs

end Rounded

namespace Distribution

section
variable {R : Type} [Scalar R]

/-- The amplitudes divided by their largest component. -/
def scaled (amps : List (Amplitude R)) : List (Amplitude R) :=
  amps.map (·.scaleDown (largestComponent amps))

/-- The squared magnitudes, as they are added up for the norm. -/
def squares (amps : List (Amplitude R)) : List R := amps.map fun a => a.magnitude * a.magnitude

theorem norm_eq (amps : List (Amplitude R)) : norm amps = Scalar.sqrt (Scalar.sum (squares amps)) :=
  rfl

theorem components_scaled (amps : List (Amplitude R)) :
    Amplitude.components (scaled amps) =
      (Amplitude.components amps).map (· / largestComponent amps) := by
  simp [Amplitude.components, scaled, List.flatMap_map, List.map_flatMap, Amplitude.scaleDown]

theorem normalized_eq (n : Nat) (amps : List (Amplitude R)) :
    normalized n amps =
      ⟨n, (scaled amps).zipIdx.map fun (a, i) => outcome n (norm (scaled amps)) i a⟩ := rfl

end

variable {ρ : Rounding} {amps : List (Amplitude (Rounded ρ))}

/-! ## The scale -/

theorem abs_real_le_largestComponent {c : Rounded ρ} (hc : c ∈ Amplitude.components amps) :
    |c.real| ≤ (largestComponent amps).real :=
  le_largestComponent_of_reads Rounded.reads (fun _ _ => trivial) hc

theorem rejects_iff_real {tolerance : Rounded ρ} : Rejects amps tolerance ↔
    (largestComponent amps).real = 0 ∨ (largestComponent amps).real ≤ tolerance.real := by
  simp [Rejects, Amplitude.isFinite]

/-- Accepted amplitudes have a component other than zero. -/
theorem largestComponent_pos {tolerance : Rounded ρ} (hr : ¬ Rejects amps tolerance) :
    0 < (largestComponent amps).real := by
  have hnonneg : 0 ≤ (largestComponent amps).real :=
    largestComponent_nonneg_of_reads Rounded.reads fun _ _ => trivial
  refine lt_of_le_of_ne hnonneg ?_
  intro hzero
  exact hr (rejects_iff_real.2 (.inl hzero.symm))

theorem mem_Icc_of_mem_components_scaled {c : Rounded ρ}
    (hc : c ∈ Amplitude.components (scaled amps)) : c.real ∈ Set.Icc (-1) 1 := by
  rw [components_scaled, List.mem_map] at hc
  obtain ⟨b, hb, rfl⟩ := hc
  have hle := abs_real_le_largestComponent hb
  apply ρ.round_mem_Icc
  rw [Set.mem_Icc, ← abs_le, abs_div]
  exact div_le_one_of_le₀ (hle.trans (le_abs_self _)) (abs_nonneg _)

/-- The component that is the largest one becomes plus or minus one. -/
theorem exists_unit_mem_components_scaled {tolerance : Rounded ρ} (hr : ¬ Rejects amps tolerance) :
    ∃ c ∈ Amplitude.components (scaled amps), c.real = 1 ∨ c.real = -1 := by
  have hpos := largestComponent_pos hr
  have hfrom : largestComponent amps = 0 ∨
      ∃ c ∈ Amplitude.components amps, largestComponent amps = Scalar.abs c :=
    largestComponent_eq_or_of_reads Rounded.reads fun _ _ => trivial
  rcases hfrom with hzero | ⟨c, hc, heq⟩
  · rw [hzero, Rounded.real_zero] at hpos
    exact absurd hpos (lt_irrefl 0)
  · have habs : (largestComponent amps).real = |c.real| := by rw [heq]; rfl
    refine ⟨c / largestComponent amps, ?_, ?_⟩
    · rw [components_scaled]
      exact List.mem_map_of_mem hc
    · rw [Rounded.real_div, habs]
      rcases lt_trichotomy c.real 0 with hneg | hzero | hposc
      · right
        rw [abs_of_neg hneg, div_neg, div_self hneg.ne, ρ.round_neg_one]
      · rw [habs, hzero, abs_zero] at hpos
        exact absurd hpos (lt_irrefl 0)
      · left
        rw [abs_of_pos hposc, div_self hposc.ne', ρ.round_one]

/-! ## The norm -/

theorem magnitude_nonneg (a : Amplitude (Rounded ρ)) : 0 ≤ a.magnitude.real :=
  ρ.round_nonneg (Real.sqrt_nonneg _)

theorem squares_nonneg (amps : List (Amplitude (Rounded ρ))) : ∀ x ∈ squares amps, 0 ≤ x.real := by
  intro x hx
  obtain ⟨a, -, rfl⟩ := List.mem_map.1 hx
  exact ρ.round_nonneg (mul_self_nonneg _)

/-- An amplitude with plus or minus one as a component has a magnitude of at least one. -/
theorem one_le_magnitude {a : Amplitude (Rounded ρ)} {c : Rounded ρ} (hc : c = a.re ∨ c = a.im)
    (hunit : c.real = 1 ∨ c.real = -1) : 1 ≤ a.magnitude.real := by
  have hsq : c.real ^ 2 = 1 := by rcases hunit with h | h <;> rw [h] <;> norm_num
  apply ρ.one_le_round
  rw [Real.one_le_sqrt]
  rcases hc with rfl | rfl
  · have := sq_nonneg a.im.real
    linarith
  · have := sq_nonneg a.re.real
    linarith

/-- One such amplitude is enough for the sum of all squares. -/
theorem one_le_sum_squares (hunit : ∃ c ∈ Amplitude.components amps, c.real = 1 ∨ c.real = -1) :
    1 ≤ (Scalar.sum (squares amps)).real := by
  obtain ⟨c, hc, hone⟩ := hunit
  obtain ⟨a, ha, hca⟩ := Amplitude.mem_components.1 hc
  have hmag := one_le_magnitude hca hone
  have hsquare : 1 ≤ (a.magnitude * a.magnitude).real :=
    ρ.one_le_round (one_le_mul_of_one_le_of_one_le hmag hmag)
  exact hsquare.trans (Rounded.le_sum (squares_nonneg amps) (List.mem_map_of_mem ha)
    (ρ.round_round _))

theorem one_le_norm (hunit : ∃ c ∈ Amplitude.components amps, c.real = 1 ∨ c.real = -1) :
    1 ≤ (norm amps).real := by
  rw [norm_eq]
  apply ρ.one_le_round
  rw [Real.one_le_sqrt]
  exact one_le_sum_squares hunit

/-! ## Outcomes -/

/-- A number from minus one to one stays there when it is divided by one or more. -/
theorem real_div_mem_Icc {c norm : Rounded ρ} (hc : c.real ∈ Set.Icc (-1) 1) (hn : 1 ≤ norm.real) :
    (c / norm).real ∈ Set.Icc (-1) 1 := by
  have hle : |c.real| ≤ 1 := abs_le.2 hc
  apply ρ.round_mem_Icc
  rw [Set.mem_Icc, ← abs_le, abs_div]
  exact div_le_one_of_le₀ (hle.trans (hn.trans (le_abs_self _))) (abs_nonneg _)

theorem probability_outcome_mem_Icc (n i : Nat) (norm : Rounded ρ) (a : Amplitude (Rounded ρ)) :
    (outcome n norm i a).probability.real ∈ Set.Icc 0 1 := by
  unfold outcome
  rw [Rounded.real_cap, Rounded.real_one]
  exact ⟨le_min (ρ.round_nonneg (mul_self_nonneg _)) zero_le_one, min_le_right _ _⟩

/-- What holds of the transform of amplitudes although every operation is rounded. -/
structure KeepsBounds (amps : List (Amplitude (Rounded ρ))) (d : Distribution (Rounded ρ)) :
    Prop where
  /-- The distribution is made of the scaled amplitudes and their norm. -/
  outcomes_eq : d.outcomes =
    (scaled amps).zipIdx.map fun (a, i) => outcome d.numQubits (norm (scaled amps)) i a
  /-- The scale is not zero, so the components can be divided by it. -/
  scale_ne_zero : (largestComponent amps).real ≠ 0
  scaled_mem_Icc : ∀ c ∈ Amplitude.components (scaled amps), c.real ∈ Set.Icc (-1) 1
  /-- Some scaled component is plus or minus one exactly. -/
  exists_unit : ∃ c ∈ Amplitude.components (scaled amps), c.real = 1 ∨ c.real = -1
  /-- The sum of squares never gets smaller on the way. -/
  sum_mono : Monotone (Rounded.runningSum (squares (scaled amps)))
  one_le_sum : 1 ≤ (Scalar.sum (squares (scaled amps))).real
  /-- Nor is the norm zero, by which everything is divided in the end. -/
  one_le_norm : 1 ≤ (norm (scaled amps)).real
  amplitude_mem_Icc : ∀ c ∈ Amplitude.components (d.outcomes.map Outcome.amplitude),
    c.real ∈ Set.Icc (-1) 1
  probability_mem_Icc : ∀ p ∈ d.probabilities, p.real ∈ Set.Icc 0 1

/-- **Rounding leaves the transform in bounds.** Whatever amplitudes are accepted, however many and
however large or small, no division in the transform is by zero, and the components of all
amplitudes in the distribution are from minus one to one and the probabilities from zero to one.
The amplitudes need not be numbers that rounding leaves as they are. -/
theorem keepsBounds_of_ofAmplitudes {tolerance : Rounded ρ} {d : Distribution (Rounded ρ)}
    (hd : (ofAmplitudes amps tolerance).result = .ok d) : KeepsBounds amps d := by
  obtain ⟨-, hr, heq⟩ := of_result_ofAmplitudes hd
  have hunit := exists_unit_mem_components_scaled hr
  have hnorm := one_le_norm hunit
  have houtcome : ∀ o ∈ d.outcomes,
      ∃ a ∈ scaled amps, ∃ i, o = outcome d.numQubits (norm (scaled amps)) i a := by
    intro o ho
    rw [heq, normalized_eq] at ho
    obtain ⟨⟨a, i⟩, ha, rfl⟩ := List.mem_map.1 ho
    exact ⟨a, List.fst_mem_of_mem_zipIdx ha, i, rfl⟩
  refine
    { outcomes_eq := by rw [heq, normalized_eq]
      scale_ne_zero := (largestComponent_pos hr).ne'
      scaled_mem_Icc := fun c hc => mem_Icc_of_mem_components_scaled hc
      exists_unit := hunit
      sum_mono := Rounded.runningSum_mono (squares_nonneg _)
      one_le_sum := one_le_sum_squares hunit
      one_le_norm := hnorm
      amplitude_mem_Icc := ?_
      probability_mem_Icc := ?_ }
  · intro c hc
    obtain ⟨b, hb, hcb⟩ := Amplitude.mem_components.1 hc
    obtain ⟨o, ho, rfl⟩ := List.mem_map.1 hb
    obtain ⟨a, ha, i, rfl⟩ := houtcome o ho
    have hscaled : ∀ x, x = a.re ∨ x = a.im → x.real ∈ Set.Icc (-1) 1 := fun x hx =>
      mem_Icc_of_mem_components_scaled (Amplitude.mem_components.2 ⟨a, ha, hx⟩)
    rcases hcb with rfl | rfl
    · exact real_div_mem_Icc (hscaled a.re (.inl rfl)) hnorm
    · exact real_div_mem_Icc (hscaled a.im (.inr rfl)) hnorm
  · intro p hp
    obtain ⟨o, ho, rfl⟩ := List.mem_map.1 hp
    obtain ⟨a, -, i, rfl⟩ := houtcome o ho
    exact probability_outcome_mem_Icc _ _ _ _

/-- Two amplitudes, with every result rounded down to a number of quarters. -/
theorem keepsBounds_of_ofAmplitudes_quarters :
    let amps : List (Amplitude (Rounded (.downTo 4 (by decide)))) :=
      [⟨⟨3⟩, ⟨0⟩⟩, ⟨⟨1 / 4⟩, ⟨-4⟩⟩]
    (ofAmplitudes amps 0).result = .ok (normalized 1 amps) ∧
      KeepsBounds amps (normalized 1 amps) := by
  intro amps
  have hle : |(3 : ℝ)| ≤ (largestComponent amps).real :=
    abs_real_le_largestComponent (Amplitude.mem_components.2 ⟨_, List.mem_cons_self, .inl rfl⟩)
  have hpos : 0 < (largestComponent amps).real := lt_of_lt_of_le (by norm_num) hle
  have hr : ¬ Rejects amps 0 := by
    rw [rejects_iff_real, Rounded.real_zero]
    rintro (hzero | hneg)
    · exact hpos.ne' hzero
    · exact absurd hneg (not_le.2 hpos)
  have hok : (ofAmplitudes amps 0).result = .ok (normalized 1 amps) := by
    rw [result_ofAmplitudes (n := 1) rfl, if_neg hr]
  exact ⟨hok, keepsBounds_of_ofAmplitudes hok⟩

end Distribution

end KetSim
