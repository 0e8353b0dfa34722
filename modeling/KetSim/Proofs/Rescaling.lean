import KetSim.Proofs.Transform
/-!
# The transform as it is defined

Squaring amplitudes as they are could overflow or vanish, so the transform first divides them by the
largest component. In exact arithmetic that changes nothing: what comes out is the distribution as
it is defined (`Distribution.normalized_eq_plain`), with amplitudes divided by the norm of all and
probabilities that are shares of the squared norm. What is known of the definition is then known of
the transform: a common factor of the amplitudes only turns them (`Distribution.plain_map_mul`), and
amplitudes that come out are the ones that come out again (`Distribution.plain_amplitudes_plain`).
-/
namespace KetSim

namespace Distribution

section
variable {R : Type} [Scalar R]

/-- The outcome at an index, from its amplitude and the squared norm of all. -/
def plainOutcome (numQubits : Nat) (total : R) (index : Nat) (a : Amplitude R) : Outcome R :=
  { index
    label := Ket.label index numQubits
    amplitude := a.scaleDown (Scalar.sqrt total)
    probability := a.normSq / total }

/-- The distribution of amplitudes as it is defined. -/
def plain (numQubits : Nat) (amps : List (Amplitude R)) : Distribution R :=
  let total := Amplitude.totalNormSq amps
  ⟨numQubits, amps.zipIdx.map fun (a, index) => plainOutcome numQubits total index a⟩

/-- All amplitudes multiplied by the same one. -/
def turn (u : Amplitude R) (d : Distribution R) : Distribution R :=
  { d with outcomes := d.outcomes.map fun o => { o with amplitude := u * o.amplitude } }

omit [Scalar R] in
def amplitudes (d : Distribution R) : List (Amplitude R) := d.outcomes.map Outcome.amplitude

theorem outcomes_plain_getElem? (n : Nat) (amps : List (Amplitude R)) (i : Nat) :
    (plain n amps).outcomes[i]? =
      amps[i]?.map (plainOutcome n (Amplitude.totalNormSq amps) i) := by
  simp [plain, List.getElem?_zipIdx, Option.map_map, Function.comp_def]

/-- A distribution is known by its outcomes at each index. -/
theorem eq_plain {d : Distribution R} {amps : List (Amplitude R)}
    (ho : ∀ i, d.outcomes[i]? =
      amps[i]?.map (plainOutcome d.numQubits (Amplitude.totalNormSq amps) i)) :
    d = plain d.numQubits amps := by
  have heq : d.outcomes = (plain d.numQubits amps).outcomes :=
    List.ext_getElem? fun i => (ho i).trans (outcomes_plain_getElem? _ amps i).symm
  exact (Distribution.mk.injEq ..).mpr ⟨rfl, heq⟩

theorem amplitudes_plain (n : Nat) (amps : List (Amplitude R)) :
    (plain n amps).amplitudes =
      amps.map (·.scaleDown (Scalar.sqrt (Amplitude.totalNormSq amps))) := by
  apply List.ext_getElem?
  intro i
  rw [amplitudes, List.getElem?_map, List.getElem?_map, outcomes_plain_getElem?, Option.map_map]
  rfl

theorem probabilities_plain (n : Nat) (amps : List (Amplitude R)) :
    (plain n amps).probabilities = amps.map (·.normSq / Amplitude.totalNormSq amps) := by
  apply List.ext_getElem?
  intro i
  rw [probabilities, List.getElem?_map, List.getElem?_map, outcomes_plain_getElem?,
    Option.map_map]
  rfl

end

/-! ## The scale cancels -/

variable {h : ℝ} {amps : List (Amplitude (Exact h))}

theorem largestComponent_nonneg (amps : List (Amplitude (Exact h))) :
    0 ≤ (largestComponent amps).real :=
  (le_foldl_larger amps 0).1

/-- Only where all amplitudes are zero is there no largest component and no norm. -/
theorem totalNormSq_eq_zero_iff :
    (Amplitude.totalNormSq amps).real = 0 ↔ (largestComponent amps).real = 0 := by
  constructor
  · intro htotal
    refine le_antisymm (largestComponent_le le_rfl fun a ha => ?_) (largestComponent_nonneg amps)
    have hzero : a.value = 0 :=
      Complex.normSq_eq_zero.1 (le_antisymm
        ((Amplitude.normSq_le_totalNormSq ha).trans_eq htotal) (Complex.normSq_nonneg _))
    simp [hzero]
  · intro htop
    rw [Amplitude.totalNormSq_eq_sum]
    refine List.sum_eq_zero fun x hx => ?_
    obtain ⟨a, ha, rfl⟩ := List.mem_map.1 hx
    obtain ⟨hre, him⟩ := le_largestComponent ha
    rw [htop, abs_nonpos_iff] at hre him
    rw [Complex.normSq_eq_zero]
    exact Complex.ext hre him

/-- The norm of all amplitudes after the division by a positive number. -/
theorem norm_scaleDown {scale : Exact h} (hs : 0 < scale.real) :
    (norm (amps.map (Amplitude.scaleDown · scale))).real =
      √(Amplitude.totalNormSq amps).real / scale.real := by
  rw [real_norm, Amplitude.totalNormSq_scaleDown, Real.sqrt_div (Amplitude.totalNormSq_nonneg amps),
    Real.sqrt_mul_self hs.le]

theorem outcome_eq_plainOutcome {a : Amplitude (Exact h)} (ha : a ∈ amps) {scale : Exact h}
    (hs : 0 < scale.real) (n i : Nat) :
    outcome n (norm (amps.map (·.scaleDown scale))) i (a.scaleDown scale) =
      plainOutcome n (Amplitude.totalNormSq amps) i a := by
  have hamp : (a.scaleDown scale).scaleDown (norm (amps.map (·.scaleDown scale))) =
      a.scaleDown (Scalar.sqrt (Amplitude.totalNormSq amps)) := by
    apply Amplitude.value_injective
    rw [Amplitude.value_scaleDown, Amplitude.value_scaleDown, Amplitude.value_scaleDown,
      norm_scaleDown hs, Complex.ofReal_div, div_div,
      mul_div_cancel₀ _ (Complex.ofReal_ne_zero.2 hs.ne'), Exact.real_sqrt]
  have hprob := probability_outcome ha hs.ne' n i
  refine (Outcome.mk.injEq ..).mpr ⟨rfl, rfl, hamp, Exact.ext ?_⟩
  rw [Exact.real_div, Amplitude.real_normSq]
  exact hprob

/-- What is computed is the distribution as it is defined. -/
theorem normalized_eq_plain (htop : (largestComponent amps).real ≠ 0) (n : Nat) :
    normalized n amps = plain n amps := by
  have hpos := (largestComponent_nonneg amps).lt_of_ne' htop
  refine eq_plain (d := normalized n amps) fun i => ?_
  rw [outcomes_normalized_getElem?]
  exact Option.map_congr fun a ha =>
    outcome_eq_plainOutcome (List.mem_of_getElem? ha) hpos n i

/-- The transform of as many amplitudes as a register has basis states, by the definition. -/
theorem result_ofAmplitudes_plain {n : Nat} (hlen : amps.length = 2 ^ n) (tolerance : Exact h) :
    (ofAmplitudes amps tolerance).result =
      if (largestComponent amps).real = 0 ∨ (largestComponent amps).real ≤ tolerance.real
      then .error (.zeroNorm (2 ^ n)) else .ok (plain n amps) := by
  rw [result_ofAmplitudes hlen]
  by_cases hr : Rejects amps tolerance
  · rw [if_pos hr, if_pos (rejects_iff.1 hr)]
  · rw [if_neg hr, if_neg (fun e => hr (rejects_iff.2 e)),
      normalized_eq_plain (largestComponent_ne_zero hr)]

/-! ## What the definition gives -/

section
variable (hpos : (Amplitude.totalNormSq amps).real ≠ 0) (n : Nat)
include hpos

theorem total_plain : (plain n amps).total = 1 := by
  apply Exact.ext
  rw [total, probabilities_plain, Exact.real_sum, List.map_map]
  simp only [Function.comp_def, Exact.real_div, Amplitude.real_normSq, div_eq_mul_inv,
    List.sum_map_mul_right]
  rw [← Amplitude.totalNormSq_eq_sum, mul_inv_cancel₀ hpos]
  rfl

theorem totalNormSq_amplitudes_plain :
    (Amplitude.totalNormSq (plain n amps).amplitudes).real = 1 := by
  rw [amplitudes_plain, Amplitude.totalNormSq_scaleDown, Exact.real_sqrt,
    Real.mul_self_sqrt (Amplitude.totalNormSq_nonneg amps), div_self hpos]

/-- Amplitudes that come out come out again. -/
theorem plain_amplitudes_plain : plain n (plain n amps).amplitudes = plain n amps := by
  have hone : Amplitude.totalNormSq (plain n amps).amplitudes = 1 :=
    Exact.ext (totalNormSq_amplitudes_plain hpos n)
  have houtcome (i : Nat) (a : Amplitude (Exact h)) :
      plainOutcome n 1 i (a.scaleDown (Scalar.sqrt (Amplitude.totalNormSq amps))) =
        plainOutcome n (Amplitude.totalNormSq amps) i a := by
    refine (Outcome.mk.injEq ..).mpr ⟨rfl, rfl, Amplitude.value_injective ?_, Exact.ext ?_⟩
    · simp
    · simp [Real.mul_self_sqrt (Amplitude.totalNormSq_nonneg amps)]
  refine (eq_plain (d := plain n amps) fun i => ?_).symm
  rw [outcomes_plain_getElem?, hone, amplitudes_plain, List.getElem?_map, Option.map_map]
  exact Option.map_congr fun a _ => (houtcome i a).symm

end

theorem totalNormSq_map_mul (k : Amplitude (Exact h)) (amps : List (Amplitude (Exact h))) :
    (Amplitude.totalNormSq (amps.map (k * ·))).real =
      Complex.normSq k.value * (Amplitude.totalNormSq amps).real := by
  simp [Amplitude.totalNormSq_eq_sum, Function.comp_def, List.sum_map_mul_left]

/-- A common factor turns all amplitudes by its direction. -/
theorem plain_map_mul {k : Amplitude (Exact h)} (hk : k.value ≠ 0) (n : Nat)
    (amps : List (Amplitude (Exact h))) :
    plain n (amps.map (k * ·)) = (plain n amps).turn (k.scaleDown k.magnitude) := by
  have hk' : Complex.normSq k.value ≠ 0 := mt Complex.normSq_eq_zero.1 hk
  have houtcome (i : Nat) (a : Amplitude (Exact h)) :
      plainOutcome n (Amplitude.totalNormSq (amps.map (k * ·))) i (k * a) =
        { plainOutcome n (Amplitude.totalNormSq amps) i a with
          amplitude := k.scaleDown k.magnitude *
            a.scaleDown (Scalar.sqrt (Amplitude.totalNormSq amps)) } := by
    refine (Outcome.mk.injEq ..).mpr ⟨rfl, rfl, Amplitude.value_injective ?_, Exact.ext ?_⟩
    · simp only [Amplitude.value_scaleDown, Amplitude.value_mul, Exact.real_sqrt,
        Amplitude.real_magnitude, totalNormSq_map_mul, Real.sqrt_mul (Complex.normSq_nonneg _)]
      rw [Complex.ofReal_mul, mul_div_mul_comm]
    · simp only [plainOutcome, Exact.real_div, Amplitude.real_normSq, Amplitude.value_mul,
        totalNormSq_map_mul, Complex.normSq_mul]
      exact mul_div_mul_left _ _ hk'
  refine (eq_plain (d := (plain n amps).turn _) fun i => ?_).symm
  rw [turn, List.getElem?_map, outcomes_plain_getElem?, List.getElem?_map, Option.map_map,
    Option.map_map]
  exact Option.map_congr fun a _ => (houtcome i a).symm

/-- Of so many amplitudes of norm one, one has a component that is not small. -/
theorem le_largestComponent_of_total {n : Nat} (hlen : amps.length = 2 ^ n)
    (htotal : (Amplitude.totalNormSq amps).real = 1) :
    (√(2 * 2 ^ n))⁻¹ ≤ (largestComponent amps).real := by
  have hterm : ∀ x ∈ amps.map (fun a => Complex.normSq a.value),
      x ≤ 2 * (largestComponent amps).real ^ 2 := by
    intro x hx
    obtain ⟨a, ha, rfl⟩ := List.mem_map.1 hx
    obtain ⟨hre, him⟩ := le_largestComponent ha
    rw [Complex.normSq_apply, ← pow_two, ← pow_two, two_mul, ← sq_abs a.value.re,
      ← sq_abs a.value.im]
    exact add_le_add (pow_le_pow_left₀ (abs_nonneg _) hre 2)
      (pow_le_pow_left₀ (abs_nonneg _) him 2)
  have hsum : (1 : ℝ) ≤ 2 * 2 ^ n * (largestComponent amps).real ^ 2 := by
    have hle := List.sum_le_card_nsmul _ _ hterm
    rw [← Amplitude.totalNormSq_eq_sum, htotal, List.length_map, hlen, nsmul_eq_mul] at hle
    push_cast at hle
    linarith
  rw [← Real.sqrt_inv]
  refine Real.sqrt_le_iff.2 ⟨largestComponent_nonneg amps, ?_⟩
  exact (inv_le_iff_one_le_mul₀' (by positivity)).2 hsum

/-! ## The transform -/

/-- What the transform gives for amplitudes, in exact arithmetic. -/
structure Normalizes (d : Distribution (Exact h)) (amps : List (Amplitude (Exact h))) :
    Prop where
  /-- There is one outcome for each amplitude. -/
  length_eq : amps.length = 2 ^ d.numQubits
  lists : d.Lists d.numQubits
  /-- The outcome has the amplitude divided by the norm, and its share in the squared norm. -/
  outcome_eq : ∀ (i : Nat) (a : Amplitude (Exact h)), amps[i]? = some a →
    ∃ o : Outcome (Exact h), d.outcomes[i]? = some o ∧
    o.amplitude.value = a.value / √(amps.map fun a => Complex.normSq a.value).sum ∧
    o.probability.real = Complex.normSq a.value / (amps.map fun a => Complex.normSq a.value).sum
  /-- The squares that are capped are at most one as they are. -/
  uncapped : ∀ a ∈ amps,
    let scale := largestComponent amps
    let share := (a.scaleDown scale).magnitude / norm (amps.map (·.scaleDown scale))
    share.real * share.real ≤ 1
  total_eq : d.total = 1
  accepted : ∀ tolerance : Exact h, 0 ≤ tolerance.real →
    Amplitude.checkNormalized tolerance d.amplitudes = .ok ()
  /-- A common factor other than zero turns the amplitudes by its direction, and that is all. -/
  turned : ∀ k : Amplitude (Exact h), k.value ≠ 0 →
    (ofAmplitudes (amps.map (k * ·)) 0).result = .ok (d.turn (k.scaleDown k.magnitude))
  /-- The transform of its amplitudes is the same again, unless the tolerance is as large as one
  of their components. -/
  again : ∀ tolerance : Exact h, (ofAmplitudes d.amplitudes tolerance).result =
    if (largestComponent d.amplitudes).real ≤ tolerance.real
    then .error (.zeroNorm (2 ^ d.numQubits)) else .ok d
  /-- No component of its amplitudes is that small when there are as many amplitudes. -/
  largest : (√(2 * 2 ^ d.numQubits))⁻¹ ≤ (largestComponent d.amplitudes).real

section
variable {n : Nat} (hlen : amps.length = 2 ^ n)
include hlen

theorem length_amplitudes_plain : (plain n amps).amplitudes.length = 2 ^ n := by
  rw [amplitudes_plain, List.length_map, hlen]

/-- The transform of the amplitudes that come out. -/
theorem result_ofAmplitudes_amplitudes_plain (htotal : (Amplitude.totalNormSq amps).real ≠ 0)
    (tolerance : Exact h) :
    (ofAmplitudes (plain n amps).amplitudes tolerance).result =
      if (largestComponent (plain n amps).amplitudes).real ≤ tolerance.real
      then .error (.zeroNorm (2 ^ n)) else .ok (plain n amps) := by
  have hone := totalNormSq_amplitudes_plain htotal n
  have htop : (largestComponent (plain n amps).amplitudes).real ≠ 0 :=
    mt totalNormSq_eq_zero_iff.2 (by rw [hone]; exact one_ne_zero)
  rw [result_ofAmplitudes_plain (length_amplitudes_plain hlen), plain_amplitudes_plain htotal]
  simp only [htop, false_or]

/-- The transform of multiples, with no tolerance. -/
theorem result_ofAmplitudes_map_mul (htotal : (Amplitude.totalNormSq amps).real ≠ 0)
    {k : Amplitude (Exact h)} (hk : k.value ≠ 0) :
    (ofAmplitudes (amps.map (k * ·)) 0).result =
      .ok ((plain n amps).turn (k.scaleDown k.magnitude)) := by
  have htop : (largestComponent (amps.map (k * ·))).real ≠ 0 := by
    refine mt totalNormSq_eq_zero_iff.2 ?_
    rw [totalNormSq_map_mul]
    exact mul_ne_zero (mt Complex.normSq_eq_zero.1 hk) htotal
  have hpos := (largestComponent_nonneg (amps.map (k * ·))).lt_of_ne' htop
  rw [result_ofAmplitudes_plain (by rw [List.length_map, hlen]), plain_map_mul hk]
  exact if_neg (not_or.2 ⟨htop, not_le.2 hpos⟩)

theorem normalizes_plain (htop : (largestComponent amps).real ≠ 0) :
    (plain n amps).Normalizes amps :=
  have htotal : (Amplitude.totalNormSq amps).real ≠ 0 := mt totalNormSq_eq_zero_iff.1 htop
  have hone := totalNormSq_amplitudes_plain htotal n
  { length_eq := hlen
    lists := normalized_eq_plain htop n ▸ lists_normalized hlen
    outcome_eq i a ha := by
      rw [← Amplitude.totalNormSq_eq_sum, ← Amplitude.real_normSq, outcomes_plain_getElem?, ha]
      exact ⟨_, rfl, Amplitude.value_scaleDown _ _, rfl⟩
    uncapped a ha := share_mul_share_le_one ha htop
    total_eq := total_plain htotal n
    accepted tolerance ht := Amplitude.checkNormalized_of_total hone ht
    turned k hk := result_ofAmplitudes_map_mul hlen htotal hk
    again := result_ofAmplitudes_amplitudes_plain hlen htotal
    largest := le_largestComponent_of_total (length_amplitudes_plain hlen) hone }

end

/-- **The transform computes what it is defined to be.** Whatever the tolerance and the largest
component are, accepted amplitudes get the distribution of the definition, and so all that is known
of the definition holds of it. -/
theorem normalizes_of_ofAmplitudes {tolerance : Exact h} {d : Distribution (Exact h)}
    (hd : (ofAmplitudes amps tolerance).result = .ok d) : d.Normalizes amps := by
  obtain ⟨hlen, hr, heq⟩ := of_result_ofAmplitudes hd
  have htop : (largestComponent amps).real ≠ 0 := fun e => hr (rejects_iff.2 (.inl e))
  rw [normalized_eq_plain htop] at heq
  rw [heq]
  exact normalizes_plain hlen htop

/-- Three and four times the imaginary unit: the largest component belongs to the second. -/
theorem normalizes_of_ofAmplitudes_pair :
    let amps : List (Amplitude (Exact (√2)⁻¹)) := [⟨⟨3⟩, ⟨0⟩⟩, ⟨⟨0⟩, ⟨4⟩⟩]
    (ofAmplitudes amps 0).result = .ok (plain 1 amps) ∧ (plain 1 amps).Normalizes amps ∧
      (plain 1 amps).probabilities = [⟨9 / 25⟩, ⟨16 / 25⟩] := by
  intro amps
  have htop : (largestComponent amps).real = 4 := by
    norm_num [largestComponent, amps]
  have hok : (ofAmplitudes amps 0).result = .ok (plain 1 amps) := by
    rw [result_ofAmplitudes_plain (n := 1) rfl, htop]
    norm_num
  refine ⟨hok, normalizes_of_ofAmplitudes hok, ?_⟩
  rw [probabilities_plain]
  simp [amps, Exact.ext_iff, Complex.normSq_apply, Amplitude.totalNormSq]
  norm_num

/-- A tolerance below the largest component of the amplitudes, but not below that of the amplitudes
that come out: these are not accepted again. -/
theorem zeroNorm_of_again :
    let amps : List (Amplitude (Exact (√2)⁻¹)) := [⟨⟨3⟩, ⟨0⟩⟩, ⟨⟨0⟩, ⟨0⟩⟩]
    (ofAmplitudes amps ⟨2⟩).result = .ok (plain 1 amps) ∧
      (plain 1 amps).amplitudes = [⟨⟨1⟩, ⟨0⟩⟩, ⟨⟨0⟩, ⟨0⟩⟩] ∧
      (ofAmplitudes (plain 1 amps).amplitudes ⟨2⟩).result = .error (.zeroNorm 2) := by
  intro amps
  have htop : (largestComponent amps).real = 3 := by
    norm_num [largestComponent, amps]
  have htotal : (Amplitude.totalNormSq amps).real = 3 * 3 := by
    simp [amps, Amplitude.totalNormSq_eq_sum, Complex.normSq_apply]
  have hunit : (plain 1 amps).amplitudes = [⟨⟨1⟩, ⟨0⟩⟩, ⟨⟨0⟩, ⟨0⟩⟩] := by
    rw [amplitudes_plain]
    simp [amps, Amplitude.scaleDown, Exact.ext_iff, htotal]
  refine ⟨?_, hunit, ?_⟩
  · rw [result_ofAmplitudes_plain (n := 1) rfl, htop]
    norm_num
  · have htop' : (largestComponent (plain 1 amps).amplitudes).real = 1 := by
      norm_num [hunit, largestComponent]
    rw [result_ofAmplitudes_plain (n := 1) (length_amplitudes_plain rfl), htop']
    norm_num

end Distribution

end KetSim
