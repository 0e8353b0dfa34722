import KetSim.Proofs.Acceptance
import KetSim.Proofs.DoubleArithmetic
/-!
# The transform on doubles

On doubles the transform is the one on reals that are rounded to the nearest double
(`Distribution.stands_normalized`): whatever amplitudes are accepted, however many, no operation
leaves the range of doubles. Quotients are bounded because they are taken by the largest component
and by a norm of at least one. The sum of squares has as many terms as there are amplitudes, but no
term is more than four, and a sum that has come to `2 ^ 60` does not notice a four any more.
-/
namespace KetSim

namespace Scalar.Machine

/-! ## Bounds that are not rounded away -/

theorem isShort_two_pow (k : ℕ) : IsShort (2 ^ k) := by
  have hshort := isShort_two_zpow (s := k) (by omega)
  rwa [zpow_natCast] at hshort

theorem abs_nearest_le {x : ℝ} {k : ℕ} (h : |x| ≤ 2 ^ k) : |nearest x| ≤ 2 ^ k := by
  obtain ⟨hlow, hhigh⟩ := abs_le.1 h
  exact abs_le.2 ⟨le_nearest (isShort_neg (isShort_two_pow k)) hlow,
    nearest_le (isShort_two_pow k) hhigh⟩

/-- The unit is 256 there, of which four is not the half. -/
theorem nearest_two_pow_add_four : nearest (2 ^ 60 + 4) = 2 ^ 60 := by
  have hpos : (0 : ℝ) < 2 ^ 60 + 4 := by norm_num
  have hunit : unitExponent (2 ^ 60 + 4) = 8 := by
    apply unitExponent_eq hpos.ne' (by norm_num)
    · rw [abs_of_pos hpos]
      norm_num
    · intro _
      rw [abs_of_pos hpos]
      norm_num
  have hint : nearestInt ((2 ^ 60 + 4) / 2 ^ (8 : ℤ)) = 2 ^ 52 :=
    nearestInt_eq (.of_lt (by norm_num) (by norm_num))
  rw [nearest_def, hunit, hint]
  norm_num

theorem nearest_add_le {s x : ℝ} (hs : s ≤ 2 ^ 60) (hx : x ≤ 4) : nearest (s + x) ≤ 2 ^ 60 :=
  (nearest_mono (by linarith)).trans_eq nearest_two_pow_add_four

end Scalar.Machine

namespace Scalar
open Machine

/-! ## Operations -/

/-- The double is finite and stands for the number. -/
structure Stands (a : Float) (x : Rounded .double) : Prop where
  isFinite : a.isFinite = true
  real_eq : real a = x.real

/-- What was computed stands for what was rounded, as long as this is in bounds. -/
theorem Machine.Computes.stands {a : Float} {r : ℝ} (h : Computes a r) (hle : |nearest r| ≤ 2 ^ 60) :
    Stands a ⟨nearest r⟩ := by
  obtain ⟨hfin, hreal⟩ := h.of_lt (hle.trans_lt (pow_lt_pow_right₀ (by norm_num) (by norm_num)))
  exact ⟨hfin, hreal⟩

namespace Stands
variable {a b : Float} {x y : Rounded .double}

theorem zero : Stands 0.0 0 := ⟨isFinite_zero, real_zero⟩

theorem one : Stands 1.0 1 := by
  have hunpack : (1.0 : Float).toModel.unpack = .finite .positive (2 ^ 52) (-52) (by decide) := rfl
  refine ⟨rfl, ?_⟩
  unfold real
  rw [hunpack, value_positive, Rounded.real_one]
  norm_num

theorem neg (ha : Stands a x) : Stands (-a) (-x) := by
  have hneg := isDouble_neg (isFinite_iff.1 ha.isFinite)
  refine ⟨?_, ?_⟩
  · rw [isFinite_iff, unpack_neg ha.isFinite]
    exact hneg.1
  · rw [real, unpack_neg ha.isFinite, hneg.2, Rounded.real_neg, ← ha.real_eq, Rat.cast_neg, real]

theorem abs (ha : Stands a x) : Stands (Scalar.abs a) (Scalar.abs x) :=
  ⟨isFinite_abs ha.isFinite, (real_abs ha.isFinite).trans (congrArg _ ha.real_eq)⟩

theorem larger (ha : Stands a x) (hb : Stands b y) :
    Stands (Scalar.larger a b) (Scalar.larger x y) := by
  obtain ⟨hfin, hreal⟩ := reads.larger ha.isFinite hb.isFinite
  refine ⟨hfin, ?_⟩
  rw [hreal, ha.real_eq, hb.real_eq, (Rounded.reads.larger trivial trivial).2]

theorem cap (ha : Stands a x) (hb : Stands b y) : Stands (Scalar.cap a b) (Scalar.cap x y) := by
  obtain ⟨hfin, hreal⟩ := reads.cap ha.isFinite hb.isFinite
  refine ⟨hfin, ?_⟩
  rw [hreal, ha.real_eq, hb.real_eq, Rounded.real_cap]

theorem add (ha : Stands a x) (hb : Stands b y) (hle : |(x + y).real| ≤ 2 ^ 60) :
    Stands (a + b) (x + y) := by
  have hsum := computes_add ha.isFinite hb.isFinite
  rw [ha.real_eq, hb.real_eq] at hsum
  exact hsum.stands hle

theorem mul (ha : Stands a x) (hb : Stands b y) (hle : |(x * y).real| ≤ 2 ^ 60) :
    Stands (a * b) (x * y) := by
  have hproduct := computes_mul ha.isFinite hb.isFinite
  rw [ha.real_eq, hb.real_eq] at hproduct
  exact hproduct.stands hle

theorem div (ha : Stands a x) (hb : Stands b y) (hne : y.real ≠ 0)
    (hle : |(x / y).real| ≤ 2 ^ 60) : Stands (a / b) (x / y) := by
  have hquotient := computes_div ha.isFinite hb.isFinite (hb.real_eq ▸ hne)
  rw [ha.real_eq, hb.real_eq] at hquotient
  exact hquotient.stands hle

theorem sqrt (ha : Stands a x) (hnonneg : 0 ≤ x.real) (hle : |(Scalar.sqrt x).real| ≤ 2 ^ 60) :
    Stands (Scalar.sqrt a) (Scalar.sqrt x) := by
  have hroot := computes_sqrt ha.isFinite (ha.real_eq ▸ hnonneg)
  rw [ha.real_eq] at hroot
  exact hroot.stands hle

theorem hypot (ha : Stands a x) (hb : Stands b y) (hle : |(Scalar.hypot x y).real| ≤ 2 ^ 60) :
    Stands (Scalar.hypot a b) (Scalar.hypot x y) := by
  have hlength := computes_hypot ha.isFinite hb.isFinite
  rw [ha.real_eq, hb.real_eq] at hlength
  exact hlength.stands hle

end Stands

end Scalar

open Scalar.Machine

/-! ## Amplitudes -/

namespace Amplitude

/-- Both components stand for those of the other amplitude. -/
structure Stands (a : Amplitude Float) (b : Amplitude (Rounded .double)) : Prop where
  re : Scalar.Stands a.re b.re
  im : Scalar.Stands a.im b.im

/-- The amplitude that finite components stand for. -/
noncomputable def rounded (a : Amplitude Float) : Amplitude (Rounded .double) :=
  ⟨⟨real a.re⟩, ⟨real a.im⟩⟩

variable {a : Amplitude Float} {b : Amplitude (Rounded .double)}

theorem stands_rounded (hre : a.re.isFinite = true) (him : a.im.isFinite = true) :
    a.Stands a.rounded := ⟨⟨hre, rfl⟩, him, rfl⟩

/-- Both components are from minus one to one. -/
def InUnit (b : Amplitude (Rounded .double)) : Prop :=
  b.re.real ∈ Set.Icc (-1) 1 ∧ b.im.real ∈ Set.Icc (-1) 1

theorem magnitude_le_two (hb : b.InUnit) : b.magnitude.real ≤ 2 := by
  have hre : b.re.real ^ 2 ≤ 1 := (sq_le_one_iff_abs_le_one _).2 (abs_le.2 hb.1)
  have him : b.im.real ^ 2 ≤ 1 := (sq_le_one_iff_abs_le_one _).2 (abs_le.2 hb.2)
  have hroot : √(b.re.real ^ 2 + b.im.real ^ 2) ≤ 2 ^ 1 := by
    rw [Real.sqrt_le_left (by norm_num)]
    linarith
  exact (nearest_le (isShort_two_pow 1) hroot).trans_eq (pow_one 2)

theorem Stands.magnitude (h : a.Stands b) (hb : b.InUnit) :
    Scalar.Stands a.magnitude b.magnitude := by
  refine h.re.hypot h.im ?_
  have hle : |b.magnitude.real| ≤ 2 := by
    rw [abs_of_nonneg (Distribution.magnitude_nonneg b)]
    exact magnitude_le_two hb
  exact hle.trans (by norm_num)

theorem Stands.scaleDown {s : Float} {t : Rounded .double} (h : a.Stands b) (hs : Scalar.Stands s t)
    (ht : t.real ≠ 0) (hb : (b.scaleDown t).InUnit) : (a.scaleDown s).Stands (b.scaleDown t) := by
  have hle {x : ℝ} (hx : x ∈ Set.Icc (-1) 1) : |x| ≤ 2 ^ 60 := (abs_le.2 hx).trans (by norm_num)
  exact ⟨h.re.div hs ht (hle hb.1), h.im.div hs ht (hle hb.2)⟩

end Amplitude

/-- Index and label are the same, and the numbers stand for those of the other outcome. -/
structure Outcome.Stands (o : Outcome Float) (p : Outcome (Rounded .double)) : Prop where
  index_eq : o.index = p.index
  label_eq : o.label = p.label
  amplitude : o.amplitude.Stands p.amplitude
  probability : Scalar.Stands o.probability p.probability

theorem Outcome.Stands.isFinite {o : Outcome Float} {p : Outcome (Rounded .double)}
    (h : o.Stands p) : o.amplitude.re.isFinite = true ∧ o.amplitude.im.isFinite = true ∧
      o.probability.isFinite = true :=
  ⟨h.amplitude.re.isFinite, h.amplitude.im.isFinite, h.probability.isFinite⟩

namespace Distribution

/-- The outcomes stand for those of the other distribution, one by one. -/
structure Stands (d : Distribution Float) (e : Distribution (Rounded .double)) : Prop where
  numQubits_eq : d.numQubits = e.numQubits
  outcomes : List.Forall₂ Outcome.Stands d.outcomes e.outcomes

variable {amps : List (Amplitude Float)} {tolerance : Float}

/-! ## The scale -/

theorem isFinite_of_not_rejects (hr : ¬ Rejects amps tolerance) :
    ∀ c ∈ Amplitude.components amps, c.isFinite = true := by
  intro c hc
  by_contra h
  exact hr (.inl (exists_isFinite_eq_false_iff.2 ⟨c, hc, by simpa using h⟩))

theorem stands_largestComponent (hfin : ∀ c ∈ Amplitude.components amps, c.isFinite = true) :
    Scalar.Stands (largestComponent amps) (largestComponent (amps.map Amplitude.rounded)) := by
  have hcomponents : List.Forall₂ Scalar.Stands (Amplitude.components amps)
      (Amplitude.components (amps.map Amplitude.rounded)) := by
    have hmap : Amplitude.components (amps.map Amplitude.rounded) =
        (Amplitude.components amps).map fun c => ⟨real c⟩ := by
      simp [Amplitude.components, Amplitude.rounded, List.flatMap_map, List.map_flatMap]
    rw [hmap, List.forall₂_map_right_iff, List.forall₂_same]
    exact fun c hc => ⟨hfin c hc, rfl⟩
  rw [largestComponent_eq_foldl, largestComponent_eq_foldl]
  exact List.rel_foldl (fun _ _ hm _ _ hc => hm.larger hc.abs) Scalar.Stands.zero hcomponents

/-- What is accepted as doubles is accepted as rounded numbers. -/
theorem not_rejects_rounded (hr : ¬ Rejects amps tolerance) :
    ¬ Rejects (amps.map Amplitude.rounded) 0 := by
  have hfin := isFinite_of_not_rejects hr
  have htop := stands_largestComponent hfin
  have hne : real (largestComponent amps) ≠ 0 := by
    intro hzero
    exact hr (.inr (.inl ((beq_zero_iff htop.isFinite).2 hzero)))
  have hpos : 0 < real (largestComponent amps) :=
    lt_of_le_of_ne (largestComponent_nonneg_of_reads reads hfin) hne.symm
  rw [rejects_iff_real, ← htop.real_eq, Rounded.real_zero, not_or]
  exact ⟨hne, not_le.2 hpos⟩

theorem inUnit_of_mem_scaled {amps : List (Amplitude (Rounded .double))}
    {b : Amplitude (Rounded .double)} (hb : b ∈ scaled amps) : b.InUnit :=
  ⟨mem_Icc_of_mem_components_scaled (Amplitude.mem_components.2 ⟨b, hb, .inl rfl⟩),
    mem_Icc_of_mem_components_scaled (Amplitude.mem_components.2 ⟨b, hb, .inr rfl⟩)⟩

theorem stands_scaled (hr : ¬ Rejects amps tolerance) :
    List.Forall₂ (fun a b => Amplitude.Stands a b ∧ b.InUnit) (scaled amps)
      (scaled (amps.map Amplitude.rounded)) := by
  have hfin := isFinite_of_not_rejects hr
  have hpos := largestComponent_pos (not_rejects_rounded hr)
  unfold scaled
  rw [List.map_map, List.forall₂_map_left_iff, List.forall₂_map_right_iff, List.forall₂_same]
  intro a ha
  have hstands : a.Stands a.rounded :=
    Amplitude.stands_rounded (hfin _ (Amplitude.mem_components.2 ⟨a, ha, .inl rfl⟩))
      (hfin _ (Amplitude.mem_components.2 ⟨a, ha, .inr rfl⟩))
  have hunit : (a.rounded.scaleDown (largestComponent (amps.map Amplitude.rounded))).InUnit :=
    inUnit_of_mem_scaled (List.mem_map_of_mem (List.mem_map_of_mem ha))
  exact ⟨hstands.scaleDown (stands_largestComponent hfin) hpos.ne' hunit, hunit⟩

/-! ## The norm -/

theorem square_mem_Icc {b : Amplitude (Rounded .double)} (hb : b.InUnit) :
    (b.magnitude * b.magnitude).real ∈ Set.Icc 0 4 := by
  have hnonneg := magnitude_nonneg b
  have hle := Amplitude.magnitude_le_two hb
  have hsquare : b.magnitude.real * b.magnitude.real ≤ 2 ^ 2 := by nlinarith
  refine ⟨Rounding.double.round_nonneg (mul_self_nonneg _), ?_⟩
  exact (nearest_le (isShort_two_pow 2) hsquare).trans_eq (by norm_num)

theorem stands_squares (hr : ¬ Rejects amps tolerance) :
    List.Forall₂ (fun a x => Scalar.Stands a x ∧ x.real ∈ Set.Icc 0 4) (squares (scaled amps))
      (squares (scaled (amps.map Amplitude.rounded))) := by
  refine List.forall₂_map_left_iff.2 (List.forall₂_map_right_iff.2 ((stands_scaled hr).imp ?_))
  rintro a b ⟨hab, hb⟩
  have hmagnitude := hab.magnitude hb
  have hsquare := square_mem_Icc hb
  refine ⟨hmagnitude.mul hmagnitude ?_, hsquare⟩
  rw [abs_of_nonneg hsquare.1]
  exact hsquare.2.trans (by norm_num)

/-- A sum stays below the bound, whatever the number of terms: what a term adds there is rounded
away. -/
theorem stands_foldl_add {as : List Float} {xs : List (Rounded .double)}
    (h : List.Forall₂ (fun a x => Scalar.Stands a x ∧ x.real ∈ Set.Icc 0 4) as xs) {s : Float}
    {t : Rounded .double} (hs : Scalar.Stands s t) (ht : t.real ∈ Set.Icc 0 (2 ^ 60)) :
    Scalar.Stands (as.foldl (· + ·) s) (xs.foldl (· + ·) t) ∧
      (xs.foldl (· + ·) t).real ∈ Set.Icc 0 (2 ^ 60) := by
  induction h generalizing s t with
  | nil => exact ⟨hs, ht⟩
  | @cons a x as xs hax _ ih =>
    obtain ⟨hax, hx⟩ := hax
    have hnext : (t + x).real ∈ Set.Icc 0 (2 ^ 60) :=
      ⟨Rounding.double.round_nonneg (add_nonneg ht.1 hx.1), nearest_add_le ht.2 hx.2⟩
    refine ih (hs.add hax ?_) hnext
    rw [abs_of_nonneg hnext.1]
    exact hnext.2

theorem stands_norm (hr : ¬ Rejects amps tolerance) :
    Scalar.Stands (norm (scaled amps)) (norm (scaled (amps.map Amplitude.rounded))) := by
  have hstart : (-0 : Rounded .double).real ∈ Set.Icc 0 (2 ^ 60) := by simp
  obtain ⟨hsum, hnonneg, hle⟩ := stands_foldl_add (stands_squares hr) Scalar.Stands.zero.neg hstart
  have hroot : |√(Scalar.sum (squares (scaled (amps.map Amplitude.rounded)))).real| ≤ 2 ^ 60 := by
    rw [abs_of_nonneg (Real.sqrt_nonneg _), Real.sqrt_le_left (by norm_num)]
    exact hle.trans (by norm_num)
  rw [norm_eq, norm_eq]
  exact hsum.sqrt hnonneg (abs_nearest_le hroot)

/-! ## Outcomes -/

theorem stands_outcome {a : Amplitude Float} {b : Amplitude (Rounded .double)} (hab : a.Stands b)
    (hb : b.InUnit) {s : Float} {t : Rounded .double} (hs : Scalar.Stands s t) (ht : 1 ≤ t.real)
    (n i : Nat) : (outcome n s i a).Stands (outcome n t i b) := by
  have hne : t.real ≠ 0 := (zero_lt_one.trans_le ht).ne'
  have hshare : |(b.magnitude / t).real| ≤ 2 ^ 1 := by
    apply abs_nearest_le
    have hnonneg := magnitude_nonneg b
    rw [abs_of_nonneg (div_nonneg hnonneg (zero_le_one.trans ht))]
    exact (div_le_self hnonneg ht).trans ((Amplitude.magnitude_le_two hb).trans_eq (pow_one 2).symm)
  have hsquare : |(b.magnitude / t * (b.magnitude / t)).real| ≤ 2 ^ 2 := by
    apply abs_nearest_le
    rw [abs_mul]
    nlinarith [abs_nonneg (b.magnitude / t).real]
  have hshares := (hab.magnitude hb).div hs hne (hshare.trans (by norm_num))
  refine ⟨rfl, rfl, ?_, ?_⟩
  · exact hab.scaleDown hs hne ⟨real_div_mem_Icc hb.1 ht, real_div_mem_Icc hb.2 ht⟩
  · exact (hshares.mul hshares (hsquare.trans (by norm_num))).cap Scalar.Stands.one

theorem forall₂_zipIdx {α β : Type} {r : α → β → Prop} {as : List α} {bs : List β}
    (h : List.Forall₂ r as bs) (k : Nat) :
    List.Forall₂ (fun x y => r x.1 y.1 ∧ x.2 = y.2) (as.zipIdx k) (bs.zipIdx k) := by
  induction h generalizing k with
  | nil => exact .nil
  | cons hab _ ih => exact .cons ⟨hab, rfl⟩ (ih (k + 1))

/-- **Doubles are transformed as rounded reals are.** Whatever amplitudes are accepted, however many
and however large or small, no operation overflows, so each result is the double nearest to the exact
one. -/
theorem stands_normalized (hr : ¬ Rejects amps tolerance) (n : Nat) :
    (normalized n amps).Stands (normalized n (amps.map Amplitude.rounded)) := by
  have hnorm := stands_norm hr
  have hone := one_le_norm (exists_unit_mem_components_scaled (not_rejects_rounded hr))
  refine ⟨rfl, ?_⟩
  rw [normalized_eq, normalized_eq]
  refine List.forall₂_map_left_iff.2 (List.forall₂_map_right_iff.2
    ((forall₂_zipIdx (stands_scaled hr) 0).imp ?_))
  rintro ⟨a, i⟩ ⟨b, j⟩ ⟨⟨hab, hb⟩, hij⟩
  obtain rfl : i = j := hij
  exact stands_outcome hab hb hnorm hone n i

/-- A distribution that is made of amplitudes has finite numbers only. -/
theorem isFinite_of_ofAmplitudes {d : Distribution Float}
    (hd : (ofAmplitudes amps tolerance).result = .ok d) : ∀ o ∈ d.outcomes,
      o.amplitude.re.isFinite = true ∧ o.amplitude.im.isFinite = true ∧
        o.probability.isFinite = true := by
  obtain ⟨-, hr, heq⟩ := of_result_ofAmplitudes hd
  have hstands := (stands_normalized hr d.numQubits).outcomes
  rw [← heq] at hstands
  have hfinite := hstands.imp fun o p hop => And.intro hop.isFinite hop
  exact ((List.forall₂_and_left _ _).1 hfinite).1

end Distribution

end KetSim
