import KetSim.Distribution
import Mathlib.Analysis.Real.Sqrt
/-!
# The largest component

Amplitudes are divided by their largest component, which a running maximum finds. No arithmetic is
done for it, so on every kind of scalars that are compared as real numbers it is the largest one
exactly: at least every magnitude (`le_largestComponent_of_reads`) and one of them, or zero
(`largestComponent_eq_or_of_reads`). Machine floats are such scalars as long as they are finite, and
so are real numbers that every operation rounds.
-/
namespace KetSim

variable {R : Type} [Scalar R]

def Amplitude.components (amps : List (Amplitude R)) : List R := amps.flatMap fun a => [a.re, a.im]

omit [Scalar R] in
@[simp] theorem Amplitude.mem_components {amps : List (Amplitude R)} {c : R} :
    c ∈ components amps ↔ ∃ a ∈ amps, c = a.re ∨ c = a.im := by
  simp [components]

/-- The scalars with the property `P` stand for real numbers: zero and magnitudes are what they are
there, and so are comparisons. -/
structure Scalar.Reads (P : R → Prop) (real : R → ℝ) : Prop where
  zero : P 0
  real_zero : real 0 = 0
  abs : ∀ {x}, P x → P (Scalar.abs x)
  real_abs : ∀ {x}, P x → real (Scalar.abs x) = |real x|
  le_iff : ∀ {x y}, P x → P y → (Scalar.le x y = true ↔ real x ≤ real y)

namespace Scalar.Reads
variable {P : R → Prop} {real : R → ℝ} (hreads : Scalar.Reads P real)
include hreads

theorem larger {x y : R} (hx : P x) (hy : P y) :
    P (Scalar.larger x y) ∧ real (Scalar.larger x y) = max (real x) (real y) := by
  unfold Scalar.larger
  by_cases hle : real x ≤ real y
  · rw [if_pos ((hreads.le_iff hx hy).2 hle), max_eq_right hle]
    exact ⟨hy, rfl⟩
  · rw [if_neg (mt (hreads.le_iff hx hy).1 hle), max_eq_left (not_le.1 hle).le]
    exact ⟨hx, rfl⟩

theorem cap {x top : R} (hx : P x) (htop : P top) :
    P (Scalar.cap x top) ∧ real (Scalar.cap x top) = min (real x) (real top) := by
  unfold Scalar.cap
  by_cases hle : real x ≤ real top
  · rw [if_pos ((hreads.le_iff hx htop).2 hle), min_eq_left hle]
    exact ⟨hx, rfl⟩
  · rw [if_neg (mt (hreads.le_iff hx htop).1 hle), min_eq_right (not_le.1 hle).le]
    exact ⟨htop, rfl⟩

/-- What a running maximum of magnitudes is after any number of steps. -/
theorem foldl_larger {cs : List R} (hcs : ∀ c ∈ cs, P c) {m : R} (hm : P m) :
    let top := cs.foldl (fun m c => Scalar.larger m (Scalar.abs c)) m
    P top ∧ real m ≤ real top ∧ (∀ c ∈ cs, |real c| ≤ real top) ∧
      (top = m ∨ ∃ c ∈ cs, top = Scalar.abs c) := by
  induction cs generalizing m with
  | nil => exact ⟨hm, le_rfl, by simp, .inl rfl⟩
  | cons c cs ih =>
    intro top
    obtain ⟨hc, hcs⟩ := List.forall_mem_cons.1 hcs
    obtain ⟨hnext, hmax⟩ := hreads.larger hm (hreads.abs hc)
    obtain ⟨htop, hge, hall, hfrom⟩ := ih hcs hnext
    rw [hmax, hreads.real_abs hc, max_le_iff] at hge
    refine ⟨htop, hge.1, List.forall_mem_cons.2 ⟨hge.2, hall⟩, ?_⟩
    rcases hfrom with heq | ⟨x, hx, heq⟩
    · -- no later component was larger: the maximum is the one from before or the first component
      have hpick : Scalar.larger m (Scalar.abs c) = Scalar.abs c ∨
          Scalar.larger m (Scalar.abs c) = m := by
        unfold Scalar.larger
        split
        · exact .inl rfl
        · exact .inr rfl
      rcases hpick with hpick | hpick
      · exact .inr ⟨c, List.mem_cons_self, heq.trans hpick⟩
      · exact .inl (heq.trans hpick)
    · exact .inr ⟨x, List.mem_cons_of_mem _ hx, heq⟩

end Scalar.Reads

namespace Distribution
variable {amps : List (Amplitude R)}

/-- Both components of one amplitude after the other. -/
theorem largestComponent_eq_foldl (amps : List (Amplitude R)) :
    largestComponent amps = (Amplitude.components amps).foldl
      (fun m c => Scalar.larger m (Scalar.abs c)) 0 := by
  simp [largestComponent, Amplitude.components, List.foldl_flatMap]

section
variable {P : R → Prop} {real : R → ℝ} (hreads : Scalar.Reads P real)
  (hamps : ∀ c ∈ Amplitude.components amps, P c)
include hreads hamps

theorem largestComponent_of_reads : P (largestComponent amps) := by
  rw [largestComponent_eq_foldl]
  exact (hreads.foldl_larger hamps hreads.zero).1

/-- No component is larger than the largest one. -/
theorem le_largestComponent_of_reads {c : R} (hc : c ∈ Amplitude.components amps) :
    |real c| ≤ real (largestComponent amps) := by
  rw [largestComponent_eq_foldl]
  exact (hreads.foldl_larger hamps hreads.zero).2.2.1 c hc

/-- The largest component is a magnitude, or zero. -/
theorem largestComponent_eq_or_of_reads : largestComponent amps = 0 ∨
    ∃ c ∈ Amplitude.components amps, largestComponent amps = Scalar.abs c := by
  rw [largestComponent_eq_foldl]
  exact (hreads.foldl_larger hamps hreads.zero).2.2.2

/-- It is not negative, also where there are no amplitudes. -/
theorem largestComponent_nonneg_of_reads : 0 ≤ real (largestComponent amps) := by
  rw [largestComponent_eq_foldl, ← hreads.real_zero]
  exact (hreads.foldl_larger hamps hreads.zero).2.1

end

end Distribution

end KetSim
