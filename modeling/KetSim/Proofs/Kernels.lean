import KetSim.Proofs.Index
/-!
# What the gate kernels compute

Both kernels work in place, pair by pair, yet the result is as if every entry were computed from the
vector before the call (`mixAll_holds`, `mixControlled_holds`). What carries the loops is that each
pair is visited at most once: entries of pairs still to come have not been touched (`sweep_holds`).
No law of addition or multiplication is used.
-/
namespace KetSim.StateVector
open Index
variable {A : Type}

/-- The vector has one entry for each index of a register of width `n`: the values of `f`. -/
structure Holds (amps : Array A) (n : Nat) (f : Nat → A) : Prop where
  size_eq : amps.size = 2 ^ n
  getElem?_eq : ∀ i < 2 ^ n, amps[i]? = some (f i)

namespace Holds
variable {amps : Array A} {n : Nat} {f g : Nat → A}

theorem congr (h : Holds amps n f) (hfg : ∀ i < 2 ^ n, f i = g i) : Holds amps n g :=
  ⟨h.size_eq, fun i hi => by rw [h.getElem?_eq i hi, hfg i hi]⟩

theorem eq_ofFn (h : Holds amps n f) : amps = Array.ofFn fun i : Fin (2 ^ n) => f i := by
  apply Array.ext_getElem?
  intro i
  by_cases hi : i < 2 ^ n
  · rw [h.getElem?_eq i hi, Array.getElem?_ofFn]
    simp [hi]
  · rw [Array.getElem?_eq_none (by rw [h.size_eq]; omega), Array.getElem?_ofFn]
    simp [hi]

theorem getElem_eq (h : Holds amps n f) {i : Nat} (hi : i < amps.size) : amps[i] = f i := by
  have := h.getElem?_eq i (h.size_eq ▸ hi)
  rw [Array.getElem?_eq_getElem hi] at this
  exact Option.some.inj this

end Holds

theorem bitMask_of_lt {k : Nat} (h : k < 64) : bitMask k = .ok (1 <<< k) := by
  simp [bitMask, h]

/-- A mask that exists has its bit in a word. -/
theorem lt_of_bitMask {k mask : Nat} (h : bitMask k = .ok mask) : k < 64 := by
  rw [bitMask] at h
  split at h
  · assumption
  · cases h

variable [Add A] [Mul A]

/-- The matrix on all pairs of values whose indices differ in the given bit. -/
def mixed (m : Gate.Matrix A) (place : Nat) (f : Nat → A) (j : Nat) : A :=
  if j.testBit place then m.m10 * f (flip place j) + m.m11 * f j
  else m.m00 * f j + m.m01 * f (flip place j)

/-- The matrix on those pairs whose control bit is set. -/
def mixedWhere (m : Gate.Matrix A) (control target : Nat) (f : Nat → A) (j : Nat) : A :=
  if j.testBit control then mixed m target f j else f j

/-! ## One pair -/

theorem mixPair_holds (m : Gate.Matrix A) {amps : Array A} {n k i : Nat} {f : Nat → A}
    (h : Holds amps n f) (hk : k < n) (hi : i < 2 ^ n) (hc : i.testBit k = false) :
    ∃ out, mixPair m amps i (i ||| 1 <<< k) = .ok out ∧
      Holds out n fun j => if low k j = i then mixed m k f j else f j := by
  have hp : flip k i < 2 ^ n := flip_lt hk hi
  have hne : flip k i ≠ i := flip_ne k i
  have hs := h.size_eq
  have hin : i < amps.size ∧ flip k i < amps.size := by omega
  rw [or_bit hc]
  refine ⟨_, by rw [mixPair, dif_pos hin], by simp [hs], fun j hj => ?_⟩
  rw [h.getElem_eq hin.1, h.getElem_eq hin.2, Array.getElem?_setIfInBounds, Array.getElem?_set]
  by_cases h1 : flip k i = j
  · subst h1
    simp [low_of_clear hc, mixed, hc, hin.2]
  · by_cases h0 : i = j
    · subst h0
      simp [hne, low_of_clear hc, mixed, hc]
    · have hl : low k j ≠ i := by
        intro hl
        rcases eq_low_or_flip k j with e | e
        · exact h0 (by rw [e, hl])
        · exact h1 (by rw [e, hl])
      simp [h1, h0, hl, h.getElem?_eq j hj]

/-! ## A pass over distinct pairs -/

theorem sweep_holds (m : Gate.Matrix A) {n k : Nat} (hk : k < n) :
    ∀ (lows : List Nat) (amps : Array A) (f : Nat → A), lows.Nodup →
      (∀ i ∈ lows, i < 2 ^ n ∧ i.testBit k = false) → Holds amps n f →
      ∃ out, lows.foldlM (fun amps i => mixPair m amps i (i ||| 1 <<< k)) amps = .ok out ∧
        Holds out n fun j => if low k j ∈ lows then mixed m k f j else f j
  | [], amps, f, _, _, h => ⟨amps, rfl, by simpa using h⟩
  | i :: lows, amps, f, hnd, hin, h => by
    obtain ⟨hi, hnd'⟩ := List.nodup_cons.1 hnd
    obtain ⟨hlt, hclear⟩ := hin i (by simp)
    obtain ⟨amps', e, h'⟩ := mixPair_holds m h hk hlt hclear
    obtain ⟨out, e', h''⟩ := sweep_holds m hk lows amps' _ hnd'
      (fun j hj => hin j (List.mem_cons_of_mem i hj)) h'
    refine ⟨out, by rw [List.foldlM_cons, e]; exact e', h''.congr fun j _ => ?_⟩
    by_cases hj : low k j ∈ lows
    · -- the pair of `j` comes later, so neither of its entries was changed by the first step
      have hne : low k j ≠ i := fun e => hi (e ▸ hj)
      simp [hj, mixed, hne]
    · by_cases he : low k j = i <;> simp [hj, he, hi]

/-- A loop that skips some steps runs over the others. -/
theorem foldlM_filter {α : Type} (p : Nat → Bool) (g : α → Nat → Except Fault α) :
    ∀ (is : List Nat) (a : α), is.foldlM (fun a i => if p i then g a i else .ok a) a =
      (is.filter p).foldlM g a
  | [], _ => rfl
  | i :: is, a => by
    by_cases hp : p i = true
    · simp only [List.foldlM_cons, hp, if_true, List.filter_cons_of_pos]
      congr 1
      funext b
      exact foldlM_filter p g is b
    · simp only [List.foldlM_cons, hp, Bool.false_eq_true, if_false, List.filter_cons_of_neg,
        not_false_eq_true]
      exact foldlM_filter p g is a

/-! ## The kernels -/

/-- The vector after the first steps of the pass over all pairs. -/
def mixFirst (m : Gate.Matrix A) (place steps : Nat) (amps : Array A) : Except Fault (Array A) :=
  (List.range steps).foldlM
    (fun amps i => mixPair m amps (insertZero place i) (insertZero place i ||| 1 <<< place)) amps

/-- The pass over all pairs takes one step for every second index. -/
theorem mixAll_eq_mixFirst (m : Gate.Matrix A) {k : Nat} (hword : k + 1 < 64) (amps : Array A) :
    mixAll m k amps = mixFirst m k (amps.size / 2) amps := by
  rw [mixAll, bitMask_of_lt (by omega), bitMask_of_lt hword]
  rfl

/-- The first steps have done their pairs and left all others alone. -/
theorem mixFirst_holds (m : Gate.Matrix A) {amps : Array A} {n k steps : Nat} {f : Nat → A}
    (h : Holds amps n f) (hk : k < n) (hsteps : steps ≤ 2 ^ (n - 1)) :
    ∃ out, mixFirst m k steps amps = .ok out ∧ Holds out n fun j =>
      if low k j ∈ (List.range steps).map (insertZero k) then mixed m k f j else f j := by
  obtain ⟨out, e, ho⟩ := sweep_holds m hk ((List.range steps).map (insertZero k)) amps f
    (List.Pairwise.map _ (fun i j hij e => hij (insertZero_injective k e)) List.nodup_range)
    (by simp only [List.mem_map, List.mem_range]
        rintro _ ⟨i, hi, rfl⟩
        exact ⟨insertZero_lt hk (by omega), testBit_insertZero_self k i⟩) h
  rw [List.foldlM_map] at e
  exact ⟨out, e, ho⟩

theorem half_two_pow {n : Nat} (hn : 0 < n) : 2 ^ n / 2 = 2 ^ (n - 1) := by
  rw [← Nat.two_pow_pred_mul_two hn, Nat.mul_div_cancel _ (by decide)]

theorem mixAll_holds (m : Gate.Matrix A) {amps : Array A} {n k : Nat} {f : Nat → A}
    (h : Holds amps n f) (hk : k < n) (hword : k + 1 < 64) :
    ∃ out, mixAll m k amps = .ok out ∧ Holds out n (mixed m k f) := by
  obtain ⟨out, e, ho⟩ := mixFirst_holds m h hk (Nat.le_refl _)
  refine ⟨out, ?_, ho.congr fun j hj => ?_⟩
  · rw [mixAll_eq_mixFirst m hword, h.size_eq, half_two_pow (Nat.zero_lt_of_lt hk)]
    exact e
  · obtain ⟨i, hi, e⟩ := exists_insertZero hk (low_lt hk hj) (testBit_low_self k j)
    rw [if_pos (List.mem_map.2 ⟨i, List.mem_range.2 hi, e⟩)]

theorem mixControlled_holds (m : Gate.Matrix A) {amps : Array A} {n c t : Nat} {f : Nat → A}
    (h : Holds amps n f) (ht : t < n) (hct : c ≠ t) (hcw : c < 64) (htw : t < 64) :
    ∃ out, mixControlled m c t amps = .ok out ∧ Holds out n (mixedWhere m c t f) := by
  -- the loop looks at every index and acts at those with control bit set and target bit clear
  let visits (i : Nat) : Bool := i.testBit c && !i.testBit t
  obtain ⟨out, e, ho⟩ := sweep_holds m ht ((List.range amps.size).filter visits) amps f
    (List.nodup_range.filter _)
    (by simp only [List.mem_filter, List.mem_range, h.size_eq, visits]
        rintro i ⟨hi, hv⟩
        exact ⟨hi, by simpa using (Bool.and_eq_true_iff.1 hv).2⟩) h
  refine ⟨out, ?_, ho.congr fun j hj => ?_⟩
  · rw [mixControlled, bitMask_of_lt hcw, bitMask_of_lt htw, ← e, ← foldlM_filter]
    show List.foldlM _ amps _ = _
    congr 1
    funext amps i
    by_cases hv : visits i = true
    · have hb : i.testBit c = true ∧ i.testBit t = false := by simpa [visits] using hv
      rw [if_pos hv, if_neg]
      simp [and_bit_eq_zero, hb]
    · rw [if_neg hv, if_pos]
      rw [Ne, and_bit_eq_zero, and_bit_eq_zero]
      cases hb : i.testBit c <;> simp_all [visits]
  · have hl : low t j ∈ (List.range amps.size).filter visits ↔ j.testBit c = true := by
      simp [visits, h.size_eq, low_lt ht hj, testBit_low (Ne.symm hct)]
    simp only [hl, mixedWhere]

/-- A kernel that gives a result found all its masks in a word. -/
theorem word_of_mixAll {m : Gate.Matrix A} {k : Nat} {amps out : Array A}
    (h : mixAll m k amps = .ok out) : k + 1 < 64 := by
  rw [mixAll] at h
  cases hm : bitMask k with
  | error fault => rw [hm] at h; cases h
  | ok mask =>
    cases hm' : bitMask (k + 1) with
    | error fault => rw [hm, hm'] at h; cases h
    | ok mask' => exact lt_of_bitMask hm'

theorem word_of_mixControlled {m : Gate.Matrix A} {c t : Nat} {amps out : Array A}
    (h : mixControlled m c t amps = .ok out) : c < 64 ∧ t < 64 := by
  rw [mixControlled] at h
  cases hc : bitMask c with
  | error fault => rw [hc] at h; cases h
  | ok controlMask =>
    cases ht : bitMask t with
    | error fault => rw [hc, ht] at h; cases h
    | ok targetMask => exact ⟨lt_of_bitMask hc, lt_of_bitMask ht⟩

end KetSim.StateVector
