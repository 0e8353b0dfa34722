import KetSim.StateVector
import Mathlib.Algebra.Group.Nat.Defs
/-!
# Basis indices bit by bit

A gate acts on pairs of indices that differ in one bit. `flip` leads from one index of a pair to the
other, and `low` names the pair by the index at which the bit is clear. Inserting a zero bit lists
the names of all pairs, each once (`insertZero_injective`, `exists_insertZero`).
-/
namespace KetSim

/-! ## Places of qubits -/

/-- The place of the qubit's digit in an index of a register that has the qubit. -/
def Qubit.place (width : Nat) (q : Qubit) : Nat := width - 1 - q.index

theorem Qubit.bitPosition_of_lt {width : Nat} {q : Qubit} (h : q.index < width) :
    q.bitPosition width = .ok (q.place width) := by
  rw [Qubit.bitPosition, if_pos h]
  rfl

theorem Qubit.place_lt {width : Nat} {q : Qubit} (h : q.index < width) : q.place width < width := by
  unfold Qubit.place
  omega

/-- Different qubits of a register have different places. -/
theorem Qubit.place_ne {width : Nat} {p q : Qubit} (hp : p.index < width) (hq : q.index < width)
    (h : p ≠ q) : p.place width ≠ q.place width := by
  intro e
  unfold Qubit.place at e
  exact h (by cases p; cases q; simp only [Qubit.mk.injEq] at *; omega)

theorem Qubit.place_inj {width : Nat} {p q : Qubit} (hp : p.index < width) (hq : q.index < width) :
    p.place width = q.place width ↔ p = q :=
  ⟨fun e => Decidable.byContradiction fun h => place_ne hp hq h e, fun e => by rw [e]⟩

/-- Every place of a register is the place of a qubit. -/
theorem Qubit.exists_place {width k : Nat} (hk : k < width) :
    ∃ q : Qubit, q.index < width ∧ q.place width = k := by
  refine ⟨⟨width - 1 - k⟩, ?_, ?_⟩
  · simp only
    omega
  · simp only [Qubit.place]
    omega

namespace Index
open StateVector (insertZero)

/-- The index with one bit turned over. -/
def flip (place i : Nat) : Nat := i ^^^ 2 ^ place

/-- The index of the pair at which the bit is clear. -/
def low (place i : Nat) : Nat := if i.testBit place then flip place i else i

/-- Two indices of a register are equal if they have the same bit at the place of every qubit. -/
theorem eq_of_testBit_place {n i j : Nat} (hi : i < 2 ^ n) (hj : j < 2 ^ n)
    (h : ∀ q : Qubit, q.index < n → i.testBit (q.place n) = j.testBit (q.place n)) : i = j := by
  apply Nat.eq_of_testBit_eq
  intro k
  by_cases hk : k < n
  · obtain ⟨q, hq, rfl⟩ := Qubit.exists_place hk
    exact h q hq
  · have hle := Nat.pow_le_pow_right (show 0 < 2 by omega) (show n ≤ k by omega)
    rw [Nat.testBit_lt_two_pow (by omega), Nat.testBit_lt_two_pow (by omega)]

/-! ## Flipping -/

@[simp] theorem testBit_flip (k i j : Nat) :
    (flip k i).testBit j = (i.testBit j ^^ decide (k = j)) := by
  simp [flip, Nat.testBit_two_pow]

@[simp] theorem flip_flip (k i : Nat) : flip k (flip k i) = i := by
  apply Nat.eq_of_testBit_eq
  intro j
  simp

theorem flip_eq_iff_eq_flip {k i j : Nat} : flip k i = j ↔ i = flip k j :=
  ⟨fun e => by rw [← e, flip_flip], fun e => by rw [e, flip_flip]⟩

theorem flip_comm (k p i : Nat) : flip k (flip p i) = flip p (flip k i) := by
  rw [flip, flip, flip, flip, Nat.xor_assoc, Nat.xor_assoc, Nat.xor_comm (2 ^ p)]

theorem flip_lt {k n i : Nat} (hk : k < n) (hi : i < 2 ^ n) : flip k i < 2 ^ n :=
  Nat.xor_lt_two_pow hi (Nat.pow_lt_pow_right (by omega) hk)

theorem flip_ne (k i : Nat) : flip k i ≠ i := by
  intro h
  have := congrArg (Nat.testBit · k) h
  simp at this

/-- A clear bit is set by adding its weight. -/
theorem flip_eq_add {k i : Nat} (h : i.testBit k = false) : flip k i = i + 2 ^ k := by
  apply Nat.eq_of_testBit_eq
  intro j
  rw [testBit_flip, Nat.add_comm]
  rcases Nat.lt_trichotomy j k with hj | rfl | hj
  · rw [Nat.testBit_two_pow_add_gt hj]; simp [show k ≠ j by omega]
  · rw [Nat.testBit_two_pow_add_eq]; simp
  · -- no carry leaves the place, since the bit there is clear
    obtain ⟨d, rfl⟩ : ∃ d, j = k + 1 + d := ⟨j - (k + 1), by omega⟩
    have hpos := Nat.two_pow_pos k
    have hbit : i / 2 ^ k % 2 = 0 := by simpa [Nat.testBit_eq_decide_div_mod_eq] using h
    have hq : (2 ^ k + i) / 2 ^ (k + 1) = i / 2 ^ (k + 1) := by
      rw [Nat.pow_succ, ← Nat.div_div_eq_div_mul, ← Nat.div_div_eq_div_mul, Nat.add_div_left _ hpos]
      omega
    have high (x : Nat) : x.testBit (k + 1 + d) = (x / 2 ^ (k + 1)).testBit d := by
      rw [Nat.testBit_div_two_pow, Nat.add_comm]
    rw [high, high, hq]
    simp [show k ≠ k + 1 + d by omega]

/-- A set bit is cleared by taking its weight away. -/
theorem flip_eq_sub {k i : Nat} (h : i.testBit k = true) : flip k i = i - 2 ^ k := by
  have hadd := flip_eq_add (k := k) (i := flip k i) (by simp [h])
  rw [flip_flip] at hadd
  omega

/-- Turning a bit over changes no lower bit. -/
theorem two_pow_dvd_flip {k i : Nat} : 2 ^ k ∣ flip k i ↔ 2 ^ k ∣ i := by
  cases h : i.testBit k with
  | false => rw [flip_eq_add h, Nat.dvd_add_left (Nat.dvd_refl _)]
  | true =>
    have hc : (flip k i).testBit k = false := by simp [h]
    rw [← Nat.dvd_add_left (Nat.dvd_refl (2 ^ k)), ← flip_eq_add hc, flip_flip]

theorem two_pow_succ_dvd {k i : Nat} : 2 ^ (k + 1) ∣ i ↔ 2 ^ k ∣ i ∧ i.testBit k = false := by
  rw [Nat.testBit_eq_decide_div_mod_eq, decide_eq_false_iff_not, Nat.pow_succ]
  constructor
  · rintro ⟨m, rfl⟩
    rw [Nat.mul_assoc, Nat.mul_div_cancel_left _ (Nat.two_pow_pos k)]
    exact ⟨Nat.dvd_mul_right _ _, by omega⟩
  · rintro ⟨⟨m, rfl⟩, hm⟩
    rw [Nat.mul_div_cancel_left _ (Nat.two_pow_pos k)] at hm
    exact Nat.mul_dvd_mul_left _ (by omega)

theorem or_bit {k i : Nat} (h : i.testBit k = false) : i ||| 1 <<< k = flip k i := by
  apply Nat.eq_of_testBit_eq
  intro j
  rw [Nat.one_shiftLeft, Nat.testBit_or, Nat.testBit_two_pow, testBit_flip]
  by_cases hj : k = j
  · subst hj; simp [h]
  · simp [hj]

/-- Masking with a bit asks whether it is set. -/
theorem and_bit_eq_zero {k i : Nat} : i &&& 1 <<< k = 0 ↔ i.testBit k = false := by
  rw [Nat.one_shiftLeft]
  constructor
  · intro h
    have := congrArg (Nat.testBit · k) h
    simpa using this
  · intro h
    apply Nat.eq_of_testBit_eq
    intro j
    by_cases hj : k = j
    · subst hj; simp [h]
    · simp [hj]

/-! ## Pairs -/

@[simp] theorem testBit_low_self (k i : Nat) : (low k i).testBit k = false := by
  unfold low
  split <;> simp_all

theorem testBit_low {k j : Nat} (h : k ≠ j) (i : Nat) : (low k i).testBit j = i.testBit j := by
  unfold low
  split <;> simp [h]

@[simp] theorem low_flip (k i : Nat) : low k (flip k i) = low k i := by
  unfold low
  cases h : i.testBit k <;> simp [h]

theorem low_of_clear {k i : Nat} (h : i.testBit k = false) : low k i = i := by
  simp [low, h]

theorem low_lt {k n i : Nat} (hk : k < n) (hi : i < 2 ^ n) : low k i < 2 ^ n := by
  unfold low
  split
  · exact flip_lt hk hi
  · exact hi

/-- An index is one of the two of its pair. -/
theorem eq_low_or_flip (k i : Nat) : i = low k i ∨ i = flip k (low k i) := by
  unfold low
  split <;> simp

/-! ## Inserting a zero bit -/

theorem testBit_insertZero (k i j : Nat) :
    (insertZero k i).testBit j =
      if j < k then i.testBit j else if j = k then false else i.testBit (j - 1) := by
  simp only [insertZero, Nat.one_shiftLeft, Nat.testBit_or, Nat.testBit_shiftLeft,
    Nat.testBit_shiftRight, Nat.testBit_and, Nat.testBit_two_pow_sub_one]
  rcases Nat.lt_trichotomy j k with hj | rfl | hj
  · simp [hj, show ¬ k + 1 ≤ j by omega]
  · simp [show ¬ j + 1 ≤ j by omega]
  · simp [show ¬ j < k by omega, show j ≠ k by omega, show k + 1 ≤ j by omega,
      show k + (j - (k + 1)) = j - 1 by omega]

@[simp] theorem testBit_insertZero_self (k i : Nat) : (insertZero k i).testBit k = false := by
  simp [testBit_insertZero]

theorem insertZero_lt {k n i : Nat} (hk : k < n) (hi : i < 2 ^ (n - 1)) :
    insertZero k i < 2 ^ n := by
  apply Nat.lt_pow_two_of_testBit
  intro j hj
  rw [testBit_insertZero, if_neg (by omega), if_neg (by omega)]
  exact Nat.testBit_lt_two_pow (Nat.lt_of_lt_of_le hi (Nat.pow_le_pow_right (by omega) (by omega)))

theorem insertZero_injective (k : Nat) {i j : Nat} (h : insertZero k i = insertZero k j) :
    i = j := by
  apply Nat.eq_of_testBit_eq
  intro b
  by_cases hb : b < k
  · have := congrArg (Nat.testBit · b) h
    simpa [testBit_insertZero, hb] using this
  · have := congrArg (Nat.testBit · (b + 1)) h
    simpa [testBit_insertZero, show ¬ b + 1 < k by omega, show b + 1 ≠ k by omega] using this

/-- Every index of the register whose bit is clear has the bit inserted into a shorter index. -/
theorem exists_insertZero {k n j : Nat} (hk : k < n) (hj : j < 2 ^ n) (h : j.testBit k = false) :
    ∃ i < 2 ^ (n - 1), insertZero k i = j := by
  refine ⟨((j >>> (k + 1)) <<< k) ||| (j &&& (2 ^ k - 1)), ?_, ?_⟩
  · apply Nat.lt_pow_two_of_testBit
    intro b hb
    have hhigh : j.testBit (k + 1 + (b - k)) = false :=
      Nat.testBit_lt_two_pow (Nat.lt_of_lt_of_le hj (Nat.pow_le_pow_right (by omega) (by omega)))
    simp [hhigh, show ¬ b < k by omega]
  · apply Nat.eq_of_testBit_eq
    intro b
    rw [testBit_insertZero]
    rcases Nat.lt_trichotomy b k with hb | rfl | hb
    · simp [hb, show ¬ k ≤ b by omega]
    · simp [h]
    · simp [show ¬ b < k by omega, show b ≠ k by omega, show k ≤ b - 1 by omega,
        show ¬ b - 1 < k by omega, show k + 1 + (b - 1 - k) = b by omega]

end Index

end KetSim
