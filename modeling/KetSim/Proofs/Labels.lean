import KetSim.Ket
import KetSim.Proofs.Index
/-!
# Labels digit by digit

The label of an index is a bar, the digits of the index and a bracket. The digit of a qubit is the
bit at its place (`Ket.digit_label`), and writing another digit gives the label of the index with
that bit (`Ket.withDigit_label`).
-/
namespace KetSim.Ket

def digitOf (b : Bool) : Char := if b then '1' else '0'

theorem digitOf_injective {a b : Bool} (h : digitOf a = digitOf b) : a = b := by
  cases a <;> cases b <;> simp_all [digitOf]

@[simp] theorem digitOf_eq_one {b : Bool} : digitOf b = '1' ↔ b = true := by
  cases b <;> decide

/-- The digit of a qubit in a label: the first character after the bar belongs to qubit 0. -/
def digit (label : String) (q : Qubit) : Char := label.toList.getD (q.index + 1) '0'

def withDigit (label : String) (q : Qubit) (d : Char) : String :=
  String.ofList (label.toList.set (q.index + 1) d)

def allZeros (width : Nat) : String :=
  String.ofList ('|' :: List.replicate width '0' ++ ['⟩'])

variable {i j n : Nat}

theorem digitCount_of_lt (hn : 0 < n) (hi : i < 2 ^ n) : digitCount i n = n := by
  have : i.log2 < n := by
    rcases Nat.eq_zero_or_pos i with rfl | hpos
    · simpa using hn
    · exact (Nat.log2_lt (by omega)).2 hi
  unfold digitCount
  omega

theorem digits_of_lt (hn : 0 < n) (hi : i < 2 ^ n) :
    digits i n = (List.range n).map fun q => digitOf (i.testBit (n - 1 - q)) := by
  rw [digits, digitCount_of_lt hn hi]
  rfl

theorem toList_label (hn : 0 < n) (hi : i < 2 ^ n) :
    (label i n).toList =
      '|' :: ((List.range n).map fun q => digitOf (i.testBit (n - 1 - q))) ++ ['⟩'] := by
  rw [label, String.toList_ofList, digits_of_lt hn hi]

/-- The digit of a qubit stands where the qubit does. -/
theorem digits_getElem? (hi : i < 2 ^ n) {q : Qubit} (hq : q.index < n) :
    (digits i n)[q.index]? = some (digitOf (i.testBit (q.place n))) := by
  rw [digits_of_lt (by omega) hi]
  simp [hq, Qubit.place]

theorem toList_label_getElem? (hi : i < 2 ^ n) {q : Qubit} (hq : q.index < n) :
    (label i n).toList[q.index + 1]? = some (digitOf (i.testBit (q.place n))) := by
  have hdigit := digits_getElem? hi hq
  have hlt : q.index < (digits i n).length := (List.getElem?_eq_some_iff.1 hdigit).1
  rw [label, String.toList_ofList, List.cons_append, List.getElem?_cons_succ,
    List.getElem?_append_left hlt, hdigit]

/-- The digit of a qubit is the bit at its place. -/
theorem digit_label (hi : i < 2 ^ n) {q : Qubit} (hq : q.index < n) :
    digit (label i n) q = digitOf (i.testBit (q.place n)) := by
  rw [digit, List.getD_eq_getElem?_getD, toList_label_getElem? hi hq, Option.getD_some]

/-- Writing a digit is setting a bit. -/
theorem withDigit_label (hi : i < 2 ^ n) (hj : j < 2 ^ n) {q : Qubit} (hq : q.index < n)
    (h : ∀ k, q.place n ≠ k → i.testBit k = j.testBit k) :
    withDigit (label i n) q (digitOf (j.testBit (q.place n))) = label j n := by
  rw [← String.toList_inj, withDigit, String.toList_ofList, toList_label (by omega) hi,
    toList_label (by omega) hj, List.cons_append, List.set_cons_succ, List.cons_append,
    List.set_append_left _ _ (by simpa using hq)]
  congr 2
  apply List.ext_getElem?
  intro p
  rw [List.getElem?_set]
  by_cases hp : q.index = p
  · subst hp
    simp [hq, Qubit.place]
  · by_cases hpn : p < n
    · have := h (n - 1 - p) (by unfold Qubit.place; omega)
      simp [hp, hpn, this]
    · simp [hp, hpn]

theorem label_injective (hi : i < 2 ^ n) (hj : j < 2 ^ n) (h : label i n = label j n) : i = j := by
  refine Index.eq_of_testBit_place hi hj fun q hq => ?_
  have e := congrArg (digit · q) h
  simp only [digit_label hi hq, digit_label hj hq] at e
  exact digitOf_injective e

theorem label_zero (hn : 0 < n) : label 0 n = allZeros n := by
  rw [← String.toList_inj, toList_label hn (Nat.two_pow_pos n), allZeros, String.toList_ofList]
  congr 2
  apply List.ext_getElem?
  intro p
  by_cases hp : p < n
  · simp [hp, digitOf]
  · simp [hp]

/-- The coefficients of a register of the given width have a value at a label. -/
def At {A : Type} (amps : Array A) (width : Nat) (s : String) (a : A) : Prop :=
  ∃ i, label i width = s ∧ amps[i]? = some a

/-- A label stands for one index, so it has one value. -/
theorem At.unique {A : Type} {amps : Array A} {n : Nat} (hsize : amps.size = 2 ^ n) {s : String}
    {a b : A} (ha : At amps n s a) (hb : At amps n s b) : a = b := by
  obtain ⟨i, rfl, hi⟩ := ha
  obtain ⟨j, hs, hj⟩ := hb
  have hin : i < 2 ^ n := hsize ▸ (Array.getElem?_eq_some_iff.1 hi).1
  have hjn : j < 2 ^ n := hsize ▸ (Array.getElem?_eq_some_iff.1 hj).1
  obtain rfl := label_injective hjn hin hs
  exact Option.some.inj (hi.symm.trans hj)

end KetSim.Ket
