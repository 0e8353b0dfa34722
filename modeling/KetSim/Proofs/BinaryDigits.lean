import KetSim.Proofs.Labels
import Mathlib.Data.Nat.Size
/-!
# Labels as binary numbers

The digits of a label are the index in binary, most significant digit first: they are read back as
the index (`Ket.binaryValue_digits`), lists of as many digits that write the same number are equal,
and the one that writes the smaller number comes first in the dictionary
(`Ket.append_lt_append_of_binaryValue_lt`). So of the labels of a register each is written in one
way only (`Ket.spells_iff`), and they are in the order of their indices (`Ket.label_lt_label`). An
index beyond the register has a label too, with as many digits as it needs, and no two indices have
the same one (`Ket.checkedLabel_displays`).
-/
namespace KetSim.Ket

def IsBinary (ds : List Char) : Prop := ∀ c ∈ ds, c = '0' ∨ c = '1'

/-- The number that binary digits write, the most significant digit first. -/
def binaryValue : List Char → Nat
  | [] => 0
  | c :: ds => (if c = '1' then 2 ^ ds.length else 0) + binaryValue ds

/-- The text is the label of a basis state of a register of the given width: a bar, a digit for each
qubit but at least one, and a bracket, and the digits write a number that the register has. -/
def Spells (width : Nat) (s : String) (v : Nat) : Prop :=
  ∃ ds, s = String.ofList ('|' :: ds ++ ['⟩']) ∧ ds.length = max width 1 ∧ IsBinary ds ∧
    binaryValue ds = v ∧ v < 2 ^ width

/-! ## Digits and numbers -/

theorem binaryValue_lt (ds : List Char) : binaryValue ds < 2 ^ ds.length := by
  induction ds with
  | nil => decide
  | cons c ds ih =>
    rw [binaryValue, List.length_cons, Nat.pow_succ]
    split <;> omega

/-- A first digit outweighs all that follow. -/
theorem binaryValue_cons_lt {ds es : List Char} (h : ds.length = es.length) :
    binaryValue ('0' :: ds) < binaryValue ('1' :: es) := by
  have := binaryValue_lt ds
  simp only [binaryValue, if_true, if_neg (show ('0' : Char) ≠ '1' by decide)]
  rw [h] at this
  omega

/-- As many digits that write the same number are the same digits. -/
theorem eq_of_binaryValue_eq :
    ∀ {ds es : List Char}, IsBinary ds → IsBinary es → ds.length = es.length →
      binaryValue ds = binaryValue es → ds = es
  | [], [], _, _, _, _ => rfl
  | c :: ds, e :: es, hd, he, hlen, h => by
    obtain ⟨hc, hds⟩ := List.forall_mem_cons.1 hd
    obtain ⟨hce, hes⟩ := List.forall_mem_cons.1 he
    have hlen' : ds.length = es.length := Nat.succ.inj hlen
    have hrest (hsame : c = e) : c :: ds = e :: es := by
      subst hsame
      rw [binaryValue, binaryValue, hlen', Nat.add_left_cancel_iff] at h
      rw [eq_of_binaryValue_eq hds hes hlen' h]
    rcases hc with rfl | rfl
    · rcases hce with rfl | rfl
      · exact hrest rfl
      · exact absurd h (Nat.ne_of_lt (binaryValue_cons_lt hlen'))
    · rcases hce with rfl | rfl
      · exact absurd h.symm (Nat.ne_of_lt (binaryValue_cons_lt hlen'.symm))
      · exact hrest rfl

/-- Of as many digits those that write the smaller number come first in the dictionary, whatever
follows them. -/
theorem append_lt_append_of_binaryValue_lt {rest rest' : List Char} :
    ∀ {ds es : List Char}, IsBinary ds → IsBinary es → ds.length = es.length →
      binaryValue ds < binaryValue es → ds ++ rest < es ++ rest'
  | [], [], _, _, _, h => absurd h (Nat.lt_irrefl _)
  | c :: ds, e :: es, hd, he, hlen, h => by
    obtain ⟨hc, hds⟩ := List.forall_mem_cons.1 hd
    obtain ⟨hce, hes⟩ := List.forall_mem_cons.1 he
    have hlen' : ds.length = es.length := Nat.succ.inj hlen
    have hrest (hsame : c = e) : c :: ds ++ rest < e :: es ++ rest' := by
      subst hsame
      rw [binaryValue, binaryValue, hlen', Nat.add_lt_add_iff_left] at h
      exact List.cons_lt_cons_iff.2
        (Or.inr ⟨rfl, append_lt_append_of_binaryValue_lt hds hes hlen' h⟩)
    rcases hc with rfl | rfl
    · rcases hce with rfl | rfl
      · exact hrest rfl
      · exact List.cons_lt_cons_iff.2 (Or.inl (by decide))
    · rcases hce with rfl | rfl
      · exact absurd h (Nat.lt_asymm (binaryValue_cons_lt hlen'.symm))
      · exact hrest rfl

/-! ## Digits of an index -/

variable {i j n : Nat}

theorem length_digits (i n : Nat) : (digits i n).length = digitCount i n := by
  rw [digits, List.length_map, List.length_range]

theorem isBinary_digits (i n : Nat) : IsBinary (digits i n) := by
  intro c hc
  obtain ⟨place, -, rfl⟩ := List.mem_map.1 hc
  split
  · exact Or.inr rfl
  · exact Or.inl rfl

/-- Digits from the bit below a place down to the lowest one write what is left of the number. -/
theorem binaryValue_map_testBit (i count : Nat) :
    binaryValue ((List.range count).map fun place =>
      if i.testBit (count - 1 - place) then '1' else '0') = i % 2 ^ count := by
  induction count with
  | zero => rw [Nat.pow_zero, Nat.mod_one]; rfl
  | succ count ih =>
    have htail : ((List.range (count + 1)).map fun place =>
          if i.testBit (count + 1 - 1 - place) then '1' else '0') =
        (if i.testBit count then '1' else '0') ::
          (List.range count).map fun place =>
            if i.testBit (count - 1 - place) then '1' else '0' := by
      rw [List.range_succ_eq_map, List.map_cons, List.map_map]
      congr 1
      refine List.map_congr_left fun place _ => ?_
      rw [Function.comp_apply, show count + 1 - 1 - place.succ = count - 1 - place by omega]
    have hdigit : i / 2 ^ count % 2 = if i.testBit count then 1 else 0 := by
      rw [Nat.testBit_eq_decide_div_mod_eq]
      rcases Nat.mod_two_eq_zero_or_one (i / 2 ^ count) with hbit | hbit <;> simp [hbit]
    rw [htail, binaryValue, ih, List.length_map, List.length_range, Nat.mod_pow_succ, hdigit,
      Nat.add_comm]
    cases i.testBit count <;> simp

/-- The digits of a label are read back as its index, also where the register has none such. -/
theorem binaryValue_digits (i n : Nat) : binaryValue (digits i n) = i := by
  have hlt : i < 2 ^ digitCount i n := by
    have hlog : i < 2 ^ (i.log2 + 1) := Nat.lt_log2_self
    exact Nat.lt_of_lt_of_le hlog (Nat.pow_le_pow_right Nat.two_pos (Nat.le_max_right _ _))
  rw [digits, binaryValue_map_testBit, Nat.mod_eq_of_lt hlt]

/-- A digit for each qubit and for each bit of the index, and one for an index without bits. -/
theorem digitCount_eq (i n : Nat) : digitCount i n = max n (max i.size 1) := by
  rw [digitCount]
  congr 1
  rcases Nat.eq_zero_or_pos i with rfl | hi
  · simp
  · have hle : i.size ≤ i.log2 + 1 := Nat.size_le.2 Nat.lt_log2_self
    have hlt : i.log2 < i.size := Nat.lt_size.2 (Nat.log2_self_le (by omega))
    omega

theorem digitCount_of_lt_two_pow (hi : i < 2 ^ n) : digitCount i n = max n 1 := by
  have hsize : i.size ≤ n := Nat.size_le.2 hi
  rw [digitCount_eq]
  omega

/-! ## Labels of a register -/

/-- **A label is written in one way.** -/
theorem spells_iff {s : String} {v : Nat} : Spells n s v ↔ v < 2 ^ n ∧ label v n = s := by
  constructor
  · rintro ⟨ds, rfl, hlen, hbinary, hvalue, hv⟩
    refine ⟨hv, ?_⟩
    have hds : digits v n = ds := by
      refine eq_of_binaryValue_eq (isBinary_digits v n) hbinary ?_ ?_
      · rw [length_digits, digitCount_of_lt_two_pow hv, hlen]
      · rw [binaryValue_digits, hvalue]
    rw [label, hds]
  · rintro ⟨hv, rfl⟩
    refine ⟨digits v n, rfl, ?_, isBinary_digits v n, binaryValue_digits v n, hv⟩
    rw [length_digits, digitCount_of_lt_two_pow hv]

/-- Labels of a register are in the order of their indices. -/
theorem label_lt_label (hij : i < j) (hj : j < 2 ^ n) : label i n < label j n := by
  have hi : i < 2 ^ n := Nat.lt_trans hij hj
  rw [String.lt_iff, label, label, String.toList_ofList, String.toList_ofList]
  refine List.cons_lt_cons_iff.2 (Or.inr ⟨rfl, ?_⟩)
  refine append_lt_append_of_binaryValue_lt (isBinary_digits i n) (isBinary_digits j n) ?_ ?_
  · rw [length_digits, length_digits, digitCount_of_lt_two_pow hi, digitCount_of_lt_two_pow hj]
  · rwa [binaryValue_digits, binaryValue_digits]

/-! ## Labels of any index -/

/-- The digits show an index on a register of the given width: they write it, and where the register
has the index, each qubit finds its own bit among them. -/
structure Displays (width index : Nat) (ds : List Char) : Prop where
  /-- One digit for each qubit, more only if the index has more bits, and never none. -/
  length_eq : ds.length = max width (max index.size 1)
  binary : IsBinary ds
  value_eq : binaryValue ds = index
  /-- The digit of a qubit is the bit at the position that the kernels use for it. -/
  digit_iff : index < 2 ^ width → ∀ q : Qubit, q.index < width →
    ∃ place, q.bitPosition width = .ok place ∧
      (ds[q.index]? = some '1' ↔ index.testBit place = true)

theorem displays_digits (n i : Nat) : Displays n i (digits i n) where
  length_eq := by rw [length_digits, digitCount_eq]
  binary := isBinary_digits i n
  value_eq := binaryValue_digits i n
  digit_iff hi q hq := by
    refine ⟨q.place n, Qubit.bitPosition_of_lt hq, ?_⟩
    rw [digits_getElem? hi hq, Option.some_inj, digitOf_eq_one]

/-- What stands between bar and bracket is known from the text. -/
theorem digits_eq_of_label_eq (h : label i n = label j n) : digits i n = digits j n := by
  have hchars : '|' :: digits i n ++ ['⟩'] = '|' :: digits j n ++ ['⟩'] := by
    rw [← String.toList_inj, label, label, String.toList_ofList, String.toList_ofList] at h
    exact h
  exact (List.cons_inj_right _).1 (List.append_cancel_right hchars)

/-- **Every index has a label of its own.** Up to the widest padding a label is written for every
index, also for one beyond the register: a bar, digits that show the index, and a bracket. -/
theorem checkedLabel_displays (hn : n ≤ 65535) :
    (∀ i, ∃ ds, checkedLabel i n = .ok (String.ofList ('|' :: ds ++ ['⟩'])) ∧ Displays n i ds) ∧
    ∀ i j, checkedLabel i n = checkedLabel j n → i = j := by
  have hlabel (i : Nat) : checkedLabel i n = .ok (label i n) := if_pos hn
  refine ⟨fun i => ⟨digits i n, hlabel i, displays_digits n i⟩, fun i j h => ?_⟩
  rw [hlabel, hlabel] at h
  have hdigits := digits_eq_of_label_eq (Except.ok.inj h)
  rw [← binaryValue_digits i n, hdigits, binaryValue_digits]

/-- Three qubits: an index that needs a fourth digit, and one that the register has. -/
theorem checkedLabel_displays_overlong :
    3 ≤ 65535 ∧ checkedLabel 9 3 = .ok "|1001⟩" ∧ checkedLabel 6 3 = .ok "|110⟩" ∧
      (∃ ds, checkedLabel 9 3 = .ok (String.ofList ('|' :: ds ++ ['⟩'])) ∧ Displays 3 9 ds) ∧
      (∃ ds, checkedLabel 6 3 = .ok (String.ofList ('|' :: ds ++ ['⟩'])) ∧ Displays 3 6 ds) :=
  ⟨by decide, rfl, rfl, (checkedLabel_displays (by decide)).1 9,
    (checkedLabel_displays (by decide)).1 6⟩

end KetSim.Ket
