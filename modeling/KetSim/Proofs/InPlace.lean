import KetSim.Proofs.Kernels
import Mathlib.Data.Set.Function
/-!
# The kernels entry by entry

What the kernels leave in a vector, said of the vector before the call and the vector after it: an
entry becomes the product of the matrix with itself and its partner, which lies `2 ^ k` further up
where the bit is clear and further down where it is set (`MixedAt`). The single-qubit kernel does
this everywhere (`mixAll_in_place`), the controlled one where the control bit is set, and it leaves
alone what is elsewhere (`mixControlled_frame`).

The single-qubit kernel may write where it reads because its steps share the indices out among
themselves: a step has a pair of its own (`insertZero_bijOn`, `existsUnique_step`), so both entries
of the pair are still there when the step comes to them (`mixFirst_fresh`).
-/
namespace KetSim

namespace Index
open StateVector (insertZero)
variable {n k i j : Nat}

/-! ## Steps and pairs -/

/-- Inserting a zero bit lists the indices whose bit is clear, each once. -/
theorem insertZero_bijOn (hk : k < n) :
    Set.BijOn (insertZero k) {i | i < 2 ^ (n - 1)} {j | j < 2 ^ n ∧ j.testBit k = false} :=
  ⟨fun i hi => ⟨insertZero_lt hk hi, testBit_insertZero_self k i⟩,
    fun _ _ _ _ h => insertZero_injective k h, fun _ hj => exists_insertZero hk hj.1 hj.2⟩

/-- The partner of an index with a zero bit inserted has the bit set. -/
theorem insertZero_or_bit (k i : Nat) : insertZero k i ||| 1 <<< k = insertZero k i + 2 ^ k := by
  rw [or_bit (testBit_insertZero_self k i), flip_eq_add (testBit_insertZero_self k i)]

/-- The pair of a step consists of the indices that the pair is named by. -/
theorem insertZero_eq_low_iff :
    insertZero k i = low k j ↔ insertZero k i = j ∨ insertZero k i + 2 ^ k = j := by
  have hclear := testBit_insertZero_self k i
  rw [← flip_eq_add hclear]
  constructor
  · intro h
    rcases eq_low_or_flip k j with e | e
    · exact Or.inl (h.trans e.symm)
    · exact Or.inr (by rw [h, ← e])
  · rintro (rfl | rfl)
    · exact (low_of_clear hclear).symm
    · rw [low_flip, low_of_clear hclear]

/-- Every index belongs to the pair of exactly one step. -/
theorem existsUnique_step (hk : k < n) (hj : j < 2 ^ n) :
    ∃! i, i < 2 ^ (n - 1) ∧ (insertZero k i = j ∨ insertZero k i + 2 ^ k = j) := by
  obtain ⟨i, hi, e⟩ := exists_insertZero hk (low_lt hk hj) (testBit_low_self k j)
  refine ⟨i, ⟨hi, insertZero_eq_low_iff.1 e⟩, ?_⟩
  rintro i' ⟨-, h⟩
  exact insertZero_injective k ((insertZero_eq_low_iff.2 h).trans e.symm)

end Index

namespace StateVector
open Index
variable {A : Type} {amps out : Array A} {n k j : Nat}

/-- A vector of the right length has a value at every index of the register. -/
theorem exists_holds (hsize : amps.size = 2 ^ n) : ∃ f, Holds amps n f := by
  have hpos : 0 < amps.size := hsize ▸ Nat.two_pow_pos n
  refine ⟨fun i => amps[i]?.getD amps[0], hsize, fun i hi => ?_⟩
  rw [← hsize] at hi
  simp [hi]

variable [Add A] [Mul A] {m : Gate.Matrix A}

/-- The entry of `out` is what the matrix makes of the entry of `amps` at the same index and of its
partner, which lies further down where the bit is set and further up where it is clear. -/
def MixedAt (m : Gate.Matrix A) (k : Nat) (amps out : Array A) (j : Nat) : Prop :=
  if j.testBit k then
    ∃ a b, amps[j - 2 ^ k]? = some a ∧ amps[j]? = some b ∧ out[j]? = some (m.m10 * a + m.m11 * b)
  else
    ∃ a b, amps[j]? = some a ∧ amps[j + 2 ^ k]? = some b ∧ out[j]? = some (m.m00 * a + m.m01 * b)

theorem mixedAt_of_holds {f g : Nat → A} (h : Holds amps n f) (ho : Holds out n g) (hk : k < n)
    (hj : j < 2 ^ n) (hg : g j = mixed m k f j) : MixedAt m k amps out j := by
  have hpartner := h.getElem?_eq (flip k j) (flip_lt hk hj)
  rw [mixed] at hg
  rw [MixedAt]
  cases hbit : j.testBit k with
  | true =>
    rw [hbit, if_pos rfl] at hg
    rw [flip_eq_sub hbit] at hpartner hg
    exact ⟨_, _, hpartner, h.getElem?_eq j hj, by rw [ho.getElem?_eq j hj, hg]⟩
  | false =>
    rw [hbit, if_neg Bool.false_ne_true] at hg
    rw [flip_eq_add hbit] at hpartner hg
    exact ⟨_, _, h.getElem?_eq j hj, hpartner, by rw [ho.getElem?_eq j hj, hg]⟩

/-! ## The single-qubit kernel -/

theorem mixFirst_succ {mid : Array A} {i : Nat} (h : mixFirst m k i amps = .ok mid) :
    mixFirst m k (i + 1) amps = mixPair m mid (insertZero k i) (insertZero k i + 2 ^ k) := by
  rw [mixFirst] at h
  rw [mixFirst, List.range_succ, List.foldlM_append, h]
  show mixPair m mid (insertZero k i) (insertZero k i ||| 1 <<< k) >>= pure = _
  rw [bind_pure, insertZero_or_bit]

/-- A step finds both entries of its pair as they were before the first one. -/
theorem mixFirst_fresh (hsize : amps.size = 2 ^ n) (hk : k < n) {i : Nat} (hi : i < 2 ^ (n - 1)) :
    ∃ mid, mixFirst m k i amps = .ok mid ∧
      mid[insertZero k i]? = amps[insertZero k i]? ∧
      mid[insertZero k i + 2 ^ k]? = amps[insertZero k i + 2 ^ k]? := by
  obtain ⟨f, hf⟩ := exists_holds hsize
  obtain ⟨mid, e, hmid⟩ := mixFirst_holds m hf hk (Nat.le_of_lt hi)
  have hclear := testBit_insertZero_self k i
  have hlt : insertZero k i < 2 ^ n := insertZero_lt hk hi
  -- the pair of this step is none of the pairs of the steps before it
  have hlater : insertZero k i ∉ (List.range i).map (insertZero k) := by
    intro hmem
    obtain ⟨i', hi', e'⟩ := List.mem_map.1 hmem
    exact absurd (List.mem_range.1 hi') (by rw [insertZero_injective k e']; exact Nat.lt_irrefl i)
  have hsame {j : Nat} (hj : j < 2 ^ n) (hlow : low k j = insertZero k i) : mid[j]? = amps[j]? := by
    rw [hmid.getElem?_eq j hj, hf.getElem?_eq j hj, hlow, if_neg hlater]
  rw [← flip_eq_add hclear]
  exact ⟨mid, e, hsame hlt (low_of_clear hclear),
    hsame (flip_lt hk hlt) (by rw [low_flip, low_of_clear hclear])⟩

/-- How the single-qubit kernel goes through a vector, and what it leaves there. -/
structure MixesInPlace (m : Gate.Matrix A) (n k : Nat) (amps : Array A) : Prop where
  /-- The steps list the indices whose bit is clear, each once. -/
  lists : Set.BijOn (insertZero k) {i | i < 2 ^ (n - 1)} {j | j < 2 ^ n ∧ j.testBit k = false}
  /-- Every index belongs to the pair of exactly one step. -/
  once : ∀ j < 2 ^ n, ∃! i, i < 2 ^ (n - 1) ∧ (insertZero k i = j ∨ insertZero k i + 2 ^ k = j)
  /-- The call takes all steps. -/
  steps : mixAll m k amps = mixFirst m k (2 ^ (n - 1)) amps
  /-- A step replaces its pair, and finds it as it was before the call. -/
  fresh : ∀ i < 2 ^ (n - 1), ∃ mid, mixFirst m k i amps = .ok mid ∧
    mixFirst m k (i + 1) amps = mixPair m mid (insertZero k i) (insertZero k i + 2 ^ k) ∧
    mid[insertZero k i]? = amps[insertZero k i]? ∧
    mid[insertZero k i + 2 ^ k]? = amps[insertZero k i + 2 ^ k]?
  /-- The call succeeds, and every entry is a product of entries before the call. -/
  result : ∃ out, mixAll m k amps = .ok out ∧ out.size = amps.size ∧
    ∀ j < 2 ^ n, MixedAt m k amps out j

/-- **The single-qubit kernel works in place.** On a vector of `2 ^ n` entries, at any of its bits
and with any matrix, it visits every pair once and reads nothing that it has written. Afterwards
every entry is what the matrix makes of the two entries of its pair before the call. -/
theorem mixAll_in_place (m : Gate.Matrix A) (hn : n ≤ 63) (hk : k < n) (hsize : amps.size = 2 ^ n) :
    MixesInPlace m n k amps where
  lists := insertZero_bijOn hk
  once j hj := existsUnique_step hk hj
  steps := by rw [mixAll_eq_mixFirst m (by omega), hsize, half_two_pow (Nat.zero_lt_of_lt hk)]
  fresh i hi := by
    obtain ⟨mid, e, hlow, hhigh⟩ := mixFirst_fresh (m := m) hsize hk hi
    exact ⟨mid, e, mixFirst_succ e, hlow, hhigh⟩
  result := by
    obtain ⟨f, hf⟩ := exists_holds hsize
    obtain ⟨out, e, ho⟩ := mixAll_holds m hf hk (by omega)
    exact ⟨out, e, ho.size_eq.trans hsize.symm, fun j hj => mixedAt_of_holds hf ho hk hj rfl⟩

/-- The middle one of three bits, with a matrix that tells its entries apart. -/
theorem mixAll_in_place_middle :
    (#[2, 3, 5, 7, 11, 13, 17, 19] : Array Nat).size = 2 ^ 3 ∧
    MixesInPlace ⟨1, 10, 100, 1000⟩ 3 1 #[2, 3, 5, 7, 11, 13, 17, 19] ∧
    mixAll ⟨1, 10, 100, 1000⟩ 1 #[2, 3, 5, 7, 11, 13, 17, 19] =
      .ok #[52, 73, 5200, 7300, 181, 203, 18100, 20300] :=
  ⟨rfl, mixAll_in_place ⟨1, 10, 100, 1000⟩ (by decide) (by decide) rfl, by decide⟩

/-! ## The controlled kernel -/

/-- **The controlled kernel acts on one half and frames the other.** On a vector of `2 ^ n` entries,
for any two different bits and any matrix, it leaves every entry whose control bit is clear as it
was. Every other entry is what the matrix makes of the pair of the target bit before the call, which
is what the single-qubit kernel stores there. -/
theorem mixControlled_frame (m : Gate.Matrix A) {c t : Nat} (hn : n ≤ 63) (hc : c < n) (ht : t < n)
    (hct : c ≠ t) (hsize : amps.size = 2 ^ n) :
    ∃ out all, mixControlled m c t amps = .ok out ∧ mixAll m t amps = .ok all ∧
      out.size = amps.size ∧
      (∀ j < 2 ^ n, j.testBit c = false → out[j]? = amps[j]?) ∧
      (∀ j < 2 ^ n, j.testBit c = true → MixedAt m t amps out j ∧ out[j]? = all[j]?) := by
  obtain ⟨f, hf⟩ := exists_holds hsize
  obtain ⟨out, e, ho⟩ := mixControlled_holds m hf ht hct (by omega) (by omega)
  obtain ⟨all, e', hall⟩ := mixAll_holds m hf ht (by omega)
  refine ⟨out, all, e, e', ho.size_eq.trans hsize.symm, fun j hj hclear => ?_, fun j hj hset => ?_⟩
  · rw [ho.getElem?_eq j hj, hf.getElem?_eq j hj, mixedWhere, hclear, if_neg Bool.false_ne_true]
  · have hacts : mixedWhere m c t f j = mixed m t f j := by rw [mixedWhere, hset, if_pos rfl]
    refine ⟨mixedAt_of_holds hf ho ht hj hacts, ?_⟩
    rw [ho.getElem?_eq j hj, hall.getElem?_eq j hj, hacts]

/-- A control below its target: the indices with an even last digit keep their entries. -/
theorem mixControlled_frame_low_control :
    (#[2, 3, 5, 7, 11, 13, 17, 19] : Array Nat).size = 2 ^ 3 ∧
    (∃ out all : Array Nat,
      mixControlled ⟨1, 10, 100, 1000⟩ 0 2 #[2, 3, 5, 7, 11, 13, 17, 19] = .ok out ∧
      mixAll ⟨1, 10, 100, 1000⟩ 2 #[2, 3, 5, 7, 11, 13, 17, 19] = .ok all ∧ out.size = 8 ∧
      (∀ j < 2 ^ 3, j.testBit 0 = false → out[j]? = #[2, 3, 5, 7, 11, 13, 17, 19][j]?) ∧
      (∀ j < 2 ^ 3, j.testBit 0 = true →
        MixedAt ⟨1, 10, 100, 1000⟩ 2 #[2, 3, 5, 7, 11, 13, 17, 19] out j ∧ out[j]? = all[j]?)) ∧
    mixControlled ⟨1, 10, 100, 1000⟩ 0 2 #[2, 3, 5, 7, 11, 13, 17, 19] =
      .ok #[2, 133, 5, 197, 11, 13300, 17, 19700] :=
  ⟨rfl, mixControlled_frame ⟨1, 10, 100, 1000⟩ (by decide) (by decide) (by decide) (by decide) rfl,
    by decide⟩

end StateVector

end KetSim
