import KetSim.Scalar.Machine
import KetSim.Proofs.BinaryDigits
import KetSim.Proofs.Transform
/-!
# Looking up a label

The labels of a distribution that was made of amplitudes are those of its register, each of them
once and in the order of the dictionary. A probability is found under a label exactly if the label
is one of the register, and then it is that of the state with this index; under every other text
nothing is found (`Distribution.looksUp_of_ofAmplitudes`).
-/
namespace KetSim.Distribution
variable {R : Type} {d : Distribution R} {n : Nat}

/-- What is found in a distribution under which text. -/
structure LooksUp (d : Distribution R) : Prop where
  /-- Under a label of the register stands the probability of the state with its index. -/
  some_iff : ∀ s p, d.get? s = some p ↔
    ∃ v e, Ket.Spells d.numQubits s v ∧ d.outcomes[v]? = some e ∧ e.probability = p
  /-- Nothing stands under any other text. -/
  none_iff : ∀ s, d.get? s = none ↔ ∀ v, ¬ Ket.Spells d.numQubits s v
  /-- Every state is found under its own label. -/
  own : ∀ (i : Nat) (e : Outcome R), d.outcomes[i]? = some e →
    e.index = i ∧ d.get? e.label = some e.probability
  length_labels : d.labels.length = 2 ^ d.numQubits
  nodup_labels : d.labels.Nodup
  /-- The labels are in the order of the dictionary. -/
  sorted_labels : d.labels.Pairwise (· < ·)

/-- Every index of the register has an outcome with its label. -/
theorem Lists.exists_outcome (h : d.Lists n) {v : Nat} (hv : v < 2 ^ n) :
    ∃ e, d.outcomes[v]? = some e ∧ e.label = Ket.label v n := by
  have hlt : v < d.outcomes.length := by rwa [h.length_eq]
  exact ⟨_, List.getElem?_eq_getElem hlt, (h.outcome_eq v _ (List.getElem?_eq_getElem hlt)).2⟩

theorem Lists.labels_eq (h : d.Lists n) :
    d.labels = (List.range (2 ^ n)).map fun v => Ket.label v n := by
  apply List.ext_getElem?
  intro v
  rw [labels, List.getElem?_map, List.getElem?_map]
  by_cases hv : v < 2 ^ n
  · obtain ⟨e, he, hlabel⟩ := h.exists_outcome hv
    rw [he, List.getElem?_range hv, Option.map_some, Option.map_some, hlabel]
  · rw [List.getElem?_eq_none (by rw [h.length_eq]; omega),
      List.getElem?_eq_none (by rw [List.length_range]; omega)]
    rfl

theorem Lists.sorted_labels (h : d.Lists n) : d.labels.Pairwise (· < ·) := by
  rw [h.labels_eq, List.pairwise_map]
  refine List.pairwise_lt_range.imp_of_mem fun {i j} _ hj hij => ?_
  exact Ket.label_lt_label hij (List.mem_range.1 hj)

/-- The first outcome with the label of an index is the one at this index. -/
theorem Lists.get?_label (h : d.Lists n) {v : Nat} {e : Outcome R}
    (he : d.outcomes[v]? = some e) : d.get? (Ket.label v n) = some e.probability := by
  obtain ⟨hv, hget⟩ := List.getElem?_eq_some_iff.1 he
  rw [h.length_eq] at hv
  have hfirst : d.outcomes.find? (·.label == Ket.label v n) = some e := by
    rw [List.find?_eq_some_iff_getElem]
    refine ⟨by simp [(h.outcome_eq v e he).2], v, by rw [h.length_eq]; exact hv, hget, ?_⟩
    intro i hi
    have hin : i < 2 ^ n := Nat.lt_trans hi hv
    have hlabel := (h.outcome_eq i _ (List.getElem?_eq_getElem (by rw [h.length_eq]; exact hin))).2
    have hne : Ket.label i n ≠ Ket.label v n := fun e =>
      Nat.ne_of_lt hi (Ket.label_injective hin hv e)
    simp [hlabel, hne]
  rw [get?, hfirst]
  rfl

theorem Lists.get?_eq_some_iff (h : d.Lists n) (s : String) (p : R) :
    d.get? s = some p ↔
      ∃ v e, Ket.Spells n s v ∧ d.outcomes[v]? = some e ∧ e.probability = p := by
  constructor
  · intro hget
    obtain ⟨e, hfind, rfl⟩ := Option.map_eq_some_iff.1 hget
    obtain ⟨v, he⟩ := List.mem_iff_getElem?.1 (List.mem_of_find?_eq_some hfind)
    have hlabel : e.label = s := by simpa using List.find?_some hfind
    have hv : v < 2 ^ n := by
      rw [← h.length_eq]
      exact (List.getElem?_eq_some_iff.1 he).1
    exact ⟨v, e, Ket.spells_iff.2 ⟨hv, (h.outcome_eq v e he).2.symm.trans hlabel⟩, he, rfl⟩
  · rintro ⟨v, e, hspells, he, rfl⟩
    obtain ⟨-, rfl⟩ := Ket.spells_iff.1 hspells
    exact h.get?_label he

theorem Lists.looksUp (h : d.Lists d.numQubits) : d.LooksUp where
  some_iff := h.get?_eq_some_iff
  none_iff s := by
    constructor
    · intro hnone v hspells
      obtain ⟨e, he, -⟩ := h.exists_outcome (Ket.spells_iff.1 hspells).1
      have hsome := (h.get?_eq_some_iff s e.probability).2 ⟨v, e, hspells, he, rfl⟩
      rw [hnone] at hsome
      cases hsome
    · intro hspells
      cases hget : d.get? s with
      | none => rfl
      | some p =>
        obtain ⟨v, -, hv, -⟩ := (h.get?_eq_some_iff s p).1 hget
        exact absurd hv (hspells v)
  own i e he := by
    obtain ⟨hindex, hlabel⟩ := h.outcome_eq i e he
    exact ⟨hindex, hlabel ▸ h.get?_label he⟩
  length_labels := by rw [labels, List.length_map, h.length_eq]
  nodup_labels := h.sorted_labels.imp fun hlt heq => absurd (heq ▸ hlt) (String.lt_irrefl _)
  sorted_labels := h.sorted_labels

/-- **A label finds its own state.** In a distribution that was made of amplitudes exactly the labels
of the register are found, each with the probability of its state, and the labels are different and
in the order of the dictionary. -/
theorem looksUp_of_ofAmplitudes [Scalar R] {amps : List (Amplitude R)} {tolerance : R}
    (hd : (ofAmplitudes amps tolerance).result = .ok d) : d.LooksUp := by
  obtain ⟨hlen, -, heq⟩ := of_result_ofAmplitudes hd
  have hlists : d.Lists d.numQubits := by
    rw [heq]
    exact lists_normalized hlen
  exact hlists.looksUp

/-- The label of a single amplitude has a digit although there is no qubit. -/
theorem looksUp_of_ofAmplitudes_single :
    let amps : List (Amplitude Float) := [⟨0.0, -2.0⟩]
    let built := normalized 0 amps
    (ofAmplitudes amps 0).result = .ok built ∧ built.LooksUp ∧ built.get? "|0⟩" = some 1.0 ∧
      built.get? "|⟩" = none ∧ built.get? "|00⟩" = none := by
  intro amps built
  have hr : ¬ Rejects amps 0 := by decide +kernel
  have hok : (ofAmplitudes amps 0).result = .ok built := by
    rw [result_ofAmplitudes (n := 0) rfl, if_neg hr]
  exact ⟨hok, looksUp_of_ofAmplitudes hok, by decide +kernel, by decide +kernel, by decide +kernel⟩

end KetSim.Distribution
