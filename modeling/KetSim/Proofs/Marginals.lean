import KetSim.Proofs.Labels
import KetSim.Proofs.UnitNorm
/-!
# What the other qubits see

In exact arithmetic an operation moves weight only between the two entries of a pair, so to all
qubits but its target, the control of a flip included, nothing has happened: their joint outcomes
keep their weights. Along a whole run the total therefore stays one, the norm never drifts, and a
qubit that is the target of nothing but `z` never leaves zero (`Engine.target_alone_changes`).
-/
namespace KetSim
open Index StateVector

variable {h : ℝ}

/-! ## One operation -/

/-- All qubits but one read as the given digits in the label of an index. -/
def Ket.OthersRead (n : Nat) (t : Qubit) (digits : Qubit → Char) (i : Nat) : Prop :=
  ∀ q : Qubit, q.index < n → q ≠ t → Ket.digit (Ket.label i n) q = digits q

theorem Ket.othersRead_flip {n : Nat} {t : Qubit} (ht : t.index < n) {digits : Qubit → Char}
    {i : Nat} (hi : i < 2 ^ n) :
    OthersRead n t digits (flip (t.place n) i) ↔ OthersRead n t digits i := by
  have hf := flip_lt (Qubit.place_lt ht) hi
  refine forall_congr' fun q => forall_congr' fun hq => forall_congr' fun hne => ?_
  rw [digit_label hf hq, digit_label hi hq, testBit_flip,
    decide_eq_false (Qubit.place_ne ht hq (Ne.symm hne)), Bool.xor_false]

open Classical in
/-- The weight of all outcomes in which the qubits other than `t` read as the given digits. -/
noncomputable def othersWeight (n : Nat) (t : Qubit) (digits : Qubit → Char)
    (f : Nat → Amplitude (Exact h)) : ℝ :=
  ∑ i ∈ Finset.range (2 ^ n) with Ket.OthersRead n t digits i, weight f i

/-- What agrees on all pairs of a qubit agrees in the weights of the others. -/
theorem othersWeight_congr {n : Nat} {t : Qubit} (ht : t.index < n)
    {f g : Nat → Amplitude (Exact h)}
    (hfg : ∀ j < 2 ^ n, weight f j + weight f (flip (t.place n) j) =
      weight g j + weight g (flip (t.place n) j)) (digits : Qubit → Char) :
    othersWeight n t digits f = othersWeight n t digits g := by
  classical
  rw [othersWeight, othersWeight, Finset.sum_filter, Finset.sum_filter]
  refine sum_eq_of_pairs (Qubit.place_lt ht) fun j hj => ?_
  by_cases hr : Ket.OthersRead n t digits j
  · simpa [Ket.othersRead_flip ht hj, hr] using hfg j hj
  · simp [Ket.othersRead_flip ht hj, hr]

/-- A state differs from another one in nothing that the qubits other than `t` show. -/
structure StateVector.SameButFor (t : Qubit) (s s' : StateVector (Amplitude (Exact h))) : Prop where
  width_eq : s'.width = s.width
  size_eq : s'.amplitudes.size = s.amplitudes.size
  /-- Two entries whose indices differ in the digit of `t` alone keep their common weight. -/
  pair : ∀ i j, i < 2 ^ s.width → j < 2 ^ s.width →
    (∀ k, i.testBit k = j.testBit k ↔ k ≠ t.place s.width) →
      weight s'.coefficient i + weight s'.coefficient j =
        weight s.coefficient i + weight s.coefficient j
  /-- The joint outcomes of the other qubits keep their weights. -/
  others : ∀ digits : Qubit → Char,
    othersWeight s.width t digits s'.coefficient = othersWeight s.width t digits s.coefficient

theorem Index.eq_flip_of_testBit {i j p : Nat} (hij : ∀ k, i.testBit k = j.testBit k ↔ k ≠ p) :
    j = flip p i := by
  apply Nat.eq_of_testBit_eq
  intro k
  rw [testBit_flip]
  by_cases hk : p = k
  · have : i.testBit k ≠ j.testBit k := fun e => (hij k).1 e hk.symm
    cases hi : i.testBit k <;> cases hj : j.testBit k <;> simp_all
  · simp [hk, (hij k).2 (Ne.symm hk)]

theorem StateVector.sameButFor_of_apply (hh : 2 * h ^ 2 = 1)
    {s s' : StateVector (Amplitude (Exact h))} {op : Operation} {t : Qubit}
    (hs : s.amplitudes.size = 2 ^ s.width) (hop : op.Fits s.width) (ht : op.target? = some t)
    (e : s.apply op = .ok s') : s.SameButFor t s' := by
  obtain ⟨hw, hs'⟩ := holds_of_apply (holds_coefficient hs) hop e
  obtain ⟨q, hq, htw⟩ := hop.exists_target
  obtain rfl : t = q := Option.some.inj (ht.symm.trans hq)
  have kept : ∀ j < 2 ^ s.width,
      weight s'.coefficient j + weight s'.coefficient (flip (t.place s.width) j) =
        weight s.coefficient j + weight s.coefficient (flip (t.place s.width) j) := by
    intro j hj
    rw [← op.weight_act hh hop ht s.coefficient j]
    simp only [weight, coefficient_of_holds hs' hj,
      coefficient_of_holds hs' (flip_lt (Qubit.place_lt htw) hj)]
  refine ⟨hw, hs'.size_eq.trans hs.symm, fun i j hi _ hij => ?_, othersWeight_congr htw kept⟩
  rw [eq_flip_of_testBit hij]
  exact kept i hi

/-! ## The norm of a run -/

/-- The squared magnitudes of a state add up to one. -/
theorem Circuit.real_totalNormSq (hh : 2 * h ^ 2 = 1) {c : Circuit} (hc : c.Valid) :
    (Amplitude.totalNormSq
      (c.finalState : StateVector (Amplitude (Exact h))).amplitudes.toList).real = 1 :=
  c.totalNormSq_eq_sum_weight.trans (c.sum_weight hh hc)

theorem Settings.pos_of_validate {s : Settings (Exact h)} (hs : s.validate = .ok ()) :
    0 < s.normalizationTolerance.real := by
  by_contra hneg
  rw [validate] at hs
  split at hs
  · cases hs
  · split at hs
    · cases hs
    · simp [hneg] at hs

/-- In exact arithmetic no engine ever warns that a norm has drifted. -/
theorem Engine.not_mem_events_prepare (hh : 2 * h ^ 2 = 1) {e : Engine (Exact h)}
    (he : e.settings.validate = .ok ()) (c : Circuit) (problem : Error (Exact h)) :
    .normDrifted problem ∉ (e.prepare c).events := by
  intro hmem
  obtain ⟨final, hfinal, hevent | ⟨drift, hdrift, -⟩⟩ := mem_events_prepare hmem
  · cases hevent
  · obtain ⟨hc, rfl⟩ := eq_finalState_of_prepare (Settings.maxQubits_of_validate he).2 hfinal
    rw [Amplitude.checkNormalized_of_total (c.real_totalNormSq hh hc)
      (Settings.pos_of_validate he).le] at hdrift
    cases hdrift

/-! ## Qubits that stay zero -/

/-- Every coefficient at an index with the given bit is zero. -/
def Clear (k : Nat) (f : Nat → Amplitude (Exact h)) : Prop := ∀ j, j.testBit k = true → f j = 0

theorem Amplitude.mul_zero_add_mul_zero (a b : Amplitude (Exact h)) : a * 0 + b * 0 = 0 := by
  apply value_injective
  simp

theorem Clear.mixed {k p : Nat} {f : Nat → Amplitude (Exact h)} (hf : Clear k f)
    (m : Gate.Matrix (Amplitude (Exact h))) (hp : p ≠ k) : Clear k (mixed m p f) := by
  intro j hj
  have hflip : f (flip p j) = 0 := hf _ (by simp [hp, hj])
  rw [StateVector.mixed, hf j hj, hflip]
  split <;> exact Amplitude.mul_zero_add_mul_zero _ _

/-- The phase flip moves nothing between the two entries of a pair. -/
theorem Clear.mixed_z {k : Nat} {f : Nat → Amplitude (Exact h)} (hf : Clear k f) :
    Clear k (StateVector.mixed Gate.z.matrix k f) := by
  intro j hj
  apply Amplitude.value_injective
  simp [StateVector.mixed, hj, hf j hj, Gate.matrix]

theorem Clear.act {n : Nat} {q : Qubit} (hq : q.index < n) {f : Nat → Amplitude (Exact h)}
    (hf : Clear (q.place n) f) {op : Operation} (hop : op.Fits n)
    (hz : op.target? = some q → op.gate = .z) : Clear (q.place n) (op.act n f) := by
  rcases hop.cases with ⟨g, t, rfl, hg, ht⟩ | ⟨c, t, rfl, -, ht, -⟩
  · rw [Operation.act_single hg]
    by_cases htq : t = q
    · subst htq
      obtain rfl : g = .z := hz rfl
      exact hf.mixed_z
    · exact hf.mixed _ (Qubit.place_ne ht hq htq)
  · have htq : t ≠ q := by
      rintro rfl
      cases hz rfl
    intro j hj
    rw [Operation.act_cnot, mixedWhere]
    split
    · exact hf.mixed _ (Qubit.place_ne ht hq htq) j hj
    · exact hf j hj

theorem Clear.evolve {n : Nat} {q : Qubit} (hq : q.index < n) {ops : List Operation}
    (hops : ∀ op ∈ ops, op.Fits n) (hz : ∀ op ∈ ops, op.target? = some q → op.gate = .z)
    {f : Nat → Amplitude (Exact h)} (hf : Clear (q.place n) f) :
    Clear (q.place n) (evolve n ops f) :=
  evolve_invariant (fun op hop _ hf => hf.act hq (hops op hop) (hz op hop)) hf

theorem Circuit.clear_amplitude {c : Circuit} (hc : c.Valid) {q : Qubit} (hq : q.index < c.width)
    (hz : ∀ op ∈ c.operations, op.target? = some q → op.gate = .z) :
    Clear (q.place c.width) (c.amplitude : Nat → Amplitude (Exact h)) := by
  refine Clear.evolve hq hc.fits hz fun j hj => ?_
  rw [zeroDigits, if_neg]
  rintro rfl
  simp at hj

/-! ## Whole runs -/

/-- A state has norm one for every test of it, and shows a zero for every qubit that is the target
of nothing but phase flips, wherever its coefficient or the probability of the outcome is not
zero. -/
structure Circuit.Coherent (c : Circuit) (final : StateVector (Amplitude (Exact h))) : Prop where
  total_eq_one : (Amplitude.totalNormSq final.amplitudes.toList).real = 1
  normalized : ∀ tolerance : Exact h, 0 ≤ tolerance.real →
    Amplitude.checkNormalized tolerance final.amplitudes.toList = .ok ()
  digit_of_weight : ∀ q : Qubit, q.index < c.width →
    (∀ op ∈ c.operations, op.target? = some q → op.gate = .z) →
      ∀ i < 2 ^ c.width, weight final.coefficient i ≠ 0 →
        Ket.digit (Ket.label i c.width) q = '0'
  digit_of_probability : ∀ q : Qubit, q.index < c.width →
    (∀ op ∈ c.operations, op.target? = some q → op.gate = .z) →
      ∀ tolerance d, (Distribution.ofAmplitudes final.amplitudes.toList tolerance).result = .ok d →
        ∀ o ∈ d.outcomes, o.probability.real ≠ 0 → Ket.digit o.label q = '0'

theorem Circuit.coherent_finalState (hh : 2 * h ^ 2 = 1) {c : Circuit} (hc : c.Valid) :
    c.Coherent (c.finalState : StateVector (Amplitude (Exact h))) := by
  have htotal := c.real_totalNormSq hh hc
  have hlen : (c.finalState : StateVector (Amplitude (Exact h))).amplitudes.toList.length =
      2 ^ c.width := c.size_finalState
  -- at an index with the bit of the qubit the coefficient is zero
  have hdigit : ∀ q : Qubit, q.index < c.width →
      (∀ op ∈ c.operations, op.target? = some q → op.gate = .z) → ∀ i < 2 ^ c.width,
        (c.amplitude i : Amplitude (Exact h)) ≠ 0 → Ket.digit (Ket.label i c.width) q = '0' := by
    intro q hq hz i hi hne
    rw [Ket.digit_label hi hq]
    cases hbit : i.testBit (q.place c.width) with
    | false => rfl
    | true => exact absurd (c.clear_amplitude hc hq hz i hbit) hne
  refine ⟨htotal, fun tolerance ht => Amplitude.checkNormalized_of_total htotal ht, ?_, ?_⟩
  · intro q hq hz i hi hweight
    rw [weight, coefficient_finalState hi] at hweight
    exact hdigit q hq hz i hi fun h0 => hweight (by rw [h0]; simp)
  · intro q hq hz tolerance d hd o ho hprob
    rw [Distribution.result_ofAmplitudes hlen] at hd
    split at hd
    · cases hd
    · rename_i hr
      obtain rfl := Except.ok.inj hd
      obtain ⟨i, a, ha, hlabel, hshare⟩ := Distribution.exists_of_mem_normalized hr ho
      obtain ⟨hi, rfl⟩ := Circuit.of_getElem?_finalState ha
      rw [hlabel]
      exact hdigit q hq hz i hi fun h0 => hprob (by rw [hshare, h0]; simp)

namespace Engine

/-- **An operation changes nothing but its target**, for all that the other qubits show: every pair
of coefficients keeps its weight, and so do the joint outcomes of the others. Hence a run ends in a
state of norm one, no drift is ever reported, and a qubit that is the target of nothing but phase
flips ends as it started. -/
theorem target_alone_changes (hh : 2 * h ^ 2 = 1) :
    (∀ (s s' : StateVector (Amplitude (Exact h))) (op : Operation) (t : Qubit),
      s.amplitudes.size = 2 ^ s.width → op.Fits s.width → op.target? = some t →
      s.apply op = .ok s' → s.SameButFor t s') ∧
    (∀ (s : StateVector (Amplitude (Exact h))) (op : Operation),
      s.amplitudes.size = 2 ^ s.width → op.Fits s.width → s.width < 64 →
      ∃ s', s.apply op = .ok s') ∧
    (∀ (e : Engine (Exact h)) (c : Circuit), e.settings.validate = .ok () →
      c.check (R := Exact h) = .ok () → c.width ≤ e.settings.maxQubits →
      2 ^ c.width ≤ StateVector.maxEntries →
      ∃ final, (e.prepare c).result = .ok final ∧ c.Coherent final) ∧
    (∀ (e : Engine (Exact h)) (c : Circuit) (problem : Error (Exact h)),
      e.settings.validate = .ok () → .normDrifted problem ∉ (e.prepare c).events) := by
  refine ⟨fun s s' op t hs hop ht e => sameButFor_of_apply hh hs hop ht e, ?_, ?_,
    fun e c problem he => not_mem_events_prepare hh he c problem⟩
  · intro s op hs hop hw
    obtain ⟨s', e, -, -⟩ := apply_holds (holds_coefficient hs) hop (hop.inWord hw)
    exact ⟨s', e⟩
  · intro e c he hc hw hmem
    have hcv : c.Valid := Circuit.check_eq_ok_iff.1 hc
    exact ⟨c.finalState, prepare_valid (Settings.maxQubits_of_validate he).2 hcv hw hmem,
      c.coherent_finalState hh hcv⟩

/-- A flip between two entangled qubits, and a circuit whose last qubit only has its phase
flipped. -/
theorem target_alone_changes_flip :
    let s : StateVector (Amplitude (Exact (√2)⁻¹)) := ⟨2, #[1, Coefficient.imaginary, 0, 1]⟩
    let e : Engine (Exact (√2)⁻¹) := ⟨Exact.settings⟩
    let c : Circuit := ⟨3, [.single .h ⟨0⟩, .cnot ⟨0⟩ ⟨1⟩, .single .z ⟨2⟩]⟩
    (∃ s', s.apply (.cnot ⟨1⟩ ⟨0⟩) = .ok s' ∧ s.SameButFor ⟨0⟩ s') ∧
    (∃ final, (e.prepare c).result = .ok final ∧ c.Coherent final) ∧
    ∀ problem, .normDrifted problem ∉ (e.prepare c).events := by
  intro s e c
  obtain ⟨changes, defined, runs, silent⟩ :=
    target_alone_changes Exact.two_mul_inv_sqrt_two_sq
  have hop : (Operation.cnot ⟨1⟩ ⟨0⟩).Fits s.width :=
    Operation.fits_cnot (by decide) (by decide) (by decide)
  obtain ⟨s', es⟩ := defined s _ rfl hop (by decide)
  exact ⟨⟨s', es, changes s s' _ ⟨0⟩ rfl hop rfl es⟩,
    runs e c Exact.validate_settings rfl (by decide) (by decide),
    fun problem => silent e c problem Exact.validate_settings⟩

end Engine

end KetSim
