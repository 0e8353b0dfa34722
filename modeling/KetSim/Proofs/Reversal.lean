import KetSim.Proofs.Evolution
import KetSim.Proofs.GateAction
/-!
# Undoing a circuit

In exact arithmetic every gate undoes itself, so operations are undone by the same operations in
reverse order: from whatever state they started, they lead back to it, coefficient by coefficient
(`StateVector.applyAll_reverse`).
-/
namespace KetSim
open Index StateVector

variable {h : ℝ}

/-! ## One operation -/

theorem mixed_mixed (hh : 2 * h ^ 2 = 1) (g : Gate) (k : Nat) (f : Nat → Amplitude (Exact h)) :
    mixed g.matrix k (mixed g.matrix k f) = f := by
  rw [mixed_mixed_mul, g.matrix_mul_self hh, mixed_one]

theorem mixedWhere_mixedWhere (hh : 2 * h ^ 2 = 1) (g : Gate) {c t : Nat} (hct : c ≠ t)
    (f : Nat → Amplitude (Exact h)) :
    mixedWhere g.matrix c t (mixedWhere g.matrix c t f) = f := by
  funext j
  -- both entries of a pair have the same control bit, so both were mixed or neither was
  have hc : (flip t j).testBit c = j.testBit c := by simp [Ne.symm hct]
  cases hj : j.testBit c with
  | false => simp [mixedWhere, hj]
  | true =>
    have := congrFun (mixed_mixed hh g t f) j
    rw [mixed] at this
    simpa [mixedWhere, mixed, hj, hc] using this

/-- An operation undoes itself. -/
theorem Operation.act_act (hh : 2 * h ^ 2 = 1) {n : Nat} {op : Operation} (hop : op.Fits n)
    (f : Nat → Amplitude (Exact h)) : op.act n (op.act n f) = f := by
  rcases hop.cases with ⟨g, q, rfl, hg, hq⟩ | ⟨c, t, rfl, hc, ht, hct⟩
  · rw [act_single hg, act_single hg]
    exact mixed_mixed hh g (q.place n) f
  · rw [act_cnot, act_cnot]
    exact mixedWhere_mixedWhere hh .cnot (Qubit.place_ne hc ht hct) f

/-! ## Several operations -/

theorem evolve_reverse (hh : 2 * h ^ 2 = 1) {n : Nat} {ops : List Operation}
    (hops : ∀ op ∈ ops, op.Fits n) (f : Nat → Amplitude (Exact h)) :
    evolve n ops.reverse (evolve n ops f) = f := by
  induction ops generalizing f with
  | nil => rfl
  | cons op ops ih =>
    obtain ⟨hop, hrest⟩ := List.forall_mem_cons.1 hops
    calc evolve n (op :: ops).reverse (evolve n (op :: ops) f)
      _ = op.act n (evolve n ops.reverse (evolve n ops (op.act n f))) := by
        rw [List.reverse_cons, evolve_append]
        rfl
      _ = f := by rw [ih hrest, op.act_act hh hop]

/-- What was done from a state is undone from where it led. -/
theorem StateVector.applyAll_reverse_of_applyAll (hh : 2 * h ^ 2 = 1)
    {s s' : StateVector (Amplitude (Exact h))} {ops : List Operation}
    (hs : s.amplitudes.size = 2 ^ s.width) (hops : ∀ op ∈ ops, op.Fits s.width)
    (e : s.applyAll ops = .ok s') : s'.applyAll ops.reverse = .ok s := by
  have hword := inWord_of_applyAll hs hops e
  obtain ⟨hw, hs'⟩ := holds_of_applyAll (holds_coefficient hs) hops e
  have hback : ∀ op ∈ ops.reverse, op.Fits s'.width := by simpa [hw] using hops
  have hbackw : ∀ op ∈ ops.reverse, op.InWord s'.width := by simpa [hw] using hword
  rw [← hw] at hs'
  obtain ⟨back, eb, hwb, hb⟩ := applyAll_holds hs' hback hbackw
  rw [hw, evolve_reverse hh hops] at hb
  rw [eb, eq_of_holds (hwb.trans hw) hb (holds_coefficient hs)]

theorem StateVector.applyAll_append_reverse (hh : 2 * h ^ 2 = 1)
    {s : StateVector (Amplitude (Exact h))} {ops : List Operation}
    (hs : s.amplitudes.size = 2 ^ s.width) (hops : ∀ op ∈ ops, op.Fits s.width)
    (hw : s.width < 64) : s.applyAll (ops ++ ops.reverse) = .ok s := by
  obtain ⟨s', e, -, -⟩ := applyAll_holds (holds_coefficient hs) hops
    fun op hop => (hops op hop).inWord hw
  rw [applyAll_append, e]
  exact applyAll_reverse_of_applyAll hh hs hops e

/-! ## Whole runs -/

/-- The circuit followed by its own operations in reverse order. -/
def Circuit.andBack (c : Circuit) : Circuit := ⟨c.width, c.operations ++ c.operations.reverse⟩

theorem Circuit.Valid.andBack {c : Circuit} (hc : c.Valid) : c.andBack.Valid :=
  ⟨hc.width_pos, fun op hop => hc.fits op (by simpa [Circuit.andBack] using hop)⟩

/-- An engine that is not too narrow ends where it started. -/
theorem Engine.prepare_andBack (hh : 2 * h ^ 2 = 1) {e : Engine (Exact h)}
    (he : e.settings.maxQubits ≤ 63) {c : Circuit} (hc : c.Valid)
    (hw : c.width ≤ e.settings.maxQubits) :
    (e.prepare c.andBack).result = (StateVector.zeroState c.width).mapError .fault := by
  have hword : c.width < 64 := by omega
  have hle : ¬ e.settings.maxQubits < c.andBack.width := Nat.not_lt.2 hw
  rw [prepare_result e he, if_neg hle, Circuit.check_eq_ok_iff.2 hc.andBack]
  show (if 2 ^ c.width ≤ StateVector.maxEntries then _ else _) = _
  by_cases hmem : 2 ^ c.width ≤ StateVector.maxEntries
  · obtain ⟨start, es, ef⟩ :=
      applyAll_zeroState (A := Amplitude (Exact h)) (c := c.andBack) hword hc.andBack hmem
    obtain ⟨_, es', hsw, hs⟩ := zeroState_holds (A := Amplitude (Exact h)) hword hmem
    obtain rfl := Except.ok.inj (es.symm.trans es')
    have hback : start.applyAll (c.operations ++ c.operations.reverse) = .ok start :=
      applyAll_append_reverse hh (by rw [hs.size_eq, hsw]) (by rw [hsw]; exact hc.fits)
        (by rw [hsw]; exact hword)
    have hfinal : c.andBack.finalState = start := Except.ok.inj (ef.symm.trans hback)
    rw [if_pos hmem, hfinal, es']
    rfl
  · rw [if_neg hmem, zeroState_too_large hword hmem]
    rfl

namespace StateVector

/-- **Operations are undone by their reversal.** From whatever state of a register operations that
fit it lead away, the same operations in reverse order lead back, on every register whose indices
fit a word and wherever else they give a result. So a checked circuit that is run and then undone
ends with all digits zero. -/
theorem applyAll_reverse (hh : 2 * h ^ 2 = 1) :
    (∀ (s s' : StateVector (Amplitude (Exact h))) (ops : List Operation),
      s.amplitudes.size = 2 ^ s.width → (∀ op ∈ ops, op.Fits s.width) →
      s.applyAll ops = .ok s' → s'.applyAll ops.reverse = .ok s) ∧
    (∀ (s : StateVector (Amplitude (Exact h))) (ops : List Operation),
      s.amplitudes.size = 2 ^ s.width → (∀ op ∈ ops, op.Fits s.width) → s.width < 64 →
      s.applyAll (ops ++ ops.reverse) = .ok s) ∧
    (∀ (e : Engine (Exact h)) (c : Circuit), e.settings.validate = .ok () →
      c.check (R := Exact h) = .ok () → c.width ≤ e.settings.maxQubits →
      (e.prepare c.andBack).result = (zeroState c.width).mapError .fault) := by
  refine ⟨fun s s' ops hs hops e => applyAll_reverse_of_applyAll hh hs hops e,
    fun s ops hs hops hw => applyAll_append_reverse hh hs hops hw, fun e c he hc hw => ?_⟩
  exact Engine.prepare_andBack hh (Settings.maxQubits_of_validate he).2
    (Circuit.check_eq_ok_iff.1 hc) hw

/-- Two entangled qubits with an imaginary coefficient, and three operations one of which is
controlled by the later qubit. -/
theorem applyAll_reverse_entangled :
    let s : StateVector (Amplitude (Exact (√2)⁻¹)) := ⟨2, #[1, Coefficient.imaginary, 0, 1]⟩
    let ops : List Operation := [.single .h ⟨1⟩, .cnot ⟨1⟩ ⟨0⟩, .single .y ⟨0⟩]
    (∃ s', s.applyAll ops = .ok s' ∧ s'.applyAll ops.reverse = .ok s) ∧
    s.applyAll (ops ++ ops.reverse) = .ok s ∧
    ((⟨Exact.settings⟩ : Engine (Exact (√2)⁻¹)).prepare (Circuit.andBack ⟨2, ops⟩)).result =
      (zeroState 2).mapError .fault := by
  intro s ops
  have hh := Exact.two_mul_inv_sqrt_two_sq
  have hs : s.amplitudes.size = 2 ^ s.width := rfl
  have hc : (⟨2, ops⟩ : Circuit).check (R := Exact (√2)⁻¹) = .ok () := rfl
  have hops : ∀ op ∈ ops, op.Fits s.width := (Circuit.check_eq_ok_iff.1 hc).fits
  obtain ⟨s', e, -, -⟩ := applyAll_holds (holds_coefficient hs) hops
    fun op hop => (hops op hop).inWord (by decide)
  exact ⟨⟨s', e, (applyAll_reverse hh).1 s s' ops hs hops e⟩,
    (applyAll_reverse hh).2.1 s ops hs hops (by decide),
    (applyAll_reverse hh).2.2 _ ⟨2, ops⟩ Exact.validate_settings hc (by decide)⟩

end StateVector

end KetSim
