import KetSim.Proofs.Draws
import KetSim.Proofs.GateAction
import KetSim.Proofs.Labels
import KetSim.Proofs.UnitNorm
/-!
# Circuits without Hadamard gates

Without Hadamard gates a register is a row of bits: `x` and `y` turn a digit, a controlled flip
turns one where another is one, and all that is left of `y` and `z` is a phase. So the state of such
a circuit has a single coefficient, at the label that is reached by turning digits
(`Circuit.isBasis_amplitude`), its distribution is certain of that label, and nothing else can be
drawn from it (`Engine.prepare_classical`).
-/
namespace KetSim
open Index StateVector

variable {h : ℝ}

/-! ## Labels as bits -/

namespace Ket

/-- The label with the digit of a qubit turned over. -/
def turn (q : Qubit) (s : String) : String :=
  withDigit s q (if digit s q = '1' then '0' else '1')

/-- What an operation does to the digits of a register. A change of phase does nothing to them, and
for a Hadamard gate there is no answer. -/
def evaluate (op : Operation) (s : String) : String :=
  match op with
  | ⟨.cnot, [c, t]⟩ => if digit s c = '1' then turn t s else s
  | ⟨.x, [q]⟩ | ⟨.y, [q]⟩ => turn q s
  | _ => s

theorem turn_label {n i : Nat} (hi : i < 2 ^ n) {q : Qubit} (hq : q.index < n) :
    turn q (label i n) = label (flip (q.place n) i) n := by
  have hflip := withDigit_label hi (flip_lt (Qubit.place_lt hq) hi) hq fun k hk => by simp [hk]
  rw [← hflip, turn, digit_label hi hq]
  cases hb : i.testBit (q.place n) <;> simp [digitOf, hb]

end Ket

/-- The label that is reached from all zeros when every operation is read as one on bits. -/
def Circuit.classicalLabel (c : Circuit) : String :=
  c.operations.foldl (fun s op => Ket.evaluate op s) (Ket.allZeros c.width)

/-! ## Phases -/

/-- A fourth root of one. -/
def IsPhase (u : ℂ) : Prop := u = 1 ∨ u = -1 ∨ u = Complex.I ∨ u = -Complex.I

namespace IsPhase
variable {u : ℂ}

theorem neg (hu : IsPhase u) : IsPhase (-u) := by
  rcases hu with rfl | rfl | rfl | rfl <;> simp [IsPhase]

theorem I_mul (hu : IsPhase u) : IsPhase (Complex.I * u) := by
  rcases hu with rfl | rfl | rfl | rfl <;> simp [IsPhase]

theorem normSq_eq_one (hu : IsPhase u) : Complex.normSq u = 1 := by
  rcases hu with rfl | rfl | rfl | rfl <;> simp

/-- A phase is real or imaginary, so one of its components has the size of the whole. -/
theorem one_le_component (hu : IsPhase u) : 1 ≤ |u.re| ∨ 1 ≤ |u.im| := by
  rcases hu with rfl | rfl | rfl | rfl <;> simp

end IsPhase

/-! ## Basis states -/

/-- The coefficients of a basis state, up to a phase. -/
def IsBasis (i : Nat) (f : Nat → Amplitude (Exact h)) : Prop :=
  ∃ u, IsPhase u ∧ ∀ j, (f j).value = if j = i then u else 0

namespace IsBasis
variable {i : Nat} {f : Nat → Amplitude (Exact h)}

theorem mixed_x (hf : IsBasis i f) (k : Nat) : IsBasis (flip k i) (mixed Gate.x.matrix k f) := by
  obtain ⟨u, hu, hf⟩ := hf
  exact ⟨u, hu, fun j => by simp only [StateVector.mixed_x, hf, flip_eq_iff_eq_flip]⟩

theorem mixed_y (hf : IsBasis i f) (k : Nat) : IsBasis (flip k i) (mixed Gate.y.matrix k f) := by
  obtain ⟨u, hu, hf⟩ := hf
  refine ⟨if (flip k i).testBit k then Complex.I * u else -(Complex.I * u), ?_, fun j => ?_⟩
  · split
    · exact hu.I_mul
    · exact hu.I_mul.neg
  · simp only [StateVector.mixed_y, Amplitude.value_mul, hf, flip_eq_iff_eq_flip]
    by_cases hj : j = flip k i
    · cases hb : (flip k i).testBit k <;> simp [hj, hb]
    · simp [hj]

theorem mixed_z (hf : IsBasis i f) (k : Nat) : IsBasis i (mixed Gate.z.matrix k f) := by
  obtain ⟨u, hu, hf⟩ := hf
  refine ⟨if i.testBit k then -u else u, ?_, fun j => ?_⟩
  · split
    · exact hu.neg
    · exact hu
  · rw [StateVector.mixed_z]
    by_cases hj : j = i
    · cases hb : i.testBit k <;> simp [hj, hb, hf]
    · cases hb : j.testBit k <;> simp [hj, hf]

theorem mixedWhere_cnot (hf : IsBasis i f) {c t : Nat} (hct : c ≠ t) :
    IsBasis (if i.testBit c then flip t i else i) (mixedWhere Gate.cnot.matrix c t f) := by
  obtain ⟨u, hu, hf⟩ := hf
  refine ⟨u, hu, fun j => ?_⟩
  have hswap : (if j.testBit c then flip t j else j) = i ↔
      j = if i.testBit c then flip t i else i := by
    constructor
    · rintro rfl
      cases hj : j.testBit c <;> simp [hj, Ne.symm hct]
    · rintro rfl
      cases hi : i.testBit c <;> simp [hi, Ne.symm hct]
  rw [StateVector.mixedWhere_cnot, hf]
  simp only [hswap]

/-- An operation that is no Hadamard gate leads from one basis state to another, and their labels
differ as its reading on bits says. -/
theorem act (hf : IsBasis i f) {n : Nat} (hi : i < 2 ^ n) {op : Operation} (hop : op.Fits n)
    (hh : op.gate ≠ .h) :
    ∃ i' < 2 ^ n, Ket.label i' n = Ket.evaluate op (Ket.label i n) ∧ IsBasis i' (op.act n f) := by
  rcases hop.cases with ⟨g, q, rfl, hg, hq⟩ | ⟨c, t, rfl, hc, ht, hct⟩
  · have hflip := flip_lt (Qubit.place_lt hq) hi
    rw [Operation.act_single hg]
    cases g with
    | x => exact ⟨_, hflip, (Ket.turn_label hi hq).symm, hf.mixed_x _⟩
    | y => exact ⟨_, hflip, (Ket.turn_label hi hq).symm, hf.mixed_y _⟩
    | z => exact ⟨i, hi, rfl, hf.mixed_z _⟩
    | h => exact absurd rfl hh
    | cnot => exact absurd rfl hg
  · refine ⟨_, ?_, ?_, hf.mixedWhere_cnot (Qubit.place_ne hc ht hct)⟩
    · split
      · exact flip_lt (Qubit.place_lt ht) hi
      · exact hi
    · show _ = if Ket.digit (Ket.label i n) c = '1' then Ket.turn t (Ket.label i n)
        else Ket.label i n
      rw [Ket.digit_label hi hc, Ket.turn_label hi ht]
      cases hb : i.testBit (c.place n) <;> simp

theorem evolve (hf : IsBasis i f) {n : Nat} (hi : i < 2 ^ n) {ops : List Operation}
    (hops : ∀ op ∈ ops, op.Fits n ∧ op.gate ≠ .h) :
    ∃ i' < 2 ^ n, Ket.label i' n = ops.foldl (fun s op => Ket.evaluate op s) (Ket.label i n) ∧
      IsBasis i' (KetSim.evolve n ops f) := by
  induction ops generalizing i f with
  | nil => exact ⟨i, hi, rfl, hf⟩
  | cons op ops ih =>
    obtain ⟨⟨hop, hh⟩, hrest⟩ := List.forall_mem_cons.1 hops
    obtain ⟨i', hi', hlabel, hf'⟩ := hf.act hi hop hh
    rw [List.foldl_cons, ← hlabel]
    exact ih hf' hi' hrest

end IsBasis

/-- The state of a circuit without Hadamard gates is a basis state, up to a phase. -/
theorem Circuit.isBasis_amplitude {c : Circuit} (hc : c.Valid)
    (hh : ∀ op ∈ c.operations, op.gate ≠ .h) :
    ∃ i < 2 ^ c.width, Ket.label i c.width = c.classicalLabel ∧
      IsBasis i (c.amplitude : Nat → Amplitude (Exact h)) := by
  have hzero : IsBasis 0 (zeroDigits : Nat → Amplitude (Exact h)) := by
    refine ⟨1, .inl rfl, fun j => ?_⟩
    by_cases hj : j = 0 <;> simp [zeroDigits, hj]
  rw [classicalLabel, ← Ket.label_zero hc.width_pos]
  exact hzero.evolve (Nat.two_pow_pos _) fun op hop => ⟨hc.fits op hop, hh op hop⟩

/-! ## What is seen of a basis state -/

/-- The only coefficient that is not zero stands at the label, and is a phase. -/
def StateVector.Reads (s : StateVector (Amplitude (Exact h))) (label : String) : Prop :=
  ∃ i a, Ket.label i s.width = label ∧ s.amplitudes[i]? = some a ∧ IsPhase a.value ∧
    ∀ j b, s.amplitudes[j]? = some b → j ≠ i → b = 0

/-- The label has probability one and all others have probability zero; it is the most likely one,
and every shot is counted for it. -/
structure Distribution.Certain (d : Distribution (Exact h)) (label : String) : Prop where
  probability : ∀ o ∈ d.outcomes, o.probability.real = if o.label = label then 1 else 0
  mostLikely : ∃ o ∈ d.outcomes, d.mostLikely? = some o ∧ o.label = label
  counts : ∀ (shots : Nat) (seed : UInt64), 0 < shots →
    d.sampleCounts shots seed = [(label, shots)]

theorem Distribution.certain_of_probability {d : Distribution (Exact h)} {label : String}
    (hmem : ∃ o ∈ d.outcomes, o.label = label)
    (hprob : ∀ o ∈ d.outcomes, o.probability.real = if o.label = label then 1 else 0) :
    d.Certain label := by
  obtain ⟨top, htop, hlabel⟩ := hmem
  have hone : top.probability.real = 1 := by rw [hprob top htop, if_pos hlabel]
  -- what is possible has the label
  have hpossible : ∀ o ∈ d.outcomes, 0 < o.probability.real → o.label = label := by
    intro o ho hpos
    by_contra hne
    rw [hprob o ho, if_neg hne] at hpos
    exact lt_irrefl 0 hpos
  refine ⟨hprob, ?_, fun shots seed hshots => ?_⟩
  · obtain ⟨k, o, hmost, hleads⟩ :=
      exists_leads ordered_exact (fun _ _ => trivial) (List.ne_nil_of_mem htop)
    have hle := hleads.real_le htop
    exact ⟨o, hleads.mem, hmost, hpossible o hleads.mem (by linarith)⟩
  · refine sampleCounts_of_label (fun o ho => ?_) ⟨top, htop, by linarith⟩ hpossible hshots seed
    rw [hprob o ho]
    split <;> norm_num

section
variable {c : Circuit} {i : Nat} (hi : i < 2 ^ c.width)
  (hf : IsBasis i (c.amplitude : Nat → Amplitude (Exact h)))
include hi hf

theorem IsBasis.reads : (c.finalState : StateVector (Amplitude (Exact h))).Reads
    (Ket.label i c.width) := by
  obtain ⟨u, hu, hf⟩ := hf
  refine ⟨i, c.amplitude i, rfl, c.holds_finalState.getElem?_eq i hi, ?_, fun j b hb hne => ?_⟩
  · rwa [hf, if_pos rfl]
  · rw [← Array.getElem?_toList] at hb
    obtain ⟨-, rfl⟩ := Circuit.of_getElem?_finalState hb
    exact Amplitude.value_injective (by rw [hf, if_neg hne, Amplitude.value_zero])

theorem IsBasis.not_rejects {tolerance : Exact h} (ht : tolerance.real < 1) :
    ¬ Distribution.Rejects
      (c.finalState : StateVector (Amplitude (Exact h))).amplitudes.toList tolerance := by
  obtain ⟨u, hu, hf⟩ := hf
  have hmem : (c.amplitude i : Amplitude (Exact h)) ∈ c.finalState.amplitudes.toList :=
    Array.mem_toList_iff.2 (Array.mem_of_getElem? (c.holds_finalState.getElem?_eq i hi))
  obtain ⟨hre, him⟩ := Distribution.le_largestComponent hmem
  rw [hf, if_pos rfl] at hre him
  have hone := hu.one_le_component.elim (le_trans · hre) (le_trans · him)
  rw [Distribution.rejects_iff]
  rintro (hzero | hsmall) <;> linarith

theorem IsBasis.totalNormSq_eq_one :
    (Amplitude.totalNormSq
      (c.finalState : StateVector (Amplitude (Exact h))).amplitudes.toList).real = 1 := by
  obtain ⟨u, hu, hf⟩ := hf
  rw [c.totalNormSq_eq_sum_weight, Finset.sum_eq_single_of_mem i (Finset.mem_range.2 hi)]
  · rw [weight, hf, if_pos rfl, hu.normSq_eq_one]
  · intro j _ hne
    rw [weight, hf, if_neg hne, Complex.normSq_zero]

theorem IsBasis.certain {tolerance : Exact h} (ht : tolerance.real < 1) :
    ∃ d, (Distribution.ofAmplitudes
      (c.finalState : StateVector (Amplitude (Exact h))).amplitudes.toList tolerance).result =
        .ok d ∧ d.Lists c.width ∧ d.Certain (Ket.label i c.width) := by
  have hlen : (c.finalState : StateVector (Amplitude (Exact h))).amplitudes.toList.length =
      2 ^ c.width := c.size_finalState
  have hr := hf.not_rejects hi ht
  have hlists := Distribution.lists_normalized hlen
  refine ⟨_, by rw [Distribution.result_ofAmplitudes hlen, if_neg hr], hlists,
    Distribution.certain_of_probability ?_ fun o ho => ?_⟩
  · have ho := List.getElem?_eq_getElem (hlists.length_eq ▸ hi)
    exact ⟨_, List.mem_of_getElem? ho, (hlists.outcome_eq i _ ho).2⟩
  · obtain ⟨j, a, ha, hlabel, hshare⟩ := Distribution.exists_of_mem_normalized hr ho
    obtain ⟨hj, rfl⟩ := Circuit.of_getElem?_finalState ha
    rw [hf.totalNormSq_eq_one hi, div_one] at hshare
    obtain ⟨u, hu, hf⟩ := hf
    rw [hshare, hlabel, hf]
    by_cases hij : j = i
    · rw [if_pos hij, if_pos (by rw [hij]), hu.normSq_eq_one]
    · rw [if_neg hij, if_neg fun e => hij (Ket.label_injective hj hi e), Complex.normSq_zero]

end

namespace Engine

/-- **Without Hadamard gates a run is a classical one.** The state that an engine prepares has one
coefficient, a phase, at the label that the circuit reaches on bits. The distribution is certain of
this label, at every tolerance below one. -/
theorem prepare_classical {e : Engine (Exact h)} (he : e.settings.validate = .ok ()) {c : Circuit}
    (hc : c.check (R := Exact h) = .ok ()) (hw : c.width ≤ e.settings.maxQubits)
    (hmem : 2 ^ c.width ≤ StateVector.maxEntries) (hh : ∀ op ∈ c.operations, op.gate ≠ .h) :
    ∃ final, (e.prepare c).result = .ok final ∧ final.Reads c.classicalLabel ∧
      ∀ tolerance : Exact h, tolerance.real < 1 →
        ∃ d, (Distribution.ofAmplitudes final.amplitudes.toList tolerance).result = .ok d ∧
          d.Lists c.width ∧ d.Certain c.classicalLabel := by
  have hv : c.Valid := Circuit.check_eq_ok_iff.1 hc
  obtain ⟨i, hi, hlabel, hf⟩ := Circuit.isBasis_amplitude (h := h) hv hh
  rw [← hlabel]
  exact ⟨c.finalState, prepare_valid (Settings.maxQubits_of_validate he).2 hv hw hmem,
    hf.reads hi, fun tolerance ht => hf.certain hi ht⟩

/-- A flip, a quarter turn, and controlled flips from either side. -/
theorem prepare_classical_flips :
    let e : Engine (Exact (√2)⁻¹) := ⟨Exact.settings⟩
    let c : Circuit := ⟨3, [.single .x ⟨2⟩, .cnot ⟨2⟩ ⟨0⟩, .single .y ⟨1⟩, .cnot ⟨0⟩ ⟨2⟩]⟩
    e.settings.validate = .ok () ∧ c.check (R := Exact (√2)⁻¹) = .ok () ∧
    (∀ op ∈ c.operations, op.gate ≠ .h) ∧ c.classicalLabel = "|110⟩" ∧
    ∃ final, (e.prepare c).result = .ok final ∧ final.Reads "|110⟩" ∧
      ∃ d, (Distribution.ofAmplitudes final.amplitudes.toList 0).result = .ok d ∧
        d.Lists 3 ∧ d.Certain "|110⟩" := by
  intro e c
  have hh : ∀ op ∈ c.operations, op.gate ≠ .h := by decide
  have hlabel : c.classicalLabel = "|110⟩" := by decide
  obtain ⟨final, hfinal, hreads, hd⟩ := prepare_classical (e := e) (c := c)
    Exact.validate_settings rfl (by decide) (by decide) hh
  rw [hlabel] at hreads hd
  exact ⟨Exact.validate_settings, rfl, hh, hlabel, final, hfinal, hreads, hd 0 (by simp)⟩

end Engine

end KetSim
