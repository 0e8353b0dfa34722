import KetSim.Proofs.Evolution
import KetSim.Proofs.Labels
import KetSim.Scalar.Machine
/-!
# Circuits read on labels

What a circuit means can be said with labels alone: a gate mixes the coefficients of the two labels
that differ in the digit of its target, a controlled flip does so where the digit of its control is
one. The engine computes these very expressions, label by label, though its loops run over indices,
in two different orders, and work in place.
-/
namespace KetSim.Ket
open Index StateVector
variable {A : Type} [Coefficient A]

/-- A matrix applied to the digit of a qubit, on coefficients given by label. -/
def mixDigit (m : Gate.Matrix A) (q : Qubit) (amp : String → A) (label : String) : A :=
  if digit label q = '1' then
    m.m10 * amp (withDigit label q '0') + m.m11 * amp (withDigit label q '1')
  else m.m00 * amp (withDigit label q '0') + m.m01 * amp (withDigit label q '1')

/-- An operation on coefficients given by label: a controlled flip acts at the labels whose control
digit is one, any other gate at all labels. -/
def act (op : Operation) (amp : String → A) : String → A :=
  match op with
  | ⟨.cnot, [c, t]⟩ =>
    fun label => if digit label c = '1' then mixDigit Gate.x.matrix t amp label else amp label
  | ⟨g, [q]⟩ => mixDigit g.matrix q amp
  | _ => amp

/-- The coefficients of a circuit by label: one at the label of all zeros, and then operation by
operation. -/
def amplitude (c : Circuit) : String → A :=
  c.operations.foldl (fun amp op => act op amp) fun label =>
    if label = allZeros c.width then 1 else 0

/-- Coefficients by label and by index are the same on a register of the given width. -/
def Agree (n : Nat) (amp : String → A) (f : Nat → A) : Prop := ∀ i < 2 ^ n, amp (label i n) = f i

theorem agree_zeros {n : Nat} (hn : 0 < n) :
    Agree n (fun label => if label = allZeros n then (1 : A) else 0) zeroDigits := by
  intro i hi
  have h : label i n = allZeros n ↔ i = 0 := by
    rw [← label_zero hn]
    exact ⟨label_injective hi (Nat.two_pow_pos n), fun h => by rw [h]⟩
  simp only [h, zeroDigits]

theorem agree_mixDigit {n : Nat} {amp : String → A} {f : Nat → A} (h : Agree n amp f)
    (m : Gate.Matrix A) {q : Qubit} (hq : q.index < n) :
    Agree n (mixDigit m q amp) (mixed m (q.place n) f) := by
  intro i hi
  have hf := flip_lt (Qubit.place_lt hq) hi
  have here : amp (withDigit (label i n) q (digitOf (i.testBit (q.place n)))) = f i := by
    rw [withDigit_label hi hi hq fun _ _ => rfl, h i hi]
  have there : amp (withDigit (label i n) q (digitOf !(i.testBit (q.place n)))) =
      f (flip (q.place n) i) := by
    have e := withDigit_label hi hf hq fun k hk => by simp [hk]
    rw [testBit_flip, decide_eq_true rfl, Bool.xor_true] at e
    rw [e, h _ hf]
  rw [mixDigit, mixed, digit_label hi hq, ← here, ← there]
  cases hb : i.testBit (q.place n) <;> simp [digitOf]

theorem agree_act {n : Nat} {amp : String → A} {f : Nat → A} (h : Agree n amp f) {op : Operation}
    (hop : op.Fits n) : Agree n (act op amp) (op.act n f) := by
  rcases hop.cases with ⟨g, q, rfl, hg, hq⟩ | ⟨c, t, rfl, hc, ht, hct⟩
  · rw [Operation.act_single hg]
    have e : act (.single g q) amp = mixDigit g.matrix q amp := by
      cases g <;> rfl
    rw [e]
    exact agree_mixDigit h _ hq
  · rw [Operation.act_cnot]
    intro i hi
    have ht := agree_mixDigit h Gate.x.matrix ht i hi
    show (if digit (label i n) c = '1' then mixDigit Gate.x.matrix t amp (label i n)
      else amp (label i n)) = mixedWhere Gate.x.matrix (c.place n) (t.place n) f i
    rw [mixedWhere, digit_label hi hc, ht, h i hi]
    simp only [digitOf_eq_one]

/-- Coefficients by label and by index stay the same through all operations that fit. -/
theorem agree_evolve {n : Nat} {ops : List Operation} {amp : String → A} {f : Nat → A}
    (h : Agree n amp f) (hops : ∀ op ∈ ops, op.Fits n) :
    Agree n (ops.foldl (fun amp op => act op amp) amp) (evolve n ops f) := by
  induction ops generalizing amp f with
  | nil => exact h
  | cons op ops ih =>
    obtain ⟨hop, hrest⟩ := List.forall_mem_cons.1 hops
    exact ih (agree_act h hop) hrest

theorem amplitude_label {c : Circuit} (hc : c.Valid) {i : Nat} (hi : i < 2 ^ c.width) :
    amplitude c (label i c.width) = (c.amplitude i : A) :=
  agree_evolve (agree_zeros hc.width_pos) hc.fits i hi

/-! ## Values at labels -/

omit [Coefficient A] in
theorem at_iff_of_holds {amps : Array A} {n : Nat} {f : Nat → A} (h : Holds amps n f) {s : String}
    {a : A} : At amps n s a ↔ ∃ i < 2 ^ n, label i n = s ∧ f i = a := by
  constructor
  · rintro ⟨i, hs, e⟩
    have hi : i < 2 ^ n := h.size_eq ▸ (Array.getElem?_eq_some_iff.1 e).1
    rw [h.getElem?_eq i hi] at e
    exact ⟨i, hi, hs, Option.some.inj e⟩
  · rintro ⟨i, hi, hs, rfl⟩
    exact ⟨i, hs, h.getElem?_eq i hi⟩

theorem at_finalState {c : Circuit} {s : String} {a : A} :
    At (c.finalState : StateVector A).amplitudes c.width s a ↔
      ∃ i < 2 ^ c.width, label i c.width = s ∧ c.amplitude i = a :=
  at_iff_of_holds c.holds_finalState

/-- The value at a label of a final state is the one that is known. -/
theorem at_finalState_iff {c : Circuit} {s : String} {a : A}
    (ha : At (c.finalState : StateVector A).amplitudes c.width s a) (x : A) :
    At (c.finalState : StateVector A).amplitudes c.width s x ↔ x = a :=
  ⟨fun hx => hx.unique c.size_finalState ha, fun e => e ▸ ha⟩

end KetSim.Ket

namespace KetSim

/-- Two qubits in equal superposition of both zero and both one. -/
def Circuit.entangled : Circuit := ⟨2, [.single .h ⟨1⟩, .cnot ⟨1⟩ ⟨0⟩]⟩

namespace Engine
variable {R : Type} [Scalar R]

/-- **A run gives every label its coefficient.** An engine with settings that can be honoured
answers a checked circuit within its limit with one amplitude for each index, and the one at an
index is what the circuit means at the label of the index. A register whose table cannot be held
has no run at all. -/
theorem run_eq_amplitude_of_label (e : Engine R) (he : e.settings.validate = .ok ()) (c : Circuit)
    (hc : c.check (R := R) = .ok ()) (hw : c.width ≤ e.settings.maxQubits) :
    (e.backend.run c).result =
      if 2 ^ c.width ≤ StateVector.maxEntries then
        .ok (Array.ofFn fun i : Fin (2 ^ c.width) => Ket.amplitude c (Ket.label i c.width))
      else .error (.fault .unaddressable) := by
  have hv : c.Valid := Circuit.check_eq_ok_iff.1 hc
  have hat : (fun i : Fin (2 ^ c.width) => (c.amplitude i : Amplitude R)) =
      fun i : Fin (2 ^ c.width) => Ket.amplitude c (Ket.label i c.width) :=
    funext fun i => (Ket.amplitude_label hv i.isLt).symm
  rw [run_result e (Settings.maxQubits_of_validate he).2 c, if_neg (by omega), hc, ← hat]
  rfl

/-- A control that stands after its target. -/
theorem run_eq_amplitude_of_label_entangled :
    Settings.standard.validate = .ok () ∧ Circuit.entangled.check (R := Float) = .ok () ∧
    Circuit.entangled.width ≤ Settings.standard.maxQubits ∧
    (Engine.standard.backend.run Circuit.entangled).result =
      .ok (Array.ofFn fun i : Fin (2 ^ 2) => Ket.amplitude Circuit.entangled (Ket.label i 2)) :=
  ⟨rfl, rfl, by decide,
    (run_eq_amplitude_of_label Engine.standard rfl Circuit.entangled rfl (by decide)).trans
      (if_pos (by decide))⟩

end Engine

end KetSim
