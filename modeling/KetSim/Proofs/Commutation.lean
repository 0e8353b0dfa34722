import KetSim.Proofs.Evolution
import KetSim.Proofs.GateAction
/-!
# Operations that change places

In exact arithmetic two operations can be applied in either order if neither has its target among
the qubits of the other: each then mixes its own pairs, under a condition that the other does not
touch. Two controlled flips of one qubit can change places too, since they flip it as often in
either order. What comes before and after makes no difference (`Engine.prepare_exchange`).
-/
namespace KetSim
open Index StateVector

variable {h : ℝ}

namespace Operation

/-- The target of the operation is none of the qubits of the other. -/
def Spares (a b : Operation) : Prop := ∀ t ∈ a.target?, t ∉ b.targets

instance (a b : Operation) : Decidable (a.Spares b) :=
  inferInstanceAs (Decidable (∀ t ∈ a.target?, t ∉ b.targets))

/-- Neither operation has its target among the qubits of the other, or both are controlled flips of
one qubit. -/
def Exchangeable (a b : Operation) : Prop :=
  (a.Spares b ∧ b.Spares a) ∨ (a.gate = .cnot ∧ b.gate = .cnot ∧ a.target? = b.target?)

instance (a b : Operation) : Decidable (a.Exchangeable b) :=
  inferInstanceAs (Decidable (_ ∨ _))

/-- The operation acts at an index: its control, if it has one, reads one there. -/
def ActsAt (n : Nat) (op : Operation) (j : Nat) : Bool :=
  match op.control? with
  | some c => j.testBit (c.place n)
  | none => true

/-- An operation is the matrix of its gate on those pairs at which it acts. -/
theorem act_eq_mixedIf {A : Type} [Coefficient A] {op : Operation} {t : Qubit}
    (ht : op.target? = some t) (n : Nat) (f : Nat → A) :
    op.act n f = mixedIf (op.ActsAt n) op.gate.matrix (t.place n) f := by
  funext j
  rw [act, mixedIf, ActsAt, ht]
  cases op.control? with
  | none => rfl
  | some c => rfl

theorem mem_targets_of_control? {op : Operation} {c : Qubit} (hc : op.control? = some c) :
    c ∈ op.targets := by
  rw [control?] at hc
  split at hc
  · exact List.mem_of_head? hc
  · cases hc

/-- Whether an operation acts does not depend on qubits that it does not have. -/
theorem actsAt_flip {n : Nat} {op : Operation} (hop : op.Fits n) {q : Qubit} (hq : q.index < n)
    (hnot : q ∉ op.targets) (j : Nat) : op.ActsAt n (flip (q.place n) j) = op.ActsAt n j := by
  unfold ActsAt
  split
  · rename_i c hc
    have hmem := mem_targets_of_control? hc
    have hqc : q ≠ c := fun e => hnot (e ▸ hmem)
    simp [Qubit.place_ne hq (hop.inside c hmem) hqc]
  · rfl

/-- Controlled flips of one qubit flip it as often in either order. -/
theorem act_comm_of_target {n : Nat} {a b c : Qubit} (hac : a.place n ≠ c.place n)
    (hbc : b.place n ≠ c.place n) (f : Nat → Amplitude (Exact h)) :
    (cnot a c).act n ((cnot b c).act n f) = (cnot b c).act n ((cnot a c).act n f) := by
  funext j
  simp only [act_cnot, mixedWhere_cnot]
  cases ha : j.testBit (a.place n) <;> cases hb : j.testBit (b.place n) <;>
    simp [ha, hb, Ne.symm hac, Ne.symm hbc]

theorem act_comm {n : Nat} {a b : Operation} (ha : a.Fits n) (hb : b.Fits n)
    (hab : a.Exchangeable b) (f : Nat → Amplitude (Exact h)) :
    a.act n (b.act n f) = b.act n (a.act n f) := by
  rcases hab with ⟨hspare, hspare'⟩ | ⟨hga, hgb, htarget⟩
  · obtain ⟨s, hs, hsn⟩ := ha.exists_target
    obtain ⟨t, ht, htn⟩ := hb.exists_target
    have hst : s ≠ t := fun e => hspare s hs (e ▸ List.mem_of_getLast? ht)
    simp only [act_eq_mixedIf hs, act_eq_mixedIf ht]
    exact mixedIf_comm _ _ (Qubit.place_ne hsn htn hst) (actsAt_flip ha htn (hspare' t ht))
      (actsAt_flip hb hsn (hspare s hs)) f
  · rcases ha.cases with ⟨_, _, rfl, hg, -⟩ | ⟨c, t, rfl, hc, ht, hct⟩
    · exact absurd hga hg
    · rcases hb.cases with ⟨_, _, rfl, hg, -⟩ | ⟨c', t', rfl, hc', ht', hct'⟩
      · exact absurd hgb hg
      · obtain rfl : t = t' := by simpa using htarget
        exact act_comm_of_target (Qubit.place_ne hc ht hct) (Qubit.place_ne hc' ht hct') f

end Operation

/-! ## Runs -/

theorem evolve_exchange {n : Nat} {a b : Operation} (ha : a.Fits n) (hb : b.Fits n)
    (hab : a.Exchangeable b) (before after : List Operation) (f : Nat → Amplitude (Exact h)) :
    evolve n (before ++ b :: a :: after) f = evolve n (before ++ a :: b :: after) f := by
  simp only [evolve_append, evolve_cons]
  rw [a.act_comm ha hb hab]

theorem Circuit.Valid.exchange {n : Nat} {a b : Operation} {before after : List Operation}
    (hc : Circuit.Valid ⟨n, before ++ a :: b :: after⟩) :
    Circuit.Valid ⟨n, before ++ b :: a :: after⟩ := by
  refine ⟨hc.width_pos, fun op hop => hc.fits op ?_⟩
  simp only [List.mem_append, List.mem_cons] at hop ⊢
  tauto

theorem Circuit.finalState_exchange {n : Nat} {a b : Operation} {before after : List Operation}
    (hc : Circuit.Valid ⟨n, before ++ a :: b :: after⟩) (hab : a.Exchangeable b) :
    (finalState ⟨n, before ++ b :: a :: after⟩ : StateVector (Amplitude (Exact h))) =
      finalState ⟨n, before ++ a :: b :: after⟩ := by
  have ha := hc.fits a (by simp)
  have hb := hc.fits b (by simp)
  simp only [finalState, amplitude, evolve_exchange ha hb hab]

namespace Engine

/-- **Neighbours that spare each other's target can change places**, and so can two controlled flips
of one qubit. In whatever circuit they stand, an engine makes the same of both orders, and where it
prepares a state, it prepares the same one. -/
theorem prepare_exchange {e : Engine (Exact h)} (he : e.settings.validate = .ok ()) {n : Nat}
    (before after : List Operation) {a b : Operation}
    (hc : (⟨n, before ++ a :: b :: after⟩ : Circuit).check (R := Exact h) = .ok ())
    (hab : a.Exchangeable b) :
    (e.prepare ⟨n, before ++ b :: a :: after⟩).result =
      (e.prepare ⟨n, before ++ a :: b :: after⟩).result ∧
    (n ≤ e.settings.maxQubits → 2 ^ n ≤ StateVector.maxEntries →
      ∃ final, (e.prepare ⟨n, before ++ a :: b :: after⟩).result = .ok final ∧
        (e.prepare ⟨n, before ++ b :: a :: after⟩).result = .ok final) := by
  have hq : e.settings.maxQubits ≤ 63 := (Settings.maxQubits_of_validate he).2
  have hv := Circuit.check_eq_ok_iff.1 hc
  have hfinal := Circuit.finalState_exchange (h := h) hv hab
  constructor
  · rw [prepare_result e hq, prepare_result e hq, hc, Circuit.check_eq_ok_iff.2 hv.exchange, hfinal]
  · intro hw hmem
    exact ⟨_, prepare_valid hq hv hw hmem, hfinal ▸ prepare_valid hq hv.exchange hw hmem⟩

/-- Two flips with one control, and two flips with one target, between operations on other qubits. -/
theorem prepare_exchange_flips :
    let e : Engine (Exact (√2)⁻¹) := ⟨Exact.settings⟩
    let run (a b : Operation) := (e.prepare ⟨3, [.single .h ⟨1⟩, a, b, .single .y ⟨0⟩]⟩).result
    (Operation.cnot ⟨1⟩ ⟨0⟩).Exchangeable (.cnot ⟨1⟩ ⟨2⟩) ∧
    (∃ final, run (.cnot ⟨1⟩ ⟨0⟩) (.cnot ⟨1⟩ ⟨2⟩) = .ok final ∧
      run (.cnot ⟨1⟩ ⟨2⟩) (.cnot ⟨1⟩ ⟨0⟩) = .ok final) ∧
    (Operation.cnot ⟨0⟩ ⟨2⟩).Exchangeable (.cnot ⟨1⟩ ⟨2⟩) ∧
    (∃ final, run (.cnot ⟨0⟩ ⟨2⟩) (.cnot ⟨1⟩ ⟨2⟩) = .ok final ∧
      run (.cnot ⟨1⟩ ⟨2⟩) (.cnot ⟨0⟩ ⟨2⟩) = .ok final) := by
  intro e run
  have hcontrol : (Operation.cnot ⟨1⟩ ⟨0⟩).Exchangeable (.cnot ⟨1⟩ ⟨2⟩) := by decide
  have htarget : (Operation.cnot ⟨0⟩ ⟨2⟩).Exchangeable (.cnot ⟨1⟩ ⟨2⟩) := by decide
  exact ⟨hcontrol, (prepare_exchange Exact.validate_settings [.single .h ⟨1⟩] _ rfl hcontrol).2
      (by decide) (by decide),
    htarget, (prepare_exchange Exact.validate_settings [.single .h ⟨1⟩] _ rfl htarget).2
      (by decide) (by decide)⟩

end Engine

end KetSim
