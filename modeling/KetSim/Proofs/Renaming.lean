import KetSim.Proofs.LabelSemantics
import Mathlib.Data.Nat.Bitwise
import Mathlib.Logic.Equiv.Defs
/-!
# Renaming the qubits of a register

No place of a register is special. If the qubits of a circuit are renamed by a permutation, every
coefficient moves to the label whose digits are moved by the same permutation, and is computed by
the very same additions and multiplications (`Engine.run_rename`), although a gate on another place
pairs other indices and visits them in another order. What carries this is that renaming turns the
partner of an index into the partner of the renamed index (`Index.Renames.flip`).
-/
namespace KetSim
open Index StateVector

variable {n : Nat} {π : Equiv.Perm (Fin n)}

/-! ## Qubits and operations -/

/-- The qubit under its new name. A qubit outside the register keeps its own. -/
def Qubit.rename (π : Equiv.Perm (Fin n)) (q : Qubit) : Qubit :=
  if hq : q.index < n then ⟨π ⟨q.index, hq⟩⟩ else q

theorem Qubit.rename_of_lt {q : Qubit} (hq : q.index < n) : q.rename π = ⟨π ⟨q.index, hq⟩⟩ :=
  dif_pos hq

theorem Qubit.rename_lt {q : Qubit} (hq : q.index < n) : (q.rename π).index < n := by
  rw [rename_of_lt hq]
  exact Fin.isLt _

theorem Qubit.rename_inj {p q : Qubit} (hp : p.index < n) (hq : q.index < n) :
    p.rename π = q.rename π ↔ p = q := by
  constructor
  · intro e
    rw [rename_of_lt hp, rename_of_lt hq, mk.injEq, Fin.val_inj, π.injective.eq_iff,
      Fin.mk.injEq] at e
    cases p
    cases q
    simpa using e
  · rintro rfl
    rfl

/-- Every qubit of the register is the new name of one. -/
theorem Qubit.exists_rename {p : Qubit} (hp : p.index < n) :
    ∃ q : Qubit, q.index < n ∧ q.rename π = p := by
  refine ⟨⟨π.symm ⟨p.index, hp⟩⟩, Fin.isLt _, ?_⟩
  rw [rename_of_lt (Fin.isLt _)]
  simp

def Operation.rename (π : Equiv.Perm (Fin n)) (op : Operation) : Operation :=
  ⟨op.gate, op.targets.map (Qubit.rename π)⟩

theorem Operation.Fits.rename {op : Operation} (hop : op.Fits n) : (op.rename π).Fits n :=
  hop.map (fun _ hq => Qubit.rename_lt hq) fun _ _ hp hq e => (Qubit.rename_inj hp hq).1 e

theorem Circuit.Valid.rename {ops : List Operation} (hc : Circuit.Valid ⟨n, ops⟩) :
    Circuit.Valid ⟨n, ops.map (Operation.rename π)⟩ := by
  refine ⟨hc.width_pos, fun op hop => ?_⟩
  obtain ⟨old, hold, rfl⟩ := List.mem_map.1 hop
  exact (hc.fits old hold).rename

/-! ## Indices and labels -/

/-- The second index has at the new place of every qubit the bit that the first has at the old
one. -/
def Index.Renames (π : Equiv.Perm (Fin n)) (i j : Nat) : Prop :=
  ∀ q : Qubit, q.index < n → j.testBit ((q.rename π).place n) = i.testBit (q.place n)

/-- The second label has for the new name of every qubit the digit that the first has for the old
one. -/
def Ket.Renames (π : Equiv.Perm (Fin n)) (s s' : String) : Prop :=
  ∀ q : Qubit, q.index < n → digit s' (q.rename π) = digit s q

theorem Ket.renames_label {i j : Nat} (hi : i < 2 ^ n) (hj : j < 2 ^ n) :
    Renames π (label i n) (label j n) ↔ Index.Renames π i j := by
  refine forall_congr' fun q => forall_congr' fun hq => ?_
  rw [digit_label hi hq, digit_label hj (Qubit.rename_lt hq)]
  exact ⟨digitOf_injective, fun e => by rw [e]⟩

namespace Index

theorem Renames.flip {i j : Nat} (hij : Renames π i j) {q : Qubit} (hq : q.index < n) :
    Renames π (flip (q.place n) i) (flip ((q.rename π).place n) j) := by
  intro p hp
  have hplace : (q.rename π).place n = (p.rename π).place n ↔ q.place n = p.place n := by
    rw [Qubit.place_inj (Qubit.rename_lt hq) (Qubit.rename_lt hp), Qubit.rename_inj hq hp,
      Qubit.place_inj hq hp]
  rw [testBit_flip, testBit_flip, hij p hp, decide_eq_decide.2 hplace]

theorem Renames.unique {i j j' : Nat} (hj : j < 2 ^ n) (hj' : j' < 2 ^ n) (hij : Renames π i j)
    (hij' : Renames π i j') : j' = j := by
  refine eq_of_testBit_place hj' hj fun p hp => ?_
  obtain ⟨q, hq, rfl⟩ := Qubit.exists_rename (π := π) hp
  rw [hij q hq, hij' q hq]

/-- Every index can be renamed. -/
theorem exists_renames {i : Nat} : ∃ j < 2 ^ n, Renames π i j := by
  -- the bit at the place of a qubit is the one that its old name has
  let bit (k : Fin n) : Bool := i.testBit (Qubit.place n ⟨π.symm k.rev⟩)
  refine ⟨Nat.ofBits bit, Nat.ofBits_lt_two_pow bit, fun q hq => ?_⟩
  have hplace := Qubit.place_lt (Qubit.rename_lt (π := π) hq)
  have hrev : Fin.rev ⟨(q.rename π).place n, hplace⟩ = π ⟨q.index, hq⟩ := by
    have := (π ⟨q.index, hq⟩).isLt
    ext
    simp only [Fin.val_rev, Qubit.place, Qubit.rename_of_lt hq]
    omega
  rw [Nat.testBit_ofBits_lt bit _ hplace]
  simp only [bit, hrev, Equiv.symm_apply_apply]

theorem Renames.eq_zero_iff {i j : Nat} (hi : i < 2 ^ n) (hj : j < 2 ^ n) (hij : Renames π i j) :
    j = 0 ↔ i = 0 := by
  constructor
  · rintro rfl
    refine eq_of_testBit_place hi hj fun q hq => ?_
    rw [← hij q hq, Nat.zero_testBit, Nat.zero_testBit]
  · rintro rfl
    refine Renames.unique (Nat.two_pow_pos n) hj (fun q _ => ?_) hij
    rw [Nat.zero_testBit, Nat.zero_testBit]

end Index

/-! ## Coefficients -/

section
variable {A : Type} [Coefficient A]

/-- The second coefficients are the first ones at the renamed indices. -/
def Moved (π : Equiv.Perm (Fin n)) (f g : Nat → A) : Prop :=
  ∀ i j, i < 2 ^ n → j < 2 ^ n → Index.Renames π i j → g j = f i

namespace Moved
variable {f g : Nat → A}

theorem zeroDigits : Moved π (zeroDigits : Nat → A) zeroDigits := by
  intro i j hi hj hij
  simp only [KetSim.zeroDigits, hij.eq_zero_iff hi hj]

/-- A renamed gate mixes the renamed pairs, each as the gate mixes the pair itself. -/
theorem mixed (hfg : Moved π f g) (m : Gate.Matrix A) {q : Qubit} (hq : q.index < n) :
    Moved π (mixed m (q.place n) f) (mixed m ((q.rename π).place n) g) := by
  intro i j hi hj hij
  have hplace := Qubit.place_lt hq
  have hplace' := Qubit.place_lt (Qubit.rename_lt (π := π) hq)
  rw [StateVector.mixed, StateVector.mixed, hij q hq, hfg i j hi hj hij,
    hfg _ _ (flip_lt hplace hi) (flip_lt hplace' hj) (hij.flip hq)]

theorem act (hfg : Moved π f g) {op : Operation} (hop : op.Fits n) :
    Moved π (op.act n f) ((op.rename π).act n g) := by
  rcases hop.cases with ⟨G, q, rfl, hG, hq⟩ | ⟨c, t, rfl, hc, ht, -⟩
  · show Moved π _ ((Operation.single G (q.rename π)).act n g)
    rw [Operation.act_single hG, Operation.act_single hG]
    exact hfg.mixed _ hq
  · intro i j hi hj hij
    show (Operation.cnot (c.rename π) (t.rename π)).act n g j = _
    rw [Operation.act_cnot, Operation.act_cnot, mixedWhere, mixedWhere, hij c hc,
      hfg.mixed _ ht i j hi hj hij, hfg i j hi hj hij]

theorem evolve {ops : List Operation} (hops : ∀ op ∈ ops, op.Fits n) (hfg : Moved π f g) :
    Moved π (evolve n ops f) (evolve n (ops.map (Operation.rename π)) g) := by
  induction ops generalizing f g with
  | nil => exact hfg
  | cons op ops ih =>
    obtain ⟨hop, hrest⟩ := List.forall_mem_cons.1 hops
    exact ih hrest (hfg.act hop)

end Moved
end

/-! ## State vectors -/

/-- Every value of the first table stands in the second one at the label with renamed digits. -/
structure Ket.Moves {A : Type} (π : Equiv.Perm (Fin n)) (amps amps' : Array A) : Prop where
  exists_at : ∀ s a, At amps n s a → ∃ s', Renames π s s' ∧ At amps' n s' a
  eq_of_at : ∀ s s' a a', Renames π s s' → At amps n s a → At amps' n s' a' → a' = a

/-- The second state vector of a register is the first one with its qubits renamed. -/
structure StateVector.Renamed {A : Type} (π : Equiv.Perm (Fin n)) (s s' : StateVector A) :
    Prop where
  width_eq : s.width = n
  width_eq' : s'.width = n
  size_eq : s.amplitudes.size = 2 ^ n
  size_eq' : s'.amplitudes.size = 2 ^ n
  moves : Ket.Moves π s.amplitudes s'.amplitudes

theorem Ket.moves_iff {A : Type} {amps amps' : Array A} {f g : Nat → A} (hf : Holds amps n f)
    (hg : Holds amps' n g) : Moves π amps amps' ↔ Moved π f g := by
  constructor
  · intro h i j hi hj hij
    exact h.eq_of_at (label i n) (label j n) _ _ ((renames_label hi hj).2 hij)
      ((at_iff_of_holds hf).2 ⟨i, hi, rfl, rfl⟩) ((at_iff_of_holds hg).2 ⟨j, hj, rfl, rfl⟩)
  · intro h
    refine ⟨fun s a hs => ?_, fun s s' a a' hren hs hs' => ?_⟩
    · obtain ⟨i, hi, rfl, rfl⟩ := (at_iff_of_holds hf).1 hs
      obtain ⟨j, hj, hij⟩ := Index.exists_renames (π := π) (i := i)
      exact ⟨label j n, (renames_label hi hj).2 hij,
        (at_iff_of_holds hg).2 ⟨j, hj, rfl, h i j hi hj hij⟩⟩
    · obtain ⟨i, hi, rfl, rfl⟩ := (at_iff_of_holds hf).1 hs
      obtain ⟨j, hj, rfl, rfl⟩ := (at_iff_of_holds hg).1 hs'
      exact h i j hi hj ((renames_label hi hj).1 hren)

/-- The register all of whose digits are zero stays the same when its qubits are renamed. -/
theorem StateVector.renamed_of_zeroDigits {A : Type} [Coefficient A] {s : StateVector A}
    (hw : s.width = n) (hs : Holds s.amplitudes n zeroDigits) : s.Renamed π s :=
  ⟨hw, hw, hs.size_eq, hs.size_eq, (Ket.moves_iff hs hs).2 Moved.zeroDigits⟩

/-- Renamed operations on a renamed state lead to the renamed result. -/
theorem StateVector.Renamed.applyAll {A : Type} [Coefficient A] (hn : n < 64)
    {s s' : StateVector A} (hs : s.Renamed π s') {ops : List Operation}
    (hops : ∀ op ∈ ops, op.Fits n) :
    ∃ t t', s.applyAll ops = .ok t ∧ s'.applyAll (ops.map (Operation.rename π)) = .ok t' ∧
      t.Renamed π t' := by
  obtain ⟨_, amps⟩ := s
  obtain ⟨w, amps'⟩ := s'
  obtain ⟨rfl, rfl, hsize, hsize', hmoves⟩ := hs
  have hf := holds_coefficient (s := ⟨w, amps⟩) hsize
  have hg := holds_coefficient (s := ⟨w, amps'⟩) hsize'
  have hren : ∀ op ∈ ops.map (Operation.rename π), op.Fits w := by
    simp only [List.mem_map]
    rintro _ ⟨op, hop, rfl⟩
    exact (hops op hop).rename
  obtain ⟨t, et, hw, ht⟩ := applyAll_holds hf hops fun op hop => (hops op hop).inWord hn
  obtain ⟨t', et', hw', ht'⟩ := applyAll_holds hg hren fun op hop => (hren op hop).inWord hn
  have hmoved := ((Ket.moves_iff hf hg).1 hmoves).evolve hops
  exact ⟨t, t', et, et', hw, hw', ht.size_eq, ht'.size_eq, (Ket.moves_iff ht ht').2 hmoved⟩

/-! ## Runs -/

namespace Engine

/-- **All qubits are alike.** Renaming the qubits of a state and of the operations on it renames the
qubits of the result, whatever the arithmetic is. So a checked circuit with renamed qubits is run,
or refused, like the circuit itself, and the amplitude at a label is then found at the label with
renamed digits. -/
theorem run_rename (π : Equiv.Perm (Fin n)) :
    (∀ {A : Type} [Coefficient A] (s s' : StateVector A) (ops : List Operation),
      n < 64 → s.Renamed π s' → (∀ op ∈ ops, op.Fits n) →
      ∃ t t', s.applyAll ops = .ok t ∧ s'.applyAll (ops.map (Operation.rename π)) = .ok t' ∧
        t.Renamed π t') ∧
    (∀ {R : Type} [Scalar R] (e : Engine R) (ops : List Operation),
      e.settings.validate = .ok () → (⟨n, ops⟩ : Circuit).check (R := R) = .ok () →
      if n ≤ e.settings.maxQubits ∧ 2 ^ n ≤ StateVector.maxEntries then
        ∃ amps amps', (e.backend.run ⟨n, ops⟩).result = .ok amps ∧
          (e.backend.run ⟨n, ops.map (Operation.rename π)⟩).result = .ok amps' ∧
          Ket.Moves π amps amps'
      else (e.backend.run ⟨n, ops.map (Operation.rename π)⟩).result =
        (e.backend.run ⟨n, ops⟩).result) := by
  refine ⟨fun s s' ops hn hs hops => hs.applyAll hn hops, fun {R} _ e ops he hc => ?_⟩
  have hq : e.settings.maxQubits ≤ 63 := (Settings.maxQubits_of_validate he).2
  have hv : Circuit.Valid ⟨n, ops⟩ := Circuit.check_eq_ok_iff.1 hc
  have hc' := Circuit.check_eq_ok_iff (R := R).2 (hv.rename (π := π))
  split
  · rename_i hheld
    have hfinal := Circuit.holds_finalState (A := Amplitude R) ⟨n, ops⟩
    have hfinal' := Circuit.holds_finalState (A := Amplitude R)
      ⟨n, ops.map (Operation.rename π)⟩
    exact ⟨_, _, run_valid hq hv hheld.1 hheld.2, run_valid hq hv.rename hheld.1 hheld.2,
      (Ket.moves_iff hfinal hfinal').2 (Moved.zeroDigits.evolve hv.fits)⟩
  · rename_i hheld
    rw [run_result e hq, run_result e hq, hc, hc']
    by_cases hw : e.settings.maxQubits < n
    · rw [if_pos hw, if_pos hw]
    · have hmem : ¬ 2 ^ n ≤ StateVector.maxEntries := fun hmem => hheld ⟨by omega, hmem⟩
      rw [if_neg hw, if_neg hw]
      show (if 2 ^ n ≤ StateVector.maxEntries then _ else _) =
        if 2 ^ n ≤ StateVector.maxEntries then _ else _
      rw [if_neg hmem, if_neg hmem]

/-- A control that stands after its target, and before it once the two have changed places. -/
theorem run_rename_entangled :
    let π : Equiv.Perm (Fin 2) := Equiv.swap 0 1
    let ops : List Operation := [.single .h ⟨1⟩, .cnot ⟨1⟩ ⟨0⟩]
    let ops' : List Operation := [.single .h ⟨0⟩, .cnot ⟨0⟩ ⟨1⟩]
    ops.map (Operation.rename π) = ops' ∧
    (∃ s : StateVector (Amplitude Float), StateVector.zeroState 2 = .ok s ∧
      ∃ t t', s.applyAll ops = .ok t ∧ s.applyAll ops' = .ok t' ∧ t.Renamed π t') ∧
    ∃ amps amps', (Engine.standard.backend.run ⟨2, ops⟩).result = .ok amps ∧
      (Engine.standard.backend.run ⟨2, ops'⟩).result = .ok amps' ∧ Ket.Moves π amps amps' := by
  intro π ops ops'
  have hc : (⟨2, ops⟩ : Circuit).check (R := Float) = .ok () := rfl
  obtain ⟨s, e, hw, hs⟩ := zeroState_holds (A := Amplitude Float) (n := 2) (by decide) (by decide)
  have hzero : s.Renamed π s := renamed_of_zeroDigits hw hs
  have hrun := (run_rename π).2 Engine.standard ops rfl hc
  rw [if_pos (by decide)] at hrun
  exact ⟨by decide, ⟨s, e, (run_rename π).1 s s ops (by decide) hzero
    (Circuit.check_eq_ok_iff.1 hc).fits⟩, hrun⟩

end Engine

end KetSim
