import KetSim.Engine
import KetSim.Proofs.Fitting
import KetSim.Proofs.Kernels
/-!
# Runs of the engine

A state vector is read as a function from basis indices to coefficients. On a register of the right
length an operation that fits does what `Operation.act` says, a list of them does it in order
(`StateVector.applyAll_holds`), and so an engine either refuses a circuit for one of its reasons or
prepares the state `Circuit.finalState`, with no operation ever leaving its domain
(`Engine.prepare_result`).
-/
namespace KetSim

section
variable {A : Type} [Coefficient A]
open StateVector

/-- What an operation makes of the coefficients of a register. -/
def Operation.act (width : Nat) (op : Operation) (f : Nat → A) : Nat → A :=
  match op.control?, op.target? with
  | some c, some t => mixedWhere op.gate.matrix (c.place width) (t.place width) f
  | none, some t => mixed op.gate.matrix (t.place width) f
  | _, none => f

@[simp] theorem Operation.act_single {width : Nat} {g : Gate} {q : Qubit} (hg : g ≠ .cnot)
    (f : Nat → A) : (single g q).act width f = mixed g.matrix (q.place width) f := by
  rw [act, control?_single hg, target?_single]
  rfl

@[simp] theorem Operation.act_cnot (width : Nat) (c t : Qubit) (f : Nat → A) :
    (cnot c t).act width f = mixedWhere Gate.cnot.matrix (c.place width) (t.place width) f := rfl

/-- The bits that the operation asks for have a place in a word. Inserting a bit takes one place
more than masking it. -/
def Operation.InWord (width : Nat) (op : Operation) : Prop :=
  match op.control?, op.target? with
  | some c, some t => c.place width < 64 ∧ t.place width < 64
  | none, some t => t.place width + 1 < 64
  | _, none => True

theorem Operation.inWord_single {width : Nat} {g : Gate} {q : Qubit} (hg : g ≠ .cnot) :
    (single g q).InWord width ↔ q.place width + 1 < 64 := by
  rw [InWord, control?_single hg, target?_single]

theorem Operation.inWord_cnot {width : Nat} {c t : Qubit} :
    (cnot c t).InWord width ↔ c.place width < 64 ∧ t.place width < 64 := Iff.rfl

/-- A register whose indices fit a word has all its bits there. -/
theorem Operation.Fits.inWord {width : Nat} {op : Operation} (hop : op.Fits width)
    (hw : width < 64) : op.InWord width := by
  rcases hop.cases with ⟨g, q, rfl, hg, hq⟩ | ⟨c, t, rfl, hc, ht, -⟩
  · have := Qubit.place_lt hq
    exact (inWord_single hg).2 (by omega)
  · have := Qubit.place_lt hc
    have := Qubit.place_lt ht
    exact inWord_cnot.2 ⟨by omega, by omega⟩

/-- What operations make of the coefficients one after the other. -/
def evolve (width : Nat) (ops : List Operation) (f : Nat → A) : Nat → A :=
  ops.foldl (fun f op => op.act width f) f

@[simp] theorem evolve_nil (width : Nat) (f : Nat → A) : evolve width [] f = f := rfl

@[simp] theorem evolve_cons (width : Nat) (op : Operation) (ops : List Operation) (f : Nat → A) :
    evolve width (op :: ops) f = evolve width ops (op.act width f) := rfl

theorem evolve_append (width : Nat) (ops rest : List Operation) (f : Nat → A) :
    evolve width (ops ++ rest) f = evolve width rest (evolve width ops f) := List.foldl_append

/-- What every operation keeps, all of them keep. -/
theorem evolve_invariant {width : Nat} {P : (Nat → A) → Prop} {ops : List Operation}
    (hstep : ∀ op ∈ ops, ∀ f, P f → P (op.act width f)) {f : Nat → A} (hf : P f) :
    P (evolve width ops f) := by
  induction ops generalizing f with
  | nil => exact hf
  | cons op ops ih =>
    obtain ⟨hop, hrest⟩ := List.forall_mem_cons.1 hstep
    exact ih hrest (hop f hf)

/-- The coefficients of the register all of whose digits are zero. -/
def zeroDigits (i : Nat) : A := if i = 0 then 1 else 0

/-- The coefficients after all operations of a circuit. -/
def Circuit.amplitude (c : Circuit) : Nat → A := evolve c.width c.operations zeroDigits

def Circuit.finalState (c : Circuit) : StateVector A :=
  ⟨c.width, Array.ofFn fun i : Fin (2 ^ c.width) => c.amplitude i⟩

@[simp] theorem Circuit.size_finalState (c : Circuit) :
    (c.finalState : StateVector A).amplitudes.size = 2 ^ c.width := Array.size_ofFn

theorem Circuit.holds_finalState (c : Circuit) :
    Holds (c.finalState : StateVector A).amplitudes c.width c.amplitude :=
  ⟨c.size_finalState, fun i hi => by simp [finalState, hi]⟩

/-- The coefficients of a final state, as they stand in the list that is handed on. -/
theorem Circuit.of_getElem?_finalState {c : Circuit} {i : Nat} {a : A}
    (h : (c.finalState : StateVector A).amplitudes.toList[i]? = some a) :
    i < 2 ^ c.width ∧ a = c.amplitude i := by
  rw [Array.getElem?_toList] at h
  have hi : i < 2 ^ c.width := c.size_finalState (A := A) ▸ (Array.getElem?_eq_some_iff.1 h).1
  rw [c.holds_finalState.getElem?_eq i hi] at h
  exact ⟨hi, (Option.some.inj h).symm⟩

/-! ## Operations on state vectors -/

namespace StateVector

theorem apply_holds {s : StateVector A} {f : Nat → A} (h : Holds s.amplitudes s.width f)
    {op : Operation} (hop : op.Fits s.width) (hw : op.InWord s.width) :
    ∃ s', s.apply op = .ok s' ∧ s'.width = s.width ∧
      Holds s'.amplitudes s.width (op.act s.width f) := by
  rcases hop.cases with ⟨g, q, rfl, hg, hq⟩ | ⟨c, t, rfl, hc, ht, hct⟩
  · obtain ⟨out, e, ho⟩ :=
      mixAll_holds g.matrix h (Qubit.place_lt hq) ((Operation.inWord_single hg).1 hw)
    refine ⟨{ s with amplitudes := out }, ?_, rfl, by rwa [Operation.act_single hg]⟩
    simp only [apply, Operation.control?_single hg, Operation.target?_single,
      Qubit.bitPosition_of_lt hq, bind, Except.bind]
    rw [show (Operation.single g q).gate = g from rfl, e]
    rfl
  · obtain ⟨hcw, htw⟩ := Operation.inWord_cnot.1 hw
    obtain ⟨out, e, ho⟩ := mixControlled_holds Gate.cnot.matrix h (Qubit.place_lt ht)
      (Qubit.place_ne hc ht hct) hcw htw
    refine ⟨{ s with amplitudes := out }, ?_, rfl, ho⟩
    simp only [apply, Operation.control?_cnot, Operation.target?_cnot,
      Qubit.bitPosition_of_lt hc, Qubit.bitPosition_of_lt ht, bind, Except.bind]
    rw [show (Operation.cnot c t).gate = .cnot from rfl, e]
    rfl

theorem applyAll_holds {ops : List Operation} {s : StateVector A} {f : Nat → A}
    (h : Holds s.amplitudes s.width f) (hops : ∀ op ∈ ops, op.Fits s.width)
    (hw : ∀ op ∈ ops, op.InWord s.width) :
    ∃ s', s.applyAll ops = .ok s' ∧ s'.width = s.width ∧
      Holds s'.amplitudes s.width (evolve s.width ops f) := by
  induction ops generalizing s f with
  | nil => exact ⟨s, rfl, rfl, h⟩
  | cons op ops ih =>
    obtain ⟨hop, hrest⟩ := List.forall_mem_cons.1 hops
    obtain ⟨hopw, hrestw⟩ := List.forall_mem_cons.1 hw
    obtain ⟨s₁, e₁, hw₁, h₁⟩ := apply_holds h hop hopw
    rw [← hw₁] at h₁ hrest hrestw
    obtain ⟨s', e', hw', h'⟩ := ih h₁ hrest hrestw
    refine ⟨s', ?_, hw'.trans hw₁, by rw [← hw₁]; exact h'⟩
    rw [applyAll, List.foldlM_cons, e₁]
    exact e'

/-! ## State vectors from which operations come back -/

def coefficient (s : StateVector A) (i : Nat) : A := s.amplitudes.getD i 0

theorem holds_coefficient {s : StateVector A} (h : s.amplitudes.size = 2 ^ s.width) :
    Holds s.amplitudes s.width s.coefficient := by
  refine ⟨h, fun i hi => ?_⟩
  rw [← h] at hi
  simp [coefficient, hi]

theorem coefficient_of_holds {s : StateVector A} {n : Nat} {f : Nat → A}
    (h : Holds s.amplitudes n f) {i : Nat} (hi : i < 2 ^ n) : s.coefficient i = f i := by
  rw [coefficient, Array.getD_eq_getD_getElem?, h.getElem?_eq i hi, Option.getD_some]

theorem coefficient_finalState {c : Circuit} {i : Nat} (hi : i < 2 ^ c.width) :
    (c.finalState : StateVector A).coefficient i = c.amplitude i := by
  simp [coefficient, Circuit.finalState, hi]

omit [Coefficient A] in
/-- A state vector is determined by its width and its coefficients. -/
theorem eq_of_holds {s s' : StateVector A} {n : Nat} {f : Nat → A} (hw : s.width = s'.width)
    (h : Holds s.amplitudes n f) (h' : Holds s'.amplitudes n f) : s = s' := by
  obtain ⟨w, amps⟩ := s
  obtain ⟨w', amps'⟩ := s'
  simp only at hw h h'
  rw [hw, h.eq_ofFn, h'.eq_ofFn]

/-- An operation that fits and gives a result found all its bits in a word. -/
theorem inWord_of_apply {s s' : StateVector A} {op : Operation} (hop : op.Fits s.width)
    (e : s.apply op = .ok s') : op.InWord s.width := by
  rcases hop.cases with ⟨g, q, rfl, hg, hq⟩ | ⟨c, t, rfl, hc, ht, -⟩
  · simp only [apply, Operation.control?_single hg, Operation.target?_single,
      Qubit.bitPosition_of_lt hq, bind, Except.bind] at e
    split at e
    · cases e
    · rename_i hmix
      exact (Operation.inWord_single hg).2 (word_of_mixAll hmix)
  · simp only [apply, Operation.control?_cnot, Operation.target?_cnot,
      Qubit.bitPosition_of_lt hc, Qubit.bitPosition_of_lt ht, bind, Except.bind] at e
    split at e
    · cases e
    · rename_i hmix
      exact Operation.inWord_cnot.2 (word_of_mixControlled hmix)

theorem holds_of_apply {s s' : StateVector A} {f : Nat → A} (h : Holds s.amplitudes s.width f)
    {op : Operation} (hop : op.Fits s.width) (e : s.apply op = .ok s') :
    s'.width = s.width ∧ Holds s'.amplitudes s.width (op.act s.width f) := by
  obtain ⟨_, e', hw, h'⟩ := apply_holds h hop (inWord_of_apply hop e)
  obtain rfl := Except.ok.inj (e'.symm.trans e)
  exact ⟨hw, h'⟩

theorem applyAll_cons (s : StateVector A) (op : Operation) (ops : List Operation) :
    s.applyAll (op :: ops) = s.apply op >>= fun s => s.applyAll ops := List.foldlM_cons

theorem applyAll_append (s : StateVector A) (ops rest : List Operation) :
    s.applyAll (ops ++ rest) = s.applyAll ops >>= fun s => s.applyAll rest := List.foldlM_append

theorem inWord_of_applyAll {ops : List Operation} {s s' : StateVector A}
    (h : s.amplitudes.size = 2 ^ s.width) (hops : ∀ op ∈ ops, op.Fits s.width)
    (e : s.applyAll ops = .ok s') : ∀ op ∈ ops, op.InWord s.width := by
  induction ops generalizing s with
  | nil => simp
  | cons op ops ih =>
    obtain ⟨hop, hrest⟩ := List.forall_mem_cons.1 hops
    rw [applyAll_cons] at e
    cases e₁ : s.apply op with
    | error fault => rw [e₁] at e; cases e
    | ok s₁ =>
      rw [e₁] at e
      obtain ⟨hw₁, h₁⟩ := holds_of_apply (holds_coefficient h) hop e₁
      rw [← hw₁] at hrest
      refine List.forall_mem_cons.2 ⟨inWord_of_apply hop e₁, ?_⟩
      rw [← hw₁]
      exact ih (by rw [h₁.size_eq, hw₁]) hrest e

theorem holds_of_applyAll {ops : List Operation} {s s' : StateVector A} {f : Nat → A}
    (h : Holds s.amplitudes s.width f) (hops : ∀ op ∈ ops, op.Fits s.width)
    (e : s.applyAll ops = .ok s') :
    s'.width = s.width ∧ Holds s'.amplitudes s.width (evolve s.width ops f) := by
  obtain ⟨_, e', hw, h'⟩ := applyAll_holds h hops (inWord_of_applyAll h.size_eq hops e)
  obtain rfl := Except.ok.inj (e'.symm.trans e)
  exact ⟨hw, h'⟩

/-- A register that can be held starts with all digits zero. -/
theorem zeroState_holds {n : Nat} (hn : n < 64) (hmem : 2 ^ n ≤ maxEntries) :
    ∃ s : StateVector A, zeroState n = .ok s ∧ s.width = n ∧ Holds s.amplitudes n zeroDigits := by
  refine ⟨⟨n, (Array.replicate (2 ^ n) 0).setIfInBounds 0 1⟩, ?_, rfl, by simp, fun i hi => ?_⟩
  · rw [zeroState, bitMask_of_lt hn, Nat.one_shiftLeft]
    simp only [bind, Except.bind, if_pos hmem]
    rfl
  · rw [Array.getElem?_setIfInBounds, zeroDigits]
    by_cases h0 : 0 = i
    · subst h0; simp
    · simp [h0, Ne.symm h0, hi]

theorem zeroState_too_large {n : Nat} (hn : n < 64) (hmem : ¬ 2 ^ n ≤ maxEntries) :
    (zeroState n : Except Fault (StateVector A)) = .error .unaddressable := by
  rw [zeroState, bitMask_of_lt hn, Nat.one_shiftLeft]
  simp only [bind, Except.bind, if_neg hmem]
  rfl

/-- The run of a valid circuit from the all-zero register. -/
theorem applyAll_zeroState {c : Circuit} (hw : c.width < 64) (hc : c.Valid)
    (hmem : 2 ^ c.width ≤ maxEntries) :
    ∃ s : StateVector A,
      zeroState c.width = .ok s ∧ s.applyAll c.operations = .ok c.finalState := by
  obtain ⟨s, es, hsw, hs⟩ := zeroState_holds (A := A) hw hmem
  rw [← hsw] at hs
  obtain ⟨⟨w, amps⟩, e', hw', hs'⟩ := applyAll_holds hs (by rw [hsw]; exact hc.fits)
    (by rw [hsw]; exact fun op hop => (hc.fits op hop).inWord hw)
  refine ⟨s, es, ?_⟩
  simp only at hw' hs'
  rw [e', Circuit.finalState, hs'.eq_ofFn, hw', hsw]
  rfl

end StateVector

end

/-! ## The engine -/

variable {R : Type} [Scalar R]

theorem Settings.maxQubits_of_validate {s : Settings R} (h : s.validate = .ok ()) :
    1 ≤ s.maxQubits ∧ s.maxQubits ≤ 63 := by
  rw [Settings.validate] at h
  split at h
  · cases h
  · rename_i hq
    simp only [qubitLimit, not_or] at hq
    omega

namespace Engine

/-- An engine refuses what is too wide, what does not fit and what cannot be held, in this order,
and prepares the final state of everything else. -/
theorem prepare_result (e : Engine R) (he : e.settings.maxQubits ≤ 63) (c : Circuit) :
    (e.prepare c).result =
      if e.settings.maxQubits < c.width then
        .error (.registerTooWide c.width e.settings.maxQubits)
      else c.check >>= fun _ =>
        if 2 ^ c.width ≤ StateVector.maxEntries then .ok c.finalState
        else .error (.fault .unaddressable) := by
  rw [prepare]
  split
  · rfl
  · rename_i hle
    cases hc : c.check (R := R) with
    | error e => rfl
    | ok u =>
      have hw : c.width < 64 := by omega
      have hv : c.Valid := Circuit.check_eq_ok_iff.1 hc
      show _ = if 2 ^ c.width ≤ StateVector.maxEntries then _ else _
      by_cases hmem : 2 ^ c.width ≤ StateVector.maxEntries
      · obtain ⟨start, es, ef⟩ := StateVector.applyAll_zeroState (A := Amplitude R) hw hv hmem
        rw [if_pos hmem]
        simp only [es, ef, Report.ofExcept_ok, Report.ofChecked_ok, pure_bind]
        -- the drift of the norm is reported and changes nothing
        split <;> rfl
      · rw [if_neg hmem, StateVector.zeroState_too_large hw hmem]
        rfl

/-- The four ways in which a preparation can end. -/
theorem prepare_cases {e : Engine R} (he : e.settings.maxQubits ≤ 63) (c : Circuit) :
    (e.settings.maxQubits < c.width ∧
      (e.prepare c).result = .error (.registerTooWide c.width e.settings.maxQubits)) ∨
    (∃ problem, c.check = .error problem ∧ (e.prepare c).result = .error problem) ∨
    (c.Valid ∧ StateVector.maxEntries < 2 ^ c.width ∧
      (e.prepare c).result = .error (.fault .unaddressable)) ∨
    (c.Valid ∧ (e.prepare c).result = .ok c.finalState) := by
  rw [prepare_result e he]
  by_cases hw : e.settings.maxQubits < c.width
  · exact .inl ⟨hw, if_pos hw⟩
  · rw [if_neg hw]
    cases hc : c.check (R := R) with
    | error problem => exact .inr (.inl ⟨problem, rfl, rfl⟩)
    | ok u =>
      have hv : c.Valid := Circuit.check_eq_ok_iff.1 hc
      by_cases hmem : 2 ^ c.width ≤ StateVector.maxEntries
      · exact .inr (.inr (.inr ⟨hv, if_pos hmem⟩))
      · exact .inr (.inr (.inl ⟨hv, by omega, if_neg hmem⟩))

/-- What an engine makes of a valid circuit that is not too wide and can be held. -/
theorem prepare_valid {e : Engine R} (he : e.settings.maxQubits ≤ 63) {c : Circuit} (hc : c.Valid)
    (hw : c.width ≤ e.settings.maxQubits) (hmem : 2 ^ c.width ≤ StateVector.maxEntries) :
    (e.prepare c).result = .ok c.finalState := by
  rw [prepare_result e he, if_neg (by omega), Circuit.check_eq_ok_iff.2 hc]
  exact if_pos hmem

/-- A state that an engine prepares is the final state of a valid circuit. -/
theorem eq_finalState_of_prepare {e : Engine R} (he : e.settings.maxQubits ≤ 63) {c : Circuit}
    {final : StateVector (Amplitude R)} (h : (e.prepare c).result = .ok final) :
    c.Valid ∧ final = c.finalState := by
  rcases prepare_cases he c with ⟨-, e'⟩ | ⟨_, -, e'⟩ | ⟨-, -, e'⟩ | ⟨hv, e'⟩
  · cases e'.symm.trans h
  · cases e'.symm.trans h
  · cases e'.symm.trans h
  · exact ⟨hv, (Except.ok.inj (e'.symm.trans h)).symm⟩

/-- All that an engine reports is the dimension of the state and, before that, the drift of its
norm. -/
theorem mem_events_prepare {e : Engine R} {c : Circuit} {event : Event R}
    (h : event ∈ (e.prepare c).events) :
    ∃ final, (e.prepare c).result = .ok final ∧
      (event = .statePrepared final.amplitudes.size ∨
        ∃ drift, Amplitude.checkNormalized e.settings.normalizationTolerance
          final.amplitudes.toList = .error drift ∧ event = .normDrifted drift) := by
  rw [prepare] at h ⊢
  split at h
  · cases h
  · rename_i hw
    rw [if_neg hw]
    cases hc : c.check (R := R) with
    | error misfit => simp [hc] at h
    | ok u =>
      cases hz : (StateVector.zeroState c.width : Except Fault (StateVector (Amplitude R))) with
      | error fault => simp [hc, hz] at h
      | ok start =>
        cases ha : start.applyAll c.operations with
        | error fault => simp [hc, hz, ha] at h
        | ok final =>
          simp only [hc, hz, ha, Report.ofExcept_ok, Report.ofChecked_ok, pure_bind] at h ⊢
          refine ⟨final, by split <;> rfl, ?_⟩
          split at h
          · rename_i drift hn
            rcases List.mem_cons.1 h with rfl | h
            · exact .inr ⟨drift, hn, rfl⟩
            · exact .inl (List.mem_singleton.1 h)
          · exact .inl (List.mem_singleton.1 h)

/-- What the engine answers as a backend. -/
theorem run_result (e : Engine R) (he : e.settings.maxQubits ≤ 63) (c : Circuit) :
    (e.backend.run c).result =
      if e.settings.maxQubits < c.width then
        .error (.registerTooWide c.width e.settings.maxQubits)
      else c.check >>= fun _ =>
        if 2 ^ c.width ≤ StateVector.maxEntries then .ok c.finalState.amplitudes
        else .error (.fault .unaddressable) := by
  show (e.prepare c >>= fun final => pure final.amplitudes).result = _
  rw [Report.result_bind, prepare_result e he]
  split
  · rfl
  · cases c.check (R := R) with
    | error problem => rfl
    | ok u =>
      show (if _ then _ else _) >>= _ = if _ then _ else _
      split <;> rfl

/-- The amplitudes of a valid circuit that is not too wide and can be held. -/
theorem run_valid {e : Engine R} (he : e.settings.maxQubits ≤ 63) {c : Circuit} (hc : c.Valid)
    (hw : c.width ≤ e.settings.maxQubits) (hmem : 2 ^ c.width ≤ StateVector.maxEntries) :
    (e.backend.run c).result = .ok c.finalState.amplitudes := by
  rw [run_result e he, if_neg (by omega), Circuit.check_eq_ok_iff.2 hc]
  exact if_pos hmem

end Engine

end KetSim
