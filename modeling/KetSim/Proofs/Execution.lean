import KetSim.Proofs.Emission
import KetSim.Proofs.Evolution
import KetSim.Proofs.Transform
import KetSim.Proofs.UnitNorm
import KetSim.Scalar.Machine
import KetSim.Session
/-!
# Executions from end to end

A program that is executed passes three stages: it is lowered to a circuit, the circuit is run, and
the amplitudes become a distribution. Each stage can refuse for one reason only, since what lowering
lets through the engine's own check lets through too and a state always has `2 ^ n` entries
(`Engine.execute_answers`). In exact arithmetic the last stage refuses nothing as long as the
tolerance is below one over the root of `2 ^ n`.
-/
namespace KetSim

/-! ## All stages -/

/-- Executing is lowering, running and transforming, whatever the backend. -/
theorem Backend.execute_result {R : Type} [Scalar R] (b : Backend R) (tolerance : Option R)
    (program : List Statement) :
    (b.execute tolerance program).result =
      (Circuit.ofStatements program).result >>= fun c => (b.run c).result >>= fun amps =>
        (Distribution.ofAmplitudes amps.toList (tolerance.getD b.zeroNormTolerance)).result >>=
          fun d => .ok ⟨c, d⟩ := by
  simp only [execute, Report.result_bind, Report.result_note]
  rfl

namespace Engine
variable {R : Type} [Scalar R]

/-- The register of a program can be held, if there is one and the engine takes it. -/
def CanHold (e : Engine R) (program : List Statement) : Prop :=
  ∀ c, (Circuit.ofStatements program : Report R Circuit).result = .ok c →
    c.width ≤ e.settings.maxQubits → 2 ^ c.width ≤ StateVector.maxEntries

/-- What an engine answers to a program: the first reason to refuse it, or a distribution of the
amplitudes of its circuit. The tolerance is the engine's own unless another one is given. -/
def Answers (e : Engine R) (tolerance : Option R) (program : List Statement)
    (answer : Except (Error R) (Execution R)) : Prop :=
  match (Circuit.ofStatements program : Report R Circuit).result with
  | .error problem => answer = .error problem
  | .ok c =>
    if e.settings.maxQubits < c.width then
      answer = .error (.registerTooWide c.width e.settings.maxQubits)
    else ∃ amps, (e.backend.run c).result = .ok amps ∧ amps.size = 2 ^ c.width ∧
      if Distribution.Rejects amps.toList (tolerance.getD e.settings.zeroNormTolerance) then
        answer = .error (.zeroNorm (2 ^ c.width))
      else ∃ d, answer = .ok ⟨c, d⟩ ∧ d.Lists c.width

theorem execute_answers {e : Engine R} (he : e.settings.validate = .ok ()) (tolerance : Option R)
    {program : List Statement} (hmem : e.CanHold program) :
    e.Answers tolerance program (e.backend.execute tolerance program).result := by
  have hq : e.settings.maxQubits ≤ 63 := (Settings.maxQubits_of_validate he).2
  rw [Answers, Backend.execute_result]
  cases hprogram : (Circuit.ofStatements program : Report R Circuit).result with
  | error problem => rfl
  | ok c =>
    have hc : c.Valid := Circuit.valid_of_ofStatements hprogram
    simp only [bind, Except.bind]
    by_cases hw : e.settings.maxQubits < c.width
    · rw [if_pos hw, run_result e hq, if_pos hw]
    · have hrun := run_valid hq hc (by omega) (hmem c hprogram (by omega))
      have hlen : (c.finalState : StateVector (Amplitude R)).amplitudes.toList.length =
          2 ^ c.width := c.size_finalState
      rw [if_neg hw, hrun]
      refine ⟨_, rfl, c.size_finalState, ?_⟩
      simp only [Distribution.result_ofAmplitudes hlen,
        show e.backend.zeroNormTolerance = e.settings.zeroNormTolerance from rfl]
      by_cases hr : Distribution.Rejects c.finalState.amplitudes.toList
          (tolerance.getD e.settings.zeroNormTolerance)
      · simp only [if_pos hr]
      · simp only [if_neg hr]
        exact ⟨_, rfl, Distribution.lists_normalized hlen⟩

end Engine

/-! ## What only a channel says -/

section
variable {R : Type}

/-- A program has no circuit if it declares no register, or for a misfit. -/
theorem Circuit.isMisfit_of_ofStatements {program : List Statement} {problem : Error R}
    (h : (ofStatements program : Report R Circuit).result = .error problem) :
    problem = .noRegister ∨ problem.IsMisfit := by
  rw [Reading.result_ofStatements, Reading.circuit] at h
  split at h
  · exact .inl (Except.error.inj h).symm
  · split at h
    · obtain rfl := Except.error.inj h
      exact .inr trivial
    · split at h
      · rename_i misfit hfound
        obtain rfl := Except.error.inj h
        obtain ⟨call, -, hcall⟩ := List.exists_of_findSome?_eq_some hfound
        rw [Reading.problem?] at hcall
        split at hcall
        · obtain rfl := Option.some.inj hcall
          exact .inr trivial
        · obtain ⟨⟨raw, i⟩, -, hraw⟩ := List.exists_of_findSome?_eq_some hcall
          simp only [Reading.operandProblem?] at hraw
          split at hraw
          · obtain rfl := Option.some.inj hraw
            exact .inr trivial
          · split at hraw
            · obtain rfl := Option.some.inj hraw
              exact .inr trivial
            · cases hraw
      · cases h

variable [Scalar R]

theorem Distribution.ofAmplitudes_ne_engineNotReady (amps : List (Amplitude R)) (tolerance : R) :
    (ofAmplitudes amps tolerance).result ≠ .error .engineNotReady := by
  by_cases hlen : 1 <<< amps.length.log2 = amps.length
  · rw [Nat.one_shiftLeft] at hlen
    rw [result_ofAmplitudes hlen.symm]
    split <;> simp
  · rw [ofAmplitudes, Report.result_bind, Report.result_ofExcept, Amplitude.qubitCount, if_neg hlen]
    split <;> exact fun h => by cases h

/-- The built-in engine is there once it answers. -/
theorem Engine.execute_ne_engineNotReady {e : Engine R} (he : e.settings.maxQubits ≤ 63)
    (tolerance : Option R) (program : List Statement) :
    (e.backend.execute tolerance program).result ≠ .error .engineNotReady := by
  intro h
  rw [Backend.execute_result] at h
  cases hprogram : (Circuit.ofStatements program : Report R Circuit).result with
  | error problem =>
    rw [hprogram] at h
    obtain rfl := Except.error.inj h
    rcases Circuit.isMisfit_of_ofStatements hprogram with he | he
    · cases he
    · exact he
  | ok c =>
    rw [hprogram] at h
    cases hrun : (e.backend.run c).result with
    | error problem =>
      simp only [hrun, bind, Except.bind] at h
      obtain rfl := Except.error.inj h
      rw [run_result e he] at hrun
      split at hrun
      · cases hrun
      · cases hc : c.check (R := R) with
        | error problem =>
          rw [hc] at hrun
          obtain rfl := Except.error.inj hrun
          exact Circuit.isMisfit_of_check hc
        | ok u =>
          simp only [hc, bind, Except.bind] at hrun
          split at hrun <;> cases hrun
    | ok amps =>
      simp only [hrun, bind, Except.bind] at h
      split at h
      · rename_i hd
        obtain rfl := Except.error.inj h
        exact Distribution.ofAmplitudes_ne_engineNotReady _ _ hd
      · cases h

end

/-! ## Exact arithmetic -/

section Exact
variable {h : ℝ}

/-- No state is taken for zero at a tolerance below the root mean square magnitude. -/
theorem Circuit.not_rejects (hh : 2 * h ^ 2 = 1) {c : Circuit} (hc : c.Valid)
    {tolerance : Exact h} (ht : tolerance.real < (√(2 ^ c.width))⁻¹) :
    ¬ Distribution.Rejects (c.finalState : StateVector (Amplitude (Exact h))).amplitudes.toList
      tolerance := by
  have htop := c.le_largestComponent hh hc
  have hpos : 0 < (√(2 ^ c.width))⁻¹ := by positivity
  rw [Distribution.rejects_iff]
  rintro (hzero | hsmall) <;> linarith

/-- The root mean square magnitude is the least tolerance at which some state of a register is taken
for zero. -/
theorem Circuit.never_rejects_iff (hh : 2 * h ^ 2 = 1) {n : Nat} (hn : 0 < n)
    (tolerance : Exact h) :
    (∀ c : Circuit, c.Valid → c.width = n → ¬ Distribution.Rejects
      (c.finalState : StateVector (Amplitude (Exact h))).amplitudes.toList tolerance) ↔
        tolerance.real < (√(2 ^ n))⁻¹ := by
  constructor
  · intro hall
    by_contra hle
    refine hall (spread n) (valid_spread hn) rfl (Distribution.rejects_iff.2 (.inr ?_))
    exact (largestComponent_spread hh n).trans (not_lt.1 hle)
  · rintro ht c hc rfl
    exact c.not_rejects hh hc ht

theorem Engine.Answers.not_zeroNorm (hh : 2 * h ^ 2 = 1) {e : Engine (Exact h)}
    (he : e.settings.validate = .ok ()) {tolerance : Option (Exact h)} {program : List Statement}
    (hmem : e.CanHold program) {c : Circuit}
    (hprogram : (Circuit.ofStatements program : Report (Exact h) Circuit).result = .ok c)
    (ht : (tolerance.getD e.settings.zeroNormTolerance).real < (√(2 ^ c.width))⁻¹)
    {answer : Except (Error (Exact h)) (Execution (Exact h))}
    (ha : e.Answers tolerance program answer) (len : Nat) : answer ≠ .error (.zeroNorm len) := by
  have hq : e.settings.maxQubits ≤ 63 := (Settings.maxQubits_of_validate he).2
  have hc : c.Valid := Circuit.valid_of_ofStatements hprogram
  rw [Engine.Answers, hprogram] at ha
  by_cases hw : e.settings.maxQubits < c.width
  · simp only [if_pos hw] at ha
    rw [ha]
    simp
  · simp only [if_neg hw] at ha
    obtain ⟨amps, hrun, -, ha⟩ := ha
    rw [Engine.run_valid hq hc (by omega) (hmem c hprogram (by omega))] at hrun
    obtain rfl := Except.ok.inj hrun
    rw [if_neg (c.not_rejects hh hc ht)] at ha
    obtain ⟨d, rfl, -⟩ := ha
    simp

end Exact

/-! ## Sessions -/

def Reply.ofAnswer {R : Type} : Except (Error R) (Execution R) → Reply R
  | .ok e => .execution e
  | .error e => .refused e

theorem Reply.ofAnswer_eq_refused_iff {R : Type} {answer : Except (Error R) (Execution R)}
    {problem : Error R} : Reply.ofAnswer answer = .refused problem ↔ answer = .error problem := by
  cases answer <;> simp [ofAnswer]

namespace Session
variable {R : Type} [Scalar R]

/-- The handle of the client shows the engine as ready, the settings of the engine are honoured, and
the register of the program can be held. -/
structure Serves (s : Session R) (e : Engine R) (program : List Statement) : Prop where
  ready : (s.channel s.handle).status = .ready e.backend
  settings : e.settings.validate = .ok ()
  memory : e.CanHold program

theorem value_step_adopt (s : Session R) {settings : Settings R}
    (h : settings.validate = .ok ()) :
    (s.step (.adopt (.engine settings))).value =
      (s.turnTo ⟨.ready (Engine.backend ⟨settings⟩), .gone⟩ false false, .done) := by
  have hbuild : (BackendSpec.engine settings).build = .ok (Engine.backend ⟨settings⟩) := by
    rw [BackendSpec.build, Engine.create, h]
    rfl
  simp only [step, hbuild]
  rfl

/-- A client is served once it has turned to an engine. -/
theorem serves_adopt (s : Session R) {settings : Settings R} (h : settings.validate = .ok ())
    {program : List Statement} (hmem : Engine.CanHold ⟨settings⟩ program) :
    (s.step (.adopt (.engine settings))).value.1.Serves ⟨settings⟩ program := by
  rw [value_step_adopt s h]
  exact ⟨by simp [channel, turnTo], h, hmem⟩

/-- Executing on a channel is executing on its backend, if there is one. -/
theorem value_executeOn (engine : Except (Error R) (Backend R)) (tolerance : Option R)
    (program : List Statement) :
    (executeOn engine tolerance program).value =
      .ofAnswer (engine >>= fun b => (b.execute tolerance program).result) := by
  cases engine with
  | error e => rfl
  | ok b =>
    show (replyOf (b.execute tolerance program)).value =
      .ofAnswer (b.execute tolerance program).run.value
    rw [replyOf, Logged.value_bind]
    cases (b.execute tolerance program).run.value <;> rfl

theorem value_step_execute {s : Session R} {b : Backend R}
    (hb : (s.channel s.handle).status = .ready b) (program : List Statement) :
    (s.step (.execute program)).value =
      (s, .ofAnswer (b.execute s.tolerance program).result) := by
  have hcurrent : (s.channel s.handle).current = .ok b := by
    rw [Channel.current, hb]
    rfl
  rw [step, hcurrent, Logged.value_bind, Logged.value_pure, value_executeOn]
  rfl

/-- **What a client is told of a program.** A client whose engine is ready is told the first thing
that is wrong with the program, with its width or with its final state, and nothing else; otherwise
its circuit and one outcome for each basis state. In exact arithmetic the final state is never taken
for zero, unless the tolerance reaches the root mean square magnitude of its coefficients. -/
theorem step_execute_answers :
    (∀ {R : Type} [Scalar R] {s : Session R} {e : Engine R} {program : List Statement},
      s.Serves e program →
      ∃ answer, (s.step (.execute program)).value = (s, .ofAnswer answer) ∧
        e.Answers s.tolerance program answer) ∧
    (∀ {h : ℝ} {s : Session (Exact h)} {e : Engine (Exact h)} {program : List Statement}
      {c : Circuit}, 2 * h ^ 2 = 1 → s.Serves e program →
      (Circuit.ofStatements program : Report (Exact h) Circuit).result = .ok c →
      (s.tolerance.getD e.settings.zeroNormTolerance).real < (√(2 ^ c.width))⁻¹ →
      ∀ len, (s.step (.execute program)).value.2 ≠ .refused (.zeroNorm len)) := by
  constructor
  · intro R _ s e program hs
    exact ⟨_, value_step_execute hs.ready program,
      Engine.execute_answers hs.settings s.tolerance hs.memory⟩
  · intro h s e program c hh hs hprogram ht len
    have ha := Engine.execute_answers hs.settings s.tolerance hs.memory
    have hne := ha.not_zeroNorm hh hs.settings hs.memory hprogram ht len
    rw [value_step_execute hs.ready]
    cases hanswer : (e.backend.execute s.tolerance program).result with
    | ok _ => simp [Reply.ofAnswer]
    | error problem =>
      rw [hanswer] at hne
      simpa [Reply.ofAnswer] using hne

/-- Two qubits, the first turned by a Hadamard gate. -/
theorem step_execute_answers_h :
    (∃ answer, ((start.step (.adopt (.engine Settings.standard))).value.1.step
        (.execute [.declare 2, .gateCall "h" [0]])).value =
        ((start.step (.adopt (.engine Settings.standard))).value.1, .ofAnswer answer) ∧
      Engine.standard.Answers none [.declare 2, .gateCall "h" [0]] answer) ∧
    (∀ len, ((start.step (.adopt (.engine ⟨20, (0 : Exact (√2)⁻¹), 1⟩))).value.1.step
      (.execute [.declare 2, .gateCall "h" [0]])).value.2 ≠ .refused (.zeroNorm len)) := by
  have hmem {R : Type} [Scalar R] (e : Engine R) : e.CanHold [.declare 2, .gateCall "h" [0]] := by
    intro c hc _
    obtain rfl : ⟨2, [.single .h ⟨0⟩]⟩ = c := Except.ok.inj hc
    decide
  have hvalid : (⟨20, 0, 1⟩ : Settings (Exact (√2)⁻¹)).validate = .ok () := by
    simp [Settings.validate, Settings.qubitLimit]
  refine ⟨step_execute_answers.1 (serves_adopt start rfl (hmem _)),
    step_execute_answers.2 ?_ (serves_adopt start hvalid (hmem _)) (c := ⟨2, [.single .h ⟨0⟩]⟩)
      rfl ?_⟩
  · rw [inv_pow, Real.sq_sqrt (by norm_num)]
    norm_num
  · rw [value_step_adopt start hvalid]
    show (0 : ℝ) < _
    positivity

end Session

end KetSim
