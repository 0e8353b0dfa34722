import KetSim.Proofs.Fitting
import KetSim.Proofs.Reading
/-!
# Circuits written as programs

A circuit is written as a program that declares its register and calls its operations. Lowering and
checking apply the same rules to it, one on signed operands and one on qubits: they accept the same
circuits, and a program is refused for the reason for which its circuit is, one position later
because of the declaration.
-/
namespace KetSim

def Operation.statement (op : Operation) : Statement :=
  .gateCall op.gate.name (op.targets.map fun q => q.index)

def Circuit.statements (c : Circuit) : List Statement :=
  .declare c.width :: c.operations.map Operation.statement

/-- The call of an operation that is read at a position. -/
def Operation.callAt (op : Operation) (position : Nat) : Call :=
  ⟨position, op.gate, op.targets.map fun q => q.index⟩

/-- The calls of operations that are read one after the other, the first at the given position. -/
def callsAt (position : Nat) : List Operation → List Call
  | [] => []
  | op :: ops => op.callAt position :: callsAt (position + 1) ops

/-- The error about an operation as the error about its call in the circuit's program. -/
def Error.inProgram {R : Type} : Error R → Error R
  | .arity position gate expected got => .arity (position + 1) gate expected got
  | .targetOutOfRange position gate index width => .targetOutOfRange (position + 1) gate index width
  | .repeatedTarget position gate index => .repeatedTarget (position + 1) gate index
  | e => e

namespace Reading
variable {R : Type}

@[simp] theorem operation_callAt (op : Operation) (position : Nat) :
    operation (op.callAt position) = op := by
  obtain ⟨gate, targets⟩ := op
  simp [operation, Operation.callAt, Function.comp_def]

theorem problem?_callAt_succ (width : Nat) (op : Operation) (position : Nat) :
    problem? (R := R) width (op.callAt (position + 1)) =
      (problem? width (op.callAt position)).map Error.inProgram := by
  simp only [problem?, Operation.callAt, List.length_map]
  by_cases hl : op.targets.length = op.gate.arity
  · simp only [hl, ne_eq, not_true_eq_false, if_false, List.map_findSome?]
    congr 1
    funext p
    simp only [operandProblem?, Function.comp_apply]
    split
    · rfl
    · split <;> rfl
  · simp [hl, Error.inProgram]

/-- The first misfit among calls read one position later is the first misfit, one position later. -/
theorem findSome?_callsAt_succ (width : Nat) (ops : List Operation) (position : Nat) :
    (callsAt (position + 1) ops).findSome? (problem? (R := R) width) =
      ((callsAt position ops).findSome? (problem? width)).map Error.inProgram := by
  induction ops generalizing position with
  | nil => rfl
  | cons op ops ih =>
    simp only [callsAt, List.findSome?_cons, problem?_callAt_succ]
    cases problem? (R := R) width (op.callAt position) with
    | some problem => rfl
    | none => exact ih (position + 1)

theorem map_operation_callsAt (ops : List Operation) (position : Nat) :
    (callsAt position ops).map operation = ops := by
  induction ops generalizing position with
  | nil => rfl
  | cons op ops ih => rw [callsAt, List.map_cons, operation_callAt, ih]

theorem callsFrom_statements (ops : List Operation) (position : Nat) :
    callsFrom position (ops.map Operation.statement) = callsAt position ops := by
  induction ops generalizing position with
  | nil => rfl
  | cons op ops ih =>
    rw [List.map_cons, callsFrom_cons, ih]
    simp [called?, Operation.statement, Gate.ofName?_name, Operation.callAt, callsAt]

/-! ## Calls that fit -/

/-- Operands that are resolved are the indices of qubits of the register, none of them twice. -/
theorem resolveTargets_ok {position : Nat} {gate : Gate} {width : Nat} {raws : List Int} :
    ∀ {before qs : List Qubit},
      Lowering.resolveTargets (R := R) position gate width before raws = .ok qs →
      (∀ q ∈ qs, q.index < width) ∧ qs.Nodup ∧ (∀ q ∈ qs, q ∉ before) := by
  induction raws with
  | nil =>
    intro before qs h
    cases h
    simp
  | cons raw raws ih =>
    intro before qs h
    rw [Lowering.resolveTargets] at h
    split at h
    · rename_i hr
      by_cases hm : (⟨raw.toNat⟩ : Qubit) ∈ before
      · simp [hm] at h
      · simp only [if_neg hm] at h
        cases hrest : Lowering.resolveTargets (R := R) position gate width
            (⟨raw.toNat⟩ :: before) raws with
        | error e => rw [hrest] at h; cases h
        | ok rest =>
          rw [hrest] at h
          cases h
          obtain ⟨h1, h2, h3⟩ := ih hrest
          simp only [List.mem_cons, not_or] at h3
          refine ⟨?_, List.nodup_cons.2 ⟨fun hq => (h3 _ hq).1 rfl, h2⟩, ?_⟩
          · rw [List.forall_mem_cons]
            exact ⟨by simp only; omega, h1⟩
          · rw [List.forall_mem_cons]
            exact ⟨hm, fun q hq => (h3 q hq).2⟩
    · cases h

theorem operation_fits {width : Nat} {c : Call} (h : problem? (R := R) width c = none) :
    (operation c).Fits width := by
  have hres := resolve_eq (R := R) width c
  rw [h] at hres
  simp only [Lowering.resolve] at hres
  split at hres
  · rename_i hl
    cases ht : Lowering.resolveTargets (R := R) c.position c.gate width [] c.targets with
    | error e => rw [ht] at hres; cases hres
    | ok qs =>
      rw [ht] at hres
      have e : (⟨c.gate, qs⟩ : Operation) = operation c := Except.ok.inj hres
      obtain ⟨hin, hnd, -⟩ := resolveTargets_ok ht
      rw [← e]
      refine ⟨?_, hin, hnd⟩
      have := congrArg (fun op : Operation => op.targets.length) e
      simpa [operation, hl] using this
  · cases hres

/-- Every circuit a program has is valid. -/
theorem valid_of_circuit {program : List Statement} {c : Circuit}
    (h : circuit (R := R) program = .ok c) : c.Valid := by
  rw [circuit] at h
  split at h
  · cases h
  · split at h
    · cases h
    · rename_i size hs
      split at h
      · cases h
      · rename_i hnone
        cases h
        refine ⟨by simp only; omega, fun op hop => ?_⟩
        obtain ⟨call, hcall, rfl⟩ := List.mem_map.1 hop
        exact operation_fits (List.findSome?_eq_none_iff.1 hnone call hcall)

/-! ## The check and the reading -/

/-- Every qubit outside the register can be named in an error. -/
def Nameable (width : Nat) (op : Operation) : Prop :=
  ∀ q ∈ op.targets, width ≤ q.index → q.index ≤ Circuit.maxNamedIndex

theorem checkTargets_eq (position : Nat) (gate : Gate) (width : Nat) :
    ∀ (qs before : List Qubit), (∀ q ∈ qs, width ≤ q.index → q.index ≤ Circuit.maxNamedIndex) →
      Circuit.checkTargets (R := R) position gate width before qs =
        (Lowering.resolveTargets position gate width before
          (qs.map fun q => (q.index : Int))).map fun _ => ()
  | [], _, _ => rfl
  | q :: qs, before, h => by
    obtain ⟨hq, hrest⟩ := List.forall_mem_cons.1 h
    have ih := checkTargets_eq position gate width qs (q :: before) hrest
    rw [Circuit.checkTargets, List.map_cons, Lowering.resolveTargets]
    by_cases hw : width ≤ q.index
    · rw [if_pos hw, if_neg (show ¬ (0 ≤ (q.index : Int) ∧ (q.index : Int) < width) by omega),
        show min (q.index : Int) Circuit.maxNamedIndex = q.index by have := hq hw; omega]
      rfl
    · rw [if_neg hw, if_pos (show 0 ≤ (q.index : Int) ∧ (q.index : Int) < width by omega)]
      simp only [Int.toNat_natCast]
      by_cases hb : q ∈ before
      · simp only [if_pos hb]
        rfl
      · rw [if_neg hb, if_neg hb, ih]
        generalize Lowering.resolveTargets (R := R) position gate width (q :: before) _ = rest
        cases rest <;> rfl

theorem checkOperation_eq {width position : Nat} {op : Operation} (h : Nameable width op) :
    Circuit.checkOperation (R := R) width position op =
      match problem? width (op.callAt position) with
      | some problem => .error problem
      | none => .ok () := by
  have hres : Circuit.checkOperation (R := R) width position op =
      (Lowering.resolve width (op.callAt position)).map fun _ => () := by
    rw [Circuit.checkOperation, Lowering.resolve, Operation.callAt, List.length_map]
    split
    · rw [checkTargets_eq _ _ _ _ _ h]
      generalize Lowering.resolveTargets (R := R) position op.gate width [] _ = rest
      cases rest <;> rfl
    · rfl
  rw [hres, resolve_eq]
  cases problem? (R := R) width (op.callAt position) <;> rfl

theorem checkFrom_eq {width : Nat} {ops : List Operation} (h : ∀ op ∈ ops, Nameable width op)
    (position : Nat) :
    Circuit.checkFrom (R := R) width position ops =
      match (callsAt position ops).findSome? (problem? width) with
      | some problem => .error problem
      | none => .ok () := by
  induction ops generalizing position with
  | nil => rfl
  | cons op ops ih =>
    obtain ⟨hop, hrest⟩ := List.forall_mem_cons.1 h
    rw [Circuit.checkFrom, checkOperation_eq hop, ih hrest, callsAt, List.findSome?_cons]
    cases problem? (R := R) width (op.callAt position) <;> rfl

/-- The program of a circuit says what the check says of the circuit. -/
theorem circuit_statements {width : Nat} {ops : List Operation}
    (h : ∀ op ∈ ops, Nameable width op) :
    circuit (R := R) (Circuit.statements ⟨width, ops⟩) =
      (Circuit.make width ops).mapError Error.inProgram := by
  have hd : (declarationsFrom 0 (Circuit.statements ⟨width, ops⟩)).head? =
      some (0, (width : Int)) := by
    rw [Circuit.statements, declarationsFrom_cons]
    rfl
  have hc : callsFrom 0 (Circuit.statements ⟨width, ops⟩) = callsAt 1 ops := by
    rw [Circuit.statements, callsFrom_cons, callsFrom_statements]
    rfl
  simp only [circuit, hd, hc, map_operation_callsAt, Circuit.make, Circuit.check,
    Int.toNat_natCast, findSome?_callsAt_succ]
  by_cases h0 : width = 0
  · subst h0
    rfl
  · rw [if_neg (show ¬ (width : Int) ≤ 0 by omega), if_neg h0, checkFrom_eq h]
    cases (callsAt 0 ops).findSome? (problem? (R := R) width) <;> rfl

end Reading

namespace Circuit
variable {R : Type}

theorem valid_of_ofStatements {program : List Statement} {c : Circuit}
    (h : (ofStatements program : Report R Circuit).result = .ok c) : c.Valid := by
  rw [Reading.result_ofStatements] at h
  exact Reading.valid_of_circuit h

/-- **Lowering and checking agree.** The program of a register width and operations has the circuit
that the check lets through, or fails as the check does, one position later. So every circuit of a
program passes the check, and written as a program it is read back. -/
theorem make_agrees_with_ofStatements :
    (∀ (width : Nat) (ops : List Operation),
      (∀ op ∈ ops, ∀ q ∈ op.targets, q.index ≤ maxNamedIndex) →
      (ofStatements (statements ⟨width, ops⟩) : Report R Circuit).result =
        (make width ops).mapError Error.inProgram) ∧
    (∀ (program : List Statement) (c : Circuit),
      (ofStatements program : Report R Circuit).result = .ok c →
      c.check (R := R) = .ok () ∧
        (ofStatements c.statements : Report R Circuit).result = .ok c) := by
  constructor
  · intro width ops h
    rw [Reading.result_ofStatements]
    exact Reading.circuit_statements fun op hop q hq _ => h op hop q hq
  · intro program c h
    have hv : c.Valid := valid_of_ofStatements h
    have hcheck : c.check (R := R) = .ok () := check_eq_ok_iff.2 hv
    refine ⟨hcheck, ?_⟩
    -- no qubit of a valid circuit lies outside the register, so none needs to be named
    have hname : ∀ op ∈ c.operations, Reading.Nameable c.width op := fun op hop q hq hw =>
      absurd ((hv.fits op hop).inside q hq) (by omega)
    rw [Reading.result_ofStatements, show c = ⟨c.width, c.operations⟩ from rfl,
      Reading.circuit_statements hname, make, hcheck]
    rfl

/-- A flip whose control is its target and lies outside the register breaks two rules. -/
theorem make_agrees_with_ofStatements_flip :
    ((ofStatements (statements ⟨2, [.cnot ⟨2⟩ ⟨2⟩]⟩) : Report Unit Circuit).result =
      (make 2 [.cnot ⟨2⟩ ⟨2⟩]).mapError Error.inProgram) ∧
    ((⟨2, [.cnot ⟨1⟩ ⟨0⟩]⟩ : Circuit).check (R := Unit) = .ok () ∧
      (ofStatements (statements ⟨2, [.cnot ⟨1⟩ ⟨0⟩]⟩) : Report Unit Circuit).result =
        .ok ⟨2, [.cnot ⟨1⟩ ⟨0⟩]⟩) :=
  ⟨make_agrees_with_ofStatements.1 2 [.cnot ⟨2⟩ ⟨2⟩] (by decide),
    make_agrees_with_ofStatements.2 [.gateCall "cx" [1, 0], .other "reset q;", .declare 2]
      ⟨2, [.cnot ⟨1⟩ ⟨0⟩]⟩ rfl⟩

end Circuit

end KetSim
