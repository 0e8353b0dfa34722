import KetSim.Lowering
/-!
# What a program says

`Reading.circuit` says what a program means without reading it statement by statement: its first
register declaration decides, wherever it stands, then the first recognised call that does not fit,
and in that call the wrong number of operands before the leftmost bad one. Lowering answers exactly
this, in whatever pieces the program is handed over (`Lowering.finish_addPieces`).
-/
namespace KetSim

namespace Reading
variable {R : Type}

/-- The size of the register a statement declares; a register without a size holds one qubit. -/
def declared? : Statement → Option Int
  | .qubits _ size => some (size.getD 1)
  | _ => none

/-- The gate of the table a statement calls, with its operands. -/
def called? : Statement → Option (Gate × List Int)
  | .gateCall name targets => (Gate.ofName? name).map (·, targets)
  | _ => none

/-- The register declarations of a program with their positions, from the given position on. -/
def declarationsFrom (start : Nat) (program : List Statement) : List (Nat × Int) :=
  (program.zipIdx start).filterMap fun (s, p) => (declared? s).map (p, ·)

/-- The recognised calls of a program with their positions, from the given position on. -/
def callsFrom (start : Nat) (program : List Statement) : List Call :=
  (program.zipIdx start).filterMap fun (s, p) => (called? s).map fun (g, targets) => ⟨p, g, targets⟩

/-- What is wrong with an operand that comes after the given ones. -/
def operandProblem? (c : Call) (width : Nat) (earlier : List Int) (raw : Int) : Option (Error R) :=
  if raw < 0 ∨ width ≤ raw then some (.targetOutOfRange c.position c.gate.name raw width)
  else if raw ∈ earlier then some (.repeatedTarget c.position c.gate.name raw.toNat)
  else none

/-- Why a call does not fit a register of the given width. -/
def problem? (width : Nat) (c : Call) : Option (Error R) :=
  if c.targets.length ≠ c.gate.arity then
    some (.arity c.position c.gate.name c.gate.arity c.targets.length)
  else c.targets.zipIdx.findSome? fun (raw, i) => operandProblem? c width (c.targets.take i) raw

def operation (c : Call) : Operation := ⟨c.gate, c.targets.map fun raw => ⟨raw.toNat⟩⟩

/-- The circuit of a program, or the one reason why it has none. -/
def circuit (program : List Statement) : Except (Error R) Circuit :=
  match (declarationsFrom 0 program).head? with
  | none => .error .noRegister
  | some (position, size) =>
    if size ≤ 0 then .error (.registerSize position size)
    else match (callsFrom 0 program).findSome? (problem? size.toNat) with
      | some problem => .error problem
      | none => .ok ⟨size.toNat, (callsFrom 0 program).map operation⟩

/-! ## The scan -/

theorem declarationsFrom_cons (start : Nat) (s : Statement) (rest : List Statement) :
    declarationsFrom start (s :: rest) =
      ((declared? s).map (start, ·)).toList ++ declarationsFrom (start + 1) rest := by
  simp only [declarationsFrom, List.zipIdx_cons, List.filterMap_cons]
  cases declared? s <;> rfl

theorem callsFrom_cons (start : Nat) (s : Statement) (rest : List Statement) :
    callsFrom start (s :: rest) =
      ((called? s).map fun (g, targets) => (⟨start, g, targets⟩ : Call)).toList ++
        callsFrom (start + 1) rest := by
  simp only [callsFrom, List.zipIdx_cons, List.filterMap_cons]
  cases called? s <;> rfl

/-- What reading one statement changes: the position always, the declaration if there is none yet,
and the calls by a recognised one. -/
theorem add_eq (l : Lowering) (s : Statement) :
    l.add s = ⟨l.position + 1, l.declaration.or ((declared? s).map (l.position, ·)),
      ((called? s).map fun (g, targets) => (⟨l.position, g, targets⟩ : Call)).toList ++
        l.calls⟩ := by
  obtain ⟨position, declaration, calls⟩ := l
  cases s with
  | qubits identifier size => cases declaration <;> rfl
  | gateCall name targets =>
    simp only [Lowering.add, declared?, called?]
    cases Gate.ofName? name <;> simp
  | _ => simp [Lowering.add, declared?, called?]

theorem foldl_add_eq (program : List Statement) (l : Lowering) :
    program.foldl Lowering.add l =
      ⟨l.position + program.length, l.declaration.or (declarationsFrom l.position program).head?,
        (callsFrom l.position program).reverse ++ l.calls⟩ := by
  induction program generalizing l with
  | nil => simp [declarationsFrom, callsFrom]
  | cons s rest ih =>
    rw [List.foldl_cons, ih, add_eq, declarationsFrom_cons, callsFrom_cons]
    simp only [Lowering.mk.injEq, List.length_cons]
    refine ⟨by omega, ?_, ?_⟩
    · cases l.declaration <;> cases declared? s <;> simp
    · cases called? s <;> simp

theorem value_addAll (program : List Statement) (l : Lowering) :
    (l.addAll program : Logged R Lowering).value = program.foldl Lowering.add l := by
  induction program generalizing l with
  | nil => rfl
  | cons s rest ih =>
    rw [Lowering.addAll]
    cases Lowering.notice? (R := R) l s <;> exact ih (l.add s)

/-! ## The calls -/

/-- The operands after those in `earlier`, all of which were fine. -/
theorem resolveTargets_eq (c : Call) (width : Nat) :
    ∀ (raws earlier : List Int) (before : List Qubit),
      (∀ raw : Int, 0 ≤ raw → ((⟨raw.toNat⟩ : Qubit) ∈ before ↔ raw ∈ earlier)) →
      Lowering.resolveTargets (R := R) c.position c.gate width before raws =
        match (raws.zipIdx earlier.length).findSome? fun (raw, i) =>
          operandProblem? c width ((earlier ++ raws).take i) raw with
        | some problem => .error problem
        | none => .ok (raws.map fun raw => ⟨raw.toNat⟩)
  | [], _, _, _ => rfl
  | raw :: raws, earlier, before, h => by
    have here (r : Option (Error R)) (e : operandProblem? c width earlier raw = r) :
        operandProblem? c width ((earlier ++ raw :: raws).take earlier.length) raw = r := by
      simpa using e
    rw [Lowering.resolveTargets, List.zipIdx_cons, List.findSome?_cons]
    by_cases hr : 0 ≤ raw ∧ raw < width
    · rw [if_pos hr]
      have hin : ¬ (raw < 0 ∨ (width : Int) ≤ raw) := by omega
      by_cases hm : raw ∈ earlier
      · simp only [h raw hr.1, if_pos hm, here _ ((if_neg hin).trans (if_pos hm))]
      · have h' : ∀ x : Int, 0 ≤ x →
            ((⟨x.toNat⟩ : Qubit) ∈ ⟨raw.toNat⟩ :: before ↔ x ∈ earlier ++ [raw]) := by
          intro x hx
          rw [List.mem_cons, h x hx, List.mem_append, List.mem_singleton, Qubit.mk.injEq]
          constructor
          · rintro (e | e)
            · exact Or.inr (by omega)
            · exact Or.inl e
          · rintro (e | e)
            · exact Or.inr e
            · exact Or.inl (by rw [e])
        have ih := resolveTargets_eq c width raws (earlier ++ [raw]) _ h'
        simp only [List.append_assoc, List.singleton_append, List.length_append,
          List.length_singleton] at ih
        simp only [h raw hr.1, if_neg hm, here _ ((if_neg hin).trans (if_neg hm)), ih]
        generalize (raws.zipIdx (earlier.length + 1)).findSome? _ = problem
        cases problem <;> rfl
    · have hout : raw < 0 ∨ (width : Int) ≤ raw := by omega
      simp only [if_neg hr, here _ (if_pos hout)]

theorem resolve_eq (width : Nat) (c : Call) :
    Lowering.resolve (R := R) width c =
      match problem? width c with
      | some problem => .error problem
      | none => .ok (operation c) := by
  rw [Lowering.resolve, problem?]
  by_cases hl : c.targets.length = c.gate.arity
  · have := resolveTargets_eq (R := R) c width c.targets [] [] (by simp)
    simp only [hl, if_true, ne_eq, not_true_eq_false, if_false, this, List.nil_append,
      List.length_nil]
    split <;> rfl
  · simp [hl]

/-- A list of calls fails with the problem of the first one that has one. -/
theorem mapM_resolve (width : Nat) (calls : List Call) :
    calls.mapM (Lowering.resolve (R := R) width) =
      match calls.findSome? (problem? width) with
      | some problem => .error problem
      | none => .ok (calls.map operation) := by
  induction calls with
  | nil => rfl
  | cons c rest ih =>
    rw [List.mapM_cons, resolve_eq, ih, List.findSome?_cons]
    cases problem? (R := R) width c with
    | some problem => rfl
    | none => cases rest.findSome? (problem? (R := R) width) <;> rfl

/-! ## The whole program -/

theorem result_ofStatements (program : List Statement) :
    (Circuit.ofStatements program : Report R Circuit).result = circuit program := by
  rw [Circuit.ofStatements, Report.result_bind, Report.result_lift, value_addAll, foldl_add_eq]
  simp only [bind, Except.bind, Lowering.start, Option.none_or, List.append_nil, circuit,
    Lowering.finish]
  cases (declarationsFrom 0 program).head? with
  | none => rfl
  | some d =>
    obtain ⟨position, size⟩ := d
    by_cases hs : 0 < size
    · simp only [if_pos hs, if_neg (show ¬ size ≤ 0 by omega), List.reverse_reverse]
      show Report.result (_ >>= _) = _
      rw [Report.result_bind, Report.result_ofExcept, mapM_resolve]
      cases (callsFrom 0 program).findSome? (problem? size.toNat) <;> rfl
    · simp only [if_neg hs, if_pos (show size ≤ 0 by omega)]
      rfl

end Reading

/-! ## Programs in pieces -/

namespace Lowering
variable {R : Type}

/-- Read one statement and report it, if there is something to report. -/
def read (l : Lowering) (s : Statement) : Logged R Lowering := do
  match notice? l s with
  | some e => Logged.note e
  | none => pure ()
  return l.add s

/-- What is handed over at a time: a single statement, or several in order. -/
inductive Piece where
  | statement (s : Statement)
  | statements (ss : List Statement)

def Piece.toList : Piece → List Statement
  | statement s => [s]
  | statements ss => ss

def addPiece (l : Lowering) : Piece → Logged R Lowering
  | .statement s => l.read s
  | .statements ss => l.addAll ss

def addPieces (l : Lowering) (pieces : List Piece) : Logged R Lowering := pieces.foldlM addPiece l

theorem addAll_cons (l : Lowering) (s : Statement) (rest : List Statement) :
    (l.addAll (s :: rest) : Logged R Lowering) = l.read s >>= fun l => l.addAll rest := by
  rw [addAll, read]
  cases notice? (R := R) l s <;> simp [bind]

theorem addAll_append (ss rest : List Statement) (l : Lowering) :
    (l.addAll (ss ++ rest) : Logged R Lowering) = l.addAll ss >>= fun l => l.addAll rest := by
  induction ss generalizing l with
  | nil => rw [List.nil_append, addAll, pure_bind]
  | cons s ss ih =>
    rw [List.cons_append, addAll_cons, addAll_cons, bind_assoc]
    congr 1
    funext l
    exact ih l

/-- It makes no difference how a program is cut into pieces, neither to what is read nor to what is
reported. -/
theorem addPieces_eq (pieces : List Piece) (l : Lowering) :
    (l.addPieces pieces : Logged R Lowering) = l.addAll (pieces.flatMap Piece.toList) := by
  induction pieces generalizing l with
  | nil => rfl
  | cons piece pieces ih =>
    rw [addPieces, List.foldlM_cons, List.flatMap_cons, addAll_append]
    have first : (l.addPiece piece : Logged R Lowering) = l.addAll piece.toList := by
      cases piece with
      | statements ss => rfl
      | statement s =>
        show l.read s = l.addAll [s]
        rw [addAll_cons, show (fun l => addAll l []) = (pure : _ → Logged R Lowering) from rfl,
          bind_pure]
    rw [first]
    congr 1
    funext l
    exact ih l

/-- **Lowering a program gives what the program says**, in whatever pieces it is handed over: its
circuit, or the one reason why it has none. -/
theorem finish_addPieces (pieces : List Piece) :
    (do (← ExceptT.lift (start.addPieces pieces)).finish : Report R Circuit).result =
      Reading.circuit (pieces.flatMap Piece.toList) := by
  rw [addPieces_eq]
  exact Reading.result_ofStatements _

/-- The first declaration decides, whatever the calls before it and the declarations after it. -/
example : Reading.circuit (R := Unit) [.gateCall "x" [7], .declare 0, .declare 2] =
    .error (.registerSize 1 0) := rfl

end Lowering

end KetSim
