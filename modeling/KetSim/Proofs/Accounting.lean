import KetSim.Event.Wording
import KetSim.Proofs.Reading
import Mathlib.Data.List.Forall2
/-!
# What a lowering reports

Lowering skips what it does not support, so its events are the only trace of that. They leave
nothing out: while statements are read there is one event for each statement that is not a call of a
gate in the table, in program order and with its position (`forall₂_events_addAll`); what is read at
one statement decides it (`exists_notice?`). The positions reported and the positions of the calls
are therefore all positions (`noticedFrom_append_perm`), on every way to an error too, and the one
event that follows says that there is a circuit (`Lowering.drops_nothing_silently`).
-/
namespace KetSim

namespace Reading
variable {R : Type}

/-- The first register declaration of the program stands at the position. -/
structure DeclaredAt (program : List Statement) (p : Nat) : Prop where
  here : ∃ s, program[p]? = some s ∧ s.kind = .qubits
  first : ∀ q < p, ∀ s, program[q]? = some s → s.kind ≠ .qubits

/-- The event says what was done with the statement at the position. -/
inductive Tells (program : List Statement) (p : Nat) : Event R → Prop where
  /-- The register is declared. -/
  | declared {identifier : String} {size : Option Int}
      (here : program[p]? = some (.qubits identifier size)) (first : DeclaredAt program p) :
      Tells program p (.registerDeclared p identifier (size.getD 1))
  /-- A further declaration is ignored; the first one counts. -/
  | ignored {identifier : String} {size : Option Int} {first : Nat}
      (here : program[p]? = some (.qubits identifier size)) (declared : DeclaredAt program first)
      (later : first < p) : Tells program p (.declarationIgnored p (size.getD 1) first)
  /-- The called gate is not in the table. -/
  | unknown {name : String} {targets : List Int}
      (here : program[p]? = some (.gateCall name targets)) (unknown : Gate.ofName? name = none) :
      Tells program p (.gateSkipped p name)
  /-- The statement is of a kind that is skipped. -/
  | skipped {s : Statement} (here : program[p]? = some s)
      (kind : s.kind ≠ .qubits ∧ s.kind ≠ .gateCall) : Tells program p (.statementSkipped p s.kind)

/-- The positions of the statements that are noticed when a program is read: all but the calls of
gates in the table. -/
def noticedFrom (start : Nat) (program : List Statement) : List Nat :=
  ((program.zipIdx start).filter fun (s, _) => (called? s).isNone).map Prod.snd

theorem noticedFrom_cons_of_called {s : Statement} {call : Gate × List Int}
    (hs : called? s = some call) (start : Nat) (rest : List Statement) :
    noticedFrom start (s :: rest) = noticedFrom (start + 1) rest := by
  simp [noticedFrom, hs]

theorem noticedFrom_cons_of_not_called {s : Statement} (hs : called? s = none) (start : Nat)
    (rest : List Statement) :
    noticedFrom start (s :: rest) = start :: noticedFrom (start + 1) rest := by
  simp [noticedFrom, hs]

theorem pairwise_noticedFrom (start : Nat) (program : List Statement) :
    (noticedFrom start program).Pairwise (· < ·) := by
  have hsub : (noticedFrom start program).Sublist ((program.zipIdx start).map Prod.snd) :=
    List.filter_sublist.map Prod.snd
  rw [List.zipIdx_map_snd] at hsub
  exact List.Pairwise.sublist hsub List.pairwise_lt_range'

/-- A statement is noticed or called, and never both. -/
theorem noticedFrom_append_perm (start : Nat) (program : List Statement) :
    (noticedFrom start program ++ (callsFrom start program).map Call.position).Perm
      (List.range' start program.length) := by
  induction program generalizing start with
  | nil => simp [noticedFrom, callsFrom]
  | cons s rest ih =>
    rw [List.length_cons, List.range'_succ, callsFrom_cons]
    cases hs : called? s with
    | some call =>
      rw [noticedFrom_cons_of_called hs]
      exact List.perm_middle.trans ((ih (start + 1)).cons start)
    | none =>
      rw [noticedFrom_cons_of_not_called hs]
      exact (ih (start + 1)).cons start

/-! ## The declaration -/

theorem declared?_eq_none_iff {s : Statement} : declared? s = none ↔ s.kind ≠ .qubits := by
  cases s <;> simp [declared?, Statement.kind]

theorem kind_of_declared? {s : Statement} {size : Int} (h : declared? s = some size) :
    s.kind = .qubits :=
  Decidable.byContradiction fun hk => by rw [declared?_eq_none_iff.2 hk] at h; cases h

/-- The first of the declarations is where the program has its first one. -/
theorem declaredAt_of_head? {program : List Statement} {start p : Nat} {size : Int}
    (h : (declarationsFrom start program).head? = some (p, size)) :
    ∃ i, p = start + i ∧ DeclaredAt program i := by
  induction program generalizing start with
  | nil => cases h
  | cons s rest ih =>
    rw [declarationsFrom_cons] at h
    cases hs : declared? s with
    | some n =>
      rw [hs] at h
      cases h
      exact ⟨0, rfl, ⟨s, rfl, kind_of_declared? hs⟩, fun q hq => absurd hq (Nat.not_lt_zero q)⟩
    | none =>
      rw [hs] at h
      obtain ⟨i, rfl, hi⟩ := ih h
      refine ⟨i + 1, by omega, hi.here, fun q hq s' hs' => ?_⟩
      cases q with
      | zero => exact Option.some.inj hs' ▸ declared?_eq_none_iff.1 hs
      | succ q => exact hi.first q (by omega) s' hs'

theorem kind_ne_of_head? {program : List Statement} {start : Nat}
    (h : (declarationsFrom start program).head? = none) : ∀ s ∈ program, s.kind ≠ .qubits := by
  induction program generalizing start with
  | nil => simp
  | cons s rest ih =>
    rw [declarationsFrom_cons, List.head?_eq_none_iff, List.append_eq_nil_iff] at h
    rw [List.forall_mem_cons]
    refine ⟨declared?_eq_none_iff.1 ?_, ih (List.head?_eq_none_iff.2 h.2)⟩
    cases hs : declared? s with
    | none => rfl
    | some size => rw [hs] at h; cases h.1

/-- What comes later in a program does not move its first declaration. -/
theorem DeclaredAt.append {before : List Statement} {p : Nat} (h : DeclaredAt before p)
    (after : List Statement) : p < before.length ∧ DeclaredAt (before ++ after) p := by
  obtain ⟨⟨s, hs, hk⟩, hfirst⟩ := h
  have hp : p < before.length := (List.getElem?_eq_some_iff.1 hs).1
  refine ⟨hp, ⟨s, by rwa [List.getElem?_append_left hp], hk⟩, fun q hq s' hs' => ?_⟩
  rw [List.getElem?_append_left (by omega)] at hs'
  exact hfirst q hq s' hs'

/-- A declaration that has none before it is the first one. -/
theorem declaredAt_length {before : List Statement} {s : Statement}
    (hbefore : ∀ b ∈ before, b.kind ≠ .qubits) (hs : s.kind = .qubits) (after : List Statement) :
    DeclaredAt (before ++ s :: after) before.length := by
  refine ⟨⟨s, by simp, hs⟩, fun q hq s' hs' => ?_⟩
  rw [List.getElem?_append_left hq] at hs'
  exact hbefore s' (List.mem_of_getElem? hs')

/-! ## One statement -/

theorem notice?_of_called {s : Statement} {call : Gate × List Int} (hs : called? s = some call)
    (l : Lowering) : Lowering.notice? (R := R) l s = none := by
  cases s with
  | gateCall name targets =>
    obtain ⟨gate, hgate, -⟩ := Option.map_eq_some_iff.1 hs
    simp [Lowering.notice?, hgate]
  | _ => cases hs

/-- A statement that calls no gate of the table is noticed, by an event that says what was done with
it. -/
theorem exists_notice? (before : List Statement) {s : Statement} (hs : called? s = none)
    (after : List Statement) :
    ∃ e : Event R, Lowering.notice? (before.foldl Lowering.add .start) s = some e ∧
      Tells (before ++ s :: after) before.length e := by
  have here : (before ++ s :: after)[before.length]? = some s := by simp
  rw [foldl_add_eq]
  simp only [Lowering.start, Nat.zero_add, Option.none_or]
  cases s with
  | qubits identifier size =>
    cases hd : (declarationsFrom 0 before).head? with
    | none =>
      exact ⟨_, rfl, .declared here (declaredAt_length (kind_ne_of_head? hd) rfl after)⟩
    | some d =>
      obtain ⟨first, declaredFirst⟩ := d
      obtain ⟨i, hi, hdeclared⟩ := declaredAt_of_head? hd
      obtain rfl : first = i := hi.trans (Nat.zero_add i)
      obtain ⟨hlt, hdeclared⟩ := hdeclared.append (.qubits identifier size :: after)
      exact ⟨_, rfl, .ignored here hdeclared hlt⟩
  | gateCall name targets =>
    have hgate : Gate.ofName? name = none := Option.map_eq_none_iff.1 hs
    exact ⟨_, by simp only [Lowering.notice?, hgate], .unknown here hgate⟩
  | _ => exact ⟨_, rfl, .skipped here (by simp [Statement.kind])⟩

/-! ## The scan -/

theorem events_read (l : Lowering) (s : Statement) :
    (l.read s : Logged R Lowering).events = (Lowering.notice? l s).toList := by
  rw [Lowering.read]
  cases Lowering.notice? (R := R) l s <;> rfl

theorem value_read (l : Lowering) (s : Statement) :
    (l.read s : Logged R Lowering).value = l.add s := by
  rw [Lowering.read]
  cases Lowering.notice? (R := R) l s <;> rfl

/-- The events of the rest of a program are those of its noticed statements, one each, in order. -/
theorem forall₂_events_addAll (before rest : List Statement) :
    List.Forall₂ (Tells (before ++ rest)) (noticedFrom before.length rest)
      ((before.foldl Lowering.add .start).addAll rest : Logged R Lowering).events := by
  induction rest generalizing before with
  | nil => exact .nil
  | cons s rest ih =>
    have hrest := ih (before ++ [s])
    rw [List.append_assoc, List.length_append, List.foldl_append] at hrest
    rw [Lowering.addAll_cons, Logged.events_bind, events_read, value_read]
    cases hs : called? s with
    | some call =>
      rw [notice?_of_called hs, noticedFrom_cons_of_called hs]
      exact hrest
    | none =>
      obtain ⟨e, he, htells⟩ := exists_notice? (R := R) before hs rest
      rw [he, noticedFrom_cons_of_not_called hs]
      exact .cons htells hrest

/-! ## The circuit -/

/-- What is reported when reading has ended: the size of the circuit, if there is one. -/
def sizeEvents : Except (Error R) Circuit → List (Event R)
  | .ok c => [.circuitBuilt c.width c.operations.length]
  | .error _ => []

theorem events_lift_bind {α β : Type} (x : Logged R α) (f : α → Report R β) :
    Report.events (ExceptT.lift x >>= f) = x.events ++ (f x.value).events := by
  show x.events ++ [] ++ (f x.value).events = _
  rw [List.append_nil]

/-- Either there is a circuit with one operation for each call, and its size is reported, or there
is an error and nothing is. -/
theorem finish_cases (l : Lowering) :
    (∃ c, (l.finish : Report R Circuit).result = .ok c ∧
      (l.finish : Report R Circuit).events = [.circuitBuilt c.width c.operations.length] ∧
      c.operations.length = l.calls.length) ∨
    (∃ e, (l.finish : Report R Circuit).result = .error e ∧
      (l.finish : Report R Circuit).events = []) := by
  obtain ⟨position, declaration, calls⟩ := l
  rw [Lowering.finish]
  cases declaration with
  | none => exact Or.inr ⟨.noRegister, rfl, rfl⟩
  | some d =>
    obtain ⟨first, size⟩ := d
    by_cases hs : 0 < size
    · simp only [if_pos hs, mapM_resolve]
      cases calls.reverse.findSome? (problem? (R := R) size.toNat) with
      | some problem => exact Or.inr ⟨problem, rfl, rfl⟩
      | none =>
        exact Or.inl ⟨⟨size.toNat, calls.reverse.map operation⟩, rfl, rfl, by simp⟩
    · simp only [if_neg hs]
      exact Or.inr ⟨.registerSize first size, rfl, rfl⟩

theorem events_finish (l : Lowering) :
    (l.finish : Report R Circuit).events = sizeEvents (l.finish : Report R Circuit).result := by
  rcases finish_cases (R := R) l with ⟨c, hc, he, -⟩ | ⟨e, hc, he⟩ <;> rw [hc, he] <;> rfl

theorem length_operations_of_finish {l : Lowering} {c : Circuit}
    (h : (l.finish : Report R Circuit).result = .ok c) : c.operations.length = l.calls.length := by
  rcases finish_cases (R := R) l with ⟨c', hc, -, hlen⟩ | ⟨e, hc, -⟩
  · rw [Except.ok.inj (h.symm.trans hc), hlen]
  · cases h.symm.trans hc

/-! ## How the events are shown -/

/-- The event says what was done with the statement at the position and shows the position. A
register declaration is worth more than a statement that is skipped. -/
structure Reports (program : List Statement) (p : Nat) (e : Event Float) : Prop where
  tells : Tells program p e
  shown : ("position", Field.int p) ∈ e.fields
  level : ∀ s, program[p]? = some s → e.level = if s.kind = .qubits then .debug else .trace

theorem Tells.reports {program : List Statement} {p : Nat} {e : Event Float}
    (h : Tells program p e) : Reports program p e := by
  refine ⟨h, by cases h <;> simp [Event.fields], fun s hs => ?_⟩
  cases h with
  | declared here | ignored here | unknown here =>
    obtain rfl := Option.some.inj (hs.symm.trans here)
    rfl
  | skipped here kind =>
    obtain rfl := Option.some.inj (hs.symm.trans here)
    exact (if_neg kind.1).symm

end Reading

namespace Lowering
open Reading

/-- The events of a scan account for every statement of the program that was read. -/
structure Accounts (program : List Statement) (scan : Logged Float Lowering) : Prop where
  /-- There is one event for each statement that calls no gate of the table, in program order. -/
  reported : List.Forall₂ (Reports program) (noticedFrom 0 program) scan.events
  increasing : (noticedFrom 0 program).Pairwise (· < ·)
  /-- A position is reported, or it is that of a call that is kept. -/
  parted : (noticedFrom 0 program ++ scan.value.calls.map Call.position).Perm
    (List.range program.length)
  /-- After the scan one event follows if there is a circuit, and none if there is not. -/
  closed : (do (← ExceptT.lift scan).finish : Report Float Circuit).events =
    scan.events ++ sizeEvents (scan.value.finish : Report Float Circuit).result
  counted : ∀ c, (scan.value.finish : Report Float Circuit).result = .ok c →
    program.length = c.operations.length + scan.events.length

/-- **Nothing is dropped silently.** In whatever pieces a program is handed over, each of its
statements is a call that is kept or the subject of exactly one event, which stands in its place in
the log and carries its position. The circuit, if there is one, is reported after all of them, and
has an operation for each statement without an event. -/
theorem drops_nothing_silently (pieces : List Piece) :
    Accounts (pieces.flatMap Piece.toList) (start.addPieces pieces) := by
  rw [addPieces_eq]
  generalize pieces.flatMap Piece.toList = program
  have htells : List.Forall₂ (Tells program) (noticedFrom 0 program)
      (start.addAll program : Logged Float Lowering).events := forall₂_events_addAll [] program
  have hvalue : (start.addAll program : Logged Float Lowering).value.calls =
      (callsFrom 0 program).reverse := by
    rw [value_addAll, foldl_add_eq]
    exact List.append_nil _
  have hparted : (noticedFrom 0 program ++
      (start.addAll program : Logged Float Lowering).value.calls.map Call.position).Perm
        (List.range program.length) := by
    rw [hvalue, List.range_eq_range']
    exact (((List.reverse_perm _).map _).append_left _).trans (noticedFrom_append_perm 0 program)
  refine ⟨htells.imp fun _ _ => Tells.reports, pairwise_noticedFrom 0 program, hparted, ?_, ?_⟩
  · rw [events_lift_bind, events_finish]
  · intro c hc
    have hlength := hparted.length_eq
    rw [List.length_append, List.length_map, List.length_range, htells.length_eq] at hlength
    rw [length_operations_of_finish hc, ← hlength]
    exact Nat.add_comm _ _

/-- A call before the register, a second register and a call of an unknown gate. -/
example : (start.addAll [.gateCall "x" [0], .declare 1, .declare 2, .gateCall "ccx" []] :
    Logged Unit Lowering).events =
      [.registerDeclared 1 "q" 1, .declarationIgnored 2 2 1, .gateSkipped 3 "ccx"] := rfl

end Lowering

end KetSim
