import KetSim.Proofs.Reading
/-!
# Statements that are ignored

A statement that lowering ignores can be put into a program at any place: what was read before it
stays, and what is read after it is read one position later. The statement itself changes nothing
but the position (`Lowering.add_of_ignored`), and from there on the two readings differ in nothing
but positions (`Lowering.foldl_add_mapPosition_moved`). So the program has the same circuit, or is
refused for the same reason at the place to which the reason has moved
(`Circuit.ofStatements_insert`).
-/
namespace KetSim
variable {R : Type}

/-- Lowering ignores the statement where it follows the given ones: it is of a kind that is skipped,
or it calls a gate that is not in the table, or it declares a second register. -/
def Statement.Ignored (before : List Statement) : Statement → Prop
  | .gateCall name _ => Gate.ofName? name = none
  | .qubits _ _ => ∃ s ∈ before, s.kind = .qubits
  | .version _ | .inclusion _ | .bits _ _ | .measurement _ _ | .barrier _ | .other _ => True

/-- Where a statement stands after another one was put in at a place. -/
def movedPosition (place position : Nat) : Nat :=
  if place ≤ position then position + 1 else position

/-- The error with its position, if it names one, carried over. -/
def Error.mapPosition (f : Nat → Nat) : Error R → Error R
  | .registerSize position size => .registerSize (f position) size
  | .targetOutOfRange position gate index width => .targetOutOfRange (f position) gate index width
  | .arity position gate expected got => .arity (f position) gate expected got
  | .repeatedTarget position gate index => .repeatedTarget (f position) gate index
  | e => e

def Call.mapPosition (f : Nat → Nat) (c : Call) : Call := { c with position := f c.position }

namespace Lowering

def mapPosition (f : Nat → Nat) (l : Lowering) : Lowering where
  position := f l.position
  declaration := l.declaration.map fun d => (f d.1, d.2)
  calls := l.calls.map (Call.mapPosition f)

/-! ## The reading -/

/-- Everything that is kept was read at an earlier position. -/
structure Past (l : Lowering) : Prop where
  declaration : ∀ d ∈ l.declaration, d.1 < l.position
  calls : ∀ c ∈ l.calls, c.position < l.position

theorem past_start : start.Past := ⟨by simp [start], by simp [start]⟩

theorem Past.add {l : Lowering} (hl : l.Past) (s : Statement) : (l.add s).Past := by
  rw [Reading.add_eq]
  constructor
  · intro d hd
    cases hfirst : l.declaration with
    | none =>
      rw [hfirst, Option.none_or] at hd
      obtain ⟨size, -, rfl⟩ := Option.map_eq_some_iff.1 hd
      exact Nat.lt_succ_self _
    | some first =>
      rw [hfirst, Option.some_or] at hd
      exact Nat.lt_succ_of_lt (hl.declaration d (hfirst ▸ hd))
  · intro c hc
    rcases List.mem_append.1 hc with hnew | hold
    · obtain ⟨call, -, rfl⟩ := Option.map_eq_some_iff.1 (Option.mem_toList.1 hnew)
      exact Nat.lt_succ_self _
    · exact Nat.lt_succ_of_lt (hl.calls c hold)

theorem Past.foldl {l : Lowering} (hl : l.Past) (program : List Statement) :
    (program.foldl Lowering.add l).Past := by
  induction program generalizing l with
  | nil => exact hl
  | cons s rest ih => exact ih (hl.add s)

/-- Where everything kept is past, moving what comes from here on moves the position alone. -/
theorem Past.mapPosition_moved {l : Lowering} (hl : l.Past) :
    l.mapPosition (movedPosition l.position) = { l with position := l.position + 1 } := by
  have hstays : ∀ p < l.position, movedPosition l.position p = p := fun p hp =>
    if_neg (Nat.not_le.2 hp)
  rw [mapPosition]
  congr 1
  · exact if_pos (Nat.le_refl _)
  · cases hd : l.declaration with
    | none => rfl
    | some d => rw [Option.map_some, hstays d.1 (hl.declaration d (by simp [hd]))]
  · refine (List.map_congr_left fun c hc => ?_).trans (List.map_id l.calls)
    rw [Call.mapPosition, hstays c.position (hl.calls c hc)]
    rfl

theorem isSome_declaration_foldl {program : List Statement} {l : Lowering}
    (h : l.declaration.isSome ∨ ∃ s ∈ program, s.kind = .qubits) :
    (program.foldl add l).declaration.isSome := by
  induction program generalizing l with
  | nil => simpa using h
  | cons s rest ih =>
    refine ih ?_
    rw [Reading.add_eq, Option.isSome_or, Option.isSome_map, Bool.or_eq_true]
    rcases h with hl | ⟨d, hd, hkind⟩
    · exact Or.inl (Or.inl hl)
    · rcases List.mem_cons.1 hd with rfl | hrest
      · refine Or.inl (Or.inr ?_)
        cases d with
        | qubits identifier size => rfl
        | _ => cases hkind
      · exact Or.inr ⟨d, hrest, hkind⟩

/-- A statement that is ignored takes up a position and changes nothing else. -/
theorem add_of_ignored {before : List Statement} {s : Statement} (hs : s.Ignored before) :
    let l := before.foldl add start
    l.add s = { l with position := l.position + 1 } := by
  intro l
  have hcalled : Reading.called? s = none := by
    cases s with
    | gateCall name targets => simp [Reading.called?, show Gate.ofName? name = none from hs]
    | _ => rfl
  have hdeclared : l.declaration.or ((Reading.declared? s).map (l.position, ·)) = l.declaration := by
    cases s with
    | qubits identifier size =>
      have hsome : l.declaration.isSome := isSome_declaration_foldl (Or.inr hs)
      obtain ⟨first, hfirst⟩ := Option.isSome_iff_exists.1 hsome
      rw [hfirst, Option.some_or]
    | _ => simp [Reading.declared?]
  rw [Reading.add_eq, hcalled, hdeclared]
  rfl

/-- Two readings that differ in positions only still do so after one more statement. -/
theorem add_mapPosition_moved {l : Lowering} {place : Nat} (hl : place ≤ l.position)
    (s : Statement) :
    (l.mapPosition (movedPosition place)).add s = (l.add s).mapPosition (movedPosition place) := by
  have hnext : movedPosition place (l.position + 1) = movedPosition place l.position + 1 := by
    rw [movedPosition, movedPosition, if_pos hl, if_pos (Nat.le_succ_of_le hl)]
  rw [Reading.add_eq, Reading.add_eq, mapPosition, mapPosition]
  congr 1
  · exact hnext.symm
  · cases l.declaration <;> cases Reading.declared? s <;> rfl
  · cases Reading.called? s <;> rfl

/-- Two readings that differ in positions only do so to the end. -/
theorem foldl_add_mapPosition_moved {place : Nat} (program : List Statement) {l : Lowering}
    (hl : place ≤ l.position) :
    program.foldl add (l.mapPosition (movedPosition place)) =
      (program.foldl add l).mapPosition (movedPosition place) := by
  induction program generalizing l with
  | nil => rfl
  | cons s rest ih =>
    rw [List.foldl_cons, List.foldl_cons, add_mapPosition_moved hl]
    refine ih ?_
    rw [Reading.add_eq]
    exact Nat.le_succ_of_le hl

/-! ## The result -/

theorem resolveTargets_mapPosition (f : Nat → Nat) (position : Nat) (gate : Gate) (width : Nat)
    (before : List Qubit) (raws : List Int) :
    resolveTargets (R := R) (f position) gate width before raws =
      (resolveTargets position gate width before raws).mapError (Error.mapPosition f) := by
  induction raws generalizing before with
  | nil => rfl
  | cons raw raws ih =>
    rw [resolveTargets, resolveTargets]
    by_cases hin : 0 ≤ raw ∧ raw < width
    · rw [if_pos hin, if_pos hin]
      by_cases hrepeated : (⟨raw.toNat⟩ : Qubit) ∈ before
      · simp only [if_pos hrepeated]
        rfl
      · simp only [if_neg hrepeated, ih]
        cases resolveTargets (R := R) position gate width (⟨raw.toNat⟩ :: before) raws <;> rfl
    · rw [if_neg hin, if_neg hin]
      rfl

theorem resolve_mapPosition (f : Nat → Nat) (width : Nat) (c : Call) :
    resolve (R := R) width (c.mapPosition f) =
      (resolve width c).mapError (Error.mapPosition f) := by
  rw [resolve, resolve, Call.mapPosition]
  by_cases hl : c.targets.length = c.gate.arity
  · rw [if_pos hl, if_pos hl, resolveTargets_mapPosition]
    cases resolveTargets (R := R) c.position c.gate width [] c.targets <;> rfl
  · rw [if_neg hl, if_neg hl]
    rfl

theorem mapM_resolve_mapPosition (f : Nat → Nat) (width : Nat) (calls : List Call) :
    (calls.map (Call.mapPosition f)).mapM (resolve (R := R) width) =
      (calls.mapM (resolve width)).mapError (Error.mapPosition f) := by
  induction calls with
  | nil => rfl
  | cons c rest ih =>
    rw [List.map_cons, List.mapM_cons, List.mapM_cons, ih, resolve_mapPosition]
    cases resolve (R := R) width c with
    | error e => rfl
    | ok op => cases rest.mapM (resolve (R := R) width) <;> rfl

theorem result_finish_mapPosition (f : Nat → Nat) (l : Lowering) :
    ((l.mapPosition f).finish : Report R Circuit).result =
      (l.finish : Report R Circuit).result.mapError (Error.mapPosition f) := by
  obtain ⟨position, declaration, calls⟩ := l
  cases declaration with
  | none => rfl
  | some d =>
    obtain ⟨first, size⟩ := d
    simp only [finish, mapPosition, Option.map_some, ← List.map_reverse]
    by_cases hs : 0 < size
    · simp only [if_pos hs]
      show Report.result (_ >>= _) = (Report.result (_ >>= _)).mapError _
      rw [Report.result_bind, Report.result_bind, Report.result_ofExcept, Report.result_ofExcept,
        mapM_resolve_mapPosition]
      cases calls.reverse.mapM (resolve (R := R) size.toNat) <;> rfl
    · simp only [if_neg hs]
      rfl

end Lowering

namespace Circuit
open Lowering

theorem result_ofStatements_eq_finish (program : List Statement) :
    (ofStatements program : Report R Circuit).result =
      ((program.foldl add start).finish : Report R Circuit).result := by
  rw [ofStatements, Report.result_bind, Report.result_lift, Reading.value_addAll]
  rfl

/-- **Statements that are ignored can be put in anywhere.** A program with a further statement that
is ignored where it stands has the same circuit, or is refused for the same reason. A position that
the reason names is the old one, and one further from the place of the new statement on. -/
theorem ofStatements_insert {before : List Statement} {s : Statement} (hs : s.Ignored before)
    (after : List Statement) :
    (ofStatements (before ++ s :: after) : Report R Circuit).result =
      (ofStatements (before ++ after) : Report R Circuit).result.mapError
        (Error.mapPosition (movedPosition before.length)) := by
  have hpast : (before.foldl add start).Past := past_start.foldl before
  have hposition : (before.foldl add start).position = before.length := by
    rw [Reading.foldl_add_eq]
    exact Nat.zero_add _
  -- after the new statement the reading is the old one with all that follows moved
  have hmoved : (before.foldl add start).add s =
      (before.foldl add start).mapPosition (movedPosition before.length) := by
    rw [add_of_ignored hs, ← hposition, hpast.mapPosition_moved]
  rw [result_ofStatements_eq_finish, result_ofStatements_eq_finish, List.foldl_append,
    List.foldl_append, List.foldl_cons, hmoved,
    foldl_add_mapPosition_moved after (Nat.le_of_eq hposition.symm), result_finish_mapPosition]

/-- A second register that makes no sense, and a call of an unknown gate before the first register,
put into a program that is refused: the position of the reason moves in both. -/
theorem ofStatements_insert_refused :
    let before : List Statement := [.declare 2]
    let after : List Statement := [.gateCall "x" [0], .gateCall "cx" [1, 1]]
    Statement.Ignored before (.declare (-7)) ∧
    (ofStatements (before ++ .declare (-7) :: after) : Report Unit Circuit).result =
      (.error (.repeatedTarget 2 "cx" 1) : Except (Error Unit) Circuit).mapError
        (Error.mapPosition (movedPosition 1)) ∧
    (ofStatements (.gateCall "ccx" [9, 9] :: (before ++ after)) : Report Unit Circuit).result =
      .error (.repeatedTarget 3 "cx" 1) := by
  intro before after
  have hsecond : Statement.Ignored before (.declare (-7)) := ⟨.declare 2, by simp [before], rfl⟩
  have hunknown : Statement.Ignored [] (.gateCall "ccx" [9, 9]) := rfl
  exact ⟨hsecond, ofStatements_insert hsecond after, ofStatements_insert hunknown (before ++ after)⟩

end Circuit

end KetSim
