import KetSim.Circuit
import Mathlib.Data.List.Nodup
/-!
# Circuits that fit

`Operation.Fits` and `Circuit.Valid` say what a checked circuit is: a register that is not empty,
and operations with the right number of qubits, all inside the register, none twice. The check
accepts exactly these (`Circuit.check_eq_ok_iff`). An operation that fits is a gate on one qubit or
a controlled flip on two different ones (`Operation.Fits.cases`).
-/
namespace KetSim

/-- The operation can be applied to a register of the given width. -/
structure Operation.Fits (width : Nat) (op : Operation) : Prop where
  length_eq : op.targets.length = op.gate.arity
  inside : ∀ q ∈ op.targets, q.index < width
  nodup : op.targets.Nodup

/-- The register is not empty and all operations fit it. -/
structure Circuit.Valid (c : Circuit) : Prop where
  width_pos : 0 < c.width
  fits : ∀ op ∈ c.operations, op.Fits c.width

namespace Operation

theorem fits_single {width : Nat} {g : Gate} {q : Qubit} (hg : g ≠ .cnot) (hq : q.index < width) :
    (single g q).Fits width where
  length_eq := by
    cases g with
    | cnot => exact absurd rfl hg
    | _ => rfl
  inside := by simpa [single] using hq
  nodup := by simp [single]

theorem fits_cnot {width : Nat} {c t : Qubit} (hc : c.index < width) (ht : t.index < width)
    (hct : c ≠ t) : (cnot c t).Fits width where
  length_eq := rfl
  inside := by simpa [cnot] using ⟨hc, ht⟩
  nodup := by simpa [cnot] using hct

/-- The two kinds of operations that fit. -/
theorem Fits.cases {width : Nat} {op : Operation} (h : op.Fits width) :
    (∃ g q, op = single g q ∧ g ≠ .cnot ∧ q.index < width) ∨
    (∃ c t, op = cnot c t ∧ c.index < width ∧ t.index < width ∧ c ≠ t) := by
  obtain ⟨g, qs⟩ := op
  obtain ⟨hl, hin, hnd⟩ := h
  by_cases hg : g = .cnot
  · subst hg
    match qs, hl with
    | [c, t], _ => exact Or.inr ⟨c, t, rfl, hin c (by simp), hin t (by simp), by simpa using hnd⟩
  · have h1 : qs.length = 1 := by
      rw [hl]
      cases g with
      | cnot => exact absurd rfl hg
      | _ => rfl
    obtain ⟨q, rfl⟩ := List.length_eq_one_iff.1 h1
    exact Or.inl ⟨g, q, rfl, hg, hin q (by simp)⟩

/-- An operation still fits after its qubits were carried over to another register, different ones
to different ones. -/
theorem Fits.map {n m : Nat} {op : Operation} (hop : op.Fits n) {f : Qubit → Qubit}
    (hlt : ∀ q : Qubit, q.index < n → (f q).index < m)
    (hinj : ∀ p q : Qubit, p.index < n → q.index < n → f p = f q → p = q) :
    Operation.Fits m ⟨op.gate, op.targets.map f⟩ where
  length_eq := by simpa using hop.length_eq
  inside q hq := by
    obtain ⟨p, hp, rfl⟩ := List.mem_map.1 hq
    exact hlt p (hop.inside p hp)
  nodup := List.Nodup.map_on
    (fun p hp q hq => hinj p q (hop.inside p hp) (hop.inside q hq)) hop.nodup

theorem Fits.exists_target {width : Nat} {op : Operation} (hop : op.Fits width) :
    ∃ t, op.target? = some t ∧ t.index < width := by
  rcases hop.cases with ⟨g, q, rfl, -, hq⟩ | ⟨c, t, rfl, -, ht, -⟩
  · exact ⟨q, target?_single g q, hq⟩
  · exact ⟨t, target?_cnot c t, ht⟩

end Operation

/-- The error says of a register or of an operation why they do not fit. -/
def Error.IsMisfit {R : Type} : Error R → Prop
  | .registerSize _ _ | .arity _ _ _ _ | .targetOutOfRange _ _ _ _ | .repeatedTarget _ _ _ => True
  | _ => False

namespace Circuit
variable {R : Type}

theorem isMisfit_of_checkTargets {position width : Nat} {gate : Gate} {problem : Error R} :
    ∀ {before qs : List Qubit},
      checkTargets position gate width before qs = .error problem → problem.IsMisfit
  | _, [], h => by cases h
  | before, q :: qs, h => by
    rw [checkTargets] at h
    split at h
    · cases h
      trivial
    · split at h
      · cases h
        trivial
      · exact isMisfit_of_checkTargets h

theorem isMisfit_of_checkFrom {width : Nat} {problem : Error R} :
    ∀ {position : Nat} {ops : List Operation},
      checkFrom width position ops = .error problem → problem.IsMisfit
  | _, [], h => by cases h
  | position, op :: ops, h => by
    rw [checkFrom] at h
    cases hop : checkOperation (R := R) width position op with
    | error e =>
      rw [hop] at h
      cases h
      rw [checkOperation] at hop
      split at hop
      · exact isMisfit_of_checkTargets hop
      · cases hop
        trivial
    | ok u =>
      rw [hop] at h
      exact isMisfit_of_checkFrom h

/-- The check refuses a circuit for nothing but a misfit. -/
theorem isMisfit_of_check {c : Circuit} {problem : Error R} (h : c.check = .error problem) :
    problem.IsMisfit := by
  rw [check] at h
  split at h
  · cases h
    trivial
  · exact isMisfit_of_checkFrom h

theorem checkTargets_eq_ok_iff {position width : Nat} {gate : Gate} :
    ∀ {before qs : List Qubit},
      checkTargets (R := R) position gate width before qs = .ok () ↔
        (∀ q ∈ qs, q.index < width) ∧ qs.Nodup ∧ ∀ q ∈ qs, q ∉ before
  | before, [] => by simp [checkTargets]
  | before, q :: qs => by
    rw [checkTargets]
    by_cases hq : width ≤ q.index
    · simp [hq, show ¬ q.index < width by omega]
    · by_cases hb : q ∈ before
      · simp [hq, hb]
      · rw [if_neg hq, if_neg hb, checkTargets_eq_ok_iff]
        rw [List.forall_mem_cons, List.forall_mem_cons, List.nodup_cons]
        simp only [List.mem_cons, not_or]
        constructor
        · rintro ⟨h1, h2, h3⟩
          exact ⟨⟨by omega, h1⟩, ⟨fun hm => (h3 q hm).1 rfl, h2⟩, hb, fun x hx => (h3 x hx).2⟩
        · rintro ⟨⟨-, h1⟩, ⟨hn, h2⟩, -, h3⟩
          exact ⟨h1, h2, fun x hx => ⟨fun e => hn (e ▸ hx), h3 x hx⟩⟩

theorem checkOperation_eq_ok_iff {width position : Nat} {op : Operation} :
    checkOperation (R := R) width position op = .ok () ↔ op.Fits width := by
  rw [checkOperation]
  split
  · rename_i hl
    rw [checkTargets_eq_ok_iff]
    constructor
    · rintro ⟨hin, hnd, -⟩
      exact ⟨hl, hin, hnd⟩
    · intro h
      exact ⟨h.inside, h.nodup, by simp⟩
  · rename_i hl
    constructor
    · intro h
      cases h
    · intro h
      exact absurd h.length_eq hl

theorem checkFrom_eq_ok_iff {width : Nat} {ops : List Operation} {position : Nat} :
    checkFrom (R := R) width position ops = .ok () ↔ ∀ op ∈ ops, op.Fits width := by
  induction ops generalizing position with
  | nil => simp [checkFrom]
  | cons op ops ih =>
    rw [checkFrom, List.forall_mem_cons, ← @ih (position + 1),
      ← @checkOperation_eq_ok_iff R width position op]
    cases checkOperation (R := R) width position op with
    | error e => simp [bind, Except.bind]
    | ok u => simp [bind, Except.bind]

/-- The check accepts exactly the valid circuits. -/
theorem check_eq_ok_iff {c : Circuit} : c.check (R := R) = .ok () ↔ c.Valid := by
  rw [check]
  split
  · rename_i h0
    constructor
    · intro h
      cases h
    · intro h
      exact absurd h0 (Nat.pos_iff_ne_zero.1 h.width_pos)
  · rename_i h0
    rw [checkFrom_eq_ok_iff]
    exact ⟨fun h => ⟨Nat.pos_of_ne_zero h0, h⟩, fun h => h.fits⟩

end Circuit

end KetSim
