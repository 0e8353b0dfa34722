import KetSim.Proofs.Picture
/-!
# A drawing tells its circuit

The heading of a drawing tells the number of operations and of qubits. Of an operation that fits the
register the column tells the target, where the letter of the gate stands, and the control, where
`@` stands; and the two controlled gates with one letter are told apart by having a control
(`Operation.Fits.eq_of_mark`). So checked circuits with one drawing are equal
(`Circuit.drawing_faithful`).
-/
namespace KetSim

/-! ## Columns -/

namespace Gate

theorem symbol_ne_control (g : Gate) : g.symbol ≠ '@' := by cases g <;> decide

theorem symbol_ne_wire (g : Gate) : g.symbol ≠ '─' := by cases g <;> decide

/-- Letters tell apart the gates without control. -/
theorem symbol_inj {g g' : Gate} (hg : g ≠ .cnot) (hg' : g' ≠ .cnot) (h : g.symbol = g'.symbol) :
    g = g' := by
  cases g <;> cases g' <;> simp_all [symbol]

end Gate

namespace Operation

theorem mark_target {op : Operation} {t : Qubit} (h : op.target? = some t) :
    op.mark t.index = op.gate.symbol := if_pos h

theorem mark_control {op : Operation} {c : Qubit} (h : op.control? = some c)
    (ht : op.target? ≠ some c) : op.mark c.index = '@' := by
  rw [mark, if_neg ht, if_pos h]

theorem target?_of_mark {op : Operation} {row : Nat} (hcontrol : op.mark row ≠ '@')
    (hwire : op.mark row ≠ '─') : op.target? = some ⟨row⟩ := by
  by_contra htarget
  rw [mark, if_neg htarget] at hcontrol hwire
  split at hcontrol
  · exact hcontrol rfl
  · rename_i hnone
    rw [if_neg hnone] at hwire
    exact hwire rfl

theorem control?_of_mark {op : Operation} {row : Nat} (h : op.mark row = '@') :
    op.control? = some ⟨row⟩ := by
  unfold mark at h
  split at h
  · exact absurd h op.gate.symbol_ne_control
  · split at h
    · assumption
    · exact absurd h (by decide)

variable {n : Nat} {a b : Operation}

/-- Where the marks are those of an operation that fits, the target and the letter are too. -/
theorem Fits.target_of_mark (ha : a.Fits n) (h : ∀ row < n, a.mark row = b.mark row) :
    a.target? = b.target? ∧ a.gate.symbol = b.gate.symbol := by
  obtain ⟨t, ht, hlt⟩ := ha.exists_target
  have hmark : b.mark t.index = a.gate.symbol := by rw [← h t.index hlt, mark_target ht]
  have htb : b.target? = some t :=
    target?_of_mark (hmark ▸ a.gate.symbol_ne_control) (hmark ▸ a.gate.symbol_ne_wire)
  exact ⟨ht.trans htb.symm, hmark.symm.trans (mark_target htb)⟩

/-- Where the marks are those of an operation that fits, its control is told. -/
theorem Fits.control_of_mark (ha : a.Fits n) (h : ∀ row < n, a.mark row = b.mark row) {c : Qubit}
    (hc : a.control? = some c) : b.control? = some c := by
  rcases ha.cases with ⟨g, q, rfl, hg, -⟩ | ⟨c', t, rfl, hlt, -, hne⟩
  · rw [control?_single hg] at hc
    cases hc
  · obtain rfl : c' = c := Option.some.inj ((control?_cnot c' t).symm.trans hc)
    have htarget : (cnot c' t).target? ≠ some c' := by simpa using Ne.symm hne
    exact control?_of_mark ((h c'.index hlt).symm.trans (mark_control hc htarget))

/-- **A column tells its operation**, if the operation fits the register. -/
theorem Fits.eq_of_mark (ha : a.Fits n) (hb : b.Fits n)
    (h : ∀ row < n, a.mark row = b.mark row) : a = b := by
  obtain ⟨htarget, hsymbol⟩ := ha.target_of_mark h
  have hback : ∀ row < n, b.mark row = a.mark row := fun row hrow => (h row hrow).symm
  rcases ha.cases with ⟨g, q, rfl, hg, -⟩ | ⟨c, t, rfl, -, -, -⟩
  · rcases hb.cases with ⟨g', q', rfl, hg', -⟩ | ⟨c', t', rfl, -, -, -⟩
    · obtain rfl : q = q' := by simpa using htarget
      obtain rfl : g = g' := Gate.symbol_inj hg hg' hsymbol
      rfl
    · have := hb.control_of_mark hback (control?_cnot c' t')
      rw [control?_single hg] at this
      cases this
  · have hcontrol := ha.control_of_mark h (control?_cnot c t)
    rcases hb.cases with ⟨g', q', rfl, hg', -⟩ | ⟨c', t', rfl, -, -, -⟩
    · rw [control?_single hg'] at hcontrol
      cases hcontrol
    · obtain rfl : t = t' := by simpa using htarget
      obtain rfl : c' = c := by simpa using hcontrol
      rfl

end Operation

namespace Circuit
variable {c d : Circuit}

/-! ## Headings -/

theorem toDigits_injective {m n : Nat} (h : Nat.toDigits 10 m = Nat.toDigits 10 n) : m = n := by
  have hread (k : Nat) : Nat.ofDigitChars 10 (Nat.toDigits 10 k) 0 = k :=
    Nat.ofDigitChars_toDigits (by decide) (by decide)
  rw [← hread m, h, hread]

theorem toList_heading (c : Circuit) :
    c.heading.toList = "CircuitPlan[".toList ++ (Nat.toDigits 10 c.operations.length ++
      ' ' :: ("operations on ".toList ++ (Nat.toDigits 10 c.width ++ ' ' :: "qubits]".toList))) := by
  simp [heading]

/-- A heading tells how many operations and qubits there are. -/
theorem heading_inj (h : c.heading.toList = d.heading.toList) :
    c.operations.length = d.operations.length ∧ c.width = d.width := by
  have hblank (n : Nat) : ' ' ∉ Nat.toDigits 10 n := notMem_toDigits (by decide) n
  rw [toList_heading, toList_heading] at h
  obtain ⟨hcount, hrest⟩ := append_cons_inj (hblank _) (hblank _) (List.append_cancel_left h)
  obtain ⟨hwidth, -⟩ := append_cons_inj (hblank _) (hblank _) (List.append_cancel_left hrest)
  exact ⟨toDigits_injective hcount, toDigits_injective hwidth⟩

/-! ## Drawings -/

/-- Lines that are laid out as drawings of two circuits show the same marks. -/
theorem LaidOut.mark_eq {lines : List (List Char)} (hc : c.LaidOut lines) (hd : d.LaidOut lines)
    (hwidth : c.width = d.width) {t : Nat} {a b : Operation} (ha : c.operations[t]? = some a)
    (hb : d.operations[t]? = some b) : ∀ row < c.width, a.mark row = b.mark row := by
  intro row hrow
  obtain ⟨line, hline, -, hmarks⟩ := hc.wire row hrow
  obtain ⟨line', hline', -, hmarks'⟩ := hd.wire row (hwidth ▸ hrow)
  obtain rfl : line = line' := Option.some.inj (hline.symm.trans hline')
  have hshown := hmarks t a ha 3 (by decide)
  rw [hwidth, hmarks' t b hb 3 (by decide)] at hshown
  exact (Option.some.inj hshown).symm

/-- Checked circuits with the same lines are equal. -/
theorem eq_of_picture (hc : c.Valid) (hd : d.Valid) (h : c.picture = d.picture) : c = d := by
  obtain ⟨hcount, hwidth⟩ := heading_inj (List.cons.inj h).1
  suffices hops : c.operations = d.operations by
    obtain ⟨n, ops⟩ := c
    obtain ⟨n', ops'⟩ := d
    simp only at hops hwidth
    rw [hops, hwidth]
  by_cases hnone : c.operations = []
  · rw [hnone, List.length_nil] at hcount
    rw [hnone, List.length_eq_zero_iff.1 hcount.symm]
  · have hnone' : d.operations ≠ [] := by
      rintro e
      rw [e, List.length_nil] at hcount
      exact hnone (List.length_eq_zero_iff.1 hcount)
    have hlaid' : d.LaidOut c.picture := h ▸ laidOut_picture hnone'
    refine List.ext_getElem hcount fun t ht ht' => ?_
    refine (hc.fits _ (List.getElem_mem ht)).eq_of_mark ?_ ?_
    · rw [hwidth]
      exact hd.fits _ (List.getElem_mem ht')
    · exact (laidOut_picture hnone).mark_eq hlaid' hwidth (List.getElem?_eq_getElem ht)
        (List.getElem?_eq_getElem ht')

/-- **A drawing is faithful.** Every checked circuit has a drawing: its heading, and if there are
operations a wire line for each qubit and a line between each two of them, all as long as the widest
label needs and the operations, each of which shows its marks and links in the middle of its column.
Where its rows can be held, the drawing is given. No other checked circuit has the same one. -/
theorem drawing_faithful {R : Type} (hc : c.check (R := R) = .ok ()) :
    ∃ text lines, c.drawing = .ok text ∧ ConsistsOf text lines ∧
      (c.operations = [] → lines = [c.heading.toList]) ∧
      (c.operations ≠ [] → c.LaidOut lines) ∧
      IsGreatest {w | ∃ row < c.width, w = (Qubit.text ⟨row⟩).length + 2} (labelWidth c.width) ∧
      (c.operations = [] ∨ c.width ≤ maxRows → c.draw = .ok text) ∧
      ∀ d : Circuit, d.check (R := R) = .ok () →
        d.drawing = .ok text ∨ d.draw = .ok text → d = c := by
  have hv := check_eq_ok_iff.1 hc
  refine ⟨_, c.picture, hv.drawing_eq, consistsOf_picture c, fun hops => ?_, laidOut_picture,
    isGreatest_labelWidth hv.width_pos, fun hheld => ?_, fun d hd hdraw => ?_⟩
  · rw [picture, if_pos hops]
  · rw [draw_eq_drawing hheld, hv.drawing_eq]
  · have hvd := check_eq_ok_iff.1 hd
    have hdrawing : d.drawing = .ok (textOfLines c.picture) := hdraw.elim id drawing_of_draw
    rw [hvd.drawing_eq] at hdrawing
    have htext : ConsistsOf (textOfLines c.picture) d.picture :=
      Except.ok.inj hdrawing ▸ consistsOf_picture d
    exact eq_of_picture hvd hv (htext.unique (consistsOf_picture c))

/-- Flips upward and downward, in a register that is wide enough for labels of two lengths. -/
theorem drawing_faithful_flips :
    let c : Circuit := ⟨11, [.cnot ⟨10⟩ ⟨8⟩, .single .x ⟨9⟩, .cnot ⟨9⟩ ⟨10⟩]⟩
    c.check (R := Unit) = .ok () ∧
    ∃ text lines, c.draw = .ok text ∧ c.LaidOut lines ∧ ConsistsOf text lines ∧
      ((⟨11, [.cnot ⟨8⟩ ⟨10⟩, .single .x ⟨9⟩, .cnot ⟨9⟩ ⟨10⟩]⟩ : Circuit).drawing ≠ .ok text) := by
  intro c
  have hc : c.check (R := Unit) = .ok () := rfl
  obtain ⟨text, lines, -, hlines, -, hlaid, -, hdraw, hunique⟩ := drawing_faithful hc
  refine ⟨hc, text, lines, hdraw (Or.inr (by decide)), hlaid (by simp [c]), hlines, fun hsame => ?_⟩
  have := hunique ⟨11, [.cnot ⟨8⟩ ⟨10⟩, .single .x ⟨9⟩, .cnot ⟨9⟩ ⟨10⟩]⟩ rfl
    (Or.inl hsame)
  exact absurd this (by decide)

end Circuit

end KetSim
