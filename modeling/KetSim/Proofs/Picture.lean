import KetSim.Proofs.Drawing
import KetSim.Proofs.Fitting
import Mathlib.Order.Bounds.Basic
/-!
# How a drawing is laid out

A picture is its heading and, if there are operations, a wire line for every qubit and a line
between each two of them. All of these are equally long: the room for the widest label, then seven
characters for each operation (`Circuit.laidOut_picture`). No line has a line break in it, so the
lines of a text can be told apart (`ConsistsOf.unique`). Whatever the circuit, checked or not, there
is such a drawing unless an operation lacks a wire (`Circuit.drawing_settles`).
-/
namespace KetSim

/-! ## Lines of a text -/

/-- The text consists of the lines, each ended by a line break and none with one in it. -/
structure ConsistsOf (text : String) (lines : List (List Char)) : Prop where
  toList_eq : text.toList = lines.flatMap (· ++ ['\n'])
  unbroken : ∀ line ∈ lines, '\n' ∉ line

/-- What comes before the first occurrence of a character is told by the text. -/
theorem append_cons_inj {c : Char} :
    ∀ {xs ys : List Char} {rest rest' : List Char}, c ∉ xs → c ∉ ys →
      xs ++ c :: rest = ys ++ c :: rest' → xs = ys ∧ rest = rest'
  | [], [], _, _, _, _, h => ⟨rfl, (List.cons.inj h).2⟩
  | [], y :: ys, _, _, _, hy, h => by
    rw [(List.cons.inj h).1] at hy
    exact absurd List.mem_cons_self hy
  | x :: xs, [], _, _, hx, _, h => by
    rw [← (List.cons.inj h).1] at hx
    exact absurd List.mem_cons_self hx
  | x :: xs, y :: ys, _, _, hx, hy, h => by
    obtain ⟨hxy, h⟩ := List.cons.inj h
    have ih := append_cons_inj (List.not_mem_of_not_mem_cons hx) (List.not_mem_of_not_mem_cons hy) h
    exact ⟨by rw [hxy, ih.1], ih.2⟩

/-- A text has only one division into lines. -/
theorem ConsistsOf.unique {text : String} {lines lines' : List (List Char)}
    (h : ConsistsOf text lines) (h' : ConsistsOf text lines') : lines = lines' := by
  obtain ⟨htext, hlines⟩ := h
  obtain ⟨htext', hlines'⟩ := h'
  rw [htext] at htext'
  clear htext
  induction lines generalizing lines' with
  | nil => cases lines' <;> simp_all
  | cons line lines ih =>
    cases lines' with
    | nil => simp at htext'
    | cons line' lines' =>
      simp only [List.flatMap_cons, List.append_assoc, List.singleton_append] at htext'
      obtain ⟨hline, hrest⟩ := List.forall_mem_cons.1 hlines
      obtain ⟨hline', hrest'⟩ := List.forall_mem_cons.1 hlines'
      obtain ⟨e, erest⟩ := append_cons_inj hline hline' htext'
      rw [e, ih hrest erest hrest']

theorem notMem_toDigits {c : Char} (hc : c.isDigit = false) (n : Nat) : c ∉ Nat.toDigits 10 n := by
  intro h
  rw [Nat.isDigit_of_mem_toDigits (by decide) (by decide) h] at hc
  cases hc

/-! ## Columns -/

/-- The length of what is put together from pieces of one length. -/
theorem length_flatMap_of_length {α β : Type} {f : α → List β} {n : Nat}
    (hf : ∀ a, (f a).length = n) (l : List α) : (l.flatMap f).length = n * l.length := by
  rw [List.length_flatMap, List.map_congr_left fun a _ => hf a, List.map_const',
    List.sum_replicate_nat, Nat.mul_comm]

theorem getElem?_flatMap_of_length {α β : Type} {f : α → List β} {n : Nat}
    (hf : ∀ a, (f a).length = n) {k : Nat} (hk : k < n) (l : List α) (i : Nat) :
    (l.flatMap f)[n * i + k]? = l[i]?.bind fun a => (f a)[k]? := by
  induction l generalizing i with
  | nil => simp
  | cons a l ih =>
    rw [List.flatMap_cons]
    cases i with
    | zero => simp [List.getElem?_append_left (show k < (f a).length by rw [hf]; exact hk)]
    | succ i =>
      have hskip : n * (i + 1) + k = (f a).length + (n * i + k) := by rw [hf, Nat.mul_succ]; omega
      rw [hskip, List.getElem?_append_right (by omega), Nat.add_sub_cancel_left, ih,
        List.getElem?_cons_succ]

namespace Circuit

theorem length_cell (fill mark : Char) : (cell fill mark).length = 7 := rfl

theorem getElem?_cell (fill mark : Char) {k : Nat} (hk : k < 7) :
    (cell fill mark)[k]? = some (if k = 3 then mark else fill) := by
  match k, hk with
  | 0, _ | 1, _ | 2, _ | 3, _ | 4, _ | 5, _ | 6, _ => rfl

/-! ## Labels -/

theorem labelWidth_succ (n : Nat) :
    labelWidth (n + 1) = max (labelWidth n) ((Qubit.text ⟨n⟩).length + 2) := by
  simp only [labelWidth, List.range_succ, List.map_append, List.map_cons, List.map_nil,
    List.foldl_append, List.foldl_cons, List.foldl_nil]
  omega

theorem le_labelWidth {width row : Nat} (h : row < width) :
    (Qubit.text ⟨row⟩).length + 2 ≤ labelWidth width := by
  induction width with
  | zero => omega
  | succ n ih =>
    rw [labelWidth_succ]
    rcases Nat.lt_succ_iff_lt_or_eq.1 h with hlt | rfl
    · exact Nat.le_trans (ih hlt) (Nat.le_max_left _ _)
    · exact Nat.le_max_right _ _

theorem exists_labelWidth_eq {width : Nat} (h : 0 < width) :
    ∃ row < width, (Qubit.text ⟨row⟩).length + 2 = labelWidth width := by
  induction width with
  | zero => omega
  | succ n ih =>
    rw [labelWidth_succ]
    rcases Nat.eq_zero_or_pos n with rfl | hn
    · exact ⟨0, by omega, rfl⟩
    · obtain ⟨row, hrow, hwidth⟩ := ih hn
      rcases Nat.le_total (labelWidth n) ((Qubit.text ⟨n⟩).length + 2) with hle | hle
      · exact ⟨n, by omega, (Nat.max_eq_right hle).symm⟩
      · exact ⟨row, by omega, by rw [hwidth, Nat.max_eq_left hle]⟩

/-- The room for labels is that for the widest label of a qubit, with a colon and a blank. -/
theorem isGreatest_labelWidth {width : Nat} (h : 0 < width) :
    IsGreatest {w | ∃ row < width, w = (Qubit.text ⟨row⟩).length + 2} (labelWidth width) := by
  constructor
  · obtain ⟨row, hrow, hwidth⟩ := exists_labelWidth_eq h
    exact ⟨row, hrow, hwidth.symm⟩
  · rintro w ⟨row, hrow, rfl⟩
    exact le_labelWidth hrow

theorem length_rowLabel {width row : Nat} (h : row < width) :
    (rowLabel width row).length = labelWidth width := by
  have := le_labelWidth h
  simp only [rowLabel, List.length_append, String.length_toList, List.length_cons, List.length_nil,
    List.length_replicate]
  omega

/-! ## Lines -/

theorem getElem?_columns {start : List Char} {width : Nat} (h : start.length = width) (fill : Char)
    (marks : List Char) (t : Nat) {k : Nat} (hk : k < 7) :
    (start ++ marks.flatMap (cell fill))[width + 7 * t + k]? =
      marks[t]?.map fun mark => if k = 3 then mark else fill := by
  rw [List.getElem?_append_right (by omega), show width + 7 * t + k - start.length = 7 * t + k by
    omega, getElem?_flatMap_of_length (length_cell fill) hk]
  cases marks[t]? with
  | none => rfl
  | some mark => exact getElem?_cell fill mark hk

theorem length_columns {start : List Char} {width : Nat} (h : start.length = width) (fill : Char)
    (marks : List Char) :
    (start ++ marks.flatMap (cell fill)).length = width + 7 * marks.length := by
  rw [List.length_append, h, length_flatMap_of_length (length_cell fill)]

def wirePicture (c : Circuit) (row : Nat) : List Char :=
  wireLine c.width row (c.operations.map (·.mark row))

def linkPicture (c : Circuit) (row : Nat) : List Char :=
  linkLine c.width (c.operations.map (·.link row))

/-- The rows of a picture: two lines for each but the last one. -/
theorem flatMap_rowPicture {c : Circuit} {n : Nat} (h : c.width = n + 1) :
    (List.range c.width).flatMap c.rowPicture =
      ((List.range n).flatMap fun row => [c.wirePicture row, c.linkPicture row]) ++
        [c.wirePicture n] := by
  have hrows : ∀ row ∈ List.range n,
      c.rowPicture row = [c.wirePicture row, c.linkPicture row] := by
    intro row hrow
    have hnext : row + 1 < c.width := by
      have := List.mem_range.1 hrow
      omega
    simp only [rowPicture, if_pos hnext, wirePicture, linkPicture]
  have hlast : c.rowPicture n = [c.wirePicture n] := by
    simp only [rowPicture, if_neg (show ¬ n + 1 < c.width by omega), wirePicture]
  rw [h, List.range_succ, List.flatMap_append, List.flatMap_singleton, hlast, List.flatMap,
    List.map_congr_left hrows, ← List.flatMap]

variable {c : Circuit}

theorem length_pairs (n : Nat) :
    ((List.range n).flatMap fun row => [c.wirePicture row, c.linkPicture row]).length = 2 * n := by
  rw [length_flatMap_of_length (n := 2) fun _ => rfl, List.length_range]

theorem getElem?_pairs {n row k : Nat} (hrow : row < n) (hk : k < 2) :
    ((List.range n).flatMap fun row => [c.wirePicture row, c.linkPicture row])[2 * row + k]? =
      [c.wirePicture row, c.linkPicture row][k]? := by
  rw [getElem?_flatMap_of_length (n := 2) (fun _ => rfl) hk, List.getElem?_range hrow]
  rfl

theorem length_picture (hops : c.operations ≠ []) :
    c.picture.length = 1 + (2 * c.width - 1) := by
  rw [picture, if_neg hops, List.length_cons]
  cases hwidth : c.width with
  | zero => rfl
  | succ n =>
    rw [← hwidth, flatMap_rowPicture hwidth, List.length_append, length_pairs,
      List.length_singleton, hwidth]
    omega

theorem picture_wire (hops : c.operations ≠ []) {row : Nat} (hrow : row < c.width) :
    c.picture[2 * row + 1]? = some (c.wirePicture row) := by
  obtain ⟨n, hwidth⟩ := Nat.exists_eq_add_of_lt (Nat.zero_lt_of_lt hrow)
  rw [Nat.zero_add] at hwidth
  rw [picture, if_neg hops, List.getElem?_cons_succ, flatMap_rowPicture hwidth]
  rcases Nat.lt_or_ge row n with hlt | hge
  · rw [List.getElem?_append_left (by rw [length_pairs]; omega)]
    exact getElem?_pairs hlt Nat.two_pos
  · obtain rfl : row = n := by omega
    rw [List.getElem?_append_right (by rw [length_pairs]), length_pairs, Nat.sub_self]
    rfl

theorem picture_link (hops : c.operations ≠ []) {row : Nat} (hrow : row + 1 < c.width) :
    c.picture[2 * row + 2]? = some (c.linkPicture row) := by
  obtain ⟨n, hwidth⟩ := Nat.exists_eq_add_of_lt (Nat.zero_lt_of_lt hrow)
  rw [Nat.zero_add] at hwidth
  have hlt : row < n := by omega
  rw [picture, if_neg hops, List.getElem?_cons_succ, flatMap_rowPicture hwidth,
    List.getElem?_append_left (by rw [length_pairs]; omega)]
  exact getElem?_pairs hlt Nat.one_lt_two

/-- A line below the heading is the line of some row. -/
theorem exists_of_mem_picture (hops : c.operations ≠ []) {line : List Char}
    (h : line ∈ c.picture.tail) :
    ∃ row < c.width, line = c.wirePicture row ∨ line = c.linkPicture row := by
  rw [picture, if_neg hops, List.tail_cons] at h
  obtain ⟨row, hrow, hline⟩ := List.mem_flatMap.1 h
  refine ⟨row, List.mem_range.1 hrow, ?_⟩
  rcases List.mem_cons.1 hline with hwire | hbelow
  · exact Or.inl hwire
  · split at hbelow
    · exact Or.inr (List.mem_singleton.1 hbelow)
    · cases hbelow

theorem length_wirePicture {row : Nat} (hrow : row < c.width) :
    (c.wirePicture row).length = labelWidth c.width + 7 * c.operations.length := by
  rw [wirePicture, wireLine, length_columns (length_rowLabel hrow), List.length_map]

theorem length_linkPicture (row : Nat) :
    (c.linkPicture row).length = labelWidth c.width + 7 * c.operations.length := by
  rw [linkPicture, linkLine, length_columns List.length_replicate, List.length_map]

/-- The lines are laid out as a drawing of the circuit. -/
structure LaidOut (c : Circuit) (lines : List (List Char)) : Prop where
  heading : lines.head? = some c.heading.toList
  /-- Below the heading stand a wire line for each qubit and a line between each two of them. -/
  length_eq : lines.length = 1 + (2 * c.width - 1)
  length_line : ∀ line ∈ lines.tail, line.length = labelWidth c.width + 7 * c.operations.length
  /-- The wire line of a qubit starts with its label, and in the column of every operation it shows
  the mark of the operation. -/
  wire : ∀ row < c.width, ∃ drawn, lines[2 * row + 1]? = some drawn ∧
    (Qubit.text ⟨row⟩).toList ++ [':', ' '] <+: drawn ∧
    ∀ t op, c.operations[t]? = some op → ∀ k < 7,
      drawn[labelWidth c.width + 7 * t + k]? = some (if k = 3 then op.mark row else '─')
  /-- The line below that of a qubit is blank but for the links of the operations. -/
  link : ∀ row, row + 1 < c.width → ∃ drawn, lines[2 * row + 2]? = some drawn ∧
    List.replicate (labelWidth c.width) ' ' <+: drawn ∧
    ∀ t op, c.operations[t]? = some op → ∀ k < 7,
      drawn[labelWidth c.width + 7 * t + k]? = some (if k = 3 then op.link row else ' ')

/-- **A picture is laid out as a drawing**, whatever its circuit. -/
theorem laidOut_picture (hops : c.operations ≠ []) : c.LaidOut c.picture where
  heading := rfl
  length_eq := length_picture hops
  length_line line h := by
    obtain ⟨row, hrow, rfl | rfl⟩ := exists_of_mem_picture hops h
    · exact length_wirePicture hrow
    · exact length_linkPicture row
  wire row hrow := by
    refine ⟨_, picture_wire hops hrow, ?_, fun t op hop k hk => ?_⟩
    · rw [wirePicture, wireLine, rowLabel, List.append_assoc]
      exact List.prefix_append _ _
    · rw [wirePicture, wireLine, getElem?_columns (length_rowLabel hrow) _ _ _ hk,
        List.getElem?_map, hop]
      rfl
  link row hrow := by
    refine ⟨_, picture_link hops hrow, List.prefix_append _ _, fun t op hop k hk => ?_⟩
    rw [linkPicture, linkLine, getElem?_columns List.length_replicate _ _ _ hk,
      List.getElem?_map, hop]
    rfl

/-! ## No line is broken -/

theorem mark_ne_newline (op : Operation) (row : Nat) : op.mark row ≠ '\n' := by
  unfold Operation.mark
  split
  · cases op.gate <;> decide
  · split <;> decide

theorem link_ne_newline (op : Operation) (row : Nat) : op.link row ≠ '\n' := by
  unfold Operation.link
  split
  · split <;> decide
  · decide

theorem newline_notMem_columns {fill : Char} (hfill : fill ≠ '\n') {start marks : List Char}
    (hstart : '\n' ∉ start) (hmarks : ∀ mark ∈ marks, mark ≠ '\n') :
    '\n' ∉ start ++ marks.flatMap (cell fill) := by
  intro h
  rcases List.mem_append.1 h with h | h
  · exact hstart h
  · obtain ⟨mark, hmark, hcell⟩ := List.mem_flatMap.1 h
    have hne := hmarks mark hmark
    simp [cell, Ne.symm hfill, Ne.symm hne] at hcell

theorem newline_notMem_rowLabel (width row : Nat) : '\n' ∉ rowLabel width row := by
  have hindex : '\n' ∉ Nat.toDigits 10 row := notMem_toDigits (by decide) row
  simpa [rowLabel, Qubit.text] using hindex

theorem newline_notMem_heading (c : Circuit) : '\n' ∉ c.heading.toList := by
  have hcount : '\n' ∉ Nat.toDigits 10 c.operations.length := notMem_toDigits (by decide) _
  have hwidth : '\n' ∉ Nat.toDigits 10 c.width := notMem_toDigits (by decide) _
  simpa [heading] using ⟨hcount, hwidth⟩

theorem newline_notMem_picture {line : List Char} (h : line ∈ c.picture) : '\n' ∉ line := by
  by_cases hops : c.operations = []
  · rw [picture, if_pos hops, List.mem_singleton] at h
    exact h ▸ newline_notMem_heading c
  · rw [picture, if_neg hops] at h
    rcases List.mem_cons.1 h with rfl | hbody
    · exact newline_notMem_heading c
    · have htail : line ∈ c.picture.tail := by rwa [picture, if_neg hops, List.tail_cons]
      obtain ⟨row, -, rfl | rfl⟩ := exists_of_mem_picture hops htail
      · refine newline_notMem_columns (by decide) (newline_notMem_rowLabel _ _) ?_
        simpa using fun op _ => mark_ne_newline op row
      · refine newline_notMem_columns (by decide) (by simp) ?_
        simpa using fun op _ => link_ne_newline op row

theorem consistsOf_picture (c : Circuit) : ConsistsOf (textOfLines c.picture) c.picture :=
  ⟨String.toList_ofList, fun _ => newline_notMem_picture⟩

/-! ## Every circuit -/

/-- Operations that fit the register have wires. -/
theorem not_lacksWire_of_fits {width : Nat} {op : Operation} (h : op.Fits width) :
    ¬ op.LacksWire width := by
  rintro (⟨q, hq, hle⟩ | ⟨-, q, hq, hle⟩)
  · exact absurd (h.inside q (List.mem_of_getLast? hq)) (Nat.not_lt.2 hle)
  · exact absurd (h.inside q (List.mem_of_head? hq)) (Nat.not_lt.2 hle)

theorem Valid.drawing_eq {c : Circuit} (hc : c.Valid) :
    c.drawing = .ok (textOfLines c.picture) := by
  rw [Circuit.drawing_eq, if_neg]
  rintro ⟨op, hop, hlacks⟩
  exact not_lacksWire_of_fits (hc.fits op hop) hlacks

/-- Where the rows of a drawing can be held, nothing else can go wrong than what goes wrong in
drawing. -/
theorem draw_eq_drawing {c : Circuit} (h : c.operations = [] ∨ c.width ≤ maxRows) :
    c.draw = c.drawing := by
  rw [draw, if_pos]
  simpa using h

theorem drawing_of_draw {c : Circuit} {text : String} (h : c.draw = .ok text) :
    c.drawing = .ok text := by
  unfold draw at h
  split at h
  · exact h
  · cases h

/-- **When a circuit can be drawn.** A drawing fails exactly if some operation has targets the last
of which has no wire, or is a controlled flip the first target of which has none. Every other
circuit has a drawing, laid out like those of checked circuits; among them are all checked circuits.
An operation without targets shows nothing in its column. -/
theorem drawing_settles {R : Type} (c : Circuit) :
    ((∃ fault, c.drawing = .error fault) ↔ ∃ op ∈ c.operations, op.LacksWire c.width) ∧
    ((∀ op ∈ c.operations, ¬ op.LacksWire c.width) → ∃ text lines,
      c.drawing = .ok text ∧ ConsistsOf text lines ∧
        (c.operations = [] → lines = [c.heading.toList]) ∧
        (c.operations ≠ [] → c.LaidOut lines)) ∧
    (c.check (R := R) = .ok () → ∃ text, c.drawing = .ok text) ∧
    (∀ op ∈ c.operations, op.targets = [] →
      ¬ op.LacksWire c.width ∧ ∀ row, op.mark row = '─' ∧ op.link row = ' ') ∧
    (c.operations = [] ∨ c.width ≤ maxRows → c.draw = c.drawing) := by
  refine ⟨?_, ?_, ?_, ?_, draw_eq_drawing⟩
  · rw [drawing_eq]
    by_cases hlacks : ∃ op ∈ c.operations, op.LacksWire c.width
    · rw [if_pos hlacks]
      exact ⟨fun _ => hlacks, fun _ => ⟨_, rfl⟩⟩
    · rw [if_neg hlacks]
      exact ⟨fun ⟨_, h⟩ => (nomatch h), fun h => absurd h hlacks⟩
  · intro hwires
    refine ⟨_, c.picture, ?_, consistsOf_picture c, fun hops => ?_, laidOut_picture⟩
    · rw [drawing_eq, if_neg]
      rintro ⟨op, hop, hlacks⟩
      exact hwires op hop hlacks
    · rw [picture, if_pos hops]
  · intro hcheck
    exact ⟨_, (check_eq_ok_iff.1 hcheck).drawing_eq⟩
  · intro op _ htargets
    obtain ⟨hmark, hlink⟩ := Operation.column_of_untargeted (Operation.target?_eq_none_iff.2 htargets)
    refine ⟨by simp [Operation.LacksWire, htargets], fun row => ?_⟩
    exact ⟨congrFun hmark row, congrFun hlink row⟩

/-- A flip with one target, an operation without targets and one with several are drawn, the first
two of them even without a register; a first target outside the register matters to a flip alone. -/
theorem drawing_settles_misfits :
    (∃ text, (⟨1, [⟨.cnot, [⟨0⟩]⟩, ⟨.h, []⟩, ⟨.x, [⟨7⟩, ⟨0⟩]⟩]⟩ : Circuit).drawing = .ok text) ∧
    (∃ text, (⟨0, [⟨.cnot, []⟩]⟩ : Circuit).draw = .ok text) ∧
    ∃ fault, (⟨1, [⟨.cnot, [⟨7⟩, ⟨0⟩]⟩]⟩ : Circuit).drawing = .error fault := by
  refine ⟨?_, ?_, ?_⟩
  · obtain ⟨text, -, hdrawing, -⟩ := (drawing_settles (R := Unit)
      ⟨1, [⟨.cnot, [⟨0⟩]⟩, ⟨.h, []⟩, ⟨.x, [⟨7⟩, ⟨0⟩]⟩]⟩).2.1 (by decide)
    exact ⟨text, hdrawing⟩
  · obtain ⟨-, hdrawn, -, -, hheld⟩ := drawing_settles (R := Unit) ⟨0, [⟨.cnot, []⟩]⟩
    obtain ⟨text, -, hdrawing, -⟩ := hdrawn (by decide)
    exact ⟨text, (hheld (Or.inr (by decide))).trans hdrawing⟩
  · exact (drawing_settles (R := Unit) ⟨1, [⟨.cnot, [⟨7⟩, ⟨0⟩]⟩]⟩).1.2 (by decide)

end Circuit

end KetSim
