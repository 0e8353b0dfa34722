import KetSim.Circuit.Drawing
import Mathlib.Logic.Function.Basic
/-!
# What a drawing shows

The grid of a drawing is filled operation by operation. Each operation writes into its own column
and into no other, and fails exactly if its target or its control has no wire (`Grid.draw_shown`).
So a grid that is filled shows in every column what its operation is (`Grid.drawAll_shown`), and the
lines of a circuit are those of its picture, or there are none because some operation lacks a wire
(`Circuit.lines_eq`).
-/
namespace KetSim

theorem Qubit.eq_mk_iff {q : Qubit} {i : Nat} : q = ⟨i⟩ ↔ q.index = i := by
  obtain ⟨j⟩ := q
  rw [Qubit.mk.injEq]

namespace Operation

/-- The operation has a last target without a wire among the given number of them, or is controlled
and its first target has none. -/
def LacksWire (rows : Nat) (op : Operation) : Prop :=
  (∃ q ∈ op.targets.getLast?, rows ≤ q.index) ∨
    (op.gate = .cnot ∧ ∃ q ∈ op.targets.head?, rows ≤ q.index)

instance (rows : Nat) (op : Operation) : Decidable (op.LacksWire rows) :=
  inferInstanceAs (Decidable (_ ∨ _))

/-- What the operation's column shows on the wire of a row. -/
def mark (op : Operation) (row : Nat) : Char :=
  if op.target? = some ⟨row⟩ then op.gate.symbol
  else if op.control? = some ⟨row⟩ then '@'
  else '─'

/-- What the operation's column shows below the wire of a row. -/
def link (op : Operation) (row : Nat) : Char :=
  match op.control?, op.target? with
  | some c, some t =>
    if min c.index t.index ≤ row ∧ row < max c.index t.index then '│' else ' '
  | _, _ => ' '

theorem target?_eq_none_iff {op : Operation} : op.target? = none ↔ op.targets = [] :=
  List.getLast?_eq_none_iff

theorem control?_eq_none_of_target? {op : Operation} (h : op.target? = none) :
    op.control? = none := by
  unfold control?
  split
  · rw [target?_eq_none_iff.1 h]
    rfl
  · rfl

/-- The mark of the target, and on the other rows that of the control. -/
theorem mark_of_target? {op : Operation} {t : Qubit} (h : op.target? = some t) :
    op.mark = Function.update (fun row => if op.control? = some ⟨row⟩ then '@' else '─') t.index
      op.gate.symbol := by
  funext row
  by_cases hrow : row = t.index
  · subst hrow
    simp [mark, h]
  · simp [mark, h, hrow, Qubit.eq_mk_iff, Ne.symm hrow]

/-- Without a target nothing is shown. -/
theorem column_of_untargeted {op : Operation} (h : op.target? = none) :
    op.mark = (fun _ => '─') ∧ op.link = fun _ => ' ' := by
  have hcontrol := control?_eq_none_of_target? h
  constructor
  · funext row
    simp [mark, h, hcontrol]
  · funext row
    simp [link, h]

/-- Without a control the letter on the wire of the target is all that is shown. -/
theorem column_of_uncontrolled {op : Operation} {t : Qubit} (ht : op.target? = some t)
    (hc : op.control? = none) :
    op.mark = Function.update (fun _ => '─') t.index op.gate.symbol ∧ op.link = fun _ => ' ' := by
  constructor
  · rw [mark_of_target? ht, hc]
    simp
  · funext row
    simp [link, hc]

/-- With a control its mark is shown too, and the link from the one to the other. -/
theorem column_of_controlled {op : Operation} {c t : Qubit} (ht : op.target? = some t)
    (hc : op.control? = some c) :
    op.mark = Function.update (Function.update (fun _ => '─') c.index '@') t.index op.gate.symbol ∧
    op.link = fun row =>
      if min c.index t.index ≤ row ∧ row < max c.index t.index then '│' else ' ' := by
  constructor
  · rw [mark_of_target? ht, hc]
    congr 1
    funext row
    by_cases hrow : row = c.index
    · subst hrow
      simp
    · simp [hrow, Qubit.eq_mk_iff, Ne.symm hrow]
  · funext row
    simp only [link, ht, hc]

theorem lacksWire_iff {rows : Nat} {op : Operation} :
    op.LacksWire rows ↔
      (∃ t, op.target? = some t ∧ rows ≤ t.index) ∨ ∃ c, op.control? = some c ∧ rows ≤ c.index := by
  unfold LacksWire target? control?
  cases op.gate <;> simp

end Operation

namespace Grid

/-- A grid that shows operations in its first columns and is bare in those that are left. -/
def shown (rows : Nat) (done : List Operation) (left : Nat) : Grid where
  wires := (List.range rows).map fun row => done.map (·.mark row) ++ List.replicate left '─'
  links := (List.range rows).map fun row => done.map (·.link row) ++ List.replicate left ' '

/-- The same grid with one more column, the marks of which are given. -/
def begun (rows : Nat) (done : List Operation) (wire link : Nat → Char) (left : Nat) : Grid where
  wires := (List.range rows).map fun row =>
    done.map (·.mark row) ++ wire row :: List.replicate left '─'
  links := (List.range rows).map fun row =>
    done.map (·.link row) ++ link row :: List.replicate left ' '

theorem blank_eq_shown (rows columns : Nat) : blank rows columns = shown rows [] columns := by
  simp only [blank, shown, List.map_nil, List.nil_append, List.map_const', List.length_range]

theorem shown_succ (rows : Nat) (done : List Operation) (left : Nat) :
    shown rows done (left + 1) = begun rows done (fun _ => '─') (fun _ => ' ') left := rfl

theorem begun_eq_shown (rows : Nat) (done : List Operation) (op : Operation) (left : Nat) :
    begun rows done op.mark op.link left = shown rows (done ++ [op]) left := by
  simp [begun, shown]

/-! ## Writing marks -/

theorem mark_append {before : List Char} {column : Nat} (h : before.length = column)
    (old c : Char) (after : List Char) :
    mark column c (before ++ old :: after) = .ok (before ++ c :: after) := by
  subst h
  rw [mark, if_pos (by simp), List.set_append_right _ _ (Nat.le_refl _), Nat.sub_self,
    List.set_cons_zero]

theorem rowAt_map_range (rows row : Nat) (f : Nat → List Char) :
    rowAt ((List.range rows).map f) row =
      if row < rows then .ok (f row) else .error .indexOutOfRange := by
  unfold rowAt
  by_cases h : row < rows
  · simp [h]
  · simp [h]

theorem markWire_begun {rows : Nat} {done : List Operation} {wire link : Nat → Char} {left : Nat}
    (row : Nat) (c : Char) :
    (begun rows done wire link left).markWire row done.length c =
      if row < rows then .ok (begun rows done (Function.update wire row c) link left)
      else .error .indexOutOfRange := by
  simp only [markWire, begun, rowAt_map_range]
  by_cases h : row < rows
  · simp only [if_pos h, bind, Except.bind, mark_append (List.length_map _), pure, Except.pure]
    congr 2
    apply List.ext_getElem?
    intro i
    by_cases hi : i < rows
    · by_cases hrow : row = i
      · subst hrow
        simp [h]
      · simp [hi, hrow, Function.update_of_ne (Ne.symm hrow)]
    · simp [hi]
  · simp only [if_neg h]
    rfl

/-- A table in which some rows next to each other are changed. -/
theorem take_append_map_append_drop {α : Type} (l : List α) (f : α → α) {top bottom : Nat}
    (h : top ≤ bottom) :
    l.take top ++ ((l.take bottom).drop top).map f ++ l.drop bottom =
      l.mapIdx fun i a => if top ≤ i ∧ i < bottom then f a else a := by
  apply List.ext_getElem?
  intro i
  simp only [List.getElem?_append, List.length_append, List.length_take, List.length_map,
    List.length_drop, List.getElem?_take, List.getElem?_map, List.getElem?_drop,
    List.getElem?_mapIdx]
  grind

theorem mapM_eq_ok {α β ε : Type} {f : α → Except ε β} {g : α → β} {l : List α}
    (h : ∀ a ∈ l, f a = .ok (g a)) : l.mapM f = .ok (l.map g) := by
  induction l with
  | nil => rfl
  | cons a l ih =>
    obtain ⟨ha, hl⟩ := List.forall_mem_cons.1 h
    rw [List.mapM_cons, ha, ih hl]
    rfl

theorem join_begun {rows : Nat} {done : List Operation} {wire link : Nat → Char} {left : Nat}
    {top bottom : Nat} (h : top ≤ bottom) :
    (begun rows done wire link left).join done.length top bottom =
      .ok (begun rows done wire
        (fun row => if top ≤ row ∧ row < bottom then '│' else link row) left) := by
  have hmark : ∀ marks ∈ ((begun rows done wire link left).links.take bottom).drop top,
      mark done.length '│' marks = .ok (marks.set done.length '│') := by
    intro marks hmarks
    have hmem := List.mem_of_mem_take (List.mem_of_mem_drop hmarks)
    obtain ⟨row, -, rfl⟩ := List.mem_map.1 hmem
    rw [mark, if_pos (by simp)]
  rw [join, mapM_eq_ok hmark]
  simp only [bind, Except.bind, pure, Except.pure, take_append_map_append_drop _ _ h, begun]
  congr 2
  apply List.ext_getElem?
  intro i
  by_cases hi : i < rows
  · by_cases hjoined : top ≤ i ∧ i < bottom
    · simp [hi, hjoined]
    · simp [hi, hjoined]
  · simp [hi]

/-! ## Operations -/

/-- **An operation fills its column** and no other, unless its target or its control has no wire. -/
theorem draw_shown (rows : Nat) (done : List Operation) (op : Operation) (left : Nat) :
    (shown rows done (left + 1)).draw done.length op =
      if op.LacksWire rows then .error .indexOutOfRange
      else .ok (shown rows (done ++ [op]) left) := by
  rw [shown_succ, draw, ← begun_eq_shown]
  cases htarget : op.target? with
  | none =>
    obtain ⟨hmark, hlink⟩ := Operation.column_of_untargeted htarget
    have hcontrol := Operation.control?_eq_none_of_target? htarget
    have hlacks : ¬ op.LacksWire rows := by simp [Operation.lacksWire_iff, htarget, hcontrol]
    rw [if_neg hlacks, hmark, hlink, hcontrol]
  | some t =>
    cases hcontrol : op.control? with
    | none =>
      obtain ⟨hmark, hlink⟩ := Operation.column_of_uncontrolled htarget hcontrol
      have hlacks : op.LacksWire rows ↔ rows ≤ t.index := by
        simp [Operation.lacksWire_iff, htarget, hcontrol]
      simp only [markWire_begun, ← hmark, hlink, hlacks]
      by_cases ht : t.index < rows
      · rw [if_pos ht, if_neg (Nat.not_le.2 ht)]
      · rw [if_neg ht, if_pos (Nat.not_lt.1 ht)]
    | some c =>
      obtain ⟨hmark, hlink⟩ := Operation.column_of_controlled htarget hcontrol
      have hlacks : op.LacksWire rows ↔ rows ≤ t.index ∨ rows ≤ c.index := by
        simp [Operation.lacksWire_iff, htarget, hcontrol]
      have hle : min c.index t.index ≤ max c.index t.index :=
        Nat.le_trans (Nat.min_le_left _ _) (Nat.le_max_left _ _)
      simp only [hlacks, markWire_begun]
      -- the control is written first, so a control without a wire hides the target
      by_cases hc : c.index < rows
      · rw [if_pos hc]
        simp only [bind, Except.bind, markWire_begun]
        by_cases ht : t.index < rows
        · rw [if_pos ht, if_neg (by omega)]
          simp only [join_begun hle, ← hmark, hlink]
        · rw [if_neg ht, if_pos (Or.inl (Nat.not_lt.1 ht))]
      · rw [if_neg hc, if_pos (Or.inr (Nat.not_lt.1 hc))]
        rfl

theorem drawAll_shown (rows : Nat) (ops done : List Operation) :
    (shown rows done ops.length).drawAll done.length ops =
      if ∃ op ∈ ops, op.LacksWire rows then .error .indexOutOfRange
      else .ok (shown rows (done ++ ops) 0) := by
  induction ops generalizing done with
  | nil => simp [drawAll]
  | cons op ops ih =>
    have hlength : (done ++ [op]).length = done.length + 1 := by simp
    rw [drawAll, List.length_cons, draw_shown]
    by_cases hop : op.LacksWire rows
    · rw [if_pos hop, if_pos ⟨op, List.mem_cons_self, hop⟩]
      rfl
    · rw [if_neg hop, ← hlength]
      show (shown rows (done ++ [op]) ops.length).drawAll (done ++ [op]).length ops = _
      rw [ih, List.append_assoc, List.singleton_append]
      simp [hop]

end Grid

namespace Circuit

def rowPicture (c : Circuit) (row : Nat) : List (List Char) :=
  wireLine c.width row (c.operations.map (·.mark row)) ::
    if row + 1 < c.width then [linkLine c.width (c.operations.map (·.link row))] else []

def picture (c : Circuit) : List (List Char) :=
  c.heading.toList :: if c.operations = [] then [] else (List.range c.width).flatMap c.rowPicture

theorem rowLines_shown {c : Circuit} {row : Nat} (hrow : row < c.width) :
    rowLines c.width (Grid.shown c.width c.operations 0) row = .ok (c.rowPicture row) := by
  simp only [rowLines, Grid.shown, Grid.rowAt_map_range, if_pos hrow, List.replicate_zero,
    List.append_nil, rowPicture]
  by_cases hlast : row + 1 < c.width
  · simp only [if_pos hlast]
    rfl
  · simp only [if_neg hlast]
    rfl

/-- **The lines of a circuit are its picture**, or there are none, and then some operation lacks a
wire. -/
theorem lines_eq (c : Circuit) :
    c.lines =
      if ∃ op ∈ c.operations, op.LacksWire c.width then .error .indexOutOfRange
      else .ok c.picture := by
  unfold lines picture
  by_cases hops : c.operations = []
  · simp only [hops, List.isEmpty_nil, if_true, List.not_mem_nil, false_and, exists_false, if_false]
    rfl
  · have hgrid := Grid.drawAll_shown c.width c.operations []
    rw [List.nil_append, List.length_nil, ← Grid.blank_eq_shown] at hgrid
    rw [bodyLines, hgrid]
    by_cases hlacks : ∃ op ∈ c.operations, op.LacksWire c.width
    · simp [hlacks, hops, bind, Except.bind]
    · simp only [if_neg hlacks, if_neg hops, List.isEmpty_iff, bind, Except.bind]
      rw [Grid.mapM_eq_ok fun row hrow => rowLines_shown (List.mem_range.1 hrow), List.flatMap]
      rfl

theorem drawing_eq (c : Circuit) :
    c.drawing =
      if ∃ op ∈ c.operations, op.LacksWire c.width then .error .indexOutOfRange
      else .ok (textOfLines c.picture) := by
  rw [drawing, lines_eq]
  split <;> rfl

end Circuit

end KetSim
