import KetSim.Circuit
/-!
# Drawings

A circuit is drawn with one line for each qubit and one column for each operation, seven characters
wide with the mark in the middle: the gate's letter on the wire of its target, `@` on the wire of
its control, and a vertical bar between the lines where the control is joined to the target. A
`Grid` holds the marks; the operations write theirs one after the other, and the lines are put
together from the finished grid. A mark on a wire that is not there is a fault, so an operation
whose control or target has no wire cannot be drawn, nor can wires without number; an operation
without targets leaves its column empty. A drawing of no operations is its heading alone.
-/
namespace KetSim

/-- The marks of a drawing, row by row and in each row column by column. -/
structure Grid where
  /-- What stands on the wires. -/
  wires : List (List Char)
  /-- What stands below the wires. -/
  links : List (List Char)
  deriving Repr, DecidableEq

namespace Grid

/-- Bare wires with nothing between them. -/
def blank (rows columns : Nat) : Grid where
  wires := List.replicate rows (List.replicate columns '─')
  links := List.replicate rows (List.replicate columns ' ')

def rowAt (table : List (List Char)) (row : Nat) : Except Fault (List Char) :=
  match table[row]? with
  | some marks => .ok marks
  | none => .error .indexOutOfRange

/-- A row with another mark in a column. -/
def mark (column : Nat) (c : Char) (marks : List Char) : Except Fault (List Char) :=
  if column < marks.length then .ok (marks.set column c) else .error .indexOutOfRange

def markWire (g : Grid) (row column : Nat) (c : Char) : Except Fault Grid := do
  let marks ← mark column c (← rowAt g.wires row)
  return { g with wires := g.wires.set row marks }

/-- Write bars below the wires from the top row down to the one before the bottom row. Rows that are
not there are passed over. -/
def join (g : Grid) (column top bottom : Nat) : Except Fault Grid := do
  let joined ← ((g.links.take bottom).drop top).mapM (mark column '│')
  return { g with links := g.links.take top ++ joined ++ g.links.drop bottom }

/-- Write the marks of an operation in a column. The mark of a target covers that of a control. -/
def draw (g : Grid) (column : Nat) (op : Operation) : Except Fault Grid :=
  match op.control?, op.target? with
  | some control, some target => do
    let g ← g.markWire control.index column '@'
    let g ← g.markWire target.index column op.gate.symbol
    g.join column (min control.index target.index) (max control.index target.index)
  | none, some target => g.markWire target.index column op.gate.symbol
  | _, none => .ok g

/-- Write the marks of operations, those of the first one in the given column. -/
def drawAll (g : Grid) (column : Nat) : List Operation → Except Fault Grid
  | [] => .ok g
  | op :: ops => do
    let g ← g.draw column op
    g.drawAll (column + 1) ops

end Grid

namespace Circuit

/-- A column's stretch of one line: the mark between three filling characters on either side. -/
def cell (fill mark : Char) : List Char :=
  List.replicate 3 fill ++ mark :: List.replicate 3 fill

/-- The widest label of a qubit, and room for a colon and a blank. -/
def labelWidth (width : Nat) : Nat :=
  ((List.range width).map fun row => (Qubit.text ⟨row⟩).length).foldl max 0 + 2

/-- The label of a row, padded on the right. -/
def rowLabel (width row : Nat) : List Char :=
  let text := (Qubit.text ⟨row⟩).toList ++ [':', ' ']
  text ++ List.replicate (labelWidth width - text.length) ' '

/-- The line of a qubit: its label and its wire. -/
def wireLine (width row : Nat) (marks : List Char) : List Char :=
  rowLabel width row ++ marks.flatMap (cell '─')

def linkLine (width : Nat) (marks : List Char) : List Char :=
  List.replicate (labelWidth width) ' ' ++ marks.flatMap (cell ' ')

/-- The lines of a qubit: its wire and, unless it is the last qubit, the line below. -/
def rowLines (width : Nat) (g : Grid) (row : Nat) : Except Fault (List (List Char)) := do
  let wire ← Grid.rowAt g.wires row
  if row + 1 < width then
    let link ← Grid.rowAt g.links row
    return [wireLine width row wire, linkLine width link]
  else return [wireLine width row wire]

/-- All lines below the heading. -/
def bodyLines (c : Circuit) : Except Fault (List (List Char)) := do
  let g ← (Grid.blank c.width c.operations.length).drawAll 0 c.operations
  let rows ← (List.range c.width).mapM (rowLines c.width g)
  return rows.flatten

def heading (c : Circuit) : String :=
  "CircuitPlan[" ++ toString c.operations.length ++ " operations on " ++ toString c.width
    ++ " qubits]"

def lines (c : Circuit) : Except Fault (List (List Char)) := do
  if c.operations.isEmpty then return [c.heading.toList]
  else return c.heading.toList :: (← c.bodyLines)

/-- Lines as a text, each line ended. -/
def textOfLines (lines : List (List Char)) : String := String.ofList (lines.flatMap (· ++ ['\n']))

def drawing (c : Circuit) : Except Fault String := do
  return textOfLines (← c.lines)

/-- The most rows whose labels can be held: each takes twenty-four bytes. -/
def maxRows : Nat := (1 <<< 63 - 1) / 24

/-- The drawing of a circuit, where its rows can be held. -/
def draw (c : Circuit) : Except Fault String :=
  if c.operations.isEmpty || c.width ≤ maxRows then c.drawing else .error .unaddressable

end Circuit

end KetSim
