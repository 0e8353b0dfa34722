import KetSim.Statement
/-!
# Programs

A program is its statements in order. The listing numbers them from zero, in four digits or more.
-/
namespace KetSim

structure Program where
  statements : List Statement
  deriving Repr, DecidableEq

namespace Program

/-- A position of at least four digits. -/
def positionText (n : Nat) : String :=
  let digits := toString n
  String.ofList (List.replicate (4 - digits.length) '0') ++ digits

def line (s : Statement) (position : Nat) : String :=
  "  " ++ positionText position ++ ": " ++ s.text ++ "\n"

/-- A heading with the number of statements, then a line for each. -/
def listing (p : Program) : String :=
  "Program (" ++ toString p.statements.length ++ " records)\n"
    ++ String.join (p.statements.zipIdx.map fun (s, position) => line s position)

end Program

end KetSim
