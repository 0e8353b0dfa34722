import KetSim.Error
/-!
# Ket labels

A basis state is written as its index in binary between a bar and a bracket, padded with zeros to
one digit for each qubit. An index that needs more digits gets them.
-/
namespace KetSim.Ket

/-- The number of digits of a label: one for each qubit, and as many as the index needs. -/
def digitCount (index width : Nat) : Nat := max width (index.log2 + 1)

/-- The binary digits of a label, most significant first. -/
def digits (index width : Nat) : List Char :=
  (List.range (digitCount index width)).map fun place =>
    if index.testBit (digitCount index width - 1 - place) then '1' else '0'

/-- The label of a basis index of a register of the given width. -/
def label (index width : Nat) : String := String.ofList ('|' :: digits index width ++ ['⟩'])

/-- The widest padding a text field can have. -/
def maxWidth : Nat := 1 <<< 16 - 1

/-- The label, where its padding can be written. -/
def checkedLabel (index width : Nat) : Except Fault String :=
  if width ≤ maxWidth then .ok (label index width) else .error .labelTooWide

end KetSim.Ket
