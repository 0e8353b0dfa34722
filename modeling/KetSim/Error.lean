/-!
# What can go wrong

`Error` lists the causes for which a request is refused, `Fault` the ways in which an operation can
leave its domain. A fault is no refusal: it stands for a program that stops, and a checked circuit
never reaches one. The wording of errors is in `KetSim.Error.Message`.
-/
namespace KetSim

/-- An operation applied outside its domain. -/
inductive Fault where
  /-- An index at or beyond the end of a table. -/
  | indexOutOfRange
  /-- A shift by the size of a word or more. -/
  | shiftOutOfRange
  /-- A difference below zero of two counts. -/
  | negativeDifference
  /-- A label padded to more digits than a text field can have. -/
  | labelTooWide
  /-- A table or text longer than half of the address space. -/
  | unaddressable
  deriving Repr, DecidableEq

/-- Why settings are refused. -/
inductive SettingsProblem (R : Type) where
  | qubitLimit (got : Nat)
  | zeroNormTolerance (got : R)
  | normalizationTolerance (got : R)
  /-- An environment variable whose text is no value of its kind. -/
  | environment (name text : String)
  /-- A document that cannot be read, or whose shape or values do not fit. -/
  | document
  deriving Repr

/-- Why an engine never became ready. -/
inductive FailureReason (R : Type) where
  | stated (text : String)
  | settings (problem : SettingsProblem R)
  /-- The side that was to provide the engine went away without doing so. -/
  | abandoned
  deriving Repr

/-- Why a request is refused. Positions count the statements of a program, or the operations of a
circuit, from zero. -/
inductive Error (R : Type) where
  | noRegister
  | registerSize (position : Nat) (size : Int)
  | targetOutOfRange (position : Nat) (gate : String) (index : Int) (width : Nat)
  | arity (position : Nat) (gate : String) (expected got : Nat)
  | repeatedTarget (position : Nat) (gate : String) (index : Nat)
  | emptyVector
  | lengthNotPowerOfTwo (length : Nat)
  | zeroNorm (length : Nat)
  | notNormalized (normSq : R)
  | registerTooWide (requested limit : Nat)
  | engineNotReady
  | engineFailed (reason : FailureReason R)
  | settings (problem : SettingsProblem R)
  | serialization (reason : String)
  | fault (fault : Fault)
  deriving Repr

end KetSim
