import KetSim.Decimal
/-!
# Numerals

Numbers as they are written where no format rules: words that fit into a machine word, floats in
decimal notation. Nothing may stand around a numeral.
-/
namespace KetSim.Numeral

/-- The largest word is one less. -/
def wordLimit : Nat := 1 <<< 64

/-- A numeral without its plus sign, if it has one. -/
def dropPlus : List Char → List Char
  | '+' :: rest => rest
  | cs => cs

/-- The value of a digit of either case in a base of at most sixteen. -/
def digit? (base : Nat) (c : Char) : Option Nat :=
  let value? :=
    if c.isDigit then some (c.toNat - '0'.toNat)
    else if 'a' ≤ c ∧ c ≤ 'f' then some (c.toNat - 'a'.toNat + 10)
    else if 'A' ≤ c ∧ c ≤ 'F' then some (c.toNat - 'A'.toNat + 10)
    else none
  value?.filter (· < base)

/-- The word that at least one digit of a base writes. Leading zeros do not matter. -/
def digits? (base : Nat) (cs : List Char) : Option Nat := do
  if cs.isEmpty then none
  let n := (← cs.mapM (digit? base)).foldl (· * base + ·) 0
  if n < wordLimit then some n else none

/-- The word that a decimal numeral writes. It may have a plus sign and leading zeros. -/
def word? (s : String) : Option Nat := digits? 10 (dropPlus s.toList)

/-- The sign in front of a numeral, negative or not, and what follows it. -/
def takeSign : List Char → Bool × List Char
  | '-' :: rest => (true, rest)
  | '+' :: rest => (false, rest)
  | cs => (false, cs)

/-- The exponent behind the digits of a float, zero if there is none. -/
def exponent? : List Char → Option Int
  | [] => some 0
  | c :: rest =>
    let (negative, ds) := takeSign rest
    if (c == 'e' || c == 'E') && !ds.isEmpty && ds.all Char.isDigit then
      let n : Int := Decimal.readDigits ds
      some (if negative then -n else n)
    else none

/-- The decimal that a float without sign writes: digits with at most one point before, between or
behind them, and an exponent. -/
def decimal? (cs : List Char) : Option Decimal :=
  let (whole, rest) := Decimal.spanDigits cs
  let (fraction, rest) := match rest with
    | '.' :: rest => Decimal.spanDigits rest
    | _ => ([], rest)
  if whole.isEmpty && fraction.isEmpty then none
  else (exponent? rest).map fun e => ⟨Decimal.readDigits (whole ++ fraction), e - fraction.length⟩

/-- The float nearest to a decimal; infinity if the decimal is too large. -/
def nearest (d : Decimal) : Float := Float.ofScientific d.digits (d.exponent < 0) d.exponent.natAbs

/-- The words that stand for numbers which have no digits, in any case. -/
def special? (cs : List Char) : Option Float :=
  let word := String.ofList (cs.map Char.toLower)
  if word = "inf" ∨ word = "infinity" then some (1.0 / 0.0)
  else if word = "nan" then some (0.0 / 0.0)
  else none

/-- The float that a numeral writes, with a sign if it has one. -/
def float? (s : String) : Option Float :=
  let (negative, cs) := takeSign s.toList
  ((special? cs).or ((decimal? cs).map nearest)).map fun x => if negative then -x else x

end KetSim.Numeral
