/-!
# Decimals

A decimal is digits times a power of ten. `Decimal.shortest` gives the decimal with the fewest
digits among those that stand for a binary number, meaning that they lie in the interval of reals
that round to it; of several it gives the nearest. All comparisons are exact.
-/
namespace KetSim

/-- The number `digits * 10 ^ exponent`. -/
structure Decimal where
  digits : Nat
  exponent : Int
  deriving Repr, DecidableEq

namespace Decimal

/-- Which of two equally near decimals is taken. -/
inductive Tie where
  | toEven
  | upward
  deriving Repr, DecidableEq

/-- The number `m * 2 ^ e / 10 ^ g` as a quotient of whole numbers. -/
def ratio (m : Nat) (e g : Int) : Nat × Nat :=
  ((m <<< e.toNat) * Nat.pow 10 (-g).toNat, (1 <<< (-e).toNat) * Nat.pow 10 g.toNat)

/-- The reals that round to `m * 2 ^ e` in double precision, counted in quarters of `2 ^ e`: the
distance down is half as long below a power of two, and the ends belong to it when `m` is even. -/
structure Neighbourhood where
  low : Nat
  high : Nat
  closed : Bool

/-- The neighbourhood of a positive number. Subnormal numbers and the smallest normal ones are all
equally far apart. -/
def neighbourhood (m : Nat) (e : Int) : Neighbourhood :=
  let narrow := m == 1 <<< 52 && e > -1074
  ⟨4 * m - (if narrow then 1 else 2), 4 * m + 2, m % 2 == 0⟩

/-- The multiple `d` of `10 ^ g` lies in the neighbourhood. -/
def Neighbourhood.contains (n : Neighbourhood) (e g : Int) (d : Nat) : Bool :=
  let (low, unit) := ratio n.low (e - 2) g
  let (high, _) := ratio n.high (e - 2) g
  if n.closed then low ≤ d * unit && d * unit ≤ high else low < d * unit && d * unit < high

/-- The multiple of `10 ^ g` nearest to `m * 2 ^ e` that lies in its neighbourhood, if one does.
Only the two neighbours of the number among the multiples can. -/
def onGrid? (tie : Tie) (m : Nat) (e g : Int) : Option Nat :=
  let near := neighbourhood m e
  let (num, den) := ratio m e g
  let below := num / den
  let above := below + 1
  match near.contains e g below, near.contains e g above with
  | true, false => some below
  | false, true => some above
  | false, false => none
  | true, true =>
    match compare (2 * num) ((below + above) * den), tie with
    | .lt, _ => some below
    | .gt, _ => some above
    | .eq, .upward => some above
    | .eq, .toEven => some (if below % 2 = 0 then below else above)

/-- The number of digits before the point, for a number below one minus the zeros that follow the
point: the least `k` with `m * 2 ^ e < 10 ^ k`. -/
def scale (m : Nat) (e : Int) : Int :=
  let guess := ((m.log2 : Int) + e) * 30103 / 100000
  let below (k : Int) : Bool := let (num, den) := ratio m e k; num < den
  if below guess then guess else if below (guess + 1) then guess + 1 else guess + 2

/-- The decimal without its trailing zeros. -/
def strip (d : Decimal) : Decimal :=
  if h : d.digits ≠ 0 ∧ d.digits % 10 = 0 then strip ⟨d.digits / 10, d.exponent + 1⟩ else d
termination_by d.digits
decreasing_by exact Nat.div_lt_self (Nat.pos_of_ne_zero h.1) (by decide)

/-- The shortest decimal that stands for the positive number `m * 2 ^ e`. Seventeen digits always
suffice; were they not to, the exact value would be given. -/
def shortest (tie : Tie) (m : Nat) (e : Int) : Decimal :=
  let k := scale m e
  let found := (List.range 17).findSome? fun n =>
    let g := k - ((n + 1 : Nat) : Int)
    (onGrid? tie m e g).map fun d => (⟨d, g⟩ : Decimal)
  let exact : Decimal := ⟨(m <<< e.toNat) * Nat.pow 5 (-e).toNat, min e 0⟩
  strip (found.getD exact)

def digitChars (n : Nat) : List Char := Nat.toDigits 10 n

def digitValue (c : Char) : Nat := c.toNat - '0'.toNat

def readDigits (cs : List Char) : Nat := cs.foldl (fun n c => n * 10 + digitValue c) 0

def spanDigits (cs : List Char) : List Char × List Char :=
  (cs.takeWhile Char.isDigit, cs.dropWhile Char.isDigit)

theorem length_after_digits (cs : List Char) : (spanDigits cs).2.length ≤ cs.length :=
  (List.dropWhile_suffix _).length_le

theorem length_digits_add (cs : List Char) :
    (spanDigits cs).1.length + (spanDigits cs).2.length = cs.length := by
  rw [spanDigits, ← List.length_append, List.takeWhile_append_dropWhile]

/-- The number of digits before the point in positional form. -/
def pointPlace (d : Decimal) : Int := (digitChars d.digits).length + d.exponent

/-- The digits before and after the point in positional form. There is at least one before it. -/
def positional (d : Decimal) : List Char × List Char :=
  let cs := digitChars d.digits
  let p := pointPlace d
  if p ≤ 0 then (['0'], List.replicate (-p).toNat '0' ++ cs)
  else (cs.take p.toNat ++ List.replicate d.exponent.toNat '0', cs.drop p.toNat)

def roundHalfEven (num den : Nat) : Nat :=
  let q := num / den
  match compare (2 * (num % den)) den with
  | .lt => q
  | .gt => q + 1
  | .eq => if q % 2 = 0 then q else q + 1

/-- The number `m * 2 ^ e` with a fixed number of places after the point. -/
def toPlaces (places m : Nat) (e : Int) : List Char :=
  let (num, den) := ratio m e (-places)
  let cs := digitChars (roundHalfEven num den)
  let padded := List.replicate (places + 1 - cs.length) '0' ++ cs
  padded.take (padded.length - places) ++ '.' :: padded.drop (padded.length - places)

end Decimal

end KetSim
