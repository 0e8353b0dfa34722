import KetSim.Json.Value
/-!
# JSON tokens

The text of a JSON value is cut into tokens; blanks between them are dropped. Each step takes at
least one character.
-/
namespace KetSim.Json

inductive Token where
  | openArray | closeArray
  | openObject | closeObject
  | colon | comma
  | null
  | bool (b : Bool)
  | number (l : Literal)
  | text (content : Content)
  deriving Repr, DecidableEq

namespace Token

/-- The characters allowed between tokens. -/
def isBlank (c : Char) : Bool := c == ' ' || c == '\t' || c == '\n' || c == '\r'

/-- A fraction at the start, if a point stands there: at least one digit has to follow the point. -/
def scanFraction (cs : List Char) : Option (List Char × List Char) :=
  match cs with
  | '.' :: rest =>
    match Decimal.spanDigits rest with
    | ([], _) => none
    | (ds, after) => some (ds, after)
  | _ => some ([], cs)

/-- The sign of an exponent, negative or not. -/
def scanExponentSign (cs : List Char) : Bool × List Char :=
  match cs with
  | '-' :: rest => (true, rest)
  | '+' :: rest => (false, rest)
  | _ => (false, cs)

/-- An exponent at the start, if its letter stands there: at least one digit has to follow. -/
def scanExponent (cs : List Char) : Option (Option Int × List Char) :=
  match cs with
  | c :: rest =>
    if c = 'e' ∨ c = 'E' then
      let (negative, digits) := scanExponentSign rest
      match Decimal.spanDigits digits with
      | ([], _) => none
      | (ds, after) =>
        let n : Int := Decimal.readDigits ds
        some (some (if negative then -n else n), after)
    else some (none, cs)
  | [] => some (none, [])

/-- Digits before the point: a zero alone, or digits that do not start with zero. -/
def scanWhole (cs : List Char) : Option (List Char × List Char) :=
  match cs with
  | '0' :: rest => some (['0'], rest)
  | _ =>
    match Decimal.spanDigits cs with
    | ([], _) => none
    | (ds, after) => some (ds, after)

/-- A number without its sign. -/
def scanUnsigned (negative : Bool) (cs : List Char) : Option (Literal × List Char) := do
  let (whole, cs) ← scanWhole cs
  let (fraction, cs) ← scanFraction cs
  let (exponent, cs) ← scanExponent cs
  return (⟨negative, whole, fraction, exponent⟩, cs)

/-- The token at the start of a text that begins with no blank. -/
def scan (cs : List Char) : Option (Token × List Char) :=
  match cs with
  | '[' :: rest => some (openArray, rest)
  | ']' :: rest => some (closeArray, rest)
  | ':' :: rest => some (colon, rest)
  | ',' :: rest => some (comma, rest)
  | 'n' :: 'u' :: 'l' :: 'l' :: rest => some (null, rest)
  | 't' :: 'r' :: 'u' :: 'e' :: rest => some (bool true, rest)
  | 'f' :: 'a' :: 'l' :: 's' :: 'e' :: rest => some (bool false, rest)
  | '"' :: rest => do
    let (pieces, after) ← Text.scan rest
    return (text ((Text.assemble pieces).map String.ofList), after)
  | '-' :: rest => do
    let (l, after) ← scanUnsigned true rest
    return (number l, after)
  | c :: rest =>
    if c = Char.ofNat 123 then some (openObject, rest)
    else if c = Char.ofNat 125 then some (closeObject, rest)
    else do
      let (l, after) ← scanUnsigned false cs
      return (number l, after)
  | [] => none

/-! ## Every token takes something -/

/-- Reading a part of a token leaves no more than it was given. -/
theorem length_le_of_scanFraction {cs ds after : List Char}
    (h : scanFraction cs = some (ds, after)) : after.length ≤ cs.length := by
  have := Decimal.length_after_digits
  unfold scanFraction at h
  grind

theorem length_le_of_scanExponent {cs after : List Char} {e : Option Int}
    (h : scanExponent cs = some (e, after)) : after.length ≤ cs.length := by
  have := Decimal.length_after_digits
  unfold scanExponent scanExponentSign at h
  grind

theorem length_lt_of_scanWhole {cs ds after : List Char} (h : scanWhole cs = some (ds, after)) :
    after.length < cs.length := by
  unfold scanWhole at h
  split at h
  · simp_all
  · split at h
    · simp at h
    · next ds' after' hne heq =>
      have := Decimal.length_digits_add cs
      rw [heq] at this
      have := List.length_pos_iff.2 (hne · )
      simp_all
      omega

theorem length_lt_of_scanUnsigned {negative : Bool} {cs after : List Char} {l : Literal}
    (h : scanUnsigned negative cs = some (l, after)) : after.length < cs.length := by
  simp only [scanUnsigned, Option.bind_eq_bind, Option.bind_eq_some_iff] at h
  obtain ⟨⟨_, _⟩, h1, ⟨_, _⟩, h2, ⟨_, _⟩, h3, h4⟩ := h
  have := length_lt_of_scanWhole h1
  have := length_le_of_scanFraction h2
  have := length_le_of_scanExponent h3
  simp only [pure, Option.some.injEq, Prod.mk.injEq] at h4
  obtain ⟨_, rfl⟩ := h4
  simp only at *
  omega

/-- A token takes at least one character. -/
theorem length_lt_of_scan {cs after : List Char} {t : Token} (h : scan cs = some (t, after)) :
    after.length < cs.length := by
  unfold scan at h
  split at h
  iterate 7
    · simp only [Option.some.injEq, Prod.mk.injEq] at h
      obtain ⟨-, rfl⟩ := h
      simp
      try omega
  · simp only [Option.bind_eq_bind, Option.bind_eq_some_iff] at h
    obtain ⟨⟨_, _⟩, h1, h2⟩ := h
    have := Text.length_lt_of_scan h1
    simp_all
    omega
  · simp only [Option.bind_eq_bind, Option.bind_eq_some_iff] at h
    obtain ⟨⟨_, _⟩, h1, h2⟩ := h
    have := length_lt_of_scanUnsigned h1
    simp_all
    omega
  · split at h
    · simp_all
    · split at h
      · simp_all
      · simp only [Option.bind_eq_bind, Option.bind_eq_some_iff] at h
        obtain ⟨⟨_, _⟩, h1, h2⟩ := h
        have := length_lt_of_scanUnsigned h1
        simp_all
  · simp at h

def scanAll (cs : List Char) : Option (List Token) :=
  match cs with
  | [] => some []
  | c :: rest =>
    if isBlank c then scanAll rest
    else
      match _h : scan (c :: rest) with
      | none => none
      | some (t, after) => (scanAll after).map (t :: ·)
termination_by cs.length
decreasing_by
  · simp
  · exact length_lt_of_scan _h

end Token

end KetSim.Json
