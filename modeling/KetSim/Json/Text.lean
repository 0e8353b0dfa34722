import KetSim.Numeral
/-!
# JSON strings

Inside quotes, a quote, a backslash and the characters below a blank are written as escapes; all
others stand for themselves. Reading also accepts an escaped slash and any character of the first
plane, or a pair of surrogates, by its number. A string with a surrogate that has no partner is no
text, though it is a JSON string.
-/
namespace KetSim.Json.Text

/-! ## Writing -/

/-- A hexadecimal digit in lower case. -/
def hexChar (n : Nat) : Char := if n < 10 then Char.ofNat (48 + n) else Char.ofNat (87 + n)

def encodeChar (c : Char) : List Char :=
  match c with
  | '"' => ['\\', '"']
  | '\\' => ['\\', '\\']
  | '\n' => ['\\', 'n']
  | '\r' => ['\\', 'r']
  | '\t' => ['\\', 't']
  | c =>
    if c.toNat = 8 then ['\\', 'b']
    else if c.toNat = 12 then ['\\', 'f']
    else if c.toNat < 32 then
      ['\\', 'u', '0', '0', hexChar (c.toNat / 16), hexChar (c.toNat % 16)]
    else [c]

/-- The written form of a text, without the quotes. -/
def encode (cs : List Char) : List Char := cs.flatMap encodeChar

def quote (s : String) : List Char := '"' :: encode s.toList ++ ['"']

/-! ## Reading -/

/-- What one character or escape of a string stands for. -/
inductive Piece where
  | char (c : Char)
  /-- One half of a surrogate pair, by its number. -/
  | surrogate (unit : Nat)
  deriving Repr, DecidableEq

/-- The number written by four hexadecimal digits. -/
def unit? (a b c d : Char) : Option Nat := Numeral.digits? 16 [a, b, c, d]

def pieceOfUnit (n : Nat) : Piece :=
  if 0xD800 ≤ n ∧ n < 0xE000 then .surrogate n else .char (Char.ofNat n)

/-- The character that a letter after a backslash stands for. -/
def letter? : Char → Option Char
  | '"' => some '"'
  | '\\' => some '\\'
  | '/' => some '/'
  | 'b' => some (Char.ofNat 8)
  | 'f' => some (Char.ofNat 12)
  | 'n' => some '\n'
  | 'r' => some '\r'
  | 't' => some '\t'
  | _ => none

/-- Read up to the closing quote: the pieces before it and what follows it. Characters below a blank
have to be escaped. -/
def scan : List Char → Option (List Piece × List Char)
  | [] => none
  | '"' :: rest => some ([], rest)
  | '\\' :: 'u' :: a :: b :: c :: d :: rest => do
    let n ← unit? a b c d
    let (pieces, after) ← scan rest
    return (pieceOfUnit n :: pieces, after)
  | '\\' :: l :: rest => do
    let c ← letter? l
    let (pieces, after) ← scan rest
    return (.char c :: pieces, after)
  | c :: rest =>
    if 32 ≤ c.toNat ∧ c ≠ '\\' then do
      let (pieces, after) ← scan rest
      return (.char c :: pieces, after)
    else none

/-- A string takes at least its closing quote. -/
theorem length_lt_of_scan {cs after : List Char} {pieces : List Piece}
    (h : scan cs = some (pieces, after)) : after.length < cs.length := by
  fun_induction scan cs generalizing pieces after with
  | case1 => cases h
  | case2 rest =>
    cases h
    simp
  | case3 a b c d rest ih =>
    obtain ⟨n, -, h⟩ := Option.bind_eq_some_iff.1 h
    obtain ⟨⟨ps, rest'⟩, hrest, h⟩ := Option.bind_eq_some_iff.1 h
    cases h
    have := ih hrest
    simp only [List.length_cons]
    omega
  | case4 l rest _ ih =>
    obtain ⟨c, -, h⟩ := Option.bind_eq_some_iff.1 h
    obtain ⟨⟨ps, rest'⟩, hrest, h⟩ := Option.bind_eq_some_iff.1 h
    cases h
    have := ih hrest
    simp only [List.length_cons]
    omega
  | case5 c rest _ _ _ _ ih =>
    obtain ⟨⟨ps, rest'⟩, hrest, h⟩ := Option.bind_eq_some_iff.1 h
    cases h
    have := ih hrest
    simp only [List.length_cons]
    omega
  | case6 => cases h

/-- The character of a surrogate pair: the first unit from the lower half, the second from the
upper. -/
def pair? (high low : Nat) : Option Char :=
  if high < 0xDC00 ∧ 0xDC00 ≤ low then
    some (Char.ofNat (0x10000 + (high - 0xD800) * 0x400 + (low - 0xDC00)))
  else none

/-- The text of the pieces, where every surrogate has its partner. -/
def assemble : List Piece → Option (List Char)
  | [] => some []
  | .char c :: rest => (assemble rest).map (c :: ·)
  | .surrogate high :: .surrogate low :: rest => do
    let c ← pair? high low
    return c :: (← assemble rest)
  | .surrogate _ :: _ => none

end KetSim.Json.Text
