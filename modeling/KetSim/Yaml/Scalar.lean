import KetSim.Yaml.Property
/-!
# Scalars

The text of a scalar in each of its styles: plain, in single or double quotes, and as a block of
lines that are kept or folded. Outside of blocks a line break between words is a blank, and further
ones are kept.
-/
namespace KetSim.Yaml

inductive Style where
  | plain
  | quoted
  | literal
  | folded
  deriving Repr, DecidableEq

/-- What blanks and line breaks between two words stand for. -/
def foldGap (gap : List Char) : List Char :=
  match gap.countP isBreak with
  | 0 => gap
  | 1 => [' ']
  | n + 1 => List.replicate n '\n'

/-! ## Plain scalars -/

/-- The characters that end a plain scalar inside brackets. -/
def isFlowEnd (c : Char) : Bool :=
  c == ',' || c == '[' || c == ']' || c.toNat == 123 || c.toNat == 125

/-- The word at the start: up to a blank, or to what ends a plain scalar. Inside brackets a colon
right before a bracket is an error. -/
def plainWord (inFlow : Bool) : List Char → Option (List Char)
  | [] => some []
  | c :: rest =>
    if isBlank c || isBreak c then some []
    else if inFlow && c == ':' && rest.head?.any (fun d => isFlowEnd d || d == '?') then none
    else if (c == ':' && startsBlank rest) || (inFlow && isFlowEnd c) then some []
    else (plainWord inFlow rest).map (c :: ·)

/-- A tab stands where a later line of a scalar has to be indented by blanks. -/
def tabInIndent (indent : Nat) : (column : Option Nat) → List Char → Bool
  | _, [] => false
  | none, c :: rest => tabInIndent indent (if isBreak c then some 0 else none) rest
  | some n, c :: rest =>
    if isBreak c then tabInIndent indent (some 0) rest
    else (c == '\t' && n < indent) || tabInIndent indent (some (n + 1)) rest

/-- The result of scanning a plain scalar: its text, what follows, and whether a line break came
before that. -/
structure PlainScalar where
  text : List Char
  after : Cursor
  brokeLine : Bool

/-- Words of a plain scalar, each with the gap before it. Outside of brackets a line that is
indented less than the given column ends it. -/
def plainWords (inFlow : Bool) (indent : Nat) (soFar gap : List Char) (c : Cursor) :
    Option PlainScalar :=
  let finish : PlainScalar := ⟨soFar, c, gap.any isBreak⟩
  if (c.column == 0 && startsMark c.rest) || c.head? == some '#' then some finish
  else
    match plainWord inFlow c.rest with
    | none => none
    | some [] => some finish
    | some word =>
      let text := soFar ++ foldGap gap ++ word
      let afterWord := c.advance word.length
      let gap := afterWord.rest.takeWhile fun d => isBlank d || isBreak d
      let next := afterWord.advance gap.length
      if tabInIndent indent none gap then none
      else if gap.isEmpty || (!inFlow && next.column < indent) then
        some ⟨text, next, gap.any isBreak⟩
      else if _h : next.rest.length < c.rest.length then plainWords inFlow indent text gap next
      else none
termination_by c.rest.length

/-! ## Quoted scalars -/

inductive QuotedItem where
  | char (c : Char)
  | blank (c : Char)
  | lineBreak
  /-- A line break after a backslash. -/
  | joined
  deriving Repr, DecidableEq

def charOfCode? (n : Nat) : Option Char :=
  if n < 0xD800 ∨ (0xDFFF < n ∧ n < 0x110000) then some (Char.ofNat n) else none

def charOfHex? (cs : List Char) : Option Char := do
  charOfCode? ((← cs.mapM (Numeral.digit? 16)).foldl (· * 16 + ·) 0)

/-- The character that a letter after a backslash stands for. -/
def escapeLetter? : Char → Option Char
  | '0' => some '\x00'
  | 'a' => some '\x07'
  | 'b' => some '\x08'
  | 't' | '\t' => some '\t'
  | 'n' => some '\n'
  | 'v' => some '\x0b'
  | 'f' => some '\x0c'
  | 'r' => some '\r'
  | 'e' => some '\x1b'
  | ' ' => some ' '
  | '"' => some '"'
  | '/' => some '/'
  | '\\' => some '\\'
  | 'N' => some '\u0085'
  | '_' => some '\u00a0'
  | 'L' => some '\u2028'
  | 'P' => some '\u2029'
  | _ => none

def consItem (item : QuotedItem) (r : Option (List QuotedItem × List Char)) :
    Option (List QuotedItem × List Char) :=
  r.map fun (items, rest) => (item :: items, rest)

/-- The item of a blank, a line break or another character. -/
def plainItem (c : Char) : QuotedItem :=
  if isBreak c then .lineBreak else if isBlank c then .blank c else .char c

/-- The items up to the closing single quote, and what follows it. -/
def singleQuoted : (lineStart : Bool) → List Char → Option (List QuotedItem × List Char)
  | _, [] => none
  | _, '\'' :: '\'' :: rest => consItem (.char '\'') (singleQuoted false rest)
  | _, '\'' :: rest => some ([], rest)
  | lineStart, c :: rest =>
    if lineStart && startsMark (c :: rest) then none
    else consItem (plainItem c) (singleQuoted (isBreak c) rest)

/-- The items up to the closing double quote, and what follows it. -/
def doubleQuoted : (lineStart : Bool) → List Char → Option (List QuotedItem × List Char)
  | _, [] => none
  | _, '"' :: rest => some ([], rest)
  | _, '\\' :: '\n' :: rest => consItem .joined (doubleQuoted true rest)
  | _, '\\' :: 'x' :: a :: b :: rest => do
    consItem (.char (← charOfHex? [a, b])) (doubleQuoted false rest)
  | _, '\\' :: 'u' :: a :: b :: c :: d :: rest => do
    consItem (.char (← charOfHex? [a, b, c, d])) (doubleQuoted false rest)
  | _, '\\' :: 'U' :: a :: b :: c :: d :: e :: f :: g :: h :: rest => do
    consItem (.char (← charOfHex? [a, b, c, d, e, f, g, h])) (doubleQuoted false rest)
  | _, '\\' :: c :: rest => do
    consItem (.char (← escapeLetter? c)) (doubleQuoted false rest)
  | lineStart, c :: rest =>
    if c == '\\' || (lineStart && startsMark (c :: rest)) then none
    else consItem (plainItem c) (doubleQuoted (isBreak c) rest)

/-- The gap that is open between two words of a quoted scalar. -/
structure QuotedGap where
  chars : List Char
  /-- The gap began with a joined line, so its breaks are kept and its blanks dropped. -/
  joined : Bool

def QuotedGap.text (g : QuotedGap) : List Char :=
  if g.joined then g.chars.filter isBreak else foldGap g.chars

def quotedText (gap : QuotedGap) : List QuotedItem → List Char
  | [] => gap.text
  | .char c :: rest => gap.text ++ c :: quotedText ⟨[], false⟩ rest
  | .blank c :: rest => quotedText { gap with chars := gap.chars ++ [c] } rest
  | .lineBreak :: rest => quotedText { gap with chars := gap.chars ++ ['\n'] } rest
  | .joined :: rest => gap.text ++ quotedText ⟨[], true⟩ rest

/-! ## Block scalars -/

/-- What happens to line breaks at the end of a block. -/
inductive Chomping where
  | strip | clip | keep
  deriving Repr, DecidableEq

/-- The signs behind the indicator of a block scalar: its chomping and the depth of its indent. -/
def blockHeader : List Char → Option ((Chomping × Option Nat) × List Char)
  | cs =>
    let chomp? (c : Char) : Option Chomping :=
      if c = '+' then some .keep else if c = '-' then some .strip else none
    let depth? (c : Char) : Option Nat :=
      if c.isDigit then some (Decimal.digitValue c) else none
    match cs with
    | [] => some ((.clip, none), [])
    | c :: rest =>
      match chomp? c, depth? c with
      | some chomping, _ =>
        match rest.head?.bind depth? with
        | some 0 => none
        | some n => some ((chomping, some n), rest.drop 1)
        | none => some ((chomping, none), rest)
      | none, some 0 => none
      | none, some n =>
        match rest.head?.bind chomp? with
        | some chomping => some ((chomping, some n), rest.drop 1)
        | none => some ((.clip, some n), rest)
      | none, none => some ((.clip, none), cs)

/-- Cut a text behind its line breaks. -/
def cutLines (cs : List Char) : List (List Char) :=
  match cs with
  | [] => []
  | c :: rest =>
    if isBreak c then [c] :: cutLines rest
    else
      match cutLines rest with
      | [] => [[c]]
      | line :: lines => (c :: line) :: lines

def lineBody (line : List Char) : List Char := line.filter (!isBreak ·)

def indentOf (line : List Char) : Nat := (line.takeWhile (· == ' ')).length

/-- The indent of a block whose depth is not given: that of its first line with text, or of a longer
empty line before it. A tab must not stand in it. -/
def detectIndent (longest : Nat) : List (List Char) → Option Nat
  | [] => some longest
  | line :: rest =>
    match (lineBody line).drop (indentOf line) with
    | [] => detectIndent (max longest (indentOf line)) rest
    | c :: _ => if c = '\t' then none else some (max longest (indentOf line))

/-- The lines that belong to a block, without their indent. A tab must not stand in the indent. -/
def blockLines (indent : Nat) : List (List Char) → Option (List (List Char))
  | [] => some []
  | line :: rest =>
    let body := line.drop (min indent (indentOf line))
    if (lineBody body).isEmpty || indent ≤ indentOf line then
      (blockLines indent rest).map (body :: ·)
    else if body.head? == some '\t' then none
    else some []

/-- The text of the lines of a block, and the number of line breaks behind it. A folded line break
between two lines of text is a blank; next to a line that starts with a blank it is kept. -/
def blockText (folded : Bool) (started previousBlank : Bool) (breaks : Nat) :
    List (List Char) → List Char × Nat
  | [] => ([], breaks)
  | line :: rest =>
    let body := lineBody line
    let ended := line.countP isBreak
    if body.isEmpty then blockText folded started previousBlank (breaks + ended) rest
    else
      let blank := body.head?.any isBlank
      let glue :=
        if started && folded && !previousBlank && !blank then
          if breaks ≤ 1 then [' '] else List.replicate (breaks - 1) '\n'
        else List.replicate breaks '\n'
      let (text, trailing) := blockText folded true blank ended rest
      (glue ++ body ++ text, trailing)

/-- The text of a block with its end chomped. -/
def chomp (chomping : Chomping) (text : List Char) (trailing : Nat) : List Char :=
  match chomping with
  | .strip => text
  | .clip => if text.isEmpty then [] else text ++ List.replicate (min trailing 1) '\n'
  | .keep => text ++ List.replicate trailing '\n'

/-- The block scalar behind its indicator, inside a block of the given indent: its text and what
follows. -/
def blockScalar (folded : Bool) (parent : Int) (cs : List Char) :
    Option (List Char × List Char) := do
  let ((chomping, depth), cs) ← blockHeader cs
  let lines := cutLines (← restOfLine cs)
  let indent ← match depth with
    | some n => some ((max parent 0).toNat + n)
    | none => (detectIndent 0 lines).map fun n => max n (max (parent + 1).toNat 1)
  let taken ← blockLines indent lines
  let (text, trailing) := blockText folded false false 0 taken
  return (chomp chomping text trailing, (lines.drop taken.length).flatten)

end KetSim.Yaml
