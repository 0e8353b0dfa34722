import KetSim.Yaml.Scalar
/-!
# Tokens

A document is cut into tokens. Indentation becomes tokens of its own: a block opens where a line is
indented deeper than the block around it, and closes where a line is indented less. A colon turns
what stands before it on its line into a key; so each place where a key could begin is kept until it
is clear whether one does.
-/
namespace KetSim.Yaml

inductive Token where
  | directive (d : Directive)
  | documentStart | documentEnd
  | openBlockSequence | openBlockMapping | closeBlock
  | openFlowSequence | closeFlowSequence
  | openFlowMapping | closeFlowMapping
  | blockEntry | flowEntry
  | key | value
  | anchor (name : String)
  | alias (name : String)
  | tag (t : Tag)
  | scalar (style : Style) (text : String)
  deriving Repr, DecidableEq

/-- A place where a key may have begun. -/
structure KeyPlace where
  /-- The number of tokens before it. -/
  token : Nat
  index : Nat
  line : Nat
  column : Nat
  /-- The place is at the indent of the block around it, where nothing but a key can stand. -/
  required : Bool
  deriving Repr

/-- The state of the cut. -/
structure Scanner where
  cursor : Cursor
  tokens : Array Token
  /-- The indents of the open blocks, innermost first. -/
  indents : List Int
  /-- One place for each open bracket and one for the blocks around them, innermost first. -/
  keys : List (Option KeyPlace)
  /-- A key may begin here. -/
  keyAllowed : Bool

namespace Scanner

def start (c : Cursor) : Scanner := ⟨c, #[], [], [none], true⟩

/-- The indent of the innermost block; nothing is open at minus one. -/
def indent (s : Scanner) : Int := s.indents.head?.getD (-1)

/-- A bracket is open. -/
def inFlow (s : Scanner) : Bool := 1 < s.keys.length

def push (s : Scanner) (t : Token) : Scanner := { s with tokens := s.tokens.push t }

def advance (s : Scanner) (n : Nat) : Scanner := { s with cursor := s.cursor.advance n }

def allowKey (s : Scanner) (allowed : Bool) : Scanner := { s with keyAllowed := allowed }

/-- Append a token that was read up to the given rest of the text. -/
def take (s : Scanner) (t : Token) (rest : List Char) : Scanner :=
  { s.push t with cursor := s.cursor.upTo rest }

/-! ## Keys -/

/-- Forget where a key may have begun. Where one is required this is an error. -/
def dropKey (s : Scanner) : Option Scanner :=
  match s.keys with
  | some k :: rest => if k.required then none else some { s with keys := none :: rest }
  | _ => some s

/-- Note that a key may begin here. -/
def noteKey (s : Scanner) : Option Scanner := do
  if s.keyAllowed then
    let required := !s.inFlow && s.indent == s.cursor.column
    let s ← s.dropKey
    let place : KeyPlace :=
      ⟨s.tokens.size, s.cursor.index, s.cursor.line, s.cursor.column, required⟩
    return { s with keys := some place :: s.keys.drop 1 }
  else return s

/-- The key that a colon here ends: it has to stand on the same line, at most 1024 octets before. -/
def keyHere (s : Scanner) : Option (Option KeyPlace) :=
  match s.keys with
  | some k :: _ =>
    if k.line < s.cursor.line || k.index + 1024 < s.cursor.index then
      if k.required then none else some none
    else some (some k)
  | _ => some none

/-! ## Blocks -/

/-- Open a block at a column, if it is deeper than the one around it; its token comes after the
given number of tokens. -/
def openBlock (s : Scanner) (column position : Nat) (t : Token) : Scanner :=
  if !s.inFlow && s.indent < column then
    { s with
      indents := column :: s.indents
      tokens := s.tokens.insertIdxIfInBounds position t }
  else s

/-- The blocks that are still open when a line begins at the given column, and the number of those
that close. -/
def closing (column : Int) : List Int → List Int × Nat
  | [] => ([], 0)
  | n :: rest =>
    if column < n then
      let (left, closed) := closing column rest
      (left, closed + 1)
    else (n :: rest, 0)

/-- Close the blocks that are indented deeper than the given column. -/
def closeBlocks (s : Scanner) (column : Int) : Scanner :=
  if s.inFlow then s
  else
    let (left, closed) := closing column s.indents
    { s with indents := left, tokens := s.tokens ++ Array.replicate closed Token.closeBlock }

/-- Close all blocks, for a sign that stands outside of them. -/
def leaveBlocks (s : Scanner) : Option Scanner :=
  return (← (s.closeBlocks (-1)).dropKey).allowKey false

/-! ## One token -/

/-- Skip blanks, comments and line breaks, and a byte order mark at the start of a line. A tab is no
blank where a block key may begin, and a line break allows one. -/
def skipGap (s : Scanner) (inComment : Bool) : List Char → Scanner
  | [] => s
  | c :: rest =>
    if isBreak c then skipGap ((s.advance 1).allowKey (s.keyAllowed || !s.inFlow)) false rest
    else if inComment then skipGap (s.advance 1) true rest
    else if c == byteOrderMark && s.cursor.column == 0 then skipGap (s.advance 1) false rest
    else if c == ' ' || (c == '\t' && (s.inFlow || !s.keyAllowed)) then
      skipGap (s.advance 1) false rest
    else if c == '#' then skipGap (s.advance 1) true rest
    else s

def openFlow (s : Scanner) (t : Token) : Option Scanner := do
  let s ← s.noteKey
  return (({ s with keys := none :: s.keys }.push t).allowKey true).advance 1

def closeFlow (s : Scanner) (t : Token) : Option Scanner := do
  let s ← s.dropKey
  let keys := if s.inFlow then s.keys.drop 1 else s.keys
  return (({ s with keys }.push t).allowKey false).advance 1

/-- A comma between brackets. -/
def flowEntry (s : Scanner) : Option Scanner := do
  return (((← s.dropKey).push .flowEntry).allowKey true).advance 1

/-- A sign that opens a block where none is open at its column. Such a block must begin where a key
may. -/
def openBlockHere (s : Scanner) (t : Token) : Option Scanner :=
  if s.inFlow then some s
  else if s.keyAllowed then some (s.openBlock s.cursor.column s.tokens.size t)
  else none

/-- A dash before an item. -/
def blockEntry (s : Scanner) : Option Scanner := do
  let s ← (← s.openBlockHere .openBlockSequence).dropKey
  return ((s.push .blockEntry).allowKey true).advance 1

/-- A question mark before a key. -/
def explicitKey (s : Scanner) : Option Scanner := do
  let s ← (← s.openBlockHere .openBlockMapping).dropKey
  return ((s.push .key).allowKey (!s.inFlow)).advance 1

/-- A colon before a value. -/
def value (s : Scanner) : Option Scanner := do
  let s ← match ← s.keyHere with
    | some k =>
      let s := { s with tokens := s.tokens.insertIdxIfInBounds k.token .key }
      let s := s.openBlock k.column k.token .openBlockMapping
      some ({ s with keys := none :: s.keys.drop 1 }.allowKey false)
    | none => do some ((← s.openBlockHere .openBlockMapping).allowKey (!s.inFlow))
  return (s.push .value).advance 1

/-- A quoted scalar behind its opening quote. -/
def quoted (s : Scanner) (items : Option (List QuotedItem × List Char)) : Option Scanner := do
  let (items, rest) ← items
  let s ← s.noteKey
  return (s.take (.scalar .quoted (.ofList (quotedText ⟨[], false⟩ items))) rest).allowKey false

/-- A block scalar behind its indicator. -/
def block (s : Scanner) (folded : Bool) (cs : List Char) : Option Scanner := do
  let s ← s.dropKey
  let (text, rest) ← blockScalar folded s.indent cs
  let style := if folded then Style.folded else .literal
  return (s.take (.scalar style (.ofList text)) rest).allowKey true

/-- The signs that begin no plain scalar, or begin one only before a character of it. -/
def isIndicator (c : Char) : Bool :=
  isFlowEnd c || c == '-' || c == '?' || c == ':' || c == '#' || c == '&' || c == '*' || c == '!'
    || c == '|' || c == '>' || c == '\'' || c == '"' || c == '%' || c == '@' || c.toNat == 96

/-- A plain scalar can begin with a character before the given rest. -/
def startsPlain (inFlow : Bool) (c : Char) (rest : List Char) : Bool :=
  !(isBlank c || isBreak c || isIndicator c)
    || (c == '-' && !rest.head?.any isBlank)
    || (!inFlow && (c == '?' || c == ':') && !startsBlank rest)

/-- A plain scalar. A key may follow it on a new line. -/
def plain (s : Scanner) : Option Scanner := do
  let s ← s.noteKey
  let scalar ← plainWords s.inFlow (s.indent + 1).toNat [] [] s.cursor
  return { s.push (.scalar .plain (.ofList scalar.text)) with
    cursor := scalar.after
    keyAllowed := scalar.brokeLine }

/-- The token that begins with a character before the given rest. -/
def next (s : Scanner) (c : Char) (rest : List Char) : Option Scanner := do
  let atLineStart := s.cursor.column == 0
  if atLineStart && c == '%' then
    let s ← s.leaveBlocks
    let (d, rest) ← directive rest
    return s.take (.directive d) rest
  else if atLineStart && startsMark (c :: rest) then
    let s ← s.leaveBlocks
    return (s.push (if c = '-' then .documentStart else .documentEnd)).advance 3
  else if c == '[' then s.openFlow .openFlowSequence
  else if c.toNat == 123 then s.openFlow .openFlowMapping
  else if c == ']' then s.closeFlow .closeFlowSequence
  else if c.toNat == 125 then s.closeFlow .closeFlowMapping
  else if c == ',' then s.flowEntry
  else if c == '-' && startsBlank rest then s.blockEntry
  else if c == '?' && (s.inFlow || startsBlank rest) then s.explicitKey
  else if c == ':' && (s.inFlow || startsBlank rest) then s.value
  else if c == '*' then
    let (name, rest) ← anchorName rest
    return ((← s.noteKey).take (.alias name) rest).allowKey false
  else if c == '&' then
    let (name, rest) ← anchorName rest
    return ((← s.noteKey).take (.anchor name) rest).allowKey false
  else if c == '!' then
    let (t, rest) ← tagName s.inFlow rest
    return ((← s.noteKey).take (.tag t) rest).allowKey false
  else if (c == '|' || c == '>') && !s.inFlow then s.block (c == '>') rest
  else if c == '\'' then s.quoted (singleQuoted false rest)
  else if c == '"' then s.quoted (doubleQuoted false rest)
  else if startsPlain s.inFlow c rest then s.plain
  else none

/-! ## All tokens -/

def run (s : Scanner) : Option (Array Token) :=
  let ready := s.skipGap false s.cursor.rest
  let ready := ready.closeBlocks ready.cursor.column
  match ready.cursor.rest with
  | [] => ready.leaveBlocks.map (·.tokens)
  | c :: rest =>
    match ready.next c rest with
    | none => none
    | some after =>
      if _h : after.cursor.rest.length < s.cursor.rest.length then run after else none
termination_by s.cursor.rest.length

end Scanner

def tokens? (text : String) : Option (List Token) := do
  return (← (Scanner.start (← Cursor.ofText text)).run).toList

end KetSim.Yaml
