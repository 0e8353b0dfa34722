import KetSim.Yaml.Address
/-!
# Properties and directives

What may stand in front of a node, an anchor or a tag, and the lines in front of a document that
begin with a percent sign. Each function takes the text behind the sign that announces it and
returns what it read with the text that follows.
-/
namespace KetSim.Yaml

def takeName (cs : List Char) : List Char × List Char :=
  (cs.takeWhile isNameChar, cs.dropWhile isNameChar)

/-! ## Anchors -/

/-- The name of an anchor or an alias, which ends at a blank or at one of a few signs. -/
def anchorName (cs : List Char) : Option (String × List Char) :=
  let (name, rest) := takeName cs
  let ended := startsBlank rest || rest.head?.any fun c =>
    c == '?' || c == ':' || c == ',' || c == ']' || c.toNat == 125 || c == '%' || c == '@'
      || c.toNat == 96
  if name.isEmpty || !ended then none else some (.ofList name, rest)

/-! ## Tags -/

/-- A tag as it is written. The empty handle stands before a tag that is written in full. -/
structure Tag where
  handle : String
  suffix : Address
  deriving Repr, DecidableEq

/-- A tag behind its exclamation mark. -/
def tagName (inFlow : Bool) (cs : List Char) : Option (Tag × List Char) := do
  let (tag, rest) ← match cs with
    | '<' :: rest => do
      let (full, rest) ← Address.takeSome true rest
      match rest with
      | '>' :: rest => some (Tag.mk "" full, rest)
      | _ => none
    | cs => do
      let (name, rest) := takeName cs
      match rest with
      | '!' :: rest => do
        let (suffix, rest) ← Address.takeSome false rest
        some (Tag.mk (.ofList ('!' :: name ++ ['!'])) suffix, rest)
      | _ =>
        let (suffix, rest) ← Address.take false 0 cs
        some (if suffix.isEmpty then Tag.mk "" (.ofText "!") else Tag.mk "!" suffix, rest)
  if startsBlank rest || (inFlow && rest.head? == some ',') then some (tag, rest) else none

/-! ## Directives -/

/-- A line in front of a document. -/
inductive Directive where
  | version (major minor : Nat)
  /-- What a handle stands for in the tags of the document. -/
  | handle (name : String) (start : Address)
  deriving Repr, DecidableEq

/-- The value of at most nine digits and what follows them. -/
def versionNumber (cs : List Char) : Option (Nat × List Char) :=
  let (digits, rest) := Decimal.spanDigits cs
  if digits.isEmpty || 9 < digits.length then none
  else some (Decimal.readDigits digits, rest)

/-- Blanks and a comment up to the end of the line. -/
def restOfLine (cs : List Char) : Option (List Char) :=
  let cs := cs.dropWhile isBlank
  let cs := if cs.head? == some '#' then cs.dropWhile (!isBreak ·) else cs
  match cs with
  | [] => some []
  | c :: rest => if isBreak c then some rest else none

/-- The handle that a line declares: one or two exclamation marks, with a name between the two. -/
def declaredHandle : List Char → Option (List Char × List Char)
  | '!' :: rest =>
    let (name, rest) := takeName rest
    match rest with
    | '!' :: rest => some ('!' :: name ++ ['!'], rest)
    | rest => if name.isEmpty then some (['!'], rest) else none
  | _ => none

/-- A directive behind its percent sign, up to the end of its line. Its name ends at a blank. -/
def directive (cs : List Char) : Option (Directive × List Char) := do
  let (name, rest) := takeName cs
  let (d, rest) ←
    if !startsBlank rest then none
    else if name = "YAML".toList then do
      let (major, rest) ← versionNumber (rest.dropWhile isBlank)
      match rest with
      | '.' :: rest => do
        let (minor, rest) ← versionNumber rest
        some (Directive.version major minor, rest)
      | _ => none
    else if name = "TAG".toList then do
      let (handle, rest) ← declaredHandle (rest.dropWhile isBlank)
      if rest.head?.any isBlank then do
        let (start, rest) ← Address.takeSome true (rest.dropWhile isBlank)
        if startsBlank rest then some (.handle (.ofList handle) start, rest) else none
      else none
    else none
  return (d, ← restOfLine rest)

end KetSim.Yaml
