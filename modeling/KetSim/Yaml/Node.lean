import KetSim.Yaml.Token
/-!
# Nodes

A document is a tree of scalars, sequences and mappings. Nodes are read from the tokens of a text by
recursive descent. A node that is left out where the form of the document calls for one is an empty
plain scalar.

A node can have an anchor, and an alias elsewhere stands for the node with its name. Anchors and
aliases are numbered while the document is read: an anchor takes as its number how many names are
known before it, an alias the number that its name has where it stands. An anchor whose name is used
again adds no name, so two anchors can have one number; an alias then stands for the later of the
two, even where that comes after the alias.
-/
namespace KetSim.Yaml

/-- A node of a document, with the number of its anchor if it has one. -/
inductive Node where
  | scalar (anchor : Option Nat) (style : Style) (tag : Option Address) (text : String)
  | sequence (anchor : Option Nat) (items : List Node)
  | mapping (anchor : Option Nat) (entries : List (Node × Node))
  | alias (number : Nat)
  deriving Repr

namespace Node

/-- What stands where a node is left out. -/
def empty : Node := .scalar none .plain none ""

/-- A node under the number of its anchor, if it has one. -/
def atAnchor (anchor : Option Nat) (n : Node) : List (Nat × Node) :=
  (anchor.map fun number => (number, n)).toList

mutual

/-- The nodes with anchors and their numbers, in the order in which they begin. -/
def numbered : Node → List (Nat × Node)
  | .scalar anchor style tag text => atAnchor anchor (.scalar anchor style tag text)
  | .sequence anchor items => atAnchor anchor (.sequence anchor items) ++ numberedItems items
  | .mapping anchor entries => atAnchor anchor (.mapping anchor entries) ++ numberedEntries entries
  | .alias _ => []

def numberedItems : List Node → List (Nat × Node)
  | [] => []
  | item :: rest => numbered item ++ numberedItems rest

def numberedEntries : List (Node × Node) → List (Nat × Node)
  | [] => []
  | (key, value) :: rest => numbered key ++ numbered value ++ numberedEntries rest

end

/-- What a node of the document with the given root stands for: an alias for the last node with its
number, any other node for itself. -/
def resolve (root : Node) : Node → Option Node
  | .alias number => root.numbered.reverse.lookup number
  | n => some n

end Node

/-- What is known while a document is read. -/
structure Reading where
  tokens : List Token
  /-- What the handles of tags stand for. -/
  handles : List (String × Address)
  /-- The names of the anchors so far, each with the number of the last one. -/
  anchors : List (String × Nat)

/-- A part of a document is read from its tokens. -/
abbrev Reader := StateT Reading Option

namespace Reader

def peek : Reader (Option Token) := return (← get).tokens.head?

def skip : Reader Unit := modify fun r => { r with tokens := r.tokens.drop 1 }

/-- Take a token if it comes next. -/
def takes (t : Token) : Reader Bool := do
  if (← peek) == some t then
    skip
    return true
  else return false

/-- Take a token that has to come next. -/
def expect (t : Token) : Reader Unit := do
  if !(← takes t) then failure

/-- One of the given tokens comes next, or none does. -/
def sees (ts : List Token) : Reader Bool := do
  match ← peek with
  | none => return true
  | some t => return ts.contains t

def expand (t : Tag) : Reader Address := do
  if t.handle.isEmpty then return t.suffix
  else
    match (← get).handles.lookup t.handle with
    | some start => return start ++ t.suffix
    | none => failure

def anchorNumber (name : String) : Reader Nat :=
  modifyGet fun r =>
    let number := r.anchors.length
    (number, { r with anchors := (name, number) :: r.anchors.filter (·.1 != name) })

/-- The alias of the given name. An anchor of that name has to come before it. -/
def aliasOf (name : String) : Reader Node := do
  match (← get).anchors.lookup name with
  | some number => return .alias number
  | none => failure

def takeAnchor : Reader (Option Nat) := do
  match ← peek with
  | some (.anchor name) =>
    skip
    return some (← anchorNumber name)
  | _ => return none

def takeTag : Reader (Option Address) := do
  match ← peek with
  | some (.tag t) =>
    skip
    return some (← expand t)
  | _ => return none

/-- The properties in front of a node: an anchor and a tag, in either order, each at most once. -/
def properties : Reader (Option Nat × Option Address) := do
  match ← takeAnchor with
  | some number => return (some number, ← takeTag)
  | none =>
    match ← takeTag with
    | some tag => return (← takeAnchor, some tag)
    | none => return (none, none)

/-- A node that consists of its properties alone. -/
def emptyNode (anchor : Option Nat) (tag : Option Address) : Reader Node :=
  if anchor.isNone && tag.isNone then failure else return .scalar anchor .plain tag ""

/-! ## Descent

The number bounds the depth of the calls; each second call takes a token. -/

mutual

/-- A node, or an empty one in front of the given tokens. -/
def nodeUnless (ends : List Token) (block indentless : Bool) : Nat → Reader Node
  | 0 => failure
  | depth + 1 => do
    if ← sees ends then return .empty else node block indentless depth
termination_by depth => depth

/-- A node. Only inside of a block it may be a block; only the values of a block mapping may be
sequences without an indent of their own. -/
def node (block indentless : Bool) : Nat → Reader Node
  | 0 => failure
  | depth + 1 => do
    match ← peek with
    | some (.alias a) =>
      skip
      aliasOf a
    | _ =>
      let (anchor, tag) ← properties
      match ← peek with
      | some (.scalar style text) =>
        skip
        return .scalar anchor style tag text
      | some .openFlowSequence =>
        skip
        Node.sequence anchor <$> flowItems true depth
      | some .openFlowMapping =>
        skip
        Node.mapping anchor <$> flowEntries true depth
      | some .blockEntry =>
        if indentless then Node.sequence anchor <$> indentlessItems depth
        else emptyNode anchor tag
      | some .openBlockSequence =>
        if block then
          skip
          Node.sequence anchor <$> blockItems depth
        else emptyNode anchor tag
      | some .openBlockMapping =>
        if block then
          skip
          Node.mapping anchor <$> blockEntries depth
        else emptyNode anchor tag
      | _ => emptyNode anchor tag
termination_by depth => depth

def blockItems : Nat → Reader (List Node)
  | 0 => failure
  | depth + 1 => do
    if ← takes .closeBlock then return []
    expect .blockEntry
    let item ← nodeUnless [.blockEntry, .closeBlock] true false depth
    return item :: (← blockItems depth)
termination_by depth => depth

/-- The items of a sequence that is indented like the key before it. -/
def indentlessItems : Nat → Reader (List Node)
  | 0 => failure
  | depth + 1 => do
    if ← takes .blockEntry then
      let item ← nodeUnless [.blockEntry, .key, .value, .closeBlock] true false depth
      return item :: (← indentlessItems depth)
    else return []
termination_by depth => depth

def blockEntries : Nat → Reader (List (Node × Node))
  | 0 => failure
  | depth + 1 => do
    if ← takes .closeBlock then return []
    expect .key
    let key ← nodeUnless [.key, .value, .closeBlock] true true depth
    let value ←
      if ← takes .value then nodeUnless [.key, .value, .closeBlock] true true depth
      else pure .empty
    return (key, value) :: (← blockEntries depth)
termination_by depth => depth

/-- The items of a flow sequence up to its end. A key among them makes an item a mapping of one
entry. -/
def flowItems (first : Bool) : Nat → Reader (List Node)
  | 0 => failure
  | depth + 1 => do
    if ← takes .closeFlowSequence then return []
    if !first then expect .flowEntry
    if ← takes .closeFlowSequence then return []
    let item ←
      if ← takes .key then (fun entry => .mapping none [entry]) <$> flowPair depth
      else node false false depth
    return item :: (← flowItems false depth)
termination_by depth => depth

/-- The one entry of a mapping in a flow sequence. In place of a key that is left out one token goes
with it. -/
def flowPair : Nat → Reader (Node × Node)
  | 0 => failure
  | depth + 1 => do
    let key ←
      if ← sees [.value, .flowEntry, .closeFlowSequence] then
        skip
        pure Node.empty
      else node false false depth
    let value ←
      if ← takes .value then nodeUnless [.flowEntry, .closeFlowSequence] false false depth
      else pure .empty
    return (key, value)
termination_by depth => depth

/-- The entries of a flow mapping up to its end. A node that is no key of its own stands for a key
without a value. -/
def flowEntries (first : Bool) : Nat → Reader (List (Node × Node))
  | 0 => failure
  | depth + 1 => do
    if ← takes .closeFlowMapping then return []
    if !first then expect .flowEntry
    if ← takes .closeFlowMapping then return []
    let entry ←
      if ← takes .key then
        let key ← nodeUnless [.value, .flowEntry, .closeFlowMapping] false false depth
        let value ←
          if ← takes .value then nodeUnless [.flowEntry, .closeFlowMapping] false false depth
          else pure .empty
        pure (key, value)
      else do pure (← node false false depth, .empty)
    return entry :: (← flowEntries false depth)
termination_by depth => depth

end

/-! ## Documents -/

def standardHandles : List (String × Address) :=
  [("!", .ofText "!"), ("!!", .ofText "tag:yaml.org,2002:")]

/-- The directives at the start: at most one version, which has to be known, and handles of
different names. -/
def directives (versionSeen : Bool) (handles : List (String × Address)) :
    List Token → Option (List (String × Address) × List Token)
  | .directive (.version major minor) :: rest =>
    if versionSeen || major != 1 || !(minor == 1 || minor == 2) then none
    else directives true handles rest
  | .directive (.handle handle start) :: rest =>
    if (handles.lookup handle).isSome then none
    else directives versionSeen (handles ++ [(handle, start)]) rest
  | rest => some (handles, rest)

/-- The tokens are those that come behind the only document. -/
def isEnd (tokens : List Token) : Bool := tokens.all (· == .documentEnd)

def document (tokens : List Token) : Option (Option Node) := do
  if tokens.isEmpty then return none
  let (handles, body) ← directives false [] tokens
  let depth := 3 * tokens.length + 3
  let handles := handles ++ standardHandles
  let (n, r) ←
    match body with
    | .documentStart :: rest =>
      (nodeUnless [.documentStart, .documentEnd] true false depth).run ⟨rest, handles, []⟩
    | body =>
      if body.length < tokens.length then none
      else (node true false depth).run ⟨body, handles, []⟩
  if isEnd r.tokens then some (some n) else none

end Reader

/-- The only document of a text: none if the text holds nothing but comments. Text that breaks the
rules, or goes on behind the document, has no reading. -/
def parse (text : String) : Option (Option Node) := do
  Reader.document (← tokens? text)

end KetSim.Yaml
