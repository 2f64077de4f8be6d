import BranchFusion.Config.Node
import BranchFusion.Config.Supply

/-!
# Reading documents

Nodes are read from tokens by descent: what the next token is decides which node comes. Where a node
may be left out, such as the value of a key, the token after it tells, and a scalar without
characters stands in its place.

Only the first document of a text is read. What follows it matters only as far as tokens have to be
made before the end of the document shows.
-/

namespace BranchFusion.Config

/-- A reader of documents: the tokens to come, the handles of tags with what they stand for, the
names of the anchors so far with the numbers of their nodes, those of the nodes that are complete,
and the number of aliases so far. -/
structure Reader where
  supply : Supply
  handles : List (String × String) := []
  anchors : List (String × Nat) := []
  anchored : List (Nat × Node) := []
  aliases : Nat := 0
deriving Repr, Inhabited

/-- Steps of a reader. -/
abbrev ReadM := StateT Reader (Except SyntaxError)

namespace Reader

/-- The next token. -/
def peek : ReadM Token := fun r => do
  let s ← r.supply.fill
  return (s.queue.headD ⟨.textEnd, 0⟩, { r with supply := s })

/-- Takes the next token. -/
def drop : ReadM Unit := modify fun r => { r with supply := r.supply.take }

/-- Takes the next token and looks at the one after it. -/
def dropAndPeek : ReadM Token := do
  drop
  peek

/-- A node that is left out. -/
def absent (line : Nat) : Node := .scalar (line + 1) .null ""

/-! ### Properties -/

/-- What stands in front of a node: the line where the node begins, its anchor and its tag. -/
structure Properties where
  line : Nat
  anchor : Option String := none
  tag : Option String := none
deriving Repr, Inhabited

/-- The full form of a tag. -/
def fullTag (line : Nat) (t : Token) (w : WrittenTag) : ReadM String := do
  if w.handle = "" then return w.suffix
  let r ← get
  let full := match r.handles.find? fun h => h.1 = w.handle with
    | some h => h.2 ++ w.suffix
    | none => ""
  if full = "" then throw (structural line t.line .unknownHandle)
  return full

/-- Reads the properties of a node: an anchor and a tag, in either order. The full form of the tag
is only looked for after both. -/
def properties : ReadM Properties := do
  let t ← peek
  match t.kind with
  | .anchor name =>
    let u ← dropAndPeek
    match u.kind with
    | .tag w =>
      let _ ← dropAndPeek
      return { line := t.line, anchor := some name, tag := some (← fullTag t.line u w) }
    | _ => return { line := t.line, anchor := some name }
  | .tag w =>
    let u ← dropAndPeek
    match u.kind with
    | .anchor name =>
      let _ ← dropAndPeek
      return { line := t.line, anchor := some name, tag := some (← fullTag t.line t w) }
    | _ => return { line := t.line, tag := some (← fullTag t.line t w) }
  | _ => return { line := t.line }

/-- Reads a node with an anchor, if it has one. The anchor is known from the beginning of the node
on. -/
def withAnchor (p : Properties) (read : ReadM Node) : ReadM Node := do
  match p.anchor with
  | none => read
  | some name =>
    let number := (← get).anchors.length
    modify fun r => { r with anchors := (name, number) :: r.anchors }
    let n ← read
    modify fun r => { r with anchored := (number, n) :: r.anchored }
    return n

/-- A scalar with properties. -/
def scalarNode (p : Properties) (plain : Bool) (s : String) : Node :=
  .scalar (p.line + 1) ((Node.givenTag? p.tag).getD (Node.impliedTag plain s)) s

/-- The node of an alias. -/
def aliasNode (line : Nat) (name : String) : ReadM Node := do
  let r ← get
  match r.anchors.find? fun a => a.1 = name with
  | none => throw ⟨none, .unknownAnchor name⟩
  | some a =>
    set { r with aliases := r.aliases + 1 }
    return .alias (line + 1) name r.aliases a.2

/-! ### Nodes -/

/-- Whether a key or a value in a block is left out before a token. -/
def endsBlockPart (k : TokenKind) : Bool := k = .key || k = .value || k = .blockEnd

/-- Whether a key or a value in brackets is left out before a token, beside a colon. -/
def endsFlowPart (closing k : TokenKind) : Bool := k = .comma || k = closing

mutual

/-- Reads a node; `block` tells whether the layout may show its structure, and `indentless` whether
it may be a sequence at the margin of a mapping. -/
def node : Nat → (block indentless : Bool) → ReadM Node
  | 0, _, _ => throw (structural 0 0 .tooDeep)
  | fuel + 1, block, indentless => do
    let t ← peek
    match t.kind with
    | .alias name =>
      drop
      aliasNode t.line name
    | _ =>
      let p ← properties
      let t ← peek
      let tag (d : Tag) : Tag := (Node.givenTag? p.tag).getD d
      let sequence (items : ReadM (List Node)) : ReadM Node :=
        withAnchor p do return .sequence (p.line + 1) (tag .sequence) (← items)
      let mapping (entries : ReadM (List (Node × Node))) : ReadM Node :=
        withAnchor p do return .mapping (p.line + 1) (tag .mapping) (← entries)
      if indentless && t.kind = .entry then sequence (indentlessItems fuel)
      else match t.kind, block with
        | .scalar plain s, _ =>
          drop
          withAnchor p (pure (scalarNode p plain s))
        | .openBracket, _ =>
          drop
          sequence (flowItems fuel t.line true)
        | .openBrace, _ =>
          drop
          mapping (flowEntries fuel t.line true)
        | .blockSequence, true =>
          drop
          sequence (blockItems fuel t.line)
        | .blockMapping, true =>
          drop
          mapping (blockEntries fuel t.line)
        | _, _ =>
          if p.anchor.isSome || p.tag.isSome then withAnchor p (pure (scalarNode p true ""))
          else throw (structural p.line t.line .expectedContent)

/-- Reads the items of a sequence in a block that began in the line `start`. -/
def blockItems : Nat → (start : Nat) → ReadM (List Node)
  | 0, _ => throw (structural 0 0 .tooDeep)
  | fuel + 1, start => do
    let t ← peek
    match t.kind with
    | .entry =>
      let u ← dropAndPeek
      let n ← if u.kind = .entry || u.kind = .blockEnd then pure (absent t.line)
        else node fuel true false
      return n :: (← blockItems fuel start)
    | .blockEnd =>
      drop
      return []
    | _ => throw (structural start t.line .expectedEntry)

/-- Reads the items of a sequence at the margin of a mapping. It ends where there is no dash. -/
def indentlessItems : Nat → ReadM (List Node)
  | 0 => throw (structural 0 0 .tooDeep)
  | fuel + 1 => do
    let t ← peek
    match t.kind with
    | .entry =>
      let u ← dropAndPeek
      let n ← if u.kind = .entry || endsBlockPart u.kind then pure (absent t.line)
        else node fuel true false
      return n :: (← indentlessItems fuel)
    | _ => return []

/-- Reads the entries of a mapping in a block that began in the line `start`. -/
def blockEntries : Nat → (start : Nat) → ReadM (List (Node × Node))
  | 0, _ => throw (structural 0 0 .tooDeep)
  | fuel + 1, start => do
    let t ← peek
    match t.kind with
    | .key =>
      let u ← dropAndPeek
      let k ← if endsBlockPart u.kind then pure (absent t.line) else node fuel true true
      let v ← blockValue fuel
      return (k, v) :: (← blockEntries fuel start)
    | .blockEnd =>
      drop
      return []
    | _ => throw (structural start t.line .expectedKey)

/-- Reads the value of a key in a block. -/
def blockValue : Nat → ReadM Node
  | 0 => throw (structural 0 0 .tooDeep)
  | fuel + 1 => do
    let t ← peek
    if t.kind = .value then
      let u ← dropAndPeek
      if endsBlockPart u.kind then return absent t.line else node fuel true true
    else return absent t.line

/-- Reads the items in brackets that were opened in the line `start`. -/
def flowItems : Nat → (start : Nat) → (first : Bool) → ReadM (List Node)
  | 0, _, _ => throw (structural 0 0 .tooDeep)
  | fuel + 1, start, first => do
    let t ← peek
    if t.kind = .closeBracket then
      drop
      return []
    else if !first && t.kind ≠ .comma then
      throw (structural start t.line .expectedCommaOrBracket)
    else
      let t ← if first then pure t else dropAndPeek
      if t.kind = .closeBracket then
        drop
        return []
      else
        let n ←
          if t.kind = .key then do
            drop
            let entry ← flowPair fuel
            pure (Node.mapping (t.line + 1) .mapping [entry])
          else node fuel false false
        return n :: (← flowItems fuel start false)

/-- Reads a key and its value that are an item in brackets. Where the key is left out, the token
that shows it is passed over. -/
def flowPair : Nat → ReadM (Node × Node)
  | 0 => throw (structural 0 0 .tooDeep)
  | fuel + 1 => do
    let t ← peek
    let k ←
      if t.kind = .value || endsFlowPart .closeBracket t.kind then do
        drop
        pure (absent t.line)
      else node fuel false false
    return (k, ← flowValue fuel .closeBracket)

/-- Reads the value of a key in brackets. -/
def flowValue : Nat → (closing : TokenKind) → ReadM Node
  | 0, _ => throw (structural 0 0 .tooDeep)
  | fuel + 1, closing => do
    let t ← peek
    if t.kind = .value then
      let u ← dropAndPeek
      if endsFlowPart closing u.kind then return absent u.line else node fuel false false
    else return absent t.line

/-- Reads the entries in braces that were opened in the line `start`. A key without a sign of one
has no value. -/
def flowEntries : Nat → (start : Nat) → (first : Bool) → ReadM (List (Node × Node))
  | 0, _, _ => throw (structural 0 0 .tooDeep)
  | fuel + 1, start, first => do
    let t ← peek
    if t.kind = .closeBrace then
      drop
      return []
    else if !first && t.kind ≠ .comma then
      throw (structural start t.line .expectedCommaOrBrace)
    else
      let t ← if first then pure t else dropAndPeek
      if t.kind = .closeBrace then
        drop
        return []
      else if t.kind = .key then
        let u ← dropAndPeek
        let k ← if u.kind = .value || endsFlowPart .closeBrace u.kind then pure (absent u.line)
          else node fuel false false
        let v ← flowValue fuel .closeBrace
        return (k, v) :: (← flowEntries fuel start false)
      else
        let k ← node fuel false false
        let u ← peek
        return (k, absent u.line) :: (← flowEntries fuel start false)

end

/-! ### Documents -/

/-- The handles of every document. -/
def defaultHandles : List (String × String) := [("!", "!"), ("!!", Tag.longFront)]

/-- Reads the directives in front of a document; `versioned` tells whether a version has been
given. -/
def directives : Nat → (versioned : Bool) → ReadM Unit
  | 0, _ => throw (structural 0 0 .tooDeep)
  | fuel + 1, versioned => do
    let t ← peek
    match t.kind with
    | .directive (.version major minor) =>
      if versioned then throw (structural 0 t.line .repeatedVersion)
      if major ≠ 1 || minor ≠ 1 then throw (structural 0 t.line .otherVersion)
      drop
      directives fuel true
    | .directive (.handle name front) =>
      if (← get).handles.any fun h => h.1 = name then
        throw (structural 0 t.line .repeatedHandle)
      modify fun r => { r with handles := r.handles ++ [(name, front)] }
      drop
      directives fuel versioned
    | _ => modify fun r => { r with handles := r.handles ++ defaultHandles }

/-- Whether a document without content ends before a token. -/
def endsDocument : TokenKind → Bool
  | .directive _ => true
  | .documentStart => true
  | .documentEnd => true
  | .textEnd => true
  | _ => false

/-- Reads the first document of a text, if there is one, up to its end. -/
def document (fuel : Nat) : ReadM (Option Node) := do
  let _ ← peek
  let t ← dropAndPeek
  if t.kind = .textEnd then return none
  let root ←
    if endsDocument t.kind && t.kind ≠ .documentEnd then do
      directives fuel false
      let u ← peek
      if u.kind ≠ .documentStart then throw (structural 0 u.line .expectedDocument)
      let u ← dropAndPeek
      if endsDocument u.kind then pure (absent u.line) else node fuel true false
    else do
      modify fun r => { r with handles := defaultHandles }
      node fuel true false
  let _ ← peek
  return some root

end Reader

/-- **Reads the first document of a text**; none if there is none. -/
def Document.ofText (s : String) : Except SyntaxError (Option Document) := do
  let supply ← Supply.ofText s
  let fuel := 16 * s.length + 64
  let (root, r) ← (Reader.document fuel).run { supply }
  return root.map fun n => ⟨n, r.anchored, r.aliases, fuel⟩

end BranchFusion.Config
