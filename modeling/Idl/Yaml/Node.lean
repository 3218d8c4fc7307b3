import Idl.Yaml.Token

/-!
# Nodes of a YAML document

The tokens of the first document become a tree: scalars, lists, mappings, and references to nodes
that were named before. A node that contains a reference to itself is a `loop` there.

* §1 the tree, §2 the state of reading,
* §3 properties of a node, §4 nodes, §5 documents.
-/

namespace Idl.Yaml

/-! ## §1 The tree -/

/-- A scalar with its tag; an empty one is none. -/
structure Scalar where
  tag : Bytes
  bare : Bool
  text : Bytes
deriving DecidableEq, Repr

/-- A node of a document. -/
inductive Node where
  | scalar (s : Scalar)
  | list (items : List Node)
  | map (entries : List (Node × Node))
  | alias (name : Bytes) (target : Node)
  | loop (name : Bytes)
deriving Repr, Inhabited

/-- The node that stands where nothing is written. -/
def Node.blank : Node := .scalar ⟨[], true, []⟩

/-! ## §2 The state of reading -/

/-- A name for a node, which is unknown while the node is being read. -/
structure Anchor where
  name : Bytes
  number : Nat
  node : Option Node

/-- The tokens that are left, and the names so far, the last one first. -/
structure Parser where
  tokens : List Token
  complete : Bool
  /-- The shorthands for tags. -/
  shorts : List (Bytes × Bytes) := []
  anchors : List Anchor := []

/-- Reading a part of a document, which fails if the text is malformed. -/
abbrev Parse := StateT Parser Option

namespace Parser

/-- The next token. Tokens are read two ahead, so that a fault shows before it is reached. -/
def peek : Parse Token := do
  let s ← get
  match s.tokens with
  | t :: _ => if !s.complete && (s.tokens.drop 2).isEmpty then failure else return t
  | [] => if s.complete then return .streamEnd else failure

/-- Goes on to the token after the next. -/
def advance : Parse Unit := modify fun s => { s with tokens := s.tokens.drop 1 }

/-- The next token, which is passed. -/
def take : Parse Token := do
  let t ← peek
  advance
  return t

/-- Gives a name to the node that starts here, and returns the number of the name. -/
def addAnchor (name : Bytes) : Parse Nat := do
  let s ← get
  let n := s.anchors.length
  set { s with anchors := ⟨name, n, none⟩ :: s.anchors }
  return n

/-- Binds the name of a node that has been read. -/
def bindAnchor (number : Option Nat) (node : Node) : Parse Node := do
  if let some n := number then
    modify fun s => { s with anchors := s.anchors.map fun a =>
      if a.number == n then { a with node := some node } else a }
  return node

/-- The node that a reference stands for. -/
def resolveAlias (name : Bytes) : Parse Node := do
  match (← get).anchors.find? (·.name == name) with
  | none => failure
  | some a => return match a.node with
    | some n => .alias name n
    | none => .loop name

/-! ## §3 Properties of a node -/

/-- The name and the tag in front of a node. -/
structure Properties where
  anchor : Option Bytes := none
  tag : Option (Bytes × Bytes) := none

/-- A name and a tag, in either order, each at most once. -/
def properties : Parse Properties := do
  match ← peek with
  | .anchor name =>
    advance
    match ← peek with
    | .tag handle suffix => advance; return ⟨some name, some (handle, suffix)⟩
    | _ => return ⟨some name, none⟩
  | .tag handle suffix =>
    advance
    match ← peek with
    | .anchor name => advance; return ⟨some name, some (handle, suffix)⟩
    | _ => return ⟨none, some (handle, suffix)⟩
  | _ => return {}

/-- The tag in full; the shorthand has to be known. -/
def fullTag (p : Properties) : Parse Bytes := do
  match p.tag with
  | none => return []
  | some (handle, suffix) =>
    if handle.isEmpty then return suffix
    else match (← get).shorts.lookup handle with
      | some lead => return lead ++ suffix
      | none => failure

/-! ## §4 Nodes -/

mutual

/-- A node. `block` tells whether lists and mappings by indentation may stand here, and `dashes`
whether a list at the indentation of its parent may. -/
def node (block dashes : Bool) : (fuel : Nat) → Parse Node
  | 0 => failure
  | n + 1 => do
    if let .alias name ← peek then
      advance
      resolveAlias name
    else
      let p ← properties
      let tag ← fullTag p
      let number ← match p.anchor with
        | some name => some <$> addAnchor name
        | none => pure none
      let t ← peek
      if t == .item && dashes then
        bindAnchor number (.list (← dashItems n))
      else match t with
        | .scalar bare text => advance; bindAnchor number (.scalar ⟨tag, bare, text⟩)
        | .openList => advance; bindAnchor number (.list (← flowItems true n))
        | .openMap => advance; bindAnchor number (.map (← flowEntries true n))
        | .openBlockList =>
          if !block then failure
          advance
          bindAnchor number (.list (← blockItems n))
        | .openBlockMap =>
          if !block then failure
          advance
          bindAnchor number (.map (← blockEntries n))
        | _ =>
          if p.anchor.isSome || !tag.isEmpty then bindAnchor number (.scalar ⟨tag, true, []⟩)
          else failure

/-- A node, unless one of the given tokens comes next: then nothing is written there. -/
def nodeUnless (ends : List Token) (block dashes : Bool) : (fuel : Nat) → Parse Node
  | 0 => failure
  | n + 1 => do if ends.contains (← peek) then return .blank else node block dashes n

/-- The items of a list by indentation. -/
def blockItems : (fuel : Nat) → Parse (List Node)
  | 0 => failure
  | n + 1 => do
    match ← take with
    | .closeBlock => return []
    | .item =>
      let v ← nodeUnless [.item, .closeBlock] true false n
      return v :: (← blockItems n)
    | _ => failure

/-- The items of a list at the indentation of its parent, which ends where no dash follows. -/
def dashItems : (fuel : Nat) → Parse (List Node)
  | 0 => failure
  | n + 1 => do
    if (← peek) == .item then
      advance
      let v ← nodeUnless [.item, .key, .value, .closeBlock] true false n
      return v :: (← dashItems n)
    else return []

/-- The value after a key; there may be none. -/
def valueUnless (ends : List Token) (block dashes : Bool) : (fuel : Nat) → Parse Node
  | 0 => failure
  | n + 1 => do
    if (← peek) == .value then
      advance
      nodeUnless ends block dashes n
    else return .blank

/-- The entries of a mapping by indentation. -/
def blockEntries : (fuel : Nat) → Parse (List (Node × Node))
  | 0 => failure
  | n + 1 => do
    match ← take with
    | .closeBlock => return []
    | .key =>
      let ends := [Token.key, .value, .closeBlock]
      let k ← nodeUnless ends true true n
      let v ← valueUnless ends true true n
      return (k, v) :: (← blockEntries n)
    | _ => failure

/-- The items of a list in brackets. An item with a key is a mapping of one entry. -/
def flowItems (first : Bool) : (fuel : Nat) → Parse (List Node)
  | 0 => failure
  | n + 1 => do
    if (← peek) == .closeList then
      advance
      return []
    if !first then
      if (← take) != .comma then failure
    match ← peek with
    | .closeList => advance; return []
    | .key =>
      advance
      let ends := [Token.value, .comma, .closeList]
      -- the token after a key without a node is passed
      let k ← if ends.contains (← peek) then advance; pure Node.blank else node false false n
      let v ← valueUnless [.comma, .closeList] false false n
      return .map [(k, v)] :: (← flowItems false n)
    | _ =>
      let v ← node false false n
      return v :: (← flowItems false n)

/-- The entries of a mapping in braces. -/
def flowEntries (first : Bool) : (fuel : Nat) → Parse (List (Node × Node))
  | 0 => failure
  | n + 1 => do
    if (← peek) == .closeMap then
      advance
      return []
    if !first then
      if (← take) != .comma then failure
    match ← peek with
    | .closeMap => advance; return []
    | .key =>
      advance
      let k ← nodeUnless [.value, .comma, .closeMap] false false n
      let v ← valueUnless [.comma, .closeMap] false false n
      return (k, v) :: (← flowEntries false n)
    | _ =>
      let k ← node false false n
      return (k, .blank) :: (← flowEntries false n)

end

/-! ## §5 Documents -/

/-- The directives in front of a document: the version has to be the one we read, and nothing may
be said twice. -/
def directives (version : Bool) (shorts : List (Bytes × Bytes)) : (fuel : Nat) → Parse Unit
  | 0 => failure
  | n + 1 => do
    match ← peek with
    | .version major minor =>
      if version || major != 1 || minor != 1 then failure
      advance
      directives true shorts n
    | .tagShort handle lead =>
      if (shorts.lookup handle).isSome then failure
      advance
      directives version ((handle, lead) :: shorts) n
    | _ =>
      let usual : List (Bytes × Bytes) := [("!", "!"), ("!!", "tag:yaml.org,2002:")]
      modify fun s => { s with shorts := shorts ++ usual }

/-- The first document; nothing if the text has none. -/
def document (fuel : Nat) : Parse (Option Node) := do
  let explicit ← match ← peek with
    | .streamEnd => return none
    | .version .. | .tagShort .. | .documentStart => pure true
    | _ => pure false
  directives false [] fuel
  let root ←
    if explicit then do
      if (← take) != .documentStart then failure
      match ← peek with
      | .version .. | .tagShort .. | .documentStart | .documentEnd | .streamEnd => pure Node.blank
      | _ => node true false fuel
    else node true false fuel
  let _ ← peek
  return some root

end Parser

/-- The first document of a text. An empty text has none, which counts as malformed too. -/
def Node.ofText? (b : Bytes) : Option Node := do
  let t := Tokens.ofChars (← characters? b)
  let (root, _) ← (Parser.document (4 * t.list.length + 8)).run
    { tokens := t.list, complete := t.complete }
  root

end Idl.Yaml
