import Idl.Schema
import Idl.SchemaError
import Idl.Tree.Literal

/-!
# The meaning of annotations

A few names have a meaning of their own: `doc`, `_source`, `codegen` and `default`. All other
annotations are kept as they are.
-/

namespace Idl

/-! ## §1 Arguments -/

/-- The constant that a syntax tree denotes. -/
def Tree.Constant.lower : Tree.Constant → Idl.Value
  | .int lit => .ofInt lit.value
  | .float x => .float x
  | .bool b => .bool b
  | .text lit => .text lit.value
  | .path name => .ident name.dotted

/-- The constant of a number that is kept as a sign and a magnitude. -/
def Integer.Kept.constant (k : Integer.Kept) : Value :=
  if k.negative then .int (k.int64?.getD 0).toInt
  else
    let n := k.uint64?.getD 0
    if n ≤ 0x7FFFFFFFFFFFFFFF then .int n.toInt64.toInt else .uint n.toNat

/-- The constant that a syntax tree denotes. -/
def Tree.Value.lower (v : Tree.Value) : Idl.Value := v.constant.lower

/-- The first element that occurs a second time. -/
def firstRepeat? : List Bytes → Option Bytes
  | l => go [] l
where
  /-- Looks for an element of `seen` in what is left. -/
  go (seen : List Bytes) : List Bytes → Option Bytes
    | [] => none
    | k :: r => if seen.contains k then some k else go (k :: seen) r

/-- The named value of an argument; a bare name stands for a true one. -/
def Tree.ArgForm.pair? : Tree.ArgForm → Option Pair
  | .positional _ => none
  | .flag key => some ⟨key.name, .bool true⟩
  | .pair key v => some ⟨key.name, v.lower⟩

/-- The value of an argument that has no name. -/
def Tree.ArgForm.positional? : Tree.ArgForm → Option Idl.Value
  | .positional v => some v.lower
  | _ => none

/-- Reads the arguments: at most one value without a name, or values with different names. -/
def Tree.Annot.lower (a : Tree.Annot) : Except ArgFault Idl.Annot :=
  let forms := a.args.map (·.form)
  let pairs := forms.filterMap (·.pair?)
  let positional := forms.filterMap (·.positional?)
  match firstRepeat? (pairs.map (·.key)) with
  | some key => .error (.duplicateKey key)
  | none =>
    if !positional.isEmpty && !pairs.isEmpty then .error .mixed
    else if positional.length > 1 then .error .manyPositional
    else .ok ⟨a.name.dotted, positional.head?, pairs⟩

/-! ## §2 Names with a meaning -/

/-- What an annotation says about the thing behind it. -/
inductive Meaning where
  | doc (text : Bytes)
  | source (pos : Pos)
  /-- Which sides of a service are generated; the annotation itself is kept too. -/
  | codegen (annot : Annot) (client server : Option Bool)
  | other (annot : Annot)
deriving DecidableEq, Repr

/-- Sets one coordinate of a place. -/
def setCoordinate (pos : Pos) (p : Pair) : Except ArgFault Pos :=
  match p.value.toNat? with
  | none => .error (.notNatural p.key)
  | some n =>
    if n ≥ 2 ^ 32 then .error (.notNatural p.key)
    else if p.key == "line" then .ok { pos with line := n }
    else if p.key == "col" then .ok { pos with col := n }
    else .error (.unknownKey p.key)

/-- The place that an annotation gives. -/
def sourceOf (a : Annot) : Except ArgFault Pos :=
  if a.pairs.isEmpty then .error .wantsPlace else a.pairs.foldlM setCoordinate .unknown

/-- Sets one side of a service. -/
def setSide (sides : Option Bool × Option Bool) (p : Pair) :
    Except ArgFault (Option Bool × Option Bool) :=
  match p.value with
  | .bool b =>
    if p.key == "client" then .ok (some b, sides.2)
    else if p.key == "server" then .ok (sides.1, some b)
    else .error (.unknownKey p.key)
  | _ => .error (.notBool p.key)

/-- The sides, client and server, that an annotation sets. -/
def sidesOf (a : Annot) : Except ArgFault (Option Bool × Option Bool) :=
  if a.pairs.isEmpty then .error .wantsSides else a.pairs.foldlM setSide (none, none)

/-- Whether an annotation has a single value, or one under the name `value`. -/
def givesValue (a : Annot) : Bool :=
  a.value.isSome || match a.pairs with
    | [p] => p.key == "value"
    | _ => false

/-- What an annotation says in front of a target. -/
def Tree.Annot.interpret (target : Target) (node : Tree.Annot) : Except SchemaCause Meaning := do
  let name := node.name.dotted
  let malformed {α : Type} (r : Except ArgFault α) : Except SchemaCause α :=
    r.mapError (.malformedAnnot name)
  let a ← malformed node.lower
  if name == Idl.Annot.docName then
    match a.value with
    | some (.text t) => return .doc t
    | _ => malformed (.error .wantsText)
  else if name == Idl.Annot.sourceName then return .source (← malformed (sourceOf a))
  else if name == Idl.Annot.codegenName then
    if target != .service then throw (.misplacedAnnot name target)
    let (client, server) ← malformed (sidesOf a)
    return .codegen a client server
  else if name == Idl.Annot.defaultName then
    if target != .field then throw (.misplacedAnnot name target)
    if !givesValue a then malformed (.error .wantsValue)
    return .other a
  else return .other a

/-! ## §3 All annotations of one thing -/

/-- The annotations of one thing, taken together. Of several places and sides the last counts. -/
structure Meanings where
  docs : List Bytes
  annots : List Annot
  source : Option Pos
  client : Option Bool
  server : Option Bool

namespace Meaning

/-- The text of documentation. -/
def doc? : Meaning → Option Bytes
  | .doc t => some t
  | _ => none

/-- The annotation, if it is kept. -/
def annot? : Meaning → Option Annot
  | .codegen a _ _ => some a
  | .other a => some a
  | _ => none

/-- The place that is given. -/
def source? : Meaning → Option Pos
  | .source p => some p
  | _ => none

/-- Whether a client is asked for. -/
def client? : Meaning → Option Bool
  | .codegen _ c _ => c
  | _ => none

/-- Whether a server is asked for. -/
def server? : Meaning → Option Bool
  | .codegen _ _ s => s
  | _ => none

end Meaning

/-- What the well-formed annotations in front of a target say. -/
def meanings (target : Target) (nodes : List Tree.Annot) : Meanings :=
  let l := nodes.filterMap fun n => (n.interpret target).toOption
  { docs := l.filterMap Meaning.doc?
    annots := l.filterMap Meaning.annot?
    source := (l.filterMap Meaning.source?).getLast?
    client := (l.filterMap Meaning.client?).getLast?
    server := (l.filterMap Meaning.server?).getLast? }

/-- The errors in the annotations in front of an entity. -/
def annotErrors (target : Target) (scope entity : Bytes) (nodes : List Tree.Annot) :
    List SchemaError :=
  nodes.filterMap fun n => match n.interpret target with
    | .ok _ => none
    | .error cause => some ⟨cause, n.loc, entity, scope⟩

end Idl
