import Idl.Plugin.Machine
import Idl.Plugin.Protocol

/-!
# Running plugins

The host asks the plugin for room, writes the request there, lets it generate, and reads the answer
from where the plugin says it is. Whatever happens, it frees what it has got, the last first and
each once, after all other calls.

* §1 failures, §2 calls and what they get,
* §3 the session, §4 plugins as targets.
-/

namespace Idl.Plugin

open Bindings (OutputFile Options)

/-! ## §1 Failures -/

/-- Why a plugin gives no files. -/
inductive HostError where
  | templates
  | frame (e : FrameError)
  | load (e : LoadError)
  /-- Memory or a function that is needed is missing; the plugin is named by its path. -/
  | exports (path : Bytes)
  | trap (f : Export)
  | noRoom (size : Nat)
  | writeRequest
  | resultCount (n : Nat)
  | responsePointer
  | responseLength
  | responseBody
  | response (e : ResponseError)
deriving DecidableEq, Repr

/-- The message for a plugin that gives no files. -/
def HostError.message : HostError → Bytes
  | .templates => "template overrides are not supported by plugins"
  | .frame e => e.message
  | .load .compile => "compile plugin"
  | .load .instantiate => "instantiate plugin"
  | .exports path =>
    path ++ " does not export memory, " ++ Export.allocate.name ++ ", and " ++ Export.generate.name
  | .trap f => f.name
  | .noRoom n => Export.allocate.name ++ " failed to allocate " ++ Bytes.ofNat n ++ " bytes"
  | .writeRequest => "failed to write request into plugin memory"
  | .resultCount n => Export.generate.name ++ " returned " ++ Bytes.ofNat n ++ " results"
  | .responsePointer => "failed to read response pointer"
  | .responseLength => "failed to read response message length"
  | .responseBody => "failed to read response message"
  | .response e => e.message

/-! ## §2 Calls -/

/-- A running plugin: its state, the calls made so far and the pointers obtained so far, the last
ones first. -/
structure Session (m : Machine) where
  state : m.State
  calls : List Call := []
  pointers : List UInt32 := []

/-- What the host does in a session: it may fail, and keeps what it has noted. -/
abbrev Host (m : Machine) := ExceptT HostError (StateM (Session m))

namespace Host

variable {m : Machine}

/-- Calls a function. -/
def call (f : Export) (args : List UInt32) : Host m Returned := do
  let s ← get
  let (r, state) := m.call ⟨f, args⟩ s.state
  set { s with state := state, calls := ⟨f, args⟩ :: s.calls }
  return r

/-- Notes a pointer that has to be freed. -/
def note (p : UInt32) : Host m Unit := modify fun s => { s with pointers := p :: s.pointers }

/-- The memory as it is now. -/
def memory : Host m Memory := do return m.memory (← get).state

/-- Asks for room. A plugin that returns no pointer, or a null one, has none. -/
def allocate (size : Nat) : Host m UInt32 := do
  match ← call .allocate [size.toUInt32] with
  | .trap => throw (.trap .allocate)
  | .words [w] =>
    let p := w.toUInt32
    if p == 0 then throw (.noRoom size)
    note p
    return p
  | .words _ => throw (.noRoom size)

/-- Writes the request to its place. -/
def writeRequest (p : UInt32) (request : Bytes) : Host m Unit := do
  match (← memory).write? p.toNat request with
  | some mem => modify fun s => { s with state := m.setMemory mem s.state }
  | none => throw .writeRequest

/-- Lets the plugin generate. Of the word that it returns the lowest octet is its status. -/
def generate (request slot : UInt32) : Host m UInt8 := do
  match ← call .generate [request, slot] with
  | .trap => throw (.trap .generate)
  | .words [w] => return w.toUInt8
  | .words l => throw (.resultCount l.length)

/-- Reads the frame at a place. -/
def readFrame (p : UInt32) : Host m Bytes := do
  let n ← match (← memory).word? p.toNat with
    | some n => pure n
    | none => throw .responseLength
  match (← memory).read? (p + 4).toNat n.toNat with
  | some b => return b
  | none => throw .responseBody

/-- Reads the answer, which is a frame at the pointer that the plugin has stored. -/
def readResponse (slot : UInt32) : Host m Bytes := do
  let p ← match (← memory).word? slot.toNat with
    | some p => if p == 0 then throw .responsePointer else pure p
    | none => throw .responsePointer
  note p
  readFrame p

/-! ## §3 The session -/

/-- What the host does when the request has been written. -/
def afterWriting (p : UInt32) : Host m (UInt8 × Bytes) := do
  let slot ← allocate 4
  let status ← generate p slot
  return (status, ← readResponse slot)

/-- All that comes before freeing: the status and the answer. -/
def converse (request : Bytes) : Host m (UInt8 × Bytes) := do
  let p ← allocate request.length
  writeRequest p request
  afterWriting p

end Host

/-- Frees pointers, one after the other. What comes of it does not matter. -/
def Session.free {m : Machine} (s : Session m) (pointers : List UInt32) : Session m :=
  pointers.foldl
    (fun s p =>
      let c : Call := ⟨.deallocate, [p]⟩
      { s with state := (m.call c s.state).2, calls := c :: s.calls })
    s

/-- Frees all pointers obtained, the last first, if the plugin can do that. -/
def Session.finish {m : Machine} (s : Session m) : Session m :=
  if m.has .deallocate then s.free s.pointers else s

/-- What is left after a plugin has run. -/
structure Finished where
  result : Except HostError (List OutputFile)
  /-- The calls in their order. -/
  calls : List Call := []
  /-- What the plugin has written to its standard error. -/
  stderr : Bytes := []
  /-- How much of that it had written when the host began to free. -/
  early : Nat := 0
  /-- The size of the framed request, if there was one. -/
  request : Option Nat := none
  /-- The status and the size of the answer, if there was one. -/
  answer : Option (UInt8 × Nat) := none

/-- Runs a loaded plugin on a framed request. -/
def Machine.run (m : Machine) (path request : Bytes) : Finished :=
  if !(m.hasMemory && m.has .allocate && m.has .generate) then { result := .error (.exports path) }
  else
    let (answer, s) := (Host.converse request : Host m (UInt8 × Bytes)).run { state := m.start }
    let done := s.finish
    { result := do
        let (status, payload) ← answer
        (decodeResponse status payload).mapError .response
      calls := done.calls.reverse
      stderr := m.stderr done.state
      early := (m.stderr s.state).length
      answer := answer.toOption.map fun (status, payload) => (status, payload.length) }

/-! ## §4 Plugins as targets -/

/-- A plugin for a language. -/
structure Source where
  language : Bytes
  /-- Where the plugin comes from, as it is shown. -/
  path : Bytes
  module : Bytes
  /-- The most pages that its memory may have. -/
  limit : Nat

namespace Source

/-- A plugin that does not come from a file. -/
def ofModule (language module : Bytes) (limit : Nat) : Source :=
  ⟨language, "<" ++ language ++ " plugin>", module, limit⟩

/-- The framed request for a schema. -/
def request (p : Source) (s : Schema) (o : Options) : Except FrameError Bytes :=
  frame (Request.toJson ⟨p.language, o.values, Document.ofSchema s⟩).compact

/-- Runs a plugin on a schema. -/
def run (engine : Engine) (p : Source) (s : Schema) (o : Options) : Finished :=
  if o.templates.isSome then { result := .error .templates }
  else match p.request s o with
    | .error e => { result := .error (.frame e) }
    | .ok request =>
      let f : Finished := match engine p.module p.limit with
        | .error e => { result := .error (.load e) }
        | .ok m => m.run p.path request
      { f with request := some request.length }

/-- What a plugin renders. Every failure counts as one of code generation. -/
def render (p : Source) (f : Finished) : Except BindingError (List OutputFile) :=
  f.result.mapError fun e => .ofPlugin p.language e.message

/-- The files of a plugin in order, like those of a built-in target. -/
def generate (p : Source) (f : Finished) : Except BindingError (List OutputFile) := do
  Bindings.collect p.language (← p.render f)

end Source

end Idl.Plugin
