import Idl.Plugin.Machine

/-!
# Scripted plugins

A plugin can be described by what its functions do, without any code. Such a plugin runs in the same
host as any other.
-/

namespace Idl.Plugin

/-- What the function for room does: it hands out memory piece by piece, always returns one word,
traps, or returns nothing. -/
inductive Allocation where
  | bump
  | constant (n : Nat)
  | trap
  | void
deriving DecidableEq, Repr

/-- What the function that generates does. -/
inductive Generation where
  | usual
  | trap
  | void
deriving DecidableEq, Repr

/-- The description of a plugin. -/
structure Script where
  pages : Nat := 1
  missing : List Export := []
  initializeTraps : Bool := false
  allocation : Allocation := .bump
  deallocateTraps : Bool := false
  generation : Generation := .usual
  /-- What memory holds as the answer. -/
  response : Option Bytes := none
  /-- A length for the answer that need not be its own. -/
  responseLength : Option Nat := none
  /-- What the plugin stores as the place of its answer. -/
  responsePointer : Option UInt32 := none
  /-- The word that the plugin returns. -/
  status : UInt32 := 0
  /-- Whether the request is written to standard error. -/
  logsRequest : Bool := false
  /-- Whether each call writes a letter to standard error. -/
  traces : Bool := false

namespace Script

/-- Where the answer is. -/
def responseAt : Nat := 32768

/-- Where the letters for the calls are. -/
def lettersAt : Nat := 8

/-- Where a piece of text to write is described: its place, its length and how much was written. -/
def scratchAt : Nat := 16

/-- The first place that is handed out. -/
def roomAt : Nat := 1024

/-- The state of a scripted plugin. -/
structure State where
  memory : Memory
  top : Nat
  stderr : Bytes

/-- The answer in memory, with its length before it. -/
def stored? (x : Script) : Option Bytes :=
  if x.response.isNone && x.responseLength.isNone then none
  else
    let body := x.response.getD []
    some (leOctets 4 (x.responseLength.getD body.length) ++ body)

/-- The memory at the start; nothing if what it should hold does not fit. -/
def memory? (x : Script) : Option Memory := do
  let m ← (Memory.zeros (x.pages * pageSize)).write? lettersAt "afg"
  match x.stored? with
  | some b => m.write? responseAt b
  | none => m

/-- Writes octets from memory to standard error, through the scratch place. -/
def emit (s : State) (start count : Nat) : State :=
  let m := s.memory.put scratchAt (leOctets 4 start ++ leOctets 4 count)
  let m' := m.put (scratchAt + 8) (leOctets 4 count)
  { s with memory := m', stderr := s.stderr ++ (m.read? start count).getD [] }

/-- Writes the letter of a function. -/
def trace (x : Script) (f : Export) (s : State) : State :=
  let letter := match f with
    | .allocate => 0
    | .deallocate => 1
    | .generate => 2
  if x.traces then emit s (lettersAt + letter) 1 else s

/-- The function that generates: it may log the request, stores the place of the answer, and returns
its status. -/
def generate (x : Script) (request slot : UInt32) (s : State) : Returned × State :=
  let s := if x.logsRequest then
      emit s (request.toNat + 4) ((s.memory.word? request.toNat).getD 0).toNat
    else s
  let pointer := x.responsePointer.getD responseAt.toUInt32
  match s.memory.write? slot.toNat (leOctets 4 pointer.toNat) with
  | none => (.trap, s)
  | some m =>
    let words := if x.generation == .void then [] else [x.status.toUInt64]
    (.words words, { s with memory := m })

/-- What a call does. -/
def call (x : Script) (c : Call) (s : State) : Returned × State :=
  let s := x.trace c.function s
  match c.function, c.args with
  | .allocate, [size] => match x.allocation with
    | .bump =>
      (.words [s.top.toUInt32.toUInt64], { s with top := (s.top + size.toNat) % 2 ^ 32 })
    | .constant n => (.words [n.toUInt32.toUInt64], s)
    | .trap => (.trap, s)
    | .void => (.words [], s)
  | .deallocate, _ => (if x.deallocateTraps then .trap else .words [], s)
  | .generate, [request, slot] =>
    if x.generation == .trap then (.trap, s) else x.generate request slot s
  | _, _ => (.trap, s)

/-- Loads a scripted plugin. -/
def load (x : Script) (limit : Nat) : Except LoadError Machine :=
  if x.pages > limit then .error .compile
  else match x.memory? with
    | none => .error .instantiate
    | some m =>
      if x.initializeTraps then .error .instantiate
      else .ok {
        State := State
        start := ⟨m, roomAt, []⟩
        hasMemory := true
        has := fun f => !x.missing.contains f
        call := x.call
        memory := State.memory
        setMemory := fun m s => { s with memory := m }
        stderr := State.stderr }

end Script

end Idl.Plugin
