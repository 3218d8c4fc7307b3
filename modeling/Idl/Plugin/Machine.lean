import Idl.Bytes

/-!
# Plugins as machines

A plugin is a machine with a memory and up to three functions that its host can call. Nothing is
assumed about what a call does: it may trap, return any words and leave any memory behind. The host
reads and writes the memory between calls.
-/

namespace Idl.Plugin

/-! ## §1 Memory -/

/-- A memory: its size, and the octet at each place. -/
structure Memory where
  size : Nat
  cell : Nat → UInt8

namespace Memory

/-- A memory of zeros. -/
def zeros (size : Nat) : Memory := ⟨size, fun _ => 0⟩

/-- The memory with octets written from a place on, whether or not they are in range. -/
def put (m : Memory) (start : Nat) (b : Bytes) : Memory :=
  let a := b.toArray
  ⟨m.size, fun i => if start ≤ i then (a[i - start]?).getD (m.cell i) else m.cell i⟩

/-- The memory with octets written from a place on, if they are in range. -/
def write? (m : Memory) (start : Nat) (b : Bytes) : Option Memory :=
  if start + b.length ≤ m.size then some (m.put start b) else none

/-- A number of octets from a place on, if they are in range. -/
def read? (m : Memory) (start count : Nat) : Option Bytes :=
  if start + count ≤ m.size then some ((List.range count).map fun i => m.cell (start + i)) else none

/-- The word at a place, if it is in range. -/
def word? (m : Memory) (start : Nat) : Option UInt32 :=
  (m.read? start 4).map fun b => (leNat b).toUInt32

end Memory

/-! ## §2 Machines -/

/-- The functions of a plugin. -/
inductive Export where
  | allocate
  | deallocate
  | generate
deriving DecidableEq, Repr

/-- The names of the functions. -/
def Export.name : Export → Bytes
  | .allocate => "midl_codegen_allocate"
  | .deallocate => "midl_codegen_deallocate"
  | .generate => "midl_codegen_generate"

/-- A call of a function. -/
structure Call where
  function : Export
  args : List UInt32
deriving DecidableEq, Repr

/-- What comes of a call: it traps, or returns words. -/
inductive Returned where
  | trap
  | words (l : List UInt64)
deriving DecidableEq, Repr

/-- A plugin that has been loaded. -/
structure Machine where
  State : Type
  start : State
  /-- Whether the host can see the memory. -/
  hasMemory : Bool
  /-- The functions that the plugin has. -/
  has : Export → Bool
  /-- What a call returns, and the state it leaves. -/
  call : Call → State → Returned × State
  memory : State → Memory
  /-- The state after the host has written to the memory. -/
  setMemory : Memory → State → State
  /-- What the plugin has written to its standard error. -/
  stderr : State → Bytes

/-- Why a plugin cannot be loaded. -/
inductive LoadError where
  | compile
  | instantiate
deriving DecidableEq, Repr

/-- Loads plugins from the octets of a module, with a limit on the pages of their memory. -/
abbrev Engine := (module : Bytes) → (limit : Nat) → Except LoadError Machine

/-- The octets of a page. -/
def pageSize : Nat := 65536

/-- The pages that a plugin may have unless told otherwise. -/
def defaultPages : Nat := 16384

/-- A machine without memory and functions. -/
def Machine.empty : Machine where
  State := Unit
  start := ()
  hasMemory := false
  has _ := false
  call _ _ := (.trap, ())
  memory _ := .zeros 0
  setMemory _ _ := ()
  stderr _ := []

/-- An engine that loads only the module without content, of which the header is all there is. -/
def Engine.minimal : Engine := fun module _ =>
  if module == [0x00, 0x61, 0x73, 0x6D, 0x01, 0x00, 0x00, 0x00] then .ok .empty
  else .error .compile

end Idl.Plugin
