import Idl.Text.Quote

/-!
# Calls between services

A call is a message: the name of a method with the name of its service before it, and an encoded
argument. A dispatcher answers messages; a `Mux` is a dispatcher that hands each message to the one
registered for its service. A loopback sends messages to a dispatcher of the same process.

* §1 messages and answers, §2 routing,
* §3 one request after the other, §4 the loopback.
-/

namespace Idl.Rpc

/-! ## §1 Messages and answers -/

/-- A request or a reply. -/
structure Message where
  method : Bytes
  arg : Bytes
deriving DecidableEq, Repr

/-- The most octets that an argument may have. -/
def maxMessageSize : Nat := 0x7FF00000

/-- A short text for a message: its method and the size of its argument. -/
def Message.summary (m : Message) : Bytes :=
  m.method ++ " (" ++ Bytes.ofNat m.arg.length ++ " bytes)"

/-- Why a call has no reply. -/
inductive CallError where
  | notHandled (method : Bytes)
  | canceled
  | tooLarge (m : Message)
  /-- What a dispatcher says of its own failure. -/
  | failed (message : Bytes)
deriving DecidableEq, Repr

/-- The message for a call without a reply. -/
def CallError.message : CallError → Bytes
  | .notHandled method => "rpc: method not handled: " ++ method
  | .canceled => "context canceled"
  | .tooLarge m => "rpc: message too large: " ++ m.summary
  | .failed t => t

/-- What comes of a call: a reply, which there need not be, or an error. -/
abbrev Result := Except CallError (Option Message)

/-- What a dispatcher leaves behind: the result, and the argument that it was handed, which it may
have written to. -/
structure Outcome where
  argAfter : Bytes
  result : Result

/-- Something that answers messages. -/
abbrev Dispatcher := Message → Outcome

/-- The outcome for a method that nobody answers. -/
def notHandled (m : Message) : Outcome := ⟨m.arg, .error (.notHandled m.method)⟩

/-! ## §2 Routing -/

/-- The dispatchers by service, in the order of their registration. A service can be registered
without one, and then nothing is handled. -/
structure Mux where
  entries : List (Bytes × Option Dispatcher) := []

/-- Why a service cannot be registered. -/
inductive RegisterError where
  | invalidName (service : Bytes)
  | alreadyRegistered (service : Bytes)
deriving DecidableEq, Repr

/-- The message for a service that cannot be registered. -/
def RegisterError.message : RegisterError → Bytes
  | .invalidName s => "rpc: invalid service name " ++ quote s
  | .alreadyRegistered s => "rpc: service " ++ quote s ++ " is already registered"

/-- The octet between a service and a method. -/
def dot : UInt8 := 0x2E

namespace Mux

/-- What is registered under a name. -/
def find? (x : Mux) (service : Bytes) : Option (Option Dispatcher) := x.entries.lookup service

/-- Registers a service. Its name is not empty and has no dot, and it is registered once. -/
def handle (x : Mux) (service : Bytes) (d : Option Dispatcher) : Except RegisterError Mux :=
  if service.isEmpty || service.contains dot then .error (.invalidName service)
  else if (x.find? service).isSome then .error (.alreadyRegistered service)
  else .ok ⟨x.entries ++ [(service, d)]⟩

/-- The registered services in ascending order. -/
def services (x : Mux) : List Bytes := (x.entries.map (·.1)).mergeSort Bytes.le

/-- The service of a method: what stands before the first dot. -/
def serviceOf? (method : Bytes) : Option Bytes :=
  if method.contains dot then some (method.takeWhile (· != dot)) else none

/-- The dispatcher that a method goes to. -/
def route? (x : Mux) (method : Bytes) : Option Dispatcher := do
  let service ← serviceOf? method
  let entry ← x.find? service
  entry

/-- Hands a message to the dispatcher of its service. -/
def dispatch (x : Mux) : Dispatcher := fun m =>
  match x.route? m.method with
  | some d => d m
  | none => notHandled m

/-! ## §3 One request after the other -/

/-- What a multiplexer can be asked for. -/
inductive Request where
  | handle (service : Bytes) (d : Option Dispatcher)
  | dispatch (m : Message)
  | services

/-- A message, after the dispatcher that it was handed to. -/
abbrev Handover := Dispatcher × Message

/-- What a multiplexer answers. -/
inductive Reply where
  | handled (result : Except RegisterError Unit)
  /-- All that was handed over on the way, in order, and what came of it in the end. -/
  | dispatched (handed : List Handover) (outcome : Outcome)
  | services (names : List Bytes)

/-- Dispatching, with a note of every message that is handed to a dispatcher. -/
def deliver (x : Mux) (m : Message) : StateM (List Handover) Outcome :=
  match x.route? m.method with
  | some d => do
    modify (· ++ [(d, m)])
    return d m
  | none => return notHandled m

/-- One request: the reply, and the multiplexer from then on. -/
def step (x : Mux) : Request → Reply × Mux
  | .handle service d =>
    match x.handle service d with
    | .ok y => (.handled (.ok ()), y)
    | .error e => (.handled (.error e), x)
  | .dispatch m =>
    let (outcome, handed) := (x.deliver m).run []
    (.dispatched handed outcome, x)
  | .services => (.services x.services, x)

/-- Requests one after the other: the replies, and the multiplexer that is left. -/
def run (x : Mux) : List Request → List Reply × Mux
  | [] => ([], x)
  | q :: rest => ((x.step q).1 :: (run (x.step q).2 rest).1, (run (x.step q).2 rest).2)

end Mux

/-! ## §4 The loopback -/

/-- Refuses a message that is too large. -/
def checkSize (m : Message) : Except CallError Unit :=
  if m.arg.length > maxMessageSize then .error (.tooLarge m) else .ok ()

/-- Sends a message to a dispatcher and waits for the reply. Arguments are copied both ways, so what
the dispatcher writes to its argument does not show. Where it leaves no reply there is an empty one.
A call that is `canceled` beforehand reaches nobody. -/
def send (canceled : Bool) (d : Dispatcher) (m : Message) : Except CallError Message := do
  if canceled then throw .canceled
  checkSize m
  match ← (d m).result with
  | none => return ⟨m.method, []⟩
  | some reply =>
    checkSize reply
    return reply

end Idl.Rpc
