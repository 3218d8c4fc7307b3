import Idl.Bindings.GoView
import Idl.Bindings.RustView
import Idl.Rpc

/-!
# Receivers

The code that is generated for the server of a service is a receiver: it takes the name of the
service off the method that a request names, and hands the request to the arm with the label that is
left. Receivers in both languages are alike but for how they take the name off, once in Go and as
often as it occurs in Rust.

* §1 receivers, §2 their text.
-/

namespace Idl

/-! ## §1 Receivers -/

/-- What becomes of a request. -/
inductive Choice (α : Type) where
  | arm (a : α)
  /-- It is refused, under the name of this method. -/
  | unhandled (method : Bytes)

/-- A receiver with its arms and their labels. -/
structure Receiver (α : Type) where
  /-- How a part is taken off the front. -/
  trim : Bytes → Bytes → Bytes
  service : Bytes
  arms : List (Bytes × α)

namespace Receiver

variable {α : Type}

/-- The octets between a service and a method. -/
def mark (service : Bytes) : Bytes := service ++ "."

/-- The arm for the method of a request: the first with the label that is left of it. A request that
no arm is for is refused, under the name that it has if there is a dot in what is left, and else
under what is left with the service before it. -/
def choose (r : Receiver α) (method : Bytes) : Choice α :=
  let label := r.trim method (mark r.service)
  match r.arms.find? (·.1 == label) with
  | some (_, a) => .arm a
  | none => .unhandled (if label.contains Rpc.dot then method else mark r.service ++ label)

/-- A receiver answers messages, if it is given what its arms do. -/
def dispatcher (r : Receiver α) (serve : α → Rpc.Dispatcher) : Rpc.Dispatcher := fun m =>
  match r.choose m.method with
  | .arm a => serve a m
  | .unhandled method => ⟨m.arg, .error (.notHandled method)⟩

/-- A receiver in Go takes the name of its service off once. -/
def inGo (service : Bytes) (arms : List (Bytes × α)) : Receiver α :=
  ⟨Bytes.trimStart, service, arms⟩

/-- A receiver in Rust takes it off as often as it occurs. -/
def inRust (service : Bytes) (arms : List (Bytes × α)) : Receiver α :=
  ⟨Bytes.trimStartAll, service, arms⟩

end Receiver

/-- The receiver of a service in Go. -/
def GoView.Service.receiver (w : GoView.Service) : Receiver GoView.Method :=
  .inGo w.name (w.methods.map fun m => (m.name, m))

/-- The receiver of a service in Rust. -/
def RustView.Service.receiver (w : RustView.Service) : Receiver RustView.Method :=
  .inRust w.name (w.methods.map fun m => (m.label, m))

/-! ## §2 The text of receivers -/

namespace Receiver

variable {α : Type}

/-- The switch of a receiver in Go; `body` is the text of what an arm does. -/
def goText (r : Receiver α) (body : α → Bytes) : Bytes :=
  "\n\tmethod := strings.TrimPrefix(msg.Method, \"" ++ r.service ++ ".\")\n\tswitch method \x7b"
    ++ (r.arms.flatMap fun a => ("\n\tcase " ++ quote a.1 ++ ":" ++ body a.2 : Bytes))
    ++ ("\n\tdefault:\n\t\tif strings.Contains(method, \".\") \x7b\n"
      ++ "\t\t\treturn nil, rpc.NotHandled(msg.Method)\n\t\t\x7d\n"
      ++ "\t\treturn nil, rpc.NotHandled(\"" ++ r.service ++ ".\" + method)\n\t\x7d\n\x7d")

/-- The match of a receiver in Rust. -/
def rustText (r : Receiver α) (body : α → Bytes) : Bytes :=
  "        let method = message.method.trim_start_matches(\"" ++ r.service
    ++ ".\");\n        match method \x7b"
    ++ (r.arms.flatMap fun a => ("\n            " ++ quote a.1 ++ " => \x7b" ++ body a.2 : Bytes))
    ++ "\n"
    ++ ("            _ if method.contains('.') => "
      ++ "Err(RpcError::MethodNotHandled(message.method.to_string())),\n"
      ++ "            _ => Err(RpcError::MethodNotHandled(format!(\"" ++ r.service
      ++ ".\x7b\x7d\", method))),\n        \x7d\n    \x7d\n\x7d")

end Receiver

end Idl
