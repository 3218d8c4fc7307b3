import Idl.Bindings.RustView
import Idl.Bindings.Template
import Idl.Text.Base64

/-!
# The text of Rust bindings

The built-in templates and the data that they are filled in from.
-/

namespace Idl.RustView

open Template (Data Node Library)
open Template.Short

/-! ## §1 Data -/

/-- A named field of a record. -/
def entry (name : Bytes) (d : Data) : Bytes × Data := (name, d)

/-- The data of a struct. -/
def Message.toData (m : Message) : Data :=
  let field (f : Field) : Data := .record [entry "Name" (.text f.name), entry "Type" (.text f.type),
    entry "Serde" (.texts f.serde), entry "Docs" (.texts f.docs)]
  .record [entry "Name" (.text m.name), entry "Docs" (.texts m.docs),
    entry "Fields" (.list (m.fields.map field))]

/-- The data of a method. -/
def Method.toData (s : Service) (m : Method) : Data :=
  let part (f : Param → Bytes) : Data := .text ((m.input.map f).getD [])
  .record [entry "Name" (.text m.label), entry "Fn" (.text m.function),
    entry "Wire" (.text (s.wire m)), entry "Docs" (.texts m.docs),
    entry "HasInput" (.flag m.input.isSome), entry "InType" (part (·.type)),
    entry "InParam" (part (·.declared)), entry "InByRef" (.flag (m.input.any (·.byReference))),
    entry "HasOutput" (.flag m.output.isSome), entry "OutType" (.text (m.output.getD []))]

/-- The data of a service. -/
def Service.toData (s : Service) : Data :=
  .record [entry "Name" (.text s.name), entry "Module" (.text s.module),
    entry "Docs" (.texts s.docs), entry "ID" (.text s.id),
    entry "Canonical" (.text (Base64.encode s.canonical)), entry "Client" (.flag s.client),
    entry "Server" (.flag s.server), entry "Methods" (.list (s.methods.map (Method.toData s)))]

/-- The data of a file. -/
def toData (v : RustView) : Data :=
  .record [entry "Source" (.text v.source), entry "Runtime" (.text v.runtime),
    entry "Messages" (.list (v.messages.map Message.toData)),
    entry "Services" (.list (v.services.map Service.toData))]

/-! ## §2 Templates -/

/-- A struct. -/
def message : List Node :=
  [t "\n", docs "///" "",
   t "#[derive(Clone, Debug, Default, PartialEq, Deserialize, Serialize)]\n", t "pub struct ",
   f "Name", t " \x7b",
   each "Fields"
     [t "\n", docs "///" "    ", cond "Serde" [t "    #[serde(", joined "Serde", t ")]\n"] [],
      t "    pub ", f "Name", t ": ", f "Type", t ","],
   t "\n\x7d"]

/-- The signature of a function. -/
def signature : List Node :=
  [t "async fn ", f "Fn", t "(&self, ctx: &Context<'_>",
   cond "HasInput" [t ", arg: ", f "InParam"] [], t ") -> RpcResult<",
   cond "HasOutput" [f "OutType"] [t "()"], t ">"]

/-- The identity of a service and its trait. -/
def service : List Node :=
  [t "\n/// Identity and canonical schema of ", f "Name", t ".\npub mod ", f "Module",
   t " \x7b\n    pub const SCHEMA_ID: &str = ", q "ID", t ";\n    pub const SCHEMA: &str = ",
   q "Canonical", t ";\n\x7d\n\n", docs "///" "", t "#[async_trait]\npub trait ", f "Name",
   t " \x7b", each "Methods" [t "\n", docs "///" "    ", t "    ", use "signature", t ";"],
   t "\n\x7d"]

/-- What hands requests over to a handler. -/
def receiver : List Node :=
  [t "\n/// ", f "Name", t "Receiver dispatches ", f "Name",
   t " requests to a handler.\n#[async_trait]\npub trait ", f "Name",
   t "Receiver: MessageDispatch + ", f "Name", t " \x7b\n",
   t "    async fn dispatch(&self, ctx: &Context<'_>, message: &Message<'_>) ",
   t "-> Result<Message<'_>, RpcError> \x7b\n",
   t "        let method = message.method.trim_start_matches(\"", f "Name",
   t ".\");\n        match method \x7b",
   each "Methods"
     [t "\n            ", q "Name", t " => \x7b",
      cond "HasInput"
        [t "\n                let value: ", f "InType",
         t " = deserialize(message.arg.as_ref())?;"]
        [],
      t "\n                let ", cond "HasOutput" [t "resp"] [t "_resp"], t " = ", top "Name",
      t "::", f "Fn", t "(self, ctx",
      cond "HasInput" [t ", ", cond "InByRef" [t "&"] [], t "value"] [], t ").await?;",
      cond "HasOutput"
        [t "\n                let buf = Cow::Owned(serialize(&resp)?);"]
        [t "\n                let buf = Cow::Owned(Vec::new());"],
      t "\n                Ok(Message \x7b method: ", q "Wire",
      t ", arg: buf \x7d)\n            \x7d"],
   t "\n",
   t "            _ if method.contains('.') => ",
   t "Err(RpcError::MethodNotHandled(message.method.to_string())),\n",
   t "            _ => Err(RpcError::MethodNotHandled(format!(\"", f "Name",
   t ".\x7b\x7d\", method))),\n        \x7d\n    \x7d\n\x7d"]

/-- What sends requests. -/
def sender : List Node :=
  [t "\n/// ", f "Name", t "Sender sends ", f "Name",
   t " requests over a transport.\n#[derive(Debug)]\npub struct ", f "Name",
   t "Sender<T: Transport> \x7b\n    transport: T,\n\x7d\n\n", t "impl<T: Transport> ", f "Name",
   t "Sender<T> \x7b\n    pub fn via(transport: T) -> Self \x7b\n",
   t "        Self \x7b transport \x7d\n    \x7d\n\x7d\n\n#[async_trait]\n",
   t "impl<T: Transport + Sync + Send> ", f "Name", t " for ", f "Name", t "Sender<T> \x7b",
   each "Methods"
     [t "\n    #[allow(unused)]\n    ", use "signature", t " \x7b",
      cond "HasInput"
        [t "\n        let arg = serialize(&arg)?;"]
        [t "\n        let arg = Vec::new();"],
      t "\n        let ", cond "HasOutput" [t "resp"] [t "_resp"],
      t " = self\n            .transport\n", t "            .send(ctx, Message \x7b method: ",
      q "Wire", t ", arg: Cow::Borrowed(&arg) \x7d, None)\n            .await?;",
      cond "HasOutput"
        [t "\n        let value = deserialize(&resp)?;\n        Ok(value)"]
        [t "\n        Ok(())"],
      t "\n    \x7d"],
   t "\n\x7d"]

/-- The whole file. -/
def file : List Node :=
  [t "// This file is generated by midl. DO NOT EDIT.\n// source package: ", f "Source", t "\n\n",
   t "#![allow(unused_imports, clippy::ptr_arg, clippy::needless_lifetimes)]\n",
   t "use async_trait::async_trait;\n",
   t "use serde::\x7bDeserialize, Serialize\x7d;\nuse std::borrow::Cow;\n", t "use ", f "Runtime",
   t "::\x7bdeserialize, serialize, Context, Message, MessageDispatch, ",
   t "RpcError, RpcResult, Transport\x7d;",
   each "Messages" [t "\n", use "message"],
   each "Services"
     [t "\n", use "service", cond "Server" [t "\n", use "receiver"] [],
      cond "Client" [t "\n", use "sender"] []],
   t "\n"]

/-- The name of the template of a whole file. -/
def fileTemplate : Bytes := "file.rs.tmpl"

/-- The built-in templates. -/
def builtins : Library :=
  [(fileTemplate, file), ("message", message), ("signature", signature), ("service", service),
   ("receiver", receiver), ("sender", sender)]

end Idl.RustView
