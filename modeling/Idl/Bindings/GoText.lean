import Idl.Bindings.GoView
import Idl.Bindings.Template
import Idl.Text.Base64

/-!
# The text of Go bindings

The built-in templates and the data that they are filled in from.
-/

namespace Idl.GoView

open Template (Data Node Library)
open Template.Short

/-! ## §1 Data -/

/-- A named field of a record. -/
def entry (name : Bytes) (d : Data) : Bytes × Data := (name, d)

/-- The data of a struct. -/
def Message.toData (m : Message) : Data :=
  let field (f : Field) : Data := .record [entry "Name" (.text f.name), entry "Type" (.text f.type),
    entry "Tag" (.text f.tag), entry "Docs" (.texts f.docs)]
  .record [entry "Name" (.text m.name), entry "Docs" (.texts m.docs),
    entry "Fields" (.list (m.fields.map field))]

/-- The data of a method. -/
def Method.toData (s : Service) (m : Method) : Data :=
  let part (p : Option Param) (f : Param → Bytes) : Data := .text ((p.map f).getD [])
  .record [entry "Name" (.text m.name), entry "Wire" (.text (s.wire m)),
    entry "Docs" (.texts m.docs), entry "UsesCodec" (.flag m.usesCodec),
    entry "HasInput" (.flag m.input.isSome), entry "InType" (part m.input (·.type)),
    entry "InParam" (part m.input Param.declared),
    entry "InIsMessage" (.flag (m.input.any (·.isMessage))),
    entry "HasOutput" (.flag m.output.isSome), entry "OutType" (part m.output (·.type)),
    entry "OutParam" (part m.output Param.declared), entry "OutZero" (part m.output (·.zero)),
    entry "OutIsMessage" (.flag (m.output.any (·.isMessage)))]

/-- The data of a service. -/
def Service.toData (s : Service) : Data :=
  .record [entry "Name" (.text s.name), entry "Docs" (.texts s.docs), entry "ID" (.text s.id),
    entry "Canonical" (.text (Base64.encode s.canonical)), entry "Client" (.flag s.client),
    entry "Server" (.flag s.server), entry "UsesCodec" (.flag (s.methods.any Method.usesCodec)),
    entry "Methods" (.list (s.methods.map (Method.toData s)))]

/-- The data of a file. -/
def toData (v : GoView) : Data :=
  .record [entry "Package" (.text v.package), entry "Source" (.text v.source),
    entry "RPCImport" (.text v.rpcImport), entry "Messages" (.list (v.messages.map Message.toData)),
    entry "Services" (.list (v.services.map Service.toData)),
    entry "UsesStrings" (.flag (v.services.any (·.server))),
    entry "UsesRPC" (.flag (v.services.any fun s => s.server || s.client))]

/-! ## §2 Templates -/

/-- A struct. -/
def message : List Node :=
  [t "\n", docs "//" "", t "type ", f "Name", t " struct \x7b",
   each "Fields"
     [t "\n", docs "//" "\t", t "\t", f "Name", t " ", f "Type", t " `", f "Tag", t "`"],
   t "\n\x7d"]

/-- The signature of a method. -/
def signature : List Node :=
  [f "Name", t "(ctx context.Context", cond "HasInput" [t ", arg ", f "InParam"] [], t ") ",
   cond "HasOutput" [t "(", f "OutParam", t ", error)"] [t "error"]]

/-- The identity of a service and its interface. -/
def service : List Node :=
  [t "\n// ", f "Name", t "SchemaID identifies the ", f "Name", t " interface.\nconst ", f "Name",
   t "SchemaID = ", q "ID", t "\n\n// ", f "Name", t "Schema is the canonical encoding of ",
   f "Name", t ", in base64.\nconst ", f "Name", t "Schema = ", q "Canonical", t "\n\n",
   docs "//" "", t "type ", f "Name", t " interface \x7b",
   each "Methods" [t "\n", docs "//" "\t", t "\t", use "signature"], t "\n\x7d"]

/-- What hands requests over to a handler. -/
def receiver : List Node :=
  [t "\n// ", f "Name", t "Receiver dispatches ", f "Name", t " requests to a handler.\ntype ",
   f "Name", t "Receiver struct \x7b\n\tHandler ", f "Name",
   t "\n\n\t// Codec defaults to rpc.BSON.\n\tCodec rpc.Codec\n\x7d\n\n", t "func New", f "Name",
   t "Receiver(handler ", f "Name", t ") *", f "Name", t "Receiver \x7b\n\treturn &", f "Name",
   t "Receiver\x7bHandler: handler\x7d\n\x7d\n\nfunc (r *", f "Name",
   t "Receiver) Dispatch(ctx context.Context, msg *rpc.Message) (*rpc.Message, error) \x7b",
   cond "UsesCodec" [t "\n\tcodec := rpc.DefaultCodec(r.Codec)"] [],
   t "\n\tmethod := strings.TrimPrefix(msg.Method, \"", f "Name", t ".\")\n\tswitch method \x7b",
   each "Methods"
     [t "\n\tcase ", q "Name", t ":",
      cond "HasInput"
        [t "\n\t\tvar arg ", f "InType",
         t "\n\t\tif err := codec.Unmarshal(msg.Arg, &arg); err != nil \x7b\n",
         t "\t\t\treturn nil, err\n\t\t\x7d"]
        [],
      cond "HasOutput"
        [t "\n\t\tresult, err := r.Handler.", f "Name", t "(ctx",
         cond "HasInput" [t ", ", cond "InIsMessage" [t "&"] [], t "arg"] [],
         t ")\n\t\tif err != nil \x7b\n\t\t\treturn nil, err\n\t\t\x7d\n",
         t "\t\tbuf, err := codec.Marshal(result)\n\t\tif err != nil \x7b\n",
         t "\t\t\treturn nil, err\n\t\t\x7d\n\t\treturn &rpc.Message\x7bMethod: ", q "Wire",
         t ", Arg: buf\x7d, nil"]
        [t "\n\t\tif err := r.Handler.", f "Name", t "(ctx",
         cond "HasInput" [t ", ", cond "InIsMessage" [t "&"] [], t "arg"] [],
         t "); err != nil \x7b\n\t\t\treturn nil, err\n\t\t\x7d\n",
         t "\t\treturn &rpc.Message\x7bMethod: ", q "Wire", t "\x7d, nil"]],
   t "\n\tdefault:\n\t\tif strings.Contains(method, \".\") \x7b\n",
   t "\t\t\treturn nil, rpc.NotHandled(msg.Method)\n\t\t\x7d\n",
   t "\t\treturn nil, rpc.NotHandled(\"", top "Name", t ".\" + method)\n\t\x7d\n\x7d"]

/-- What sends requests. -/
def client : List Node :=
  [t "\n// ", f "Name", t "Client sends ", f "Name", t " requests over a transport.\ntype ",
   f "Name", t "Client struct \x7b\n\tTransport rpc.Transport\n\n",
   t "\t// Codec defaults to rpc.BSON.\n\tCodec rpc.Codec\n\x7d\n\n", t "func New", f "Name",
   t "Client(transport rpc.Transport) *", f "Name", t "Client \x7b\n\treturn &", f "Name",
   t "Client\x7bTransport: transport\x7d\n\x7d\n\nvar _ ", f "Name", t " = (*", f "Name",
   t "Client)(nil)",
   each "Methods"
     [t "\n\nfunc (c *", top "Name", t "Client) ", use "signature", t " \x7b",
      cond "UsesCodec" [t "\n\tcodec := rpc.DefaultCodec(c.Codec)"] [],
      t "\n\tmsg := &rpc.Message\x7bMethod: ", q "Wire", t "\x7d",
      cond "HasInput"
        [t "\n\tbuf, err := codec.Marshal(arg)\n\tif err != nil \x7b\n", t "\t\treturn ",
         cond "HasOutput" [f "OutZero", t ", "] [], t "err\n\t\x7d\n\tmsg.Arg = buf"]
        [],
      cond "HasOutput"
        [t "\n\tresp, err := c.Transport.Send(ctx, msg)\n\tif err != nil \x7b\n", t "\t\treturn ",
         f "OutZero", t ", err\n\t\x7d\n\tif resp == nil \x7b\n\t\treturn ", f "OutZero",
         t ", rpc.ErrNoReply\n\t\x7d\n\tvar out ", f "OutType",
         t "\n\tif err := codec.Unmarshal(resp.Arg, &out); err != nil \x7b\n", t "\t\treturn ",
         f "OutZero", t ", err\n\t\x7d\n\treturn ", cond "OutIsMessage" [t "&"] [], t "out, nil"]
        [t "\n\tif _, err := c.Transport.Send(ctx, msg); err != nil \x7b\n",
         t "\t\treturn err\n\t\x7d\n\treturn nil"],
      t "\n\x7d"]]

/-- The whole file. -/
def file : List Node :=
  [t "// Code generated by midl. DO NOT EDIT.\n// source package: ", f "Source", t "\n\npackage ",
   f "Package",
   cond "Services"
     [t "\n\nimport (\n\t\"context\"", cond "UsesStrings" [t "\n\t\"strings\""] [],
      cond "UsesRPC" [t "\n\n\trpc ", q "RPCImport"] [], t "\n)"]
     [],
   each "Messages" [t "\n", use "message"],
   each "Services"
     [t "\n", use "service", cond "Server" [t "\n", use "receiver"] [],
      cond "Client" [t "\n", use "client"] []],
   t "\n"]

/-- The name of the template of a whole file. -/
def fileTemplate : Bytes := "file.go.tmpl"

/-- The built-in templates. -/
def builtins : Library :=
  [(fileTemplate, file), ("message", message), ("signature", signature), ("service", service),
   ("receiver", receiver), ("client", client)]

end Idl.GoView
