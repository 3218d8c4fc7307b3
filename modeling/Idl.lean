import Idl.Catalog
import Idl.Command.Single
import Idl.Main
import Idl.Outline
import Idl.Plugin.Script
import Idl.Proofs.AnnotationLines
import Idl.Proofs.Bindings.Backend
import Idl.Proofs.Bindings.Documentation
import Idl.Proofs.Bindings.GoNames
import Idl.Proofs.Bindings.Pinning
import Idl.Proofs.Bindings.Routing
import Idl.Proofs.Bindings.RustNames
import Idl.Proofs.Bindings.Wire
import Idl.Proofs.Command.Diagnostics
import Idl.Proofs.Command.Repeat
import Idl.Proofs.Command.Safety
import Idl.Proofs.Command.Update
import Idl.Proofs.Compile.Documentation
import Idl.Proofs.Compile.Order
import Idl.Proofs.Compile.Violations
import Idl.Proofs.Document.Nulls
import Idl.Proofs.Formatting
import Idl.Proofs.Grammar.Unsupported
import Idl.Proofs.Integers
import Idl.Proofs.Listing
import Idl.Proofs.Places
import Idl.Proofs.Plugin.Boundary
import Idl.Proofs.Plugin.Release
import Idl.Proofs.Plugin.Serving
import Idl.Proofs.Proto.Scopes
import Idl.Proofs.Reader.Sources
import Idl.Proofs.Rpc.Histories
import Idl.Proofs.Schema.Exact
import Idl.Proofs.Schema.Mending
import Idl.Proofs.Spelling.Renderings
import Idl.Proofs.Spellings
import Idl.Proofs.Texts
import Idl.Proofs.Token.IllFormed
import Idl.Proofs.Token.Standalone
import Idl.Rpc
import Idl.Rpc.Codec
