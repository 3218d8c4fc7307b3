import Idl.Bindings
import Idl.Document.Json
import Idl.Plugin.OutputPath

/-!
# What plugins are asked and what they answer

A request is a schema, the language asked for, and options. The answer is a list of files, or an
error text. Both travel as JSON, each in a frame.

* §1 frames, §2 requests, §3 answers as the host reads them,
* §4 error texts, §5 answering a request with the built-in targets.
-/

namespace Idl.Plugin

open Bindings (OutputFile Options)

/-! ## §1 Frames

A frame is the length of a payload, in four octets with the least first, and the payload. What
follows a frame is ignored.
-/

/-- Why there is no frame. -/
inductive FrameError where
  | tooLarge (size : Nat)
  | tooShort (size : Nat)
  | cutOff (length : Nat) (size : Nat)
deriving DecidableEq, Repr

/-- The message for a payload or a frame that cannot be used. -/
def FrameError.message : FrameError → Bytes
  | .tooLarge n => "payload size (" ++ Bytes.ofNat n ++ " bytes) exceeds maximum"
  | .tooShort n => "framed buffer too short (" ++ Bytes.ofNat n ++ " bytes)"
  | .cutOff n size =>
    "frame length " ++ Bytes.ofNat n ++ " exceeds buffer (" ++ Bytes.ofNat size ++ " bytes)"

/-- The most octets of a payload. -/
def maxPayload : Nat := 2 ^ 31 - 1

/-- The frame of a payload. -/
def frame (payload : Bytes) : Except FrameError Bytes :=
  if payload.length > maxPayload then .error (.tooLarge payload.length)
  else .ok (leOctets 4 payload.length ++ payload)

/-- The payload of the frame at the front. -/
def unframe (b : Bytes) : Except FrameError Bytes :=
  if b.length < 4 then .error (.tooShort b.length)
  else
    let n := leNat (b.take 4)
    let rest := b.drop 4
    if n > rest.length then .error (.cutOff n rest.length) else .ok (rest.take n)

/-! ## §2 Requests -/

/-- A request. -/
structure Request where
  language : Bytes
  options : List (Bytes × Bytes)
  document : Document

/-- The JSON of a request. Options stand in the order of their keys, and are left out if there are
none. -/
def Request.toJson (r : Request) : Json :=
  let sorted := r.options.mergeSort fun a b => Bytes.le a.1 b.1
  let options := if sorted.isEmpty then []
    else [Json.member "options" (.obj (sorted.map fun (k, v) => (k, .str v)))]
  .obj (Json.member "language" (.str r.language) :: options
    ++ [Json.member "schema" r.document.toJson])

/-- The shape of a request; unknown members are ignored. -/
def requestShape : Json.Shape :=
  .record false [("language", .text), ("options", .mapping .text),
    ("schema", Document.Shape.document false)]

/-! ## §3 Answers -/

/-- The shape of an answer; unknown members are ignored. -/
def responseShape : Json.Shape :=
  .record false [("files", .list (.record false [("path", .list .text), ("content", .octets)])),
    ("error", .text)]

/-- Why an answer gives no files. -/
inductive ResponseError where
  | malformed
  /-- What the plugin says of its failure. -/
  | reported (message : Bytes)
  | status (code : UInt8)
  | noFiles
  | missingFile
  | path (e : PathError)
deriving DecidableEq, Repr

/-- The message for an answer without files. -/
def ResponseError.message : ResponseError → Bytes
  | .malformed => "decode response"
  | .reported t => t
  | .status n => "plugin exited with status " ++ Bytes.ofNat n.toNat
  | .noFiles => "plugin did not generate any output files"
  | .missingFile => "response contains a null output file"
  | .path e => e.message

/-! ## §4 Error texts -/

/-- A text without the blanks around it. -/
def trimBlanks (t : List Char) : List Char :=
  ((t.dropWhile isSpace).reverse.dropWhile isSpace).reverse

/-- Control characters become U+FFFD, line feeds and tabs apart. -/
def maskControl (c : Char) : Char :=
  if c == '\n' || c == '\t' then c
  else if c.toNat < 0x20 || c.toNat == 0x7F then Char.ofNat 0xFFFD
  else c

/-- The error text of a plugin, fit to be shown. -/
def sanitize (t : Bytes) : Bytes := Utf8.ofChars ((trimBlanks (Utf8.chars t)).map maskControl)

/-- The components in a settled value, which may be missing. -/
def partsOfJson (v : Json) : Option (List Bytes) := v.asOption.map fun v => v.asList.map Json.asText

/-- The file in a settled value. -/
def fileOfJson (v : Json) : Except ResponseError OutputFile :=
  match v with
  | .null => .error .missingFile
  | v => match outputPath (partsOfJson (v.get "path")) with
    | .ok path => .ok ⟨path, (v.get "content").asOctets?.getD []⟩
    | .error e => .error (.path e)

/-- The files of an answer. A status other than zero, or an error text, means that there are none.
-/
def decodeResponse (status : UInt8) (payload : Bytes) : Except ResponseError (List OutputFile) :=
  match (Json.readWhole? payload).map (Json.conform responseShape) with
  | some (.ok v) =>
    let report := (v.get "error").asText
    if status != 0 || !report.isEmpty then
      let shown := sanitize report
      .error (if shown.isEmpty then .status status else .reported shown)
    else match (v.get "files").asList with
      | [] => .error .noFiles
      | files => files.mapM fileOfJson
  | _ => .error .malformed

/-! ## §5 Answering a request -/

/-- Why a request is not answered with files. -/
inductive ServeError where
  | invalidRequest
  | missingSchema
  | document (f : Document.Fault)
  | bindings (e : BindingError)
deriving DecidableEq, Repr

/-- The error text of an answer. -/
def ServeError.message : ServeError → Bytes
  | .invalidRequest => "invalid request"
  | .missingSchema => "invalid request: missing schema"
  | .document f => f.message
  | .bindings e => e.render

/-- A file of an answer: the components of its path, and its content. -/
structure ResponseFile where
  parts : List Bytes
  content : Bytes
deriving DecidableEq, Repr

/-- The request in a settled value. -/
def Request.ofJson (v : Json) : Except ServeError Request :=
  match (v.get "schema").asOption with
  | some d => .ok {
      language := (v.get "language").asText
      options := (v.get "options").asMembers.map fun (k, t) => (k, t.asText)
      document := Document.ofJson d }
  | none => .error .missingSchema

/-- The request in a payload. -/
def Request.read (payload : Bytes) : Except ServeError Request :=
  match (Json.readWhole? payload).map (Json.conform requestShape) with
  | some (.ok v) => Request.ofJson v
  | _ => .error .invalidRequest

/-- A file as it is handed to the host. -/
def sent (f : OutputFile) : ResponseFile := ⟨Bytes.split slash f.path, f.content⟩

/-- The answer of the built-in targets to a request. -/
def Request.answer (r : Request) : Except ServeError (List ResponseFile) := do
  let schema ← r.document.toSchema.mapError .document
  let files ← (Bindings.generate schema r.language { values := r.options }).mapError .bindings
  return files.map sent

/-- Answers the request in a payload. -/
def serve (payload : Bytes) : Except ServeError (List ResponseFile) := do
  (← Request.read payload).answer

/-- The JSON of a file. -/
def ResponseFile.toJson (f : ResponseFile) : Json :=
  .obj [Json.member "path" (.arr (f.parts.map .str)),
    Json.member "content" (.str (Base64.encode f.content))]

/-- The JSON of an answer. -/
def responseJson : Except ServeError (List ResponseFile) → Json
  | .ok files =>
    .obj (if files.isEmpty then []
      else [Json.member "files" (.arr (files.map ResponseFile.toJson))])
  | .error e => .obj (if e.message.isEmpty then [] else [Json.member "error" (.str e.message)])

/-- The status of an answer. -/
def status : Except ServeError (List ResponseFile) → UInt8
  | .ok _ => 0
  | .error _ => 1

/-- What the host is handed for a payload: the status and the payload of the answer. -/
def handle (payload : Bytes) : UInt8 × Bytes :=
  (status (serve payload), (responseJson (serve payload)).compact)

end Idl.Plugin
