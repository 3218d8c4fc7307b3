import Idl.Plugin.Protocol
import Idl.Proofs.Bindings.Files
import Idl.Proofs.Schema.Mending
import Idl.Proofs.Text.Base64

/-!
# Rendering through the plugin protocol

A plugin that has the built-in targets answers a request as if the targets had been called directly:
the schema is rebuilt from its document, paths are taken apart and joined again, and contents travel
in base64. The host gets the same files, or an error text when there are none.

* §1 requests, §2 answers with files, §3 answers without files, §4 both sides together.
-/

namespace Idl.Plugin

open Bindings (OutputFile)
open Json (Fits Fills fits_str fits_arr fits_mapping member)

/-! ## §1 Requests -/

/-- Options in the order of their keys. -/
def sortedOptions (options : List (Bytes × Bytes)) : List (Bytes × Bytes) :=
  options.mergeSort fun a b => Bytes.le a.1 b.1

/-- The JSON of options. -/
def optionsJson (options : List (Bytes × Bytes)) : Json :=
  .obj ((sortedOptions options).map fun o => (o.1, .str o.2))

theorem toJson_eq (r : Request) : r.toJson = .obj ([member "language" (.str r.language)]
    ++ (if (sortedOptions r.options).isEmpty then []
      else [member "options" (optionsJson r.options)])
    ++ [member "schema" r.document.toJson]) := rfl

/-- A request is read off the value that is written for it, with its options in order. -/
theorem Request.ofJson_toJson (r : Request) :
    Request.ofJson r.toJson = .ok ⟨r.language, sortedOptions r.options, r.document⟩ := by
  have hoptions : (optionsJson r.options).asMembers.map (fun m => (m.1, m.2.asText))
      = sortedOptions r.options := by
    rw [optionsJson, Json.asMembers, List.map_map]
    exact List.map_id _
  have hdocument : r.document.toJson.asOption = some r.document.toJson := rfl
  rw [toJson_eq, Request.ofJson]
  by_cases hempty : (sortedOptions r.options).isEmpty
  · have hnil := List.isEmpty_iff.mp hempty
    simp [Bytes.ofString_inj, hdocument, Document.ofJson_toJson, hnil, Json.asMembers]
  · simp [Bytes.ofString_inj, hdocument, Document.ofJson_toJson, hempty, hoptions]

/-- The members of a request. -/
def requestFields : List (Bytes × Json.Shape) :=
  [("language", .text), ("options", .mapping .text), ("schema", Document.Shape.document false)]

theorem fits_optionsJson {options : List (Bytes × Bytes)}
    (h : ∀ o ∈ options, Utf8.isValid o.1 = true ∧ Utf8.isValid o.2 = true)
    (hnodup : (options.map (·.1)).Nodup) : Fits 10 (.mapping .text) (optionsJson options) := by
  have hsorted : ∀ o ∈ sortedOptions options, Utf8.isValid o.1 = true ∧ Utf8.isValid o.2 = true :=
    fun o ho => h o (List.mem_mergeSort.mp ho)
  refine fits_mapping (List.forall_mem_map.mpr fun o ho => (hsorted o ho).1)
    (List.forall_mem_map.mpr fun o ho => fits_str (hsorted o ho).2) ?_
  rw [List.map_map]
  exact ((List.mergeSort_perm _ _).map _).nodup_iff.mpr hnodup

/-- A request of well-formed texts is read back, with its options in order. -/
theorem Request.read_toJson {s : Schema} (hs : s.Writable) {language : Bytes}
    {options : List (Bytes × Bytes)} (hlanguage : Utf8.isValid language = true)
    (hoptions : ∀ o ∈ options, Utf8.isValid o.1 = true ∧ Utf8.isValid o.2 = true)
    (hnodup : (options.map (·.1)).Nodup) :
    Request.read (Request.toJson ⟨language, options, Document.ofSchema s⟩).compact
      = .ok ⟨language, sortedOptions options, Document.ofSchema s⟩ := by
  -- the options are left out when there are none
  have hmembers : Fills 10 requestFields ["options"]
      (if (sortedOptions options).isEmpty then []
        else [member "options" (optionsJson options)]) :=
    (Fills.cons rfl rfl rfl (fits_optionsJson hoptions hnodup) .nil).ite
  -- the object has the members that the reader asks for
  have hfits : Fits 11 (.record false requestFields)
      (Request.toJson ⟨language, options, Document.ofSchema s⟩) :=
    (((Fills.cons rfl rfl rfl (fits_str hlanguage) .nil).append hmembers).append
      (.cons rfl rfl rfl (Document.fits_document hs) .nil)).fits (by decide)
  have hread := Json.readWhole?_compact hfits.plain (by decide)
  have hconform : Json.conform requestShape _ = _ := hfits.conform
  rw [Request.read, hread, Option.map_some, hconform]
  exact Request.ofJson_toJson _

/-! ## §2 Answers with files -/

theorem isValid_encode (b : Bytes) : Utf8.isValid (Base64.encode b) = true :=
  Utf8.isValid_of_ascii (Document.ascii_encodeOnto nofun)

theorem fits_octets {d : Nat} (b : Bytes) : Fits d .octets (.str (Base64.encode b)) := by
  refine ⟨.str (isValid_encode b), ?_, by rw [Json.settle, Json.Slot.write.eq_def]; rfl⟩
  rw [Json.fault?.eq_def]
  simp only [Base64.decode_encode]
  rfl

/-- The members of a file. -/
def fileFields : List (Bytes × Json.Shape) := [("path", .list .text), ("content", .octets)]

theorem ResponseFile.fits_toJson {f : ResponseFile} (h : ∀ c ∈ f.parts, Utf8.isValid c = true) :
    Fits 2 (.record false fileFields) f.toJson := by
  have hparts : Fits 1 (.list .text) (.arr (f.parts.map .str)) :=
    fits_arr (List.forall_mem_map.mpr fun c hc => fits_str (h c hc))
  exact (Fills.cons rfl rfl rfl hparts (.cons rfl rfl rfl (fits_octets _) .nil)).fits (by decide)

/-- A path of components that a plugin may name. -/
def Nameable (path : Bytes) : Prop :=
  ∃ p, ∃ parts : List Bytes, path = Bytes.join [slash] (p :: parts)
    ∧ ∀ c ∈ p :: parts, Utf8.isValid c = true ∧ componentFault? c = none

/-- Components are accepted if they are not special and have no separator in them. -/
theorem componentFault?_eq_none_iff {c : Bytes} :
    componentFault? c = none ↔ c ≠ [] ∧ c ≠ "." ∧ c ≠ ".." ∧ slash ∉ c ∧ backslash ∉ c := by
  have hhead : c.head? = some slash → slash ∈ c := List.mem_of_head?
  unfold componentFault?
  split_ifs with hspecial habsolute hseparator
  · simp only [List.isEmpty_iff, Bool.or_eq_true, beq_iff_eq] at hspecial
    simp only [false_iff]
    tauto
  · simp only [beq_iff_eq] at habsolute
    simp [hhead habsolute]
  · simp only [Bool.or_eq_true, List.contains_iff_mem] at hseparator
    simp only [false_iff]
    tauto
  · -- none of the three tests has found a fault
    simp only [List.isEmpty_iff, Bool.or_eq_true, beq_iff_eq, List.contains_iff_mem] at *
    simp only [true_iff]
    tauto

theorem slash_not_mem {c : Bytes} (h : componentFault? c = none) : slash ∉ c :=
  (componentFault?_eq_none_iff.mp h).2.2.2.1

/-- Such a path is taken apart, and accepted in parts. -/
theorem Nameable.outputPath_split {path : Bytes} (h : Nameable path) :
    outputPath (some (Bytes.split slash path)) = .ok path := by
  obtain ⟨p, parts, rfl, hparts⟩ := h
  have hfault : (p :: parts).findSome? componentFault? = none :=
    List.findSome?_eq_none_iff.mpr fun c hc => (hparts c hc).2
  rw [Bytes.split_join fun c hc => slash_not_mem (hparts c hc).2, outputPath, Option.getD_some]
  dsimp only
  rw [hfault]

theorem Nameable.isValid_of_mem_split {path : Bytes} (h : Nameable path) :
    ∀ c ∈ Bytes.split slash path, Utf8.isValid c = true := by
  obtain ⟨p, parts, rfl, hparts⟩ := h
  rw [Bytes.split_join fun c hc => slash_not_mem (hparts c hc).2]
  exact fun c hc => (hparts c hc).1

/-- A file that is handed over is read as it is. -/
theorem fileOfJson_sent {f : OutputFile} (h : Nameable f.path) :
    fileOfJson (sent f).toJson = .ok f := by
  have hparts : partsOfJson (.arr ((Bytes.split slash f.path).map .str))
      = some (Bytes.split slash f.path) := by
    rw [partsOfJson]
    change some (((Bytes.split slash f.path).map Json.str).map Json.asText) = _
    rw [List.map_map]
    exact congrArg some (List.map_id _)
  have hcontent : (Json.str (Base64.encode f.content)).asOctets? = some f.content := by
    rw [Json.asOctets?, Base64.decode_encode]
    rfl
  rw [ResponseFile.toJson, fileOfJson.eq_def]
  simp [sent, Bytes.ofString_inj, hparts, h.outputPath_split, hcontent]

/-- The members of an answer. -/
def responseFields : List (Bytes × Json.Shape) :=
  [("files", .list (.record false fileFields)), ("error", .text)]

/-- The JSON of files. -/
theorem responseJson_files {files : List ResponseFile} (hne : files ≠ []) :
    responseJson (.ok files) = .obj [member "files" (.arr (files.map ResponseFile.toJson))] := by
  cases files with
  | nil => exact absurd rfl hne
  | cons f r => rfl

/-- Files that are handed over are read as they are. -/
theorem decodeResponse_files {files : List OutputFile} (hne : files ≠ [])
    (h : ∀ f ∈ files, Nameable f.path) :
    decodeResponse 0 (responseJson (.ok (files.map sent))).compact = .ok files := by
  have hmap : files.map sent ≠ [] := fun hnil => hne (List.map_eq_nil_iff.mp hnil)
  -- the files are written one by one
  have hitems : Fits 3 (.list (.record false fileFields))
      (.arr ((files.map sent).map ResponseFile.toJson)) := by
    refine fits_arr (List.forall_mem_map.mpr (List.forall_mem_map.mpr fun f hf => ?_))
    exact ResponseFile.fits_toJson (h f hf).isValid_of_mem_split
  have hfits : Fits 4 (.record false responseFields)
      (.obj [member "files" (.arr ((files.map sent).map ResponseFile.toJson))]) :=
    ((Fills.cons rfl rfl rfl hitems .nil).append (.skip ["error"])).fits (by decide)
  have hread := Json.readWhole?_compact hfits.plain (by decide)
  have hconform : Json.conform responseShape _ = _ := hfits.conform
  -- and each of them is read as it was sent
  have hfiles : ((files.map sent).map ResponseFile.toJson).mapM fileOfJson = .ok files := by
    have hread := mapM_map_eq_ok (k := id) fun f hf => fileOfJson_sent (h f hf)
    rwa [List.map_id, ← Function.comp_def, ← List.map_map] at hread
  rw [responseJson_files hmap, decodeResponse, hread, Option.map_some, hconform]
  obtain ⟨f, r, rfl⟩ := List.exists_cons_of_ne_nil hne
  exact hfiles

/-! ## §3 Answers without files -/

/-- A text has something left without the blanks around it, unless it is all blanks. -/
theorem trimBlanks_ne_nil {t : List Char} {c : Char} (hc : c ∈ t) (h : isSpace c = false) :
    trimBlanks t ≠ [] := by
  have hne {l : List Char} (hl : c ∈ l) : c ∈ l.dropWhile isSpace := by
    rw [← List.takeWhile_append_dropWhile (p := isSpace) (l := l), List.mem_append] at hl
    -- what is taken off are blanks
    refine hl.resolve_left fun htake => ?_
    rw [List.mem_takeWhile_imp htake] at h
    cases h
  exact List.ne_nil_of_mem (List.mem_reverse.mpr (hne (List.mem_reverse.mpr (hne hc))))

/-- The text of a failure begins with a letter. -/
theorem sanitize_render_ne_nil (e : BindingError) : sanitize e.render ≠ [] := by
  have hrender : e.render
      = Utf8.ofChar 'E' ++ (Bytes.ofNat e.cause.code ++ (": " ++ e.message)) := by
    rw [BindingError.render, List.append_assoc, List.append_assoc]
    rfl
  have hchars : 'E' ∈ Utf8.chars e.render := by
    rw [hrender, Utf8.chars, Utf8.glyphs_ofChar_append]
    exact List.mem_cons_self
  have hne := trimBlanks_ne_nil hchars (by decide)
  exact Naming.ofChars_ne_nil fun hnil => hne (List.map_eq_nil_iff.mp hnil)

/-- An error text is shown if there is something in it besides blanks. -/
theorem decodeResponse_error {t : Bytes} (h : sanitize t ≠ []) (n : UInt8) :
    decodeResponse n (Json.obj [member "error" (.str t)]).compact
      = .error (.reported (sanitize t)) := by
  -- what is read is the text without stray octets, which is written and shown like the text itself
  have hsame : (Json.obj [member "error" (.str (Utf8.sanitize t))]).compact
      = (Json.obj [member "error" (.str t)]).compact :=
    (Json.sameText_obj (Json.sameMembers_single "error" (Json.sameText_sanitize t))).compact
  have hfits : Fits 1 (.record false responseFields)
      (.obj [member "error" (.str (Utf8.sanitize t))]) :=
    ((Fills.skip ["files"]).append
      (.cons rfl rfl rfl (fits_str (Utf8.isValid_sanitize t)) .nil)).fits (by decide)
  have hread := Json.readWhole?_compact hfits.plain (by decide)
  have hconform : Json.conform responseShape _ = _ := hfits.conform
  have hshown : sanitize (Utf8.sanitize t) = sanitize t := by
    rw [sanitize, Utf8.sanitize, Utf8.chars_ofChars]
    rfl
  have hne : Utf8.sanitize t ≠ [] := by
    rw [Ne, Utf8.sanitize_eq_nil_iff]
    rintro rfl
    exact h rfl
  rw [← hsame, decodeResponse, hread, Option.map_some, hconform]
  simp [hshown, hne, h]

/-! ## §4 Both sides together -/

/-- The file of a compiled schema has a path that a plugin may name. -/
theorem nameable_fileName {s : Schema} (h : ∀ b ∈ s.package, Bytes.isWord b = true ∨ b = 0x2E)
    (t : Bindings.Target) : Nameable (t.fileName s) := by
  have hoctets := t.octets_fileName h
  have hlong := t.three_le_length_fileName h
  have hascii : ∀ b ∈ t.fileName s, b.toNat < 0x80 := by
    intro b hb
    rcases hoctets b hb with hword | rfl
    · exact Bytes.ascii_of_isWord hword
    · decide
  have hnot {b : UInt8} (hword : Bytes.isWord b = false) (hdot : b ≠ 0x2E) :
      b ∉ t.fileName s := by
    intro hb
    have hisWord := (hoctets b hb).resolve_right hdot
    rw [hword] at hisWord
    cases hisWord
  have hshort {x : Bytes} (hx : x.length < 3) : t.fileName s ≠ x := by
    rintro rfl
    omega
  -- the path is a single component
  refine ⟨t.fileName s, [], (List.intercalate_singleton ..).symm, ?_⟩
  refine List.forall_mem_singleton.mpr ⟨Utf8.isValid_of_ascii hascii, ?_⟩
  exact componentFault?_eq_none_iff.mpr ⟨hshort (by decide), hshort (by decide),
    hshort (by decide), hnot (by decide) (by decide), hnot (by decide) (by decide)⟩

/-- The answer to a request for a compiled schema. -/
theorem serve_of_compileSource {src sourcePath : Bytes} {allowMissingPackage : Bool}
    {c : Compilation} {s : Schema} (h : compileSource src sourcePath allowMissingPackage = .ok c)
    (hs : c.outcome = .ok s) {language : Bytes} {options options' : List (Bytes × Bytes)}
    (hnodup : (options.map (·.1)).Nodup) (hperm : options'.Perm options) {payload : Bytes}
    (hread : Request.read payload = .ok ⟨language, options', Document.ofSchema s⟩) :
    serve payload = match Bindings.generate s language { values := options } with
      | .ok files => .ok (files.map sent)
      | .error e => .error (.bindings e) := by
  -- a document of an accepted source is read as the schema
  have hschema : (Document.ofSchema s).toSchema = .ok s :=
    Document.toSchema_ofSchema (portable_of_compileSource h hs)
  -- the order of the options does not matter
  have hgenerate := (Bindings.Options.agrees_of_perm hnodup hperm none).generate s language
  have hanswer : Request.answer ⟨language, options', Document.ofSchema s⟩
      = (do
        let files ← (Bindings.generate s language { values := options }).mapError .bindings
        return files.map sent) := by
    rw [Request.answer, hschema, ← hgenerate]
    rfl
  rw [serve, hread]
  refine hanswer.trans ?_
  cases Bindings.generate s language { values := options } <;> rfl

/-- A plugin that is asked for the bindings of a compiled schema answers as code generation does: with
status zero if there are files, which the host reads as they are, and otherwise with status one and
the text of the failure, which the host reports. -/
theorem handle_of_compileSource {src sourcePath : Bytes} {allowMissingPackage : Bool}
    {c : Compilation} {s : Schema} (h : compileSource src sourcePath allowMissingPackage = .ok c)
    (hs : c.outcome = .ok s) {language : Bytes} {options options' : List (Bytes × Bytes)}
    (hnodup : (options.map (·.1)).Nodup) (hperm : options'.Perm options) {payload : Bytes}
    (hread : Request.read payload = .ok ⟨language, options', Document.ofSchema s⟩) :
    ((handle payload).1 = 0
        ↔ ∃ files, Bindings.generate s language { values := options } = .ok files)
      ∧ (∀ files, Bindings.generate s language { values := options } = .ok files →
        decodeResponse (handle payload).1 (handle payload).2 = .ok files)
      ∧ ∀ e, Bindings.generate s language { values := options } = .error e →
        handle payload = (1, (Json.obj [member "error" (.str e.render)]).compact)
          ∧ decodeResponse (handle payload).1 (handle payload).2
            = .error (.reported (sanitize e.render)) := by
  have hserve := serve_of_compileSource h hs hnodup hperm hread
  cases hgenerate : Bindings.generate s language { values := options } with
  | ok files =>
    rw [hgenerate] at hserve
    -- what is generated is a single file
    obtain ⟨t, text, rfl⟩ := Bindings.exists_of_generate hgenerate
    have hname := nameable_fileName (octets_package_of_compileSource h hs) t
    have hdecode : decodeResponse 0 (responseJson (.ok ([⟨t.fileName s, text⟩].map sent))).compact
        = .ok [⟨t.fileName s, text⟩] :=
      decodeResponse_files (List.cons_ne_nil _ _) (List.forall_mem_singleton.mpr hname)
    rw [handle, hserve]
    refine ⟨iff_of_true rfl ⟨_, rfl⟩, fun files hfiles => ?_, nofun⟩
    cases hfiles
    exact hdecode
  | error e =>
    rw [hgenerate] at hserve
    have hhandle : handle payload = (1, (Json.obj [member "error" (.str e.render)]).compact) := by
      rw [handle, hserve]
      rfl
    have hstatus : (1 : UInt8) ≠ 0 := by decide
    rw [hhandle]
    refine ⟨iff_of_false hstatus nofun, nofun, fun e' he => ?_⟩
    cases he
    exact ⟨rfl, decodeResponse_error (sanitize_render_ne_nil e) 1⟩

/-- One request with an option that is set for Rust and unknown for Go: it is answered with files in
one language and with an error text in the other. -/
theorem handle_of_compileSource_runtime :
    ∃ c s, compileSource "package a.b;message M\x7bint32 x;\x7d" [] false = .ok c
      ∧ c.outcome = .ok s
      ∧ ∃ rust go, Request.read rust = .ok ⟨"rust", [("runtime", "r")], Document.ofSchema s⟩
        ∧ Request.read go = .ok ⟨"go", [("runtime", "r")], Document.ofSchema s⟩
        ∧ (handle rust).1 = 0
        ∧ (∃ files, Bindings.generate s "rust" { values := [("runtime", "r")] } = .ok files
          ∧ decodeResponse (handle rust).1 (handle rust).2 = .ok files)
        ∧ (handle go).1 = 1
        ∧ decodeResponse (handle go).1 (handle go).2
          = .error (.reported "E5006: Invalid go option 'runtime': unknown option") := by
  -- what is seen of the schema is enough to write it down again
  have hok : (compileSource "package a.b;message M\x7bint32 x;\x7d" [] false).toOption.any
      (·.outcome.toOption.any fun s => s.mend.messages == s.messages
        && s.mend.services == s.services && s.mend.annots == s.annots
        && s.mend.sourcePath == s.sourcePath
        && (Bindings.generate s "rust" { values := [("runtime", "r")] }).isOk) = true := by
    decide +kernel
  obtain ⟨c, s, hc, hs, hall⟩ := exists_outcome_of_any hok
  simp only [Bool.and_eq_true, beq_iff_eq] at hall
  obtain ⟨⟨⟨⟨hmessages, hservices⟩, hannots⟩, hpath⟩, hrust⟩ := hall
  have hmend : s.mend = s := Schema.mend_eq_self hmessages hservices hannots hpath
  have hwritable : s.Writable := hmend ▸ writable_mend_of_compileSource hc hs
  -- only one of the two languages knows the option
  have hcheck : Bindings.Options.check GoView.target ["package", "rpc_import"]
      { values := [("runtime", "r")] } = .error ⟨"go", "runtime", .option "unknown option"⟩ := by
    decide +kernel
  have hgo : Bindings.generate s "go" { values := [("runtime", "r")] }
      = .error ⟨"go", "runtime", .option "unknown option"⟩ := by
    have hname : Bindings.Target.ofName? "go" = some .go := by decide
    simp only [Bindings.generate, hname, Bindings.Target.render, hcheck]
    rfl
  have hoptions : ∀ o ∈ [(("runtime", "r") : Bytes × Bytes)],
      Utf8.isValid o.1 = true ∧ Utf8.isValid o.2 = true := by decide
  have hnodup : ([(("runtime", "r") : Bytes × Bytes)].map (·.1)).Nodup := List.nodup_singleton _
  have hread (language : Bytes) (hlanguage : Utf8.isValid language = true) :
      ∃ payload, Request.read payload
        = .ok ⟨language, [("runtime", "r")], Document.ofSchema s⟩ := by
    refine ⟨_, (Request.read_toJson hwritable hlanguage hoptions hnodup).trans ?_⟩
    rw [sortedOptions, List.mergeSort_singleton]
  obtain ⟨rust, hreadRust⟩ := hread "rust" (by decide)
  obtain ⟨go, hreadGo⟩ := hread "go" (by decide)
  obtain ⟨hstatus, hfiles, -⟩ := handle_of_compileSource hc hs hnodup (.refl _) hreadRust
  obtain ⟨-, -, herror⟩ := handle_of_compileSource hc hs hnodup (.refl _) hreadGo
  obtain ⟨hfailed, hshown⟩ := herror _ hgo
  cases hrendered : Bindings.generate s "rust" { values := [("runtime", "r")] } with
  | error e =>
    rw [hrendered] at hrust
    cases hrust
  | ok files =>
    refine ⟨c, s, hc, hs, rust, go, hreadRust, hreadGo, hstatus.mpr ⟨files, hrendered⟩,
      ⟨files, hrendered, hfiles files hrendered⟩, congrArg Prod.fst hfailed, hshown.trans ?_⟩
    decide +kernel

end Idl.Plugin
