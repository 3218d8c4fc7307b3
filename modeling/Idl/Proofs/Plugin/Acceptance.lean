import Idl.Proofs.Plugin.Release
import Idl.Proofs.Plugin.Serving

/-!
# Which plugins are believed

A plugin gives files only if it does everything that is asked of it: it has room for the request and
for the pointer to its answer, returns a single word whose status is zero, leaves an answer in its
memory, and the answer names files and no error. Anything else is a failure of the plugin.

The status is the lowest octet of the word, so that a word like 256 counts as zero.

* §1 answers in memory, §2 runs that come to an answer, §3 answers with files,
* §4 plugins as targets.
-/

namespace Idl.Plugin

open Bindings (OutputFile Options)
open Call (asking generating)

/-! ## §1 Answers in memory -/

/-- A payload stands at a place, behind its length. In a memory below 4 GiB the whole frame lies
inside; in one of 4 GiB the place behind the last one is the first. -/
structure Memory.Framed (mem : Memory) (a : UInt32) (payload : Bytes) : Prop where
  length : (mem.word? a.toNat).map UInt32.toNat = some payload.length
  body : mem.read? (a + 4).toNat payload.length = some payload
  inside : mem.size < 2 ^ 32 → a.toNat + 4 + payload.length ≤ mem.size

/-- What can be read lies inside the memory, and is as long as was asked. -/
theorem Memory.read?_eq_some {mem : Memory} {start count : Nat} {b : Bytes}
    (h : mem.read? start count = some b) : start + count ≤ mem.size ∧ b.length = count := by
  unfold Memory.read? at h
  split at h
  · next hle =>
    cases h
    exact ⟨hle, by rw [List.length_map, List.length_range]⟩
  · cases h

/-- A frame is what is found by reading a length, and then as many octets as it says. -/
theorem Memory.framed_iff {mem : Memory} {a : UInt32} {payload : Bytes} :
    mem.Framed a payload ↔ ∃ n, mem.word? a.toNat = some n
      ∧ mem.read? (a + 4).toNat n.toNat = some payload := by
  constructor
  · rintro ⟨hlength, hbody, -⟩
    obtain ⟨n, hn, hcount⟩ := Option.map_eq_some_iff.mp hlength
    exact ⟨n, hn, hcount ▸ hbody⟩
  · -- below 2³² the address behind the length does not wrap
    rintro ⟨n, hn, hbody⟩
    obtain ⟨hwithin, hcount⟩ := read?_eq_some hbody
    refine ⟨by rw [hn, hcount, Option.map_some], by rw [hcount, hbody], fun hsize => ?_⟩
    obtain ⟨b, hread, -⟩ := Option.map_eq_some_iff.mp hn
    have hplace := (read?_eq_some hread).1
    have hnext : (a + 4).toNat = a.toNat + 4 := by
      rw [UInt32.toNat_add]
      exact Nat.mod_eq_of_lt (Nat.lt_of_le_of_lt hplace hsize)
    omega

/-! ## §2 Runs that come to an answer -/

section

variable {m : Machine} {request : Bytes}

/-- A run comes to an answer: both calls for room are granted, the request is written, the plugin
returns one word, and leaves a pointer to a payload in its frame. -/
inductive Machine.Answered (m : Machine) (request : Bytes) : (word : UInt64) → Bytes → Prop
  | intro {p slot a : UInt32} {s s' : m.State} {w : UInt64} {payload : Bytes} (usable : m.Usable)
      (ready : m.Ready request p slot s) (call : m.call (generating p slot) s = (.words [w], s'))
      (pointer : (m.memory s').word? slot.toNat = some a) (nonzero : a ≠ 0)
      (frame : (m.memory s').Framed a payload) :
      Answered m request w payload

variable {α β : Type} {s s' t' : Session m}

/-- A step comes to one end only. -/
theorem Ends.unique {x : Host m α} {o o' : Except HostError α} (h : Ends x s o s')
    (h' : Ends x s o' t') : o = o' ∧ s' = t' :=
  Prod.mk.inj (h.symm.trans h')

/-- Where two steps succeed each of them does. -/
theorem Ends.exists_of_bind {x : Host m α} {f : α → Host m β} {b : β}
    (h : Ends (x >>= f) s (.ok b) s') :
    ∃ a t, Ends x s (.ok a) t ∧ Ends (f a) t (.ok b) s' := by
  rcases hx : x.run.run s with ⟨_ | a, t⟩
  · cases (h.unique (Ends.bind_error hx)).1
  · refine ⟨a, t, hx, ?_⟩
    unfold Ends at h ⊢
    rwa [ExceptT.run_bind, StateT.run_bind, hx] at h

/-- Where a place is given there is room. -/
theorem exists_of_ends_allocate {size : Nat} {p : UInt32}
    (h : Ends (Host.allocate size) s (.ok p) s') :
    ∃ r st, m.call (asking size) s.state = (r, st) ∧ r.pointer? = some p
      ∧ s' = ⟨st, asking size :: s.calls, p :: s.pointers⟩ := by
  rcases hcall : m.call (asking size) s.state with ⟨r, st⟩
  cases hplace : r.pointer? with
  | none =>
    obtain ⟨e, herror⟩ := ends_allocate_error hcall hplace
    cases (h.unique herror).1
  | some p' =>
    obtain ⟨hp, hs⟩ := h.unique (ends_allocate hcall hplace)
    cases hp
    exact ⟨r, st, rfl, hplace, hs⟩

theorem exists_of_ends_writeRequest {p : UInt32}
    (h : Ends (Host.writeRequest p request) s (.ok ()) s') :
    ∃ mem, (m.memory s.state).write? p.toNat request = some mem
      ∧ s' = { s with state := m.setMemory mem s.state } := by
  cases hwrite : (m.memory s.state).write? p.toNat request with
  | none => cases (h.unique (ends_writeRequest_error hwrite)).1
  | some mem => exact ⟨mem, rfl, (h.unique (ends_writeRequest hwrite)).2⟩

theorem exists_of_ends_generate {p slot : UInt32} {status : UInt8}
    (h : Ends (Host.generate p slot) s (.ok status) s') :
    ∃ w st, m.call (generating p slot) s.state = (.words [w], st) ∧ status = w.toUInt8
      ∧ s' = { s with state := st, calls := generating p slot :: s.calls } := by
  rcases hcall : m.call (generating p slot) s.state with ⟨r, st⟩
  by_cases hword : ∃ w, r = .words [w]
  · obtain ⟨w, rfl⟩ := hword
    obtain ⟨hstatus, hs⟩ := h.unique (ends_generate hcall)
    exact ⟨w, st, rfl, Except.ok.inj hstatus, hs⟩
  · obtain ⟨e, herror⟩ := ends_generate_error hcall fun w hw => hword ⟨w, hw⟩
    cases (h.unique herror).1

/-- A frame can be read. -/
theorem Memory.Framed.ends {a : UInt32} {payload : Bytes}
    (h : (m.memory s.state).Framed a payload) :
    Ends (Host.readFrame a) s (.ok payload) s := by
  obtain ⟨n, hn, hbody⟩ := Memory.framed_iff.mp h
  refine ends_memory.bind ?_
  rw [hn]
  refine (ends_pure n).bind (ends_memory.bind ?_)
  rw [hbody]
  exact ends_pure payload

/-- What is read from a place is the frame there. -/
theorem framed_of_ends {a : UInt32} {payload : Bytes}
    (h : Ends (Host.readFrame a) s (.ok payload) s') : (m.memory s.state).Framed a payload := by
  cases hn : (m.memory s.state).word? a.toNat with
  -- without a length, or without as many bytes, the read ends in an error
  | none =>
    have herror : Ends (Host.readFrame a) s (.error .responseLength) s := by
      refine ends_memory.bind ?_
      rw [hn]
      exact (ends_throw _).bind_error
    cases (h.unique herror).1
  | some n =>
    cases hbody : (m.memory s.state).read? (a + 4).toNat n.toNat with
    | none =>
      have herror : Ends (Host.readFrame a) s (.error .responseBody) s := by
        refine ends_memory.bind ?_
        rw [hn]
        refine (ends_pure n).bind (ends_memory.bind ?_)
        rw [hbody]
        exact ends_throw _
      cases (h.unique herror).1
    | some b =>
      have hframe := Memory.framed_iff.mpr ⟨n, hn, hbody⟩
      cases (h.unique hframe.ends).1
      exact hframe

theorem Memory.Framed.ends_readResponse {slot a : UInt32} {payload : Bytes}
    (h : (m.memory s.state).Framed a payload)
    (hpointer : (m.memory s.state).word? slot.toNat = some a) (hne : a ≠ 0) :
    Ends (Host.readResponse slot) s (.ok payload) { s with pointers := a :: s.pointers } := by
  refine ends_memory.bind ?_
  rw [hpointer]
  simp only [beq_iff_eq, hne, if_false]
  have hframe : Ends (Host.readFrame a) { s with pointers := a :: s.pointers } (.ok payload) _ :=
    Memory.Framed.ends h
  exact (ends_pure a).bind ((ends_note a).bind hframe)

/-- An answer that is read stands in its frame, at a pointer that is not null. -/
theorem exists_of_ends_readResponse {slot : UInt32} {payload : Bytes}
    (h : Ends (Host.readResponse slot) s (.ok payload) s') :
    ∃ a, (m.memory s.state).word? slot.toNat = some a ∧ a ≠ 0
      ∧ (m.memory s.state).Framed a payload := by
  by_cases hpointer : ∀ a, (m.memory s.state).word? slot.toNat = some a → a = 0
  · -- a null pointer ends in an error
    cases (h.unique (ends_readResponse_error hpointer)).1
  · obtain ⟨a, hword, hne⟩ := by simpa only [not_forall, exists_prop] using hpointer
    refine ⟨a, hword, hne, ?_⟩
    -- what is read and noted before the frame leaves the memory alone
    have hread : Ends (Host.note a >>= fun _ => Host.readFrame a) s (.ok payload) s' := by
      obtain ⟨mem, t, hmem, h⟩ := h.exists_of_bind
      obtain ⟨hmem, rfl⟩ := ends_memory.unique hmem
      cases hmem
      rw [hword] at h
      simp only [beq_iff_eq, hne, if_false] at h
      obtain ⟨a', t, hpure, h⟩ := h.exists_of_bind
      obtain ⟨hpure, rfl⟩ := (ends_pure a).unique hpure
      cases hpure
      exact h
    obtain ⟨_, t, hnote, hread⟩ := hread.exists_of_bind
    obtain ⟨-, rfl⟩ := (ends_note a).unique hnote
    exact framed_of_ends (s := { s with pointers := a :: s.pointers }) hread

/-- The host gets a status and a payload exactly from a run that comes to an answer. -/
theorem Machine.ends_converse_iff (usable : m.Usable) {status : UInt8} {payload : Bytes} :
    (∃ s' : Session m,
        Ends (Host.converse request) { state := m.start } (.ok (status, payload)) s')
      ↔ ∃ w, m.Answered request w payload ∧ status = w.toUInt8 := by
  constructor
  · -- a conversation that ends well, call by call
    rintro ⟨s', h⟩
    obtain ⟨p, t₁, h₁, h⟩ := h.exists_of_bind
    obtain ⟨r, st₁, hroom, hplace, rfl⟩ := exists_of_ends_allocate h₁
    obtain ⟨_, t₂, h₂, h⟩ := h.exists_of_bind
    obtain ⟨mem, hwrite, rfl⟩ := exists_of_ends_writeRequest h₂
    obtain ⟨slot, t₃, h₃, h⟩ := h.exists_of_bind
    obtain ⟨r', st₃, hroom', hplace', rfl⟩ := exists_of_ends_allocate h₃
    obtain ⟨status', t₄, h₄, h⟩ := h.exists_of_bind
    obtain ⟨w, st₄, hword, rfl, rfl⟩ := exists_of_ends_generate h₄
    obtain ⟨payload', t₅, h₅, h⟩ := h.exists_of_bind
    obtain ⟨a, hpointer, hne, hframe⟩ := exists_of_ends_readResponse h₅
    cases ((ends_pure _).unique h).1
    have hready : m.Ready request p slot st₃ := ⟨⟨hroom, hplace, hwrite⟩, hroom', hplace'⟩
    exact ⟨w, .intro usable hready hword hpointer hne hframe, rfl⟩
  · -- an answer makes each call end well
    rintro ⟨w, @⟨p, slot, a, s, s', _, _, _, ready, call, pointer, nonzero, frame⟩, rfl⟩
    have hanswer := Memory.Framed.ends_readResponse
      (s := ⟨s', [generating p slot, asking 4, asking request.length], [slot, p]⟩)
      frame pointer nonzero
    exact ⟨_, ready.ends ((ends_generate call).bind (hanswer.bind (ends_pure _)))⟩

end

/-! ## §3 Answers with files -/

/-- A component that leads nowhere but down. -/
structure SafeComponent (c : Bytes) : Prop where
  nonempty : c ≠ []
  notSelf : c ≠ "."
  notUp : c ≠ ".."
  noSlash : slash ∉ c
  noBackslash : backslash ∉ c

/-- An entry of an answer names a file below the output directory, and has its content. -/
structure Names (entry : Json) (f : OutputFile) : Prop where
  present : entry ≠ .null
  path : ∃ parts, partsOfJson (entry.get "path") = some parts ∧ parts ≠ []
    ∧ (∀ c ∈ parts, SafeComponent c) ∧ f.path = Bytes.join [slash] parts
  content : f.content = (entry.get "content").asOctets?.getD []

/-- A payload is an object that names files and no error. -/
inductive Delivers (payload : Bytes) (files : List OutputFile) : Prop
  | intro {members : List (Bytes × Json)} (whole : Json.readWhole? payload = some (.obj members))
      (fits : Json.fault? responseShape (.obj members) = none)
      (silent : ((Json.settle responseShape (.obj members)).get "error").asText = [])
      (nonempty : files ≠ [])
      (named : List.Forall₂ Names ((Json.settle responseShape (.obj members)).get "files").asList
        files)

/-- A path is accepted when it has components and all are safe. -/
theorem outputPath_eq_ok_iff {parts : Option (List Bytes)} {path : Bytes} :
    outputPath parts = .ok path ↔ ∃ l, parts = some l ∧ l ≠ [] ∧ (∀ c ∈ l, SafeComponent c)
      ∧ path = Bytes.join [slash] l := by
  -- the search for a fault goes through the components in order
  have hsafe (l : List Bytes) :
      l.findSome? componentFault? = none ↔ ∀ c ∈ l, SafeComponent c := by
    rw [List.findSome?_eq_none_iff]
    refine forall₂_congr fun c _ => componentFault?_eq_none_iff.trans ?_
    constructor
    · rintro ⟨h₁, h₂, h₃, h₄, h₅⟩
      exact ⟨h₁, h₂, h₃, h₄, h₅⟩
    · rintro ⟨h₁, h₂, h₃, h₄, h₅⟩
      exact ⟨h₁, h₂, h₃, h₄, h₅⟩
  rcases parts with _ | _ | ⟨c, r⟩
  · simp [outputPath]
  · simp [outputPath]
  · rw [outputPath, Option.getD_some]
    dsimp only
    cases hfault : (c :: r).findSome? componentFault? with
    | none =>
      have hall := (hsafe _).mp hfault
      constructor
      · intro h
        exact ⟨_, rfl, List.cons_ne_nil _ _, hall, (Except.ok.inj h).symm⟩
      · rintro ⟨_, hl, -, -, hpath⟩
        rw [hpath, Option.some.inj hl]
    | some f =>
      refine iff_of_false (fun h => by cases h) ?_
      rintro ⟨_, hl, -, hall, -⟩
      cases hl
      rw [(hsafe _).mpr hall] at hfault
      cases hfault

/-- A file is accepted when the entry names it. -/
theorem fileOfJson_eq_ok_iff {entry : Json} {f : OutputFile} :
    fileOfJson entry = .ok f ↔ Names entry f := by
  -- an entry that is there is read by its two members
  have hread (hpresent : entry ≠ .null) :
      fileOfJson entry = ((outputPath (partsOfJson (entry.get "path"))).mapError .path).map
        fun path => ⟨path, (entry.get "content").asOctets?.getD []⟩ := by
    cases entry with
    | null => contradiction
    | _ =>
      simp only [fileOfJson]
      cases outputPath _ <;> rfl
  constructor
  · intro h
    have hpresent : entry ≠ .null := by
      rintro rfl
      cases h
    rw [hread hpresent] at h
    cases hpath : outputPath (partsOfJson (entry.get "path")) with
    | ok path =>
      rw [hpath] at h
      cases h
      exact ⟨hpresent, outputPath_eq_ok_iff.mp hpath, rfl⟩
    | error e =>
      rw [hpath] at h
      cases h
  · rintro ⟨hpresent, hpath, hcontent⟩
    rw [hread hpresent, outputPath_eq_ok_iff.mpr hpath, ← hcontent]
    rfl

/-- What is read of an answer that has its shape. -/
theorem decodeResponse_of_conform {status : UInt8} {payload : Bytes} {v : Json}
    {files : List OutputFile}
    (h : (Json.readWhole? payload).map (Json.conform responseShape) = some (.ok v)) :
    decodeResponse status payload = .ok files
      ↔ status = 0 ∧ (v.get "error").asText = [] ∧ (v.get "files").asList ≠ []
        ∧ (v.get "files").asList.mapM fileOfJson = .ok files := by
  rw [decodeResponse, h]
  dsimp only
  -- a status or an error text fails the response, whatever files it has
  by_cases hsound : status = 0 ∧ (v.get "error").asText = []
  · obtain ⟨rfl, hsilent⟩ := hsound
    simp only [hsilent, bne_self_eq_false, List.isEmpty_nil, Bool.not_true, Bool.or_self,
      Bool.false_eq_true, if_false, true_and]
    cases (v.get "files").asList with
    | nil => simp
    | cons entry r => simp
  · have hfailed : (status != 0 || !(v.get "error").asText.isEmpty) = true := by
      rw [Bool.or_eq_true, bne_iff_ne, Bool.not_eq_true', List.isEmpty_eq_false_iff]
      exact not_and_or.mp hsound
    rw [if_pos hfailed]
    exact iff_of_false (fun h => by cases h) fun h => hsound ⟨h.1, h.2.1⟩

/-- An answer whose status is zero gives files exactly if it names them and no error; with any other
status it gives none. -/
theorem decodeResponse_eq_ok_iff {status : UInt8} {payload : Bytes} {files : List OutputFile} :
    decodeResponse status payload = .ok files ↔ status = 0 ∧ Delivers payload files := by
  constructor
  · intro h
    cases hread : (Json.readWhole? payload).map (Json.conform responseShape) with
    | none =>
      rw [decodeResponse, hread] at h
      cases h
    | some r =>
      cases r with
      | error f =>
        rw [decodeResponse, hread] at h
        cases h
      | ok v =>
        obtain ⟨hstatus, hsilent, hne, hfiles⟩ := (decodeResponse_of_conform hread).mp h
        obtain ⟨whole, hwhole, hconform⟩ := Option.map_eq_some_iff.mp hread
        have hnamed := (mapM_eq_ok_iff.mp hfiles).imp fun _ _ => fileOfJson_eq_ok_iff.mp
        have hsome : files ≠ [] := by
          rintro rfl
          exact hne (List.forall₂_nil_right_iff.mp hnamed)
        -- a payload of this shape is an object or null, and null delivers no file
        unfold Json.conform at hconform
        split at hconform
        · cases hconform
        · next hfits =>
          cases hconform
          cases whole with
          | obj members => exact ⟨hstatus, hwhole, hfits, hsilent, hsome, hnamed⟩
          | null => exact absurd rfl hne
          | _ => cases hfits
  · rintro ⟨rfl, whole, fits, silent, nonempty, named⟩
    have hread := congrArg (Option.map (Json.conform responseShape)) whole
    rw [Option.map_some, Json.conform, fits] at hread
    refine (decodeResponse_of_conform hread).mpr ⟨rfl, silent, ?_, ?_⟩
    · intro hnil
      rw [hnil, List.forall₂_nil_left_iff] at named
      exact nonempty named
    · exact mapM_eq_ok_iff.mpr (named.imp fun _ _ => fileOfJson_eq_ok_iff.mpr)

/-! ## §4 Plugins as targets -/

theorem mapError_eq_ok_iff {ε δ α : Type} {f : ε → δ} {x : Except ε α} {a : α} :
    x.mapError f = .ok a ↔ x = .ok a := by
  cases x with
  | ok b => simp [Except.mapError]
  | error e => exact iff_of_false nofun nofun

/-- A loaded plugin gives files exactly if its run comes to an answer that names them, with the
status zero. -/
theorem Machine.run_result_eq_ok_iff {m : Machine} {path request : Bytes}
    {files : List OutputFile} :
    (m.run path request).result = .ok files
      ↔ ∃ w payload, m.Answered request w payload ∧ w.toUInt8 = 0 ∧ Delivers payload files := by
  by_cases usable : m.Usable
  · rcases hend : (Host.converse request : Host m (UInt8 × Bytes)).run { state := m.start }
      with ⟨o, s⟩
    -- of a usable module the result is the conversation, decoded
    have hresult : (m.run path request).result
        = o >>= fun r => (decodeResponse r.1 r.2).mapError .response := by
      rw [Machine.run, m.usable_iff.mp usable, hend]
      rfl
    rw [hresult]
    constructor
    · intro h
      obtain ⟨⟨status, payload⟩, rfl, hdecode⟩ := exists_of_bind_eq_ok h
      obtain ⟨w, hanswer, rfl⟩ := (ends_converse_iff usable).mp ⟨s, hend⟩
      exact ⟨w, payload, hanswer, decodeResponse_eq_ok_iff.mp (mapError_eq_ok_iff.mp hdecode)⟩
    · rintro ⟨w, payload, hanswer, hdelivers⟩
      obtain ⟨s', hend'⟩ := (ends_converse_iff usable).mpr ⟨w, hanswer, rfl⟩
      obtain ⟨rfl, -⟩ := Ends.unique hend hend'
      exact mapError_eq_ok_iff.mpr (decodeResponse_eq_ok_iff.mpr hdelivers)
  · -- a module that lacks something is refused before any call
    have hneeds := Bool.eq_false_iff.mpr fun hall => usable (m.usable_iff.mpr hall)
    rw [Machine.run, hneeds]
    refine iff_of_false (fun h => by cases h) ?_
    rintro ⟨w, payload, ⟨usable', -⟩, -⟩
    exact usable usable'

/-- A plugin gives files for a schema exactly if it is given no templates, can be loaded, and its
run on the framed request comes to an answer that names them, with a word whose lowest octet is
zero. In every other case there is an error with the number 5005. -/
theorem Source.render_run_eq_ok_iff (engine : Engine) (p : Source) (s : Schema) (o : Options) :
    (∀ files, p.render (p.run engine s o) = .ok files
      ↔ o.templates = none ∧ ∃ request m w payload, p.request s o = .ok request
        ∧ engine p.module p.limit = .ok m ∧ m.Answered request w payload ∧ w.toUInt8 = 0
        ∧ Delivers payload files)
      ∧ ∀ e, p.render (p.run engine s o) = .error e → e.cause.code = 5005 := by
  constructor
  · -- templates are refused, then the request, the module and the run decide
    intro files
    rw [Source.render, mapError_eq_ok_iff, Source.run]
    cases htemplates : o.templates with
    | some t => simp
    | none =>
      cases hrequest : p.request s o with
      | error e => simp
      | ok request =>
        cases hload : engine p.module p.limit with
        | error e => simp
        | ok m => simp [Machine.run_result_eq_ok_iff]
  · -- every failure is wrapped in the one code
    intro e h
    unfold Source.render at h
    cases hresult : (p.run engine s o).result with
    | ok files =>
      rw [hresult] at h
      cases h
    | error f =>
      rw [hresult] at h
      cases h
      rfl

/-- A scripted plugin that returns a word returns its status. -/
theorem Script.eq_status {x : Script} {limit : Nat} {m : Machine} (h : x.load limit = .ok m)
    {request slot : UInt32} {s s' : m.State} {w : UInt64}
    (hcall : m.call (generating request slot) s = (.words [w], s')) : w = x.status.toUInt64 := by
  unfold load at h
  -- the checks of the script, then those of its one call
  split at h
  · cases h
  · split at h
    · cases h
    · split at h
      · cases h
      · cases h
        simp only [generating, call, generate] at hcall
        split at hcall
        · cases hcall
        · split at hcall
          · cases hcall
          · have hwords := congrArg Prod.fst hcall
            dsimp only at hwords
            split at hwords
            · cases hwords
            · cases hwords
              rfl

/-- A plugin that returns 256 and leaves an answer with one file gives the file, though the word is
not zero. -/
theorem Source.render_run_of_word_256 :
    ∃ (engine : Engine) (p : Source) (s : Schema) (request : Bytes) (m : Machine) (w : UInt64)
      (payload : Bytes), p.request s {} = .ok request ∧ engine p.module p.limit = .ok m
        ∧ m.Answered request w payload ∧ w.toUInt32 = 256
        ∧ p.render (p.run engine s {}) = .ok [⟨"a", []⟩] := by
  let response : Bytes := "\x7b\"files\":[\x7b\"path\":[\"a\"]\x7d]\x7d"
  let x : Script := { status := 256, response := some response }
  let p := Source.ofModule "c" [] 1
  let engine : Engine := fun _ => x.load
  have hrender : p.render (p.run engine .empty {}) = .ok [⟨"a", []⟩] := by decide +kernel
  obtain ⟨request, hrequest⟩ := exists_of_isOk (r := p.request .empty {}) (by decide +kernel)
  have hresult := hrender
  rw [Source.render, mapError_eq_ok_iff, Source.run, hrequest] at hresult
  rcases hload : engine p.module p.limit with _ | m
  · rw [hload] at hresult
    cases hresult
  rw [hload] at hresult
  obtain ⟨w, payload, hanswer, -⟩ := Machine.run_result_eq_ok_iff.mp hresult
  -- the word is what the script returns, since it answered at all
  have hword : w = x.status.toUInt64 := by
    obtain ⟨-, -, hcall⟩ := hanswer
    exact Script.eq_status hload hcall
  exact ⟨engine, p, .empty, request, m, w, payload, hrequest, hload, hanswer, by rw [hword]; rfl,
    hrender⟩

end Idl.Plugin
