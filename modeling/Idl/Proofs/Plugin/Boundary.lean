import Idl.Proofs.Command.Effects
import Idl.Proofs.Reader.Octets
import Mathlib.Data.List.DropRight

/-!
# What comes from a plugin

A plugin is not trusted: its answer is a frame somewhere in its memory, the answer names files by
components, and what it says of a failure is shown to people.

A frame in memory is read as one in a buffer is, and no place in it is beyond the words of 32 bits.
The components of an output path are names, and nothing else is accepted; a path is taken apart into
the components it was made of, wherever it is checked again, and behind any directory it names
something that lies in that directory and is not the directory itself. What is said of a failure is
shown without the blanks around it and with its control characters masked, and where nothing is left
of it the status is shown instead. The control characters that are masked are those of ASCII: the
ones from U+0080 to U+009F, such as the introducer of terminal sequences U+009B, are shown as they
came.

* §1 frames as octets, §2 frames in memory,
* §3 plain forms of plain paths, §4 paths below a directory, §5 paths of files,
* §6 texts without blanks around them, §7 masked texts, §8 texts of failures.
-/

namespace Idl

/-! ## §1 Frames as octets -/

theorem leNat_lt (b : Bytes) : leNat b < 256 ^ b.length := by
  induction b with
  | nil => exact Nat.one_pos
  | cons c r ih =>
    have hc := c.toNat_lt
    rw [leNat, List.length_cons, Nat.pow_succ']
    omega

/-- The octets of a number are those that it is made of. -/
theorem leOctets_leNat (b : Bytes) : leOctets b.length (leNat b) = b := by
  induction b with
  | nil => rfl
  | cons c r ih =>
    have hc : c.toNat < 256 := c.toNat_lt
    have hmod : (c.toNat + 256 * leNat r) % 256 = c.toNat := by omega
    have hdiv : (c.toNat + 256 * leNat r) / 256 = leNat r := by omega
    rw [List.length_cons, leOctets, leNat, hmod, hdiv, ih]
    simp [Nat.toUInt8]

namespace Plugin

variable {b payload rest : Bytes}

/-- The payload of a frame, found with slices and words: the place where it ends is a sum of words,
which starts at zero again behind the last word. Without a value there is a slice that ends before
it starts or behind the last octet. -/
def unframeByWords? (b : Bytes) : Option (Except FrameError Bytes) :=
  if b.length < 4 then some (.error (.tooShort b.length))
  else
    let n := (leNat (b.take 4)).toUInt32
    if n.toNat > b.length - 4 then some (.error (.cutOff n.toNat (b.length - 4)))
    else (Reader.slice? b 4 (4 + n).toNat).map .ok

/-- Below 4 GiB no sum wraps. -/
theorem unframeByWords?_eq (h : b.length < 2 ^ 32) : unframeByWords? b = some (unframe b) := by
  unfold unframeByWords? unframe
  split
  · rfl
  next hlong =>
  -- four octets make a number of 32 bits
  have hword : (leNat (b.take 4)).toUInt32.toNat = leNat (b.take 4) := by
    have hlt := leNat_lt (b.take 4)
    rw [List.length_take_of_le (by omega)] at hlt
    simpa [Nat.toUInt32] using Nat.mod_eq_of_lt hlt
  dsimp only
  rw [List.length_drop, hword]
  split
  · rfl
  next hfits =>
  -- the sum does not wrap, since it is within the buffer
  have hend : (4 + (leNat (b.take 4)).toUInt32).toNat = 4 + leNat (b.take 4) := by
    rw [UInt32.toNat_add, hword]
    exact Nat.mod_eq_of_lt (by dsimp only [UInt32.reduceToNat]; omega)
  have hbounds : 4 ≤ 4 + leNat (b.take 4) ∧ 4 + leNat (b.take 4) ≤ b.length := by omega
  rw [hend, Reader.slice?, if_pos hbounds, List.drop_take, Nat.add_sub_cancel_left]
  rfl

/-- A payload that is not too large has a frame, of which it is the payload whatever follows. -/
theorem unframe_frame (h : payload.length ≤ maxPayload) (rest : Bytes) :
    ∃ f, frame payload = .ok f ∧ unframe (f ++ rest) = .ok payload := by
  refine ⟨leOctets 4 payload.length ++ payload, if_neg (Nat.not_lt.mpr h), ?_⟩
  -- the header is the first four octets, and tells the length of the payload
  have htake : (leOctets 4 payload.length ++ payload ++ rest).take 4
      = leOctets 4 payload.length := by
    rw [List.append_assoc, List.take_left' (length_leOctets 4 _)]
  have hdrop : (leOctets 4 payload.length ++ payload ++ rest).drop 4 = payload ++ rest := by
    rw [List.append_assoc, List.drop_left' (length_leOctets 4 _)]
  have hlength : leNat (leOctets 4 payload.length) = payload.length := by
    rw [leNat_leOctets]
    exact Nat.mod_eq_of_lt (Nat.lt_of_le_of_lt h (by decide))
  unfold unframe
  rw [if_neg (by simp [length_leOctets]), htake, hdrop, hlength]
  simp

theorem length_of_frame {f : Bytes} (h : frame payload = .ok f) :
    f.length = payload.length + 4 := by
  unfold frame at h
  split at h
  · cases h
  · rw [← Except.ok.inj h, List.length_append, length_leOctets, Nat.add_comm]

/-- A text with a payload begins with the frame of the payload. -/
theorem frame_isPrefix_of_unframe (h : unframe b = .ok payload)
    (hsize : payload.length ≤ maxPayload) :
    ∃ f, frame payload = .ok f ∧ f <+: b := by
  unfold unframe at h
  dsimp only at h
  split at h
  · cases h
  next hlong =>
  split at h
  · cases h
  next hfits =>
  have hpayload := Except.ok.inj h
  have hlength : payload.length = leNat (b.take 4) := by
    rw [← hpayload, List.length_take]
    omega
  have hfour : (b.take 4).length = 4 := List.length_take_of_le (by omega)
  -- the header is told by the length it was read as
  have hoctets : leOctets 4 payload.length = b.take 4 := by
    rw [hlength]
    have hread := leOctets_leNat (b.take 4)
    rwa [hfour] at hread
  refine ⟨leOctets 4 payload.length ++ payload, if_neg (Nat.not_lt.mpr hsize), ?_⟩
  refine ⟨(b.drop 4).drop (leNat (b.take 4)), ?_⟩
  rw [hoctets, ← hpayload, List.append_assoc, List.take_append_drop, List.take_append_drop]

/-! ## §2 Frames in memory -/

/-- The octets of a memory from a place on. -/
def Memory.suffix (mem : Memory) (start : Nat) : Bytes :=
  (List.range (mem.size - start)).map fun i => mem.cell (start + i)

namespace Memory

variable {mem : Memory} {start count : Nat}

theorem length_suffix (mem : Memory) (start : Nat) :
    (mem.suffix start).length = mem.size - start := by
  rw [Memory.suffix, List.length_map, List.length_range]

theorem drop_suffix (mem : Memory) (start n : Nat) :
    (mem.suffix start).drop n = mem.suffix (start + n) := by
  refine List.ext_getElem ?_ fun i h _ => ?_
  · simp only [List.length_drop, length_suffix]
    omega
  · simp only [Memory.suffix, List.getElem_drop, List.getElem_map, List.getElem_range]
    rw [Nat.add_assoc]

/-- What lies inside a memory can be read, and is found among the octets from its place on. -/
theorem read?_eq_take (h : start + count ≤ mem.size) :
    mem.read? start count = some ((mem.suffix start).take count) := by
  rw [read?, if_pos h, Memory.suffix, ← List.map_take, List.take_range, Nat.min_eq_left (by omega)]

/-- A frame in a memory below 4 GiB is one that stands at the front of the octets from its place
on. -/
theorem framed_iff_unframe {q : UInt32} (hsize : mem.size < 2 ^ 32) :
    mem.Framed q payload ↔ q.toNat < mem.size ∧ unframe (mem.suffix q.toNat) = .ok payload := by
  have hlength := mem.length_suffix q.toNat
  have hrest : (mem.suffix q.toNat).drop 4 = mem.suffix (q.toNat + 4) := mem.drop_suffix _ _
  have hcount := mem.length_suffix (q.toNat + 4)
  by_cases hlong : q.toNat + 4 ≤ mem.size
  · -- the length can be read, and the place behind it is a word
    have hnext : (q + 4).toNat = q.toNat + 4 := by
      rw [UInt32.toNat_add]
      exact Nat.mod_eq_of_lt (Nat.lt_of_le_of_lt hlong hsize)
    have hn : leNat ((mem.suffix q.toNat).take 4) < 2 ^ 32 := by
      have hlt := leNat_lt ((mem.suffix q.toNat).take 4)
      rwa [List.length_take_of_le (by omega)] at hlt
    have hword : mem.word? q.toNat = some (leNat ((mem.suffix q.toNat).take 4)).toUInt32 := by
      rw [word?, read?_eq_take hlong, Option.map_some]
    have htoNat : (leNat ((mem.suffix q.toNat).take 4)).toUInt32.toNat
        = leNat ((mem.suffix q.toNat).take 4) := by simpa [Nat.toUInt32] using Nat.mod_eq_of_lt hn
    rw [framed_iff, unframe, if_neg (by omega)]
    dsimp only
    rw [hrest, hcount]
    simp only [hword, Option.some.injEq, exists_eq_left', htoNat, hnext]
    split
    · next hcut =>
      rw [read?, if_neg (by omega)]
      exact iff_of_false nofun fun h => nomatch h.2
    · next hfits =>
      rw [read?_eq_take (by omega)]
      simp only [Option.some.injEq, Except.ok.injEq]
      exact (and_iff_right (by omega)).symm
  -- there is no room for the length itself
  · refine iff_of_false (fun h => ?_) fun h => ?_
    · have := h.inside hsize
      omega
    · rw [unframe, if_pos (by omega)] at h
      exact nomatch h.2

end Memory

variable {m : Machine} {s : Session m}

theorem exists_ends_readFrame_iff {q : UInt32} :
    (∃ s', Ends (Host.readFrame q) s (.ok payload) s') ↔ (m.memory s.state).Framed q payload :=
  ⟨fun ⟨_, h⟩ => framed_of_ends h, fun h => ⟨s, h.ends⟩⟩

theorem exists_ends_readResponse_iff {slot q : UInt32}
    (hpointer : (m.memory s.state).word? slot.toNat = some q) (hne : q ≠ 0) :
    (∃ s', Ends (Host.readResponse slot) s (.ok payload) s')
      ↔ (m.memory s.state).Framed q payload := by
  constructor
  · rintro ⟨s', h⟩
    obtain ⟨a, hword, -, hframe⟩ := exists_of_ends_readResponse h
    obtain rfl := Option.some.inj (hword.symm.trans hpointer)
    exact hframe
  · exact fun h => ⟨_, h.ends_readResponse hpointer hne⟩

/-- All readers of frames agree. A payload that is not too large is found behind its length, and
what a payload is found in begins with its frame, as long as no place is beyond the words of 32 bits.
In a memory of the usual limit the host reads from a place exactly what is the payload of the octets
from there on, and the place behind the length is a word. -/
theorem frame_readers_agree :
    (∀ payload rest : Bytes, payload.length ≤ maxPayload →
      payload.length + rest.length + 4 < 2 ^ 32 →
      ∃ f, frame payload = .ok f ∧ unframeByWords? (f ++ rest) = some (.ok payload))
    ∧ (∀ b payload : Bytes, b.length < 2 ^ 32 → payload.length ≤ maxPayload →
      unframeByWords? b = some (.ok payload) → ∃ f, frame payload = .ok f ∧ f <+: b)
    ∧ (∀ b : Bytes, b.length < 2 ^ 32 → unframeByWords? b = some (unframe b))
    ∧ ∀ (m : Machine) (s : Session m) (q : UInt32), q ≠ 0 →
      (m.memory s.state).size ≤ defaultPages * pageSize →
      (∀ payload, (∃ s', Ends (Host.readFrame q) s (.ok payload) s')
        ↔ q.toNat < (m.memory s.state).size
          ∧ unframeByWords? ((m.memory s.state).suffix q.toNat) = some (.ok payload))
      ∧ (∀ slot : UInt32, (m.memory s.state).word? slot.toNat = some q →
        ∀ payload, (∃ s', Ends (Host.readResponse slot) s (.ok payload) s')
          ↔ ∃ s', Ends (Host.readFrame q) s (.ok payload) s')
      ∧ ∀ n, (m.memory s.state).word? q.toNat = some n → (q + 4).toNat = q.toNat + 4 := by
  refine ⟨fun payload rest hpayload hsize => ?_, fun b payload hb hpayload h => ?_,
    fun b => unframeByWords?_eq, fun m s q hq hsize => ⟨fun payload => ?_,
    fun slot hslot payload => ?_, fun n hn => ?_⟩⟩
  · obtain ⟨f, hf, hread⟩ := unframe_frame hpayload rest
    have hlength := length_of_frame hf
    refine ⟨f, hf, ?_⟩
    rw [unframeByWords?_eq (by rw [List.length_append]; omega), hread]
  · rw [unframeByWords?_eq hb] at h
    exact frame_isPrefix_of_unframe (Option.some.inj h) hpayload
  -- a word holds every place of such a memory
  · have hsmall : (m.memory s.state).size < 2 ^ 32 := Nat.lt_of_le_of_lt hsize (by decide)
    have hlength := (m.memory s.state).length_suffix q.toNat
    rw [exists_ends_readFrame_iff, Memory.framed_iff_unframe hsmall,
      unframeByWords?_eq (by omega), Option.some.injEq]
  · rw [exists_ends_readResponse_iff hslot hq, exists_ends_readFrame_iff]
  · obtain ⟨b, hread, -⟩ := Option.map_eq_some_iff.mp hn
    have hplace := (Memory.read?_eq_some hread).1
    have hword : q.toNat + 4 < 2 ^ 32 :=
      Nat.lt_of_le_of_lt (hplace.trans hsize) (by decide)
    rw [UInt32.toNat_add]
    exact Nat.mod_eq_of_lt hword

/-- A frame that ends one octet before its memory does. -/
theorem frame_readers_agree_small :
    let octets : Bytes := [0, 2, 0, 0, 0, 0x61, 0x62, 0]
    let m : Machine :=
      { State := Unit, start := (), hasMemory := true, has := fun _ => true
        call := fun _ s => (.trap, s), memory := fun _ => ⟨8, fun i => octets.getD i 0⟩
        setMemory := fun _ s => s, stderr := fun _ => [] }
    let s : Session m := { state := () }
    unframeByWords? ([2, 0, 0, 0] ++ ("ab" : Bytes) ++ [0]) = some (.ok "ab")
      ∧ ∃ s', Ends (Host.readFrame 1) s (.ok "ab") s' := by
  intro octets m s
  obtain ⟨hread, -, -, hhost⟩ := frame_readers_agree
  obtain ⟨f, hf, hpayload⟩ := hread "ab" [0] (by decide) (by decide)
  obtain rfl : [2, 0, 0, 0] ++ ("ab" : Bytes) = f := by
    have hframe : frame "ab" = .ok ([2, 0, 0, 0] ++ ("ab" : Bytes)) := by decide
    exact Except.ok.inj (hframe.symm.trans hf)
  have hsize : (m.memory s.state).size ≤ defaultPages * pageSize := by decide
  exact ⟨hpayload, ((hhost m s 1 (by decide) hsize).1 "ab").mpr ⟨by decide, by decide⟩⟩

end Plugin

namespace Files

/-! ## §3 Plain forms of plain paths -/

section

variable {rooted : Bool} {parts names : List Bytes}

/-- A plain path is the plain form of what its text says. -/
theorem plain_ofText_text (h : ArePlain rooted parts) (hne : parts ≠ []) :
    (Path.ofText (Path.text ⟨rooted, parts⟩)).plain = ⟨rooted, parts⟩ := by
  have hskip (stack : List Bytes) : Path.push rooted stack [] = stack := rfl
  have hfold : ((if rooted then [[]] else []) ++ parts).foldl (Path.push rooted) []
      = parts.reverse := by
    cases rooted with
    | true => rw [if_pos rfl, List.singleton_append, List.foldl_cons, hskip, h.foldl_push_nil]
    | false => exact h.foldl_push_nil
  rw [ofText_text h hne, Path.plain, hfold, List.reverse_reverse]

/-! ## §4 Paths below a directory -/

/-- A text names something strictly below a directory: it is in plain form, starts where the
directory does, and goes on behind the components of the directory with names. -/
structure StrictlyBelow (dir : Bytes) (names : List Bytes) (t : Bytes) : Prop where
  nonempty : names ≠ []
  areNames : ∀ c ∈ names, IsName c
  plain : plainText t = t
  rooted : isRooted t = isRooted dir
  parts : plainParts t = plainParts dir ++ names
  /-- It leads there, from wherever it is seen. -/
  place : ∀ d : Disk, d.place t = d.place dir ++ names

theorem strictlyBelow_below (dir : Bytes) (hne : names ≠ []) (h : ∀ c ∈ names, IsName c) :
    StrictlyBelow dir names (below dir names) := by
  have hplain := arePlain_below dir h
  have hparts : plainParts dir ++ names ≠ [] := List.append_ne_nil_of_right_ne_nil _ hne
  have hform := plain_ofText_text hplain hparts
  exact
    { nonempty := hne
      areNames := h
      plain := congrArg Path.text hform
      rooted := isRooted_text hplain hparts
      parts := congrArg Path.parts hform
      place := fun d => d.place_below dir h hne }

/-- Names behind a directory, also behind the one that has no text. -/
theorem joinTexts_join (dir : Bytes) (hne : names ≠ []) (h : ∀ c ∈ names, IsName c) :
    joinTexts [dir, Bytes.join [separator] names] = below dir names := by
  cases dir with
  | cons b r => exact joinTexts_names (List.cons_ne_nil b r) h hne
  | nil =>
    -- the text is that of the path below the working directory, in plain form already
    have htext : Bytes.join [separator] names = below [] names := by
      obtain ⟨c, r, rfl⟩ := List.exists_cons_of_ne_nil hne
      exact (text_cons false c r).symm
    have hbelow := strictlyBelow_below [] hne h
    have hsome : below [] names ≠ [] := text_ne_nil (arePlain_below [] h)
    rw [htext, joinTexts]
    simp [hsome, hbelow.plain]

end

end Files

namespace Plugin

open Files (StrictlyBelow joinTexts)

/-! ## §5 Paths of files -/

/-- Components are accepted exactly if there are some and each of them is a name without a
backslash. The path that they give is taken apart into them again, so that it comes from no other
components, and it passes the same check once more. Behind any directory it leads strictly below
that directory. -/
theorem outputPath_exact (parts : Option (List Bytes)) :
    ((∃ path, outputPath parts = .ok path)
      ↔ parts.getD [] ≠ [] ∧ ∀ c ∈ parts.getD [], SafeComponent c)
    ∧ ∀ path, outputPath parts = .ok path →
      Bytes.split slash path = parts.getD []
      ∧ (∀ others, outputPath others = .ok path → others = parts)
      ∧ outputPath (Command.componentsOf path) = .ok path
      ∧ ∀ dir, StrictlyBelow dir (parts.getD []) (joinTexts [dir, path]) := by
  constructor
  · constructor
    · rintro ⟨path, hpath⟩
      obtain ⟨l, rfl, hne, hsafe, -⟩ := outputPath_eq_ok_iff.mp hpath
      exact ⟨hne, hsafe⟩
    · rintro ⟨hne, hsafe⟩
      cases parts with
      | none => exact absurd rfl hne
      | some l => exact ⟨_, outputPath_eq_ok_iff.mpr ⟨l, rfl, hne, hsafe, rfl⟩⟩
  · intro path hpath
    -- a path says what its components were
    have hsplit {o : Option (List Bytes)} (ho : outputPath o = .ok path) :
        o = some (Bytes.split slash path) := by
      obtain ⟨l, rfl, hne, hsafe, rfl⟩ := outputPath_eq_ok_iff.mp ho
      obtain ⟨c, r, rfl⟩ := List.exists_cons_of_ne_nil hne
      rw [Bytes.split_join fun b hb => (hsafe b hb).noSlash]
    obtain ⟨l, rfl, hne, hsafe, rfl⟩ := outputPath_eq_ok_iff.mp hpath
    have hparts := hsplit hpath
    refine ⟨(Option.some.inj hparts).symm, fun others ho => (hsplit ho).trans hparts.symm, ?_,
      fun dir => ?_⟩
    · exact (congrArg outputPath hparts).symm.trans hpath
    · have hnames : ∀ c ∈ l, Files.IsName c := fun c hc => Command.isName_of_safe (hsafe c hc)
      have hjoin := Files.joinTexts_join dir hne hnames
      exact hjoin ▸ Files.strictlyBelow_below dir hne hnames

/-- A file in a directory of the output, seen from a directory above the working directory. -/
theorem outputPath_exact_nested :
    outputPath (some ["src", "lib.rs"]) = .ok "src/lib.rs"
      ∧ joinTexts ["../out/./x/..", "src/lib.rs"] = "../out/src/lib.rs"
      ∧ StrictlyBelow "../out/./x/.." ["src", "lib.rs"] "../out/src/lib.rs" := by
  have hpath : outputPath (some ["src", "lib.rs"]) = .ok "src/lib.rs" := by decide
  have hjoin : joinTexts ["../out/./x/..", "src/lib.rs"] = "../out/src/lib.rs" := by decide
  obtain ⟨-, -, -, hbelow⟩ := (outputPath_exact (some ["src", "lib.rs"])).2 _ hpath
  exact ⟨hpath, hjoin, hjoin ▸ hbelow "../out/./x/.."⟩

/-! ## §6 Texts without blanks around them -/

/-- No blanks stand at either end. -/
structure Trimmed (l : List Char) : Prop where
  head : ∀ c ∈ l.head?, isSpace c = false
  last : ∀ c ∈ l.getLast?, isSpace c = false

section

variable {l : List Char}

theorem trimBlanks_eq (l : List Char) : trimBlanks l = (l.dropWhile isSpace).rdropWhile isSpace :=
  rfl

/-- What is trimmed neither begins nor ends in a blank. -/
theorem trimmed_trimBlanks (l : List Char) : Trimmed (trimBlanks l) := by
  have hinitial : trimBlanks l <+: l.dropWhile isSpace := List.rdropWhile_prefix isSpace _
  constructor
  · -- the front was trimmed first, and the end is cut from that
    intro c hc
    have hhead := List.head?_dropWhile_not isSpace l
    obtain ⟨r, hr⟩ := hinitial
    obtain ⟨t, ht⟩ := List.head?_eq_some_iff.mp hc
    rw [← hr, ht] at hhead
    exact hhead
  · intro c hc
    rw [trimBlanks_eq, Option.mem_def, List.getLast?_eq_some_iff] at hc
    obtain ⟨r, hr⟩ := hc
    have hne : (l.dropWhile isSpace).rdropWhile isSpace ≠ [] := by simp [hr]
    have hlast := List.rdropWhile_last_not isSpace _ hne
    simpa [hr] using hlast

/-- Nothing is taken off a text without blanks around it. -/
theorem Trimmed.trimBlanks_eq_self (h : Trimmed l) : trimBlanks l = l := by
  have hhead : l.dropWhile isSpace = l := by
    cases l with
    | nil => rfl
    | cons c r => rw [List.dropWhile_cons_of_neg (by simp [h.head c rfl])]
  rw [trimBlanks_eq, hhead, List.rdropWhile_eq_self_iff]
  intro hne
  rw [h.last _ (List.getLast?_eq_some_getLast hne)]
  exact Bool.false_ne_true

/-! ## §7 Masked texts -/

/-- The control characters behind those of ASCII. -/
def isLateControl (c : Char) : Bool := 0x80 ≤ c.toNat && c.toNat < 0xA0

theorem isControl_mask : isControl (Char.ofNat 0xFFFD) = false := by decide

/-- What a character is shown as: itself, unless it is a control character of ASCII other than a
line feed or a tab. -/
theorem maskControl_cases (c : Char) :
    maskControl c = c ∧ (isControl c = true → c = '\n' ∨ c = '\t' ∨ isLateControl c = true)
      ∨ maskControl c = Char.ofNat 0xFFFD ∧ isLateControl c = false := by
  unfold maskControl
  split
  · -- a line feed or a tab
    next h =>
    simp only [Bool.or_eq_true, beq_iff_eq] at h
    exact .inl ⟨rfl, fun _ => h.elim .inl fun h => .inr (.inl h)⟩
  split
  · -- a control character of ASCII, which is masked
    next h =>
    simp only [Bool.or_eq_true, decide_eq_true_eq, beq_iff_eq] at h
    refine .inr ⟨rfl, ?_⟩
    simp only [isLateControl, Bool.and_eq_false_iff, decide_eq_false_iff_not]
    omega
  · -- anything else stays, the late controls with it
    next h =>
    simp only [Bool.or_eq_true, decide_eq_true_eq, beq_iff_eq] at h
    refine .inl ⟨rfl, fun hcontrol => .inr (.inr ?_)⟩
    simp only [isControl, isLateControl, Bool.or_eq_true, Bool.and_eq_true,
      decide_eq_true_eq] at hcontrol ⊢
    omega

theorem maskControl_eq_self {c : Char} (h : 0x20 ≤ c.toNat ∧ c.toNat ≠ 0x7F) :
    maskControl c = c := by
  have hcontrol : (decide (c.toNat < 0x20) || c.toNat == 0x7F) = false := by
    simpa [Nat.not_lt] using h
  rw [maskControl, hcontrol]
  exact ite_self c

theorem maskControl_maskControl (c : Char) : maskControl (maskControl c) = maskControl c := by
  obtain ⟨h, -⟩ | ⟨h, -⟩ := maskControl_cases c
  · rw [h, h]
  · rw [h]
    decide

theorem isSpace_maskControl {c : Char} (h : isSpace c = false) :
    isSpace (maskControl c) = false := by
  obtain ⟨hmask, -⟩ | ⟨hmask, -⟩ := maskControl_cases c
  · rwa [hmask]
  · rw [hmask]
    decide

theorem Trimmed.map_maskControl (h : Trimmed l) : Trimmed (l.map maskControl) := by
  constructor
  · intro c hc
    rw [List.head?_map] at hc
    obtain ⟨a, ha, rfl⟩ := Option.mem_map.mp hc
    exact isSpace_maskControl (h.head a ha)
  · intro c hc
    rw [List.getLast?_map] at hc
    obtain ⟨a, ha, rfl⟩ := Option.mem_map.mp hc
    exact isSpace_maskControl (h.last a ha)

end

/-- A text that can be shown as it is, up to control characters behind those of ASCII. -/
structure Presentable (t : Bytes) : Prop where
  nonempty : t ≠ []
  trimmed : Trimmed (Utf8.chars t)
  settled : sanitize t = t
  control : ∀ c ∈ Utf8.chars t, isControl c = true → c = '\n' ∨ c = '\t' ∨ isLateControl c = true

/-- The text of masked characters without blanks around them is presentable. -/
theorem presentable_ofChars {l : List Char} (hne : l ≠ []) (htrimmed : Trimmed l)
    (hmask : ∀ c ∈ l, maskControl c = c) : Presentable (Utf8.ofChars l) := by
  have hchars := Utf8.chars_ofChars l
  refine ⟨Naming.ofChars_ne_nil hne, hchars.symm ▸ htrimmed, ?_, fun c hc hcontrol => ?_⟩
  · rw [sanitize, hchars, htrimmed.trimBlanks_eq_self, List.map_congr_left hmask, List.map_id']
  · rw [hchars] at hc
    obtain ⟨-, h⟩ | ⟨h, -⟩ := maskControl_cases c
    · exact h hcontrol
    · -- a mask is no control character
      rw [hmask c hc] at h
      rw [h, isControl_mask] at hcontrol
      cases hcontrol

/-- What is left of a report is presentable. -/
theorem presentable_sanitize {t : Bytes} (h : sanitize t ≠ []) : Presentable (sanitize t) := by
  refine presentable_ofChars (fun hnil => h ?_) (trimmed_trimBlanks _).map_maskControl ?_
  · rw [sanitize, hnil]
    rfl
  · exact List.forall_mem_map.mpr fun c _ => maskControl_maskControl c

/-- A report keeps its late control characters, and has no others. -/
theorem mem_sanitize_iff {t : Bytes} {c : Char} (hc : isLateControl c = true) :
    c ∈ Utf8.chars (sanitize t) ↔ c ∈ trimBlanks (Utf8.chars t) := by
  rw [sanitize, Utf8.chars_ofChars, List.mem_map]
  constructor
  · rintro ⟨a, ha, rfl⟩
    obtain ⟨hmask, -⟩ | ⟨hmask, -⟩ := maskControl_cases a
    · rwa [hmask]
    · -- a masked character is the replacement character, which is no late control
      rw [hmask] at hc
      exact absurd hc (by decide)
  · intro hmem
    obtain ⟨hmask, -⟩ | ⟨-, hlate⟩ := maskControl_cases c
    · exact ⟨c, hmem, hmask⟩
    · rw [hc] at hlate
      cases hlate

/-- A text of printable ASCII characters without blanks around it is presentable. -/
theorem presentable_of_ascii {m : Bytes} (hne : m ≠ [])
    (hplain : ∀ b ∈ m, 0x20 ≤ b.toNat ∧ b.toNat < 0x7F) (hhead : ∀ b ∈ m.head?, b ≠ 0x20)
    (hlast : ∀ b ∈ m.getLast?, b ≠ 0x20) :
    Presentable m ∧ ∀ c ∈ Utf8.chars m, isLateControl c = false := by
  have hnat {b : UInt8} (hb : b ∈ m) : (Char.ofNat b.toNat).toNat = b.toNat :=
    Utf8.toNat_charOfNat (.inl (Nat.lt_of_lt_of_le (hplain b hb).2 (by decide)))
  -- the only blank among these octets is the space
  have hspace {b : UInt8} (hb : b ∈ m) (hblank : b ≠ 0x20) :
      isSpace (Char.ofNat b.toNat) = false := by
    have hne : b.toNat ≠ 0x20 := fun h => hblank (UInt8.toNat_inj.mp h)
    have hbounds := hplain b hb
    simp only [isSpace, inRanges, spaceRanges, List.any_cons, List.any_nil, Bool.or_false,
      Bool.or_eq_false_iff, Bool.and_eq_false_iff, decide_eq_false_iff_not, hnat hb]
    omega
  have hascii : ∀ b ∈ m, b.toNat < 0x80 := fun b hb => Nat.lt_succ_of_lt (hplain b hb).2
  constructor
  · rw [← Utf8.ofChars_ascii hascii]
    refine presentable_ofChars (fun hnil => hne (List.map_eq_nil_iff.mp hnil)) ⟨?_, ?_⟩ ?_
    · rw [List.head?_map]
      refine Option.forall_mem_map.mpr fun b hb => hspace (List.mem_of_head? hb) (hhead b hb)
    · rw [List.getLast?_map]
      refine Option.forall_mem_map.mpr fun b hb => hspace (List.mem_of_getLast? hb) (hlast b hb)
    · refine List.forall_mem_map.mpr fun b hb => maskControl_eq_self ?_
      rw [hnat hb]
      exact ⟨(hplain b hb).1, (hplain b hb).2.ne⟩
  · rw [Utf8.chars_of_ascii hascii]
    refine List.forall_mem_map.mpr fun b hb => ?_
    have hbounds := hplain b hb
    simp only [isLateControl, hnat hb, Bool.and_eq_false_iff, decide_eq_false_iff_not]
    omega

/-! ## §8 Texts of failures -/

/-- The text that stands for a status. -/
theorem presentable_status (n : UInt8) : Presentable (ResponseError.status n).message
    ∧ ∀ c ∈ Utf8.chars (ResponseError.status n).message, isLateControl c = false := by
  -- the message is fixed words and the digits of the status
  have hdigit {b : UInt8} (hb : b ∈ Bytes.ofNat n.toNat) : 0x30 ≤ b.toNat ∧ b.toNat ≤ 0x39 := by
    simpa [Bytes.isDigit, UInt8.le_iff_toNat_le] using Bytes.isDigit_of_mem_ofNat hb
  have hwords : ∀ b ∈ Bytes.ofString "plugin exited with status ",
      0x20 ≤ b.toNat ∧ b.toNat < 0x7F := by decide +kernel
  refine presentable_of_ascii (by simp [ResponseError.message, Bytes.ofNat_ne_nil]) ?_ ?_ ?_
  · refine List.forall_mem_append.mpr ⟨hwords, fun b hb => ?_⟩
    have := hdigit hb
    omega
  · rintro b ⟨⟩
    decide
  · intro b hb
    rw [ResponseError.message, List.getLast?_append_of_ne_nil _ (Bytes.ofNat_ne_nil _)] at hb
    rintro rfl
    exact absurd (hdigit (List.mem_of_getLast? hb)) (by decide)

/-- An answer with a status other than zero or an error text is a failure whose text is presentable:
something is there, without blanks around it, it is not changed by being made fit once more, and its
control characters are line feeds, tabs and those behind ASCII that the error text has between its
blanks. -/
theorem presentable_of_failure {status : UInt8} {payload : Bytes} {v : Json}
    (hread : (Json.readWhole? payload).map (Json.conform responseShape) = some (.ok v))
    (hfailed : status ≠ 0 ∨ (v.get "error").asText ≠ []) :
    ∃ e, decodeResponse status payload = .error e ∧ Presentable e.message
      ∧ ∀ c, isLateControl c = true →
        (c ∈ Utf8.chars e.message ↔ c ∈ trimBlanks (Utf8.chars (v.get "error").asText)) := by
  have hcond : (status != 0 || !(v.get "error").asText.isEmpty) = true := by
    simpa [List.isEmpty_eq_false_iff] using hfailed
  rw [decodeResponse, hread]
  dsimp only
  rw [if_pos hcond]
  refine ⟨_, rfl, ?_⟩
  by_cases hshown : sanitize (v.get "error").asText = []
  · obtain ⟨hstatus, hnone⟩ := presentable_status status
    rw [hshown, List.isEmpty_nil, if_pos rfl]
    refine ⟨hstatus, fun c hc => iff_of_false (fun hmem => ?_) fun hmem => ?_⟩
    · rw [hnone c hmem] at hc
      cases hc
    · -- it would be shown
      rw [← mem_sanitize_iff hc, hshown] at hmem
      cases hmem
  · rw [if_neg (by simpa using hshown)]
    exact ⟨presentable_sanitize hshown, fun c hc => mem_sanitize_iff hc⟩

/-- An error text with the introducer of a terminal sequence, which is shown with it; the bell behind
the sequence is masked. -/
theorem presentable_of_failure_introducer :
    let payload : Bytes := "\x7b\"error\":\" x\\u009b2J\\u0007 \"\x7d"
    ∃ v, (Json.readWhole? payload).map (Json.conform responseShape) = some (.ok v)
      ∧ (v.get "error").asText ≠ []
      ∧ decodeResponse 0 payload = .error (.reported "x\u009b2J\ufffd")
      ∧ Presentable "x\u009b2J\ufffd"
      ∧ Char.ofNat 0x9B ∈ trimBlanks (Utf8.chars (v.get "error").asText) := by
  intro payload
  have hany : ((Json.readWhole? payload).map (Json.conform responseShape)).any
      (·.toOption.any fun v => !(v.get "error").asText.isEmpty) = true := by decide +kernel
  obtain ⟨f | v, hread, hv⟩ := (Option.any_eq_true _ _).mp hany
  · cases hv
  have hreport : (v.get "error").asText ≠ [] := by simpa [Except.toOption] using hv
  -- the text is read by the kernel; that the control stays is the theorem
  have hdecode : decodeResponse 0 payload = .error (.reported "x\u009b2J\ufffd") := by
    decide +kernel
  obtain ⟨e, he, hpresentable, hlate⟩ := presentable_of_failure hread (.inr hreport)
  obtain rfl : e = .reported "x\u009b2J\ufffd" := Except.error.inj (he.symm.trans hdecode)
  have hmem : Char.ofNat 0x9B ∈ Utf8.chars "x\u009b2J\ufffd" := by decide +kernel
  exact ⟨v, hread, hreport, hdecode, hpresentable, (hlate _ (by decide)).mp hmem⟩

end Plugin

end Idl
