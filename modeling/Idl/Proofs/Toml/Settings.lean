import Idl.Proofs.Json.Strings
import Idl.Proofs.Token.Positions
import Idl.Toml.Read

/-!
# Settings that are read back

Texts and lists of texts are read back as they are written, and so is a document that is a comment
and lines with a key and a value each.

* §1 well-formed texts, §2 strings, §3 lists, §4 lines, §5 documents.
-/

namespace Idl

namespace Toml

/-! ## §1 Well-formed texts -/

open Utf8 (isValid isValid_append_of isValid_of_ascii)

/-- An octet is written as it is, by a letter after a backslash, or by its number; one outside ASCII
is written as it is, and the others in ASCII. -/
theorem writeOctet_ofNat : ∀ n < 256,
    ((writeOctet (UInt8.ofNat n) = [UInt8.ofNat n] ∧ UInt8.ofNat n ≠ 0x22 ∧ UInt8.ofNat n ≠ 0x5C
        ∧ isControlOctet (UInt8.ofNat n) = false)
      ∨ n = 0x22 ∨ n = 0x5C ∨ n = 8 ∨ n = 9 ∨ n = 10 ∨ n = 12 ∨ n = 13
      ∨ (writeOctet (UInt8.ofNat n) = 0x5C :: 0x75 :: Bytes.hexDigits 4 n ∧ n < 0x80))
    ∧ (0x80 ≤ n → writeOctet (UInt8.ofNat n) = [UInt8.ofNat n])
    -- what is written is gone through as a list, not by what its type holds
    ∧ (n < 0x80 → (writeOctet (UInt8.ofNat n)).all (fun b => decide (b.toNat < 0x80)) = true) := by
  decide +kernel

theorem writeOctet_of_le {c : UInt8} (h : 0x80 ≤ c.toNat) : writeOctet c = [c] := by
  simpa using (writeOctet_ofNat c.toNat c.toNat_lt).2.1 h

theorem ascii_writeOctet {c : UInt8} (h : c.toNat < 0x80) : ∀ b ∈ writeOctet c, b.toNat < 0x80 := by
  simpa using (writeOctet_ofNat c.toNat c.toNat_lt).2.2 h

/-- A text is written in UTF-8 if it is UTF-8. -/
theorem isValid_flatMap_writeOctet {s : Bytes} (h : isValid s = true) :
    isValid (s.flatMap writeOctet) = true := by
  obtain ⟨l, rfl⟩ : ∃ l, s = Utf8.ofChars l := ⟨_, (Utf8.ofChars_chars h).symm⟩
  clear h
  induction l with
  | nil => rfl
  | cons c l ih =>
    have hcons : Utf8.ofChars (c :: l) = Utf8.ofChar c ++ Utf8.ofChars l := rfl
    rw [hcons, List.flatMap_append]
    refine isValid_append_of ?_ ih
    rcases Utf8.ofChar_cases c with ⟨hascii, hchar⟩ | ⟨-, htail⟩
    · -- an ASCII character is written as itself or as an escape
      refine isValid_of_ascii fun b hb => ?_
      rw [hchar, List.flatMap_singleton] at hb
      refine ascii_writeOctet ?_ b hb
      rw [Utf8.toNat_octet (by omega)]
      exact hascii
    · -- the octets of any other character are written as they are
      have hsame : (Utf8.ofChar c).flatMap writeOctet = Utf8.ofChar c := by
        rw [List.flatMap_congr fun b hb => writeOctet_of_le (htail b hb)]
        simp
      rw [hsame]
      simpa [Utf8.ofChars] using Utf8.isValid_ofChars [c]

theorem isValid_writeText {s : Bytes} (h : isValid s = true) : isValid (writeText s) = true := by
  have hquote : isValid [0x22] = true := by decide
  exact isValid_append_of hquote (isValid_append_of (isValid_flatMap_writeOctet h) hquote)

/-- A list of valid texts is written in valid text. -/
theorem isValid_writeTexts {l : List Bytes} (h : ∀ s ∈ l, isValid s = true) :
    isValid (writeTexts l) = true := by
  refine isValid_append_of (isValid_append_of (by decide) ?_) (by decide)
  induction l with
  | nil => rfl
  | cons s r ih =>
    obtain ⟨hs, hr⟩ := List.forall_mem_cons.mp h
    -- the last text is followed by no comma
    cases r with
    | nil => simpa [Bytes.join] using isValid_writeText hs
    | cons t r =>
      have ih := ih hr
      simp only [Bytes.join, List.map_cons, List.intercalate_cons_cons] at ih ⊢
      exact isValid_append_of (isValid_append_of (isValid_writeText hs) (by decide)) ih

/-! ## §2 Strings -/

/-- An octet is written as it is, or by an escape that stands for it. -/
theorem writeOctet_cases (c : UInt8) :
    writeOctet c = [c] ∧ c ≠ 0x22 ∧ c ≠ 0x5C ∧ isControlOctet c = false
      ∨ ∃ t, writeOctet c = 0x5C :: t ∧ ∀ rest, escape? (t ++ rest) = some ([c], t.length) := by
  have hc : UInt8.ofNat c.toNat = c := by simp
  rcases (writeOctet_ofNat c.toNat c.toNat_lt).1 with h | h | h | h | h | h | h | h | ⟨h, hlt⟩
  · rw [hc] at h
    exact .inl h
  all_goals rw [← hc]; right
  · rw [h]
    exact ⟨[0x22], rfl, fun _ => rfl⟩
  · rw [h]
    exact ⟨[0x5C], rfl, fun _ => rfl⟩
  · rw [h]
    exact ⟨[0x62], rfl, fun _ => rfl⟩
  · rw [h]
    exact ⟨[0x74], rfl, fun _ => rfl⟩
  · rw [h]
    exact ⟨[0x6E], rfl, fun _ => rfl⟩
  · rw [h]
    exact ⟨[0x66], rfl, fun _ => rfl⟩
  · rw [h]
    exact ⟨[0x72], rfl, fun _ => rfl⟩
  -- any other control octet is written by its number
  · refine ⟨0x75 :: Bytes.hexDigits 4 c.toNat, h, fun rest => ?_⟩
    have hlength := Bytes.length_hexDigits 4 c.toNat
    have hdigits : (Bytes.hexDigits 4 c.toNat).all Bytes.isHexDigit = true :=
      List.all_eq_true.mpr fun b => Bytes.isHexDigit_of_mem_hexDigits
    have hnumber : Bytes.toNat 16 (Bytes.hexDigits 4 c.toNat) = c.toNat := by
      rw [Bytes.toNat_hexDigits, Nat.mod_eq_of_lt (by omega)]
    have hchar : Utf8.ofChar (Char.ofNat c.toNat) = [UInt8.ofNat c.toNat] := by
      have hchars := Utf8.ofChars_ascii (b := [c]) (by simpa using hlt)
      simpa [Utf8.ofChars] using hchars
    have hof : charOf? (Bytes.hexDigits 4 c.toNat ++ rest) 4 = some [UInt8.ofNat c.toNat] := by
      rw [charOf?, List.take_left' hlength, if_pos, hnumber, hchar]
      simp only [hlength, hdigits, hnumber, Bool.and_eq_true, Bool.or_eq_true, decide_eq_true_eq]
      exact ⟨⟨rfl, trivial⟩, .inl (by omega)⟩
    change (charOf? (Bytes.hexDigits 4 c.toNat ++ rest) 4).map (·, 5) = _
    rw [hof, List.length_cons, hlength]
    rfl

theorem basic?_skip (skipped acc rest : Bytes) :
    basic? skipped.length acc (skipped ++ rest) = basic? 0 acc rest := by
  induction skipped with
  | nil => rfl
  | cons c r ih => exact ih

theorem basic?_writeOctet (c : UInt8) (acc rest : Bytes) :
    basic? 0 acc (writeOctet c ++ rest) = basic? 0 (c :: acc) rest := by
  rcases writeOctet_cases c with ⟨hc, hquote, hslash, hcontrol⟩ | ⟨t, ht, hescape⟩
  · rw [hc, List.singleton_append, basic?]
    simp [hquote, hslash, hcontrol]
  · rw [ht, List.cons_append, basic?]
    simpa [hescape] using basic?_skip t (c :: acc) rest

theorem basic?_flatMap (s acc rest : Bytes) :
    basic? 0 acc (s.flatMap writeOctet ++ 0x22 :: rest) = some (acc.reverse ++ s, rest) := by
  induction s generalizing acc with
  | nil => simp [basic?]
  | cons c r ih =>
    rw [List.flatMap_cons, List.append_assoc, basic?_writeOctet, ih]
    simp

/-- A text is read back, if it is not followed by one more quote. -/
theorem string?_writeText (s : Bytes) {rest : Bytes} (hrest : rest.head? ≠ some 0x22) :
    string? true (writeText s ++ rest) = some (s, rest) := by
  have hbasic := basic?_flatMap s [] rest
  rw [List.reverse_nil, List.nil_append] at hbasic
  have htext : writeText s ++ rest = 0x22 :: (s.flatMap writeOctet ++ 0x22 :: rest) := by
    simp [writeText]
  rw [htext, string?]
  · exact hbasic
  · -- a text that is not empty does not begin with a quote
    intro r _ hthree
    cases s with
    | nil => exact hrest (by rw [(List.cons.inj hthree).2]; rfl)
    | cons c s =>
      rw [List.flatMap_cons, List.append_assoc] at hthree
      rcases writeOctet_cases c with ⟨hc, hquote, -⟩ | ⟨t, ht, -⟩
      · rw [hc] at hthree
        exact hquote (List.cons.inj hthree).1
      · rw [ht] at hthree
        cases (List.cons.inj hthree).1

/-! ## §3 Lists -/

/-- An octet at which a reader of lines stops. -/
def Stops (c : UInt8) : Prop := isBlank c = false ∧ c ≠ 0x23 ∧ c ≠ 0x0A ∧ c ≠ 0x0D

instance (c : UInt8) : Decidable (Stops c) :=
  inferInstanceAs (Decidable (isBlank c = false ∧ c ≠ 0x23 ∧ c ≠ 0x0A ∧ c ≠ 0x0D))

theorem skipBlanks_cons {c : UInt8} (h : isBlank c = false) (r : Bytes) :
    skipBlanks (c :: r) = c :: r := by simp [skipBlanks, h]

theorem skipComment?_cons {c : UInt8} (h : isBlank c = false) (hc : c ≠ 0x23) (r : Bytes) :
    skipComment? (c :: r) = some (c :: r) := by
  rw [skipComment?, skipBlanks_cons h]
  split
  · next heq => exact absurd (List.cons.inj heq).1 hc
  · rfl

theorem skipLines_cons {c : UInt8} (h : Stops c) (fuel : Nat) (r : Bytes) :
    skipLines fuel (c :: r) = some (c :: r) := by
  cases fuel with
  | zero => rfl
  | succ fuel =>
    obtain ⟨hblank, hhash, hbreak, hreturn⟩ := h
    rw [skipLines, skipComment?_cons hblank hhash]
    simp only [bind, Option.bind]
    split
    · -- the line does not end here, by either kind of line break
      next heq => exact absurd (List.cons.inj heq).1 hbreak
    · next heq => exact absurd (List.cons.inj heq).1 hreturn
    · rfl

theorem skipLines_space {c : UInt8} (h : Stops c) (fuel : Nat) (r : Bytes) :
    skipLines (fuel + 1) (0x20 :: c :: r) = some (c :: r) := skipLines_cons h (fuel + 1) r

/-- A reader of lines skips a blank in front of a text. -/
theorem skipLines_writeText {blank : Bytes} (hblank : blank = [] ∨ blank = [0x20])
    (s rest : Bytes) : skipLines (blank ++ (writeText s ++ rest)).length (blank ++ (writeText s ++ rest))
      = some (writeText s ++ rest) := by
  have hquote : Stops 0x22 := by decide
  obtain rfl | rfl := hblank
  · exact skipLines_cons hquote _ _
  · exact skipLines_space hquote _ _

theorem value?_writeText (fuel : Nat) (s : Bytes) {rest : Bytes} (hrest : rest.head? ≠ some 0x22) :
    value? (fuel + 1) (writeText s ++ rest) = some (.str s, rest) := by
  have hstring := string?_writeText s hrest
  change (string? true (writeText s ++ rest)).map _ = _
  rw [hstring]
  rfl

section

variable {blank : Bytes} (hblank : blank = [] ∨ blank = [0x20])

include hblank

theorem items?_last (fuel : Nat) (s rest : Bytes) :
    items? (fuel + 2) (blank ++ (writeText s ++ 0x5D :: rest)) = some ([.str s], rest) := by
  rw [items?, skipLines_writeText hblank]
  change (value? (fuel + 1) (writeText s ++ 0x5D :: rest)).bind _ = _
  rw [value?_writeText fuel s (by simp)]
  simp only [Option.bind_some, Option.bind_eq_bind, skipLines_cons (show Stops 0x5D by decide)]
  rfl

theorem items?_cons {fuel : Nat} (s : Bytes) {more rest : Bytes} {l : List Toml}
    (h : items? (fuel + 1) more = some (l, rest)) :
    items? (fuel + 2) (blank ++ (writeText s ++ 0x2C :: more)) = some (.str s :: l, rest) := by
  rw [items?, skipLines_writeText hblank]
  change (value? (fuel + 1) (writeText s ++ 0x2C :: more)).bind _ = _
  rw [value?_writeText fuel s (by simp)]
  simp only [Option.bind_some, Option.bind_eq_bind, skipLines_cons (show Stops 0x2C by decide)]
  rw [h]
  rfl

end

/-- The items of a list, from after the bracket or, with a blank in front, a comma. -/
theorem items?_join (s : Bytes) (l : List Bytes) {blank : Bytes}
    (hblank : blank = [] ∨ blank = [0x20]) {fuel : Nat} (hfuel : l.length + 2 ≤ fuel)
    (rest : Bytes) :
    items? fuel (blank ++ (Bytes.join ", " ((s :: l).map writeText) ++ 0x5D :: rest))
      = some ((s :: l).map .str, rest) := by
  -- one round for each text, and the last ones for the bracket
  obtain ⟨fuel, rfl⟩ : ∃ n, fuel = n + 2 := ⟨fuel - 2, by omega⟩
  induction l generalizing s blank fuel with
  | nil =>
    rw [List.map_singleton, Bytes.join, List.intercalate_singleton]
    exact items?_last hblank fuel s rest
  | cons t r ih =>
    obtain ⟨fuel, rfl⟩ : ∃ n, fuel = n + 1 := ⟨fuel - 1, by simp at hfuel; omega⟩
    have hless : r.length + 2 ≤ fuel + 2 := by simp at hfuel; omega
    have hmore := ih t (.inr rfl) fuel hless
    have hjoin : Bytes.join ", " ((s :: t :: r).map writeText) ++ 0x5D :: rest
        = writeText s ++ 0x2C
          :: ([0x20] ++ (Bytes.join ", " ((t :: r).map writeText) ++ 0x5D :: rest)) := by
      simp only [Bytes.join, List.map_cons, List.intercalate_cons_cons, List.append_assoc]
      rfl
    rw [hjoin]
    exact items?_cons hblank s hmore

/-- A list takes at least as many bytes as it has texts. -/
theorem length_le_join (l : List Bytes) :
    l.length ≤ (Bytes.join ", " (l.map writeText)).length := by
  induction l with
  | nil => simp
  | cons s r ih =>
    cases r with
    | nil => simp [Bytes.join, writeText]
    | cons t r =>
      simp only [Bytes.join, List.map_cons, List.intercalate_cons_cons, List.length_append,
        List.length_cons] at ih ⊢
      -- each text has its two marks
      have hlength : (writeText s).length ≠ 0 := by simp [writeText]
      omega

/-- A list of texts is read back. -/
theorem value?_writeTexts (l : List Bytes) {fuel : Nat} (hfuel : l.length + 2 ≤ fuel)
    (rest : Bytes) : value? (fuel + 1) (writeTexts l ++ rest) = some (.arr (l.map .str), rest) := by
  have htext : writeTexts l ++ rest
      = 0x5B :: (Bytes.join ", " (l.map writeText) ++ 0x5D :: rest) := by
    simp only [writeTexts, List.append_assoc]
    rfl
  have hitems : items? fuel (Bytes.join ", " (l.map writeText) ++ 0x5D :: rest)
      = some (l.map .str, rest) := by
    cases l with
    -- nothing between the brackets
    | nil =>
      obtain ⟨fuel, rfl⟩ : ∃ n, fuel = n + 1 := ⟨fuel - 1, by simp at hfuel; omega⟩
      change items? (fuel + 1) (0x5D :: rest) = _
      rw [items?, skipLines_cons (by decide)]
      rfl
    | cons s r => exact items?_join s r (.inl rfl) (by simp at hfuel; omega) rest
  rw [htext]
  change (items? fuel (Bytes.join ", " (l.map writeText) ++ 0x5D :: rest)).map _ = _
  rw [hitems]
  rfl

/-! ## §4 Lines -/

/-- What a key can be set to, as text and as value. -/
inductive Simple : Bytes → Toml → Prop
  | text (s : Bytes) : Simple (writeText s) (.str s)
  | texts (l : List Bytes) : Simple (writeTexts l) (.arr (l.map .str))

/-- A value is read up to the end of its line. -/
theorem Simple.value? {b : Bytes} {v : Toml} (h : Simple b v) {fuel : Nat} {rest : Bytes}
    (hfuel : b.length < fuel) : value? (fuel + 1) (b ++ 0x0A :: rest) = some (v, 0x0A :: rest) := by
  cases h with
  | text s => exact value?_writeText fuel s (by simp)
  | texts l =>
    refine value?_writeTexts l ?_ _
    -- the fuel is enough for the texts of the list, since each takes a byte
    have hlength : (writeTexts l).length = (Bytes.join ", " (l.map writeText)).length + 2 := by
      have hopen : ("[" : Bytes).length = 1 := rfl
      have hclose : ("]" : Bytes).length = 1 := rfl
      rw [writeTexts, List.length_append, List.length_append, hopen, hclose]
      omega
    have := length_le_join l
    omega

theorem Simple.exists_cons {b : Bytes} {v : Toml} (h : Simple b v) :
    ∃ c r, b = c :: r ∧ isBlank c = false := by
  cases h with
  | text s => exact ⟨0x22, _, rfl, rfl⟩
  | texts l => exact ⟨0x5B, _, rfl, rfl⟩

/-- A key that needs no quotes. -/
structure IsBareKey (k : Bytes) : Prop where
  nonempty : k ≠ []
  octets : ∀ c ∈ k, isBareKeyOctet c = true

theorem isBlank_of_isBareKeyOctet {c : UInt8} (h : isBareKeyOctet c = true) :
    c.toNat < 0x80 ∧ isBlank c = false ∧ c ≠ 0x22 ∧ c ≠ 0x27 ∧ c ≠ 0x5B ∧ Stops c := by
  have hall : ∀ n < 256, isBareKeyOctet (UInt8.ofNat n) = true → n < 0x80
      ∧ isBlank (UInt8.ofNat n) = false ∧ UInt8.ofNat n ≠ 0x22 ∧ UInt8.ofNat n ≠ 0x27
      ∧ UInt8.ofNat n ≠ 0x5B ∧ Stops (UInt8.ofNat n) := by decide +kernel
  simpa using hall c.toNat c.toNat_lt (by simpa using h)

/-- A line with a key and what it is set to. -/
def settingLine (k b : Bytes) : Bytes := k ++ " = " ++ b ++ "\n"

section

variable {k b : Bytes} {v : Toml} (hk : IsBareKey k) (hv : Simple b v)

include hk

/-- A bare key is read up to the blank behind it. -/
theorem key?_bare (fuel : Nat) (rest : Bytes) :
    key? (fuel + 1) (k ++ (" = " ++ rest)) = some ([k], 0x3D :: 0x20 :: rest) := by
  obtain ⟨c, r, rfl⟩ := List.exists_cons_of_ne_nil hk.nonempty
  obtain ⟨-, hblank, hquote, hapostrophe, -, -⟩ :=
    isBlank_of_isBareKeyOctet (hk.octets c (List.mem_cons_self ..))
  have hspace : isBareKeyOctet 0x20 = false := by decide
  -- a blank is no part of a bare key
  have htake : (c :: r ++ (" = " ++ rest)).takeWhile isBareKeyOctet = c :: r := by
    rw [List.takeWhile_append_of_pos hk.octets]
    change c :: r ++ (0x20 :: _).takeWhile isBareKeyOctet = _
    rw [List.takeWhile_cons_of_neg (by simp [hspace]), List.append_nil]
  have hsimple : simpleKey? (c :: r ++ (" = " ++ rest)) = some (c :: r, " = " ++ rest) := by
    rw [List.cons_append, simpleKey?]
    simp only [Bool.or_eq_true, beq_iff_eq, hquote, hapostrophe, or_self, if_false]
    rw [← List.cons_append, htake]
    simp
  have hskip : skipBlanks (c :: r ++ (" = " ++ rest)) = c :: r ++ (" = " ++ rest) :=
    skipBlanks_cons hblank _
  rw [key?, hskip, hsimple]
  rfl

include hv

/-- A line with a setting. -/
theorem line?_setting (rest : Bytes) :
    line? (settingLine k b ++ rest) = some (.setting [k] v, rest) := by
  have htext : settingLine k b ++ rest = k ++ (" = " ++ (b ++ 0x0A :: rest)) := by
    simp only [settingLine, List.append_assoc]
    rfl
  obtain ⟨c, r, rfl⟩ := List.exists_cons_of_ne_nil hk.nonempty
  obtain ⟨-, -, -, -, hbracket, -⟩ :=
    isBlank_of_isBareKeyOctet (hk.octets c (List.mem_cons_self ..))
  obtain ⟨x, y, rfl, hx⟩ := hv.exists_cons
  have hkey := key?_bare hk (c :: r ++ (" = " ++ (x :: y ++ 0x0A :: rest))).length
    (x :: y ++ 0x0A :: rest)
  have hskip : skipBlanks (0x20 :: (x :: y ++ 0x0A :: rest)) = x :: y ++ 0x0A :: rest :=
    skipBlanks_cons hx _
  have hvalue : value? ((0x20 :: (x :: y ++ 0x0A :: rest)).length + 1) (x :: y ++ 0x0A :: rest)
      = some (v, 0x0A :: rest) :=
    hv.value? (by simp only [List.length_cons, List.length_append]; omega)
  rw [htext, List.cons_append, line?]
  · rw [← List.cons_append, hkey]
    simp only [Option.bind_some, Option.bind_eq_bind, hskip, hvalue]
    rfl
  · -- a bare key does not begin with the bracket of a table
    intro r' h
    exact hbracket (List.cons.inj h).1
  · intro r' h
    exact hbracket (List.cons.inj h).1

/-- A setting in front of other lines. -/
theorem lines?_setting (fuel : Nat) (rest : Bytes) :
    lines? (fuel + 1) (settingLine k b ++ rest) = (lines? fuel rest).map (.setting [k] v :: ·) := by
  obtain ⟨c, r, hcons⟩ := List.exists_cons_of_ne_nil hk.nonempty
  obtain ⟨-, hblank, -, -, -, hstops⟩ := isBlank_of_isBareKeyOctet (hk.octets c (by simp [hcons]))
  obtain ⟨r', htext⟩ : ∃ r', settingLine k b ++ rest = c :: r' :=
    ⟨r ++ " = " ++ b ++ "\n" ++ rest, by simp [settingLine, hcons]⟩
  have hskip : skipBlanks (settingLine k b ++ rest) = settingLine k b ++ rest := by
    rw [htext]
    exact skipBlanks_cons hblank r'
  -- there is nothing to skip in front of the key
  have hlines : skipLines (settingLine k b ++ rest).length (settingLine k b ++ rest)
      = some (settingLine k b ++ rest) := by
    rw [htext]
    exact skipLines_cons hstops _ _
  rw [lines?, hlines]
  simp only [Option.bind_some, Option.bind_eq_bind]
  split
  · next hnil => exact absurd (htext.symm.trans hnil) (List.cons_ne_nil _ _)
  · rw [hskip, line?_setting hk hv]
    change (lines? fuel rest).bind _ = _
    cases lines? fuel rest <;> rfl

end

/-! ## §5 Documents -/

/-- The text of settings, a line for each. -/
def settingLines (l : List (Bytes × Bytes)) : Bytes := l.flatMap fun e => settingLine e.1 e.2

/-- Settings with their values. -/
abbrev Valued (l : List (Bytes × Bytes)) (m : Members) : Prop :=
  List.Forall₂ (fun e e' => IsBareKey e.1 ∧ e'.1 = e.1 ∧ Simple e.2 e'.2) l m

/-- The lines of all settings. -/
theorem lines?_settingLines {l : List (Bytes × Bytes)} {m : Members} (h : Valued l m) {fuel : Nat}
    (hfuel : l.length < fuel) :
    lines? fuel (settingLines l) = some (m.map fun e => .setting [e.1] e.2) := by
  induction h generalizing fuel with
  | nil =>
    obtain ⟨fuel, rfl⟩ : ∃ n, fuel = n + 1 := ⟨fuel - 1, by simp at hfuel; omega⟩
    rfl
  | @cons e e' l m he hl ih =>
    obtain ⟨fuel, rfl⟩ : ∃ n, fuel = n + 1 := ⟨fuel - 1, by simp at hfuel; omega⟩
    obtain ⟨k, b⟩ := e
    obtain ⟨k', v⟩ := e'
    obtain ⟨hk, rfl, hv⟩ := he
    -- one line is read, and one unit of fuel is used
    rw [settingLines, List.flatMap_cons, lines?_setting hk hv]
    change (lines? fuel (settingLines l)).map _ = _
    rw [ih (by simpa using hfuel)]
    rfl

/-- Settings with different keys all become members. -/
theorem foldlM_add {m before : Members} (hnodup : ((before ++ m).map (·.1)).Nodup) :
    (m.map fun e => Line.setting [e.1] e.2).foldlM Draft.add ⟨[], before⟩
      = some ⟨[], before ++ m⟩ := by
  induction m generalizing before with
  | nil => simp
  | cons e r ih =>
    obtain ⟨k, v⟩ := e
    -- the name has not been set before
    have hfresh : before.lookup k = none := by
      rw [List.map_append, List.map_cons] at hnodup
      refine List.lookup_eq_none_iff.mpr fun e he => ?_
      have hne := (List.nodup_append.mp hnodup).2.2 e.1 (List.mem_map_of_mem he) k (by simp)
      simpa using Ne.symm hne
    have hadd : Draft.add ⟨[], before⟩ (.setting [k] v) = some ⟨[], before ++ [(k, v)]⟩ := by
      simp [Draft.add, change, assign, hfresh]
    rw [List.map_cons, List.foldlM_cons, hadd]
    simpa using @ih (before ++ [(k, v)]) (by simpa using hnodup)

/-- What a comment may say. -/
structure IsComment (a : Bytes) : Prop where
  octets : ∀ c ∈ a, isControlOctet c = false
  closed : a.getLast? ≠ some 0x0D

/-- A comment in front of other lines is passed over. -/
theorem lines?_comment {a : Bytes} (ha : IsComment a) (fuel : Nat) {c : UInt8} (hc : Stops c)
    (r : Bytes) :
    lines? (fuel + 1) (0x23 :: (a ++ 0x0A :: c :: r)) = lines? (fuel + 1) (c :: r) := by
  have htake : (a ++ 0x0A :: c :: r).takeWhile (· != 0x0A) = a := by
    have hall : ∀ x ∈ a, (x != 0x0A) = true := by
      intro x hx
      have hcontrol := ha.octets x hx
      rw [bne_iff_ne]
      rintro rfl
      exact absurd hcontrol (by decide)
    rw [List.takeWhile_append_of_pos hall, List.takeWhile_cons_of_neg (by simp), List.append_nil]
  -- no carriage return is taken off its end
  have htrim : Bytes.trimEnd a [0x0D] = a := by
    rw [Bytes.trimEnd, if_neg]
    rw [Bytes.endsWith, List.isSuffixOf_iff_suffix]
    rintro ⟨b, rfl⟩
    exact ha.closed (by simp)
  have hcomment : skipComment? (0x23 :: (a ++ 0x0A :: c :: r)) = some (0x0A :: c :: r) := by
    have hany : a.any isControlOctet = false := List.any_eq_false.mpr (by simpa using ha.octets)
    rw [skipComment?, skipBlanks_cons (by decide)]
    simp only [htake, htrim, hany]
    simp
  have hskip : skipLines (0x23 :: (a ++ 0x0A :: c :: r)).length (0x23 :: (a ++ 0x0A :: c :: r))
      = some (c :: r) := by
    rw [List.length_cons, skipLines, hcomment]
    exact skipLines_cons hc _ r
  rw [lines?, lines?, hskip, skipLines_cons hc]

theorem isValid_settingLines {l : List (Bytes × Bytes)}
    (h : ∀ e ∈ l, IsBareKey e.1 ∧ isValid e.2 = true) : isValid (settingLines l) = true := by
  induction l with
  | nil => rfl
  | cons e r ih =>
    obtain ⟨⟨hk, hb⟩, hr⟩ := List.forall_mem_cons.mp h
    have hkey : isValid e.1 = true :=
      isValid_of_ascii fun c hc => (isBlank_of_isBareKeyOctet (hk.octets c hc)).1
    rw [settingLines, List.flatMap_cons]
    refine isValid_append_of ?_ (ih hr)
    exact isValid_append_of (isValid_append_of (isValid_append_of hkey (by decide)) hb) (by decide)

/-- A document with settings of different keys below a comment is read. -/
theorem read?_settingLines {a : Bytes} (ha : IsComment a) (hascii : isValid a = true)
    {l : List (Bytes × Bytes)} {m : Members} (hne : l ≠ []) (h : Valued l m)
    (hvalid : ∀ e ∈ l, isValid e.2 = true) (hnodup : (m.map (·.1)).Nodup) :
    read? (0x23 :: (a ++ 0x0A :: settingLines l)) = some m := by
  -- each line begins with a bare key, so the comment in front of them ends at its own line end
  have hkeys : ∀ e ∈ l, IsBareKey e.1 := by
    clear * - h
    induction h with
    | nil => simp
    | cons he hl ih => exact List.forall_mem_cons.mpr ⟨he.1, ih⟩
  have hwhole : isValid (0x23 :: (a ++ 0x0A :: settingLines l)) = true := by
    refine isValid_append_of (a := [0x23]) (by decide) (isValid_append_of hascii ?_)
    exact isValid_append_of (a := [0x0A]) (by decide)
      (isValid_settingLines fun e he => ⟨hkeys e he, hvalid e he⟩)
  obtain ⟨c, r, hcons, hc⟩ : ∃ c r, settingLines l = c :: r ∧ Stops c := by
    obtain ⟨e, r, rfl⟩ := List.exists_cons_of_ne_nil hne
    have hk := hkeys e (List.mem_cons_self ..)
    obtain ⟨c, k, hkc⟩ := List.exists_cons_of_ne_nil hk.nonempty
    refine ⟨c, k ++ " = " ++ e.2 ++ "\n" ++ settingLines r, ?_, ?_⟩
    · simp [settingLines, settingLine, hkc]
    · exact (isBlank_of_isBareKeyOctet (hk.octets c (by simp [hkc]))).2.2.2.2.2
  -- the fuel is enough, since each line has an octet of its own
  have hlength : l.length < (0x23 :: (a ++ 0x0A :: settingLines l)).length + 1 := by
    have hlines : l.length ≤ (settingLines l).length := by
      clear * -
      induction l with
      | nil => simp
      | cons e r ih =>
        have hbreak : ("\n" : Bytes).length = 1 := rfl
        rw [settingLines, List.flatMap_cons, List.length_append, List.length_cons, settingLine,
          List.length_append, hbreak]
        change r.length ≤ (r.flatMap fun e => settingLine e.1 e.2).length at ih
        omega
    simp only [List.length_cons, List.length_append]
    omega
  have hlines := lines?_settingLines h hlength
  -- the text has no mark in front that would be trimmed
  have htrim : Bytes.trimStart (0x23 :: (a ++ 0x0A :: settingLines l)) byteOrderMark
      = 0x23 :: (a ++ 0x0A :: settingLines l) := by
    rw [Bytes.trimStart, if_neg]
    simp [Bytes.startsWith, byteOrderMark]
  rw [read?, htrim]
  simp only [hwhole, Bool.not_true, Bool.false_eq_true, if_false]
  rw [hcons] at hlines ⊢
  rw [lines?_comment ha _ hc, hlines]
  have hadd := @foldlM_add m [] hnodup
  rw [List.nil_append] at hadd
  change Option.bind (List.foldlM Draft.add ⟨[], []⟩ _) _ = _
  rw [hadd]
  rfl

end Toml

end Idl
