import Idl.Proofs.Text.Utf8
import Idl.Token.Scan
import Mathlib.Data.List.TakeWhile

/-!
# Sources that are not UTF-8

A source that is not UTF-8 is the octets of some characters, the longest there are, and then an
octet that begins no character. The error about it stands behind those characters; but where a
replacement character is among them, it stands in front of the first one, which is well formed.

* §1 the characters in front, §2 where the error is.
-/

namespace Idl

namespace Utf8

/-! ## §1 The characters in front -/

theorem ofChars_append (l m : List Char) : ofChars (l ++ m) = ofChars l ++ ofChars m :=
  List.flatMap_append

theorem glyphs_ofChars_append (l : List Char) (r : Bytes) :
    glyphs (ofChars l ++ r) = l.map .char ++ glyphs r := by
  induction l with
  | nil => rfl
  | cons c l ih =>
    rw [ofChars, List.flatMap_cons, List.append_assoc, glyphs_ofChar_append, ← ofChars, ih]
    rfl

/-- A text is the octets of some characters, and then the end or an octet that begins none. -/
theorem exists_ofChars_append (b : Bytes) :
    ∃ l r, b = ofChars l ++ r ∧ (r = [] ∨ ∃ a s, glyphs r = .stray a :: s) := by
  induction hn : b.length using Nat.strongRecOn generalizing b with
  | ind n ih =>
    cases b with
    | nil => exact ⟨[], [], rfl, .inl rfl⟩
    | cons a t =>
      -- a character in front, or a stray byte, where the text ends
      rcases first_cases a t with ⟨c, k, -, -, hoctets⟩ | hstray
      · have hless : (t.drop k).length < n := by
          rw [← hn, List.length_drop, List.length_cons]
          omega
        obtain ⟨l, r, hrest, hend⟩ := ih _ hless _ rfl
        refine ⟨c :: l, r, ?_, hend⟩
        calc a :: t = a :: t.take k ++ t.drop k := by
              rw [List.cons_append, List.take_append_drop]
          _ = ofChar c ++ (ofChars l ++ r) := by rw [hoctets, hrest]
          _ = ofChars (c :: l) ++ r := (List.append_assoc _ _ _).symm
      · exact ⟨[], a :: t, rfl, .inr ⟨a, _, by rw [glyphs_cons, hstray]⟩⟩

/-- In front of an octet that begins no character there are no more characters than those. -/
theorem isPrefix_of_stray {l m : List Char} {r : Bytes} {a : UInt8} {s : List Glyph}
    (hstray : glyphs r = .stray a :: s) (h : ofChars m <+: ofChars l ++ r) : m <+: l := by
  obtain ⟨t, ht⟩ := h
  have hglyphs := congrArg glyphs ht
  rw [glyphs_ofChars_append, glyphs_ofChars_append, hstray] at hglyphs
  have hinjective : Function.Injective Glyph.char := fun _ _ h => Glyph.char.inj h
  -- the characters end within the text, or would go over the stray byte
  rcases List.append_eq_append_iff.mp hglyphs with ⟨u, hl, -⟩ | ⟨u, hm, hu⟩
  · exact (List.prefix_map_iff_of_injective hinjective).mp ⟨u, hl.symm⟩
  · cases u with
    | nil =>
      rw [List.append_nil] at hm
      exact (List.prefix_map_iff_of_injective hinjective).mp ⟨[], by rw [hm, List.append_nil]⟩
    | cons g u =>
      rw [List.cons_append] at hu
      have hg : g ∈ m.map Glyph.char := hm ▸ List.mem_append_right _ List.mem_cons_self
      obtain ⟨c, -, rfl⟩ := List.mem_map.mp hg
      cases (List.cons.inj hu).1

end Utf8

/-! ## §2 Where the error is -/

/-- The character that takes the place of what cannot be read. -/
def replacement : Char := Char.ofNat 0xFFFD

/-- The characters before the first replacement are those of the text itself. -/
theorem takeWhile_octets (l : List Char) {r : Bytes} {a : UInt8} {s : List Glyph}
    (hstray : Utf8.glyphs r = .stray a :: s) :
    ((Utf8.glyphs (Utf8.ofChars l ++ r)).takeWhile fun g => g.toChar.toNat != 0xFFFD)
      = (l.takeWhile (· != replacement)).map .char := by
  rw [Utf8.glyphs_ofChars_append, hstray]
  induction l with
  | nil => rfl
  | cons c l ih =>
    -- the character is told by its number
    have hsame : (c.toNat != 0xFFFD) = (c != replacement) := by
      rw [Bool.eq_iff_iff, bne_iff_ne, bne_iff_ne, Ne, Ne, not_iff_not]
      exact ⟨fun h => Char.toNat_inj.mp h, fun h => h ▸ rfl⟩
    rw [List.map_cons, List.cons_append, List.takeWhile_cons, List.takeWhile_cons, ih]
    simp only [Glyph.toChar, hsame]
    split
    · rfl
    · rfl

/-- The error comes behind the characters up to the first replacement character. -/
theorem replacementOffset_eq (l : List Char) {r : Bytes} {a : UInt8} {s : List Glyph}
    (hstray : Utf8.glyphs r = .stray a :: s) :
    replacementOffset (Utf8.ofChars l ++ r)
      = (Utf8.ofChars (l.takeWhile (· != replacement))).length := by
  unfold replacementOffset
  simp only [takeWhile_octets l hstray, List.flatMap_map]
  rfl

/-- These are all the characters where no replacement character is among them. -/
theorem length_takeWhile_replacement (l : List Char) :
    (Utf8.ofChars (l.takeWhile (· != replacement))).length = (Utf8.ofChars l).length
      ↔ replacement ∉ l := by
  -- nothing is cut off exactly where no replacement stands
  have hself : l.takeWhile (· != replacement) = l ↔ replacement ∉ l := by
    rw [List.takeWhile_eq_self_iff]
    constructor
    · intro h hmem
      exact absurd (h _ hmem) (by decide)
    · intro h c hc
      rw [bne_iff_ne]
      rintro rfl
      exact h hc
  rw [← hself]
  constructor
  · intro hlength
    -- a prefix of the same length is the whole
    have hprefix : Utf8.ofChars (l.takeWhile (· != replacement)) <+: Utf8.ofChars l := by
      obtain ⟨t, ht⟩ := List.takeWhile_prefix (p := (· != replacement)) (l := l)
      exact ⟨Utf8.ofChars t, by rw [← Utf8.ofChars_append, ht]⟩
    rw [← Utf8.chars_ofChars (l.takeWhile _), hprefix.eq_of_length hlength, Utf8.chars_ofChars]
  · intro h
    rw [h]

/-- A source that is not UTF-8 and not too long is refused with an error of one octet. It stands
behind the longest well-formed text in front, or at the first replacement character of that text. -/
theorem lex_of_ill_formed {src : Bytes} (hsize : src.length ≤ maxSourceSize)
    (hill : ∀ l, src ≠ Utf8.ofChars l) :
    ∃ l, Utf8.ofChars l <+: src
      ∧ (∀ m, Utf8.ofChars m <+: src → (Utf8.ofChars m).length ≤ (Utf8.ofChars l).length)
      ∧ ∃ e, lex src = .error e ∧ e.cause.code = 1001
        ∧ e.span = ⟨(Utf8.ofChars (l.takeWhile (· != replacement))).length, 1⟩
        ∧ e.pos = Pos.ofOffset src e.span.start
        ∧ (e.span.start = (Utf8.ofChars l).length ↔ replacement ∉ l) := by
  obtain ⟨l, r, rfl, hend⟩ := Utf8.exists_ofChars_append src
  obtain rfl | ⟨a, s, hstray⟩ := hend
  · exact absurd (List.append_nil _) (hill l)
  -- a stray byte stands behind the characters, so the source is refused
  have hvalid : Utf8.isValid (Utf8.ofChars l ++ r) = false := by
    rw [Utf8.isValid, Utf8.glyphs_ofChars_append, hstray]
    simp
  let offset := (Utf8.ofChars (l.takeWhile (· != replacement))).length
  refine ⟨l, List.prefix_append _ _, fun m hm => ?_,
    ⟨.invalidUtf8, ⟨offset, 1⟩, .ofOffset _ offset⟩, ?_, rfl, rfl, rfl, ?_⟩
  · -- the text in front of the stray byte is the longest one
    obtain ⟨t, rfl⟩ := Utf8.isPrefix_of_stray hstray hm
    rw [Utf8.ofChars_append, List.length_append]
    exact Nat.le_add_right _ _
  · rw [lex, if_neg (by omega), if_pos (by rw [hvalid]; rfl), replacementOffset_eq l hstray]
  · exact length_takeWhile_replacement l

/-- A replacement character and then an octet that begins no character: the error stands at the
character. -/
theorem lex_of_ill_formed_behind_replacement :
    (∃ e, lex [0xEF, 0xBF, 0xBD, 0xFF] = .error e ∧ e.span = ⟨0, 1⟩)
      ∧ ∃ l, Utf8.ofChars l <+: [0xEF, 0xBF, 0xBD, 0xFF] ∧ 3 ≤ (Utf8.ofChars l).length := by
  obtain ⟨l, hl, hlongest, e, herror, -, -, -, -⟩ :=
    @lex_of_ill_formed [0xEF, 0xBF, 0xBD, 0xFF] (by decide) (by
      intro l h
      have hvalid := Utf8.isValid_ofChars l
      rw [← h] at hvalid
      exact absurd hvalid (by decide))
  refine ⟨⟨e, herror, ?_⟩, l, hl, hlongest [replacement] ⟨[0xFF], by decide⟩⟩
  have hlex : lex [0xEF, 0xBF, 0xBD, 0xFF] = .error ⟨.invalidUtf8, ⟨0, 1⟩, ⟨1, 1⟩⟩ := rfl
  cases hlex.symm.trans herror
  rfl

end Idl
