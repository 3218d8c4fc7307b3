import Idl.Text.Utf8
import Mathlib.Data.List.Basic

/-!
# Well-formed text

Reading the octets of code points gives the code points, and a well-formed text consists of the
octets of its code points.

* §1 one code point, §2 texts.
-/

namespace Idl.Utf8

/-! ## §1 One code point -/

theorem ofChar_eq (c : Char) : ofChar c = String.utf8EncodeChar c := by
  simp [ofChar, Bytes.ofString, Char.toString, List.utf8Encode_singleton]

/-- The numbers of code points: surrogates are none. -/
theorem toNat_cases (c : Char) : c.toNat < 0xD800 ∨ 0xDFFF < c.toNat ∧ c.toNat < 0x110000 :=
  c.valid

theorem toNat_charOfNat {n : Nat} (h : n.isValidChar) : (Char.ofNat n).toNat = n := by
  rw [Char.ofNat, dif_pos h]
  rfl

theorem toNat_octet {n : Nat} (h : n < 256) : (UInt8.ofNat n).toNat = n := by
  simp only [UInt8.toNat_ofNat']
  omega

/-- Reading the first octets in numbers. -/
theorem first_eq (a : UInt8) (r : Bytes) :
    first a r =
      if a.toNat < 0x80 then (.char (Char.ofNat a.toNat), 0)
      else if 0xC2 ≤ a.toNat ∧ a.toNat ≤ 0xDF then
        match r with
        | b :: _ =>
          if 0x80 ≤ b.toNat ∧ b.toNat ≤ 0xBF then
            (.char (Char.ofNat ((a.toNat - 0xC0) * 64 + (b.toNat - 0x80))), 1)
          else (.stray a, 0)
        | _ => (.stray a, 0)
      else if 0xE0 ≤ a.toNat ∧ a.toNat ≤ 0xEF then
        match r with
        | b :: c :: _ =>
          if ((a.toNat = 0xE0 → 0xA0 ≤ b.toNat) ∧ 0x80 ≤ b.toNat)
              ∧ ((a.toNat = 0xED → b.toNat ≤ 0x9F) ∧ b.toNat ≤ 0xBF)
              ∧ 0x80 ≤ c.toNat ∧ c.toNat ≤ 0xBF then
            (.char (Char.ofNat (((a.toNat - 0xE0) * 64 + (b.toNat - 0x80)) * 64
              + (c.toNat - 0x80))), 2)
          else (.stray a, 0)
        | _ => (.stray a, 0)
      else if 0xF0 ≤ a.toNat ∧ a.toNat ≤ 0xF4 then
        match r with
        | b :: c :: d :: _ =>
          if ((a.toNat = 0xF0 → 0x90 ≤ b.toNat) ∧ 0x80 ≤ b.toNat)
              ∧ ((a.toNat = 0xF4 → b.toNat ≤ 0x8F) ∧ b.toNat ≤ 0xBF)
              ∧ (0x80 ≤ c.toNat ∧ c.toNat ≤ 0xBF) ∧ 0x80 ≤ d.toNat ∧ d.toNat ≤ 0xBF then
            (.char (Char.ofNat ((((a.toNat - 0xF0) * 64 + (b.toNat - 0x80)) * 64
              + (c.toNat - 0x80)) * 64 + (d.toNat - 0x80))), 3)
          else (.stray a, 0)
        | _ => (.stray a, 0)
      else (.stray a, 0) := by
  have hle {p : Prop} [Decidable p] {i j k : Nat} (h : j ≤ i) :
      (if p then i else j) ≤ k ↔ (p → i ≤ k) ∧ j ≤ k := by
    split <;> simp_all
    omega
  have hge {p : Prop} [Decidable p] {i j k : Nat} (h : i ≤ j) :
      k ≤ (if p then i else j) ↔ (p → k ≤ i) ∧ k ≤ j := by
    split <;> simp_all
    omega
  unfold first
  -- at most the next three octets are looked at
  rcases r with - | ⟨b, - | ⟨c, - | ⟨d, r⟩⟩⟩ <;>
    simp only [isTail, assemble, Bool.and_eq_true, decide_eq_true_eq, UInt8.lt_iff_toNat_lt,
      UInt8.le_iff_toNat_le, UInt8.reduceToNat, List.foldl_cons, List.foldl_nil, beq_iff_eq,
      ← UInt8.toNat_inj, apply_ite UInt8.toNat, hle (show 0x80 ≤ 0xA0 by decide),
      hle (show 0x80 ≤ 0x90 by decide), hge (show 0x9F ≤ 0xBF by decide),
      hge (show 0x8F ≤ 0xBF by decide), and_assoc]

/-- The glyph in front of a text that starts with the octets of a code point. -/
theorem first_ofChar (c : Char) (rest : Bytes) :
    ∃ a t, ofChar c = a :: t ∧ first a (t ++ rest) = (.char c, t.length) := by
  have hvalid := toNat_cases c
  have hof {n : Nat} (h : n = c.toNat) : Char.ofNat n = c := by rw [h, Char.ofNat_toNat]
  have hv : c.val.toNat = c.toNat := rfl
  rw [ofChar_eq, String.utf8EncodeChar]
  simp only [hv]
  generalize c.toNat = n at *
  -- one octet, two, three or four, by the size of the number
  split
  · refine ⟨_, _, rfl, ?_⟩
    rw [first_eq, toNat_octet (by omega), if_pos (by omega), hof rfl]
    rfl
  split
  · refine ⟨_, _, rfl, ?_⟩
    rw [first_eq, toNat_octet (by omega), if_neg (by omega), if_pos (by omega)]
    simp only [List.cons_append]
    rw [toNat_octet (by omega), if_pos (by omega), hof (by omega)]
    rfl
  split
  · refine ⟨_, _, rfl, ?_⟩
    rw [first_eq, toNat_octet (by omega), if_neg (by omega), if_neg (by omega), if_pos (by omega)]
    simp only [List.cons_append]
    rw [toNat_octet (by omega), toNat_octet (by omega),
      if_pos (by omega), hof (by omega)]
    rfl
  · refine ⟨_, _, rfl, ?_⟩
    rw [first_eq, toNat_octet (by omega), if_neg (by omega), if_neg (by omega), if_neg (by omega),
      if_pos (by omega)]
    simp only [List.cons_append]
    rw [toNat_octet (by omega), toNat_octet (by omega), toNat_octet (by omega),
      if_pos (by omega), hof (by omega)]
    rfl

/-- The octets of a code point by its number. -/
theorem ofChar_ofNat {k : Nat} (hk : k < 0xD800 ∨ 0xDFFF < k ∧ k < 0x110000) :
    ofChar (Char.ofNat k) =
      if k ≤ 0x7F then [UInt8.ofNat k]
      else if k ≤ 0x7FF then [UInt8.ofNat (k / 64 % 0x20 + 0xC0), UInt8.ofNat (k % 0x40 + 0x80)]
      else if k ≤ 0xFFFF then
        [UInt8.ofNat (k / 4096 % 0x10 + 0xE0), UInt8.ofNat (k / 64 % 0x40 + 0x80),
          UInt8.ofNat (k % 0x40 + 0x80)]
      else
        [UInt8.ofNat (k / 262144 % 0x08 + 0xF0), UInt8.ofNat (k / 4096 % 0x40 + 0x80),
          UInt8.ofNat (k / 64 % 0x40 + 0x80), UInt8.ofNat (k % 0x40 + 0x80)] := by
  have hval : (Char.ofNat k).val.toNat = k := toNat_charOfNat hk
  rw [ofChar_eq, String.utf8EncodeChar]
  simp only [hval]

/-- What is read in front of a text is a code point and its octets, or a stray octet by itself. -/
theorem first_cases (a : UInt8) (r : Bytes) :
    (∃ c n, first a r = (.char c, n) ∧ n ≤ r.length ∧ a :: r.take n = ofChar c)
      ∨ first a r = (.stray a, 0) := by
  have hoctet {b : UInt8} {k : Nat} (hk : b.toNat = k) : UInt8.ofNat k = b := by
    rw [← hk, UInt8.ofNat_toNat]
  have hfirst := first_eq a r
  generalize first a r = x at hfirst ⊢
  -- one case for each number of octets
  by_cases hone : a.toNat < 0x80
  · rw [if_pos hone] at hfirst
    refine .inl ⟨_, _, hfirst, Nat.zero_le _, ?_⟩
    rw [ofChar_ofNat (by omega), if_pos (by omega), List.take_zero, UInt8.ofNat_toNat]
  rw [if_neg hone] at hfirst
  by_cases htwo : 0xC2 ≤ a.toNat ∧ a.toNat ≤ 0xDF
  · rw [if_pos htwo] at hfirst
    match r with
    | [] => exact .inr hfirst
    | b :: t =>
      dsimp only at hfirst
      split at hfirst
      · refine .inl ⟨_, _, hfirst, by simp, ?_⟩
        rw [ofChar_ofNat (by omega), if_neg (by omega), if_pos (by omega),
          hoctet (b := a) (by omega), hoctet (b := b) (by omega)]
        rfl
      · exact .inr hfirst
  rw [if_neg htwo] at hfirst
  by_cases hthree : 0xE0 ≤ a.toNat ∧ a.toNat ≤ 0xEF
  · rw [if_pos hthree] at hfirst
    match r with
    | [] | [_] => exact .inr hfirst
    | b :: c :: t =>
      dsimp only at hfirst
      split at hfirst
      · refine .inl ⟨_, _, hfirst, by simp, ?_⟩
        rw [ofChar_ofNat (by omega), if_neg (by omega), if_neg (by omega), if_pos (by omega),
          hoctet (b := a) (by omega), hoctet (b := b) (by omega), hoctet (b := c) (by omega)]
        rfl
      · exact .inr hfirst
  rw [if_neg hthree] at hfirst
  by_cases hfour : 0xF0 ≤ a.toNat ∧ a.toNat ≤ 0xF4
  · rw [if_pos hfour] at hfirst
    match r with
    | [] | [_] | [_, _] => exact .inr hfirst
    | b :: c :: d :: t =>
      dsimp only at hfirst
      split at hfirst
      · refine .inl ⟨_, _, hfirst, by simp, ?_⟩
        rw [ofChar_ofNat (by omega), if_neg (by omega), if_neg (by omega), if_neg (by omega),
          hoctet (b := a) (by omega), hoctet (b := b) (by omega), hoctet (b := c) (by omega),
          hoctet (b := d) (by omega)]
        rfl
      · exact .inr hfirst
  · exact .inr (hfirst.trans (if_neg hfour))

/-- The octets of a code point: itself if it is an ASCII character, and else no ASCII character. -/
theorem ofChar_cases (c : Char) :
    c.toNat < 0x80 ∧ ofChar c = [UInt8.ofNat c.toNat]
      ∨ 0x80 ≤ c.toNat ∧ ∀ b ∈ ofChar c, 0x80 ≤ b.toNat := by
  have hvalid := toNat_cases c
  rw [← Char.ofNat_toNat c, ofChar_ofNat hvalid, Char.ofNat_toNat]
  generalize c.toNat = n at *
  split
  · exact .inl ⟨by omega, rfl⟩
  · -- in a character of several octets each of them is large
    have hoctet {k : Nat} (h : 0x80 ≤ k ∧ k < 256) : 0x80 ≤ (UInt8.ofNat k).toNat := by
      rw [toNat_octet h.2]
      exact h.1
    refine .inr ⟨by omega, ?_⟩
    split
    · simp only [List.forall_mem_cons]
      exact ⟨hoctet (by omega), hoctet (by omega), nofun⟩
    split
    · simp only [List.forall_mem_cons]
      exact ⟨hoctet (by omega), hoctet (by omega), hoctet (by omega), nofun⟩
    · simp only [List.forall_mem_cons]
      exact ⟨hoctet (by omega), hoctet (by omega), hoctet (by omega), hoctet (by omega), nofun⟩

/-! ## §2 Texts -/

theorem scan_eq (skip : Nat) (acc : List Glyph) (r : Bytes) :
    scan skip acc r = acc.reverse ++ glyphs (r.drop skip) := by
  induction r generalizing skip acc with
  | nil => simp [scan, glyphs]
  | cons a r ih =>
    cases skip with
    | zero => simp [scan, glyphs, ih]
    | succ n => rw [scan, ih, List.drop_succ_cons]

/-- A text is the first glyph and the rest of the text. -/
theorem glyphs_cons (a : UInt8) (r : Bytes) :
    glyphs (a :: r) = (first a r).1 :: glyphs (r.drop (first a r).2) := by
  have hscan := scan_eq (first a r).2 [(first a r).1] r
  rwa [List.reverse_singleton, List.singleton_append] at hscan

theorem glyphs_ofChar_append (c : Char) (r : Bytes) :
    glyphs (ofChar c ++ r) = .char c :: glyphs r := by
  obtain ⟨a, t, hoctets, hfirst⟩ := first_ofChar c r
  rw [hoctets, List.cons_append, glyphs_cons, hfirst]
  simp

theorem glyphs_ofChars (l : List Char) : glyphs (ofChars l) = l.map .char := by
  induction l with
  | nil => rfl
  | cons c l ih =>
    rw [ofChars, List.flatMap_cons, glyphs_ofChar_append, List.map_cons, ← ih]
    rfl

theorem isValid_ofChars (l : List Char) : isValid (ofChars l) = true := by
  rw [isValid, glyphs_ofChars]
  simp

/-- A well-formed text consists of the octets of its code points. -/
theorem ofChars_chars {b : Bytes} (h : isValid b = true) : ofChars (chars b) = b := by
  induction hn : b.length using Nat.strongRecOn generalizing b with
  | ind n ih =>
    cases b with
    | nil => rfl
    | cons a r =>
      rw [isValid, glyphs_cons, List.all_cons, Bool.and_eq_true] at h
      rw [chars, glyphs_cons, List.map_cons, ofChars, List.flatMap_cons]
      -- a character and what is left of the text; a stray octet cannot be there
      rcases first_cases a r with ⟨c, k, hfirst, hk, hoctets⟩ | hstray
      · rw [hfirst] at h ⊢
        have hrest := ih (r.drop k).length (by simp at hn ⊢; omega) h.2 rfl
        rw [ofChars, chars] at hrest
        dsimp only [Glyph.toChar]
        rw [hrest, ← hoctets, List.cons_append, List.take_append_drop]
      · rw [hstray] at h
        cases h.1

/-- The octets of ASCII characters are their numbers. -/
theorem ofChars_ascii {b : Bytes} (h : ∀ a ∈ b, a.toNat < 0x80) :
    ofChars (b.map fun a => Char.ofNat a.toNat) = b := by
  induction b with
  | nil => rfl
  | cons a b ih =>
    obtain ⟨ha, hb⟩ := List.forall_mem_cons.mp h
    have hoctet : ofChar (Char.ofNat a.toNat) = [a] := by
      rw [ofChar_ofNat (by omega), if_pos (by omega), UInt8.ofNat_toNat]
    rw [List.map_cons, ofChars, List.flatMap_cons, hoctet, ← ofChars, ih hb,
      List.singleton_append]

/-- Texts of ASCII characters are well formed. -/
theorem isValid_of_ascii {b : Bytes} (h : ∀ a ∈ b, a.toNat < 0x80) : isValid b = true := by
  rw [← ofChars_ascii h]
  exact isValid_ofChars _

/-- Code points are read back from their octets. -/
theorem chars_ofChars (l : List Char) : chars (ofChars l) = l := by
  rw [chars, glyphs_ofChars, List.map_map]
  exact List.map_id _

theorem chars_of_ascii {b : Bytes} (h : ∀ a ∈ b, a.toNat < 0x80) :
    chars b = b.map fun a => Char.ofNat a.toNat := by
  rw [← chars_ofChars (b.map _), ofChars_ascii h]

end Idl.Utf8
