import Idl.Proofs.Texts
import Idl.Proofs.Token.Positions

/-!
# Literals that are written piece by piece

Who writes a text between double quotes writes one character after the other: as it is, or as an
escape. What has been written of the body denotes the same octets whatever is written behind it, and
the scan for the end of the literal goes over it. No control character is in it. Two such parts in a
row are such a part again.

* §1 pieces, §2 characters and escapes, §3 the literal of a piece.
-/

namespace Idl.Quoted

/-! ## §1 Pieces -/

/-- An octet that is no control character. -/
def IsShown (c : UInt8) : Prop := 0x20 ≤ c.toNat ∧ c ≠ 0x7F

instance (c : UInt8) : Decidable (IsShown c) :=
  inferInstanceAs (Decidable (0x20 ≤ c.toNat ∧ c ≠ 0x7F))

/-- A part of the body of a literal in double quotes, and the octets that it denotes there. -/
structure Piece (p v : Bytes) : Prop where
  units : ∀ r, TakesMany (p ++ r) v r
  inside : ∀ n r, Scan.textEnd 0x22 n false (p ++ r) = Scan.textEnd 0x22 (n + p.length) false r
  valid : Utf8.isValid p = true
  shown : ∀ c ∈ p, IsShown c

namespace Piece

theorem nil : Piece [] [] := ⟨fun r => .nil r, fun _ _ => rfl, rfl, by simp⟩

theorem append {p q v w : Bytes} (h : Piece p v) (h' : Piece q w) : Piece (p ++ q) (v ++ w) where
  units r := by
    rw [List.append_assoc]
    exact (h.units (q ++ r)).trans (h'.units r)
  inside n r := by
    rw [List.append_assoc, h.inside, h'.inside, List.length_append, Nat.add_assoc]
  valid := Utf8.isValid_append_of h.valid h'.valid
  shown := List.forall_mem_append.mpr ⟨h.shown, h'.shown⟩

/-- What is written for each item of a list is a piece, if that for one item is. -/
theorem flatMap {α : Type} {f g : α → Bytes} {l : List α} (h : ∀ a ∈ l, Piece (f a) (g a)) :
    Piece (l.flatMap f) (l.flatMap g) := by
  induction l with
  | nil => exact .nil
  | cons a l ih =>
    obtain ⟨ha, hl⟩ := List.forall_mem_cons.mp h
    rw [List.flatMap_cons, List.flatMap_cons]
    exact ha.append (ih hl)

end Piece

/-! ## §2 Characters and escapes -/

/-- An octet that stands for itself in a literal in double quotes. -/
def IsPlain (c : UInt8) : Prop := IsShown c ∧ c ≠ 0x22 ∧ c ≠ 0x5C

theorem isPlain_of_isHexDigit {c : UInt8} (h : Bytes.isHexDigit c = true) : IsPlain c := by
  simp only [Bytes.isHexDigit, Bytes.isDigit, Bool.or_eq_true, Bool.and_eq_true, decide_eq_true_eq,
    UInt8.le_iff_toNat_le, UInt8.reduceToNat] at h
  simp only [IsPlain, IsShown, ne_eq, ← UInt8.toNat_inj, UInt8.reduceToNat]
  omega

theorem textEnd_plain {c : UInt8} (h : IsPlain c) (n : Nat) (r : Bytes) :
    Scan.textEnd 0x22 n false (c :: r) = Scan.textEnd 0x22 (n + 1) false r := by
  obtain ⟨⟨hlow, hdel⟩, hmark, hback⟩ := h
  have hcontrol : ¬ ((c ≤ 0x1F || c == 0x7F) && c != 0x09) = true := by
    simp only [Bool.and_eq_true, Bool.or_eq_true, decide_eq_true_eq, beq_iff_eq,
      UInt8.le_iff_toNat_le, UInt8.reduceToNat]
    rintro ⟨h | h, -⟩
    · omega
    · exact hdel h
  rw [Scan.textEnd, if_neg (by simpa using hmark), if_neg hcontrol, beq_false_of_ne hback]

/-- Octets that stand for themselves are a piece, if they are those of characters. -/
theorem piece_plain {p : Bytes} (h : ∀ c ∈ p, IsPlain c) (hvalid : Utf8.isValid p = true) :
    Piece p p := by
  refine ⟨fun r => ?_, fun n r => ?_, hvalid, fun c hc => (h c hc).1⟩
  · clear hvalid
    induction p with
    | nil => exact .nil r
    | cons c p ih =>
      obtain ⟨hc, hp⟩ := List.forall_mem_cons.mp h
      exact .cons (.plain hc.2.2) (ih hp)
  · clear hvalid
    induction p generalizing n with
    | nil => rfl
    | cons c p ih =>
      obtain ⟨hc, hp⟩ := List.forall_mem_cons.mp h
      rw [List.cons_append, textEnd_plain hc, ih hp, List.length_cons, Nat.add_assoc,
        Nat.add_comm 1]

/-- The octets of a character stand for themselves, except for those of four kinds. -/
theorem isPlain_of_mem_ofChar {c : Char} (hlow : 0x20 ≤ c.toNat) (hdel : c.toNat ≠ 0x7F)
    (hmark : c ≠ '"') (hback : c ≠ '\\') : ∀ b ∈ Utf8.ofChar c, IsPlain b := by
  intro b hb
  have hne {k : Nat} (h : c ≠ Char.ofNat k) : c.toNat ≠ k := by
    rintro rfl
    rw [Char.ofNat_toNat] at h
    exact h rfl
  have hmark : c.toNat ≠ 0x22 := hne hmark
  have hback : c.toNat ≠ 0x5C := hne hback
  simp only [IsPlain, IsShown, ne_eq, ← UInt8.toNat_inj, UInt8.reduceToNat]
  rcases Utf8.ofChar_cases c with ⟨hascii, hoctets⟩ | ⟨-, hoctets⟩
  · rw [hoctets, List.mem_singleton] at hb
    rw [hb, Utf8.toNat_octet (by omega)]
    exact ⟨⟨hlow, hdel⟩, hmark, hback⟩
  · have := hoctets b hb
    omega

theorem isValid_ofChar (c : Char) : Utf8.isValid (Utf8.ofChar c) = true := by
  have h := Utf8.isValid_ofChars [c]
  rwa [Utf8.ofChars, List.flatMap_singleton] at h

theorem piece_ofChar {c : Char} (hlow : 0x20 ≤ c.toNat) (hdel : c.toNat ≠ 0x7F)
    (hmark : c ≠ '"') (hback : c ≠ '\\') : Piece (Utf8.ofChar c) (Utf8.ofChar c) :=
  piece_plain (isPlain_of_mem_ofChar hlow hdel hmark hback) (isValid_ofChar c)

/-- A sign behind a backslash stands for its octet. -/
theorem piece_sign {c x : UInt8} (h : (c, x) ∈ signs) : Piece [0x5C, c] [x] := by
  have hsigns : signs.all (fun s => s.1.toNat < 0x80 && decide (IsShown s.1)) = true := by decide
  obtain ⟨hascii, hshown⟩ : c.toNat < 0x80 ∧ IsShown c := by
    simpa using List.all_eq_true.mp hsigns _ h
  refine ⟨fun r => .cons (.sign h) (.nil r), fun _ _ => rfl, Utf8.isValid_of_ascii ?_, ?_⟩
  · exact List.forall_mem_cons.mpr ⟨by decide, List.forall_mem_singleton.mpr hascii⟩
  · exact List.forall_mem_cons.mpr ⟨by decide, List.forall_mem_singleton.mpr hshown⟩

/-- Two hexadecimal digits stand for the octet with their number, also if another digit follows. -/
theorem piece_hex {ds : Bytes} {x : UInt8} (hlength : ds.length = 2)
    (hdigits : ∀ d ∈ ds, Bytes.isHexDigit d = true) (hx : x.toNat = Bytes.toNat 16 ds) :
    Piece (0x5C :: 0x78 :: ds) [x] := by
  have hascii : ∀ d ∈ ds, d.toNat < 0x80 := by
    intro d hd
    have h := hdigits d hd
    simp only [Bytes.isHexDigit, Bytes.isDigit, Bool.or_eq_true, Bool.and_eq_true,
      decide_eq_true_eq, UInt8.le_iff_toNat_le, UInt8.reduceToNat] at h
    omega
  have hpiece : Piece ds ds := by
    refine piece_plain (fun d hd => isPlain_of_isHexDigit (hdigits d hd)) ?_
    exact Utf8.isValid_of_ascii hascii
  refine ⟨fun r => ?_, fun n r => ?_, Utf8.isValid_of_ascii ?_, ?_⟩
  · refine .cons (.hex (.inl rfl) ⟨?_, hdigits, hlength.le, fun hlt => ?_⟩ hx) (.nil r)
    · exact List.ne_nil_of_length_eq_add_one hlength
    · omega
  · -- the mark of the escape is guarded by the backslash, and the digits stand for themselves
    change Scan.textEnd 0x22 (n + 1 + 1) false (ds ++ r) = _
    rw [hpiece.inside, List.length_cons, List.length_cons]
    congr 1
    omega
  · exact List.forall_mem_cons.mpr ⟨by decide, List.forall_mem_cons.mpr ⟨by decide, hascii⟩⟩
  · exact List.forall_mem_cons.mpr ⟨by decide, List.forall_mem_cons.mpr ⟨by decide, hpiece.shown⟩⟩

/-! ## §3 The literal of a piece -/

variable {p v : Bytes}

/-- A piece between double quotes. -/
def enclosed (p : Bytes) : Bytes := 0x22 :: (p ++ [0x22])

@[simp] theorem length_enclosed (p : Bytes) : (enclosed p).length = p.length + 2 := by
  simp [enclosed]

namespace Piece

theorem shown_enclosed (h : Piece p v) : ∀ c ∈ enclosed p, IsShown c := by
  refine List.forall_mem_cons.mpr ⟨by decide, List.forall_mem_append.mpr ⟨h.shown, ?_⟩⟩
  exact List.forall_mem_singleton.mpr (by decide)

/-- The literal denotes what its piece does. -/
theorem textLitValue (h : Piece p v) : textLitValue (enclosed p) = .ok v := by
  have units := h.units []
  rw [List.append_nil] at units
  exact textLitValue_eq_ok_iff.mpr units

theorem isValid_enclosed (h : Piece p v) : Utf8.isValid (enclosed p) = true := by
  have hmark : Utf8.isValid [0x22] = true := by decide
  exact Utf8.isValid_append_of (a := [0x22]) hmark (Utf8.isValid_append_of h.valid hmark)

/-- The literal is the token in front of whatever follows it, if it is not too long for a token. -/
theorem scanToken (h : Piece p v) (hsize : (enclosed p).length ≤ maxTokenSize) (r : Bytes) :
    scanToken 0x22 (p ++ 0x22 :: r) = .ok (.textLit, p.length + 1) := by
  rw [length_enclosed] at hsize
  refine scanToken_of_textEnd (.inl rfl) ?_
  rw [h.inside, Scan.textEnd, if_pos (beq_self_eq_true _), Scan.token, if_neg (by omega),
    Nat.add_sub_cancel, Nat.add_comm]

/-- A source that is the literal is one token. -/
theorem lex (h : Piece p v) (hsize : (enclosed p).length ≤ maxTokenSize) :
    ∃ t e, lex (enclosed p) = .ok ⟨[t], .ok e⟩ ∧ t.kind = .textLit ∧ t.text = enclosed p := by
  have hscan : Idl.scanToken 0x22 (p ++ [0x22]) = .ok (.textLit, (p ++ [0x22]).length) := by
    rw [List.length_append]
    exact h.scanToken hsize []
  exact lex_of_scanToken hscan (hsize.trans (by decide)) h.isValid_enclosed

end Piece

end Idl.Quoted
