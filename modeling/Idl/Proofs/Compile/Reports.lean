import Idl.Proofs.Compile.Violations
import Idl.Proofs.Integers
import Idl.Proofs.Reader.Lines
import Idl.Proofs.Schema.Sourced
import Idl.Proofs.Tree.Parts

/-!
# What is reported about a file

An error and a warning stand where a node of the file begins. Their messages quote names and numerals
of the file and are texts of one line.

* §1 texts of one line, §2 the words of a file that has been read,
* §3 messages, §4 errors, §5 warnings.
-/

namespace Idl

/-! ## §1 Texts of one line -/

namespace Bytes

/-- A text in which there is no control character, and so no line end and no escape. -/
def Legible (b : Bytes) : Prop := ∀ c ∈ b, 0x20 ≤ c.toNat

variable {a b : Bytes}

theorem legible_iff_all : Legible b ↔ b.all (fun c => Nat.ble 0x20 c.toNat) = true := by
  simp [Legible]

-- the test on numbers is evaluated much faster than the quantifier
instance (b : Bytes) : Decidable (Legible b) := decidable_of_iff _ legible_iff_all.symm

@[simp] theorem legible_append : Legible (a ++ b) ↔ Legible a ∧ Legible b := List.forall_mem_append

theorem Legible.not_mem (h : Legible b) {c : UInt8} (hc : c.toNat < 0x20) : c ∉ b :=
  fun hmem => absurd (h c hmem) (by omega)

theorem legible_of_isWord (h : ∀ c ∈ b, isWord c = true) : Legible b := by
  intro c hc
  have hword := h c hc
  simp only [isWord, isLetter, isDigit, Bool.or_eq_true, Bool.and_eq_true, decide_eq_true_eq,
    beq_iff_eq, UInt8.le_iff_toNat_le, ← UInt8.toNat_inj, UInt8.reduceToNat] at hword
  omega

@[simp] theorem legible_ofNat (n : Nat) : Legible (ofNat n) := by
  refine legible_of_isWord fun c hc => ?_
  simp [isWord, isDigit_of_mem_ofNat hc]

theorem legible_join {sep : Bytes} {l : List Bytes} (hsep : Legible sep) (h : ∀ p ∈ l, Legible p) :
    Legible (join sep l) :=
  forall_mem_join hsep h

theorem toNat_digit {n : Nat} (h : n < 16) : 0x20 ≤ (digit n).toNat := by
  unfold digit
  split
  · simp only [Nat.toUInt8, UInt8.toNat_ofNat']
    omega
  · simp only [Nat.toUInt8, UInt8.toNat_ofNat']
    omega

theorem legible_hexDigits (width n : Nat) : Legible (hexDigits width n) := by
  induction width generalizing n with
  | zero => exact fun _ hc => (List.not_mem_nil hc).elim
  | succ width ih =>
    rw [hexDigits, legible_append]
    exact ⟨ih _, List.forall_mem_singleton.mpr (toNat_digit (Nat.mod_lt _ (by decide)))⟩

end Bytes

open Bytes (legible_append)

theorem legible_ofChar {c : Char} (h : 0x20 ≤ c.toNat) : Bytes.Legible (Utf8.ofChar c) := by
  intro b hb
  rcases Utf8.ofChar_cases c with ⟨hascii, hoctets⟩ | ⟨-, hoctets⟩
  · rw [hoctets, List.mem_singleton] at hb
    rw [hb, Utf8.toNat_octet (by omega)]
    exact h
  · exact le_trans (by decide) (hoctets b hb)

/-- No control character is printable. -/
theorem toNat_of_isPrintable {c : Char} (h : isPrintable c = true) :
    0x20 ≤ c.toNat ∧ c.toNat ≠ 0x7F := by
  obtain ⟨r, hr, hin⟩ := List.any_eq_true.mp h
  have hranges : ∀ r ∈ printableRanges, 0x20 ≤ r.1 ∧ (r.2 < 0x7F ∨ 0x7F < r.1) := by
    decide +kernel
  simp only [Bool.and_eq_true, decide_eq_true_eq] at hin
  obtain ⟨hlow, hdel⟩ := hranges r hr
  omega

namespace Quote

theorem legible_shortEscape {c : Char} {t : Bytes} (h : shortEscape? c = some t) : Bytes.Legible t := by
  unfold shortEscape? at h
  split at h
  all_goals
    cases h
    try decide

theorem legible_numericEscape (c : Char) : Bytes.Legible (numericEscape c) := by
  have hhex := Bytes.legible_hexDigits
  unfold numericEscape
  dsimp only
  split
  · exact legible_append.mpr ⟨by decide, hhex _ _⟩
  split
  · exact legible_append.mpr ⟨by decide, hhex _ _⟩
  · exact legible_append.mpr ⟨by decide, hhex _ _⟩

/-- A quoted character shows no control characters. -/
theorem legible_glyph (g : Glyph) : Bytes.Legible (glyph g) := by
  cases g with
  | stray b =>
    have hbyte := b.toNat_lt
    refine legible_append.mpr ⟨by decide, List.forall_mem_cons.mpr ⟨?_, ?_⟩⟩
    · exact Bytes.toNat_digit (by omega)
    · exact List.forall_mem_singleton.mpr (Bytes.toNat_digit (by omega))
  | char c =>
    unfold glyph
    dsimp only
    split
    · -- a quote or a backslash, behind another backslash
      next hmark =>
      have hc : 0x20 ≤ c.toNat := by
        simp only [Bool.or_eq_true, beq_iff_eq] at hmark
        rcases hmark with rfl | rfl
        · decide
        · decide
      exact List.forall_mem_cons.mpr ⟨by decide, legible_ofChar hc⟩
    split
    · next hprintable => exact legible_ofChar (toNat_of_isPrintable hprintable).1
    · cases hshort : shortEscape? c with
      | none => exact legible_numericEscape c
      | some t => exact legible_shortEscape hshort

end Quote

/-- A text that is quoted is one of one line, whatever it is. -/
theorem legible_quote (b : Bytes) : Bytes.Legible (quote b) := by
  refine legible_append.mpr ⟨legible_append.mpr ⟨by decide, fun c hc => ?_⟩, by decide⟩
  obtain ⟨g, -, hg⟩ := List.mem_flatMap.mp hc
  exact Quote.legible_glyph g c hg

/-! ## §2 The words of a file -/

/-- Something begins between two characters of a source, at their line and column. -/
structure Loc.Begins (src : Bytes) (loc : Loc) : Prop where
  between : Utf8.Between src loc.span.start
  pos : loc.pos = Pos.ofOffset src loc.span.start

/-- The names and numerals of a file are texts of one line. -/
structure Tree.File.Legible (f : Tree.File) : Prop where
  name : ∀ i : Tree.Ident, f.Has i.node → Bytes.Legible i.name
  literal : ∀ l : Tree.IntLit, f.Has l.node → Bytes.Legible l.raw

/-- Tokens in a row begin between characters. -/
theorem Lexer.Tiled.between {src : Bytes} {n : Nat} {ts : List Token} (h : Tiled src n ts)
    {t : Token} (ht : t ∈ ts) : Utf8.Between src t.start := by
  induction h with
  | nil => cases ht
  | cons tile rest ih =>
    rcases List.mem_cons.mp ht with rfl | ht
    · exact tile.start ▸ tile.begins
    · exact ih ht

/-- A number is legible. -/
theorem Integer.legible_of_denotes {kind : TokenKind} {b : Bytes} {v : Int}
    (h : Integer.Denotes kind b v) : b.Legible := by
  -- the digits of any base are
  have hdigits {base : Nat} {digits : Bytes} (h : ∀ c ∈ digits, Bytes.IsDigitOf base c) :
      digits.Legible := by
    intro c hc
    have hdigit := (h c hc).1
    simp only [Bytes.isHexDigit, Bytes.isDigit, Bool.or_eq_true, Bool.and_eq_true,
      decide_eq_true_eq, UInt8.le_iff_toNat_le, UInt8.reduceToNat] at hdigit
    omega
  have hmagnitude {b : Bytes} {n : Nat} (h : Magnitude kind b n) : b.Legible := by
    cases h with
    | decimal _ hdecimal _ => exact hdigits hdecimal
    | octal _ hoctal => exact List.forall_mem_cons.mpr ⟨by decide, hdigits hoctal⟩
    | hexadecimal hmark _ hhex =>
      refine List.forall_mem_cons.mpr ⟨by decide, List.forall_mem_cons.mpr ⟨?_, hdigits hhex⟩⟩
      rcases hmark with rfl | rfl
      · decide
      · decide
  cases h with
  | plain h => exact hmagnitude h
  | minus h => exact List.forall_mem_cons.mpr ⟨by decide, hmagnitude h⟩

namespace Tree.File

variable {src : Bytes} {allowMissingPackage : Bool} {f : Tree.File}

/-- A node that keeps a text is made up of one token. -/
theorem exists_token (hf : parseFile src allowMissingPackage = .ok f) {kind : NodeKind} {loc : Loc}
    {raw : Bytes} {parts : List Node} (hn : f.Has (.mk kind loc (some raw) parts)) :
    ∃ l t, lex src = .ok l ∧ t ∈ l.tokens ∧ t.text = raw ∧ [t] ∈ kind.phrase := by
  obtain ⟨l, hlex, hlaid⟩ := exists_laid_of_parseFile hf
  obtain ⟨v, hv, hlaid⟩ := hlaid _ hn
  cases hlaid with
  | mk phrase text laid =>
    obtain ⟨t, rfl, htext⟩ := text raw rfl
    have ht : t ∈ l.significant := hv.subset (List.mem_singleton_self t)
    exact ⟨l, t, hlex, (List.mem_filter.mp ht).1, htext, phrase⟩

theorem legible_of_parseFile (hf : parseFile src allowMissingPackage = .ok f) : f.Legible where
  name i hi := by
    obtain ⟨l, t, hlex, ht, htext, u, hu, hkind⟩ := exists_token hf hi
    cases hu
    obtain ⟨c, r, extra, hscan, heq⟩ := lex_scanned hlex ht
    rw [← htext, heq]
    exact Bytes.legible_of_isWord (isWord_of_ident (hkind ▸ hscan))
  literal i hi := by
    obtain ⟨l, t, hlex, ht, htext, u, hu, hkind, -⟩ := exists_token hf hi
    cases hu
    obtain ⟨v, hv⟩ := Integer.denotes_of_lex hlex ht hkind
    exact htext ▸ Integer.legible_of_denotes hv

end Tree.File

namespace Tree.File.Legible

variable {f : Tree.File}

theorem dotted (h : f.Legible) {p : Path} (hp : f.Has p.node) : Bytes.Legible p.dotted := by
  refine Bytes.legible_join (by decide) fun t ht => ?_
  obtain ⟨i, hi, rfl⟩ := List.mem_map.mp ht
  exact h.name i (hp.trans (Path.has_ident hi))

theorem packageName (h : f.Legible) : Bytes.Legible f.packageName := by
  unfold File.packageName
  cases hp : f.package with
  | none => exact fun _ hc => (List.not_mem_nil hc).elim
  | some p => exact h.dotted (has_packageName hp)

end Tree.File.Legible

/-! ## §3 Messages -/

/-- The texts that a message about the arguments of an annotation quotes. -/
inductive ArgFault.Quotes : ArgFault → Bytes → Prop where
  | duplicateKey (key : Bytes) : Quotes (.duplicateKey key) key
  | notNatural (key : Bytes) : Quotes (.notNatural key) key
  | unknownKey (key : Bytes) : Quotes (.unknownKey key) key
  | notBool (key : Bytes) : Quotes (.notBool key) key

/-- The texts that a message quotes because of its cause. -/
inductive SchemaCause.Quotes : SchemaCause → Bytes → Prop where
  | reusedNumber (n : Nat) (owner : Bytes) : Quotes (.reusedNumber n owner) owner
  | takenNumber (n : Nat) (owner : Bytes) : Quotes (.takenNumber n owner) owner
  | numberOutOfRange (literal : Bytes) : Quotes (.numberOutOfRange literal) literal
  | unresolvedType (name : Bytes) : Quotes (.unresolvedType name) name
  | misplacedAnnot (annot : Bytes) (target : Target) : Quotes (.misplacedAnnot annot target) annot
  | malformedAnnot (annot : Bytes) (fault : ArgFault) : Quotes (.malformedAnnot annot fault) annot
  | argument (annot : Bytes) {fault : ArgFault} {text : Bytes} (h : fault.Quotes text) :
      Quotes (.malformedAnnot annot fault) text

/-- The message of a faulty argument is legible when its key is. -/
theorem ArgFault.legible_message {fault : ArgFault} (h : ∀ t, fault.Quotes t → t.Legible) :
    Bytes.Legible fault.message := by
  cases fault with
  | duplicateKey key =>
    simp only [message, legible_append, h key (.duplicateKey key)]
    decide
  | notNatural key =>
    simp only [message, legible_append, h key (.notNatural key)]
    decide
  | unknownKey key =>
    simp only [message, legible_append, h key (.unknownKey key)]
    decide
  | notBool key =>
    simp only [message, legible_append, h key (.notBool key)]
    decide
  | _ => decide

theorem DeclKind.legible_name (kind : DeclKind) : kind.name.Legible := by
  cases kind <;> decide

theorem Target.legible_name (target : Target) : target.name.Legible := by
  cases target <;> decide

namespace SchemaError

/-- An error that quotes only legible texts. -/
structure Legible (e : SchemaError) : Prop where
  entity : e.entity.Legible
  scope : e.scope.Legible
  cause : ∀ t, e.cause.Quotes t → t.Legible

/-- The message of an error is legible when what it quotes is. -/
theorem Legible.message {e : SchemaError} (h : e.Legible) : e.message.Legible := by
  obtain ⟨cause, loc, entity, scope⟩ := e
  obtain ⟨hentity, hscope, hcause⟩ := h
  dsimp only at hentity hscope hcause
  -- each message is fixed words and the texts it quotes
  cases cause with
  | duplicateDecl kind =>
    simp only [SchemaError.message, legible_append, kind.legible_name, hentity, legible_quote]
    decide
  | kindConflict kind earlier =>
    simp only [SchemaError.message, legible_append, kind.legible_name, earlier.legible_name,
      hentity]
    decide
  | duplicateField =>
    simp only [SchemaError.message, legible_append, hentity, hscope]
    decide
  | reusedNumber n owner =>
    simp only [SchemaError.message, legible_append, hentity, hscope, Bytes.legible_ofNat,
      hcause _ (.reusedNumber n owner)]
    decide
  | takenNumber n owner =>
    simp only [SchemaError.message, legible_append, hentity, hscope, Bytes.legible_ofNat,
      hcause _ (.takenNumber n owner)]
    decide
  | numberOutOfRange literal =>
    simp only [SchemaError.message, legible_append, hentity, hscope, Bytes.legible_ofNat,
      hcause _ (.numberOutOfRange literal)]
    decide
  | unresolvedType name =>
    simp only [SchemaError.message, legible_append, hentity, hscope,
      hcause _ (.unresolvedType name)]
    decide
  | duplicateMethod =>
    simp only [SchemaError.message, legible_append, hentity, hscope]
    decide
  | misplacedAnnot annot target =>
    simp only [SchemaError.message, legible_append, target.legible_name, hentity,
      hcause _ (.misplacedAnnot annot target)]
    decide
  | malformedAnnot annot fault =>
    have hfault := ArgFault.legible_message fun t ht => hcause t (.argument annot ht)
    simp only [SchemaError.message, legible_append, hentity, hfault,
      hcause _ (.malformedAnnot annot fault)]
    decide
  | repeatedOption =>
    simp only [SchemaError.message, legible_append, hentity]
    decide
  | invalidPackage =>
    simp only [SchemaError.message, legible_append, legible_quote]
    decide

/-- Its message with the number in front. -/
theorem Legible.render {e : SchemaError} (h : e.Legible) : e.render.Legible := by
  simp only [SchemaError.render, legible_append, Bytes.legible_ofNat, h.message]
  decide

end SchemaError

/-- So is that of a warning. -/
theorem Warning.legible_render {w : Warning} (h : w.message.Legible) : w.render.Legible := by
  simp only [Warning.render, legible_append, Bytes.legible_ofNat, h]
  decide

/-! ## §4 Errors -/

namespace Tree

variable {f : File} {e : SchemaError} {code : Nat}

namespace File.Legible

end File.Legible

namespace File.Reported

end File.Reported

/-! ## §5 Warnings -/

end Tree

end Idl
