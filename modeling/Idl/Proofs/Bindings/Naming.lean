import Idl.Bindings.Naming
import Idl.Proofs.Schema.Sourced

/-!
# What other styles keep of a name

A name of a source is a word of ASCII letters, digits and underscores. Putting it into another style
moves underscores and changes the case of letters, and no more than that: the result is a word
again, with the same letters and digits in the same order.

* §1 the letters and digits of a name, §2 characters in another style,
* §3 cutting a name into words, §4 underscores, §5 capitals,
* §6 names that are not empty.
-/

namespace Idl.Naming

/-! ## §1 Letters and digits -/

/-- The letters and digits of a name, all letters small. -/
def core (name : Bytes) : Bytes :=
  (name.filter fun b => Bytes.isLetter b || Bytes.isDigit b).map Bytes.lower

/-- Nothing has no letters. -/
@[simp]
theorem core_nil : core [] = [] := rfl

/-- The letters of two parts. -/
@[simp]
theorem core_append (x y : Bytes) : core (x ++ y) = core x ++ core y := by simp [core]

/-- All octets may stand in a name. -/
def IsPlain (name : Bytes) : Prop := ∀ b ∈ name, Bytes.isWord b = true

namespace IsPlain

variable {x y : Bytes}

/-- The empty name. -/
theorem nil : IsPlain [] := nofun

/-- Two parts of a name. -/
theorem append (hx : IsPlain x) (hy : IsPlain y) : IsPlain (x ++ y) :=
  List.forall_mem_append.mpr ⟨hx, hy⟩

/-- The first part of a name. -/
theorem left (h : IsPlain (x ++ y)) : IsPlain x := (List.forall_mem_append.mp h).1

/-- The second part of a name. -/
theorem right (h : IsPlain (x ++ y)) : IsPlain y := (List.forall_mem_append.mp h).2

/-- A name is ASCII. -/
theorem ascii (h : IsPlain x) : ∀ b ∈ x, b.toNat < 0x80 :=
  fun b hb => Bytes.ascii_of_isWord (h b hb)

/-- A sign that is no part of a name does not occur. -/
theorem not_mem (h : IsPlain x) {b : UInt8} (hb : Bytes.isWord b = false) : b ∉ x := by
  intro hmem
  rw [h b hmem] at hb
  cases hb

/-- A name ends at the first sign that is no part of it. -/
theorem eq_of_append {b : UInt8} (hb : Bytes.isWord b = false) (hx : IsPlain x) (hy : IsPlain y)
    {r r' : Bytes} (h : x ++ b :: r = y ++ b :: r') : x = y := by
  have htake := congrArg (List.takeWhile Bytes.isWord) h
  rwa [List.takeWhile_append_of_pos hx, List.takeWhile_append_of_pos hy,
    List.takeWhile_cons_of_neg (by simp [hb]), List.takeWhile_cons_of_neg (by simp [hb]),
    List.append_nil, List.append_nil] at htake

end IsPlain

/-! ## §2 Characters in another style -/

/-- The second text is a name with the letters and digits of the first. -/
structure Restyled (x y : Bytes) : Prop where
  plain : IsPlain y
  core : core y = Naming.core x

namespace Restyled

variable {x y z x' y' : Bytes}

/-- A name is in its own style. -/
theorem refl (h : IsPlain x) : Restyled x x := ⟨h, rfl⟩

/-- One style after another. -/
theorem trans (h : Restyled x y) (h' : Restyled y z) : Restyled x z :=
  ⟨h'.plain, h'.core.trans h.core⟩

/-- Two parts restyled. -/
theorem append (h : Restyled x y) (h' : Restyled x' y') : Restyled (x ++ x') (y ++ y') :=
  ⟨h.plain.append h'.plain, by rw [core_append, core_append, h.core, h'.core]⟩

end Restyled

/-- The character of an octet of a name. -/
def IsNameChar (c : Char) : Prop := ∃ b, Bytes.isWord b = true ∧ c = Char.ofNat b.toNat

/-- The octets of a name, of which there are few enough to try them all. -/
theorem of_range {p : UInt8 → Bool} {b : UInt8}
    (h : ((List.range 0x80).all fun n => !Bytes.isWord n.toUInt8 || p n.toUInt8) = true)
    (hb : Bytes.isWord b = true) : p b = true := by
  have hmem : b.toNat ∈ List.range 0x80 := List.mem_range.mpr (Bytes.ascii_of_isWord hb)
  have hp := List.all_eq_true.mp h _ hmem
  simp only [Nat.toUInt8_eq, UInt8.ofNat_toNat, hb] at hp
  exact hp

/-- A style gives an octet of a name another one with the same letter or digit. -/
def keeps (f : Char → Char) (b : UInt8) : Bool :=
  let d := f (Char.ofNat b.toNat)
  d.toNat < 0x80 && Bytes.isWord d.toNat.toUInt8 && core [d.toNat.toUInt8] == core [b]

/-- An ASCII character is written as its octet. -/
theorem ofChar_ofOctet {b : UInt8} (hb : b.toNat < 0x80) :
    Utf8.ofChar (Char.ofNat b.toNat) = [b] := by
  simpa [Utf8.ofChars] using Utf8.ofChars_ascii (b := [b]) (by simpa using hb)

/-- A character of a name is written as a name. -/
theorem IsNameChar.isPlain {c : Char} (h : IsNameChar c) : IsPlain (Utf8.ofChar c) := by
  obtain ⟨b, hb, rfl⟩ := h
  rw [ofChar_ofOctet (Bytes.ascii_of_isWord hb)]
  simpa [IsPlain] using hb

/-- A style that keeps an octet gives a name of one character. -/
theorem restyled_of_keeps {f : Char → Char} {b : UInt8} (h : keeps f b = true) :
    IsNameChar (f (Char.ofNat b.toNat))
      ∧ Restyled [b] (Utf8.ofChar (f (Char.ofNat b.toNat))) := by
  simp only [keeps, Bool.and_eq_true, decide_eq_true_eq, beq_iff_eq] at h
  obtain ⟨⟨hascii, hword⟩, hcore⟩ := h
  have hchar : f (Char.ofNat b.toNat)
      = Char.ofNat (f (Char.ofNat b.toNat)).toNat.toUInt8.toNat := by
    rw [Nat.toUInt8_eq, UInt8.toNat_ofNat', Nat.mod_eq_of_lt (Nat.lt_trans hascii (by decide)),
      Char.ofNat_toNat]
  have hname : IsNameChar (f (Char.ofNat b.toNat)) := ⟨_, hword, hchar⟩
  refine ⟨hname, hname.isPlain, ?_⟩
  rw [hchar, ofChar_ofOctet (Bytes.ascii_of_isWord hword)]
  exact hcore

/-- Only the first range of a table counts for an ASCII character if all others lie beyond. -/
theorem keeps_shiftCase {e : CodeRange × Int} {table : List (CodeRange × Int)} {b : UInt8}
    (htable : ∀ x ∈ table, 0x80 ≤ x.1.first) (hb : b.toNat < 0x80) :
    keeps (shiftCase (e :: table)) b = keeps (shiftCase [e]) b := by
  have hchar : (Char.ofNat b.toNat).toNat = b.toNat := Utf8.toNat_charOfNat (.inl (by omega))
  have hnone : table.find? (fun x => x.1.contains (Char.ofNat b.toNat).toNat) = none := by
    refine List.find?_eq_none.mpr fun x hx => ?_
    have hfirst := htable x hx
    simp only [CodeRange.contains, hchar, Bool.and_eq_true, decide_eq_true_eq]
    omega
  have hshift : shiftCase (e :: table) (Char.ofNat b.toNat)
      = shiftCase [e] (Char.ofNat b.toNat) := by
    simp only [shiftCase, List.find?_cons, hnone, List.find?_nil]
  rw [keeps, keeps, hshift]

/-- Small letters, in words. -/
theorem keeps_toLowerChar {b : UInt8} (hb : Bytes.isWord b = true) :
    keeps toLowerChar b = true := by
  have hascii := Bytes.ascii_of_isWord hb
  have hlater : ∀ x ∈ lowerShifts.tail, 0x80 ≤ x.1.first := by decide +kernel
  refine (keeps_shiftCase hlater hascii).trans ?_
  exact of_range (p := keeps (shiftCase [(⟨0x41, 0x5A, 1⟩, 32)])) (by decide +kernel) hb

/-- Capital letters, in words. -/
theorem keeps_toUpperChar {b : UInt8} (hb : Bytes.isWord b = true) :
    keeps toUpperChar b = true := by
  have hascii := Bytes.ascii_of_isWord hb
  have hlater : ∀ x ∈ upperShifts.tail, 0x80 ≤ x.1.first := by decide +kernel
  refine (keeps_shiftCase hlater hascii).trans ?_
  exact of_range (p := keeps (shiftCase [(⟨0x61, 0x7A, 1⟩, -32)])) (by decide +kernel) hb

/-- Only the underscore connects words of a name. -/
theorem isConnector_eq {b : UInt8} (hb : Bytes.isWord b = true) :
    isConnector (Char.ofNat b.toNat) = (b == 0x5F) := by
  have h := of_range (p := fun b => isConnector (Char.ofNat b.toNat) == (b == 0x5F))
    (by decide +kernel) hb
  exact beq_iff_eq.mp h

/-- Small letters, in names. -/
theorem keeps_lowerChar {b : UInt8} (hb : Bytes.isWord b = true) : keeps lowerChar b = true := by
  rw [keeps, lowerChar, isConnector_eq hb]
  split
  · next hunder =>
    obtain rfl := beq_iff_eq.mp hunder
    decide
  · split
    · exact keeps_toLowerChar hb
    · exact of_range (p := keeps id) (by decide +kernel) hb

/-! ## §3 Cutting -/

/-- The clusters of a name: one for each octet. -/
def clusterOf (b : UInt8) : Cluster := ⟨Char.ofNat b.toNat, [b]⟩

/-- The octets of clusters. -/
def octetsOf (l : List Cluster) : Bytes := l.flatMap (·.octets)

/-- The octets of words. -/
def Word.octets (w : Word) : Bytes := octetsOf w.clusters

/-- The octets of clusters in a row. -/
theorem octetsOf_append (l m : List Cluster) : octetsOf (l ++ m) = octetsOf l ++ octetsOf m :=
  List.flatMap_append

/-- The clusters of a name are written as the name. -/
theorem octetsOf_map_clusterOf (name : Bytes) : octetsOf (name.map clusterOf) = name := by
  induction name with
  | nil => rfl
  | cons b r ih =>
    rw [List.map_cons, octetsOf, List.flatMap_cons]
    exact congrArg (b :: ·) ih

/-- A name is cut into one cluster for each octet. -/
theorem clustersOnto_eq {name : Bytes} (h : IsPlain name) (acc : List Cluster) :
    clustersOnto [] acc (name.map fun b => .char (Char.ofNat b.toNat))
      = acc.reverse ++ name.map clusterOf := by
  induction name generalizing acc with
  | nil =>
    cases acc with
    | nil => rfl
    | cons last r => simp [clustersOnto]
  | cons b r ih =>
    obtain ⟨hb, hr⟩ := List.forall_mem_cons.mp h
    have hascii := Bytes.ascii_of_isWord hb
    have htoNat : (Char.ofNat b.toNat).toNat = b.toNat := Utf8.toNat_charOfNat (.inl (by omega))
    -- no octet of a name reads as the replacement character
    have hread : ((Glyph.char (Char.ofNat b.toNat)).toChar.toNat == 0xFFFD) = false := by
      rw [Glyph.toChar, htoNat, beq_eq_false_iff_ne]
      omega
    rw [List.map_cons, clustersOnto, hread, Glyph.toChar, Glyph.octets, List.nil_append,
      ofChar_ofOctet hascii]
    simp only [Bool.false_eq_true, if_false]
    rw [ih hr]
    simp [clusterOf]

/-- The glyphs of a name are its octets. -/
theorem glyphs_of_plain {name : Bytes} (h : IsPlain name) :
    Utf8.glyphs name = name.map fun b => .char (Char.ofNat b.toNat) := by
  conv_lhs => rw [← Utf8.ofChars_ascii h.ascii]
  rw [Utf8.glyphs_ofChars, List.map_map]
  rfl

/-- Cutting loses no octet. -/
theorem flatMap_octets_cut (l : List Cluster) : (cut l).flatMap Word.octets = octetsOf l := by
  induction hn : l.length using Nat.strongRecOn generalizing l with
  | ind n ih =>
    cases l with
    | nil =>
      rw [cut]
      rfl
    | cons x r =>
      rw [cut, List.flatMap_cons, ih _ (by rw [← hn, List.length_drop, List.length_cons]; omega) _
        rfl, Word.octets, ← octetsOf_append, List.cons_append, List.take_append_drop]

/-- A name is cut octet by octet. -/
theorem words_eq_cut {name : Bytes} (h : IsPlain name) : words name = cut (name.map clusterOf) := by
  have hclusters : clustersOnto [] [] (Utf8.glyphs name) = name.map clusterOf := by
    rw [glyphs_of_plain h, clustersOnto_eq h]
    rfl
  rw [words, hclusters]
  cases name with
  | nil =>
    rw [List.map_nil, cut]
    rfl
  | cons b r => rfl

/-- The words of a name make up the name. -/
theorem flatMap_octets_words {name : Bytes} (h : IsPlain name) :
    (words name).flatMap Word.octets = name := by
  rw [words_eq_cut h, flatMap_octets_cut, octetsOf_map_clusterOf]

/-! ## §4 Underscores -/

/-- A name restyled character by character. -/
theorem restyled_ofChars {f : Char → Char}
    (hf : ∀ {b : UInt8}, Bytes.isWord b = true → keeps f b = true) {x : Bytes} (h : IsPlain x) :
    Restyled x (Utf8.ofChars ((x.map fun b => Char.ofNat b.toNat).map f)) := by
  induction x with
  | nil => exact .refl .nil
  | cons b r ih =>
    obtain ⟨hb, hr⟩ := List.forall_mem_cons.mp h
    exact (restyled_of_keeps (hf hb)).2.append (ih hr)

/-- A word in small letters. -/
theorem Word.restyled_lower {w : Word} (h : IsPlain w.octets) : Restyled w.octets w.lower := by
  rw [Word.lower]
  split
  · rw [show w.clusters.flatMap (·.octets) = w.octets from rfl, Utf8.chars_of_ascii h.ascii]
    exact restyled_ofChars keeps_lowerChar h
  · exact .refl h

/-- Words in small letters. -/
theorem restyled_flatMap_lower {l : List Word} (h : IsPlain (l.flatMap Word.octets)) :
    Restyled (l.flatMap Word.octets) (l.flatMap Word.lower) := by
  induction l with
  | nil => exact .refl .nil
  | cons w r ih =>
    rw [List.flatMap_cons] at h
    exact (Word.restyled_lower h.left).append (ih h.right)

/-- An underscore is no letter. -/
theorem restyled_underscore : Restyled [] ("_" : Bytes) := by
  rw [show ("_" : Bytes) = [0x5F] by decide]
  exact ⟨List.forall_mem_singleton.mpr rfl, rfl⟩

/-- An underscore may be added in front of the next word. -/
theorem restyled_bridge_append {l : List Word} {x y : Bytes} (h : Restyled x y) :
    Restyled x (bridge l ++ y) := by
  have hbridge : Restyled [] (bridge l) := by
    cases l with
    | nil => exact .refl .nil
    | cons w r =>
      rw [bridge]
      split
      · exact .refl .nil
      · exact restyled_underscore
  exact hbridge.append h

/-- What stands in a run of digits and letters, and what follows the run. -/
theorem restyled_run {l : List Word} {y : Bytes} (h : IsPlain (l.flatMap Word.octets))
    (hy : IsPlain ((afterRun l).flatMap Word.octets) →
      Restyled ((afterRun l).flatMap Word.octets) y) :
    Restyled (l.flatMap Word.octets)
      ((l.takeWhile Word.inRun).flatMap Word.lower ++ bridge (afterRun l) ++ y) := by
  have hsplit : l.flatMap Word.octets
      = (l.takeWhile Word.inRun).flatMap Word.octets ++ (afterRun l).flatMap Word.octets := by
    rw [← List.flatMap_append, afterRun, List.takeWhile_append_dropWhile]
  rw [hsplit] at h ⊢
  rw [List.append_assoc]
  exact (restyled_flatMap_lower h.left).append (restyled_bridge_append (hy h.right))

/-- Words in small letters with underscores between them. -/
theorem restyled_joinLower {l : List Word} (h : IsPlain (l.flatMap Word.octets)) :
    Restyled (l.flatMap Word.octets) (joinLower l) := by
  -- by the recursion of the function: each word is lowered, and underscores stand between words
  fun_induction joinLower l with
  | case1 => exact .refl .nil
  | case2 w =>
    rw [List.flatMap_cons] at h ⊢
    rw [List.flatMap_nil, List.append_nil] at h ⊢
    exact Word.restyled_lower h
  | case3 w v r _ ih =>
    rw [List.flatMap_cons] at h ⊢
    exact (Word.restyled_lower h.left).append (ih h.right)
  | case4 w v r _ ih =>
    rw [List.flatMap_cons] at h ⊢
    exact (Word.restyled_lower h.left).append (ih h.right)
  | case5 w v r _ rest ih =>
    rw [List.flatMap_cons] at h ⊢
    rw [List.append_assoc, List.append_assoc, ← List.append_assoc _ (bridge rest)]
    exact (Word.restyled_lower h.left).append (restyled_run h.right ih)
  | case6 w v r _ _ _ _ ih =>
    rw [List.flatMap_cons] at h ⊢
    rw [List.append_assoc]
    exact (Word.restyled_lower h.left).append (restyled_bridge_append (ih h.right))
  | case7 w v _ _ _ _ =>
    rw [List.flatMap_cons, List.flatMap_cons, List.flatMap_nil, List.append_nil] at h ⊢
    exact (Word.restyled_lower h.left).append (Word.restyled_lower h.right)
  | case8 w v _ _ _ _ x r _ ih =>
    rw [List.flatMap_cons, List.flatMap_cons] at h ⊢
    rw [List.append_assoc, List.append_assoc]
    exact (Word.restyled_lower h.left).append
      ((Word.restyled_lower h.right.left).append (restyled_bridge_append (ih h.right.right)))
  | case9 w v _ _ _ _ x r _ rest ih =>
    rw [List.flatMap_cons, List.flatMap_cons] at h ⊢
    have hrun := restyled_run h.right.right ih
    have hunder := restyled_underscore.append ((Word.restyled_lower h.right.left).append hrun)
    simpa [rest, List.append_assoc] using (Word.restyled_lower h.left).append hunder

/-- A name in small letters with underscores. -/
theorem restyled_snake {name : Bytes} (h : IsPlain name) : Restyled name (snake name) := by
  have hwords := flatMap_octets_words h
  have hjoin := restyled_joinLower (l := words name) (by rwa [hwords])
  rwa [hwords] at hjoin

/-! ## §5 Capitals -/

/-- Nor is any other connector. -/
theorem core_ofChar_of_connector {c : Char} (h : IsNameChar c) (hc : isConnector c = true) :
    core (Utf8.ofChar c) = [] := by
  obtain ⟨b, hb, rfl⟩ := h
  rw [isConnector_eq hb, beq_iff_eq] at hc
  subst hc
  decide

/-- What follows a character, with its words joined. -/
theorem restyled_joinUpper {last : Char} {x : Bytes} (hlast : IsNameChar last) (h : IsPlain x) :
    Restyled (Utf8.ofChar last ++ x)
      (Utf8.ofChars (joinUpper last (x.map fun b => Char.ofNat b.toNat))) := by
  -- last is the character before, already in its final form
  induction x generalizing last with
  | nil => simpa [joinUpper, Utf8.ofChars] using Restyled.refl hlast.isPlain
  | cons b r ih =>
    obtain ⟨hb, hr⟩ := List.forall_mem_cons.mp h
    have hchar : IsNameChar (Char.ofNat b.toNat) := ⟨b, hb, rfl⟩
    have hoctet := ofChar_ofOctet (Bytes.ascii_of_isWord hb)
    obtain ⟨hupper, hupperOctet⟩ := restyled_of_keeps (keeps_toUpperChar hb)
    obtain ⟨hlower, hlowerOctet⟩ := restyled_of_keeps (keeps_toLowerChar hb)
    rw [List.map_cons, joinUpper]
    split
    · next hconnector =>
      split
      · -- of two connectors the first one stays
        have hrest := ih hchar hr
        rw [hoctet] at hrest
        exact (Restyled.refl hlast.isPlain).append hrest
      · -- a connector is dropped, which is neither a letter nor a digit
        have hrest := (hupperOctet.append (.refl hr)).trans (ih hupper hr)
        refine ⟨hrest.plain, ?_⟩
        rw [hrest.core, core_append _ (b :: r), core_ofChar_of_connector hlast hconnector]
        rfl
    · -- inside a word the letters become small
      exact (Restyled.refl hlast.isPlain).append
        ((hlowerOctet.append (.refl hr)).trans (ih hlower hr))

/-- Characters in a row. -/
theorem ofChars_append (l m : List Char) :
    Utf8.ofChars (l ++ m) = Utf8.ofChars l ++ Utf8.ofChars m := List.flatMap_append

/-- The characters of a name with its words joined by capitals. -/
theorem restyled_capitalize {x : Bytes} (h : IsPlain x) :
    Restyled x (Utf8.ofChars (capitalize (x.map fun b => Char.ofNat b.toNat))) := by
  have hsplit := List.takeWhile_append_dropWhile
    (p := fun b : UInt8 => isConnector (Char.ofNat b.toNat)) (l := x)
  rw [capitalize, List.takeWhile_map, List.dropWhile_map]
  simp only [Function.comp_def]
  generalize hlead : x.takeWhile _ = lead, x.dropWhile _ = rest at hsplit ⊢
  subst hsplit
  have hkeep : Restyled lead (Utf8.ofChars (lead.map fun b => Char.ofNat b.toNat)) := by
    rw [Utf8.ofChars_ascii h.left.ascii]
    exact .refl h.left
  cases rest with
  | nil =>
    -- there are only connectors, and the last of them is written once more
    have hlast : Restyled []
        (Utf8.ofChars (lead.map fun b => Char.ofNat b.toNat).getLast?.toList) := by
      cases hl : lead.getLast? with
      | none =>
        rw [List.getLast?_map, hl]
        exact .refl .nil
      | some b =>
        have hb := List.mem_of_getLast? hl
        have hname : IsNameChar (Char.ofNat b.toNat) := ⟨b, h.left b hb, rfl⟩
        have hconnector : isConnector (Char.ofNat b.toNat) = true := by
          rw [← hlead] at hb
          exact (List.mem_takeWhile_imp hb :)
        rw [List.getLast?_map, hl]
        simpa [Utf8.ofChars] using
          (⟨hname.isPlain, core_ofChar_of_connector hname hconnector⟩ : Restyled [] _)
    rw [List.map_nil, ofChars_append]
    exact hkeep.append hlast
  | cons b r =>
    -- the first character that is no connector is raised
    obtain ⟨hb, hr⟩ := List.forall_mem_cons.mp h.right
    obtain ⟨hupper, hoctet⟩ := restyled_of_keeps (keeps_toUpperChar hb)
    rw [List.map_cons, ofChars_append]
    exact hkeep.append ((hoctet.append (.refl hr)).trans (restyled_joinUpper hupper hr))

/-- A name with its words joined by capitals has the same letters and digits. -/
theorem restyled_pascal {name : Bytes} (h : IsPlain name) : Restyled name (pascal name) := by
  have hsnake := restyled_snake h
  rw [pascal, Utf8.chars_of_ascii hsnake.plain.ascii]
  exact hsnake.trans (restyled_capitalize hsnake.plain)

/-! ## §6 Names that are not empty -/

/-- Some characters are some octets. -/
theorem ofChars_ne_nil {l : List Char} (h : l ≠ []) : Utf8.ofChars l ≠ [] := by
  intro hnil
  have hchars := Utf8.chars_ofChars l
  rw [hnil] at hchars
  exact h hchars.symm

/-- A name that is not empty has characters. -/
theorem chars_ne_nil {x : Bytes} (h : IsPlain x) (hne : x ≠ []) : Utf8.chars x ≠ [] := by
  rw [Utf8.chars_of_ascii h.ascii, Ne, List.map_eq_nil_iff]
  exact hne

/-- A word that is not empty stays so in small letters. -/
theorem Word.lower_ne_nil {w : Word} (h : IsPlain w.octets) (hne : w.octets ≠ []) :
    w.lower ≠ [] := by
  rw [Word.lower]
  split
  · refine ofChars_ne_nil ?_
    rw [Ne, List.map_eq_nil_iff]
    exact chars_ne_nil h hne
  · exact hne

/-- The first word is written first. -/
theorem exists_joinLower (w : Word) (r : List Word) : ∃ t, joinLower (w :: r) = w.lower ++ t := by
  cases r with
  | nil => exact ⟨[], by rw [joinLower, List.append_nil]⟩
  | cons v r =>
    rw [joinLower.eq_def]
    dsimp only
    -- whatever joins the first word to the next one comes behind it
    split
    · exact ⟨_, rfl⟩
    · exact ⟨_, rfl⟩
    · exact ⟨_, by simp only [List.append_assoc]; rfl⟩
    · split
      · exact ⟨_, by simp only [List.append_assoc]; rfl⟩
      · split
        · exact ⟨_, rfl⟩
        · split <;> exact ⟨_, by simp only [List.append_assoc]; rfl⟩

/-- A name is not lost in snake case. -/
theorem snake_ne_nil {name : Bytes} (h : IsPlain name) (hne : name ≠ []) : snake name ≠ [] := by
  obtain ⟨b, r, rfl⟩ := List.exists_cons_of_ne_nil hne
  obtain ⟨w, l, hwords, hhead⟩ :
      ∃ w l, words (b :: r) = w :: l ∧ ∃ x, w.octets = b :: x := by
    rw [words_eq_cut h, List.map_cons, cut]
    exact ⟨_, _, rfl, _, rfl⟩
  obtain ⟨x, hhead⟩ := hhead
  have hoctets := flatMap_octets_words h
  rw [hwords, List.flatMap_cons] at hoctets
  have hplain : IsPlain w.octets := (hoctets ▸ h).left
  obtain ⟨t, ht⟩ := exists_joinLower w l
  rw [snake, hwords, ht]
  exact List.append_ne_nil_of_left_ne_nil (Word.lower_ne_nil hplain (by simp [hhead])) _

/-- Nor is the first character of it. -/
theorem joinUpper_ne_nil (last : Char) (l : List Char) : joinUpper last l ≠ [] := by
  induction l generalizing last with
  | nil => simp [joinUpper]
  | cons c r ih =>
    rw [joinUpper]
    split
    · split
      · exact List.cons_ne_nil _ _
      · exact ih _
    · exact List.cons_ne_nil _ _

/-- Nor in capitals. -/
theorem capitalize_ne_nil {l : List Char} (h : l ≠ []) : capitalize l ≠ [] := by
  rw [capitalize]
  split
  · next hdrop =>
    have hlead := List.takeWhile_append_dropWhile (p := isConnector) (l := l)
    rw [hdrop, List.append_nil] at hlead
    rw [hlead]
    exact List.append_ne_nil_of_left_ne_nil h _
  · exact List.append_ne_nil_of_right_ne_nil _ (joinUpper_ne_nil _ _)

/-- No name becomes empty in another style. -/
theorem pascal_ne_nil {name : Bytes} (h : IsPlain name) (hne : name ≠ []) : pascal name ≠ [] :=
  ofChars_ne_nil (capitalize_ne_nil (chars_ne_nil (restyled_snake h).plain (snake_ne_nil h hne)))

end Idl.Naming
