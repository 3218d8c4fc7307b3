import Idl.Proofs.Token.Tiling
import Mathlib.Data.List.Induction

/-!
# Positions from a table of lines

Finding the line of an offset by halving, in a table of the offsets at which lines start, gives the
position that counting through the source gives; and between characters, a later offset has a later
position.

* §1 halving, §2 the table around an offset,
* §3 both ways to a position, §4 the order of positions.
-/

namespace Idl

namespace Reader

/-! ## §1 Halving -/

/-- The search comes to the index from which on the test holds, if that is within its bounds. -/
theorem search_eq {test : Nat → Option Bool} {n lo hi : Nat}
    (htest : ∀ k < hi, test k = some (decide (n ≤ k))) (hlo : lo ≤ n) (hhi : n ≤ hi) :
    search test lo hi = some n := by
  induction hwidth : hi - lo using Nat.strongRecOn generalizing lo hi with
  | ind width ih =>
    rw [search]
    split
    · next hlt =>
      have hmid : (lo + hi) / 2 < hi := by omega
      rw [htest _ hmid]
      by_cases hle : n ≤ (lo + hi) / 2
      · -- the middle is not before the boundary, which lies in the left half
        have hleft := ih ((lo + hi) / 2 - lo) (by omega)
          (fun k hk => htest k (by omega)) hlo hle rfl
        simpa [hle] using hleft
      · -- the boundary lies behind the middle
        have hright := ih (hi - ((lo + hi) / 2 + 1)) (by omega) htest (by omega) hhi rfl
        simpa [hle] using hright
    · obtain rfl : lo = n := by omega
      rfl

/-! ## §2 The table around an offset -/

theorem startsFrom_append (i : Nat) (u w : Bytes) :
    startsFrom i (u ++ w) = startsFrom i u ++ startsFrom (i + u.length) w := by
  induction u generalizing i with
  | nil => rfl
  | cons c u ih =>
    have hnext : i + 1 + u.length = i + (c :: u).length := by
      rw [List.length_cons]
      omega
    simp only [List.cons_append, startsFrom, ih, hnext]
    split
    · rfl
    · rfl

theorem length_startsFrom (i : Nat) (b : Bytes) : (startsFrom i b).length = b.count 0x0A := by
  induction b generalizing i with
  | nil => rfl
  | cons c b ih =>
    simp only [startsFrom, List.count_cons]
    split
    · rw [List.length_cons, ih]
    · rw [ih, Nat.add_zero]

/-- A line starts behind its newline, which is one of the octets. -/
theorem bounds_of_mem_startsFrom {i s : Nat} {b : Bytes} (h : s ∈ startsFrom i b) :
    i < s ∧ s ≤ i + b.length := by
  induction b generalizing i with
  | nil => cases h
  | cons c b ih =>
    rw [List.length_cons]
    simp only [startsFrom] at h
    split at h
    · rcases List.mem_cons.mp h with rfl | h
      · omega
      · have := ih h
        omega
    · have := ih h
      omega

/-- Octets up to an offset, cut behind their last newline. -/
structure LastLine (b before last : Bytes) : Prop where
  eq : b = before ++ last
  starts : before = [] ∨ before.getLast? = some 0x0A
  unbroken : 0x0A ∉ last

/-- Every text ends in a last line. -/
theorem exists_lastLine (b : Bytes) : ∃ before last, LastLine b before last := by
  induction b using List.reverseRecOn with
  | nil => exact ⟨[], [], rfl, .inl rfl, List.not_mem_nil⟩
  | append_singleton b c ih =>
    obtain ⟨before, last, rfl, starts, unbroken⟩ := ih
    -- a line break begins a new line, and any other byte lengthens the last one
    by_cases hc : c = 0x0A
    · refine ⟨before ++ last ++ [c], [], (List.append_nil _).symm, .inr ?_, List.not_mem_nil⟩
      rw [List.getLast?_append, hc]
      rfl
    · refine ⟨before, last ++ [c], List.append_assoc .., starts, ?_⟩
      rw [List.mem_append, List.mem_singleton]
      rintro (h | h)
      · exact unbroken h
      · exact hc h.symm

namespace LastLine

variable {src before last rest : Bytes}

/-- The last line has no newline, so all newlines are in front of it. -/
theorem count (h : LastLine src before last) : src.count 0x0A = before.count 0x0A := by
  rw [h.eq, List.count_append, List.count_eq_zero.mpr h.unbroken, Nat.add_zero]

/-- The table has the lines that start up to an offset, and then those that start behind it. -/
theorem lineTable_eq (h : LastLine src before last) :
    lineTable (src ++ rest) = (0 :: startsFrom 0 before) ++ startsFrom src.length rest := by
  have hnone : startsFrom before.length last = [] := by
    rw [← List.length_eq_zero_iff, length_startsFrom]
    exact List.count_eq_zero.mpr h.unbroken
  rw [lineTable, startsFrom_append, Nat.zero_add]
  conv_lhs => rw [h.eq, startsFrom_append, Nat.zero_add, hnone, List.append_nil, ← h.eq]
  rfl

/-- As many lines start behind the first one as there are newlines, and the last of them is the line
of the offset. -/
theorem getElem?_lineTable (h : LastLine src before last) :
    (lineTable (src ++ rest))[src.count 0x0A]? = some before.length := by
  rw [h.lineTable_eq, h.count]
  rcases h.starts with rfl | hlast
  · rfl
  · obtain ⟨u, rfl⟩ := List.getLast?_eq_some_iff.mp hlast
    have hu : (startsFrom 0 u).length = u.count 0x0A := length_startsFrom 0 u
    have hone : startsFrom (0 + u.length) [0x0A] = [u.length + 1] := by simp [startsFrom]
    rw [startsFrom_append, hone, List.count_append, List.count_singleton_self,
      ← List.cons_append, List.append_assoc, List.getElem?_append_right (by simp [hu])]
    simp [hu]

/-- The lines from the next one on are those that start behind the offset. -/
theorem startsBehind_lineTable (h : LastLine src before last) {k : Nat}
    (hk : k < (lineTable (src ++ rest)).length) :
    startsBehind (lineTable (src ++ rest)) src.length k
      = some (decide (src.count 0x0A + 1 ≤ k)) := by
  have hlength : (0 :: startsFrom 0 before).length = src.count 0x0A + 1 := by
    rw [List.length_cons, length_startsFrom, h.count]
  rw [h.lineTable_eq] at hk ⊢
  rw [startsBehind, List.getElem?_eq_getElem hk, Option.map_some, Option.some_inj]
  -- an entry of the part behind, or of the lines read so far
  by_cases hle : src.count 0x0A + 1 ≤ k
  · rw [List.getElem_append_right (by omega)]
    have hmem := bounds_of_mem_startsFrom (List.getElem_mem (l := startsFrom src.length rest)
      (n := k - (0 :: startsFrom 0 before).length) (by rw [List.length_append] at hk; omega))
    rw [decide_eq_true hle, decide_eq_true hmem.1]
  · rw [List.getElem_append_left (by omega)]
    have hlt : k < (0 :: startsFrom 0 before).length := by omega
    -- a line before starts at the first byte or behind a line break
    have hbound : (0 :: startsFrom 0 before)[k] ≤ src.length := by
      have hmem := List.getElem_mem (l := 0 :: startsFrom 0 before) (n := k) (by omega)
      have hbefore : before.length ≤ src.length := by
        rw [h.eq, List.length_append]
        omega
      rcases List.mem_cons.mp hmem with hzero | hmem
      · omega
      · have := bounds_of_mem_startsFrom hmem
        omega
    rw [decide_eq_false hle, decide_eq_false (Nat.not_lt.mpr hbound)]

/-! ## §3 Both ways to a position -/

/-- The look-up counts the newlines up to an offset, and the glyphs of its line. -/
theorem lookUp_eq (h : LastLine src before last) :
    lookUp (src ++ rest) (lineTable (src ++ rest)) src.length
      = some ⟨1 + src.count 0x0A, 1 + Utf8.count last⟩ := by
  -- the search finds the first line that starts behind the offset
  have hsearch : search (startsBehind (lineTable (src ++ rest)) src.length) 0
      (lineTable (src ++ rest)).length = some (src.count 0x0A + 1) := by
    refine search_eq (fun k hk => h.startsBehind_lineTable hk) (Nat.zero_le _) ?_
    rw [h.lineTable_eq, List.length_append, List.length_cons, length_startsFrom, h.count]
    omega
  -- and the line before it, cut off at the offset, is the last one
  have hslice : slice? (src ++ rest) before.length src.length = some last := by
    rw [slice?, List.take_left, if_pos]
    · conv_lhs => rw [h.eq, List.drop_left]
    · rw [List.length_append, h.eq, List.length_append]
      omega
  simp only [lookUp, hsearch, Option.bind_eq_bind, Option.bind_some, h.getElem?_lineTable, hslice]
  rw [Nat.add_comm 1 (src.count 0x0A)]
  rfl

/-- So does counting from the start of the source. -/
theorem advance_eq (h : LastLine src before last) :
    Pos.start.advance src = ⟨1 + src.count 0x0A, 1 + Utf8.count last⟩ := by
  -- the bytes behind the last line break are those of the last line
  have hline : (src.reverse.takeWhile (· != 0x0A)).reverse = last := by
    have hall : ∀ a ∈ last.reverse, (a != 0x0A) = true := by
      intro a ha
      rw [bne_iff_ne]
      rintro rfl
      exact h.unbroken (List.mem_reverse.mp ha)
    rw [h.eq, List.reverse_append, List.takeWhile_append_of_pos hall]
    rcases h.starts with rfl | hlast
    · simp
    · obtain ⟨u, rfl⟩ := List.getLast?_eq_some_iff.mp hlast
      simp
  unfold Pos.advance
  simp only [hline, beq_iff_eq]
  split
  · next hzero =>
    -- without a line break the text is one line
    have hbefore : before = [] := by
      rcases h.starts with hnil | hlast
      · exact hnil
      · obtain ⟨u, rfl⟩ := List.getLast?_eq_some_iff.mp hlast
        rw [h.count, List.count_append, List.count_singleton_self] at hzero
        omega
    rw [hzero, h.eq, hbefore]
    rfl
  · rfl

end LastLine

/-- Up to the end of the source, the look-up and the count agree. -/
theorem lookUp_eq_ofOffset {src : Bytes} {offset : Nat} (h : offset ≤ src.length) :
    lookUp src (lineTable src) offset = some (Pos.ofOffset src offset) := by
  obtain ⟨before, last, hlast⟩ := exists_lastLine (src.take offset)
  have hlookUp : lookUp (src.take offset ++ src.drop offset)
      (lineTable (src.take offset ++ src.drop offset)) (src.take offset).length = some _ :=
    hlast.lookUp_eq
  rw [List.take_append_drop, List.length_take, Nat.min_eq_left h] at hlookUp
  rw [hlookUp, Pos.ofOffset, hlast.advance_eq]

/-- The reader that looks at its source by index looks its positions up in the table. -/
theorem posOf_eq_lookUp (offset : Nat) (m : Context) (h : offset ≤ m.src.length) :
    posOf offset m = (lookUp m.src (lineTable m.src) offset).map fun p => (p, m) := by
  rw [lookUp_eq_ofOffset h]
  change (need (slice? m.src 0 offset) >>= fun _ => pure (Pos.ofOffset m.src offset)) m = _
  rw [slice?, if_pos ⟨Nat.zero_le _, h⟩]
  rfl

end Reader

/-! ## §4 The order of positions -/

/-- One position is in front of another: on an earlier line, or on the same line and further left. -/
def Pos.Before (p q : Pos) : Prop := p.line < q.line ∨ p.line = q.line ∧ p.col < q.col

/-- Some text takes a position further. -/
theorem Pos.before_advance (p : Pos) {text : Bytes} (h : text ≠ []) : p.Before (p.advance text) := by
  -- some character is read
  have hcount : 0 < Utf8.count text := by
    cases text with
    | nil => exact absurd rfl h
    | cons a r =>
      rw [Utf8.count, Utf8.glyphs_cons]
      exact Nat.succ_pos _
  unfold Pos.advance Pos.Before
  dsimp only
  -- on the same line, further to the right; or on a later one
  split
  · exact .inr ⟨rfl, by dsimp only; omega⟩
  · next hbreaks =>
    have hbreaks : text.count 0x0A ≠ 0 := by simpa using hbreaks
    exact .inl (by dsimp only; omega)

/-- Between characters, what follows begins with a character. -/
theorem Utf8.Between.begins {b : Bytes} {n : Nat} (h : Utf8.Between b n) : Utf8.Begins (b.drop n) := by
  obtain ⟨before, after, rfl, rfl⟩ := h
  rw [List.drop_left]
  exact begins_of_isValid (isValid_ofChars after)

theorem Utf8.Between.le {b : Bytes} {n : Nat} (h : Utf8.Between b n) : n ≤ b.length := by
  obtain ⟨before, after, rfl, rfl⟩ := h
  simp

/-- Between characters, a later offset has a later position. -/
theorem Pos.before_of_lt {src : Bytes} {m n : Nat} (hm : Utf8.Between src m)
    (hn : n ≤ src.length) (hlt : m < n) : (ofOffset src m).Before (ofOffset src n) := by
  obtain ⟨k, rfl⟩ := Nat.exists_eq_add_of_lt hlt
  rw [Nat.add_assoc, ofOffset_add hm.begins]
  refine before_advance _ fun hnil => ?_
  have hlength := congrArg List.length hnil
  rw [List.length_take, List.length_drop, List.length_nil] at hlength
  omega

namespace Reader

/-- The position of an offset by the table of lines is the one that counting gives: the line is one
more than the newlines in front of it, and the column one more than the glyphs behind the last of
them. In a source of whole characters the positions between characters are in the order of their
offsets. -/
theorem lookUp_lineTable (src : Bytes) :
    (∀ o ≤ src.length, ∃ before last, src.take o = before ++ last
        ∧ (before = [] ∨ before.getLast? = some 0x0A) ∧ 0x0A ∉ last
        ∧ lookUp src (lineTable src) o
          = some ⟨1 + (src.take o).count 0x0A, 1 + (Utf8.glyphs last).length⟩
        ∧ Pos.ofOffset src o
          = ⟨1 + (src.take o).count 0x0A, 1 + (Utf8.glyphs last).length⟩)
      ∧ ∀ m n, Utf8.Between src m → Utf8.Between src n → m < n →
        (Pos.ofOffset src m).Before (Pos.ofOffset src n) := by
  refine ⟨fun o ho => ?_, fun m n hm hn hlt => Pos.before_of_lt hm hn.le hlt⟩
  obtain ⟨before, last, h⟩ := exists_lastLine (src.take o)
  refine ⟨before, last, h.eq, h.starts, h.unbroken, ?_, h.advance_eq⟩
  rw [lookUp_eq_ofOffset ho, Pos.ofOffset, h.advance_eq]
  rfl

/-- Two lines, the second of which is a letter of two octets. -/
theorem lookUp_lineTable_two_lines :
    lookUp [0x61, 0x0A, 0xC3, 0x9F] (lineTable [0x61, 0x0A, 0xC3, 0x9F]) 4
        = some (Pos.ofOffset [0x61, 0x0A, 0xC3, 0x9F] 4)
      ∧ (Pos.ofOffset [0x61, 0x0A, 0xC3, 0x9F] 2).Before
        (Pos.ofOffset [0x61, 0x0A, 0xC3, 0x9F] 4) := by
  obtain ⟨_, _, -, -, -, hlookUp, hoffset⟩ :=
    (lookUp_lineTable [0x61, 0x0A, 0xC3, 0x9F]).1 4 (by decide)
  refine ⟨by rw [hlookUp, hoffset], (lookUp_lineTable [0x61, 0x0A, 0xC3, 0x9F]).2 2 4 ?_ ?_ ?_⟩
  · exact Utf8.between_of_isValid (by decide) (by decide) (by decide)
  · exact Utf8.between_of_isValid (by decide) (by decide) (by decide)
  · decide

end Reader

end Idl
