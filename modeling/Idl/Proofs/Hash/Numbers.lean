import Idl.Hash.Sha256

/-!
# The digest on numbers

The words of the digest are numbers below 2^32. Computed with natural numbers in their place, the
digest is the same, and the kernel, which knows how to calculate with natural numbers, evaluates it
for a given message in a fraction of the time.
-/

namespace Idl.Sha256

/-! ## §1 Words as numbers -/

/-- The sum of two words. -/
def plus (x y : Nat) : Nat := (x + y) % 0x100000000

/-- A word rotated to the right by a number of bits between 1 and 31. -/
def turn (x n : Nat) : Nat := (x >>> n) ||| ((x <<< (32 - n)) % 0x100000000)

/-- The state: eight words. -/
structure Numbers where
  a : Nat
  b : Nat
  c : Nat
  d : Nat
  e : Nat
  f : Nat
  g : Nat
  h : Nat

/-- The numbers of a state. -/
def State.numbers (s : State) : Numbers :=
  ⟨s.a.toNat, s.b.toNat, s.c.toNat, s.d.toNat, s.e.toNat, s.f.toNat, s.g.toNat, s.h.toNat⟩

namespace Numbers

/-- The state of the numbers. -/
def state (n : Numbers) : State :=
  ⟨n.a.toUInt32, n.b.toUInt32, n.c.toUInt32, n.d.toUInt32, n.e.toUInt32, n.f.toUInt32,
    n.g.toUInt32, n.h.toUInt32⟩

/-- The word that follows sixteen others: a mix of four of them. -/
def next (w : List Nat) : Nat :=
  let x := w.getD 1 0
  let y := w.getD 14 0
  let s0 := turn x 7 ^^^ turn x 18 ^^^ (x >>> 3)
  let s1 := turn y 17 ^^^ turn y 19 ^^^ (y >>> 10)
  plus (plus (plus (w.getD 0 0) s0) (w.getD 9 0)) s1

/-- Words and those that follow them. Only the last sixteen are kept at hand. -/
def schedule : (more : Nat) → List Nat → List Nat
  | 0, w => w
  | n + 1, w =>
    match w ++ [next w] with
    | [] => []
    | x :: r => x :: schedule n r

/-- One round, with the round's constant and word already added up. -/
def round (s : Numbers) (kw : Nat) : Numbers :=
  let s1 := turn s.e 6 ^^^ turn s.e 11 ^^^ turn s.e 25
  let ch := (s.e &&& s.f) ^^^ ((0xFFFFFFFF - s.e) &&& s.g)
  let t1 := plus (plus (plus s.h s1) ch) kw
  let s0 := turn s.a 2 ^^^ turn s.a 13 ^^^ turn s.a 22
  let maj := (s.a &&& s.b) ^^^ (s.a &&& s.c) ^^^ (s.b &&& s.c)
  { a := plus t1 (plus s0 maj), b := s.a, c := s.b, d := s.c
    e := plus s.d t1, f := s.e, g := s.f, h := s.g }

/-- The sum of two states, word by word. -/
def add (s t : Numbers) : Numbers :=
  ⟨plus s.a t.a, plus s.b t.b, plus s.c t.c, plus s.d t.d, plus s.e t.e, plus s.f t.f, plus s.g t.g,
    plus s.h t.h⟩

/-- Mixes a block of sixteen words into the state. -/
def compress (s : Numbers) (block : List Nat) : Numbers :=
  s.add ((List.zipWith plus (constants.map UInt32.toNat) (schedule 48 block)).foldl round s)

end Numbers

/-! ## §2 The same digest -/

theorem toNat_add (x y : UInt32) : (x + y).toNat = plus x.toNat y.toNat := UInt32.toNat_add x y

theorem numbers_state (s : State) : s.numbers.state = s := by
  simp [State.numbers, Numbers.state]

theorem numbers_round (s : State) (kw : UInt32) :
    (round s kw).numbers = s.numbers.round kw.toNat := by
  simp [-UInt32.toNat_add, State.numbers, Numbers.round, round, rotr, turn, toNat_add,
    UInt32.toNat_shiftLeft, UInt32.toNat_shiftRight]

/-- What has left the window stands in front of the words that are kept at hand. -/
theorem foldl_next (n : Nat) (before w : List Nat) :
    (List.range' before.length n).foldl (fun w i => w ++ [Numbers.next (w.drop i)]) (before ++ w)
      = before ++ Numbers.schedule n w := by
  induction n generalizing before w with
  | zero => rfl
  | succ n ih =>
    rw [List.range'_succ, List.foldl_cons, List.drop_left, List.append_assoc]
    rcases hw : w ++ [Numbers.next w] with _ | ⟨x, r⟩
    · simp at hw
    have hlength : before.length + 1 = (before ++ [x]).length := by simp
    rw [Numbers.schedule, hw, hlength, List.append_cons, ih, List.append_assoc]
    rfl

theorem numbers_schedule (block : Array UInt32) :
    (schedule block).toList.map UInt32.toNat
      = Numbers.schedule 48 (block.toList.map UInt32.toNat) := by
  have hget (w : Array UInt32) (i k : Nat) :
      ((w.toList.map UInt32.toNat).drop i).getD k 0 = (w.getD (i + k) 0).toNat := by
    by_cases hi : i + k < w.size <;> simp [Array.getD, hi]
  refine Eq.trans ?_ (foldl_next 48 [] (block.toList.map UInt32.toNat))
  refine (List.foldl_hom (fun w : Array UInt32 => w.toList.map UInt32.toNat) fun w i => ?_).symm
  simp [-UInt32.toNat_add, -Array.getD_eq_getD_getElem?, -List.getD_eq_getElem?_getD, hget,
    Numbers.next, rotr, turn, toNat_add, UInt32.toNat_shiftLeft, UInt32.toNat_shiftRight]

theorem numbers_compress (s : State) (block : Array UInt32) :
    (compress s block).numbers = s.numbers.compress (block.toList.map UInt32.toNat) := by
  have hadd (s t : State) : (s.add t).numbers = s.numbers.add t.numbers := by
    simp only [State.numbers, Numbers.add, State.add, toNat_add]
  have hzip : (List.zipWith (· + ·) constants (schedule block).toList).map UInt32.toNat
      = List.zipWith plus (constants.map UInt32.toNat)
        (Numbers.schedule 48 (block.toList.map UInt32.toNat)) := by
    rw [← numbers_schedule, List.map_zipWith, List.zipWith_map]
    simp only [toNat_add]
  have hfold (l : List UInt32) (s : State) :
      (l.foldl round s).numbers = (l.map UInt32.toNat).foldl Numbers.round s.numbers := by
    induction l generalizing s with
    | nil => rfl
    | cons kw l ih => rw [List.foldl_cons, ih, numbers_round, List.map_cons, List.foldl_cons]
  rw [compress, hadd, hfold, hzip, Numbers.compress]

/-- What has been read of the input, with the state as numbers. -/
structure Tally where
  numbers : Numbers
  block : Array UInt32
  word : UInt32
  count : Nat

/-- What has been read, with the state as numbers. -/
def Progress.tally (p : Progress) : Tally := ⟨p.state.numbers, p.block, p.word, p.count⟩

/-- Takes one octet in. -/
def Tally.feed (p : Tally) (b : UInt8) : Tally :=
  let word := (p.word <<< 8) ||| b.toUInt32
  if p.count < 3 then { p with word, count := p.count + 1 }
  else
    let block := p.block.push word
    if block.size < 16 then { p with block, word := 0, count := 0 }
    else ⟨p.numbers.compress (block.toList.map UInt32.toNat), #[], 0, 0⟩

theorem tally_feed (p : Progress) (b : UInt8) : (p.feed b).tally = p.tally.feed b := by
  by_cases hword : p.count < 3
  · simp [Progress.feed, Tally.feed, Progress.tally, hword]
  by_cases hblock : p.block.size + 1 < 16
  · simp [Progress.feed, Tally.feed, Progress.tally, hword, hblock]
  · simp [Progress.feed, Tally.feed, Progress.tally, hword, hblock, numbers_compress]

/-- The digest of a message, computed with numbers. -/
def hashNumbers (message : Bytes) : Bytes :=
  ((message ++ padding message.length).foldl Tally.feed
    ⟨initial.numbers, #[], 0, 0⟩).numbers.state.octets

theorem hash_eq (message : Bytes) : hash message = hashNumbers message := by
  have htally : ((message ++ padding message.length).foldl Progress.feed
      ⟨initial, #[], 0, 0⟩).tally
      = (message ++ padding message.length).foldl Tally.feed ⟨initial.numbers, #[], 0, 0⟩ :=
    (List.foldl_hom Progress.tally fun p b => (tally_feed p b).symm).symm
  rw [hashNumbers, ← htally, Progress.tally, numbers_state]
  rfl

end Idl.Sha256
