import Idl.Bytes

/-!
# The SHA-256 digest

Octets are padded to blocks of sixteen words; each block is mixed into a state of eight words, whose
octets at the end are the digest.
-/

namespace Idl.Sha256

/-- The state: eight words. -/
structure State where
  a : UInt32
  b : UInt32
  c : UInt32
  d : UInt32
  e : UInt32
  f : UInt32
  g : UInt32
  h : UInt32

/-- The state before the first block: the fractions of the square roots of the first eight primes.
-/
def initial : State where
  a := 0x6a09e667
  b := 0xbb67ae85
  c := 0x3c6ef372
  d := 0xa54ff53a
  e := 0x510e527f
  f := 0x9b05688c
  g := 0x1f83d9ab
  h := 0x5be0cd19

/-- The constants of the rounds: the fractions of the cube roots of the first 64 primes. -/
def constants : List UInt32 :=
  [0x428a2f98, 0x71374491, 0xb5c0fbcf, 0xe9b5dba5, 0x3956c25b, 0x59f111f1, 0x923f82a4,
   0xab1c5ed5, 0xd807aa98, 0x12835b01, 0x243185be, 0x550c7dc3, 0x72be5d74, 0x80deb1fe,
   0x9bdc06a7, 0xc19bf174, 0xe49b69c1, 0xefbe4786, 0x0fc19dc6, 0x240ca1cc, 0x2de92c6f,
   0x4a7484aa, 0x5cb0a9dc, 0x76f988da, 0x983e5152, 0xa831c66d, 0xb00327c8, 0xbf597fc7,
   0xc6e00bf3, 0xd5a79147, 0x06ca6351, 0x14292967, 0x27b70a85, 0x2e1b2138, 0x4d2c6dfc,
   0x53380d13, 0x650a7354, 0x766a0abb, 0x81c2c92e, 0x92722c85, 0xa2bfe8a1, 0xa81a664b,
   0xc24b8b70, 0xc76c51a3, 0xd192e819, 0xd6990624, 0xf40e3585, 0x106aa070, 0x19a4c116,
   0x1e376c08, 0x2748774c, 0x34b0bcb5, 0x391c0cb3, 0x4ed8aa4a, 0x5b9cca4f, 0x682e6ff3,
   0x748f82ee, 0x78a5636f, 0x84c87814, 0x8cc70208, 0x90befffa, 0xa4506ceb, 0xbef9a3f7,
   0xc67178f2]

/-- Rotates a word to the right by a number of bits between 1 and 31. -/
def rotr (x n : UInt32) : UInt32 := (x >>> n) ||| (x <<< (32 - n))

/-- The words of all rounds: those of the block, then each a mix of four earlier ones. -/
def schedule (block : Array UInt32) : Array UInt32 :=
  (List.range 48).foldl
    (fun w i =>
      let x := w.getD (i + 1) 0
      let y := w.getD (i + 14) 0
      let s0 := rotr x 7 ^^^ rotr x 18 ^^^ (x >>> 3)
      let s1 := rotr y 17 ^^^ rotr y 19 ^^^ (y >>> 10)
      w.push (w.getD i 0 + s0 + w.getD (i + 9) 0 + s1))
    block

/-- One round, with the round's constant and word already added up in `kw`. -/
def round (s : State) (kw : UInt32) : State :=
  let s1 := rotr s.e 6 ^^^ rotr s.e 11 ^^^ rotr s.e 25
  let ch := (s.e &&& s.f) ^^^ (~~~s.e &&& s.g)
  let t1 := s.h + s1 + ch + kw
  let s0 := rotr s.a 2 ^^^ rotr s.a 13 ^^^ rotr s.a 22
  let maj := (s.a &&& s.b) ^^^ (s.a &&& s.c) ^^^ (s.b &&& s.c)
  { a := t1 + (s0 + maj), b := s.a, c := s.b, d := s.c
    e := s.d + t1, f := s.e, g := s.f, h := s.g }

/-- The sum of two states, word by word. -/
def State.add (s t : State) : State where
  a := s.a + t.a
  b := s.b + t.b
  c := s.c + t.c
  d := s.d + t.d
  e := s.e + t.e
  f := s.f + t.f
  g := s.g + t.g
  h := s.h + t.h

/-- Mixes a block of sixteen words into the state. -/
def compress (s : State) (block : Array UInt32) : State :=
  s.add ((List.zipWith (· + ·) constants (schedule block).toList).foldl round s)

/-- What has been read of the input: the state after the complete blocks, the complete words of the
current block, and the octets of the current word as a number and a count. -/
structure Progress where
  state : State
  block : Array UInt32
  word : UInt32
  count : Nat

/-- Takes one octet in. -/
def Progress.feed (p : Progress) (b : UInt8) : Progress :=
  let word := (p.word <<< 8) ||| b.toUInt32
  if p.count < 3 then { p with word, count := p.count + 1 }
  else
    let block := p.block.push word
    if block.size < 16 then { p with block, word := 0, count := 0 }
    else ⟨compress p.state block, #[], 0, 0⟩

/-- The four octets of a word, the highest first. -/
def wordOctets (w : UInt32) : Bytes :=
  [(w >>> 24).toUInt8, (w >>> 16).toUInt8, (w >>> 8).toUInt8, w.toUInt8]

/-- The octets after the message: a one bit, zeros up to a block less eight octets, and the length
of the message in bits. -/
def padding (length : Nat) : Bytes :=
  let bits := 8 * length
  let zeros := (55 + 64 - length % 64) % 64
  0x80 :: List.replicate zeros 0
    ++ wordOctets (bits / 2 ^ 32).toUInt32 ++ wordOctets bits.toUInt32

/-- The octets of a state. -/
def State.octets (s : State) : Bytes :=
  wordOctets s.a ++ wordOctets s.b ++ wordOctets s.c ++ wordOctets s.d
    ++ wordOctets s.e ++ wordOctets s.f ++ wordOctets s.g ++ wordOctets s.h

theorem State.length_octets (s : State) : s.octets.length = 32 := rfl

/-- The digest of a message. -/
def hash (message : Bytes) : Bytes :=
  let start : Progress := ⟨initial, #[], 0, 0⟩
  ((message ++ padding message.length).foldl Progress.feed start).state.octets

theorem length_hash (message : Bytes) : (hash message).length = 32 := State.length_octets _

end Idl.Sha256
