namespace Interop.Text.Digest

/-- The constants of the rounds: the first bits behind the point of the cube roots of the first
sixty-four primes. -/
def roundConstants : List UInt32 :=
  [0x428a2f98, 0x71374491, 0xb5c0fbcf, 0xe9b5dba5, 0x3956c25b, 0x59f111f1, 0x923f82a4, 0xab1c5ed5,
    0xd807aa98, 0x12835b01, 0x243185be, 0x550c7dc3, 0x72be5d74, 0x80deb1fe, 0x9bdc06a7, 0xc19bf174,
    0xe49b69c1, 0xefbe4786, 0x0fc19dc6, 0x240ca1cc, 0x2de92c6f, 0x4a7484aa, 0x5cb0a9dc, 0x76f988da,
    0x983e5152, 0xa831c66d, 0xb00327c8, 0xbf597fc7, 0xc6e00bf3, 0xd5a79147, 0x06ca6351, 0x14292967,
    0x27b70a85, 0x2e1b2138, 0x4d2c6dfc, 0x53380d13, 0x650a7354, 0x766a0abb, 0x81c2c92e, 0x92722c85,
    0xa2bfe8a1, 0xa81a664b, 0xc24b8b70, 0xc76c51a3, 0xd192e819, 0xd6990624, 0xf40e3585, 0x106aa070,
    0x19a4c116, 0x1e376c08, 0x2748774c, 0x34b0bcb5, 0x391c0cb3, 0x4ed8aa4a, 0x5b9cca4f, 0x682e6ff3,
    0x748f82ee, 0x78a5636f, 0x84c87814, 0x8cc70208, 0x90befffa, 0xa4506ceb, 0xbef9a3f7, 0xc67178f2]

/-- The eight words that blocks are mixed into. -/
structure State where
  a : UInt32
  b : UInt32
  c : UInt32
  d : UInt32
  e : UInt32
  f : UInt32
  g : UInt32
  h : UInt32
deriving DecidableEq, Repr

/-- The state before the first block: the first bits behind the point of the square roots of the
first eight primes. -/
def initial : State where
  a := 0x6a09e667
  b := 0xbb67ae85
  c := 0x3c6ef372
  d := 0xa54ff53a
  e := 0x510e527f
  f := 0x9b05688c
  g := 0x1f83d9ab
  h := 0x5be0cd19

/-- The words of a state, in their order. -/
def State.words (s : State) : List UInt32 :=
  [s.a, s.b, s.c, s.d, s.e, s.f, s.g, s.h]

/-- The word-wise sum of two states. -/
def State.add (s t : State) : State where
  a := s.a + t.a
  b := s.b + t.b
  c := s.c + t.c
  d := s.d + t.d
  e := s.e + t.e
  f := s.f + t.f
  g := s.g + t.g
  h := s.h + t.h

/-- A word turned right by some places. -/
def turn (x n : UInt32) : UInt32 :=
  (x >>> n) ||| (x <<< (32 - n))

/-- One round with the sum of a scheduled word and a constant. -/
def round (s : State) (input : UInt32) : State :=
  let big := turn s.e 6 ^^^ turn s.e 11 ^^^ turn s.e 25
  let choice := (s.e &&& s.f) ^^^ (~~~s.e &&& s.g)
  let first := s.h + big + choice + input
  let small := turn s.a 2 ^^^ turn s.a 13 ^^^ turn s.a 22
  let majority := (s.a &&& s.b) ^^^ (s.a &&& s.c) ^^^ (s.b &&& s.c)
  { a := first + small + majority, b := s.a, c := s.b, d := s.c, e := s.d + first, f := s.e,
    g := s.f
    h := s.g }

/-- The next scheduled word, from those before it, the last first. -/
def nextWord (back : List UInt32) : UInt32 :=
  let word (n : Nat) : UInt32 := back.getD (n - 1) 0
  let two := turn (word 2) 17 ^^^ turn (word 2) 19 ^^^ (word 2 >>> 10)
  let fifteen := turn (word 15) 7 ^^^ turn (word 15) 18 ^^^ (word 15 >>> 3)
  two + word 7 + fifteen + word 16

/-- Schedules further words behind those of a block; the words are kept the last first. -/
def scheduleBack : (count : Nat) → List UInt32 → List UInt32
  | 0, back => back
  | count + 1, back => scheduleBack count (nextWord back :: back)

/-- Mixes a block of sixteen words into a state. -/
def compress (s : State) (block : List UInt32) : State :=
  let schedule := (scheduleBack 48 block.reverse).reverse
  (List.zipWith (· + ·) schedule roundConstants).foldl round s |>.add s

/-- The bytes of a number, the highest first. -/
def bytesOf (count : Nat) (n : Nat) : List UInt8 :=
  (List.range count).reverse.map fun i => (n >>> (8 * i)).toUInt8

/-- The padding of a message of the given length: a set bit, clear bits up to a whole block, and the
length in bits. -/
def padding (length : Nat) : List UInt8 :=
  0x80 :: (List.replicate ((119 - length % 64) % 64) 0 ++ bytesOf 8 (8 * length))

/-- The words that bytes make, four each. -/
def wordsOf : List UInt8 → List UInt32
  | a :: b :: c :: d :: rest =>
    ((a.toUInt32 <<< 24) ||| (b.toUInt32 <<< 16) ||| (c.toUInt32 <<< 8) ||| d.toUInt32) ::
      wordsOf rest
  | _ => []

/-- Mixes all blocks of a message into a state. -/
def compressAll (s : State) (words : List UInt32) : State :=
  match words with
  | [] => s
  | w :: rest => compressAll (compress s ((w :: rest).take 16)) ((w :: rest).drop 16)
termination_by words.length
decreasing_by simp only [List.length_drop, List.length_cons]; omega

/-- The state after a message. -/
def digest (message : List UInt8) : State :=
  compressAll initial (wordsOf (message ++ padding message.length))

/-- The hexadecimal digits of a byte. -/
def hexByte (b : UInt8) : List Char :=
  [Nat.digitChar (b.toNat / 16), Nat.digitChar (b.toNat % 16)]

/-- The digest of a text in hexadecimal digits. -/
def ofText (text : String) : String :=
  String.ofList <| (digest text.toUTF8.toList).words.flatMap fun w =>
    (bytesOf 4 w.toNat).flatMap hexByte

end Interop.Text.Digest
