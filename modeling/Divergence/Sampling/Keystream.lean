/-
# `Divergence.Sampling.Keystream` — the random numbers of a seed

Sampling draws its randomness from the ChaCha stream cipher with eight
rounds: a seed of 64 bits is expanded to a key of eight words, and the words
of the key's blocks, one block after the other, are the random numbers.  The
same seed gives the same numbers, always and everywhere.
-/

namespace Divergence.Sampling

/-! ## Blocks -/

structure Block where
  (a0 a1 a2 a3 b0 b1 b2 b3 c0 c1 c2 c3 d0 d1 d2 d3 : UInt32)

def rotateLeft (x : UInt32) (n : UInt32) : UInt32 :=
  (x <<< n) ||| (x >>> (32 - n))

/-- The quarter round on four words. -/
def quarter (a b c d : UInt32) : UInt32 × UInt32 × UInt32 × UInt32 :=
  let a := a + b
  let d := rotateLeft (d ^^^ a) 16
  let c := c + d
  let b := rotateLeft (b ^^^ c) 12
  let a := a + b
  let d := rotateLeft (d ^^^ a) 8
  let c := c + d
  let b := rotateLeft (b ^^^ c) 7
  (a, b, c, d)

/-- A round on the columns and a round on the diagonals. -/
def doubleRound (s : Block) : Block :=
  let (a0, b0, c0, d0) := quarter s.a0 s.b0 s.c0 s.d0
  let (a1, b1, c1, d1) := quarter s.a1 s.b1 s.c1 s.d1
  let (a2, b2, c2, d2) := quarter s.a2 s.b2 s.c2 s.d2
  let (a3, b3, c3, d3) := quarter s.a3 s.b3 s.c3 s.d3
  let (a0, b1, c2, d3) := quarter a0 b1 c2 d3
  let (a1, b2, c3, d0) := quarter a1 b2 c3 d0
  let (a2, b3, c0, d1) := quarter a2 b3 c0 d1
  let (a3, b0, c1, d2) := quarter a3 b0 c1 d2
  { a0, a1, a2, a3, b0, b1, b2, b3, c0, c1, c2, c3, d0, d1, d2, d3 }

def Block.words (s : Block) : List UInt32 :=
  [s.a0, s.a1, s.a2, s.a3, s.b0, s.b1, s.b2, s.b3,
   s.c0, s.c1, s.c2, s.c3, s.d0, s.d1, s.d2, s.d3]

structure Key where
  (k0 k1 k2 k3 k4 k5 k6 k7 : UInt32)
  deriving DecidableEq

/-- The block that is scrambled for a key and a block number. -/
def Key.input (key : Key) (number : UInt64) : Block where
  a0 := 0x61707865
  a1 := 0x3320646e
  a2 := 0x79622d32
  a3 := 0x6b206574
  b0 := key.k0
  b1 := key.k1
  b2 := key.k2
  b3 := key.k3
  c0 := key.k4
  c1 := key.k5
  c2 := key.k6
  c3 := key.k7
  d0 := number.toUInt32
  d1 := (number >>> 32).toUInt32
  d2 := 0
  d3 := 0

/-- The random words of one block. -/
def Key.block (key : Key) (number : UInt64) : List UInt32 :=
  let start := key.input number
  let scrambled := doubleRound (doubleRound (doubleRound (doubleRound start)))
  List.zipWith (· + ·) scrambled.words start.words

/-! ## Seeds -/

/-- The next state of the generator that expands a seed, and the key word it gives. -/
def expand (state : UInt64) : UInt64 × UInt32 :=
  let state := state * 6364136223846793005 + 11634580027462260723
  let word := (((state >>> 18) ^^^ state) >>> 27).toUInt32
  let turn := (state >>> 59).toUInt32
  (state, (word >>> turn) ||| (word <<< ((32 - turn) % 32)))

def Key.ofSeed (seed : UInt64) : Key :=
  let (s, k0) := expand seed
  let (s, k1) := expand s
  let (s, k2) := expand s
  let (s, k3) := expand s
  let (s, k4) := expand s
  let (s, k5) := expand s
  let (s, k6) := expand s
  let (_, k7) := expand s
  { k0, k1, k2, k3, k4, k5, k6, k7 }

/-! ## The stream -/

/-- The random words of a key that are still to come. -/
structure Keystream where
  key : Key
  /-- The number of the next block to be computed. -/
  next : UInt64
  /-- The words of the last block that were not drawn yet. -/
  pending : List UInt32
  deriving DecidableEq

namespace Keystream

/-- All random words of a seed. -/
def ofSeed (seed : UInt64) : Keystream :=
  { key := Key.ofSeed seed, next := 0, pending := [] }

def word32 (s : Keystream) : UInt32 × Keystream :=
  match s.pending with
  | w :: rest => (w, { s with pending := rest })
  | [] =>
    let words := s.key.block s.next
    (words.headD 0, { s with next := s.next + 1, pending := words.drop 1 })

/-- Two random words as one, the first of them low. -/
def word64 (s : Keystream) : UInt64 × Keystream :=
  let (low, s) := s.word32
  let (high, s) := s.word32
  (low.toUInt64 ||| (high.toUInt64 <<< 32), s)

end Keystream

end Divergence.Sampling
