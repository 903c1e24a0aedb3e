/-!
# Random numbers

Random numbers come from the key stream of the cipher ChaCha with twelve rounds, whose key is made
from a seed.  The stream is a row of words of 32 bits, and every number is made of the next of them.

* `Generator.ofSeed` — the stream of a seed.
* `Generator.word`, `Generator.doubleWord`, `Generator.fraction`, `Generator.below` — the next word,
  or a number that is made of the next words.
-/

namespace LexicalSelection.Embedding

/-- The words of a block in rows of four. -/
structure Block where
  /-- The first row. -/
  a : Vector UInt32 4
  /-- The second row. -/
  b : Vector UInt32 4
  /-- The third row. -/
  c : Vector UInt32 4
  /-- The fourth row. -/
  d : Vector UInt32 4
  deriving DecidableEq

/-- The word with its bits turned to the left. -/
def rotateLeft (w : UInt32) (bits : UInt32) : UInt32 := (w <<< bits) ||| (w >>> (32 - bits))

/-- The row whose words have moved `places` to the left, the first ones to the end. -/
def turnRow (places : Fin 4) (row : Vector UInt32 4) : Vector UInt32 4 :=
  Vector.ofFn fun i => row[i + places]

namespace Block

/-- The four columns, each stirred once. -/
def stirColumns (block : Block) : Block :=
  let a := block.a.zipWith (· + ·) block.b
  let d := (block.d.zipWith (· ^^^ ·) a).map (rotateLeft · 16)
  let c := block.c.zipWith (· + ·) d
  let b := (block.b.zipWith (· ^^^ ·) c).map (rotateLeft · 12)
  let a := a.zipWith (· + ·) b
  let d := (d.zipWith (· ^^^ ·) a).map (rotateLeft · 8)
  let c := c.zipWith (· + ·) d
  let b := (b.zipWith (· ^^^ ·) c).map (rotateLeft · 7)
  { a, b, c, d }

/-- The block whose diagonals have become columns. -/
def skew (block : Block) : Block :=
  { block with b := turnRow 1 block.b, c := turnRow 2 block.c, d := turnRow 3 block.d }

/-- The block whose columns have become the diagonals they were. -/
def unskew (block : Block) : Block :=
  { block with b := turnRow 3 block.b, c := turnRow 2 block.c, d := turnRow 1 block.d }

/-- A round on the columns and a round on the diagonals. -/
def doubleRound (block : Block) : Block := block.stirColumns.skew.stirColumns.unskew

/-- The block after some double rounds. -/
def stir : Nat → Block → Block
  | 0, block => block
  | rounds + 1, block => stir rounds block.doubleRound

/-- The word by word sum of two blocks. -/
def sum (x y : Block) : Block where
  a := x.a.zipWith (· + ·) y.a
  b := x.b.zipWith (· + ·) y.b
  c := x.c.zipWith (· + ·) y.c
  d := x.d.zipWith (· + ·) y.d

/-- The words of a block in order. -/
def words (block : Block) : List UInt32 :=
  block.a.toList ++ block.b.toList ++ block.c.toList ++ block.d.toList

end Block

/-- A key of eight words in two rows. -/
structure Key where
  /-- The first four words. -/
  front : Vector UInt32 4
  /-- The last four words. -/
  back : Vector UInt32 4
  deriving DecidableEq

namespace Key

/-- The row that begins every block: the ASCII text `expand 32-byte k`. -/
def constants : Vector UInt32 4 := #v[0x61707865, 0x3320646e, 0x79622d32, 0x6b206574]

/-- The block of the key stream with a number. -/
def block (key : Key) (number : UInt64) : Block :=
  let start : Block :=
    { a := constants, b := key.front, c := key.back
      d := #v[number.toUInt32, (number >>> 32).toUInt32, 0, 0] }
  (start.stir 6).sum start

/-- The next state of the congruential generator that keys are made from. -/
def nextState (state : UInt64) : UInt64 := state * 6364136223846793005 + 11634580027462260723

/-- The word of a key that a state gives. -/
def wordOf (state : UInt64) : UInt32 :=
  let word := (((state >>> 18) ^^^ state) >>> 27).toUInt32
  let turn := (state >>> 59).toUInt32
  (word >>> turn) ||| (word <<< ((32 - turn) % 32))

/-- The state after some steps from a seed. -/
def stateAfter (seed : UInt64) : Nat → UInt64
  | 0 => seed
  | steps + 1 => nextState (stateAfter seed steps)

/-- The key of a seed. -/
def ofSeed (seed : UInt64) : Key where
  front := Vector.ofFn fun i => wordOf (stateAfter seed (i.val + 1))
  back := Vector.ofFn fun i => wordOf (stateAfter seed (i.val + 5))

end Key

/-- A place in the key stream. -/
structure Generator where
  /-- The key of the stream. -/
  key : Key
  /-- The number of the next block. -/
  block : UInt64 := 0
  /-- The words before that block. -/
  words : List UInt32 := []

namespace Generator

/-- The key stream of a seed from its start. -/
def ofSeed (seed : UInt64) : Generator := { key := .ofSeed seed }

/-- The next word. -/
def word : StateM Generator UInt32 := fun generator =>
  match generator.words with
  | w :: words => (w, { generator with words })
  | [] =>
    let words := (generator.key.block generator.block).words
    (words.headD 0, { generator with block := generator.block + 1, words := words.tail })

/-- A word of 64 bits, of which the next word is the lower half. -/
def doubleWord : StateM Generator UInt64 := do
  let low ← word
  let high ← word
  return high.toUInt64 <<< 32 ||| low.toUInt64

/-- A number from 0 on and below 1, in steps of `2 ^ (-53)`. -/
def fraction : StateM Generator Float := do
  let places ← doubleWord
  return (places >>> 11).toFloat / 9007199254740992

/-- How many words there are, `2 ^ 32`. -/
abbrev wordCount : Nat := 0x100000000

/-- A number below `bound`, which is at least 1 and has 32 bits.

It is the whole part of `bound` times the fraction whose binary places are the next word.  When more
places could carry into the whole part, one more word gives them. -/
def below (bound : Nat) : StateM Generator Nat := do
  let product := (← word).toNat * bound
  let whole := product / wordCount
  let places := product % wordCount
  if wordCount - bound < places then
    let carried := places + (← word).toNat * bound / wordCount
    return if wordCount ≤ carried then whole + 1 else whole
  else return whole

end Generator

end LexicalSelection.Embedding
