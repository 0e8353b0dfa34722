/-!
# Keystream

A reproducible stream of words for sampling: the ChaCha block function with twelve rounds, run on a
counter from zero under a key expanded from a seed. The words of a block are its rounds applied to
the start state, plus the start state.
-/
namespace KetSim

namespace Keystream

def rotateLeft (x : UInt32) (n : UInt32) : UInt32 := (x <<< n) ||| (x >>> (32 - n))

/-- A word rotated to the right by less than its width. -/
def rotateRight (x : UInt32) (n : UInt32) : UInt32 :=
  if n = 0 then x else (x >>> n) ||| (x <<< (32 - n))

/-! ## Keys -/

def nextSeed (s : UInt64) : UInt64 := s * 0x5851F42D4C957F2D + 0xA17654E46FBE17F3

/-- The key word of an expansion state: its high bits folded together and turned by the highest
five. -/
def keyWord (s : UInt64) : UInt32 :=
  rotateRight (((s >>> 18) ^^^ s) >>> 27).toUInt32 (s >>> 59).toUInt32

def keyWords : Nat → UInt64 → List UInt32
  | 0, _ => []
  | n + 1, seed => keyWord (nextSeed seed) :: keyWords n (nextSeed seed)

/-! ## Blocks -/

def quarter (a b c d : UInt32) : UInt32 × UInt32 × UInt32 × UInt32 :=
  let a := a + b
  let d := rotateLeft (d ^^^ a) 16
  let c := c + d
  let b := rotateLeft (b ^^^ c) 12
  let a := a + b
  let d := rotateLeft (d ^^^ a) 8
  let c := c + d
  let b := rotateLeft (b ^^^ c) 7
  (a, b, c, d)

def mixAt (s : Vector UInt32 16) (i j k l : Fin 16) : Vector UInt32 16 :=
  let (a, b, c, d) := quarter s[i] s[j] s[k] s[l]
  (((s.set i a).set j b).set k c).set l d

/-- Two rounds: the columns, then the diagonals. -/
def doubleRound (s : Vector UInt32 16) : Vector UInt32 16 :=
  let s := mixAt s 0 4 8 12
  let s := mixAt s 1 5 9 13
  let s := mixAt s 2 6 10 14
  let s := mixAt s 3 7 11 15
  let s := mixAt s 0 5 10 15
  let s := mixAt s 1 6 11 12
  let s := mixAt s 2 7 8 13
  mixAt s 3 4 9 14

/-- The start state of a block: four constants, the key, the counter in two words, two zeros. -/
def startState (key : List UInt32) (counter : UInt64) : Vector UInt32 16 :=
  let word (i : Nat) : UInt32 := key.getD i 0
  #v[0x61707865, 0x3320646e, 0x79622d32, 0x6b206574,
    word 0, word 1, word 2, word 3, word 4, word 5, word 6, word 7,
    counter.toUInt32, (counter >>> 32).toUInt32, 0, 0]

def block (key : List UInt32) (counter : UInt64) : List UInt32 :=
  let start := startState key counter
  let mixed := (List.range 6).foldl (fun s _ => doubleRound s) start
  (mixed.zipWith (· + ·) start).toList

end Keystream

/-- A stream at some point: the key, the counter of the next block, the words left of the current
one. -/
structure Keystream where
  key : List UInt32
  counter : UInt64
  left : List UInt32
  deriving Repr

namespace Keystream

def ofSeed (seed : UInt64) : Keystream := ⟨keyWords 8 seed, 0, []⟩

def nextWord (s : Keystream) : UInt32 × Keystream :=
  match s.left with
  | w :: rest => (w, { s with left := rest })
  | [] =>
    match block s.key s.counter with
    | w :: rest => (w, { s with counter := s.counter + 1, left := rest })
    | [] => (0, s)

/-- The next draw of fifty-two bits: the high bits of two words, the low word first. -/
def nextDraw (s : Keystream) : Nat × Keystream :=
  let (low, s) := s.nextWord
  let (high, s) := s.nextWord
  (((high.toNat <<< 32) + low.toNat) >>> 12, s)

end Keystream

end KetSim
