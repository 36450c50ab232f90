/-
A deterministic stream of random words.

A 64-bit seed is expanded to a 256-bit key, and the key to a ChaCha keystream of
twelve rounds: block `n` is the block function at counter `n` and stream 0.  The
word at a position is computed from the position alone, so a stream has no state
beyond the number of words already taken.
-/

-- Powers are those of the core library, whatever else is imported.
attribute [local instance (2000)] instPowNat

namespace TensorGraph
namespace Random

def rotateLeft (x : UInt32) (n : UInt32) : UInt32 := (x <<< n) ||| (x >>> (32 - n))

def rotateRight (x : UInt32) (n : UInt32) : UInt32 :=
  if n = 0 then x else (x >>> n) ||| (x <<< (32 - n))

/-! ## The key -/

def seedStep (state : UInt64) : UInt64 := state * 6364136223846793005 + 11634580027462260723

def seedWord (state : UInt64) : UInt32 :=
  rotateRight (((state >>> 18) ^^^ state) >>> 27).toUInt32 (state >>> 59).toUInt32

def seedWords (state : UInt64) : Nat → List UInt32
  | 0 => []
  | n + 1 => seedWord (seedStep state) :: seedWords (seedStep state) n

def key (seed : UInt64) : List UInt32 := seedWords seed 8

/-! ## The block function -/

abbrev Block := Vector UInt32 16

def quarterRound (s : Block) (a b c d : Fin 16) : Block :=
  let s := s.set a (s[a] + s[b])
  let s := s.set d (rotateLeft (s[d] ^^^ s[a]) 16)
  let s := s.set c (s[c] + s[d])
  let s := s.set b (rotateLeft (s[b] ^^^ s[c]) 12)
  let s := s.set a (s[a] + s[b])
  let s := s.set d (rotateLeft (s[d] ^^^ s[a]) 8)
  let s := s.set c (s[c] + s[d])
  s.set b (rotateLeft (s[b] ^^^ s[c]) 7)

def doubleRound (s : Block) : Block :=
  let s := quarterRound s 0 4 8 12
  let s := quarterRound s 1 5 9 13
  let s := quarterRound s 2 6 10 14
  let s := quarterRound s 3 7 11 15
  let s := quarterRound s 0 5 10 15
  let s := quarterRound s 1 6 11 12
  let s := quarterRound s 2 7 8 13
  quarterRound s 3 4 9 14

def doubleRounds (s : Block) : Nat → Block
  | 0 => s
  | n + 1 => doubleRounds (doubleRound s) n

/-- The state before the first round: four constants, the key, the counter in two
words and two zeros. -/
def initial (key : List UInt32) (counter : Nat) : Block :=
  let word (i : Nat) : UInt32 :=
    match i with
    | 0 => 0x61707865
    | 1 => 0x3320646e
    | 2 => 0x79622d32
    | 3 => 0x6b206574
    | 12 => UInt32.ofNat counter
    | 13 => UInt32.ofNat (counter / 2 ^ (32 : Nat))
    | 14 | 15 => 0
    | _ => key.getD (i - 4) 0
  Vector.ofFn fun i => word i.val

def block (key : List UInt32) (counter : Nat) : Block :=
  let start := initial key counter
  let mixed := doubleRounds start 6
  Vector.ofFn fun i => mixed[i] + start[i]

/-! ## The stream -/

def word (key : List UInt32) (position : Nat) : UInt32 :=
  (block key (position / 16)).get ⟨position % 16, Nat.mod_lt _ (by decide)⟩

/-- The 64-bit word at a position: two words of the stream, the low half first. -/
def longWord (key : List UInt32) (position : Nat) : Nat :=
  (word key position).toNat + 2 ^ (32 : Nat) * (word key (position + 1)).toNat

end Random
end TensorGraph
