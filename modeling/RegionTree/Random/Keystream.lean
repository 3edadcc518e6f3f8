/-! The ChaCha20 keystream as a sequence of 32-bit words: 20 rounds, a 64-bit block counter that
starts at zero, stream zero. -/
namespace RegionTree

/-- A key and the number of words already taken. -/
structure Keystream where
  key : Vector UInt32 8
  position : Nat

namespace Keystream

abbrev Block := Vector UInt32 16

def rotate (x amount : UInt32) : UInt32 := (x <<< amount) ||| (x >>> (32 - amount))

def quarterRound (s : Block) (a b c d : Fin 16) : Block :=
  let s := s.set a (s[a] + s[b])
  let s := s.set d (rotate (s[d] ^^^ s[a]) 16)
  let s := s.set c (s[c] + s[d])
  let s := s.set b (rotate (s[b] ^^^ s[c]) 12)
  let s := s.set a (s[a] + s[b])
  let s := s.set d (rotate (s[d] ^^^ s[a]) 8)
  let s := s.set c (s[c] + s[d])
  s.set b (rotate (s[b] ^^^ s[c]) 7)

def doubleRound (s : Block) : Block :=
  let s := quarterRound s 0 4 8 12
  let s := quarterRound s 1 5 9 13
  let s := quarterRound s 2 6 10 14
  let s := quarterRound s 3 7 11 15
  let s := quarterRound s 0 5 10 15
  let s := quarterRound s 1 6 11 12
  let s := quarterRound s 2 7 8 13
  quarterRound s 3 4 9 14

def rounds : Nat → Block → Block
  | 0, s => s
  | n + 1, s => rounds n (doubleRound s)

def constants : Vector UInt32 4 := #v[0x61707865, 0x3320646e, 0x79622d32, 0x6b206574]

/-- The block counter, the lower half first, and the number of the stream. -/
def place (counter : Nat) : Vector UInt32 4 :=
  #v[UInt32.ofNat counter, UInt32.ofNat (counter >>> 32), 0, 0]

def initialBlock (key : Vector UInt32 8) (counter : Nat) : Block := constants ++ key ++ place counter

def block (key : Vector UInt32 8) (counter : Nat) : Block :=
  let start := initialBlock key counter
  Vector.zipWith (· + ·) (rounds 10 start) start

def word (key : Vector UInt32 8) (position : Nat) : UInt32 :=
  (block key (position / 16))[Fin.ofNat 16 position]

def littleEndian (a b c d : UInt8) : UInt32 :=
  a.toUInt32 ||| (b.toUInt32 <<< 8) ||| (c.toUInt32 <<< 16) ||| (d.toUInt32 <<< 24)

def ofSeed (seed : Vector UInt8 32) : Keystream where
  key := Vector.ofFn fun i : Fin 8 =>
    littleEndian seed[4 * i.val] seed[4 * i.val + 1] seed[4 * i.val + 2] seed[4 * i.val + 3]
  position := 0

def next32 (k : Keystream) : Nat × Keystream :=
  ((word k.key k.position).toNat, { k with position := k.position + 1 })

def next64 (k : Keystream) : Nat × Keystream :=
  let (low, k) := k.next32
  let (high, k) := k.next32
  (low + (high <<< 32), k)

end Keystream
end RegionTree
