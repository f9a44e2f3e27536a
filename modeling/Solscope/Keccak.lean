import Solscope.Bytes

/-!
# The Keccak-256 hash

The sponge keeps 25 lanes of 64 bits, lane `(x, y)` at index `x + 5 * y`. Every step of a round is
written as the value of each new lane in terms of the old ones.

* `Keccak.hash`: the hash of a byte string.
* `Keccak.length_hash`: it has 32 bytes.
-/

namespace Solscope.Keccak

/-- The lanes of the sponge. -/
abbrev Lanes := Vector UInt64 25

/-- Bytes taken in per permutation. -/
def rate : Nat := 136

/-- The left rotation of a lane. -/
def rotate (lane count : UInt64) : UInt64 := lane <<< count ||| lane >>> (64 - count)

/-- How far each lane is rotated. -/
def rotations : Vector UInt64 25 :=
  #v[0, 1, 62, 28, 27, 36, 44, 6, 55, 20, 3, 10, 43, 25, 39, 41, 45, 15, 21, 8, 18, 2, 61, 56, 14]

/-- The constant added in each round. -/
def roundConstants : List UInt64 :=
  [0x0000000000000001, 0x0000000000008082, 0x800000000000808A, 0x8000000080008000,
   0x000000000000808B, 0x0000000080000001, 0x8000000080008081, 0x8000000000008009,
   0x000000000000008A, 0x0000000000000088, 0x0000000080008009, 0x000000008000000A,
   0x000000008000808B, 0x800000000000008B, 0x8000000000008089, 0x8000000000008003,
   0x8000000000008002, 0x8000000000000080, 0x000000000000800A, 0x800000008000000A,
   0x8000000080008081, 0x8000000000008080, 0x0000000080000001, 0x8000000080008008]

/-- The index of lane `(x, y)`, both taken modulo 5. -/
def lane (x y : Nat) : Fin 25 :=
  ⟨x % 5 + 5 * (y % 5), by
    have := Nat.mod_lt x (show 0 < 5 by decide)
    have := Nat.mod_lt y (show 0 < 5 by decide)
    omega⟩

/-- The parity of column `x`. -/
def parity (s : Lanes) (x : Nat) : UInt64 :=
  s[lane x 0] ^^^ s[lane x 1] ^^^ s[lane x 2] ^^^ s[lane x 3] ^^^ s[lane x 4]

/-- Every lane takes in the parities of its two neighbouring columns. -/
def theta (s : Lanes) : Lanes :=
  let parities : Vector UInt64 5 := Vector.ofFn fun x => parity s x
  let mask (x : Nat) : UInt64 :=
    parities[(⟨(x + 4) % 5, Nat.mod_lt _ (by decide)⟩ : Fin 5)] ^^^
      rotate parities[(⟨(x + 1) % 5, Nat.mod_lt _ (by decide)⟩ : Fin 5)] 1
  let masks : Vector UInt64 5 := Vector.ofFn fun x => mask x
  Vector.ofFn fun i => s[i] ^^^ masks[(⟨i.val % 5, Nat.mod_lt _ (by decide)⟩ : Fin 5)]

/-- Lanes are rotated and permuted: lane `(x, y)` moves to `(y, 2 * x + 3 * y)`. -/
def rhoPi (s : Lanes) : Lanes :=
  Vector.ofFn fun i =>
    let source := lane (i.val % 5 + 3 * (i.val / 5)) (i.val % 5)
    rotate s[source] rotations[source]

/-- Every lane is combined with the next two of its row. -/
def chi (s : Lanes) : Lanes :=
  Vector.ofFn fun i =>
    s[i] ^^^ (~~~ s[lane (i.val + 1) (i.val / 5)] &&& s[lane (i.val + 2) (i.val / 5)])

/-- One round. -/
def round (s : Lanes) (constant : UInt64) : Lanes :=
  let t := chi (rhoPi (theta s))
  t.set 0 (t[0] ^^^ constant)

/-- The permutation of the sponge. -/
def permute (s : Lanes) : Lanes := roundConstants.foldl round s

/-- The little-endian lane at the start of `data`. -/
def readLane (data : Bytes) : UInt64 :=
  (data.take 8).foldr (fun b acc => acc <<< 8 ||| b.toUInt64) 0

/-- The eight little-endian bytes of a lane. -/
def writeLane (l : UInt64) : Bytes :=
  (List.range 8).map fun i => (l >>> (8 * i).toUInt64).toUInt8

/-- Takes in one block of `rate` bytes. -/
def absorb (s : Lanes) (block : Bytes) : Lanes :=
  let lanes := ((List.range (rate / 8)).map fun i => readLane (block.drop (8 * i))).toArray
  permute (Vector.ofFn fun i => s[i] ^^^ lanes.getD i.val 0)

/-- The message, a `1` byte, zeros up to a multiple of `rate`, and the top bit of the last byte. -/
def pad (data : Bytes) : Bytes :=
  let fill := rate - data.length % rate
  if fill = 1 then data ++ [0x81] else data ++ 0x01 :: List.replicate (fill - 2) 0 ++ [0x80]

/-- Consecutive blocks of `rate` bytes. -/
def blocks (data : Bytes) : List Bytes :=
  (List.range (data.length / rate)).map fun i => data.slice (rate * i) rate

/-- The Keccak-256 hash, 32 bytes. -/
def hash (data : Bytes) : Bytes :=
  let s := (blocks (pad data)).foldl absorb (Vector.replicate 25 0)
  (List.range 4).flatMap fun i => writeLane s[lane i 0]

theorem length_hash (data : Bytes) : (hash data).length = 32 := by
  simp [hash, writeLane, List.range_succ, List.flatMap]

end Solscope.Keccak
