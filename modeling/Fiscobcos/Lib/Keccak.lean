import Mathlib.Data.List.GetD
import Fiscobcos.Lib.Numerals

/-! # Keccak-256

The sponge with a rate of 136 bytes and the padding byte 0x01. The state is one number, lane
`x + 5 * y` its 64 bits from `64 * (x + 5 * y)` on. -/

namespace Fiscobcos.Keccak

open Numerals

def laneMask : ℕ := 2 ^ 64 - 1

def rate : ℕ := 136

def lane (s i : ℕ) : ℕ := (s >>> (64 * i)) &&& laneMask

def ofLanes : List ℕ → ℕ
  | [] => 0
  | x :: xs => x ||| (ofLanes xs <<< 64)

def rotateLeft (x n : ℕ) : ℕ := ((x <<< n) &&& laneMask) ||| (x >>> (64 - n))

/-- `f s`, with `s` computed before it is passed on. -/
def withValue (s : ℕ) (f : ℕ → ℕ) : ℕ :=
  match s with
  | 0 => f 0
  | k + 1 => f (k + 1)

def theta (s : ℕ) : ℕ :=
  withValue (ofLanes ((List.range 5).map fun x =>
    lane s x ^^^ lane s (x + 5) ^^^ lane s (x + 10) ^^^ lane s (x + 15) ^^^ lane s (x + 20)))
    fun c => ofLanes ((List.range 25).map fun i =>
      lane s i ^^^ lane c ((i + 4) % 5) ^^^ rotateLeft (lane c ((i + 1) % 5)) 1)

def rotations : List ℕ :=
  [0, 1, 62, 28, 27, 36, 44, 6, 55, 20, 3, 10, 43, 25, 39, 41, 45, 15, 21, 8, 18, 2, 61, 56, 14]

/-- The steps rho and pi: lane `(x, y)` is rotated and goes to `(y, 2 * x + 3 * y)`. -/
def rhoPi (s : ℕ) : ℕ :=
  ofLanes ((List.range 25).map fun i =>
    let source := (i % 5 + 3 * (i / 5)) % 5 + 5 * (i % 5)
    rotateLeft (lane s source) (rotations.getD source 0))

def chi (s : ℕ) : ℕ :=
  ofLanes ((List.range 25).map fun i =>
    let row := 5 * (i / 5)
    lane s i ^^^
      ((laneMask ^^^ lane s (row + (i + 1) % 5)) &&& lane s (row + (i + 2) % 5)))

def roundConstants : List ℕ :=
  [0x0000000000000001, 0x0000000000008082, 0x800000000000808A, 0x8000000080008000,
   0x000000000000808B, 0x0000000080000001, 0x8000000080008081, 0x8000000000008009,
   0x000000000000008A, 0x0000000000000088, 0x0000000080008009, 0x000000008000000A,
   0x000000008000808B, 0x800000000000008B, 0x8000000000008089, 0x8000000000008003,
   0x8000000000008002, 0x8000000000000080, 0x000000000000800A, 0x800000008000000A,
   0x8000000080008081, 0x8000000000008080, 0x0000000080000001, 0x8000000080008008]

def round (s constant : ℕ) : ℕ :=
  withValue (theta s) fun s => withValue (rhoPi s) fun s => withValue (chi s) fun s => s ^^^ constant

def permute (s : ℕ) : ℕ :=
  roundConstants.foldl (fun s constant => withValue s fun s => round s constant) s

/-- The message filled up to whole blocks; one byte takes both ends of the padding if only one is
missing. -/
def pad (msg : Bytes) : Bytes :=
  let missing := rate - msg.length % rate
  if missing = 1 then msg ++ [0x81]
  else msg ++ [0x01] ++ List.replicate (missing - 2) 0 ++ [0x80]

def absorb (s : ℕ) (block : Bytes) : ℕ := permute (s ^^^ beVal block.reverse)

def sponge (msg : Bytes) : ℕ :=
  (List.range (msg.length / rate + 1)).foldl
    (fun s i => absorb s (((pad msg).drop (rate * i)).take rate)) 0

def digestByte (s : ℕ) (i : ℕ) : Byte := lowByte (s >>> (8 * i))

def keccak256 (msg : Bytes) : Vector Byte 32 :=
  ⟨((List.range 32).map (digestByte (sponge msg))).toArray, by simp⟩

theorem length_keccak256 (msg : Bytes) : (keccak256 msg).toList.length = 32 :=
  Vector.length_toList

end Fiscobcos.Keccak
