/-!
# Keccak-256

The sponge over 1600 bits with a rate of 136 bytes and the padding `1 0* 1`, as contract platforms
use it for code hashes.  Lane `(x, y)` stands at index `x + 5 * y`.
-/

namespace TokenAudit.Keccak

abbrev State := List UInt64

def lane (s : State) (x y : Nat) : UInt64 := s.getD (x % 5 + 5 * (y % 5)) 0

def build (f : Nat → Nat → UInt64) : State := (List.range 25).map fun i => f (i % 5) (i / 5)

def rotate (w : UInt64) (n : Nat) : UInt64 :=
  if n = 0 then w else (w <<< n.toUInt64) ||| (w >>> (64 - n).toUInt64)

def rotations : List Nat :=
  [0, 1, 62, 28, 27, 36, 44, 6, 55, 20, 3, 10, 43, 25, 39, 41, 45, 15, 21, 8, 18, 2, 61, 56, 14]

def roundConstants : List UInt64 :=
  [0x0000000000000001, 0x0000000000008082, 0x800000000000808A, 0x8000000080008000,
   0x000000000000808B, 0x0000000080000001, 0x8000000080008081, 0x8000000000008009,
   0x000000000000008A, 0x0000000000000088, 0x0000000080008009, 0x000000008000000A,
   0x000000008000808B, 0x800000000000008B, 0x8000000000008089, 0x8000000000008003,
   0x8000000000008002, 0x8000000000000080, 0x000000000000800A, 0x800000008000000A,
   0x8000000080008081, 0x8000000000008080, 0x0000000080000001, 0x8000000080008008]

def theta (s : State) : State :=
  let column := (List.range 5).map fun x =>
    lane s x 0 ^^^ lane s x 1 ^^^ lane s x 2 ^^^ lane s x 3 ^^^ lane s x 4
  build fun x y => lane s x y ^^^ column.getD ((x + 4) % 5) 0 ^^^ rotate (column.getD ((x + 1) % 5) 0) 1

def rhoPi (s : State) : State :=
  build fun x y =>
    let x' := (x + 3 * y) % 5
    rotate (lane s x' x) (rotations.getD (x' + 5 * x) 0)

def chi (s : State) : State :=
  build fun x y => lane s x y ^^^ ((~~~ lane s (x + 1) y) &&& lane s (x + 2) y)

def iota (rc : UInt64) : State → State
  | [] => []
  | w :: rest => (w ^^^ rc) :: rest

def permute (s : State) : State :=
  roundConstants.foldl (fun s rc => iota rc (chi (rhoPi (theta s)))) s

def rate : Nat := 136

/-- The message with the bits `1 0* 1` behind it, up to a multiple of the rate. -/
def pad (bytes : List UInt8) : List UInt8 :=
  let room := rate - bytes.length % rate
  if room = 1 then bytes ++ [0x81] else bytes ++ 0x01 :: List.replicate (room - 2) 0 ++ [0x80]

def wordOf (bytes : List UInt8) : UInt64 := bytes.foldr (fun b w => (w <<< 8) ||| b.toUInt64) 0

def absorbBlock (s : State) (block : List UInt8) : State :=
  permute ((List.range 25).map fun i => s.getD i 0 ^^^ wordOf ((block.drop (8 * i)).take 8))

def absorb : Nat → State → List UInt8 → State
  | 0, s, _ => s
  | blocks + 1, s, bytes => absorb blocks (absorbBlock s (bytes.take rate)) (bytes.drop rate)

def bytesOf (w : UInt64) : List UInt8 := (List.range 8).map fun i => (w >>> (8 * i).toUInt64).toUInt8

def digest (bytes : List UInt8) : List UInt8 :=
  let padded := pad bytes
  let s := absorb (padded.length / rate) (List.replicate 25 0) padded
  (s.take 4).flatMap bytesOf

def digestNat (bytes : List UInt8) : Nat := (digest bytes).foldl (fun n b => n * 256 + b.toNat) 0

def hexByte (b : UInt8) : String :=
  String.ofList [Nat.digitChar (b.toNat / 16), Nat.digitChar (b.toNat % 16)]

def digestHex (bytes : List UInt8) : String := String.join ((digest bytes).map hexByte)

def emptyCodeHash : Nat := digestNat []

end TokenAudit.Keccak
