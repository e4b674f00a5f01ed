/-!
# The 64-bit XXH3 digest

The digest of a byte sequence with seed zero and the standard secret.  Short
inputs have formulas of their own, by length; longer ones go through eight
accumulators, which take up 64 bytes at a time and are scrambled after every
1024.
-/

namespace Workflow.Digest

def secret : Array UInt8 :=
  #[0xb8, 0xfe, 0x6c, 0x39, 0x23, 0xa4, 0x4b, 0xbe, 0x7c, 0x01, 0x81, 0x2c,
    0xf7, 0x21, 0xad, 0x1c,
    0xde, 0xd4, 0x6d, 0xe9, 0x83, 0x90, 0x97, 0xdb, 0x72, 0x40, 0xa4, 0xa4,
    0xb7, 0xb3, 0x67, 0x1f,
    0xcb, 0x79, 0xe6, 0x4e, 0xcc, 0xc0, 0xe5, 0x78, 0x82, 0x5a, 0xd0, 0x7d,
    0xcc, 0xff, 0x72, 0x21,
    0xb8, 0x08, 0x46, 0x74, 0xf7, 0x43, 0x24, 0x8e, 0xe0, 0x35, 0x90, 0xe6,
    0x81, 0x3a, 0x26, 0x4c,
    0x3c, 0x28, 0x52, 0xbb, 0x91, 0xc3, 0x00, 0xcb, 0x88, 0xd0, 0x65, 0x8b,
    0x1b, 0x53, 0x2e, 0xa3,
    0x71, 0x64, 0x48, 0x97, 0xa2, 0x0d, 0xf9, 0x4e, 0x38, 0x19, 0xef, 0x46,
    0xa9, 0xde, 0xac, 0xd8,
    0xa8, 0xfa, 0x76, 0x3f, 0xe3, 0x9c, 0x34, 0x3f, 0xf9, 0xdc, 0xbb, 0xc7,
    0xc7, 0x0b, 0x4f, 0x1d,
    0x8a, 0x51, 0xe0, 0x4b, 0xcd, 0xb4, 0x59, 0x31, 0xc8, 0x9f, 0x7e, 0xc9,
    0xd9, 0x78, 0x73, 0x64,
    0xea, 0xc5, 0xac, 0x83, 0x34, 0xd3, 0xeb, 0xc3, 0xc5, 0x81, 0xa0, 0xff,
    0xfa, 0x13, 0x63, 0xeb,
    0x17, 0x0d, 0xdd, 0x51, 0xb7, 0xf0, 0xda, 0x49, 0xd3, 0x16, 0x55, 0x26,
    0x29, 0xd4, 0x68, 0x9e,
    0x2b, 0x16, 0xbe, 0x58, 0x7d, 0x47, 0xa1, 0xfc, 0x8f, 0xf8, 0xb8, 0xd1,
    0x7a, 0xd0, 0x31, 0xce,
    0x45, 0xcb, 0x3a, 0x8f, 0x95, 0x16, 0x04, 0x28, 0xaf, 0xd7, 0xfb, 0xca,
    0xbb, 0x4b, 0x40, 0x7e]

def prime32a : UInt64 := 0x9E3779B1
def prime32b : UInt64 := 0x85EBCA77
def prime32c : UInt64 := 0xC2B2AE3D
def prime64a : UInt64 := 0x9E3779B185EBCA87
def prime64b : UInt64 := 0xC2B2AE3D27D4EB4F
def prime64c : UInt64 := 0x165667B19E3779F9
def prime64d : UInt64 := 0x85EBCA77C2B2AE63
def prime64e : UInt64 := 0x27D4EB2F165667C5
def primeMixA : UInt64 := 0x165667919E3779F9
def primeMixB : UInt64 := 0x9FB21C651E98DF25

/-- `count` bytes from an offset on as a number, the least significant one
first; bytes behind the end count as zero. -/
def readBytes (bytes : Array UInt8) (offset : Nat) : Nat → UInt64
  | 0 => 0
  | count + 1 =>
      (bytes.getD offset 0).toUInt64 |||
        (readBytes bytes (offset + 1) count <<< 8)

def read64 (bytes : Array UInt8) (offset : Nat) : UInt64 :=
  readBytes bytes offset 8

def read32 (bytes : Array UInt8) (offset : Nat) : UInt64 :=
  readBytes bytes offset 4

def rotateLeft (word : UInt64) (count : UInt64) : UInt64 :=
  (word <<< count) ||| (word >>> (64 - count))

/-- The eight bytes of a word in reverse order. -/
def swapBytes (word : UInt64) : UInt64 :=
  (List.range 8).foldl
    (fun swapped index =>
      (swapped <<< 8) |||
        ((word >>> (8 * index).toUInt64) &&& (0xFF : UInt64))) 0

/-- The two halves of a 128-bit product, combined. -/
def foldedProduct (left right : UInt64) : UInt64 :=
  let product := left.toNat * right.toNat
  product.toUInt64 ^^^ (product / Nat.pow 2 64).toUInt64

def avalanche (word : UInt64) : UInt64 :=
  let mixed := (word ^^^ (word >>> 37)) * primeMixA
  mixed ^^^ (mixed >>> 32)

/-- The last step for the shortest inputs. -/
def avalancheShort (word : UInt64) : UInt64 :=
  let first := (word ^^^ (word >>> 33)) * prime64b
  let second := (first ^^^ (first >>> 29)) * prime64c
  second ^^^ (second >>> 32)

/-- The last step for four to eight bytes. -/
def avalancheWord (word : UInt64) (length : Nat) : UInt64 :=
  let first := (word ^^^ rotateLeft word 49 ^^^ rotateLeft word 24) * primeMixB
  let second := (first ^^^ ((first >>> 35) + length.toUInt64)) * primeMixB
  second ^^^ (second >>> 28)

/-- Sixteen bytes of input against sixteen bytes of the secret. -/
def mix16 (bytes : Array UInt8) (offset secretOffset : Nat) : UInt64 :=
  foldedProduct (read64 bytes offset ^^^ read64 secret secretOffset)
    (read64 bytes (offset + 8) ^^^ read64 secret (secretOffset + 8))

def digestTo16 (bytes : Array UInt8) : UInt64 :=
  let length := bytes.size
  if length = 0 then avalancheShort (read64 secret 56 ^^^ read64 secret 64)
  else if length ≤ 3 then
    let first := (bytes.getD 0 0).toUInt64
    let middle := (bytes.getD (length / 2) 0).toUInt64
    let last := (bytes.getD (length - 1) 0).toUInt64
    let combined :=
      (first <<< 16) ||| (middle <<< 24) ||| last ||| (length.toUInt64 <<< 8)
    avalancheShort (combined ^^^ (read32 secret 0 ^^^ read32 secret 4))
  else if length ≤ 8 then
    let word := read32 bytes (length - 4) + (read32 bytes 0 <<< 32)
    avalancheWord (word ^^^ (read64 secret 8 ^^^ read64 secret 16)) length
  else
    let low := read64 bytes 0 ^^^ (read64 secret 24 ^^^ read64 secret 32)
    let high :=
      read64 bytes (length - 8) ^^^ (read64 secret 40 ^^^ read64 secret 48)
    avalanche (length.toUInt64 + swapBytes low + high + foldedProduct low high)

/-- Digest of 17 to 128 bytes: pairs of pieces from both ends, outermost
first. -/
def digestTo128 (bytes : Array UInt8) : UInt64 :=
  let length := bytes.size
  let pairs := (length - 1) / 32 + 1
  avalanche <| (List.range pairs).foldl
    (fun sum index =>
      sum + mix16 bytes (16 * index) (32 * index) +
        mix16 bytes (length - 16 * (index + 1)) (32 * index + 16))
    (length.toUInt64 * prime64a)

/-- Digest of 129 to 240 bytes: eight pieces, then the others with a shifted
secret. -/
def digestTo240 (bytes : Array UInt8) : UInt64 :=
  let length := bytes.size
  let front :=
    (List.range 8).foldl
      (fun sum index => sum + mix16 bytes (16 * index) (16 * index))
      (length.toUInt64 * prime64a)
  let back := (List.range (length / 16 - 8)).foldl
    (fun sum index => sum + mix16 bytes (16 * (index + 8)) (16 * index + 3))
    (avalanche front)
  avalanche (back + mix16 bytes (length - 16) 119)

/-- The accumulators in front of the first byte. -/
def initialLanes : Array UInt64 :=
  #[prime32c, prime64a, prime64b, prime64c, prime64d, prime32b, prime64e,
    prime32a]

/-- One lane after 64 more bytes: it takes up its neighbour's input, and its
own keyed. -/
def accumulateLane
    (bytes : Array UInt8) (offset secretOffset : Nat) (lanes : Array UInt64)
    (lane : Nat) : UInt64 :=
  let neighbour := if lane % 2 = 0 then lane + 1 else lane - 1
  let key :=
    read64 bytes (offset + 8 * lane) ^^^
      read64 secret (secretOffset + 8 * lane)
  lanes.getD lane 0 + read64 bytes (offset + 8 * neighbour) +
    (key &&& (0xFFFFFFFF : UInt64)) * (key >>> 32)

def accumulate
    (bytes : Array UInt8) (offset secretOffset : Nat) (lanes : Array UInt64) :
    Array UInt64 :=
  (Array.range 8).map (accumulateLane bytes offset secretOffset lanes)

/-- The lanes after `stripes` pieces of 64 bytes from an offset on. -/
def accumulateStripes
    (bytes : Array UInt8) (offset stripes : Nat) (lanes : Array UInt64) :
    Array UInt64 :=
  (List.range stripes).foldl
    (fun current index =>
      accumulate bytes (offset + 64 * index) (8 * index) current) lanes

def scramble (lanes : Array UInt64) : Array UInt64 :=
  (Array.range 8).map fun lane =>
    let word := lanes.getD lane 0
    ((word ^^^ (word >>> 47)) ^^^ read64 secret (128 + 8 * lane)) * prime32a

def digestLong (bytes : Array UInt8) : UInt64 :=
  let length := bytes.size
  let blocks := (length - 1) / 1024
  let afterBlocks := (List.range blocks).foldl
    (fun lanes index =>
      scramble (accumulateStripes bytes (1024 * index) 16 lanes)) initialLanes
  let stripes := (length - 1 - 1024 * blocks) / 64
  let afterStripes :=
    accumulateStripes bytes (1024 * blocks) stripes afterBlocks
  let final := accumulate bytes (length - 64) 121 afterStripes
  avalanche <| (List.range 4).foldl
    (fun sum index =>
      sum +
        foldedProduct
          (final.getD (2 * index) 0 ^^^ read64 secret (11 + 16 * index))
          (final.getD (2 * index + 1) 0 ^^^
            read64 secret (11 + 16 * index + 8)))
    (length.toUInt64 * prime64a)

/-- The 64-bit digest of a byte sequence. -/
def xxh3 (bytes : Array UInt8) : UInt64 :=
  if bytes.size ≤ 16 then digestTo16 bytes
  else if bytes.size ≤ 128 then digestTo128 bytes
  else if bytes.size ≤ 240 then digestTo240 bytes
  else digestLong bytes

end Workflow.Digest
