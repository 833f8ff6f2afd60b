import ShaderDialect.Bytes

/-! The 128-bit XXH3 hash with its default secret and the seed zero. -/
namespace ShaderDialect

structure Hash128 where
  low : UInt64
  high : UInt64
  deriving Repr, DecidableEq

def Hash128.toNat (h : Hash128) : Nat := h.high.toNat <<< 64 + h.low.toNat

namespace Xxh3

def secret : List UInt8 :=
  [0xb8, 0xfe, 0x6c, 0x39, 0x23, 0xa4, 0x4b, 0xbe, 0x7c, 0x01, 0x81, 0x2c, 0xf7, 0x21, 0xad, 0x1c,
    0xde, 0xd4, 0x6d, 0xe9, 0x83, 0x90, 0x97, 0xdb, 0x72, 0x40, 0xa4, 0xa4, 0xb7, 0xb3, 0x67, 0x1f,
    0xcb, 0x79, 0xe6, 0x4e, 0xcc, 0xc0, 0xe5, 0x78, 0x82, 0x5a, 0xd0, 0x7d, 0xcc, 0xff, 0x72, 0x21,
    0xb8, 0x08, 0x46, 0x74, 0xf7, 0x43, 0x24, 0x8e, 0xe0, 0x35, 0x90, 0xe6, 0x81, 0x3a, 0x26, 0x4c,
    0x3c, 0x28, 0x52, 0xbb, 0x91, 0xc3, 0x00, 0xcb, 0x88, 0xd0, 0x65, 0x8b, 0x1b, 0x53, 0x2e, 0xa3,
    0x71, 0x64, 0x48, 0x97, 0xa2, 0x0d, 0xf9, 0x4e, 0x38, 0x19, 0xef, 0x46, 0xa9, 0xde, 0xac, 0xd8,
    0xa8, 0xfa, 0x76, 0x3f, 0xe3, 0x9c, 0x34, 0x3f, 0xf9, 0xdc, 0xbb, 0xc7, 0xc7, 0x0b, 0x4f, 0x1d,
    0x8a, 0x51, 0xe0, 0x4b, 0xcd, 0xb4, 0x59, 0x31, 0xc8, 0x9f, 0x7e, 0xc9, 0xd9, 0x78, 0x73, 0x64,
    0xea, 0xc5, 0xac, 0x83, 0x34, 0xd3, 0xeb, 0xc3, 0xc5, 0x81, 0xa0, 0xff, 0xfa, 0x13, 0x63, 0xeb,
    0x17, 0x0d, 0xdd, 0x51, 0xb7, 0xf0, 0xda, 0x49, 0xd3, 0x16, 0x55, 0x26, 0x29, 0xd4, 0x68, 0x9e,
    0x2b, 0x16, 0xbe, 0x58, 0x7d, 0x47, 0xa1, 0xfc, 0x8f, 0xf8, 0xb8, 0xd1, 0x7a, 0xd0, 0x31, 0xce,
    0x45, 0xcb, 0x3a, 0x8f, 0x95, 0x16, 0x04, 0x28, 0xaf, 0xd7, 0xfb, 0xca, 0xbb, 0x4b, 0x40, 0x7e]

def prime32A : UInt64 := 0x9E3779B1
def prime32B : UInt64 := 0x85EBCA77
def prime32C : UInt64 := 0xC2B2AE3D
def prime64A : UInt64 := 0x9E3779B185EBCA87
def prime64B : UInt64 := 0xC2B2AE3D27D4EB4F
def prime64C : UInt64 := 0x165667B19E3779F9
def prime64D : UInt64 := 0x85EBCA77C2B2AE63
def prime64E : UInt64 := 0x27D4EB2F165667C5
def mixA : UInt64 := 0x165667919E3779F9
def mixB : UInt64 := 0x9FB21C651E98DF25

/-- The word of the first four or eight bytes. -/
def word (width : Nat) (data : List UInt8) : UInt64 := UInt64.ofNat (Bytes.toNat (data.take width))

def secretWord (start : Nat) : UInt64 := word 8 (secret.drop start)

def secretWords (start : Nat) : List UInt64 :=
  (List.range 8).map fun i => secretWord (start + 8 * i)

def product (a b : UInt64) : Hash128 :=
  let p := a.toNat * b.toNat
  ⟨UInt64.ofNat p, UInt64.ofNat (p >>> 64)⟩

/-- The two halves of a product, combined. -/
def fold (a b : UInt64) : UInt64 :=
  let p := product a b
  p.low ^^^ p.high

def low32 (x : UInt64) : UInt64 := x &&& 0xFFFFFFFF

def avalanche (h : UInt64) : UInt64 :=
  let h := (h ^^^ (h >>> 37)) * mixA
  h ^^^ (h >>> 32)

def avalancheShort (h : UInt64) : UInt64 :=
  let h := (h ^^^ (h >>> 33)) * prime64B
  let h := (h ^^^ (h >>> 29)) * prime64C
  h ^^^ (h >>> 32)

/-- The word of the same bytes in reverse order. -/
def swap (width : Nat) (x : UInt64) : UInt64 :=
  UInt64.ofNat (Bytes.toNat (Bytes.ofNat width x.toNat).reverse)

def empty : Hash128 :=
  ⟨avalancheShort (secretWord 64 ^^^ secretWord 72),
    avalancheShort (secretWord 80 ^^^ secretWord 88)⟩

def upTo3 (data : List UInt8) : Hash128 :=
  let n := data.length
  let byte (i : Nat) : UInt64 := word 1 (data.drop i)
  let low := (byte 0 <<< 16) ||| (byte (n / 2) <<< 24) ||| byte (n - 1) ||| (UInt64.ofNat n <<< 8)
  let swapped := swap 4 low
  let high := low32 ((swapped <<< 13) ||| (swapped >>> 19))
  let key (i : Nat) : UInt64 := word 4 (secret.drop i) ^^^ word 4 (secret.drop (i + 4))
  ⟨avalancheShort (low ^^^ key 0), avalancheShort (high ^^^ key 8)⟩

def upTo8 (data : List UInt8) : Hash128 :=
  let n := data.length
  let both := word 4 data + (word 4 (data.drop (n - 4)) <<< 32)
  let keyed := both ^^^ (secretWord 16 ^^^ secretWord 24)
  let m := product keyed (prime64A + (UInt64.ofNat n <<< 2))
  let high := m.high + (m.low <<< 1)
  let low := m.low ^^^ (high >>> 3)
  let low := (low ^^^ (low >>> 35)) * mixB
  ⟨low ^^^ (low >>> 28), avalanche high⟩

def upTo16 (data : List UInt8) : Hash128 :=
  let n := data.length
  let first := word 8 data
  let last := word 8 (data.drop (n - 8))
  let m := product (first ^^^ last ^^^ (secretWord 32 ^^^ secretWord 40)) prime64A
  let low := m.low + (UInt64.ofNat (n - 1) <<< 54)
  let last := last ^^^ (secretWord 48 ^^^ secretWord 56)
  let high := m.high + last + low32 last * (prime32B - 1)
  let low := low ^^^ swap 8 high
  let h := product low prime64B
  ⟨avalanche h.low, avalanche (h.high + high * prime64B)⟩

def mix16 (data : List UInt8) (at_ : Nat) : UInt64 :=
  fold (word 8 data ^^^ secretWord at_) (word 8 (data.drop 8) ^^^ secretWord (at_ + 8))

/-- Mixes two blocks of sixteen bytes into a state. -/
def mix32 (h : Hash128) (a b : List UInt8) (at_ : Nat) : Hash128 :=
  ⟨(h.low + mix16 a at_) ^^^ (word 8 b + word 8 (b.drop 8)),
    (h.high + mix16 b (at_ + 16)) ^^^ (word 8 a + word 8 (a.drop 8))⟩

def finish (n : Nat) (h : Hash128) : Hash128 :=
  ⟨avalanche (h.low + h.high),
    0 - avalanche (h.low * prime64A + h.high * prime64D + UInt64.ofNat n * prime64B)⟩

def start (n : Nat) : Hash128 := ⟨UInt64.ofNat n * prime64A, 0⟩

/-- Blocks from both ends of at most 128 bytes, the inner ones first. -/
def upTo128 (data : List UInt8) : Hash128 :=
  let n := data.length
  let rounds := (n - 1) / 32
  let h := (List.range (rounds + 1)).reverse.foldl (fun h i =>
    mix32 h (data.drop (16 * i)) (data.drop (n - 16 * (i + 1))) (32 * i)) (start n)
  finish n h

/-- Blocks of at most 240 bytes, the last one from the end. -/
def upTo240 (data : List UInt8) : Hash128 :=
  let n := data.length
  let mixAt (key : Nat → Nat) (h : Hash128) (i : Nat) : Hash128 :=
    mix32 h (data.drop (32 * i)) (data.drop (32 * i + 16)) (key i)
  let h := (List.range 4).foldl (mixAt (32 * ·)) (start n)
  let h : Hash128 := ⟨avalanche h.low, avalanche h.high⟩
  let h := (List.range' 4 (n / 32 - 4)).foldl (mixAt fun i => 32 * i - 125) h
  finish n (mix32 h (data.drop (n - 16)) (data.drop (n - 32)) 103)

/-- The state for longer inputs. -/
abbrev Lanes := List UInt64

def lanes : Lanes :=
  [prime32C, prime64A, prime64B, prime64C, prime64D, prime32B, prime64E, prime32A]

def stripeWords : (count : Nat) → List UInt8 → List UInt64
  | 0, _ => []
  | count + 1, data => word 8 data :: stripeWords count (data.drop 8)

/-- Words in pairs, those of each pair exchanged. -/
def exchange : List UInt64 → List UInt64
  | a :: b :: rest => b :: a :: exchange rest
  | rest => rest

/-- Takes 64 bytes into the state. -/
def accumulate (acc : Lanes) (data : List UInt8) (at_ : Nat) : Lanes :=
  let words := stripeWords 8 data
  let keyed := List.zipWith (· ^^^ ·) words (secretWords at_)
  let products := keyed.map fun k => low32 k * (k >>> 32)
  List.zipWith (· + ·) (List.zipWith (· + ·) acc (exchange words)) products

def scramble (acc : Lanes) : Lanes :=
  List.zipWith (fun (a key : UInt64) => ((a ^^^ (a >>> 47)) ^^^ key) * prime32A) acc
    (secretWords 128)

/-- Takes whole stripes into the state. The secret moves by a word with each stripe, and after
sixteen stripes the state is scrambled. -/
def stripes : (count position : Nat) → Lanes → List UInt8 → Lanes
  | 0, _, acc, _ => acc
  | count + 1, position, acc, data =>
    let acc := accumulate acc data (8 * position)
    let rest := data.drop 64
    if position = 15 then stripes count 0 (scramble acc) rest
    else stripes count (position + 1) acc rest

def merge (acc : Lanes) (at_ : Nat) (first : UInt64) : UInt64 :=
  let keyed := List.zipWith (· ^^^ ·) acc (secretWords at_)
  let rec pairs : List UInt64 → List UInt64
    | a :: b :: rest => fold a b :: pairs rest
    | _ => []
  avalanche ((pairs keyed).foldl (· + ·) first)

def long (data : List UInt8) : Hash128 :=
  let n := data.length
  let acc := stripes ((n - 1) / 64) 0 lanes data
  let acc := accumulate acc (data.drop (n - 64)) 121
  ⟨merge acc 11 (UInt64.ofNat n * prime64A),
    merge acc 117 (UInt64.ofNat n * prime64B ^^^ 0xFFFFFFFFFFFFFFFF)⟩

def hash128 (data : List UInt8) : Hash128 :=
  let n := data.length
  if n = 0 then empty
  else if n ≤ 3 then upTo3 data
  else if n ≤ 8 then upTo8 data
  else if n ≤ 16 then upTo16 data
  else if n ≤ 128 then upTo128 data
  else if n ≤ 240 then upTo240 data
  else long data

end Xxh3
end ShaderDialect
