/-!
# Digests

A 128-bit fingerprint of bytes: the XXH3 hash without a seed, its low half first, written as
hexadecimal bytes in increasing significance. Several texts are fingerprinted together with their
lengths, so that where one ends and the next begins matters.
-/
namespace Gateware

/-- The two halves of a hash or of a product. -/
structure Wide where
  low : UInt64
  high : UInt64
deriving DecidableEq, Repr

namespace Digest

/-- The constants that key all reads of the input. -/
def secret : ByteArray := ⟨#[
  0xb8, 0xfe, 0x6c, 0x39, 0x23, 0xa4, 0x4b, 0xbe, 0x7c, 0x01, 0x81, 0x2c, 0xf7, 0x21, 0xad, 0x1c,
  0xde, 0xd4, 0x6d, 0xe9, 0x83, 0x90, 0x97, 0xdb, 0x72, 0x40, 0xa4, 0xa4, 0xb7, 0xb3, 0x67, 0x1f,
  0xcb, 0x79, 0xe6, 0x4e, 0xcc, 0xc0, 0xe5, 0x78, 0x82, 0x5a, 0xd0, 0x7d, 0xcc, 0xff, 0x72, 0x21,
  0xb8, 0x08, 0x46, 0x74, 0xf7, 0x43, 0x24, 0x8e, 0xe0, 0x35, 0x90, 0xe6, 0x81, 0x3a, 0x26, 0x4c,
  0x3c, 0x28, 0x52, 0xbb, 0x91, 0xc3, 0x00, 0xcb, 0x88, 0xd0, 0x65, 0x8b, 0x1b, 0x53, 0x2e, 0xa3,
  0x71, 0x64, 0x48, 0x97, 0xa2, 0x0d, 0xf9, 0x4e, 0x38, 0x19, 0xef, 0x46, 0xa9, 0xde, 0xac, 0xd8,
  0xa8, 0xfa, 0x76, 0x3f, 0xe3, 0x9c, 0x34, 0x3f, 0xf9, 0xdc, 0xbb, 0xc7, 0xc7, 0x0b, 0x4f, 0x1d,
  0x8a, 0x51, 0xe0, 0x4b, 0xcd, 0xb4, 0x59, 0x31, 0xc8, 0x9f, 0x7e, 0xc9, 0xd9, 0x78, 0x73, 0x64,
  0xea, 0xc5, 0xac, 0x83, 0x34, 0xd3, 0xeb, 0xc3, 0xc5, 0x81, 0xa0, 0xff, 0xfa, 0x13, 0x63, 0xeb,
  0x17, 0x0d, 0xdd, 0x51, 0xb7, 0xf0, 0xda, 0x49, 0xd3, 0x16, 0x55, 0x26, 0x29, 0xd4, 0x68, 0x9e,
  0x2b, 0x16, 0xbe, 0x58, 0x7d, 0x47, 0xa1, 0xfc, 0x8f, 0xf8, 0xb8, 0xd1, 0x7a, 0xd0, 0x31, 0xce,
  0x45, 0xcb, 0x3a, 0x8f, 0x95, 0x16, 0x04, 0x28, 0xaf, 0xd7, 0xfb, 0xca, 0xbb, 0x4b, 0x40, 0x7e]⟩

def prime32A : UInt64 := 0x9e3779b1
def prime32B : UInt64 := 0x85ebca77
def prime32C : UInt64 := 0xc2b2ae3d
def primeA : UInt64 := 0x9e3779b185ebca87
def primeB : UInt64 := 0xc2b2ae3d27d4eb4f
def primeC : UInt64 := 0x165667b19e3779f9
def primeD : UInt64 := 0x85ebca77c2b2ae63
def primeE : UInt64 := 0x27d4eb2f165667c5

def byteAt (b : ByteArray) (i : Nat) : UInt64 := (b[i]?.getD 0).toUInt64

/-- `count` bytes from `i` on as a number, the first one lowest. -/
def wordAt (b : ByteArray) (i : Nat) : (count : Nat) → UInt64
  | 0 => 0
  | count + 1 => byteAt b i ||| wordAt b (i + 1) count <<< 8

def read32 (b : ByteArray) (i : Nat) : UInt64 := wordAt b i 4

def read64 (b : ByteArray) (i : Nat) : UInt64 := wordAt b i 8

/-- Two words of the secret, one hiding the other. -/
def key (i : Nat) : UInt64 := read64 secret i ^^^ read64 secret (i + 8)

def low32 (x : UInt64) : UInt64 := x &&& 0xffffffff

/-- The bytes of the low `count` in opposite order. -/
def swap (x : UInt64) : (count : Nat) → UInt64
  | 0 => 0
  | count + 1 => (x &&& 0xff) <<< (8 * count).toUInt64 ||| swap (x >>> 8) count

def shifted (x : UInt64) (n : UInt64) : UInt64 := x ^^^ x >>> n

/-- The full product. -/
def product (a b : UInt64) : Wide :=
  let p := a.toNat * b.toNat
  ⟨p.toUInt64, (p >>> 64).toUInt64⟩

/-- The halves of the product on top of each other. -/
def folded (a b : UInt64) : UInt64 :=
  let p := product a b
  p.low ^^^ p.high

/-- Spread every bit over the word. -/
def spread (x : UInt64) : UInt64 :=
  let x := shifted x 37
  shifted (x * 0x165667919e3779f9) 32

/-- Spread every bit over the word, the stronger way that short inputs need. -/
def spreadShort (x : UInt64) : UInt64 :=
  let x := shifted x 33 * primeB
  let x := shifted x 29 * primeC
  shifted x 32

def empty : Wide := ⟨spreadShort (key 64), spreadShort (key 80)⟩

/-- One to three bytes. -/
def tiny (b : ByteArray) : Wide :=
  let n := b.size
  let low := byteAt b 0 <<< 16 ||| byteAt b (n / 2) <<< 24 ||| byteAt b (n - 1) ||| n.toUInt64 <<< 8
  let turned := swap low 4
  let high := low32 (turned <<< 13) ||| turned >>> 19
  ⟨spreadShort (low ^^^ (read32 secret 0 ^^^ read32 secret 4)),
   spreadShort (high ^^^ (read32 secret 8 ^^^ read32 secret 12))⟩

/-- Four to eight bytes. -/
def small (b : ByteArray) : Wide :=
  let n := b.size
  let input := read32 b 0 + read32 b (n - 4) <<< 32
  let p := product (input ^^^ key 16) (primeA + n.toUInt64 <<< 2)
  let high := p.high + p.low <<< 1
  let low := shifted (p.low ^^^ high >>> 3) 35 * 0x9fb21c651e98df25
  ⟨shifted low 28, spread high⟩

/-- Nine to sixteen bytes. -/
def medium (b : ByteArray) : Wide :=
  let n := b.size
  let first := read64 b 0
  let last := read64 b (n - 8)
  let p := product (first ^^^ last ^^^ key 32) primeA
  let low := p.low + (n - 1).toUInt64 <<< 54
  let last := last ^^^ key 48
  let high := p.high + last + low32 last * (prime32B - 1)
  let q := product (low ^^^ swap high 8) primeB
  ⟨spread q.low, spread (q.high + high * primeB)⟩

/-- Sixteen bytes under sixteen bytes of the secret. -/
def mix (b : ByteArray) (i s : Nat) : UInt64 :=
  folded (read64 b i ^^^ read64 secret s) (read64 b (i + 8) ^^^ read64 secret (s + 8))

/-- Two times sixteen bytes, each half of the state taking in both. -/
def mixPair (b : ByteArray) (acc : Wide) (i j s : Nat) : Wide :=
  ⟨(acc.low + mix b i s) ^^^ (read64 b j + read64 b (j + 8)),
   (acc.high + mix b j (s + 16)) ^^^ (read64 b i + read64 b (i + 8))⟩

/-- The hash that a state stands for. -/
def close (acc : Wide) (n : Nat) : Wide :=
  ⟨spread (acc.low + acc.high),
   0 - spread (acc.low * primeA + acc.high * primeD + n.toUInt64 * primeB)⟩

/-- Seventeen to 128 bytes, from both ends to the middle. -/
def large (b : ByteArray) : Wide :=
  let n := b.size
  let pairs := (n - 1) / 32
  close ((List.range (pairs + 1)).reverse.foldl (fun acc k =>
    mixPair b acc (16 * k) (n - 16 * (k + 1)) (32 * k)) ⟨n.toUInt64 * primeA, 0⟩) n

/-- 129 to 240 bytes. -/
def larger (b : ByteArray) : Wide :=
  let n := b.size
  let acc := (List.range 4).foldl (fun acc k => mixPair b acc (32 * k) (32 * k + 16) (32 * k))
    ⟨n.toUInt64 * primeA, 0⟩
  let acc : Wide := ⟨spread acc.low, spread acc.high⟩
  let acc := (List.range (n / 32 - 4)).foldl (fun acc k =>
    mixPair b acc (32 * (k + 4)) (32 * (k + 4) + 16) (32 * k + 3)) acc
  close (mixPair b acc (n - 16) (n - 32) 103) n

/-- Eight running sums. -/
abbrev Lanes := Array UInt64

def lanes : Lanes := #[prime32C, primeA, primeB, primeC, primeD, prime32B, primeE, prime32A]

/-- Take in 64 bytes from `i` on under the secret from `s` on. -/
def absorb (b : ByteArray) (acc : Lanes) (i s : Nat) : Lanes :=
  let data := fun k => read64 b (i + 8 * k)
  Array.ofFn fun (k : Fin 8) =>
    let keyed := data k.val ^^^ read64 secret (s + 8 * k.val)
    acc.getD k.val 0 + data (k.val ^^^ 1) + low32 keyed * (keyed >>> 32)

/-- Stir the sums between blocks. -/
def stir (acc : Lanes) : Lanes :=
  Array.ofFn fun (k : Fin 8) =>
    (shifted (acc.getD k.val 0) 47 ^^^ read64 secret (128 + 8 * k.val)) * prime32A

/-- The first `stripes` 64-byte stripes of the block at `i`. -/
def absorbBlock (b : ByteArray) (acc : Lanes) (i stripes : Nat) : Lanes :=
  (List.range stripes).foldl (fun acc k => absorb b acc (i + 64 * k) (8 * k)) acc

/-- One half of the hash out of the sums. -/
def gather (acc : Lanes) (s : Nat) (start : UInt64) : UInt64 :=
  spread ((List.range 4).foldl (fun h k =>
    h + folded (acc.getD (2 * k) 0 ^^^ read64 secret (s + 16 * k))
      (acc.getD (2 * k + 1) 0 ^^^ read64 secret (s + 16 * k + 8))) start)

/-- More than 240 bytes, in blocks of 1024. -/
def huge (b : ByteArray) : Wide :=
  let n := b.size
  let blocks := (n - 1) / 1024
  let acc := (List.range blocks).foldl (fun acc k => stir (absorbBlock b acc (1024 * k) 16)) lanes
  let acc := absorbBlock b acc (1024 * blocks) ((n - 1 - 1024 * blocks) / 64)
  let acc := absorb b acc (n - 64) 121
  ⟨gather acc 11 (n.toUInt64 * primeA), gather acc 117 (~~~(n.toUInt64 * primeB))⟩

/-- The hash of bytes; every range of lengths has a way of its own. -/
def hash (b : ByteArray) : Wide :=
  if b.size = 0 then empty
  else if b.size ≤ 3 then tiny b
  else if b.size ≤ 8 then small b
  else if b.size ≤ 16 then medium b
  else if b.size ≤ 128 then large b
  else if b.size ≤ 240 then larger b
  else huge b

end Digest

/-- A fingerprint. -/
structure Digest where
  value : Wide
deriving DecidableEq, Repr

namespace Digest

def ofBytes (b : ByteArray) : Digest := ⟨hash b⟩

/-- A number as eight bytes, the lowest one first. -/
def lengthBytes (n : Nat) : ByteArray :=
  ⟨Array.ofFn fun (k : Fin 8) => (n >>> (8 * k.val)).toUInt8⟩

/-- The fingerprint of several texts with their lengths. -/
def ofParts (parts : List String) : Digest :=
  ofBytes (parts.foldl (fun b part =>
    (b ++ lengthBytes part.toUTF8.size) ++ part.toUTF8) ByteArray.empty)

/-- The byte at a place, of sixteen. -/
def byte (d : Digest) (k : Nat) : Nat :=
  let half := if k < 8 then d.value.low else d.value.high
  half.toNat >>> (8 * (k % 8)) % 256

def hexByte (n : Nat) : String := String.ofList [Nat.digitChar (n / 16), Nat.digitChar (n % 16)]

def text (d : Digest) : String := String.join ((List.range 16).map fun k => hexByte (d.byte k))

/-- The first two bytes. -/
def brief (d : Digest) : String := s!"ContentHash({hexByte (d.byte 0)}{hexByte (d.byte 1)}..)"

end Digest

end Gateware
