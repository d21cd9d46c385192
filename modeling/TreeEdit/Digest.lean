import TreeEdit.Text.Basic
/-!
# A digest of a text

The 64-bit XXH3 digest of the UTF-8 form, with seed zero and the standard
secret. Long texts are verified by it, so that an edit need not carry a second
copy of them.
-/

namespace TreeEdit.Digest

/-! ## Words -/

def secret : Array UInt8 :=
  #[0xB8, 0xFE, 0x6C, 0x39, 0x23, 0xA4, 0x4B, 0xBE, 0x7C, 0x01, 0x81, 0x2C, 0xF7, 0x21, 0xAD, 0x1C,
    0xDE, 0xD4, 0x6D, 0xE9, 0x83, 0x90, 0x97, 0xDB, 0x72, 0x40, 0xA4, 0xA4, 0xB7, 0xB3, 0x67, 0x1F,
    0xCB, 0x79, 0xE6, 0x4E, 0xCC, 0xC0, 0xE5, 0x78, 0x82, 0x5A, 0xD0, 0x7D, 0xCC, 0xFF, 0x72, 0x21,
    0xB8, 0x08, 0x46, 0x74, 0xF7, 0x43, 0x24, 0x8E, 0xE0, 0x35, 0x90, 0xE6, 0x81, 0x3A, 0x26, 0x4C,
    0x3C, 0x28, 0x52, 0xBB, 0x91, 0xC3, 0x00, 0xCB, 0x88, 0xD0, 0x65, 0x8B, 0x1B, 0x53, 0x2E, 0xA3,
    0x71, 0x64, 0x48, 0x97, 0xA2, 0x0D, 0xF9, 0x4E, 0x38, 0x19, 0xEF, 0x46, 0xA9, 0xDE, 0xAC, 0xD8,
    0xA8, 0xFA, 0x76, 0x3F, 0xE3, 0x9C, 0x34, 0x3F, 0xF9, 0xDC, 0xBB, 0xC7, 0xC7, 0x0B, 0x4F, 0x1D,
    0x8A, 0x51, 0xE0, 0x4B, 0xCD, 0xB4, 0x59, 0x31, 0xC8, 0x9F, 0x7E, 0xC9, 0xD9, 0x78, 0x73, 0x64,
    0xEA, 0xC5, 0xAC, 0x83, 0x34, 0xD3, 0xEB, 0xC3, 0xC5, 0x81, 0xA0, 0xFF, 0xFA, 0x13, 0x63, 0xEB,
    0x17, 0x0D, 0xDD, 0x51, 0xB7, 0xF0, 0xDA, 0x49, 0xD3, 0x16, 0x55, 0x26, 0x29, 0xD4, 0x68, 0x9E,
    0x2B, 0x16, 0xBE, 0x58, 0x7D, 0x47, 0xA1, 0xFC, 0x8F, 0xF8, 0xB8, 0xD1, 0x7A, 0xD0, 0x31, 0xCE,
    0x45, 0xCB, 0x3A, 0x8F, 0x95, 0x16, 0x04, 0x28, 0xAF, 0xD7, 0xFB, 0xCA, 0xBB, 0x4B, 0x40, 0x7E]

def prime1 : UInt64 := 0x9E3779B185EBCA87

def prime2 : UInt64 := 0xC2B2AE3D27D4EB4F

def prime3 : UInt64 := 0x165667B19E3779F9

def shortPrime1 : UInt64 := 0x9E3779B1

/-- The multiplier of the last mixing step of medium and long texts. -/
def mixPrime : UInt64 := 0x165667919E3779F9

/-- The multiplier that mixes four to eight bytes. -/
def rotatePrime : UInt64 := 0x9FB21C651E98DF25

/-- The `n` bytes at offset `o`, the lowest first. -/
def read (d : Array UInt8) (o n : Nat) : UInt64 :=
  (List.range n).foldr (fun i w => (w <<< 8) ||| (d.getD (o + i) 0).toUInt64) 0

def read64 (d : Array UInt8) (o : Nat) : UInt64 := read d o 8

def key (o : Nat) : UInt64 := read64 secret o

/-- The low and the high half of the full product, combined by exclusive or. -/
def foldedProduct (a b : UInt64) : UInt64 :=
  let p := a.toNat * b.toNat
  UInt64.ofNat p ^^^ UInt64.ofNat (p / 0x10000000000000000)

def rotate (w n : UInt64) : UInt64 := (w <<< n) ||| (w >>> (64 - n))

def swapBytes (w : UInt64) : UInt64 :=
  (List.range 8).foldl (fun v i => (v <<< 8) ||| ((w >>> (UInt64.ofNat (8 * i))) &&& 0xFF)) 0

/-- The last mixing step of the shortest texts. -/
def scatter (h : UInt64) : UInt64 :=
  let h := (h ^^^ (h >>> 33)) * prime2
  let h := (h ^^^ (h >>> 29)) * prime3
  h ^^^ (h >>> 32)

/-- The last mixing step of medium and long texts. -/
def finish (h : UInt64) : UInt64 :=
  let h := (h ^^^ (h >>> 37)) * mixPrime
  h ^^^ (h >>> 32)

/-! ## Short and medium texts -/

/-- One to three bytes. -/
def tiny (d : Array UInt8) : UInt64 :=
  let n := d.size
  let w := (read d 0 1 <<< 16) ||| (read d (n / 2) 1 <<< 24) ||| read d (n - 1) 1 |||
    (UInt64.ofNat n <<< 8)
  scatter (w ^^^ read secret 0 4 ^^^ read secret 4 4)

/-- Four to eight bytes. -/
def small (d : Array UInt8) : UInt64 :=
  let n := d.size
  let w := (read d (n - 4) 4 + (read d 0 4 <<< 32)) ^^^ (key 8 ^^^ key 16)
  let h := (w ^^^ rotate w 49 ^^^ rotate w 24) * rotatePrime
  let h := (h ^^^ ((h >>> 35) + UInt64.ofNat n)) * rotatePrime
  h ^^^ (h >>> 28)

/-- Nine to sixteen bytes. -/
def brief (d : Array UInt8) : UInt64 :=
  let n := d.size
  let lo := read64 d 0 ^^^ (key 24 ^^^ key 32)
  let hi := read64 d (n - 8) ^^^ (key 40 ^^^ key 48)
  finish (UInt64.ofNat n + swapBytes lo + hi + foldedProduct lo hi)

/-- Sixteen bytes at offset `o`, mixed with the secret at offset `s`. -/
def mix16 (d : Array UInt8) (o s : Nat) : UInt64 :=
  foldedProduct (read64 d o ^^^ key s) (read64 d (o + 8) ^^^ key (s + 8))

/-- Seventeen to 128 bytes: pairs of blocks, from both ends towards the middle. -/
def medium (d : Array UInt8) : UInt64 :=
  let n := d.size
  finish <| (List.range ((n - 1) / 32 + 1)).foldl
    (fun a i => a + mix16 d (16 * i) (32 * i) + mix16 d (n - 16 * (i + 1)) (32 * i + 16))
    (UInt64.ofNat n * prime1)

/-- 129 to 240 bytes: eight blocks, a mixing step, the other blocks, and the last sixteen bytes. -/
def large (d : Array UInt8) : UInt64 :=
  let n := d.size
  let a := (List.range 8).foldl (fun a i => a + mix16 d (16 * i) (16 * i))
    (UInt64.ofNat n * prime1)
  let a := (List.range (n / 16 - 8)).foldl
    (fun a i => a + mix16 d (16 * (i + 8)) (16 * i + 3)) (finish a)
  finish (a + mix16 d (n - 16) 119)

/-! ## Long texts -/

/-- The eight accumulators before the first block. -/
def start : List UInt64 :=
  [0xC2B2AE3D, 0x9E3779B185EBCA87, 0xC2B2AE3D27D4EB4F, 0x165667B19E3779F9, 0x85EBCA77C2B2AE63,
    0x85EBCA77, 0x27D4EB2F165667C5, 0x9E3779B1]

/-- Takes in the 64 bytes at offset `o`, with the secret at offset `s`. -/
def stripe (d : Array UInt8) (acc : List UInt64) (o s : Nat) : List UInt64 :=
  acc.zipIdx.map fun (a, i) =>
    let k := read64 d (o + 8 * i) ^^^ key (s + 8 * i)
    a + read64 d (o + 8 * (i ^^^ 1)) + (k &&& (0xFFFFFFFF : UInt64)) * (k >>> (32 : UInt64))

/-- Takes in the first `n` stripes of the block at offset `o`. -/
def stripes (d : Array UInt8) (acc : List UInt64) (o n : Nat) : List UInt64 :=
  (List.range n).foldl (fun acc j => stripe d acc (o + 64 * j) (8 * j)) acc

/-- Mixes the accumulators at the end of a full block. -/
def scramble (acc : List UInt64) : List UInt64 :=
  acc.zipIdx.map fun (a, i) => ((a ^^^ (a >>> 47)) ^^^ key (128 + 8 * i)) * shortPrime1

/-- More than 240 bytes: blocks of sixteen stripes, the rest, and the last 64 bytes once more. -/
def long (d : Array UInt8) : UInt64 :=
  let n := d.size
  let full := (n - 1) / 1024
  let acc := (List.range full).foldl (fun acc b => scramble (stripes d acc (1024 * b) 16)) start
  let acc := stripes d acc (1024 * full) ((n - 1 - 1024 * full) / 64)
  let acc := stripe d acc (n - 64) 121
  finish <| (List.range 4).foldl
    (fun r i => r + foldedProduct (acc.getD (2 * i) 0 ^^^ key (11 + 16 * i))
      (acc.getD (2 * i + 1) 0 ^^^ key (19 + 16 * i)))
    (UInt64.ofNat n * prime1)

def ofBytes (d : Array UInt8) : UInt64 :=
  if d.size = 0 then scatter (key 56 ^^^ key 64)
  else if d.size ≤ 3 then tiny d
  else if d.size ≤ 8 then small d
  else if d.size ≤ 16 then brief d
  else if d.size ≤ 128 then medium d
  else if d.size ≤ 240 then large d
  else long d

end TreeEdit.Digest

/-- The 64-bit digest of the UTF-8 form of a text. -/
def TreeEdit.Text.digest (t : TreeEdit.Text) : UInt64 := TreeEdit.Digest.ofBytes t.bytes.toArray
