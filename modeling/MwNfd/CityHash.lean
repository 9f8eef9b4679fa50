import MwNfd.Lib.Bytes

/-!
# CityHash64 (`daemon/common/city-hash.cpp`)

The hash the dispatcher applies to the octets of a name prefix. It is translated function by
function on `UInt64`, whose arithmetic wraps modulo `2^64` as `uint64` does. `Fetch64` and
`Fetch32` load octets least significant first (the code runs on little-endian hosts, where
`uint64_in_expected_order` is the identity), and `bswap_64` reverses the eight octets of a word.

Every `Fetch` reads inside `[s, s + len)` for the length range of its branch, so the model reads
a list of exactly `len` octets.
-/

namespace MwNfd.CityHash

/-- Some primes between `2^63` and `2^64`. -/
def k0 : UInt64 := 0xc3a5c85c97cb3127
def k1 : UInt64 := 0xb492b66fbe98f273
def k2 : UInt64 := 0x9ae16a3b2f90404f

/-- `Fetch64`: the eight octets at offset `i`, least significant first. -/
def fetch64 (s : List UInt8) (i : Nat) : UInt64 := (Octets.leNat ((s.drop i).take 8)).toUInt64

/-- `Fetch32`, zero-extended to the `uint64` it is assigned to. -/
def fetch32 (s : List UInt8) (i : Nat) : UInt64 := (Octets.leNat ((s.drop i).take 4)).toUInt64

/-- `bswap_64`. -/
def bswap64 (v : UInt64) : UInt64 := (Octets.leNat (Octets.beBytes 8 v.toNat)).toUInt64

/-- `Rotate(val, shift)`, which avoids shifting by 64. -/
def rotate (val : UInt64) (shift : Nat) : UInt64 :=
  if shift = 0 then val else (val >>> shift.toUInt64) ||| (val <<< (64 - shift).toUInt64)

def shiftMix (val : UInt64) : UInt64 := val ^^^ (val >>> 47)

/-- `Hash128to64` of `uint128(u, v)`: `u` is the low word, `v` the high word. -/
def hashLen16 (u v : UInt64) : UInt64 :=
  let kMul : UInt64 := 0x9ddfea08eb382d69
  let a := (u ^^^ v) * kMul
  let a := a ^^^ (a >>> 47)
  let b := (v ^^^ a) * kMul
  let b := b ^^^ (b >>> 47)
  b * kMul

/-- The Murmur-inspired `HashLen16(u, v, mul)`. -/
def hashLen16Mul (u v mul : UInt64) : UInt64 :=
  let a := (u ^^^ v) * mul
  let a := a ^^^ (a >>> 47)
  let b := (v ^^^ a) * mul
  let b := b ^^^ (b >>> 47)
  b * mul

def hashLen0to16 (s : List UInt8) : UInt64 :=
  let len := s.length
  if 8 ≤ len then
    let mul := k2 + len.toUInt64 * 2
    let a := fetch64 s 0 + k2
    let b := fetch64 s (len - 8)
    let c := rotate b 37 * mul + a
    let d := (rotate a 25 + b) * mul
    hashLen16Mul c d mul
  else if 4 ≤ len then
    let mul := k2 + len.toUInt64 * 2
    let a := fetch32 s 0
    hashLen16Mul (len.toUInt64 + (a <<< 3)) (fetch32 s (len - 4)) mul
  else if 0 < len then
    let a := s.getD 0 0
    let b := s.getD (len >>> 1) 0
    let c := s.getD (len - 1) 0
    let y : UInt32 := a.toUInt32 + (b.toUInt32 <<< 8)
    let z : UInt32 := len.toUInt32 + (c.toUInt32 <<< 2)
    shiftMix (y.toUInt64 * k2 ^^^ z.toUInt64 * k0) * k2
  else k2

def hashLen17to32 (s : List UInt8) : UInt64 :=
  let len := s.length
  let mul := k2 + len.toUInt64 * 2
  let a := fetch64 s 0 * k1
  let b := fetch64 s 8
  let c := fetch64 s (len - 8) * mul
  let d := fetch64 s (len - 16) * k2
  hashLen16Mul (rotate (a + b) 43 + rotate c 30 + d) (a + rotate (b + k2) 18 + c) mul

/-- `WeakHashLen32WithSeeds(w, x, y, z, a, b)`. -/
def weakHashLen32WithSeeds (w x y z a b : UInt64) : UInt64 × UInt64 :=
  let a := a + w
  let b := rotate (b + a + z) 21
  let c := a
  let a := a + x
  let a := a + y
  let b := b + rotate a 44
  (a + z, b + c)

/-- `WeakHashLen32WithSeeds(s, a, b)` at offset `i`. -/
def weakHashAt (s : List UInt8) (i : Nat) (a b : UInt64) : UInt64 × UInt64 :=
  weakHashLen32WithSeeds (fetch64 s i) (fetch64 s (i + 8)) (fetch64 s (i + 16))
    (fetch64 s (i + 24)) a b

def hashLen33to64 (s : List UInt8) : UInt64 :=
  let len := s.length
  let mul := k2 + len.toUInt64 * 2
  let a := fetch64 s 0 * k2
  let b := fetch64 s 8
  let c := fetch64 s (len - 24)
  let d := fetch64 s (len - 32)
  let e := fetch64 s 16 * k2
  let f := fetch64 s 24 * 9
  let g := fetch64 s (len - 8)
  let h := fetch64 s (len - 16) * mul
  let u := rotate (a + g) 43 + (rotate b 30 + c) * 9
  let v := ((a + g) ^^^ d) + f + 1
  let w := bswap64 ((u + v) * mul) + h
  let x := rotate (e + f) 42 + c
  let y := (bswap64 ((v + w) * mul) + g) * mul
  let z := e + f + c
  let a := bswap64 ((x + z) * mul + y) + b
  let b := shiftMix ((z + a) * mul + d + h) * mul
  b + x

/-- The state `x, y, z, v, w` of the 64-octet loop of `CityHash64`. -/
structure LoopState where
  x : UInt64
  y : UInt64
  z : UInt64
  v : UInt64 × UInt64
  w : UInt64 × UInt64

/-- One pass of the `do { … } while (len != 0)` loop, on the chunk at offset `o`. -/
def chunk (s : List UInt8) (o : Nat) (st : LoopState) : LoopState :=
  let x := rotate (st.x + st.y + st.v.1 + fetch64 s (o + 8)) 37 * k1
  let y := rotate (st.y + st.v.2 + fetch64 s (o + 48)) 42 * k1
  let x := x ^^^ st.w.2
  let y := y + st.v.1 + fetch64 s (o + 40)
  let z := rotate (st.z + st.w.1) 33 * k1
  let v := weakHashAt s o (st.v.2 * k1) (x + st.w.1)
  let w := weakHashAt s (o + 32) (z + st.w.2) (y + fetch64 s (o + 16))
  -- `std::swap(z, x)`
  { x := z, y := y, z := x, v := v, w := w }

/-- `n` passes of the loop from offset `o`. -/
def chunks (s : List UInt8) : Nat → Nat → LoopState → LoopState
  | 0, _, st => st
  | n + 1, o, st => chunks s n (o + 64) (chunk s o st)

/-- `CityHash64(s, len)` for `len > 64`. -/
def hashLong (s : List UInt8) : UInt64 :=
  let len := s.length
  let x := fetch64 s (len - 40)
  let y := fetch64 s (len - 16) + fetch64 s (len - 56)
  let z := hashLen16 (fetch64 s (len - 48) + len.toUInt64) (fetch64 s (len - 24))
  let v := weakHashAt s (len - 64) len.toUInt64 z
  let w := weakHashAt s (len - 32) (y + k1) x
  let x := x * k1 + fetch64 s 0
  -- `len = (len - 1) & ~63` leaves `(len - 1) / 64` chunks of 64 octets
  let st := chunks s ((len - 1) / 64) 0 { x := x, y := y, z := z, v := v, w := w }
  hashLen16 (hashLen16 st.v.1 st.w.1 + shiftMix st.y * k1 + st.z) (hashLen16 st.v.2 st.w.2 + st.x)

/-- `CityHash64(s, len)` of the `len` octets `s`. -/
def cityHash64 (s : List UInt8) : UInt64 :=
  if s.length ≤ 32 then
    if s.length ≤ 16 then hashLen0to16 s else hashLen17to32 s
  else if s.length ≤ 64 then hashLen33to64 s
  else hashLong s

end MwNfd.CityHash
