import Rdpio.Lib.Bytes
import Rdpio.Lib.Chunks

/-!
# SHA-1

`crates/rdp-crypto/src/sha1.rs`: the digest of a message, and the keyed digest that STUN messages carry.
-/

namespace Rdpio.Crypto

open Lib

def rotateLeft (x : UInt32) (n : UInt32) : UInt32 := x <<< n ||| x >>> (32 - n)

structure Sha1State where
  a : UInt32
  b : UInt32
  c : UInt32
  d : UInt32
  e : UInt32

namespace Sha1State

def init : Sha1State := ⟨0x67452301, 0xEFCDAB89, 0x98BADCFE, 0x10325476, 0xC3D2E1F0⟩

/-- The function and the constant of round `i`. -/
def mix (s : Sha1State) (i : ℕ) : UInt32 × UInt32 :=
  if i < 20 then ((s.b &&& s.c) ||| (~~~s.b &&& s.d), 0x5A827999)
  else if i < 40 then (s.b ^^^ s.c ^^^ s.d, 0x6ED9EBA1)
  else if i < 60 then ((s.b &&& s.c) ||| (s.b &&& s.d) ||| (s.c &&& s.d), 0x8F1BBCDC)
  else (s.b ^^^ s.c ^^^ s.d, 0xCA62C1D6)

def round (s : Sha1State) (word : UInt32 × ℕ) : Sha1State :=
  let (f, k) := s.mix word.2
  { a := rotateLeft s.a 5 + f + s.e + k + word.1
    b := s.a
    c := rotateLeft s.b 30
    d := s.c
    e := s.d }

def add (s t : Sha1State) : Sha1State := ⟨s.a + t.a, s.b + t.b, s.c + t.c, s.d + t.d, s.e + t.e⟩

def bytes (s : Sha1State) : List UInt8 :=
  beBytes 4 s.a.toNat ++ beBytes 4 s.b.toNat ++ beBytes 4 s.c.toNat ++ beBytes 4 s.d.toNat ++ beBytes 4 s.e.toNat

end Sha1State

def extendSchedule (w : List UInt32) : List UInt32 :=
  let i := w.length
  w ++ [rotateLeft (w.getD (i - 3) 0 ^^^ w.getD (i - 8) 0 ^^^ w.getD (i - 14) 0 ^^^ w.getD (i - 16) 0) 1]

def schedule (chunk : List UInt8) : List UInt32 :=
  Nat.iterate extendSchedule 64 ((List.range 16).map fun i => UInt32.ofNat (ofBe ((chunk.drop (i * 4)).take 4)))

def compress (h : Sha1State) (chunk : List UInt8) : Sha1State := h.add ((schedule chunk).zipIdx.foldl Sha1State.round h)

def pad (input : List UInt8) : List UInt8 :=
  input ++ [0x80] ++ List.replicate ((119 - input.length % 64) % 64) 0 ++ beBytes 8 (input.length * 8 % 2^64)

def sha1 (input : List UInt8) : List UInt8 := ((chunks 64 (pad input)).foldl compress .init).bytes

@[simp]
theorem length_sha1 (input : List UInt8) : (sha1 input).length = 20 := by simp [sha1, Sha1State.bytes]

example : sha1 [0x61, 0x62, 0x63] =
    [0xa9, 0x99, 0x3e, 0x36, 0x47, 0x06, 0x81, 0x6a, 0xba, 0x3e, 0x25, 0x71, 0x78, 0x50, 0xc2, 0x6c, 0x9c, 0xd0,
      0xd8, 0x9d] := by decide +kernel

def hmacKey (key : List UInt8) : List UInt8 :=
  let k := if 64 < key.length then sha1 key else key
  k ++ List.replicate (64 - k.length) 0

def hmacSha1 (key message : List UInt8) : List UInt8 :=
  let ipad := (hmacKey key).map (0x36 ^^^ ·)
  let opad := (hmacKey key).map (0x5c ^^^ ·)
  sha1 (opad ++ sha1 (ipad ++ message))

@[simp]
theorem length_hmacSha1 (key message : List UInt8) : (hmacSha1 key message).length = 20 := length_sha1 _

end Rdpio.Crypto
