import SteleDb.Storage.Checksum

/-!
# Digests

SHA-256 as the commit log and the catalog log use it to chain their records: each record carries the
digest of the one before, the first the all-zero digest.
-/

namespace SteleDb

/-- A SHA-256 digest. -/
abbrev Digest := Fin 32 → Fin 256

namespace Digest

/-- What a first record chains from. -/
def zero : Digest := fun _ => 0

/-- Its bytes. -/
def bytes (d : Digest) : Bytes := List.ofFn d

/-- The digest that 32 bytes spell. -/
def ofBytes (l : Bytes) : Digest := fun i => l.getD i 0

@[simp] theorem length_bytes (d : Digest) : d.bytes.length = 32 := List.length_ofFn

@[simp] theorem ofBytes_bytes (d : Digest) : ofBytes d.bytes = d := by
  funext i
  rw [ofBytes, bytes, List.getD_eq_getElem _ _ (by rw [List.length_ofFn]; exact i.isLt),
    List.getElem_ofFn]

theorem bytes_ofBytes {l : Bytes} (h : l.length = 32) : (ofBytes l).bytes = l := by
  refine List.ext_getElem (by rw [length_bytes, h]) fun i hi hi' => ?_
  simp only [bytes, List.getElem_ofFn, ofBytes]
  exact List.getD_eq_getElem _ _ hi'

end Digest

/-! ### SHA-256 -/

/-- A 32-bit word. -/
abbrev Word := BitVec 32

/-- Initial hash values. -/
def sha256H0 : List Word :=
  [0x6a09e667, 0xbb67ae85, 0x3c6ef372, 0xa54ff53a, 0x510e527f, 0x9b05688c, 0x1f83d9ab, 0x5be0cd19]

/-- Round constants. -/
def sha256K : List Word :=
  [0x428a2f98, 0x71374491, 0xb5c0fbcf, 0xe9b5dba5, 0x3956c25b, 0x59f111f1, 0x923f82a4, 0xab1c5ed5,
   0xd807aa98, 0x12835b01, 0x243185be, 0x550c7dc3, 0x72be5d74, 0x80deb1fe, 0x9bdc06a7, 0xc19bf174,
   0xe49b69c1, 0xefbe4786, 0x0fc19dc6, 0x240ca1cc, 0x2de92c6f, 0x4a7484aa, 0x5cb0a9dc, 0x76f988da,
   0x983e5152, 0xa831c66d, 0xb00327c8, 0xbf597fc7, 0xc6e00bf3, 0xd5a79147, 0x06ca6351, 0x14292967,
   0x27b70a85, 0x2e1b2138, 0x4d2c6dfc, 0x53380d13, 0x650a7354, 0x766a0abb, 0x81c2c92e, 0x92722c85,
   0xa2bfe8a1, 0xa81a664b, 0xc24b8b70, 0xc76c51a3, 0xd192e819, 0xd6990624, 0xf40e3585, 0x106aa070,
   0x19a4c116, 0x1e376c08, 0x2748774c, 0x34b0bcb5, 0x391c0cb3, 0x4ed8aa4a, 0x5b9cca4f, 0x682e6ff3,
   0x748f82ee, 0x78a5636f, 0x84c87814, 0x8cc70208, 0x90befffa, 0xa4506ceb, 0xbef9a3f7, 0xc67178f2]

/-- Four bytes as a word, most significant first. -/
def beWord (bytes : Bytes) : Word := BitVec.ofNat 32 (leNat bytes.reverse)

/-- The low `k` bytes of `n`, most significant first. -/
def beBytes (k n : ℕ) : Bytes := (leBytes k n).reverse

theorem length_beBytes (k n : ℕ) : (beBytes k n).length = k := by
  rw [beBytes, List.length_reverse, length_leBytes]

/-- The words of a block, four bytes each. -/
def blockWords (block : Bytes) : List Word := (block.toChunks 4).map beWord

/-- The next word of the message schedule, from the last sixteen. -/
def scheduleWord (w : List Word) : Word :=
  let at_ := fun i => w.getD (w.length - i) 0
  let s0 := (at_ 15).rotateRight 7 ^^^ (at_ 15).rotateRight 18 ^^^ (at_ 15) >>> 3
  let s1 := (at_ 2).rotateRight 17 ^^^ (at_ 2).rotateRight 19 ^^^ (at_ 2) >>> 10
  at_ 16 + s0 + at_ 7 + s1

/-- The message schedule of a block: its sixteen words and forty-eight more. -/
def schedule (block : Bytes) : List Word := (fun w => w ++ [scheduleWord w])^[48] (blockWords block)

/-- The working variables. -/
structure Sha256Vars where
  /-- `a`. -/
  a : Word
  /-- `b`. -/
  b : Word
  /-- `c`. -/
  c : Word
  /-- `d`. -/
  d : Word
  /-- `e`. -/
  e : Word
  /-- `f`. -/
  f : Word
  /-- `g`. -/
  g : Word
  /-- `h`. -/
  h : Word

/-- One round, with its constant and its word of the schedule. -/
def Sha256Vars.round (v : Sha256Vars) (k w : Word) : Sha256Vars :=
  let s1 := v.e.rotateRight 6 ^^^ v.e.rotateRight 11 ^^^ v.e.rotateRight 25
  let ch := (v.e &&& v.f) ^^^ (~~~ v.e &&& v.g)
  let t1 := v.h + s1 + ch + k + w
  let s0 := v.a.rotateRight 2 ^^^ v.a.rotateRight 13 ^^^ v.a.rotateRight 22
  let maj := (v.a &&& v.b) ^^^ (v.a &&& v.c) ^^^ (v.b &&& v.c)
  ⟨t1 + (s0 + maj), v.a, v.b, v.c, v.d + t1, v.e, v.f, v.g⟩

/-- Compress one block of 64 bytes into the hash values. -/
def compress (h : List Word) (block : Bytes) : List Word :=
  let at_ := fun i => h.getD i 0
  let start : Sha256Vars := ⟨at_ 0, at_ 1, at_ 2, at_ 3, at_ 4, at_ 5, at_ 6, at_ 7⟩
  let v := (sha256K.zip (schedule block)).foldl (fun v kw => v.round kw.1 kw.2) start
  List.zipWith (· + ·) h [v.a, v.b, v.c, v.d, v.e, v.f, v.g, v.h]

/-- What follows the message: `0x80`, zeros, and its length in bits, up to a full block. -/
def sha256Padding (len : ℕ) : Bytes :=
  let rest := len % 64
  let tailLen := if rest < 56 then 64 else 128
  [0x80] ++ List.replicate (tailLen - 8 - (rest + 1)) 0 ++ beBytes 8 (len * 8)

/-- The SHA-256 digest of `bytes`. -/
@[irreducible] def sha256 (bytes : Bytes) : Digest :=
  let blocks := (bytes ++ sha256Padding bytes.length).toChunks 64
  Digest.ofBytes ((blocks.foldl compress sha256H0).flatMap fun w => beBytes 4 w.toNat)

-- "abc", the vector of FIPS 180-4
example : (sha256 [97, 98, 99]).bytes =
    [0xba, 0x78, 0x16, 0xbf, 0x8f, 0x01, 0xcf, 0xea, 0x41, 0x41, 0x40, 0xde, 0x5d, 0xae, 0x22, 0x23,
     0xb0, 0x03, 0x61, 0xa3, 0x96, 0x17, 0x7a, 0x9c, 0xb4, 0x10, 0xff, 0x61, 0xf2, 0x00, 0x15,
     0xad] := by
  decide +kernel

end SteleDb
