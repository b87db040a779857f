import SteleDb.Storage.Record
import SteleDb.Lib.LittleEndian

/-!
# Checksums and fixed-width fields

CRC32C as every file of the database uses it (the reflected Castagnoli polynomial, eight bytes at a
time from eight tables), and the unsigned 64-bit fields of the file formats.
-/

namespace SteleDb

/-! ### Fixed-width fields -/

/-- An unsigned 64-bit field. -/
abbrev U64 := Fin (2 ^ 64)

/-- Its eight bytes. -/
def U64.encode (n : U64) : Bytes := leBytes 8 n.val

/-- The field that eight bytes hold. -/
def U64.decode (bytes : Bytes) : U64 := Fin.ofNat (2 ^ 64) (leNat bytes)

@[simp] theorem U64.length_encode (n : U64) : (U64.encode n).length = 8 := length_leBytes 8 _

@[simp] theorem U64.decode_encode (n : U64) : U64.decode (U64.encode n) = n := by
  have hn : n.val < 256 ^ 8 := n.isLt
  unfold U64.decode U64.encode
  rw [leNat_leBytes hn]
  exact Fin.ofNat_val_eq_self n

/-- Eight bytes in front of others. -/
@[simp] theorem U64.encode_append (n : U64) (rest : Bytes) :
    (U64.encode n ++ rest).take 8 = U64.encode n ∧ (U64.encode n ++ rest).drop 8 = rest := by
  have h := U64.length_encode n
  exact ⟨by rw [← h, List.take_left], by rw [← h, List.drop_left]⟩

/-! ### CRC32C -/

/-- The Castagnoli polynomial, reflected. -/
def crcPolyReflected : BitVec 32 := 0x82F63B78

/-- One bit of the remainder. -/
def crcShift (crc : BitVec 32) : BitVec 32 :=
  if crc &&& 1 = 0 then crc >>> 1 else (crc >>> 1) ^^^ crcPolyReflected

/-- The classic table: eight bits of the remainder. -/
def crcTable (i : BitVec 32) : BitVec 32 := crcShift^[8] i

/-- The table for a byte `k` places earlier. -/
def crcTables : ℕ → BitVec 32 → BitVec 32
  | 0, i => crcTable i
  | k + 1, i => (crcTables k i >>> 8) ^^^ crcTable (crcTables k i &&& 0xFF)

/-- Four bytes as a word. -/
def leWord (bytes : Bytes) : BitVec 32 := BitVec.ofNat 32 (leNat bytes)

/-- Fold bytes into the remainder, eight at a time. -/
def crcUpdate : BitVec 32 → Bytes → BitVec 32
  | crc, b₀ :: b₁ :: b₂ :: b₃ :: b₄ :: b₅ :: b₆ :: b₇ :: rest =>
    let low := leWord [b₀, b₁, b₂, b₃] ^^^ crc
    let high := leWord [b₄, b₅, b₆, b₇]
    crcUpdate (crcTables 7 (low &&& 0xFF) ^^^ crcTables 6 ((low >>> 8) &&& 0xFF) ^^^
      crcTables 5 ((low >>> 16) &&& 0xFF) ^^^ crcTables 4 (low >>> 24) ^^^
      crcTables 3 (high &&& 0xFF) ^^^ crcTables 2 ((high >>> 8) &&& 0xFF) ^^^
      crcTables 1 ((high >>> 16) &&& 0xFF) ^^^ crcTables 0 (high >>> 24)) rest
  | crc, rest =>
    rest.foldl (fun crc b => crcTable ((crc ^^^ BitVec.ofNat 32 b.val) &&& 0xFF) ^^^ (crc >>> 8))
      crc

/-- The CRC32C of `bytes`. -/
def crc32c (bytes : Bytes) : BitVec 32 := ~~~ crcUpdate (~~~ 0) bytes

/-- The checksum as it is stored. -/
def crcBytes (bytes : Bytes) : Bytes := leBytes 4 (crc32c bytes).toNat

@[simp] theorem length_crcBytes (bytes : Bytes) : (crcBytes bytes).length = 4 := length_leBytes 4 _

@[simp] theorem leNat_crcBytes (bytes : Bytes) : leNat (crcBytes bytes) = (crc32c bytes).toNat :=
  leNat_leBytes (crc32c bytes).isLt

-- "123456789", the vector of RFC 3720
example : crc32c [49, 50, 51, 52, 53, 54, 55, 56, 57] = 0xE3069283 := by decide +kernel

end SteleDb
