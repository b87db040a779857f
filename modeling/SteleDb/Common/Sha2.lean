import SteleDb.Lib.Fips180
import SteleDb.Session.Digest

/-!
# The SHA-2 hashes

`sha256`, `sha384` and `sha512` as the source streams them: the full blocks of the message are
compressed as they stand, and what they leave over is laid out in a buffer of two blocks, with the
marker behind it and the length at the end of the first block or of the second.  The padded message
is never built.

`Sha2.blocks_eq` says that the blocks compressed are those of the padded message,
`Sha2.sha2_eq_fips` that the three digests are the ones FIPS 180-4 defines.
-/

namespace SteleDb

open Chunks

namespace Sha2

/-- `buf[at..at + src.len()].copy_from_slice(src)`. -/
def copyAt (buf : Bytes) (pos : ℕ) (src : Bytes) : Bytes :=
  buf.take pos ++ src ++ buf.drop (pos + src.length)

/-- The buffer behind the full blocks of a message of `len` bytes that leave `rest` over: as many
bytes of it as are compressed. -/
def tail (block field : ℕ) (rest : Bytes) (len : ℕ) : Bytes :=
  let bitLen := len * 8 % 256 ^ field
  let buf := copyAt (List.replicate (2 * block) 0) 0 rest
  let buf := buf.set rest.length 0x80
  let tailLen := if rest.length < block - field then block else 2 * block
  let buf := copyAt buf (tailLen - field) (beBytes field bitLen)
  buf.take tailLen

/-- The full blocks of a message one by one, then the blocks of the tail. -/
def driver {w : ℕ} (compress : List (BitVec w) → Bytes → List (BitVec w)) (block field : ℕ)
    (h0 : List (BitVec w)) (bytes : Bytes) : List (BitVec w) :=
  let h := (exactChunks block bytes).foldl compress h0
  (exactChunks block (tail block field (chunkRest block bytes) bytes.length)).foldl compress h

/-- The SHA-256 digest of `bytes`. -/
def sha256 (bytes : Bytes) : Digest :=
  let h := driver compress 64 8 sha256H0 bytes
  Digest.ofBytes (h.flatMap fun word => beBytes 4 word.toNat)

/-! ### SHA-512 and SHA-384 -/

/-- A 64-bit word. -/
abbrev Word64 := BitVec 64

/-- SHA-512 initial hash values. -/
def h0_512 : List Word64 :=
  [0x6a09e667f3bcc908, 0xbb67ae8584caa73b, 0x3c6ef372fe94f82b, 0xa54ff53a5f1d36f1,
   0x510e527fade682d1, 0x9b05688c2b3e6c1f, 0x1f83d9abfb41bd6b, 0x5be0cd19137e2179]

/-- SHA-384 initial hash values. -/
def h0_384 : List Word64 :=
  [0xcbbb9d5dc1059ed8, 0x629a292a367cd507, 0x9159015a3070dd17, 0x152fecd8f70e5939,
   0x67332667ffc00b31, 0x8eb44a8768581511, 0xdb0c2e0d64f98fa7, 0x47b5481dbefa4fa4]

/-- Round constants. -/
def k512 : List Word64 :=
  [0x428a2f98d728ae22, 0x7137449123ef65cd, 0xb5c0fbcfec4d3b2f, 0xe9b5dba58189dbbc,
   0x3956c25bf348b538, 0x59f111f1b605d019, 0x923f82a4af194f9b, 0xab1c5ed5da6d8118,
   0xd807aa98a3030242, 0x12835b0145706fbe, 0x243185be4ee4b28c, 0x550c7dc3d5ffb4e2,
   0x72be5d74f27b896f, 0x80deb1fe3b1696b1, 0x9bdc06a725c71235, 0xc19bf174cf692694,
   0xe49b69c19ef14ad2, 0xefbe4786384f25e3, 0x0fc19dc68b8cd5b5, 0x240ca1cc77ac9c65,
   0x2de92c6f592b0275, 0x4a7484aa6ea6e483, 0x5cb0a9dcbd41fbd4, 0x76f988da831153b5,
   0x983e5152ee66dfab, 0xa831c66d2db43210, 0xb00327c898fb213f, 0xbf597fc7beef0ee4,
   0xc6e00bf33da88fc2, 0xd5a79147930aa725, 0x06ca6351e003826f, 0x142929670a0e6e70,
   0x27b70a8546d22ffc, 0x2e1b21385c26c926, 0x4d2c6dfc5ac42aed, 0x53380d139d95b3df,
   0x650a73548baf63de, 0x766a0abb3c77b2a8, 0x81c2c92e47edaee6, 0x92722c851482353b,
   0xa2bfe8a14cf10364, 0xa81a664bbc423001, 0xc24b8b70d0f89791, 0xc76c51a30654be30,
   0xd192e819d6ef5218, 0xd69906245565a910, 0xf40e35855771202a, 0x106aa07032bbd1b8,
   0x19a4c116b8d2d0c8, 0x1e376c085141ab53, 0x2748774cdf8eeb99, 0x34b0bcb5e19b48a8,
   0x391c0cb3c5c95a63, 0x4ed8aa4ae3418acb, 0x5b9cca4f7763e373, 0x682e6ff3d6b2b8a3,
   0x748f82ee5defb2fc, 0x78a5636f43172f60, 0x84c87814a1f0ab72, 0x8cc702081a6439ec,
   0x90befffa23631e28, 0xa4506cebde82bde9, 0xbef9a3f7b2c67915, 0xc67178f2e372532b,
   0xca273eceea26619c, 0xd186b8c721c0c207, 0xeada7dd6cde0eb1e, 0xf57d4f7fee6ed178,
   0x06f067aa72176fba, 0x0a637dc5a2c898a6, 0x113f9804bef90dae, 0x1b710b35131c471b,
   0x28db77f523047d84, 0x32caab7b40c72493, 0x3c9ebe0a15c9bebc, 0x431d67c49c100d4c,
   0x4cc5d4becb3e42b6, 0x597f299cfc657e2a, 0x5fcb6fab3ad6faec, 0x6c44198c4a475817]

/-- The next word of the message schedule, from the last sixteen. -/
def scheduleWord512 (w : List Word64) : Word64 :=
  let at_ := fun i => w.getD (w.length - i) 0
  let s0 := (at_ 15).rotateRight 1 ^^^ (at_ 15).rotateRight 8 ^^^ (at_ 15) >>> 7
  let s1 := (at_ 2).rotateRight 19 ^^^ (at_ 2).rotateRight 61 ^^^ (at_ 2) >>> 6
  at_ 16 + s0 + at_ 7 + s1

/-- The message schedule of a block: its sixteen words and sixty-four more. -/
def schedule512 (block : Bytes) : List Word64 :=
  (fun w => w ++ [scheduleWord512 w])^[64]
    ((exactChunks 8 block).map fun chunk => BitVec.ofNat 64 (leNat chunk.reverse))

/-- The working variables. -/
structure Vars512 where
  /-- `a`. -/
  a : Word64
  /-- `b`. -/
  b : Word64
  /-- `c`. -/
  c : Word64
  /-- `d`. -/
  d : Word64
  /-- `e`. -/
  e : Word64
  /-- `f`. -/
  f : Word64
  /-- `g`. -/
  g : Word64
  /-- `h`. -/
  h : Word64

/-- One round, with its constant and its word of the schedule. -/
def Vars512.round (v : Vars512) (k w : Word64) : Vars512 :=
  let s1 := v.e.rotateRight 14 ^^^ v.e.rotateRight 18 ^^^ v.e.rotateRight 41
  let ch := (v.e &&& v.f) ^^^ (~~~ v.e &&& v.g)
  let t1 := v.h + s1 + ch + k + w
  let s0 := v.a.rotateRight 28 ^^^ v.a.rotateRight 34 ^^^ v.a.rotateRight 39
  let maj := (v.a &&& v.b) ^^^ (v.a &&& v.c) ^^^ (v.b &&& v.c)
  ⟨t1 + (s0 + maj), v.a, v.b, v.c, v.d + t1, v.e, v.f, v.g⟩

/-- Compress one block of 128 bytes into the hash values. -/
def compress512 (h : List Word64) (block : Bytes) : List Word64 :=
  let at_ := fun i => h.getD i 0
  let start : Vars512 := ⟨at_ 0, at_ 1, at_ 2, at_ 3, at_ 4, at_ 5, at_ 6, at_ 7⟩
  let v := (k512.zip (schedule512 block)).foldl (fun v kw => v.round kw.1 kw.2) start
  List.zipWith (· + ·) h [v.a, v.b, v.c, v.d, v.e, v.f, v.g, v.h]

/-- The hash values of a whole message. -/
def sha512Core (bytes : Bytes) (h0 : List Word64) : List Word64 :=
  driver compress512 128 16 h0 bytes

/-- The SHA-512 digest of `bytes`. -/
def sha512 (bytes : Bytes) : Bytes :=
  (sha512Core bytes h0_512).flatMap fun word => beBytes 8 word.toNat

/-- The SHA-384 digest of `bytes`: six of the eight words. -/
def sha384 (bytes : Bytes) : Bytes :=
  ((sha512Core bytes h0_384).take 6).flatMap fun word => beBytes 8 word.toNat

/-! ### The blocks of the tail -/

section Tail

variable {block field len : ℕ} {rest : Bytes}

theorem copyAt_append {front mid back src : Bytes} (hmid : mid.length = src.length) :
    copyAt (front ++ mid ++ back) front.length src = front ++ src ++ back := by
  have htake : (front ++ mid ++ back).take front.length = front := by
    rw [List.append_assoc, List.take_left]
  have hdrop : (front ++ mid ++ back).drop (front.length + src.length) = back := by
    rw [← hmid, ← List.length_append, List.drop_left]
  rw [copyAt, htake, hdrop]

theorem beBytes_mod (k n : ℕ) : beBytes k (n % 256 ^ k) = beBytes k n := by
  have h : leBytes k (n % 256 ^ k) = leBytes k n := by
    have hspelt := leBytes_leNat (leBytes k n)
    rwa [length_leBytes, leNat_leBytes_mod] at hspelt
  rw [beBytes, beBytes, h]

/-- The tail is the rest of the message, the marker, zeros and the length. -/
theorem tail_eq (hfield : field < block) (hrest : rest.length < block) :
    tail block field rest len =
      rest ++ [0x80] ++
        List.replicate ((if rest.length < block - field then block else 2 * block) - field -
          (rest.length + 1)) 0 ++
        beBytes field (8 * len) := by
  obtain ⟨tailLen, htail⟩ :
      ∃ t, t = if rest.length < block - field then block else 2 * block := ⟨_, rfl⟩
  have hbits : beBytes field (len * 8 % 256 ^ field) = beBytes field (8 * len) := by
    rw [beBytes_mod, Nat.mul_comm]
  have hle : tailLen ≤ 2 * block := by
    rw [htail]
    split_ifs <;> omega
  obtain ⟨z, hz⟩ : ∃ z, tailLen - field - (rest.length + 1) = z := ⟨_, rfl⟩
  have hsum : tailLen = rest.length + 1 + z + field := by
    rw [← hz, htail]
    split_ifs <;> omega
  -- the buffer, cut where the length field goes and where the compressed part ends
  obtain ⟨back, hback⟩ :
      ∃ back, back = List.replicate (2 * block - tailLen) (0 : Fin 256) := ⟨_, rfl⟩
  have hzeros : List.replicate (2 * block) (0 : Fin 256) =
      [] ++ List.replicate rest.length 0 ++
        (0 :: (List.replicate z 0 ++ List.replicate field 0 ++ back)) := by
    rw [hback, List.nil_append, ← List.replicate_add, ← List.replicate_add, ← List.replicate_succ,
      ← List.replicate_add]
    congr 1
    omega
  have hcopied : copyAt (List.replicate (2 * block) 0) 0 rest =
      rest ++ (0 :: (List.replicate z 0 ++ List.replicate field 0 ++ back)) := by
    rw [hzeros]
    exact copyAt_append (by rw [List.length_replicate])
  have hmarked : (copyAt (List.replicate (2 * block) 0) 0 rest).set rest.length 0x80 =
      rest ++ [0x80] ++ List.replicate z 0 ++ List.replicate field 0 ++ back := by
    rw [hcopied, List.set_append_right _ _ le_rfl, Nat.sub_self, List.set_cons_zero]
    simp only [List.append_assoc, List.cons_append, List.nil_append]
  have hfront : tailLen - field = (rest ++ [0x80] ++ List.replicate z (0 : Fin 256)).length := by
    simp only [List.length_append, List.length_singleton, List.length_replicate]
    omega
  simp only [tail, ← htail, hbits, hmarked, hz]
  rw [hfront, copyAt_append (by rw [List.length_replicate, length_beBytes])]
  refine List.take_left' ?_
  rw [List.length_append, ← hfront, length_beBytes]
  omega

theorem length_tail (hfield : field < block) (hrest : rest.length < block) :
    (tail block field rest len).length =
      if rest.length < block - field then block else 2 * block := by
  rw [tail_eq hfield hrest]
  simp only [List.length_append, List.length_singleton, List.length_replicate, length_beBytes]
  split_ifs <;> omega

end Tail

/-! ### The driver compresses the padded message -/

section Driver

variable {w : ℕ} {m : Fips180.Member w} {compress : List (BitVec w) → Bytes → List (BitVec w)}

/-- `compress` is the compression function of the member. -/
def Compresses (m : Fips180.Member w) (compress : List (BitVec w) → Bytes → List (BitVec w)) :
    Prop :=
  ∀ (H : Fips180.Vars w) (M : Bytes), M.length = m.block →
    compress H.toList M = (m.compress H M).toList

/-- The blocks compressed are those of the padded message. -/
theorem blocks_eq (m : Fips180.Member w) (bytes : Bytes) :
    exactChunks m.block bytes ++
        exactChunks m.block (tail m.block m.field (chunkRest m.block bytes) bytes.length) =
      exactChunks m.block (m.pad bytes) := by
  have hrest : (chunkRest m.block bytes).length < m.block := by
    rw [length_chunkRest]
    exact Nat.mod_lt _ m.block_pos
  rw [m.padded_blocks, tail_eq m.field_lt hrest, length_chunkRest, ← m.zeros_eq]
  rfl

theorem Compresses.foldl (h : Compresses m compress) {blocks : List Bytes}
    (hblocks : ∀ M ∈ blocks, M.length = m.block) (H : Fips180.Vars w) :
    blocks.foldl compress H.toList = (blocks.foldl m.compress H).toList := by
  induction blocks generalizing H with
  | nil => rfl
  | cons M blocks ih =>
    rw [List.foldl_cons, h H M (hblocks M List.mem_cons_self),
      ih fun M' hM' => hblocks M' (List.mem_cons_of_mem M hM')]
    rfl

theorem Compresses.driver (h : Compresses m compress) (bytes : Bytes) :
    driver compress m.block m.field m.initial.toList bytes =
      ((exactChunks m.block (m.pad bytes)).foldl m.compress m.initial).toList := by
  rw [Sha2.driver, ← List.foldl_append, blocks_eq]
  exact h.foldl (fun M hM => length_of_mem_exactChunks m.block_pos hM) m.initial

end Driver

/-! ### The members of the family -/

/-- SHA-256. -/
def sha256Member : Fips180.Member 32 where
  bigSigma0 x := x.rotateRight 2 ^^^ x.rotateRight 13 ^^^ x.rotateRight 22
  bigSigma1 x := x.rotateRight 6 ^^^ x.rotateRight 11 ^^^ x.rotateRight 25
  smallSigma0 x := x.rotateRight 7 ^^^ x.rotateRight 18 ^^^ x >>> 3
  smallSigma1 x := x.rotateRight 17 ^^^ x.rotateRight 19 ^^^ x >>> 10
  constants := sha256K
  initial := Fips180.Vars.ofFn fun i => sha256H0.getD i 0
  block := 64
  field := 8
  digest := 32
  field_lt := by decide

/-- SHA-512 and SHA-384, which differ in the initial hash value and in what is kept of the last. -/
def sha512Member (h0 : List Word64) (digest : ℕ) : Fips180.Member 64 where
  bigSigma0 x := x.rotateRight 28 ^^^ x.rotateRight 34 ^^^ x.rotateRight 39
  bigSigma1 x := x.rotateRight 14 ^^^ x.rotateRight 18 ^^^ x.rotateRight 41
  smallSigma0 x := x.rotateRight 1 ^^^ x.rotateRight 8 ^^^ x >>> 7
  smallSigma1 x := x.rotateRight 19 ^^^ x.rotateRight 61 ^^^ x >>> 6
  constants := k512
  initial := Fips180.Vars.ofFn fun i => h0.getD i 0
  block := 128
  field := 16
  digest
  field_lt := by decide

-- the tables are those of the standard: fractional parts of roots of the first primes

theorem sha256H0_roots :
    List.Forall₂ (Fips180.IsRootFraction 2) (Fips180.primes.take 8) sha256H0 := by
  decide +kernel

theorem sha256K_roots :
    List.Forall₂ (Fips180.IsRootFraction 3) (Fips180.primes.take 64) sha256K := by
  decide +kernel

theorem h0_512_roots : List.Forall₂ (Fips180.IsRootFraction 2) (Fips180.primes.take 8) h0_512 := by
  decide +kernel

theorem h0_384_roots :
    List.Forall₂ (Fips180.IsRootFraction 2) ((Fips180.primes.drop 8).take 8) h0_384 := by
  decide +kernel

theorem k512_roots : List.Forall₂ (Fips180.IsRootFraction 3) (Fips180.primes.take 80) k512 := by
  decide +kernel

/-- The words of a block are read where the standard reads them. -/
theorem getD_words {w : ℕ} (m : Fips180.Member w) {M : Bytes}
    (hM : M.length = 16 * m.wordBytes) (hpos : 0 < m.wordBytes) {t : ℕ} (ht : t < 16) :
    ((exactChunks m.wordBytes M).map fun c => BitVec.ofNat w (leNat c.reverse)).getD t 0 =
      m.word M t := by
  have hcount : t < M.length / m.wordBytes := by rwa [hM, Nat.mul_div_cancel _ hpos]
  rw [List.getD_eq_getElem?_getD, List.getElem?_map, getElem?_exactChunks _ _ hcount]
  rfl

theorem length_words {w : ℕ} (m : Fips180.Member w) {M : Bytes}
    (hM : M.length = 16 * m.wordBytes) (hpos : 0 < m.wordBytes) :
    ((exactChunks m.wordBytes M).map fun c => BitVec.ofNat w (leNat c.reverse)).length = 16 := by
  rw [List.length_map, length_exactChunks, hM, Nat.mul_div_cancel _ hpos]

/-- The working variables under the names of the standard. -/
def vars256 (v : Sha256Vars) : Fips180.Vars 32 := ⟨v.a, v.b, v.c, v.d, v.e, v.f, v.g, v.h⟩

/-- The working variables under the names of the standard. -/
def Vars512.vars (v : Vars512) : Fips180.Vars 64 := ⟨v.a, v.b, v.c, v.d, v.e, v.f, v.g, v.h⟩

theorem compress_toList (H : Fips180.Vars 32) (M : Bytes) :
    compress H.toList M =
      (H.add (vars256 ((sha256K.zip (schedule M)).foldl (fun v kw => v.round kw.1 kw.2)
        ⟨H.a, H.b, H.c, H.d, H.e, H.f, H.g, H.h⟩))).toList := by
  simp only [compress, Fips180.Vars.toList, List.getD_cons_zero, List.getD_cons_succ]
  generalize (sha256K.zip (schedule M)).foldl _ _ = v
  rfl

theorem compresses_sha256 : Compresses sha256Member compress := by
  intro H M hM
  have hpos : 0 < sha256Member.wordBytes := by decide
  have hwords : blockWords M =
      (exactChunks sha256Member.wordBytes M).map fun c => BitVec.ofNat 32 (leNat c.reverse) := by
    rw [blockWords, toChunks_eq_exactChunks (by decide) (by rw [hM]; decide)]
    rfl
  have hextends : sha256Member.Extends scheduleWord := fun ws => rfl
  have hround : ∀ (s : Sha256Vars) k x,
      vars256 (s.round k x) = sha256Member.round (vars256 s) k x := fun s k x => rfl
  have hcompress := hextends.compress hround (length_words sha256Member hM hpos)
    (show sha256Member.constants.length = 16 + 48 from rfl)
    (fun t ht => getD_words sha256Member hM hpos ht)
    ⟨H.a, H.b, H.c, H.d, H.e, H.f, H.g, H.h⟩
  rw [← hwords] at hcompress
  rw [compress_toList]
  exact congrArg Fips180.Vars.toList hcompress.symm

theorem compress512_toList (H : Fips180.Vars 64) (M : Bytes) :
    compress512 H.toList M =
      (H.add ((k512.zip (schedule512 M)).foldl (fun v kw => v.round kw.1 kw.2)
        (⟨H.a, H.b, H.c, H.d, H.e, H.f, H.g, H.h⟩ : Vars512)).vars).toList := by
  simp only [compress512, Fips180.Vars.toList, List.getD_cons_zero, List.getD_cons_succ]
  generalize (k512.zip (schedule512 M)).foldl _ _ = v
  rfl

theorem compresses_sha512 (h0 : List Word64) (digest : ℕ) :
    Compresses (sha512Member h0 digest) compress512 := by
  intro H M hM
  have hpos : 0 < (sha512Member h0 digest).wordBytes := Nat.succ_pos 7
  have hextends : (sha512Member h0 digest).Extends scheduleWord512 := fun ws => rfl
  have hround : ∀ (s : Vars512) k x,
      (s.round k x).vars = (sha512Member h0 digest).round s.vars k x := fun s k x => rfl
  have hcompress := hextends.compress hround (length_words (sha512Member h0 digest) hM hpos)
    (show (sha512Member h0 digest).constants.length = 16 + 64 from rfl)
    (fun t ht => getD_words (sha512Member h0 digest) hM hpos ht)
    ⟨H.a, H.b, H.c, H.d, H.e, H.f, H.g, H.h⟩
  rw [compress512_toList]
  exact congrArg Fips180.Vars.toList hcompress.symm

/-! ### The digests -/

section Digests

variable {bytes : Bytes}

theorem hash_sha256Member (h : 8 * bytes.length < 256 ^ 8) :
    sha256Member.hash bytes = some (sha256 bytes).bytes := by
  have hlen : ∀ H : Fips180.Vars 32,
      (H.toList.flatMap fun x => beBytes 4 x.toNat).length = 32 := fun H => by
    simp [Fips180.Vars.toList, length_beBytes]
  have hcore : driver compress 64 8 sha256H0 bytes =
      ((exactChunks 64 (sha256Member.pad bytes)).foldl sha256Member.compress
        sha256Member.initial).toList := compresses_sha256.driver bytes
  rw [sha256Member.hash_of_lt h, sha256]
  simp only [hcore]
  rw [Digest.bytes_ofBytes (hlen _)]
  exact congrArg some (List.take_of_length_le (hlen _).le)

theorem sha512Core_eq (h0 : Fips180.Vars 64) (digest : ℕ) (bytes : Bytes) :
    sha512Core bytes h0.toList =
      ((exactChunks 128 ((sha512Member h0.toList digest).pad bytes)).foldl
        (sha512Member h0.toList digest).compress (sha512Member h0.toList digest).initial).toList :=
  (compresses_sha512 h0.toList digest).driver bytes

theorem hash_sha512Member (h : 8 * bytes.length < 256 ^ 16) :
    (sha512Member h0_512 64).hash bytes = some (sha512 bytes) := by
  have hlen : ∀ H : Fips180.Vars 64,
      (H.toList.flatMap fun x => beBytes 8 x.toNat).length = 64 := fun H => by
    simp [Fips180.Vars.toList, length_beBytes]
  rw [(sha512Member h0_512 64).hash_of_lt h, sha512,
    show h0_512 = (sha512Member h0_512 64).initial.toList from rfl, sha512Core_eq _ 64]
  exact congrArg some (List.take_of_length_le (hlen _).le)

theorem hash_sha384Member (h : 8 * bytes.length < 256 ^ 16) :
    (sha512Member h0_384 48).hash bytes = some (sha384 bytes) := by
  -- six words of eight bytes are forty-eight bytes
  have htake : ∀ H : Fips180.Vars 64, (H.toList.take 6).flatMap (fun x => beBytes 8 x.toNat) =
      (H.toList.flatMap fun x => beBytes 8 x.toNat).take 48 := fun H => by
    have hlen : ((H.toList.take 6).flatMap fun x => beBytes 8 x.toNat).length = 48 := by
      simp [Fips180.Vars.toList, length_beBytes]
    conv_rhs => rw [← List.take_append_drop 6 H.toList, List.flatMap_append]
    exact (List.take_left' hlen).symm
  rw [(sha512Member h0_384 48).hash_of_lt h, sha384,
    show h0_384 = (sha512Member h0_384 48).initial.toList from rfl, sha512Core_eq _ 48, htake]
  rfl

/-- The full blocks of the message and the blocks of the tail, one or two, are the blocks of the
padded message. -/
def StreamsPadded {w : ℕ} (m : Fips180.Member w) (bytes : Bytes) : Prop :=
  let tailBlocks :=
    exactChunks m.block (tail m.block m.field (chunkRest m.block bytes) bytes.length)
  (tailBlocks.length = 1 ∨ tailBlocks.length = 2) ∧
    exactChunks m.block bytes ++ tailBlocks = exactChunks m.block (m.pad bytes)

theorem streamsPadded {w : ℕ} (m : Fips180.Member w) (bytes : Bytes) : StreamsPadded m bytes := by
  have hrest : (chunkRest m.block bytes).length < m.block := by
    rw [length_chunkRest]
    exact Nat.mod_lt _ m.block_pos
  have hfield := m.field_lt
  refine ⟨?_, blocks_eq m bytes⟩
  rw [length_exactChunks, length_tail hfield hrest]
  split_ifs
  · exact .inl (Nat.div_self m.block_pos)
  · exact .inr (Nat.mul_div_cancel _ m.block_pos)

/-- **The three hashes are those of FIPS 180-4**, for every message whose length in bits fits the
length field of SHA-256, and the blocks compressed for them are the blocks of the padded message. -/
theorem sha2_eq_fips (h : bytes.length < 2 ^ 61) :
    sha256Member.hash bytes = some (sha256 bytes).bytes ∧
    (sha512Member h0_512 64).hash bytes = some (sha512 bytes) ∧
    (sha512Member h0_384 48).hash bytes = some (sha384 bytes) ∧
    StreamsPadded sha256Member bytes ∧ StreamsPadded (sha512Member h0_512 64) bytes ∧
    StreamsPadded (sha512Member h0_384 48) bytes := by
  have hshort : 8 * bytes.length < 256 ^ 8 := by omega
  have hlong : 8 * bytes.length < 256 ^ 16 := by omega
  exact ⟨hash_sha256Member hshort, hash_sha512Member hlong, hash_sha384Member hlong,
    streamsPadded _ bytes, streamsPadded _ bytes, streamsPadded _ bytes⟩

/-- "abc". -/
theorem sha2_eq_fips_abc :
    sha256Member.hash [97, 98, 99] = some (sha256 [97, 98, 99]).bytes ∧
    (sha512Member h0_512 64).hash [97, 98, 99] = some (sha512 [97, 98, 99]) ∧
    (sha512Member h0_384 48).hash [97, 98, 99] = some (sha384 [97, 98, 99]) ∧
    StreamsPadded sha256Member [97, 98, 99] ∧ StreamsPadded (sha512Member h0_512 64) [97, 98, 99] ∧
    StreamsPadded (sha512Member h0_384 48) [97, 98, 99] :=
  sha2_eq_fips (by decide)

-- "abc" again, against the vector of the standard
example : sha384 [97, 98, 99] =
    [0xcb, 0x00, 0x75, 0x3f, 0x45, 0xa3, 0x5e, 0x8b, 0xb5, 0xa0, 0x3d, 0x69, 0x9a, 0xc6, 0x50, 0x07,
     0x27, 0x2c, 0x32, 0xab, 0x0e, 0xde, 0xd1, 0x63, 0x1a, 0x8b, 0x60, 0x5a, 0x43, 0xff, 0x5b, 0xed,
     0x80, 0x86, 0x07, 0x2b, 0xa1, 0xe7, 0xcc, 0x23, 0x58, 0xba, 0xec, 0xa1, 0x34, 0xc8, 0x25,
     0xa7] := by
  decide +kernel

/-- The digest that chains the logs is the streamed one. -/
theorem sha256_eq_digest (bytes : Bytes) : sha256 bytes = SteleDb.sha256 bytes := by
  have hpad : bytes ++ sha256Padding bytes.length = sha256Member.pad bytes := by
    rw [Fips180.Member.pad, sha256Member.zeros_eq, sha256Padding, Nat.mul_comm bytes.length]
    simp only [List.append_assoc]
    rfl
  have hblocks : (bytes ++ sha256Padding bytes.length).toChunks 64 =
      exactChunks 64 (sha256Member.pad bytes) := by
    rw [hpad]
    exact toChunks_eq_exactChunks (by decide) (sha256Member.block_dvd_pad bytes)
  have hstream : exactChunks 64 bytes ++
      exactChunks 64 (tail 64 8 (chunkRest 64 bytes) bytes.length) =
        exactChunks 64 (sha256Member.pad bytes) := blocks_eq sha256Member bytes
  rw [sha256, SteleDb.sha256, driver, ← List.foldl_append, hblocks, hstream]

end Digests

end Sha2

end SteleDb
