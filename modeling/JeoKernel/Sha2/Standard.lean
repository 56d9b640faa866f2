import JeoKernel.Lib.Bytes

/-!
# SHA-256 as the standard defines it

FIPS 180-4 for messages of whole bytes: the padding, the message schedule, the 64 rounds over the
eight working variables, and the digest as the last hash value.
-/

namespace JeoKernel.Sha2

namespace Standard

open Record

/-! ## Functions on words -/

def rotr (n x : UInt32) : UInt32 := x >>> n ||| x <<< (32 - n)

def ch (x y z : UInt32) : UInt32 := (x &&& y) ^^^ (~~~x &&& z)

def maj (x y z : UInt32) : UInt32 := (x &&& y) ^^^ (x &&& z) ^^^ (y &&& z)

def bigSigma0 (x : UInt32) : UInt32 := rotr 2 x ^^^ rotr 13 x ^^^ rotr 22 x

def bigSigma1 (x : UInt32) : UInt32 := rotr 6 x ^^^ rotr 11 x ^^^ rotr 25 x

def smallSigma0 (x : UInt32) : UInt32 := rotr 7 x ^^^ rotr 18 x ^^^ x >>> 3

def smallSigma1 (x : UInt32) : UInt32 := rotr 17 x ^^^ rotr 19 x ^^^ x >>> 10

def constants : List UInt32 :=
  [0x428a2f98, 0x71374491, 0xb5c0fbcf, 0xe9b5dba5, 0x3956c25b, 0x59f111f1, 0x923f82a4, 0xab1c5ed5,
   0xd807aa98, 0x12835b01, 0x243185be, 0x550c7dc3, 0x72be5d74, 0x80deb1fe, 0x9bdc06a7, 0xc19bf174,
   0xe49b69c1, 0xefbe4786, 0x0fc19dc6, 0x240ca1cc, 0x2de92c6f, 0x4a7484aa, 0x5cb0a9dc, 0x76f988da,
   0x983e5152, 0xa831c66d, 0xb00327c8, 0xbf597fc7, 0xc6e00bf3, 0xd5a79147, 0x06ca6351, 0x14292967,
   0x27b70a85, 0x2e1b2138, 0x4d2c6dfc, 0x53380d13, 0x650a7354, 0x766a0abb, 0x81c2c92e, 0x92722c85,
   0xa2bfe8a1, 0xa81a664b, 0xc24b8b70, 0xc76c51a3, 0xd192e819, 0xd6990624, 0xf40e3585, 0x106aa070,
   0x19a4c116, 0x1e376c08, 0x2748774c, 0x34b0bcb5, 0x391c0cb3, 0x4ed8aa4a, 0x5b9cca4f, 0x682e6ff3,
   0x748f82ee, 0x78a5636f, 0x84c87814, 0x8cc70208, 0x90befffa, 0xa4506ceb, 0xbef9a3f7, 0xc67178f2]

/-! ## One block -/

/-- Eight words: a hash value, or the working variables. -/
structure Words where
  a : UInt32
  b : UInt32
  c : UInt32
  d : UInt32
  e : UInt32
  f : UInt32
  g : UInt32
  h : UInt32
  deriving DecidableEq

def Words.add (x y : Words) : Words :=
  ⟨x.a + y.a, x.b + y.b, x.c + y.c, x.d + y.d, x.e + y.e, x.f + y.f, x.g + y.g, x.h + y.h⟩

def Words.toList (x : Words) : List UInt32 := [x.a, x.b, x.c, x.d, x.e, x.f, x.g, x.h]

def initial : Words :=
  ⟨0x6a09e667, 0xbb67ae85, 0x3c6ef372, 0xa54ff53a, 0x510e527f, 0x9b05688c, 0x1f83d9ab, 0x5be0cd19⟩

def word (block : List UInt8) (t : ℕ) : UInt32 := .ofNat (beValue ((block.drop (4 * t)).take 4))

def schedule (block : List UInt8) (t : ℕ) : UInt32 :=
  if t < 16 then word block t
  else
    smallSigma1 (schedule block (t - 2)) + schedule block (t - 7) +
      smallSigma0 (schedule block (t - 15)) + schedule block (t - 16)

def round (block : List UInt8) (x : Words) (t : ℕ) : Words :=
  let t₁ := x.h + bigSigma1 x.e + ch x.e x.f x.g + constants.getD t 0 + schedule block t
  let t₂ := bigSigma0 x.a + maj x.a x.b x.c
  ⟨t₁ + t₂, x.a, x.b, x.c, x.d + t₁, x.e, x.f, x.g⟩

def compress (hash : Words) (block : List UInt8) : Words :=
  ((List.range 64).foldl (round block) hash).add hash

/-! ## Messages -/

/-- The hash value after the first `n` blocks of 64 bytes. -/
def hashBlocks : ℕ → Words → List UInt8 → Words
  | 0, hash, _ => hash
  | n + 1, hash, bytes => hashBlocks n (compress hash (bytes.take 64)) (bytes.drop 64)

/-- The number of zero bytes between the marker and the length. -/
def zeros (length : ℕ) : ℕ := (119 - length % 64) % 64

/-- The marker bit, the least number of zeros that leaves 64 bits of the last block, and the length in
bits. -/
def pad (message : List UInt8) : List UInt8 :=
  message ++ 0x80 :: List.replicate (zeros message.length) 0 ++ beBytes 8 (8 * message.length)

def digestBytes (hash : Words) : List UInt8 := hash.toList.flatMap fun x => beBytes 4 x.toNat

def sha256 (message : List UInt8) : List UInt8 :=
  digestBytes (hashBlocks ((pad message).length / 64) initial (pad message))

/-! ## Facts about the standard -/

theorem hashBlocks_append (n k : ℕ) (hash : Words) {first : List UInt8} (rest : List UInt8)
    (size : first.length = 64 * n) :
    hashBlocks (n + k) hash (first ++ rest) = hashBlocks k (hashBlocks n hash first) rest := by
  induction n generalizing hash first with
  | zero =>
    obtain rfl := List.length_eq_zero_iff.mp size
    rw [zero_add]
    rfl
  | succ n ih =>
    rw [Nat.succ_add, hashBlocks, hashBlocks, List.take_append_of_le_length (by omega),
      List.drop_append_of_le_length (by omega)]
    exact ih _ (by rw [List.length_drop]; omega)

theorem hashBlocks_one (hash : Words) {block : List UInt8} (size : block.length = 64) :
    hashBlocks 1 hash block = compress hash block := by
  rw [hashBlocks, hashBlocks, List.take_of_length_le size.le]

theorem flatMap_beBytes_injective {l l' : List UInt32} (size : l.length = l'.length)
    (same : (l.flatMap fun x => beBytes 4 x.toNat) = l'.flatMap fun x => beBytes 4 x.toNat) :
    l = l' := by
  induction l generalizing l' with
  | nil => exact (List.length_eq_zero_iff.mp size.symm).symm
  | cons x l ih =>
    cases l' with
    | nil => simp at size
    | cons y l' =>
      obtain ⟨first, rest⟩ := List.append_inj same (by simp)
      have value := congrArg beValue first
      rw [beValue_beBytes x.toNat_lt, beValue_beBytes y.toNat_lt] at value
      rw [UInt32.toNat_inj.mp value, ih (Nat.succ.inj size) rest]

theorem digestBytes_injective {x y : Words} (same : digestBytes x = digestBytes y) : x = y := by
  have lists : x.toList = y.toList := flatMap_beBytes_injective rfl same
  cases x
  cases y
  simpa [Words.toList] using lists

end Standard

end JeoKernel.Sha2
