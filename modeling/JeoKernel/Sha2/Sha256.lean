import Mathlib.Data.Vector.Defs
import JeoKernel.Sha2.Standard

/-!
# SHA-256 in `sha2alg.cpp`

`sha2alg` keeps the schedule, the constants, the hash value and the length of the message.  The platform
is little-endian: a block of bytes is read as words with the least significant byte first, and each
word is reversed.

The loops of `Final` are run with fuel; `none` means that the fuel did not suffice.
-/

namespace JeoKernel.Sha2

open List hiding Vector
open Record Standard

/-! ## Byte order -/

def reverseByteOrder16 (input : ℕ) : ℕ := input % 0x100 * 0x100 + input / 0x100

/-- The loop of `reverse_byte_order` with `n` turns left; `bits` is the width of the type. -/
def reverseLoop (bits : ℕ) : ℕ → ℕ → ℕ → ℕ
  | 0, output, _ => output
  | n + 1, output, input =>
    reverseLoop bits n ((output * 0x10000 + reverseByteOrder16 (input % 0x10000)) % 2 ^ bits)
      (input / 0x10000)

/-- `big_endian<uint32_t>(v).Raw()` -/
def toBig (v : UInt32) : UInt32 := .ofNat (reverseLoop 32 2 0 v.toNat)

/-- `big_endian<uint64_t>(v).Raw()` -/
def toBig64 (v : UInt64) : UInt64 := .ofNat (reverseLoop 64 4 0 v.toNat)

/-! ## The code -/

def rightrotate (val rot : UInt32) : UInt32 :=
  let mask : UInt32 := 8 * 4 - 1
  val >>> (rot &&& mask) ||| val <<< ((0 - rot) &&& mask)

structure Sha2alg where
  w : Vector UInt32 64
  k : Vector UInt32 64
  hv : Vector UInt32 8
  mlengthBits : UInt64

def elem {n : ℕ} (a : Vector UInt32 n) (i : ℕ) : UInt32 := a[i]?.getD 0

/-- The loops of `Digest` that fill the schedule. -/
def schedule1 (data : Vector UInt32 16) (w : Vector UInt32 64) : Vector UInt32 64 :=
  (range 16).foldl (fun w i => w.setIfInBounds i (toBig (elem data i))) w

def scheduleTurn (w : Vector UInt32 64) (i : ℕ) : Vector UInt32 64 :=
  let s0 := rightrotate (elem w (i - 15)) 7 ^^^ rightrotate (elem w (i - 15)) 18 ^^^ elem w (i - 15) >>> 3
  let s1 := rightrotate (elem w (i - 2)) 17 ^^^ rightrotate (elem w (i - 2)) 19 ^^^ elem w (i - 2) >>> 10
  w.setIfInBounds i (elem w (i - 16) + s0 + elem w (i - 7) + s1)

def schedule2 (w : Vector UInt32 64) : Vector UInt32 64 := (range' 16 48).foldl scheduleTurn w

structure Locals where
  a : UInt32
  b : UInt32
  c : UInt32
  d : UInt32
  e : UInt32
  f : UInt32
  g : UInt32
  h : UInt32

def roundTurn (k w : Vector UInt32 64) (x : Locals) (i : ℕ) : Locals :=
  let s1 := rightrotate x.e 6 ^^^ rightrotate x.e 11 ^^^ rightrotate x.e 25
  let ch := (x.e &&& x.f) ^^^ (~~~x.e &&& x.g)
  let temp1 := x.h + s1 + ch + elem k i + elem w i
  let s0 := rightrotate x.a 2 ^^^ rightrotate x.a 13 ^^^ rightrotate x.a 22
  let maj := (x.a &&& x.b) ^^^ (x.a &&& x.c) ^^^ (x.b &&& x.c)
  let temp2 := s0 + maj
  { h := x.g, g := x.f, f := x.e, e := x.d + temp1, d := x.c, c := x.b, b := x.a,
    a := temp1 + temp2 }

def rounds (k w : Vector UInt32 64) (x : Locals) : Locals := (range 64).foldl (roundTurn k w) x

def Sha2alg.locals (s : Sha2alg) : Locals :=
  ⟨elem s.hv 0, elem s.hv 1, elem s.hv 2, elem s.hv 3, elem s.hv 4, elem s.hv 5, elem s.hv 6, elem s.hv 7⟩

/-- The end of `Digest`. -/
def Sha2alg.add (s : Sha2alg) (w : Vector UInt32 64) (x : Locals) : Sha2alg :=
  { s with
    w
    hv := #v[elem s.hv 0 + x.a, elem s.hv 1 + x.b, elem s.hv 2 + x.c, elem s.hv 3 + x.d,
      elem s.hv 4 + x.e, elem s.hv 5 + x.f, elem s.hv 6 + x.g, elem s.hv 7 + x.h] }

def Sha2alg.digest (s : Sha2alg) (data : Vector UInt32 16) : Sha2alg :=
  let w := schedule2 (schedule1 data s.w)
  s.add w (rounds s.k w s.locals)

/-- Bytes read as an array of `uint32_t`. -/
def asWords (bytes : List UInt8) : Vector UInt32 16 :=
  .ofFn fun i => .ofNat (leValue ((bytes.drop (4 * i)).take 4))

/-- 64 bytes, a `chunk_type`. -/
abbrev Chunk := { bytes : List UInt8 // bytes.length = 64 }

def Sha2alg.consume (s : Sha2alg) (data : Chunk) : Sha2alg :=
  { s with mlengthBits := s.mlengthBits + 16 * 32 }.digest (asWords data.1)

/-- `while (len < (64-8)) { data[len] = 0; ++len; }` -/
def padShort : ℕ → Buffer → ℕ → Option (Buffer × ℕ)
  | 0, _, _ => none
  | fuel + 1, data, len =>
    if len < 64 - 8 then padShort fuel (data.write len [0]) (len + 1) else some (data, len)

/-- `while (len < 64) { data[len] = 0; }` -/
def padLong : ℕ → Buffer → ℕ → Option Buffer
  | 0, _, _ => none
  | fuel + 1, data, len => if len < 64 then padLong fuel (data.write len [0]) len else some data

/-- `Final`; `stack` is what the buffer holds before it is written. -/
def Sha2alg.final (s : Sha2alg) (fuel : ℕ) (stack : Buffer) (cData : List UInt8) : Option Sha2alg :=
  let len := cData.length
  if len > 64 then some s
  else
    let data := if len ≠ 0 then stack.write 0 cData else stack
    let s := { s with mlengthBits := s.mlengthBits + UInt64.ofNat (8 * len) }
    let rawlen := leBytes 8 (toBig64 s.mlengthBits).toNat
    if len ≤ 64 - 1 - 8 then
      (padShort fuel (data.write len [0x80]) (len + 1)).map fun r =>
        s.digest (asWords ((r.1.write r.2 rawlen).read 0 64))
    else
      let first := if len < 64 then padLong fuel (data.write len [0x80]) (len + 1) else some data
      first.map fun data =>
        let s := s.digest (asWords (data.read 0 64))
        let data := data.zero 0 (64 - 8)
        s.digest (asWords ((data.write (64 - 8) rawlen).read 0 64))

def Sha2alg.result (s : Sha2alg) : List UInt8 :=
  (range 8).flatMap fun i => leBytes 4 (toBig (elem s.hv i)).toNat

def roundConstants : Vector UInt32 64 :=
  #v[0x428a2f98, 0x71374491, 0xb5c0fbcf, 0xe9b5dba5, 0x3956c25b, 0x59f111f1, 0x923f82a4, 0xab1c5ed5,
     0xd807aa98, 0x12835b01, 0x243185be, 0x550c7dc3, 0x72be5d74, 0x80deb1fe, 0x9bdc06a7, 0xc19bf174,
     0xe49b69c1, 0xefbe4786, 0x0fc19dc6, 0x240ca1cc, 0x2de92c6f, 0x4a7484aa, 0x5cb0a9dc, 0x76f988da,
     0x983e5152, 0xa831c66d, 0xb00327c8, 0xbf597fc7, 0xc6e00bf3, 0xd5a79147, 0x06ca6351, 0x14292967,
     0x27b70a85, 0x2e1b2138, 0x4d2c6dfc, 0x53380d13, 0x650a7354, 0x766a0abb, 0x81c2c92e, 0x92722c85,
     0xa2bfe8a1, 0xa81a664b, 0xc24b8b70, 0xc76c51a3, 0xd192e819, 0xd6990624, 0xf40e3585, 0x106aa070,
     0x19a4c116, 0x1e376c08, 0x2748774c, 0x34b0bcb5, 0x391c0cb3, 0x4ed8aa4a, 0x5b9cca4f, 0x682e6ff3,
     0x748f82ee, 0x78a5636f, 0x84c87814, 0x8cc70208, 0x90befffa, 0xa4506ceb, 0xbef9a3f7, 0xc67178f2]

def Sha2alg.sha256 : Sha2alg where
  w := .replicate 64 0
  k := roundConstants
  hv := #v[0x6a09e667, 0xbb67ae85, 0x3c6ef372, 0xa54ff53a, 0x510e527f, 0x9b05688c, 0x1f83d9ab,
    0x5be0cd19]
  mlengthBits := 0

/-- The chunks through `Consume`, the rest through `Final`, then `Result`. -/
def hashMessage (fuel : ℕ) (stack : Buffer) (chunks : List Chunk) (rest : List UInt8) :
    Option (List UInt8) :=
  ((chunks.foldl Sha2alg.consume .sha256).final fuel stack rest).map Sha2alg.result

/-! ## Bytes and words -/

theorem reverseByteOrder16_pair (c d : UInt8) :
    reverseByteOrder16 (c.toNat + 256 * d.toNat) = d.toNat + 256 * c.toNat := by
  have := c.toNat_lt
  unfold reverseByteOrder16
  omega

/-- The loop has reversed the bytes `done` and still has `bytes` before it. -/
theorem reverseLoop_eq {bits n : ℕ} {done bytes : List UInt8} (size : bytes.length = 2 * n)
    (fits : 256 ^ (done.length + bytes.length) ≤ 2 ^ bits) :
    reverseLoop bits n (beValue done) (leValue bytes) = beValue (done ++ bytes) := by
  induction n generalizing done bytes with
  | zero =>
    obtain rfl := length_eq_zero_iff.mp size
    rw [append_nil]
    rfl
  | succ n ih =>
    obtain _ | ⟨c, _ | ⟨d, bytes⟩⟩ := bytes
    · simp at size
    · simp at size
      omega
    have low := c.toNat_lt
    have high := d.toNat_lt
    have input : leValue (c :: d :: bytes) = c.toNat + 256 * d.toNat + 65536 * leValue bytes := by
      simp only [leValue]
      ring
    have output : beValue done * 65536 + (d.toNat + 256 * c.toNat) = beValue (done ++ [c, d]) := by
      rw [beValue_append]
      simp only [beValue, reverse_cons, reverse_nil, nil_append, cons_append, leValue,
        length_cons, length_nil]
      ring
    have small : beValue (done ++ [c, d]) < 2 ^ bits := by
      refine (beValue_lt _).trans_le (le_trans (Nat.pow_le_pow_right (by decide) ?_) fits)
      rw [length_append]
      exact Nat.add_le_add_left (by simp) _
    have step : (beValue done * 0x10000 +
        reverseByteOrder16 (leValue (c :: d :: bytes) % 0x10000)) % 2 ^ bits =
          beValue (done ++ [c, d]) := by
      rw [input, show (c.toNat + 256 * d.toNat + 65536 * leValue bytes) % 0x10000 =
        c.toNat + 256 * d.toNat by omega, reverseByteOrder16_pair, output, Nat.mod_eq_of_lt small]
    rw [reverseLoop, step, input, show (c.toNat + 256 * d.toNat + 65536 * leValue bytes) / 0x10000 =
      leValue bytes by omega, ih (by simpa [Nat.mul_add] using size) ?_]
    · simp
    · refine le_trans (le_of_eq ?_) fits
      simp
      omega

theorem reverse_bytes (n : ℕ) {bytes : List UInt8} (size : bytes.length = 2 * n) :
    reverseLoop (16 * n) n 0 (leValue bytes) = beValue bytes := by
  refine @reverseLoop_eq _ n [] bytes size (le_of_eq ?_)
  rw [size, length_nil, zero_add, show 256 = 2 ^ 8 by rfl, ← Nat.pow_mul]
  ring

theorem toBig_leValue {bytes : List UInt8} (size : bytes.length = 4) :
    toBig (.ofNat (leValue bytes)) = .ofNat (beValue bytes) := by
  have small : leValue bytes < 2 ^ 32 := by
    have value := leValue_lt bytes
    rwa [size] at value
  unfold toBig
  rw [UInt32.toNat_ofNat', Nat.mod_eq_of_lt small, reverse_bytes 2 size]

theorem leBytes_reverse (n : ℕ) {v : ℕ} (fits : v < 256 ^ (2 * n)) :
    leBytes (2 * n) (reverseLoop (16 * n) n 0 v % 2 ^ (16 * n)) = beBytes (2 * n) v := by
  have value : reverseLoop (16 * n) n 0 v = beValue (leBytes (2 * n) v) := by
    have reversed := reverse_bytes n (length_leBytes (2 * n) v)
    rwa [leValue_leBytes fits] at reversed
  have small : beValue (leBytes (2 * n) v) < 2 ^ (16 * n) := by
    have bound := beValue_lt (leBytes (2 * n) v)
    rwa [length_leBytes, show 256 = 2 ^ 8 by rfl, ← Nat.pow_mul,
      show 8 * (2 * n) = 16 * n by ring] at bound
  have back := leBytes_leValue (leBytes (2 * n) v).reverse
  rw [length_reverse, length_leBytes] at back
  rw [value, Nat.mod_eq_of_lt small]
  exact back

theorem leBytes_toBig (v : UInt32) : leBytes 4 (toBig v).toNat = beBytes 4 v.toNat := by
  exact leBytes_reverse 2 v.toNat_lt

theorem leBytes_toBig64 (v : UInt64) : leBytes 8 (toBig64 v).toNat = beBytes 8 v.toNat := by
  exact leBytes_reverse 4 v.toNat_lt

/-! ## Digest -/

theorem rightrotate_eq {rot : UInt32} (x : UInt32) (low : rot &&& (8 * 4 - 1) = rot)
    (high : (0 - rot) &&& (8 * 4 - 1) = 32 - rot) : rightrotate x rot = rotr rot x := by
  unfold rightrotate rotr
  dsimp only
  rw [low, high]

variable {i : ℕ}

theorem elem_setIfInBounds {n j : ℕ} (a : Vector UInt32 n) (x : UInt32) (inside : i < n) :
    elem (a.setIfInBounds i x) j = if i = j then x else elem a j := by
  unfold elem
  rw [Vector.getElem?_setIfInBounds]
  split_ifs <;> rfl

variable {block : List UInt8}

theorem elem_asWords (size : block.length = 64) (inside : i < 16) :
    toBig (elem (asWords block) i) = word block i := by
  have four : ((block.drop (4 * i)).take 4).length = 4 := by
    rw [length_take, length_drop]
    omega
  have stored : elem (asWords block) i = .ofNat (leValue ((block.drop (4 * i)).take 4)) := by
    simp [elem, asWords, inside]
  rw [stored, toBig_leValue four]
  rfl

variable {t : ℕ}

theorem schedule1_elem (size : block.length = 64) (w : Vector UInt32 64) {n : ℕ} (inside : n ≤ 16)
    (before : t < n) :
    elem ((range n).foldl (fun w i => w.setIfInBounds i (toBig (elem (asWords block) i))) w) t =
      word block t := by
  induction n with
  | zero => omega
  | succ n ih =>
    rw [range_succ, foldl_append, foldl_cons, foldl_nil, elem_setIfInBounds _ _ (by omega)]
    split_ifs with here
    · rw [← here, elem_asWords size (by omega)]
    · exact ih (by omega) (by omega)

theorem schedule_of_lt (low : t < 16) :
    schedule block t = word block t := by
  rw [schedule, if_pos low]

theorem schedule_add (block : List UInt8) (t : ℕ) : schedule block (16 + t) =
    smallSigma1 (schedule block (16 + t - 2)) + schedule block (16 + t - 7) +
      smallSigma0 (schedule block (16 + t - 15)) + schedule block (16 + t - 16) := by
  rw [schedule, if_neg (by omega)]

variable {w : Vector UInt32 64}

theorem scheduleTurn_elem {j : ℕ} (inside : i < 64) :
    elem (scheduleTurn w i) j =
      if i = j then smallSigma1 (elem w (i - 2)) + elem w (i - 7) + smallSigma0 (elem w (i - 15)) +
        elem w (i - 16)
      else elem w j := by
  unfold scheduleTurn
  rw [elem_setIfInBounds _ _ inside]
  split_ifs
  · rw [rightrotate_eq _ (by decide) (by decide), rightrotate_eq _ (by decide) (by decide),
      rightrotate_eq _ (by decide) (by decide), rightrotate_eq _ (by decide) (by decide)]
    unfold smallSigma0 smallSigma1
    ac_rfl
  · rfl

theorem schedule2_elem (first : ∀ t < 16, elem w t = word block t) {n : ℕ} (inside : n ≤ 48)
    (before : t < 16 + n) :
    elem ((range' 16 n).foldl scheduleTurn w) t = schedule block t := by
  induction n generalizing t with
  | zero =>
    rw [schedule_of_lt before]
    exact first t before
  | succ n ih =>
    rw [range'_concat, foldl_append, foldl_cons, foldl_nil, Nat.one_mul,
      scheduleTurn_elem (by omega)]
    have earlier : ∀ t, t < 16 + n →
        elem ((range' 16 n).foldl scheduleTurn w) t = schedule block t := fun t before =>
      ih (by omega) before
    split_ifs with here
    · rw [earlier _ (by omega), earlier _ (by omega), earlier _ (by omega), earlier _ (by omega),
        ← schedule_add, here]
    · exact earlier t (by omega)

theorem elem_roundConstants : elem roundConstants t = constants.getD t 0 := by
  have same : roundConstants.toList = constants := rfl
  rw [elem, ← same, getD_eq_getElem?_getD, Vector.getElem?_toList]

def Locals.words (x : Locals) : Words := ⟨x.a, x.b, x.c, x.d, x.e, x.f, x.g, x.h⟩

theorem roundTurn_words (filled : elem w t = schedule block t) (x : Locals) :
    (roundTurn roundConstants w x t).words = Standard.round block x.words t := by
  simp only [roundTurn, Standard.round, Locals.words, filled, elem_roundConstants]
  rfl

theorem foldl_roundTurn_words {l : List ℕ} (filled : ∀ t ∈ l, elem w t = schedule block t)
    (x : Locals) :
    (l.foldl (roundTurn roundConstants w) x).words = l.foldl (Standard.round block) x.words := by
  induction l generalizing x with
  | nil => rfl
  | cons t l ih =>
    obtain ⟨here, rest⟩ := forall_mem_cons.mp filled
    rw [foldl_cons, foldl_cons, ih rest, roundTurn_words here]

def Sha2alg.hash (s : Sha2alg) : Words := s.locals.words

open Sha2alg

theorem add_hash (s : Sha2alg) (w : Vector UInt32 64) (x : Locals) :
    (s.add w x).hash = x.words.add s.hash := by
  simp only [Sha2alg.hash, add, locals, Words.add, Locals.words, Words.mk.injEq]
  refine ⟨?_, ?_, ?_, ?_, ?_, ?_, ?_, ?_⟩ <;> exact UInt32.add_comm _ _

theorem digest_hash {s : Sha2alg} (table : s.k = roundConstants) (size : block.length = 64) :
    (s.digest (asWords block)).hash = compress s.hash block := by
  have filled : ∀ t ∈ range 64,
      elem (schedule2 (schedule1 (asWords block) s.w)) t = schedule block t := by
    intro t inside
    refine schedule2_elem (fun t low => ?_) le_rfl (mem_range.mp inside)
    exact schedule1_elem size s.w le_rfl low
  rw [digest, add_hash, table, rounds, foldl_roundTurn_words filled, compress, Sha2alg.hash]

@[simp] theorem digest_k (s : Sha2alg) (data : Vector UInt32 16) : (s.digest data).k = s.k := by
  rw [digest, add]

@[simp] theorem digest_mlengthBits (s : Sha2alg) (data : Vector UInt32 16) :
    (s.digest data).mlengthBits = s.mlengthBits := by
  rw [digest, add]

theorem result_eq (s : Sha2alg) : s.result = digestBytes s.hash := by
  unfold result digestBytes
  simp only [leBytes_toBig]
  rfl

/-! ## Consume -/

def joined (chunks : List Chunk) : List UInt8 := chunks.flatMap Subtype.val

theorem length_joined (chunks : List Chunk) : (joined chunks).length = 64 * chunks.length := by
  induction chunks with
  | nil => rfl
  | cons chunk chunks ih =>
    rw [joined, flatMap_cons, length_append, ← joined, ih, length_cons]
    omega

/-- What the object holds when it has counted `length` bytes. -/
structure Holds (s : Sha2alg) (length : ℕ) (hash : Words) : Prop where
  table : s.k = roundConstants
  hash : s.hash = hash
  bits : s.mlengthBits = .ofNat (8 * length)

theorem Holds.digest {s : Sha2alg} {n : ℕ} {hash : Words} (h : Holds s n hash)
    (size : block.length = 64) : Holds (s.digest (asWords block)) n (compress hash block) := by
  refine ⟨(digest_k s _).trans h.table, ?_, (digest_mlengthBits s _).trans h.bits⟩
  rw [digest_hash h.table size, h.hash]

theorem Holds.counted {s : Sha2alg} {length : ℕ} {hash : Words} (h : Holds s length hash) (more : ℕ) :
    Holds { s with mlengthBits := s.mlengthBits + .ofNat (8 * more) } (length + more) hash := by
  have same : Sha2alg.hash { s with mlengthBits := s.mlengthBits + .ofNat (8 * more) } = s.hash := by
    simp only [Sha2alg.hash, locals]
  refine ⟨h.table, same.trans h.hash, ?_⟩
  rw [h.bits, Nat.mul_add, UInt64.ofNat_add]

theorem Holds.consume {s : Sha2alg} {length : ℕ} {hash : Words} (h : Holds s length hash)
    (chunk : Chunk) : Holds (s.consume chunk) (length + 64) (compress hash chunk.1) :=
  (h.counted 64).digest chunk.2

theorem Holds.foldl_consume {s : Sha2alg} {length : ℕ} {hash : Words} (h : Holds s length hash)
    (chunks : List Chunk) : Holds (chunks.foldl Sha2alg.consume s) (length + 64 * chunks.length)
      (hashBlocks chunks.length hash (joined chunks)) := by
  induction chunks generalizing s length hash with
  | nil => exact h
  | cons chunk chunks ih =>
    have next := ih (h.consume chunk)
    have first : hashBlocks (chunks.length + 1) hash (joined (chunk :: chunks)) =
        hashBlocks chunks.length (compress hash chunk.1) (joined chunks) := by
      rw [hashBlocks, joined, flatMap_cons, take_left' chunk.2, drop_left' chunk.2, ← joined]
    rw [foldl_cons, length_cons, first,
      show length + 64 * (chunks.length + 1) = length + 64 + 64 * chunks.length by omega]
    exact next

theorem holds_sha256 : Holds .sha256 0 initial := ⟨rfl, rfl, rfl⟩

/-! ## Final -/

theorem padShort_eq {data : Buffer} (bytes : List UInt8) {fuel : ℕ} (room : bytes.length ≤ 56)
    (enough : 56 - bytes.length < fuel) :
    padShort fuel (data.write 0 bytes) bytes.length =
      some (data.write 0 (bytes ++ replicate (56 - bytes.length) 0), 56) := by
  induction fuel generalizing bytes with
  | zero => omega
  | succ fuel ih =>
    unfold padShort
    by_cases full : bytes.length = 56
    · rw [if_neg (by omega), full]
      simp
    · have longer : (bytes ++ [(0 : UInt8)]).length = bytes.length + 1 := by simp
      have next := ih (bytes ++ [0]) (by omega) (by omega)
      rw [longer, ← Buffer.write_append, zero_add] at next
      rw [if_pos (by omega), next, append_assoc, singleton_append,
        ← replicate_succ, show 56 - (bytes.length + 1) + 1 = 56 - bytes.length by omega]

variable {len : ℕ}

theorem padLong_full (fuel : ℕ) (data : Buffer) (full : 64 ≤ len) :
    padLong (fuel + 1) data len = some data := by
  rw [padLong, if_neg (by omega)]

theorem padLong_none (fuel : ℕ) (data : Buffer) (room : len < 64) :
    padLong fuel data len = none := by
  induction fuel generalizing data with
  | zero => rfl
  | succ fuel ih => rw [padLong, if_pos room, ih]

theorem write_nil (data : Buffer) (offset : ℕ) : data.write offset [] = data := by
  funext i
  rw [Buffer.write, if_neg (by simp)]

theorem copied_eq (stack : Buffer) (rest : List UInt8) :
    (if rest.length ≠ 0 then stack.write 0 rest else stack) = stack.write 0 rest := by
  split_ifs with some
  · rfl
  · rw [length_eq_zero_iff.mp (not_not.mp some), write_nil]

theorem read_written (data : Buffer) {bytes : List UInt8} (size : bytes.length = 64) :
    (data.write 0 bytes).read 0 64 = bytes := by
  have whole := data.read_write_self 0 bytes
  rwa [size] at whole

theorem write_at (data : Buffer) (bytes more : List UInt8) (here : bytes.length = len) :
    (data.write 0 bytes).write len more = data.write 0 (bytes ++ more) := by
  have joined := data.write_append 0 bytes more
  rwa [zero_add, here] at joined

theorem rawlen_eq {s : Sha2alg} {length : ℕ} {hash : Words} (h : Holds s length hash)
    (bound : length < 2 ^ 61) : leBytes 8 (toBig64 s.mlengthBits).toNat = beBytes 8 (8 * length) := by
  rw [leBytes_toBig64, h.bits, UInt64.toNat_ofNat', Nat.mod_eq_of_lt (by omega)]

variable {s : Sha2alg} {length fuel : ℕ} {hash : Words} {stack : Buffer} {rest : List UInt8}

theorem final_short (h : Holds s length hash) (stack : Buffer) (short : rest.length ≤ 55)
    (bound : length + rest.length < 2 ^ 61) (enough : 56 ≤ fuel) :
    ∃ s', s.final fuel stack rest = some s' ∧ s'.hash = compress hash
      (rest ++ 0x80 :: replicate (55 - rest.length) 0 ++
        beBytes 8 (8 * (length + rest.length))) := by
  have counted := h.counted rest.length
  have marked : (rest ++ [(0x80 : UInt8)]).length = rest.length + 1 := by simp
  have loop : padShort fuel (stack.write 0 (rest ++ [0x80])) (rest.length + 1) =
      some (stack.write 0 (rest ++ 0x80 :: replicate (55 - rest.length) 0), 56) := by
    rw [← marked, padShort_eq _ (by omega) (by omega), marked, append_assoc,
      singleton_append, show 56 - (rest.length + 1) = 55 - rest.length by omega]
  unfold final
  rw [if_neg (by omega), if_pos (by omega), copied_eq, write_at stack rest _ rfl, loop, Option.map_some,
    rawlen_eq counted bound, write_at _ _ _ (by simp; omega), read_written _ (by simp; omega)]
  exact ⟨_, rfl, (counted.digest (by simp; omega)).hash⟩

theorem last_block (data : Buffer) (ending : List UInt8) (size : ending.length = 8) :
    ((data.zero 0 (64 - 8)).write (64 - 8) ending).read 0 64 = replicate 56 0 ++ ending := by
  rw [Buffer.zero, write_at _ _ _ (by simp), read_written _ (by simp [size])]

theorem final_marked (h : Holds s length hash) (fuel : ℕ) (stack : Buffer) (size : rest.length = 63)
    (bound : length + rest.length < 2 ^ 61) :
    ∃ s', s.final (fuel + 1) stack rest = some s' ∧ s'.hash = compress
      (compress hash (rest ++ [0x80]))
      (replicate 56 0 ++ beBytes 8 (8 * (length + rest.length))) := by
  have counted := h.counted rest.length
  unfold final
  dsimp only
  rw [if_neg (by omega), if_neg (by omega), if_pos (by omega), padLong_full _ _ (by omega), copied_eq,
    write_at stack rest _ rfl, Option.map_some, rawlen_eq counted bound,
    last_block _ _ (length_beBytes _ _), read_written _ (by simp [size])]
  refine ⟨_, rfl, ?_⟩
  exact ((counted.digest (by simp [size])).digest (by simp)).hash

theorem final_full (h : Holds s length hash) (fuel : ℕ) (stack : Buffer) (size : rest.length = 64)
    (bound : length + rest.length < 2 ^ 61) :
    ∃ s', s.final fuel stack rest = some s' ∧ s'.hash = compress (compress hash rest)
      (replicate 56 0 ++ beBytes 8 (8 * (length + rest.length))) := by
  have counted := h.counted rest.length
  unfold final
  dsimp only
  rw [if_neg (by omega), if_neg (by omega), if_neg (by omega), copied_eq, Option.map_some,
    rawlen_eq counted bound, last_block _ _ (length_beBytes _ _), read_written _ size]
  exact ⟨_, rfl, ((counted.digest size).digest (by simp)).hash⟩

theorem final_none (low : 56 ≤ rest.length) (high : rest.length ≤ 62) :
    s.final fuel stack rest = none := by
  unfold final
  rw [if_neg (by omega), if_neg (by omega), if_pos (by omega), padLong_none _ _ (by omega)]
  rfl

/-! ## The digest -/

/-- The digest of a message whose padded form is given in two parts of whole blocks. -/
theorem sha256_eq {message first last : List UInt8} {n k : ℕ} (padded : pad message = first ++ last)
    (size : first.length = 64 * n) (size' : last.length = 64 * k) :
    Standard.sha256 message = digestBytes (hashBlocks k (hashBlocks n initial first) last) := by
  have count : (first ++ last).length / 64 = n + k := by
    rw [length_append, size, size']
    omega
  rw [Standard.sha256, padded, count, hashBlocks_append n k initial last size]

theorem hashBlocks_two (hash : Words) {block' : List UInt8} (size : block.length = 64)
    (size' : block'.length = 64) :
    hashBlocks 2 hash (block ++ block') = compress (compress hash block) block' := by
  rw [hashBlocks_append 1 1 hash block' size, hashBlocks_one hash size, hashBlocks_one _ size']

/-- The last block without its marker is compressed to the same hash value as the right one. -/
def Collides (hash : Words) (length : ℕ) : Prop :=
  compress hash (replicate 56 0 ++ beBytes 8 (8 * length)) =
    compress hash (0x80 :: replicate 55 0 ++ beBytes 8 (8 * length))

/-- `Final` gets at most 55 bytes, or 63.  With 64 it leaves out the marker. -/
def Handled (chunks : List Chunk) (rest : List UInt8) : Prop :=
  rest.length ≤ 55 ∨ rest.length = 63 ∨ rest.length = 64 ∧
    Collides (hashBlocks (chunks.length + 1) initial (joined chunks ++ rest))
      (joined chunks ++ rest).length

section Message

variable {chunks : List Chunk}

theorem pad_joined (chunks : List Chunk) (rest : List UInt8) (ending : ℕ)
    (zero : zeros (joined chunks ++ rest).length = ending) :
    pad (joined chunks ++ rest) = joined chunks ++ (rest ++ 0x80 :: replicate ending 0 ++
      beBytes 8 (8 * (joined chunks ++ rest).length)) := by
  rw [pad, zero]
  simp only [append_assoc]

theorem holds_chunks (chunks : List Chunk) : Holds (chunks.foldl Sha2alg.consume .sha256)
    (joined chunks).length (hashBlocks chunks.length initial (joined chunks)) := by
  have holds := holds_sha256.foldl_consume chunks
  rwa [zero_add, ← length_joined] at holds

theorem hashMessage_of_final {s' : Sha2alg} {hash : Words}
    (final : (chunks.foldl Sha2alg.consume .sha256).final fuel stack rest = some s')
    (known : s'.hash = hash) : hashMessage fuel stack chunks rest = some (digestBytes hash) := by
  rw [hashMessage, final, Option.map_some, result_eq, known]

theorem hashMessage_short (short : rest.length ≤ 55)
    (bound : (joined chunks ++ rest).length < 2 ^ 61) :
    hashMessage 56 stack chunks rest = some (Standard.sha256 (joined chunks ++ rest)) := by
  have size := length_joined chunks
  have total := @length_append _ (joined chunks) rest
  have padded := pad_joined chunks rest (55 - rest.length) (by unfold zeros; omega)
  obtain ⟨s', final, known⟩ := final_short (holds_chunks chunks) stack short (total ▸ bound)
    (le_refl 56)
  rw [hashMessage_of_final final known, sha256_eq (k := 1) padded size (by simp; omega),
    hashBlocks_one _ (by simp; omega), total]

theorem hashMessage_marked (marked : rest.length = 63)
    (bound : (joined chunks ++ rest).length < 2 ^ 61) :
    hashMessage 1 stack chunks rest = some (Standard.sha256 (joined chunks ++ rest)) := by
  have size := length_joined chunks
  have total := @length_append _ (joined chunks) rest
  have padded := pad_joined chunks rest 56 (by unfold zeros; omega)
  have split : rest ++ 0x80 :: replicate 56 0 ++ beBytes 8 (8 * (joined chunks ++ rest).length) =
      rest ++ [0x80] ++ (replicate 56 0 ++ beBytes 8 (8 * (joined chunks ++ rest).length)) := by
    simp only [append_assoc, cons_append, nil_append]
  rw [split] at padded
  obtain ⟨s', final, known⟩ := final_marked (holds_chunks chunks) 0 stack marked
    (total ▸ bound)
  rw [hashMessage_of_final final known, sha256_eq (k := 2) padded size (by simp; omega),
    hashBlocks_two _ (by simp; omega) (by simp), total]

theorem hashMessage_full (full : rest.length = 64) (bound : (joined chunks ++ rest).length < 2 ^ 61)
    (fuel : ℕ) :
    hashMessage fuel stack chunks rest = some (Standard.sha256 (joined chunks ++ rest)) ↔
      Collides (hashBlocks (chunks.length + 1) initial (joined chunks ++ rest))
        (joined chunks ++ rest).length := by
  have size := length_joined chunks
  have total := @length_append _ (joined chunks) rest
  have padded := pad_joined chunks rest 55 (by unfold zeros; omega)
  rw [append_assoc rest] at padded
  obtain ⟨s', final, known⟩ := final_full (holds_chunks chunks) fuel stack full
    (total ▸ bound)
  rw [hashMessage_of_final final known, sha256_eq (k := 2) padded size (by simp; omega),
    hashBlocks_two _ full (by simp), hashBlocks_append _ 1 _ _ size, hashBlocks_one _ full, Collides,
    total]
  constructor
  · intro same
    exact digestBytes_injective (Option.some.inj same)
  · intro same
    rw [same]

theorem hashMessage_fuel (full : rest.length = 64) (fuel fuel' : ℕ) :
    hashMessage fuel stack chunks rest = hashMessage fuel' stack chunks rest := by
  have wide : ¬rest.length ≤ 64 - 1 - 8 := by omega
  have whole : ¬rest.length < 64 := by omega
  unfold hashMessage final
  simp only [if_neg wide, if_neg whole]

end Message

/-- The code returns the digest of the message exactly if `Final` handles the last bytes. -/
theorem hashMessage_iff (stack : Buffer) (chunks : List Chunk) (rest : List UInt8)
    (last : rest.length ≤ 64) (bound : (joined chunks ++ rest).length < 2 ^ 61) :
    (∃ fuel, hashMessage fuel stack chunks rest = some (Standard.sha256 (joined chunks ++ rest))) ↔
      Handled chunks rest := by
  constructor
  · rintro ⟨fuel, returned⟩
    by_cases short : rest.length ≤ 55
    · exact .inl short
    by_cases marked : rest.length = 63
    · exact .inr (.inl marked)
    by_cases full : rest.length = 64
    · exact .inr (.inr ⟨full, (hashMessage_full full bound fuel).mp returned⟩)
    · rw [hashMessage, final_none (by omega) (by omega)] at returned
      cases returned
  · rintro (short | marked | ⟨full, collides⟩)
    · exact ⟨56, hashMessage_short short bound⟩
    · exact ⟨1, hashMessage_marked marked bound⟩
    · exact ⟨0, (hashMessage_full full bound 0).mpr collides⟩

/-- The message `abc`. -/
theorem hashMessage_abc :
    (∃ fuel, hashMessage fuel (fun _ => 0) [] [0x61, 0x62, 0x63] =
      some (Standard.sha256 [0x61, 0x62, 0x63])) ∧ Handled [] [0x61, 0x62, 0x63] := by
  have handled : Handled [] [0x61, 0x62, 0x63] := .inl (by decide)
  exact ⟨(hashMessage_iff (fun _ => 0) [] [0x61, 0x62, 0x63] (by decide) (by decide)).mpr handled,
    handled⟩

example : hashMessage 56 (fun _ => 0) [] [0x61, 0x62, 0x63] = some
    [0xba, 0x78, 0x16, 0xbf, 0x8f, 0x01, 0xcf, 0xea, 0x41, 0x41, 0x40, 0xde, 0x5d, 0xae, 0x22, 0x23,
     0xb0, 0x03, 0x61, 0xa3, 0x96, 0x17, 0x7a, 0x9c, 0xb4, 0x10, 0xff, 0x61, 0xf2, 0x00, 0x15, 0xad] := by
  decide +kernel

def zeroChunk : Chunk := ⟨replicate 64 0, by decide⟩

/-- With 56 bytes `Final` does not return, and with 64 it gives another digest. -/
theorem not_hashMessage_zeros :
    (∀ fuel, hashMessage fuel (fun _ => 0) [] (replicate 56 0) = none) ∧
      ¬∃ fuel, hashMessage fuel (fun _ => 0) [] (replicate 64 0) =
        some (Standard.sha256 (replicate 64 0)) := by
  constructor
  · intro fuel
    rw [hashMessage, final_none (by simp) (by simp)]
    rfl
  · rintro ⟨fuel, returned⟩
    have right : hashMessage 56 (fun _ => 0) [zeroChunk] [] =
        some (Standard.sha256 (joined [zeroChunk] ++ [])) := hashMessage_short (by decide) (by decide)
    rw [append_nil, show joined [zeroChunk] = replicate 64 0 from append_nil _,
      ← returned, hashMessage_fuel (by simp) fuel 0] at right
    have differs : hashMessage 56 (fun _ => 0) [zeroChunk] [] ≠
        hashMessage 0 (fun _ => 0) [] (replicate 64 0) := by
      decide +kernel
    exact differs right

end JeoKernel.Sha2
