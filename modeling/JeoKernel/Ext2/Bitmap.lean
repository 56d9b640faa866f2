import JeoKernel.Lib.WordBits

/-!
# The allocation bitmaps of an ext2 file system

`ext2bitmap` keeps `n` bits in 32-bit words and one dirty flag for each block of the bitmap.  A set
bit is an allocated block (or inode).  The word array is larger than it has to be: `n` divided by
the size of a word in bytes, not in bits.
-/

namespace JeoKernel.Ext2

open List

/-- `sz`, the number of words of a bitmap of `n` bits. -/
def wordCount (n : ℕ) : ℕ := if n % 4 ≠ 0 then n / 4 + 1 else n / 4

/-- `blocks`, the number of dirty flags. -/
def blockCount (n blocksize : ℕ) : ℕ :=
  if wordCount n % blocksize ≠ 0 then wordCount n / blocksize + 1 else wordCount n / blocksize

/-- `ext2bitmap`. -/
structure Bitmap (n : ℕ) where
  blocksize : ℕ
  words : List (BitVec 32)
  dirty : List Bool
  length_words : words.length = wordCount n
  length_dirty : dirty.length = blockCount n blocksize
  deriving DecidableEq

namespace Bitmap

variable {n : ℕ}

/-- The constructor: every bit set, nothing dirty. -/
def create (n blocksize : ℕ) : Bitmap n where
  blocksize := blocksize
  words := replicate (wordCount n) (BitVec.allOnes 32)
  dirty := replicate (blockCount n blocksize) false
  length_words := length_replicate
  length_dirty := length_replicate

def get (m : Bitmap n) (i : ℕ) : Bool := WordBits.bit m.words i

/-- Assigning through `operator[]`; only a bit that becomes set marks its block dirty. -/
def set (m : Bitmap n) (i : ℕ) (value : Bool) : Bitmap n where
  blocksize := m.blocksize
  words := WordBits.setBit m.words i value
  dirty :=
    if value ∧ WordBits.setBit m.words i value ≠ m.words then m.dirty.set (i / 32 / m.blocksize) true
    else m.dirty
  length_words := by rw [WordBits.length_setBit, m.length_words]
  length_dirty := by split_ifs <;> simp [m.length_dirty]

/-- The two loops of `FindFree`, from word `i` on: the first word with a clear bit decides. -/
def findFreeFrom (n : ℕ) (i : ℕ) : List (BitVec 32) → ℕ
  | [] => 0
  | bits :: words =>
    if bits ≠ BitVec.allOnes 32 then
      match (range 32).find? fun b => bits &&& 1#32 <<< b == 0#32 with
      | some b => if i * 32 + b < n then i * 32 + b + 1 else 0
      | none => findFreeFrom n (i + 1) words
    else findFreeFrom n (i + 1) words

/-- `FindFree` from its default start: one more than the index of the first clear bit, or 0. -/
def findFree (m : Bitmap n) : ℕ := findFreeFrom n 0 m.words

/-! ## Reading back what was written -/

theorem div_lt_length (m : Bitmap n) {i : ℕ} (hi : i < n) : i / 32 < m.words.length := by
  rw [m.length_words, wordCount]
  split_ifs <;> omega

theorem get_set (m : Bitmap n) {i : ℕ} (hi : i < n) (value : Bool) (j : ℕ) :
    (m.set i value).get j = if i = j then value else m.get j :=
  WordBits.bit_setBit value (m.div_lt_length hi) (by decide) j

/-! ## The first free bit -/

theorem and_shiftLeft_eq_zero_iff (bits : BitVec 32) {b : ℕ} (hb : b < 32) :
    bits &&& 1#32 <<< b = 0#32 ↔ bits.getLsbD b = false := by
  have nonzero : BitVec.twoPow 32 b ≠ 0#32 := by
    intro zero
    have := congrArg (fun word => word.getLsbD b) zero
    simp [hb] at this
  rw [← BitVec.twoPow_eq, BitVec.and_twoPow]
  rcases bits.getLsbD b with _ | _ <;> simp [nonzero]

variable {bits : BitVec 32}

theorem find?_bit_eq_some {b : ℕ}
    (h : (range 32).find? (fun b => bits &&& 1#32 <<< b == 0#32) = some b) :
    b < 32 ∧ bits.getLsbD b = false ∧ ∀ c < b, bits.getLsbD c = true := by
  have hb : b < 32 := mem_range.mp (mem_of_find?_eq_some h)
  refine ⟨hb, ?_, fun c hc => ?_⟩
  · simpa only [beq_iff_eq, and_shiftLeft_eq_zero_iff bits hb] using find?_some h
  · have first := (find?_range_eq_some.mp h).2.2 c hc
    have small : c < 32 := Nat.lt_trans hc hb
    simpa [and_shiftLeft_eq_zero_iff bits small] using first

theorem find?_bit_eq_none (h : (range 32).find? (fun b => bits &&& 1#32 <<< b == 0#32) = none) :
    ∀ b < 32, bits.getLsbD b = true := by
  intro b hb
  have := find?_eq_none.mp h b (mem_range.mpr hb)
  simpa [and_shiftLeft_eq_zero_iff bits hb] using this

/-- What `FindFree` says about the bits: `k + 1` is the first clear bit `k`, 0 is none. -/
def FirstFree (n : ℕ) (bit : ℕ → Bool) : ℕ → Prop
  | 0 => ∀ j < n, bit j = true
  | k + 1 => k < n ∧ bit k = false ∧ ∀ j < k, bit j = true

theorem firstFree_findFreeFrom (m : Bitmap n) (words : List (BitVec 32)) (i : ℕ)
    (rest : m.words.drop i = words) (before : ∀ j < i * 32, m.get j = true) :
    FirstFree n m.get (findFreeFrom n i words) := by
  induction words generalizing i with
  | nil =>
    intro j hj
    have := m.div_lt_length hj
    have := drop_eq_nil_iff.mp rest
    exact before j (by omega)
  | cons bits words ih =>
    have here : m.words[i]? = some bits := by
      rw [← head?_drop, rest, head?_cons]
    have bit (b : ℕ) (hb : b < 32) : m.get (i * 32 + b) = bits.getLsbD b := by
      rw [get, WordBits.bit, show (i * 32 + b) / 32 = i by omega,
        show (i * 32 + b) % 32 = b by omega, getD_eq_getElem?_getD, here, Option.getD_some]
    -- Once the whole word is set, the search goes on behind it.
    have next (full : ∀ b < 32, bits.getLsbD b = true) :
        FirstFree n m.get (findFreeFrom n (i + 1) words) := by
      refine ih (i + 1) (by rw [← tail_drop, rest, tail_cons]) fun j hj => ?_
      by_cases old : j < i * 32
      · exact before j old
      · obtain ⟨b, rfl⟩ := Nat.exists_eq_add_of_le (not_lt.mp old)
        rw [bit b (by omega), full b (by omega)]
    rw [findFreeFrom]
    split_ifs with notFull
    · split
      case h_1 b found =>
        obtain ⟨hb, clear, set⟩ := find?_bit_eq_some found
        have first (j : ℕ) (hj : j < i * 32 + b) : m.get j = true := by
          by_cases old : j < i * 32
          · exact before j old
          · obtain ⟨c, rfl⟩ := Nat.exists_eq_add_of_le (not_lt.mp old)
            rw [bit c (by omega), set c (by omega)]
        split_ifs with inside
        · exact ⟨inside, by rw [bit b hb, clear], first⟩
        · exact fun j hj => first j (by omega)
      case h_2 none => exact next (find?_bit_eq_none none)
    · obtain rfl := not_not.mp notFull
      exact next fun b hb => by rw [BitVec.getLsbD_allOnes, decide_eq_true hb]

theorem firstFree_findFree (m : Bitmap n) : FirstFree n m.get m.findFree :=
  firstFree_findFreeFrom m m.words 0 rfl (by simp)

end Bitmap

end JeoKernel.Ext2
