import Mathlib.Data.Nat.Basic
import Mathlib.Logic.Function.Iterate

/-!
# CRC-32

`crc32::encode` takes a byte with one entry of a table; the entry comes from a loop that keeps the byte
and the remainder apart.  The remainder of the standard has its highest power in front, that of the code
behind.
-/

namespace JeoKernel.Crc32

open List Function

/-! ## The code -/

/-- A turn of the loop of `crc32_value`, with `result` and `crcnum`. -/
def turn (r : BitVec 32 × BitVec 32) : BitVec 32 × BitVec 32 :=
  let bit := (r.2 ^^^ r.1).getLsbD 0
  let result := r.1 >>> 1
  (if bit then result ^^^ 0xEDB88320 else result, r.2 >>> 1)

def crc32Value (crcnum : BitVec 32) : BitVec 32 := (turn^[8] (0, crcnum)).1

def crcvalues (index : BitVec 8) : BitVec 32 := crc32Value (index.setWidth 32)

def crc32TablevalueIdx (crc : BitVec 32) (byte : BitVec 8) : BitVec 32 :=
  crc &&& 0xFF#32 ^^^ byte.setWidth 32

def crc32Iteration (crc tablevalue : BitVec 32) : BitVec 32 := tablevalue ^^^ crc / 256#32

def encode (state : BitVec 32) (byte : BitVec 8) : BitVec 32 :=
  crc32Iteration state (crcvalues ((crc32TablevalueIdx state byte).setWidth 8))

/-- `complete`, after these calls of `encode`. -/
def complete (calls : List (List (BitVec 8))) : BitVec 32 :=
  calls.foldl (fun state data => data.foldl encode state) 0xFFFFFFFF ^^^ 0xFFFFFFFF

/-! ## The standard -/

/-- One more bit of the message. -/
def feed (remainder : BitVec 32) (bit : Bool) : BitVec 32 :=
  if remainder.msb ^^ bit then remainder <<< 1 ^^^ 0x04C11DB7 else remainder <<< 1

def bits (byte : BitVec 8) : List Bool := (range 8).map byte.getLsbD

def standard (message : List (BitVec 8)) : BitVec 32 :=
  ((message.flatMap bits).foldl feed 0xFFFFFFFF).reverse ^^^ 0xFFFFFFFF

/-! ## One bit, one byte, a message -/

variable (r crc : BitVec 32) (bit : Bool) (byte : BitVec 8)

/-- `feed`, with the highest power behind. -/
def shift (crc : BitVec 32) (bit : Bool) : BitVec 32 :=
  if crc.getLsbD 0 ^^ bit then crc >>> 1 ^^^ 0xEDB88320 else crc >>> 1

theorem reverse_xor (x y : BitVec 32) : (x ^^^ y).reverse = x.reverse ^^^ y.reverse := by
  refine BitVec.eq_of_getLsbD_eq fun i _ => ?_
  simp only [BitVec.getLsbD_reverse, BitVec.getLsbD_xor, BitVec.getMsbD_xor]

theorem reverse_shiftLeft : (r <<< 1).reverse = r.reverse >>> 1 := by
  refine BitVec.eq_of_getLsbD_eq fun i _ => ?_
  rw [BitVec.getLsbD_reverse, BitVec.getMsbD_shiftLeft, BitVec.getLsbD_ushiftRight,
    BitVec.getLsbD_reverse, Nat.add_comm]

theorem reverse_feed : (feed r bit).reverse = shift r.reverse bit := by
  have low : r.reverse.getLsbD 0 = r.msb := BitVec.getLsbD_reverse
  have polynomial : (0x04C11DB7 : BitVec 32).reverse = 0xEDB88320 := by decide +kernel
  unfold feed shift
  rw [low, apply_ite BitVec.reverse, reverse_xor, reverse_shiftLeft, polynomial]

/-- After `k` turns the remainder is `result` with the state, moved down by `k`. -/
theorem turn_iterate {index : BitVec 32}
    (low : ∀ k < 8, index.getLsbD k = (crc.getLsbD k ^^ byte.getLsbD k)) {k : ℕ} (le : k ≤ 8) :
    turn^[k] (0, index) =
      (((range k).map byte.getLsbD).foldl shift crc ^^^ crc >>> k, index >>> k) := by
  induction k with
  | zero => simp
  | succ k ih =>
    rw [iterate_succ_apply', ih (Nat.le_of_lt le), range_succ, map_append, foldl_append]
    generalize ((range k).map byte.getLsbD).foldl shift crc = x
    have tested : (index >>> k ^^^ (x ^^^ crc >>> k)).getLsbD 0 =
        (x.getLsbD 0 ^^ byte.getLsbD k) := by
      rw [BitVec.getLsbD_xor, BitVec.getLsbD_xor, BitVec.getLsbD_ushiftRight,
        BitVec.getLsbD_ushiftRight, Nat.add_zero, low k le]
      cases crc.getLsbD k <;> simp [Bool.xor_comm]
    unfold turn
    dsimp only
    rw [tested, BitVec.ushiftRight_xor_distrib, ← BitVec.shiftRight_add, ← BitVec.shiftRight_add]
    simp only [map_cons, map_nil, foldl_cons, foldl_nil, shift]
    split_ifs
    · ac_rfl
    · rfl

theorem encode_eq : encode crc byte = (bits byte).foldl shift crc := by
  have mask : ∀ k < 8, (0xFF#32).getLsbD k = true := by decide
  have low : ∀ k < 8, (((crc32TablevalueIdx crc byte).setWidth 8).setWidth 32).getLsbD k =
      (crc.getLsbD k ^^ byte.getLsbD k) := by
    intro k below
    have wide : k < 32 := by omega
    simp only [crc32TablevalueIdx, BitVec.getLsbD_setWidth, BitVec.getLsbD_xor, BitVec.getLsbD_and,
      mask k below, below, wide, decide_true, Bool.true_and, Bool.and_true]
  have divided : crc / 256#32 = crc >>> 8 := BitVec.udiv_twoPow_eq_of_lt (k := 8) (by decide)
  unfold encode crc32Iteration crcvalues crc32Value
  rw [turn_iterate crc byte low le_rfl, divided, BitVec.xor_assoc, BitVec.xor_self, BitVec.xor_zero]
  rfl

theorem foldl_encode (message : List (BitVec 8)) :
    message.foldl encode r.reverse = ((message.flatMap bits).foldl feed r).reverse := by
  have bitwise : ∀ (l : List Bool) r, l.foldl shift r.reverse = (l.foldl feed r).reverse := by
    intro l
    induction l with
    | nil => exact fun _ => rfl
    | cons bit l ih =>
      intro r
      rw [foldl_cons, ← reverse_feed, ih, foldl_cons]
  induction message generalizing r with
  | nil => rfl
  | cons byte message ih => rw [foldl_cons, encode_eq, bitwise, ih, flatMap_cons, foldl_append]

theorem complete_eq (calls : List (List (BitVec 8))) : complete calls = standard calls.flatten := by
  have ones : (0xFFFFFFFF : BitVec 32) = BitVec.reverse 0xFFFFFFFF := by decide +kernel
  unfold complete standard
  rw [← foldl_encode, ← ones, foldl_flatten]

end JeoKernel.Crc32
