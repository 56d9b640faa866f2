import Mathlib.Data.List.Basic
import Mathlib.Data.List.GetD
import Mathlib.Tactic.Ring

/-!
# Byte buffers and little-endian records

A buffer is a function from offsets to bytes; `read` and `write` are `memcpy` out of and into it.
A record is a list of fields of fixed widths, stored one after the other in little-endian order.
-/

namespace JeoKernel

open List

/-! ## Buffers -/

abbrev Buffer := ℕ → UInt8

namespace Buffer

def read (b : Buffer) (offset length : ℕ) : List UInt8 :=
  (range length).map fun i => b (offset + i)

def write (b : Buffer) (offset : ℕ) (bytes : List UInt8) : Buffer := fun i =>
  if offset ≤ i ∧ i < offset + bytes.length then bytes.getD (i - offset) 0 else b i

def zero (b : Buffer) (offset length : ℕ) : Buffer := b.write offset (replicate length 0)

@[simp] theorem length_read (b : Buffer) (offset length : ℕ) :
    (b.read offset length).length = length := by
  simp [read]

variable {offset length : ℕ}

theorem read_congr {b c : Buffer} (same : ∀ i, offset ≤ i → i < offset + length → b i = c i) :
    b.read offset length = c.read offset length := by
  refine map_congr_left fun i hi => same _ (by omega) ?_
  have := mem_range.mp hi
  omega

theorem read_write_self (b : Buffer) (offset : ℕ) (bytes : List UInt8) :
    (b.write offset bytes).read offset bytes.length = bytes := by
  refine ext_getElem (by simp) fun i h₁ h₂ => ?_
  simp [read, write, h₂]

theorem read_write_of_disjoint (b : Buffer) {offset' : ℕ} {bytes : List UInt8}
    (apart : offset' + length ≤ offset ∨ offset + bytes.length ≤ offset') :
    (b.write offset bytes).read offset' length = b.read offset' length := by
  refine read_congr fun i lower upper => ?_
  rw [write, if_neg (by omega)]

theorem read_add (b : Buffer) (offset m n : ℕ) :
    b.read offset (m + n) = b.read offset m ++ b.read (offset + m) n := by
  simp [read, range_add, add_assoc]

theorem write_append (b : Buffer) (offset : ℕ) (bytes bytes' : List UInt8) :
    (b.write offset bytes).write (offset + bytes.length) bytes' = b.write offset (bytes ++ bytes') := by
  funext i
  simp only [write, length_append]
  split_ifs <;> try omega
  · rw [getD_append_right _ _ _ _ (by omega), Nat.sub_add_eq]
  · rw [getD_append _ _ _ _ (by omega)]
  · rfl

theorem read_zero_of_disjoint (b : Buffer) {offset' length' : ℕ}
    (apart : offset' + length ≤ offset ∨ offset + length' ≤ offset') :
    (b.zero offset length').read offset' length = b.read offset' length :=
  read_write_of_disjoint b (by simpa using apart)

end Buffer

/-! ## Records -/

namespace Record

/-- The `width` bytes of `value`, least significant first. -/
def leBytes : ℕ → ℕ → List UInt8
  | 0, _ => []
  | width + 1, value => UInt8.ofNat value :: leBytes width (value / 256)

def leValue : List UInt8 → ℕ
  | [] => 0
  | b :: bytes => b.toNat + 256 * leValue bytes

@[simp] theorem length_leBytes (width value : ℕ) : (leBytes width value).length = width := by
  induction width generalizing value with
  | zero => rfl
  | succ width ih => simp [leBytes, ih]

variable {width value : ℕ}

theorem leValue_leBytes (fits : value < 256 ^ width) : leValue (leBytes width value) = value := by
  induction width generalizing value with
  | zero => simp at fits; simp [leBytes, leValue, fits]
  | succ width ih =>
    rw [leBytes, leValue, ih (by rw [Nat.pow_succ] at fits; omega), UInt8.toNat_ofNat']
    omega

theorem leValue_lt (bytes : List UInt8) : leValue bytes < 256 ^ bytes.length := by
  induction bytes with
  | nil => simp [leValue]
  | cons b bytes ih =>
    have := b.toNat_lt
    simp only [leValue, length_cons, Nat.pow_succ]
    omega

theorem leBytes_leValue (bytes : List UInt8) : leBytes bytes.length (leValue bytes) = bytes := by
  induction bytes with
  | nil => rfl
  | cons b bytes ih =>
    have small := b.toNat_lt
    have low : UInt8.ofNat (b.toNat + 256 * leValue bytes) = b := by
      apply UInt8.toNat_inj.mp
      rw [UInt8.toNat_ofNat']
      omega
    have high : (b.toNat + 256 * leValue bytes) / 256 = leValue bytes := by omega
    rw [length_cons, leValue, leBytes, low, high, ih]

theorem leValue_append (bytes bytes' : List UInt8) :
    leValue (bytes ++ bytes') = leValue bytes + 256 ^ bytes.length * leValue bytes' := by
  induction bytes with
  | nil => simp [leValue]
  | cons b bytes ih =>
    rw [cons_append, leValue, leValue, ih, length_cons, Nat.pow_succ]
    ring

/-- The value of bytes with the most significant one first. -/
def beValue (bytes : List UInt8) : ℕ := leValue bytes.reverse

theorem beValue_lt (bytes : List UInt8) : beValue bytes < 256 ^ bytes.length := by
  have small := leValue_lt bytes.reverse
  rwa [length_reverse] at small

theorem beValue_append (bytes bytes' : List UInt8) :
    beValue (bytes ++ bytes') = beValue bytes * 256 ^ bytes'.length + beValue bytes' := by
  rw [beValue, reverse_append, leValue_append, length_reverse]
  unfold beValue
  ring

def beBytes (width value : ℕ) : List UInt8 := (leBytes width value).reverse

@[simp] theorem length_beBytes (width value : ℕ) : (beBytes width value).length = width := by
  simp [beBytes]

theorem beValue_beBytes (fits : value < 256 ^ width) : beValue (beBytes width value) = value := by
  rw [beValue, beBytes, reverse_reverse, leValue_leBytes fits]

/-- The fields of the given widths, one after the other. -/
def encode : List ℕ → List ℕ → List UInt8
  | width :: layout, value :: fields => leBytes width value ++ encode layout fields
  | _, _ => []

def decode : List ℕ → List UInt8 → List ℕ
  | [], _ => []
  | width :: layout, bytes => leValue (bytes.take width) :: decode layout (bytes.drop width)

/-- There is one field for each width, and it fits. -/
def Fits : List ℕ → List ℕ → Prop
  | [], [] => True
  | width :: layout, value :: fields => value < 256 ^ width ∧ Fits layout fields
  | _, _ => False

variable {layout fields : List ℕ}

theorem Fits.append {layout' fields' : List ℕ} (first : Fits layout fields)
    (rest : Fits layout' fields') : Fits (layout ++ layout') (fields ++ fields') := by
  induction layout generalizing fields with
  | nil => cases fields <;> [exact rest; exact first.elim]
  | cons width layout ih =>
    cases fields with
    | nil => exact first.elim
    | cons value fields => exact ⟨first.1, ih first.2⟩

theorem fits_replicate (width : ℕ) (fields : List ℕ) (fit : ∀ value ∈ fields, value < 256 ^ width) :
    Fits (replicate fields.length width) fields := by
  induction fields with
  | nil => trivial
  | cons value fields ih =>
    exact ⟨fit value mem_cons_self, ih fun v hv => fit v (mem_cons_of_mem _ hv)⟩

theorem length_encode (fits : Fits layout fields) :
    (encode layout fields).length = layout.sum := by
  induction layout generalizing fields with
  | nil => cases fields <;> simp [encode]
  | cons width layout ih =>
    cases fields with
    | nil => exact fits.elim
    | cons value fields => simp [encode, ih fits.2]

theorem decode_encode (fits : Fits layout fields) :
    decode layout (encode layout fields) = fields := by
  induction layout generalizing fields with
  | nil => cases fields <;> [rfl; exact fits.elim]
  | cons width layout ih =>
    cases fields with
    | nil => exact fits.elim
    | cons value fields =>
      rw [encode, decode, take_left' (length_leBytes _ _), drop_left' (length_leBytes _ _),
        leValue_leBytes fits.1, ih fits.2]

end Record

end JeoKernel
