import Mathlib.Algebra.Order.Ring.Nat
import Mathlib.Data.List.Basic

/-!
# Partition devices

An `offset_blockdev` is a range of blocks of another device.  It cuts a request at its end, adds its
offset to the block number and passes the request on, so that in a nest of such devices the request is
cut and shifted once for each.  All numbers have 64 bits, and both sums may wrap.
-/

namespace JeoKernel.OffsetBlockdev

open List BitVec

/-- `size_t` -/
abbrev Word := BitVec 64

structure Access where
  blocknum : Word
  blocks : Word
  deriving DecidableEq

structure Disk (Data : Type) where
  readBlock : Word → Word → Option Data
  writeBlock : Data → Word → Word → Word

/-- The disk, or an `offset_blockdev` on another device. -/
inductive Blockdev where
  | disk
  | part (upstream : Blockdev) (offset size : Word)
  deriving DecidableEq

namespace Blockdev

/-! ## The code -/

/-- `ReadBlock` and `WriteBlock` of the devices: the answer, and the requests that reach the disk. -/
def request {α : Type} (failed : α) (disk : Word → Word → α) :
    Blockdev → Word → Word → α × List Access
  | .disk, blocknum, blocks => (disk blocknum blocks, [⟨blocknum, blocks⟩])
  | .part upstream offset size, blocknum, blocks =>
    if size ≤ blocknum then (failed, [])
    else
      request failed disk upstream (blocknum + offset)
        (if size ≤ blocknum + blocks then size - blocknum else blocks)

def readBlock {Data : Type} (disk : Disk Data) (dev : Blockdev) (blocknum blocks : Word) :
    Option Data × List Access :=
  dev.request none disk.readBlock blocknum blocks

def writeBlock {Data : Type} (disk : Disk Data) (dev : Blockdev) (data : Data)
    (blocknum blocks : Word) : Word × List Access :=
  dev.request 0 (disk.writeBlock data) blocknum blocks

/-! ## The blocks of a device -/

def base : Blockdev → ℕ
  | .disk => 0
  | .part upstream offset _ => upstream.base + offset.toNat

/-- The first block and the number of blocks on the disk, for the device and those around it. -/
def ranges : Blockdev → List (ℕ × ℕ)
  | .disk => []
  | .part upstream offset size =>
    (upstream.base + offset.toNat, size.toNat) :: upstream.ranges

/-- A request that starts at `blocknum` of the device is in its place on the disk. -/
structure Inside (dev : Blockdev) (blocknum : Word) (a : Access) : Prop where
  shifted : ∀ i < a.blocks.toNat, a.blocknum.toNat + i = dev.base + (blocknum.toNat + i)
  within : ∀ i < a.blocks.toNat, ∀ r ∈ dev.ranges,
    r.1 ≤ a.blocknum.toNat + i ∧ a.blocknum.toNat + i < r.1 + r.2

/-- The call fails without a request to the disk, or makes one that is in its place. -/
def Confined {α : Type} (dev : Blockdev) (failed : α) (disk : Word → Word → α) (blocknum : Word)
    (r : α × List Access) : Prop :=
  r = (failed, []) ∨ ∃ a : Access, r = (disk a.blocknum a.blocks, [a]) ∧ dev.Inside blocknum a

/-- A device on the way to the disk does not have the block. -/
def Refuses : Blockdev → ℕ → Prop
  | .disk, _ => False
  | .part upstream offset size, b => size.toNat ≤ b % 2 ^ 64 ∨ upstream.Refuses (b + offset.toNat)

/-- No sum wraps when each device cuts a request of `n` blocks from block `b` on. -/
def Unwrapped : Blockdev → ℕ → ℕ → Prop
  | .disk, b, _ => b < 2 ^ 64
  | .part upstream offset size, b, n =>
    b + n < 2 ^ 64 ∧ upstream.Unwrapped (b + offset.toNat) (min n (size.toNat - b))

/-! ## What reaches the disk -/

def granted : Blockdev → Word → Word → Word
  | .disk, _, blocks => blocks
  | .part upstream offset size, blocknum, blocks =>
    upstream.granted (blocknum + offset)
      (if size ≤ blocknum + blocks then size - blocknum else blocks)

variable {α : Type} {failed : α} {disk : Word → Word → α}

theorem Refuses.congr {b c : ℕ} (same : b % 2 ^ 64 = c % 2 ^ 64) :
    (dev : Blockdev) → dev.Refuses b → dev.Refuses c
  | .disk, refuses => refuses
  | .part upstream offset size, refuses => by
    refine refuses.imp (fun le => same ▸ le) fun rest => ?_
    exact Refuses.congr (by omega) upstream rest

theorem refuses_add {dev : Blockdev} {b o : Word} :
    dev.Refuses (b + o).toNat ↔ dev.Refuses (b.toNat + o.toNat) := by
  have same : (b + o).toNat % 2 ^ 64 = (b.toNat + o.toNat) % 2 ^ 64 := by
    rw [toNat_add, Nat.mod_mod]
  exact ⟨Refuses.congr same dev, Refuses.congr same.symm dev⟩

theorem request_of_refuses (dev : Blockdev) (b n : Word) (refuses : dev.Refuses b.toNat) :
    dev.request failed disk b n = (failed, []) := by
  induction dev generalizing b n with
  | disk => exact absurd refuses id
  | part upstream offset size ih =>
    unfold request
    by_cases past : size ≤ b
    · rw [if_pos past]
    · rw [if_neg past]
      refine ih _ _ (refuses_add.mpr (refuses.resolve_left fun le => ?_))
      rw [Nat.mod_eq_of_lt b.isLt] at le
      exact past (le_def.mpr le)

theorem has_of_not_refuses {upstream : Blockdev} {offset size b : Word}
    (has : ¬(part upstream offset size).Refuses b.toNat) :
    b.toNat < size.toNat ∧ ¬upstream.Refuses (b + offset).toNat := by
  constructor
  · by_contra past
    refine has (.inl ?_)
    rw [Nat.mod_eq_of_lt b.isLt]
    exact not_lt.mp past
  · exact fun refuses => has (.inr (refuses_add.mp refuses))

theorem request_of_not_refuses (dev : Blockdev) (b n : Word) (has : ¬dev.Refuses b.toNat) :
    dev.request failed disk b n =
      (disk (b + BitVec.ofNat 64 dev.base) (dev.granted b n),
        [⟨b + BitVec.ofNat 64 dev.base, dev.granted b n⟩]) := by
  induction dev generalizing b n with
  | disk => simp [request, granted, base]
  | part upstream offset size ih =>
    obtain ⟨below, rest⟩ := has_of_not_refuses has
    have start : b + offset + BitVec.ofNat 64 upstream.base =
        b + BitVec.ofNat 64 (upstream.base + offset.toNat) := by
      apply eq_of_toNat_eq
      simp only [toNat_add, toNat_ofNat]
      omega
    unfold request
    rw [if_neg (by rw [le_def]; omega), ih _ _ rest, start]
    rfl

theorem granted_zero (dev : Blockdev) (b : Word) (has : ¬dev.Refuses b.toNat) :
    dev.granted b 0 = 0 := by
  induction dev generalizing b with
  | disk => rfl
  | part upstream offset size ih =>
    obtain ⟨below, rest⟩ := has_of_not_refuses has
    have sum : b + (0 : Word) = b := BitVec.add_zero b
    unfold granted
    rw [sum, if_neg (by rw [le_def]; omega)]
    exact ih _ rest

theorem Unwrapped.lt {dev : Blockdev} {b n : ℕ} (unwrapped : dev.Unwrapped b n) : b < 2 ^ 64 := by
  cases dev with
  | disk => exact unwrapped
  | part upstream offset size =>
    have sum := unwrapped.1
    omega

theorem toNat_cut {b n size : Word} (below : b.toNat < size.toNat)
    (lt : b.toNat + n.toNat < 2 ^ 64) :
    (if size ≤ b + n then size - b else n).toNat = min n.toNat (size.toNat - b.toNat) := by
  have sum := toNat_add_of_lt lt
  split_ifs with past
  · rw [toNat_sub_of_le (le_def.mpr below.le)]
    rw [le_def, sum] at past
    omega
  · rw [le_def, sum] at past
    omega

theorem cut_of_wraps {b n size : Word} (below : b.toNat < size.toNat)
    (wraps : 2 ^ 64 ≤ b.toNat + n.toNat) : (if size ≤ b + n then size - b else n) = n := by
  rw [if_neg]
  rw [le_def, toNat_add]
  omega

section

variable (dev : Blockdev) (b n : Word) (has : ¬dev.Refuses b.toNat)

include dev b n has

theorem fits_of_unwrapped (unwrapped : dev.Unwrapped b.toNat n.toNat) :
    dev.base + b.toNat < 2 ^ 64 ∧ (dev.granted b n).toNat ≤ n.toNat ∧
      ∀ r ∈ dev.ranges, r.1 ≤ dev.base + b.toNat ∧
        dev.base + b.toNat + (dev.granted b n).toNat ≤ r.1 + r.2 := by
  induction dev generalizing b n with
  | disk => exact ⟨by simpa [base] using b.isLt, le_refl _, by simp [ranges]⟩
  | part upstream offset size ih =>
    obtain ⟨below, rest⟩ := has_of_not_refuses has
    have sum := toNat_add_of_lt unwrapped.2.lt
    have cut := toNat_cut below unwrapped.1
    obtain ⟨lt, le, within⟩ := ih (b + offset) (if size ≤ b + n then size - b else n) rest
      (by rw [sum, cut]; exact unwrapped.2)
    rw [sum] at lt within
    have shift : (part upstream offset size).base + b.toNat =
        upstream.base + (b.toNat + offset.toNat) := by
      simp only [base]
      omega
    rw [shift]
    refine ⟨lt, ?_, fun r mem => ?_⟩
    · rw [granted]
      omega
    · rw [granted]
      rcases mem_cons.mp mem with rfl | outer
      · omega
      · exact within r outer

theorem granted_of_wraps (lt : dev.base + b.toNat < 2 ^ 64) (wraps : 2 ^ 64 ≤ b.toNat + n.toNat) :
    dev.granted b n = n := by
  induction dev generalizing b n with
  | disk => rfl
  | part upstream offset size ih =>
    obtain ⟨below, rest⟩ := has_of_not_refuses has
    rw [base] at lt
    have sum := toNat_add_of_lt (show b.toNat + offset.toNat < 2 ^ 64 by omega)
    rw [granted, cut_of_wraps below wraps]
    exact ih _ _ rest (by omega) (by omega)

theorem leaves_of_wraps (lt : dev.base + b.toNat < 2 ^ 64)
    (wrapped : ¬dev.Unwrapped b.toNat n.toNat) :
    ∃ r ∈ dev.ranges, r.1 + r.2 < dev.base + b.toNat + (dev.granted b n).toNat := by
  induction dev generalizing b n with
  | disk => exact absurd b.isLt wrapped
  | part upstream offset size ih =>
    obtain ⟨below, rest⟩ := has_of_not_refuses has
    rw [base] at lt
    have sum := toNat_add_of_lt (show b.toNat + offset.toNat < 2 ^ 64 by omega)
    by_cases wraps : 2 ^ 64 ≤ b.toNat + n.toNat
    · refine ⟨_, mem_cons_self, ?_⟩
      rw [granted_of_wraps _ b n has (by rw [base]; exact lt) wraps, base]
      omega
    · have cut := toNat_cut below (not_le.mp wraps)
      have outer : ¬upstream.Unwrapped (b + offset).toNat
          (if size ≤ b + n then size - b else n).toNat := by
        rw [sum, cut]
        exact fun unwrapped => wrapped ⟨not_le.mp wraps, unwrapped⟩
      obtain ⟨r, mem, leaves⟩ := ih (b + offset) _ rest (by omega) outer
      refine ⟨r, mem_cons_of_mem _ mem, ?_⟩
      rw [granted, base]
      omega

theorem granted_pos (pos : 0 < n.toNat) : 0 < (dev.granted b n).toNat := by
  induction dev generalizing b n with
  | disk => exact pos
  | part upstream offset size ih =>
    obtain ⟨below, rest⟩ := has_of_not_refuses has
    refine ih _ _ rest ?_
    by_cases wraps : 2 ^ 64 ≤ b.toNat + n.toNat
    · rwa [cut_of_wraps below wraps]
    · rw [toNat_cut below (not_le.mp wraps)]
      omega

/-! ## Requests stay inside -/

theorem inside_iff :
    dev.Inside b ⟨b + BitVec.ofNat 64 dev.base, dev.granted b n⟩ ↔
      n = 0 ∨ dev.Unwrapped b.toNat n.toNat := by
  have start : (b + BitVec.ofNat 64 dev.base).toNat = (dev.base + b.toNat) % 2 ^ 64 := by
    rw [toNat_add, toNat_ofNat]
    omega
  constructor
  · intro inside
    by_cases none : n = 0
    · exact .inl none
    · right
      by_contra wrapped
      have pos := granted_pos dev b n has
        (Nat.pos_of_ne_zero fun zero => none (eq_of_toNat_eq zero))
      have first := inside.shifted 0 pos
      simp only [start, add_zero] at first
      have lt : dev.base + b.toNat < 2 ^ 64 := by
        rw [← first]
        exact Nat.mod_lt _ (by decide)
      obtain ⟨r, mem, leaves⟩ := leaves_of_wraps dev b n has lt wrapped
      have last := (inside.within ((dev.granted b n).toNat - 1) (by dsimp only; omega) r mem).2
      simp only [start] at last
      omega
  · rintro (rfl | unwrapped)
    · rw [granted_zero dev b has]
      exact ⟨by simp, by simp⟩
    · obtain ⟨lt, -, within⟩ := fits_of_unwrapped dev b n has unwrapped
      refine ⟨fun i _ => ?_, fun i count r mem => ?_⟩
      · simp only [start]
        omega
      · obtain ⟨lower, upper⟩ := within r mem
        simp only [start]
        dsimp only at count
        omega

end

theorem confined_request_iff (dev : Blockdev) (b n : Word) :
    dev.Confined failed disk b (dev.request failed disk b n) ↔
      n = 0 ∨ dev.Refuses b.toNat ∨ dev.Unwrapped b.toNat n.toNat := by
  by_cases refuses : dev.Refuses b.toNat
  · exact iff_of_true (.inl (request_of_refuses dev b n refuses)) (.inr (.inl refuses))
  · rw [request_of_not_refuses dev b n refuses]
    constructor
    · rintro (none | ⟨a, same, inside⟩)
      · exact absurd (Prod.mk.inj none).2 (by simp)
      · obtain rfl := singleton_injective (Prod.mk.inj same).2
        exact ((inside_iff dev b n refuses).mp inside).imp id .inr
    · intro condition
      refine .inr ⟨_, rfl, (inside_iff dev b n refuses).mpr ?_⟩
      exact condition.imp id fun rest => rest.resolve_left refuses

/-- In any nest of devices both calls fail or stay inside every device exactly if the request is
empty, or refused on the way, or none of the sums wraps. -/
theorem confined_iff {Data : Type} (disk : Disk Data) (data : Data) (dev : Blockdev)
    (blocknum blocks : Word) :
    dev.Confined none disk.readBlock blocknum (dev.readBlock disk blocknum blocks) ∧
        dev.Confined 0 (disk.writeBlock data) blocknum (dev.writeBlock disk data blocknum blocks) ↔
      blocks = 0 ∨ dev.Refuses blocknum.toNat ∨
        dev.Unwrapped blocknum.toNat blocks.toNat := by
  unfold readBlock writeBlock
  rw [confined_request_iff, confined_request_iff, and_self_iff]

/-- On a partition of ten blocks, `2 ^ 64 - 5` blocks from block 5 on are not cut. -/
theorem not_confined_wrapped :
    ¬(part .disk 100 10).Confined none
      (Disk.readBlock ⟨fun _ _ => some (), fun _ _ n => n⟩) 5
      ((part .disk 100 10).readBlock ⟨fun _ _ => some (), fun _ _ n => n⟩ 5 (-5)) ∧
    ¬(part .disk 100 10).Confined 0
      (Disk.writeBlock ⟨fun _ _ => some (), fun _ _ n => n⟩ ()) 5
      ((part .disk 100 10).writeBlock ⟨fun _ _ => some (), fun _ _ n => n⟩ () 5 (-5)) := by
  have wrapped : ¬((-5 : Word) = 0 ∨ (part .disk 100 10).Refuses (5 : Word).toNat ∨
      (part .disk 100 10).Unwrapped (5 : Word).toNat (-5 : Word).toNat) := by
    rintro (zero | refuses | unwrapped)
    · exact absurd zero (by decide)
    · exact absurd (refuses.resolve_right id) (by decide)
    · exact absurd unwrapped.1 (by decide)
  constructor
  · intro confined
    exact wrapped ((confined_request_iff _ _ _).mp confined)
  · intro confined
    exact wrapped ((confined_request_iff _ _ _).mp confined)

end Blockdev

end JeoKernel.OffsetBlockdev
