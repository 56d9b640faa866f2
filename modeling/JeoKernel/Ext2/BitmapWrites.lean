import JeoKernel.Lib.Bytes
import JeoKernel.Ext2.InodeAlloc

/-!
# Writing the bitmaps back

`GetBitmapWrites` copies every bitmap block that is marked dirty into a new page and asks for the
page to be written; the thread that submits the writes rounds them up to blocks of the device.  A
block is marked when a bit of it becomes set, not when a bit becomes clear, and the place on the
device is a number of device blocks, so that it is right only where a block of the file system starts
with a block of the device.
-/

namespace JeoKernel.Ext2

open List Option Function Machine Bitmap WordBits

/-! ## Bitmaps as bytes -/

/-- Bit `i` of a bitmap that starts at `base`. -/
def bitAt (b : Buffer) (base i : ℕ) : Bool := (b (base + i / 8)).toBitVec.getLsbD (i % 8)

namespace Bitmap

variable {n : ℕ}

/-- The memory from `Pointer()` on; what follows the words is not part of the bitmap. -/
def memory (m : Bitmap n) (behind : Buffer) : Buffer := fun k =>
  match m.words[k / 4]? with
  | some word => .ofBitVec ((word >>> (8 * (k % 4))).setWidth 8)
  | none => behind k

/-- A `little_endian<uint32_t>`. -/
def wordOf (bytes : ℕ → UInt8) : BitVec 32 :=
  (bytes 3).toBitVec ++ (bytes 2).toBitVec ++ (bytes 1).toBitVec ++ (bytes 0).toBitVec

/-- A new bitmap into which the bytes for `n` bits are copied. -/
def load (n blocksize : ℕ) (bytes : Buffer) : Bitmap n :=
  let size := if n % 8 ≠ 0 then n / 8 + 1 else n / 8
  { create n blocksize with
    words := (range (wordCount n)).map fun w =>
      wordOf fun j => if 4 * w + j < size then bytes (4 * w + j) else 0xff
    length_words := by simp }

/-- `GetAndClearDirtyBlocks`: what it returns, and what it leaves. -/
def dirtyBlocks (m : Bitmap n) : List ℕ :=
  (range m.dirty.length).filter fun i => m.dirty.getD i false

def clean (m : Bitmap n) : Bitmap n :=
  { m with
    dirty := m.dirty.map fun _ => false
    length_dirty := by rw [length_map, m.length_dirty] }

end Bitmap

/-! ## The file system -/

/-- The bitmaps of a group. -/
inductive Kind where
  | inode
  | block
  deriving DecidableEq

/-- `ext2blockgroup`. -/
structure Descriptor where
  blockBitmap : ℕ
  inodeBitmap : ℕ
  freeBlocksCount : UInt32
  freeInodesCount : UInt32
  usedDirsCount : UInt32
  deriving DecidableEq

def Descriptor.bitmap (d : Descriptor) : Kind → ℕ
  | .inode => d.inodeBitmap
  | .block => d.blockBitmap

/-- What is fixed when a file system is opened: every bitmap fits in a block of its own. -/
structure Layout where
  log2BlocksizeMinus10 : ℕ
  log2DeviceBlocksize : ℕ
  inodesPerGroup : ℕ
  blocksPerGroup : ℕ
  descriptors : List Descriptor
  inodes_pos : 0 < inodesPerGroup
  blocks_pos : 0 < blocksPerGroup
  inodes_fit : inodesPerGroup ≤ 8 * 2 ^ (10 + log2BlocksizeMinus10)
  blocks_fit : blocksPerGroup ≤ 8 * 2 ^ (10 + log2BlocksizeMinus10)
  distinct : ∀ (g g' : ℕ) (d d' : Descriptor) (k k' : Kind), descriptors[g]? = some d →
    descriptors[g']? = some d' → d.bitmap k = d'.bitmap k' → g = g' ∧ k = k'

namespace Layout

variable (L : Layout)

def blockSize : ℕ := 2 ^ (10 + L.log2BlocksizeMinus10)

def deviceBlocksize : ℕ := 2 ^ L.log2DeviceBlocksize

def bits : Kind → ℕ
  | .inode => L.inodesPerGroup
  | .block => L.blocksPerGroup

def fsBlockToPhysBlock (fsBlock : ℕ) : ℕ := fsBlock * L.blockSize / L.deviceBlocksize

def fsBlockOffsetOnPhys (fsBlock : ℕ) : ℕ := fsBlock * L.blockSize % L.deviceBlocksize

/-- A bitmap as `ReadBlockGroups` reads it. -/
def readBitmap (device : Buffer) (n fsBlock : ℕ) : Bitmap n :=
  .load n L.blockSize fun k =>
    device (L.fsBlockToPhysBlock fsBlock * L.deviceBlocksize + L.fsBlockOffsetOnPhys fsBlock + k)

end Layout

variable {L : Layout}

/-- The groups, with their bitmaps, and the free counts of the superblock. -/
structure Memory (L : Layout) where
  inodes : InodeMap L.inodesPerGroup
  blocks : BlockMap L.blocksPerGroup

namespace Memory

def readBlockGroups (L : Layout) (device : Buffer) (unallocatedInodes unallocatedBlocks : UInt32) :
    Memory L where
  inodes := ⟨unallocatedInodes, L.descriptors.map fun d =>
    ⟨L.readBitmap device L.inodesPerGroup d.inodeBitmap, d.freeInodesCount, d.usedDirsCount, false⟩⟩
  blocks := ⟨unallocatedBlocks, L.descriptors.map fun d =>
    ⟨L.readBitmap device L.blocksPerGroup d.blockBitmap, d.freeBlocksCount, false⟩⟩

def bitmaps (fs : Memory L) : (k : Kind) → List (Bitmap (L.bits k))
  | .inode => fs.inodes.groups.map (·.bitmap)
  | .block => fs.blocks.groups.map (·.bitmap)

def clean (fs : Memory L) : Memory L where
  inodes := { fs.inodes with
    groups := fs.inodes.groups.map fun group => { group with bitmap := group.bitmap.clean } }
  blocks := { fs.blocks with
    groups := fs.blocks.groups.map fun group => { group with bitmap := group.bitmap.clean } }

end Memory

/-- A `dirty_block` with one page, from its start on. -/
structure PageWrite where
  page : Buffer
  blockaddr : ℕ
  length : ℕ

/-- What the memory that is not initialised holds: a new page, and what follows a bitmap. -/
structure Garbage where
  page : Buffer
  behind : Buffer

/-- The write of block `bmBlock` of a bitmap whose first block is `fsBlock`.  A `filepage` has 4096
bytes: larger blocks are copied over its end. -/
def Bitmap.pageWrite {n : ℕ} (L : Layout) (m : Bitmap n) (fsBlock : ℕ) (garbage : Garbage)
    (bmBlock : ℕ) : PageWrite where
  page := garbage.page.write 0
    ((m.memory garbage.behind).read (bmBlock * L.blockSize) L.blockSize)
  blockaddr := L.fsBlockToPhysBlock fsBlock + bmBlock * L.blockSize / L.deviceBlocksize
  length := L.blockSize

def Memory.writesOf (fs : Memory L) (garbage : ℕ → Kind → Garbage) (g : ℕ) (k : Kind) :
    List PageWrite :=
  match L.descriptors[g]?, (fs.bitmaps k)[g]? with
  | some d, some m => m.dirtyBlocks.map (m.pageWrite L (d.bitmap k) (garbage g k))
  | _, _ => []

/-- The result of `GetBitmapWrites`. -/
def Memory.bitmapWrites (fs : Memory L) (garbage : ℕ → Kind → Garbage) : List PageWrite :=
  (range L.descriptors.length).flatMap fun g =>
    fs.writesOf garbage g .inode ++ fs.writesOf garbage g .block

/-- The length that `Submit` writes: whole blocks of the device. -/
def PageWrite.chunkLength (L : Layout) (w : PageWrite) : ℕ :=
  let chunkLength := if w.length < L.deviceBlocksize then L.deviceBlocksize else w.length
  let overshoot := chunkLength % L.deviceBlocksize
  if overshoot ≠ 0 then chunkLength + (L.deviceBlocksize - overshoot) else chunkLength

def PageWrite.apply (L : Layout) (device : Buffer) (w : PageWrite) : Buffer :=
  device.write (w.blockaddr * L.deviceBlocksize) (w.page.read 0 (w.chunkLength L))

/-! ## Runs -/

structure WriteState (L : Layout) where
  memory : Memory L
  device : Buffer
  /-- What `GetBitmapWrites` has returned and is not yet written. -/
  queue : List PageWrite
  /-- The bitmaps at the last `GetBitmapWrites`. -/
  saved : Memory L
  /-- No bitmap operation happened after it. -/
  current : Bool

def WriteState.new (L : Layout) (device : Buffer) (unallocatedInodes unallocatedBlocks : UInt32) :
    WriteState L :=
  let memory := .readBlockGroups L device unallocatedInodes unallocatedBlocks
  ⟨memory, device, [], memory, true⟩

inductive WriteAction where
  | allocateInode
  | releaseInode (inodeNum : ℕ)
  | allocateBlocks (requestedCount : ℕ)
  | releaseBlock (blknum : ℕ)
  | getBitmapWrites (garbage : ℕ → Kind → Garbage)
  /-- `Submit` writes the first of the blocks that it was given. -/
  | submit

def writeExec (s : WriteState L) : WriteAction → Option (WriteState L)
  | .allocateInode =>
    some { s with
      memory := { s.memory with inodes := (Ext2.allocateInode s.memory.inodes).1 }, current := false }
  | .releaseInode inodeNum =>
    some { s with
      memory := { s.memory with inodes := (Ext2.releaseInode s.memory.inodes inodeNum).1 }
      current := false }
  | .allocateBlocks requestedCount =>
    some { s with
      memory := { s.memory with blocks := (Ext2.allocateBlocks s.memory.blocks requestedCount).1 }
      current := false }
  | .releaseBlock blknum =>
    some { s with
      memory := { s.memory with blocks := (Ext2.releaseBlock s.memory.blocks blknum).1 }
      current := false }
  | .getBitmapWrites garbage =>
    some { s with
      memory := s.memory.clean
      queue := s.queue ++ s.memory.bitmapWrites garbage
      saved := s.memory
      current := true }
  | .submit =>
    match s.queue with
    | [] => none
    | w :: queue =>
      -- a longer chunk needs a second page, and there is none
      if w.chunkLength L ≤ 4096 then some { s with device := w.apply L s.device, queue } else none

/-- The bitmap is the one in block `fsBlock` of the device. -/
def Bitmap.Shown {n : ℕ} (L : Layout) (m : Bitmap n) (device : Buffer) (fsBlock : ℕ) : Prop :=
  ∀ i < n, bitAt device (fsBlock * L.blockSize) i = m.get i

/-- Byte `a` of the device is not in a bitmap block. -/
def Layout.Outside (L : Layout) (a : ℕ) : Prop :=
  ∀ d ∈ L.descriptors, ∀ k,
    ¬(d.bitmap k * L.blockSize ≤ a ∧ a < d.bitmap k * L.blockSize + L.blockSize)

/-- Each write that is left can be made, and when everything is written, the device has the bitmaps,
and nothing else has changed. -/
def WriteState.OnDisk (s : WriteState L) (start : Buffer) : Prop :=
  (∀ w ∈ s.queue, w.chunkLength L ≤ 4096) ∧
  (s.queue = [] → s.current = true →
    (∀ k (g : ℕ) d m, L.descriptors[g]? = some d → (s.memory.bitmaps k)[g]? = some m →
      Bitmap.Shown L m s.device (d.bitmap k)) ∧
    ∀ a, L.Outside a → s.device a = start a)

/-- At `GetBitmapWrites` a bitmap in which a bit was cleared is marked dirty, and if anything is, a
block of the file system is not smaller than a block of the device and not larger than a page. -/
def Marked (s : WriteState L) : WriteAction → Prop
  | .getBitmapWrites _ =>
    (∀ k (g : ℕ) (m m' : Bitmap (L.bits k)), (s.memory.bitmaps k)[g]? = some m →
      (s.saved.bitmaps k)[g]? = some m' → true ∉ m.dirty →
      ∀ i < L.bits k, m'.get i = true → m.get i = true) ∧
    ∀ k, ∀ m ∈ s.memory.bitmaps k, true ∈ m.dirty →
      L.deviceBlocksize ≤ L.blockSize ∧ L.blockSize ≤ 4096
  | _ => True

/-! ## Bits and bytes -/

variable {i blockSize : ℕ}

section Bits

variable {n : ℕ}

theorem Bitmap.bitAt_memory (m : Bitmap n) (behind : Buffer) (inside : i < n) :
    bitAt (m.memory behind) 0 i = m.get i := by
  have word := m.words.getElem?_eq_getElem (m.div_lt_length inside)
  rw [bitAt, memory, zero_add, show i / 8 / 4 = i / 32 by omega, word]
  rw [get, bit, getD_eq_getElem?_getD, word, getD_some]
  simp only [BitVec.getLsbD_setWidth, BitVec.getLsbD_ushiftRight]
  rw [show 8 * (i / 8 % 4) + i % 8 = i % 32 by omega, decide_eq_true (Nat.mod_lt i (by decide)),
    Bool.true_and]

theorem Bitmap.getLsbD_wordOf (bytes : ℕ → UInt8) {b : ℕ} (small : b < 32) :
    (Bitmap.wordOf bytes).getLsbD b = (bytes (b / 8)).toBitVec.getLsbD (b % 8) := by
  unfold wordOf
  simp only [BitVec.getLsbD_append]
  have cases : b / 8 = 0 ∨ b / 8 = 1 ∨ b / 8 = 2 ∨ b / 8 = 3 := by omega
  rcases cases with h | h | h | h
  · rw [if_pos (by omega), h, Nat.mod_eq_of_lt (by omega)]
  · rw [if_neg (by omega), if_pos (by omega), h, show b - 8 = b % 8 by omega]
  · rw [if_neg (by omega), if_neg (by omega), if_pos (by omega), h,
      show b - 8 - 8 = b % 8 by omega]
  · rw [if_neg (by omega), if_neg (by omega), if_neg (by omega), h,
      show b - 8 - 8 - 8 = b % 8 by omega]

theorem Bitmap.get_load {blocksize : ℕ} (bytes : Buffer) (inside : i < n) :
    (Bitmap.load n blocksize bytes).get i = bitAt bytes 0 i := by
  have word : i / 32 < wordCount n := by
    unfold wordCount
    split_ifs <;> omega
  have size : i / 8 < if n % 8 ≠ 0 then n / 8 + 1 else n / 8 := by
    split_ifs <;> omega
  rw [get, bit, load]
  simp only [getD_eq_getElem?_getD, getElem?_map, getElem?_range word, map_some, getD_some]
  rw [getLsbD_wordOf _ (Nat.mod_lt i (by decide)),
    show 4 * (i / 32) + i % 32 / 8 = i / 8 by omega, if_pos size, bitAt, zero_add,
    show i % 32 % 8 = i % 8 by omega]

/-- The bitmap fits in one block, and only the flag of this block is ever set. -/
def Bitmap.Tidy (blockSize : ℕ) (m : Bitmap n) : Prop :=
  m.blocksize = blockSize ∧ ∀ j, m.dirty[j]? = some true → j = 0

variable {m : Bitmap n}

theorem Bitmap.Tidy.flag_eq_zero (h : m.Tidy blockSize) (fits : n ≤ 8 * blockSize)
    (inside : i < n) : i / 32 / m.blocksize = 0 := by
  rw [h.1]
  exact Nat.div_eq_of_lt (by omega)

theorem Bitmap.length_dirty_pos (m : Bitmap n) (inside : i < n) : 0 < m.dirty.length := by
  have words := m.div_lt_length inside
  rw [m.length_words] at words
  rw [m.length_dirty]
  have parts := Nat.div_add_mod (wordCount n) m.blocksize
  unfold blockCount
  split_ifs with rest
  · exact Nat.succ_pos _
  · rw [not_not.mp rest] at parts
    exact Nat.pos_of_ne_zero fun zero => by
      rw [zero, Nat.mul_zero] at parts
      omega

theorem Bitmap.tidy_load (bytes : Buffer) :
    (Bitmap.load n blockSize bytes).Tidy blockSize := by
  refine ⟨rfl, fun j set => ?_⟩
  simp [load, create, getElem?_replicate] at set

theorem Bitmap.Tidy.clean (h : m.Tidy blockSize) : m.clean.Tidy blockSize := by
  refine ⟨h.1, fun j set => ?_⟩
  simp [Bitmap.clean, getElem?_replicate] at set

/-- Assignments keep the flags in order, and bits that a bitmap without a flag has set were set. -/
theorem Bitmap.Edited.tidy {m m' : Bitmap n} (edited : m.Edited m') (fits : n ≤ 8 * blockSize)
    (h : m.Tidy blockSize) : m'.Tidy blockSize := by
  induction edited with
  | refl => exact h
  | @set m' i value _ inside ih =>
    refine ⟨ih.1, fun j set => ?_⟩
    simp only [Bitmap.set] at set
    split_ifs at set with new
    · rw [ih.flag_eq_zero fits inside, getElem?_set] at set
      split_ifs at set with here
      · exact here.symm
      · exact ih.2 j set
    · exact ih.2 j set

theorem Bitmap.Tidy.mem_dirtyBlocks {bm : ℕ} (h : m.Tidy blockSize) (mem : bm ∈ m.dirtyBlocks) :
    bm = 0 ∧ true ∈ m.dirty := by
  obtain ⟨range, set⟩ := mem_filter.mp mem
  have bound := List.mem_range.mp range
  rw [getD_eq_getElem?_getD, List.getElem?_eq_getElem bound, getD_some] at set
  have here : m.dirty[bm]? = some true := by rw [List.getElem?_eq_getElem bound, set]
  exact ⟨h.2 bm here, mem_of_getElem? here⟩

theorem Bitmap.Tidy.zero_mem_dirtyBlocks (h : m.Tidy blockSize) (dirty : true ∈ m.dirty) :
    0 ∈ m.dirtyBlocks := by
  obtain ⟨j, bound, set⟩ := mem_iff_getElem.mp dirty
  have here : m.dirty[j]? = some true := by rw [List.getElem?_eq_getElem bound, set]
  obtain rfl := h.2 j here
  refine mem_filter.mpr ⟨List.mem_range.mpr bound, ?_⟩
  rw [getD_eq_getElem?_getD, here, getD_some]

/-- Where no flag is set, no bit has become set. -/
def Bitmap.Grown (old m : Bitmap n) : Prop :=
  true ∉ m.dirty → ∀ i < n, m.get i = true → old.get i = true

theorem Bitmap.Edited.grown {old m m' : Bitmap n} (edited : m.Edited m') (fits : n ≤ 8 * blockSize)
    (tidy : m.Tidy blockSize) (h : old.Grown m) : old.Grown m' := by
  induction edited with
  | refl => exact h
  | @set m' i value before inside ih =>
    intro unmarked j bound now
    rw [get_set m' inside] at now
    have first := (before.tidy fits tidy).flag_eq_zero fits inside
    simp only [Bitmap.set] at unmarked
    split_ifs at unmarked with new
    · exact absurd (first ▸ mem_set (m'.length_dirty_pos inside) true) unmarked
    · -- the assignment has not changed a word, or has cleared a bit
      have was : m'.get j = true := by
        by_cases here : i = j
        · rw [if_pos here] at now
          subst here
          have same : setBit m'.words i value = m'.words := by
            by_contra changed
            exact new ⟨now, changed⟩
          have := m'.get_set inside value i
          rw [if_pos rfl] at this
          change bit (setBit m'.words i value) i = value at this
          rw [same] at this
          exact this.trans now
        · rwa [if_neg here] at now
      exact ih unmarked j bound was

end Bits

/-! ## Places on the device -/

theorem Layout.bits_le (L : Layout) : ∀ k, L.bits k ≤ 8 * L.blockSize
  | .inode => L.inodes_fit
  | .block => L.blocks_fit

theorem Layout.blockSize_pos (L : Layout) : 0 < L.blockSize := Nat.two_pow_pos _

theorem Layout.deviceBlocksize_dvd (small : L.deviceBlocksize ≤ L.blockSize) :
    L.deviceBlocksize ∣ L.blockSize :=
  Nat.pow_dvd_pow 2 ((Nat.pow_le_pow_iff_right (by decide)).mp small)

theorem Layout.shown_readBitmap (L : Layout) (device : Buffer) (n fsBlock : ℕ) :
    Bitmap.Shown L (L.readBitmap device n fsBlock) device fsBlock := by
  intro i inside
  rw [Layout.readBitmap, get_load _ inside, bitAt, bitAt, zero_add]
  have whole : L.fsBlockToPhysBlock fsBlock * L.deviceBlocksize + L.fsBlockOffsetOnPhys fsBlock =
      fsBlock * L.blockSize := by
    rw [mul_comm]
    exact Nat.div_add_mod ..
  rw [whole]

variable {w : PageWrite}

open PageWrite

theorem PageWrite.chunkLength_eq (small : L.deviceBlocksize ≤ w.length)
    (whole : w.length % L.deviceBlocksize = 0) : w.chunkLength L = w.length := by
  simp only [chunkLength, if_neg (Nat.not_lt.mpr small), whole]
  exact if_neg (by simp)

def PageWrite.Covers (L : Layout) (w : PageWrite) (a : ℕ) : Prop :=
  w.blockaddr * L.deviceBlocksize ≤ a ∧ a < w.blockaddr * L.deviceBlocksize + w.chunkLength L

variable {a : ℕ}

theorem PageWrite.apply_of_covers (device : Buffer) (covers : w.Covers L a) :
    w.apply L device a = w.page (a - w.blockaddr * L.deviceBlocksize) := by
  have inside : a - w.blockaddr * L.deviceBlocksize < w.chunkLength L := by
    have := covers.1
    have := covers.2
    omega
  rw [apply, Buffer.write, if_pos (by simpa [PageWrite.Covers] using covers), Buffer.read,
    getD_eq_getElem?_getD, getElem?_map, getElem?_range inside, map_some, getD_some, zero_add]

theorem PageWrite.apply_of_not_covers (device : Buffer) (apart : ¬w.Covers L a) :
    w.apply L device a = device a := by
  rw [apply, Buffer.write, if_neg (by simpa [PageWrite.Covers] using apart)]

/-- What holds of the byte that each write stores, and of the byte before if there is none, holds of
the byte after all writes. -/
theorem foldl_apply {P : UInt8 → Prop} (ws : List PageWrite) (device : Buffer)
    (stored : ∀ w ∈ ws, w.Covers L a → P (w.page (a - w.blockaddr * L.deviceBlocksize)))
    (before : P (device a) ∨ ∃ w ∈ ws, w.Covers L a) :
    P (ws.foldl (PageWrite.apply L) device a) := by
  induction ws generalizing device with
  | nil => exact before.resolve_right (by simp)
  | cons w ws ih =>
    refine ih (w.apply L device) (fun w' mem => stored w' (mem_cons_of_mem _ mem)) ?_
    by_cases covers : w.Covers L a
    · left
      rw [apply_of_covers device covers]
      exact stored w mem_cons_self covers
    · rw [apply_of_not_covers device covers]
      refine before.imp_right ?_
      rintro ⟨w', mem, covers'⟩
      rcases mem_cons.mp mem with rfl | later
      · exact absurd covers' covers
      · exact ⟨w', later, covers'⟩

section PageWrite

variable {n : ℕ} (m : Bitmap n) (fsBlock : ℕ) (garbage : Garbage)
  (small : L.deviceBlocksize ≤ L.blockSize)

include small

theorem Bitmap.start_pageWrite :
    (m.pageWrite L fsBlock garbage 0).blockaddr * L.deviceBlocksize = fsBlock * L.blockSize := by
  have whole := L.deviceBlocksize_dvd small
  simp only [pageWrite, Nat.zero_mul, Nat.zero_div, add_zero]
  exact Nat.div_mul_cancel (Nat.dvd_mul_left_of_dvd whole _)

theorem Bitmap.chunkLength_pageWrite :
    (m.pageWrite L fsBlock garbage 0).chunkLength L = L.blockSize := by
  exact chunkLength_eq small (Nat.mod_eq_zero_of_dvd (L.deviceBlocksize_dvd small))

theorem Bitmap.covers_pageWrite : (m.pageWrite L fsBlock garbage 0).Covers L a ↔
    fsBlock * L.blockSize ≤ a ∧ a < fsBlock * L.blockSize + L.blockSize := by
  rw [PageWrite.Covers, m.start_pageWrite fsBlock garbage small,
    m.chunkLength_pageWrite fsBlock garbage small]

omit small in
theorem Bitmap.page_pageWrite {k : ℕ} (inside : k < L.blockSize) :
    (m.pageWrite L fsBlock garbage 0).page k = m.memory garbage.behind k := by
  simp only [pageWrite, Buffer.write, Buffer.length_read, Nat.zero_mul]
  rw [if_pos (by omega), Buffer.read, getD_eq_getElem?_getD, getElem?_map, Nat.sub_zero,
    getElem?_range inside, map_some, getD_some, zero_add]

end PageWrite

open Memory

variable {garbage : ℕ → Kind → Garbage}

theorem Memory.mem_bitmapWrites {fs : Memory L} :
    w ∈ fs.bitmapWrites garbage ↔ ∃ k, ∃ g d m, L.descriptors[g]? = some d ∧
      (fs.bitmaps k)[g]? = some m ∧ ∃ bm ∈ Bitmap.dirtyBlocks m,
        w = m.pageWrite L (d.bitmap k) (garbage g k) bm := by
  have writes (g : ℕ) (k : Kind) : w ∈ fs.writesOf garbage g k ↔ ∃ d m, L.descriptors[g]? = some d ∧
      (fs.bitmaps k)[g]? = some m ∧ ∃ bm ∈ dirtyBlocks m,
        w = m.pageWrite L (d.bitmap k) (garbage g k) bm := by
    unfold writesOf
    split
    case h_1 d m at_d at_m => simp [at_d, at_m, eq_comm]
    case h_2 none =>
      refine iff_of_false not_mem_nil ?_
      rintro ⟨d, m, at_d, at_m, -⟩
      exact none d m at_d at_m
  simp only [bitmapWrites, mem_flatMap, mem_append, writes]
  constructor
  · rintro ⟨g, -, h | h⟩
    · exact ⟨.inode, g, h⟩
    · exact ⟨.block, g, h⟩
  · rintro ⟨k, g, d, m, at_d, rest⟩
    refine ⟨g, List.mem_range.mpr (List.getElem?_eq_some_iff.mp at_d).1, ?_⟩
    cases k
    · exact .inl ⟨d, m, at_d, rest⟩
    · exact .inr ⟨d, m, at_d, rest⟩

/-! ## Every run -/

/-- The device when everything that is queued is written. -/
def WriteState.applied (s : WriteState L) : Buffer := s.queue.foldl (PageWrite.apply L) s.device

structure WriteInv (start : Buffer) (s : WriteState L) : Prop where
  length : ∀ k, (s.memory.bitmaps k).length = (s.saved.bitmaps k).length
  tidy : ∀ k, ∀ m ∈ s.memory.bitmaps k, Bitmap.Tidy L.blockSize m
  grown : ∀ k (g : ℕ) (m m' : Bitmap (L.bits k)), (s.memory.bitmaps k)[g]? = some m →
    (s.saved.bitmaps k)[g]? = some m' → m'.Grown m
  shown : ∀ k (g : ℕ) d m, L.descriptors[g]? = some d → (s.saved.bitmaps k)[g]? = some m →
    Bitmap.Shown L m s.applied (d.bitmap k)
  outside : ∀ a, L.Outside a → s.applied a = start a
  fits : ∀ w ∈ s.queue, w.chunkLength L ≤ 4096
  current : s.current = true → ∀ k (g : ℕ) (m m' : Bitmap (L.bits k)),
    (s.memory.bitmaps k)[g]? = some m → (s.saved.bitmaps k)[g]? = some m' →
    ∀ i, m.get i = m'.get i

theorem Memory.bitmaps_clean (fs : Memory L) (k : Kind) :
    fs.clean.bitmaps k = (fs.bitmaps k).map Bitmap.clean := by
  have inodes : fs.clean.inodes.groups.map (·.bitmap) =
      (fs.inodes.groups.map (·.bitmap)).map Bitmap.clean := by
    simp [clean, comp_def]
  have blocks : fs.clean.blocks.groups.map (·.bitmap) =
      (fs.blocks.groups.map (·.bitmap)).map Bitmap.clean := by
    simp [clean, comp_def]
  cases k
  · exact inodes
  · exact blocks

theorem Memory.bitmaps_readBlockGroups (device : Buffer) (u v : UInt32) (k : Kind) :
    (Memory.readBlockGroups L device u v).bitmaps k =
      L.descriptors.map fun d => L.readBitmap device (L.bits k) (d.bitmap k) := by
  cases k <;> exact map_map

/-- The bitmaps of one kind are edited, those of the other are left alone. -/
theorem Memory.edited_inodes (fs : Memory L) {inodes : InodeMap L.inodesPerGroup}
    (edited : Forall₂ (fun g g' => g.bitmap.Edited g'.bitmap) fs.inodes.groups inodes.groups) :
    ∀ k, Forall₂ Bitmap.Edited (fs.bitmaps k) (Memory.bitmaps { fs with inodes } k)
  | .inode => forall₂_map_left_iff.mpr (forall₂_map_right_iff.mpr edited)
  | .block => forall₂_same.mpr fun _ _ => .refl

theorem Memory.edited_blocks (fs : Memory L) {blocks : BlockMap L.blocksPerGroup}
    (edited : Forall₂ (fun g g' => g.bitmap.Edited g'.bitmap) fs.blocks.groups blocks.groups) :
    ∀ k, Forall₂ Bitmap.Edited (fs.bitmaps k) (Memory.bitmaps { fs with blocks } k)
  | .inode => forall₂_same.mpr fun _ _ => .refl
  | .block => forall₂_map_left_iff.mpr (forall₂_map_right_iff.mpr edited)

section Steps

variable {start : Buffer} {s : WriteState L} (h : WriteInv start s)
include h

theorem WriteInv.edit {fs : Memory L}
    (edited : ∀ k, Forall₂ Bitmap.Edited (s.memory.bitmaps k) (fs.bitmaps k)) :
    WriteInv start { s with memory := fs, current := false } where
  length k := (edited k).length_eq.symm.trans (h.length k)
  tidy k m mem := by
    obtain ⟨g, at_g⟩ := mem_iff_getElem?.mp mem
    obtain ⟨m₀, at_g', edit⟩ := Pointwise.getElem?_right (edited k) at_g
    exact edit.tidy (L.bits_le k) (h.tidy k m₀ (mem_of_getElem? at_g'))
  grown k g m m' at_g saved := by
    obtain ⟨m₀, at_g', edit⟩ := Pointwise.getElem?_right (edited k) at_g
    exact edit.grown (L.bits_le k) (h.tidy k m₀ (mem_of_getElem? at_g'))
      (h.grown k g m₀ m' at_g' saved)
  __ := h
  current := nofun

section

variable (marked : Marked s (.getBitmapWrites garbage))

include marked

/-- Each write is that of a whole bitmap block, which is not larger than a page. -/
theorem WriteInv.eq_pageWrite (mem : w ∈ s.memory.bitmapWrites garbage) :
    ∃ k, ∃ g d m, L.descriptors[g]? = some d ∧ (s.memory.bitmaps k)[g]? = some m ∧
      (L.deviceBlocksize ≤ L.blockSize ∧ L.blockSize ≤ 4096) ∧
      w = Bitmap.pageWrite L m (d.bitmap k) (garbage g k) 0 := by
  obtain ⟨k, g, d, m, at_d, at_m, bm, dirty, rfl⟩ := mem_bitmapWrites.mp mem
  have listed := mem_of_getElem? at_m
  obtain ⟨rfl, flag⟩ := (h.tidy k m listed).mem_dirtyBlocks dirty
  exact ⟨k, g, d, m, at_d, at_m, marked.2 k m listed flag, rfl⟩

theorem WriteInv.fits_emit (mem : w ∈ s.memory.bitmapWrites garbage) : w.chunkLength L ≤ 4096 := by
  obtain ⟨k, g, d, m, -, -, ⟨small, page⟩, rfl⟩ := h.eq_pageWrite marked mem
  exact (m.chunkLength_pageWrite (d.bitmap k) (garbage g k) small).trans_le page

/-- A write that covers a byte of a bitmap block stores the byte of that bitmap. -/
theorem WriteInv.stored (mem : w ∈ s.memory.bitmapWrites garbage) (covers : w.Covers L a) :
    ∃ k, ∃ g d m, L.descriptors[g]? = some d ∧
      (s.memory.bitmaps k)[g]? = some m ∧
      (d.bitmap k * L.blockSize ≤ a ∧ a < d.bitmap k * L.blockSize + L.blockSize) ∧
      w.page (a - w.blockaddr * L.deviceBlocksize) =
        Bitmap.memory m (garbage g k).behind (a - d.bitmap k * L.blockSize) := by
  obtain ⟨k, g, d, m, at_d, at_m, ⟨small, -⟩, rfl⟩ := h.eq_pageWrite marked mem
  have here := (m.covers_pageWrite (d.bitmap k) (garbage g k) small).mp covers
  refine ⟨k, g, d, m, at_d, at_m, here, ?_⟩
  rw [m.start_pageWrite (d.bitmap k) (garbage g k) small,
    m.page_pageWrite (d.bitmap k) (garbage g k) (by omega)]

/-- After `GetBitmapWrites` the writes that are queued bring every bitmap to the device. -/
theorem WriteInv.shown_emit {k : Kind} {g : ℕ} {d : Descriptor} {m : Bitmap (L.bits k)}
    (at_d : L.descriptors[g]? = some d) (at_m : (s.memory.bitmaps k)[g]? = some m) :
    m.Shown L ((s.memory.bitmapWrites garbage).foldl (PageWrite.apply L) s.applied) (d.bitmap k) := by
  intro i inside
  have fits := L.bits_le k
  refine foldl_apply (P := fun byte => byte.toBitVec.getLsbD (i % 8) = m.get i) _ _ ?_ ?_
  · intro w mem covers
    obtain ⟨k', g', d', m', at_d', at_m', here, page⟩ := h.stored marked mem covers
    -- the byte is in one bitmap block only
    have same : d.bitmap k = d'.bitmap k' := by
      have low : d.bitmap k * L.blockSize < (d'.bitmap k' + 1) * L.blockSize := by
        rw [Nat.succ_mul]
        omega
      have high : d'.bitmap k' * L.blockSize < (d.bitmap k + 1) * L.blockSize := by
        rw [Nat.succ_mul]
        omega
      have := Nat.lt_of_mul_lt_mul_right low
      have := Nat.lt_of_mul_lt_mul_right high
      omega
    obtain ⟨rfl, rfl⟩ := L.distinct g g' d d' k k' at_d at_d' same
    obtain rfl := some.inj (at_d.symm.trans at_d')
    obtain rfl := some.inj (at_m.symm.trans at_m')
    rw [page, Nat.add_sub_cancel_left]
    have bit := m.bitAt_memory (garbage g k).behind inside
    rwa [bitAt, zero_add] at bit
  · by_cases flag : true ∈ m.dirty
    · have listed := mem_of_getElem? at_m
      have small := (marked.2 k m listed flag).1
      have first := (h.tidy k m listed).zero_mem_dirtyBlocks flag
      refine .inr ⟨_, mem_bitmapWrites.mpr ⟨k, g, d, m, at_d, at_m, 0, first, rfl⟩, ?_⟩
      exact (m.covers_pageWrite (d.bitmap k) (garbage g k) small).mpr ⟨by omega, by omega⟩
    · left
      have bound : g < (s.saved.bitmaps k).length := by
        rw [← h.length k]
        exact (List.getElem?_eq_some_iff.mp at_m).1
      have saved := List.getElem?_eq_getElem bound
      have before := h.shown k g d _ at_d saved i inside
      rw [bitAt] at before
      rw [before, Bool.eq_iff_iff]
      exact ⟨marked.1 k g m _ at_m saved flag i inside, h.grown k g m _ at_m saved flag i inside⟩

theorem WriteInv.emit :
    WriteInv start { s with
      memory := s.memory.clean
      queue := s.queue ++ s.memory.bitmapWrites garbage
      saved := s.memory
      current := true } := by
  have applied : WriteState.applied { s with
      memory := s.memory.clean
      queue := s.queue ++ s.memory.bitmapWrites garbage
      saved := s.memory
      current := true } =
      (s.memory.bitmapWrites garbage).foldl (apply L) s.applied :=
    foldl_append
  have cleaned (k : Kind) (g : ℕ) (m m' : Bitmap (L.bits k))
      (at_m : (s.memory.clean.bitmaps k)[g]? = some m) (at_m' : (s.memory.bitmaps k)[g]? = some m') :
      m = m'.clean := by
    rw [bitmaps_clean, getElem?_map, at_m', map_some] at at_m
    exact (some.inj at_m).symm
  refine ⟨fun k => ?_, fun k m mem => ?_, fun k g m m' at_m at_m' => ?_,
    fun k g d m at_d at_m => ?_, fun a out => ?_, forall_mem_append.mpr ⟨h.fits, fun w mem => ?_⟩,
    fun _ k g m m' at_m at_m' => ?_⟩
  · rw [bitmaps_clean, length_map]
  · rw [bitmaps_clean] at mem
    obtain ⟨m₀, mem₀, rfl⟩ := mem_map.mp mem
    exact (h.tidy k m₀ mem₀).clean
  · obtain rfl := cleaned k g m m' at_m at_m'
    exact fun _ _ _ set => set
  · rw [applied]
    exact h.shown_emit marked at_d at_m
  · rw [applied]
    refine foldl_apply (P := fun byte => byte = start a) _ _ ?_ (.inl (h.outside a out))
    intro w mem covers
    obtain ⟨k, g, d, m, at_d, -, here, -⟩ := h.stored marked mem covers
    exact absurd here (out d (mem_of_getElem? at_d) k)
  · exact h.fits_emit marked mem
  · obtain rfl := cleaned k g m m' at_m at_m'
    exact fun i => rfl

end

end Steps

theorem writeInv_new (L : Layout) (device : Buffer) (unallocatedInodes unallocatedBlocks : UInt32) :
    WriteInv device (WriteState.new L device unallocatedInodes unallocatedBlocks) := by
  have loaded := bitmaps_readBlockGroups (L := L) device unallocatedInodes unallocatedBlocks
  unfold WriteState.new
  refine ⟨fun k => rfl, fun k m mem => ?_, fun k g m m' at_m at_m' => ?_,
    fun k g d m at_d at_m => ?_, fun a _ => rfl, by simp, fun _ k g m m' at_m at_m' => ?_⟩
  · rw [loaded k] at mem
    obtain ⟨d, -, rfl⟩ := mem_map.mp mem
    exact tidy_load _
  · obtain rfl := some.inj (at_m.symm.trans at_m')
    exact fun _ _ _ set => set
  · rw [loaded k, getElem?_map, at_d, map_some] at at_m
    cases at_m
    exact L.shown_readBitmap device _ _
  · obtain rfl := some.inj (at_m.symm.trans at_m')
    exact fun i => rfl

theorem WriteInv.step {start : Buffer} {s t : WriteState L} {x : WriteAction} (h : WriteInv start s)
    (marked : Marked s x) (step : writeExec s x = some t) : WriteInv start t := by
  cases x with
  | allocateInode =>
    cases step
    exact h.edit (s.memory.edited_inodes (allocateInode_edited _))
  | releaseInode inodeNum =>
    cases step
    exact h.edit (s.memory.edited_inodes (releaseInode_edited L.inodes_pos _ inodeNum))
  | allocateBlocks requestedCount =>
    cases step
    exact h.edit (s.memory.edited_blocks (allocateBlocks_edited _ requestedCount))
  | releaseBlock blknum =>
    cases step
    exact h.edit (s.memory.edited_blocks (releaseBlock_edited L.blocks_pos _ blknum))
  | getBitmapWrites garbage =>
    cases step
    exact h.emit marked
  | submit =>
    unfold writeExec at step
    dsimp only at step
    split at step
    · cases step
    · rename_i w queue waiting
      obtain ⟨-, ⟨⟩⟩ := ite_none_right_eq_some.mp step
      have same : WriteState.applied { s with device := w.apply L s.device, queue } = s.applied := by
        unfold WriteState.applied
        rw [waiting, foldl_cons]
      exact { h with
        shown := fun k g d m at_d at_m => same ▸ h.shown k g d m at_d at_m
        outside := fun a out => same ▸ h.outside a out
        fits := fun w' mem => h.fits w' (waiting ▸ mem_cons_of_mem _ mem) }

/-- When everything that was returned is written, the device has the bitmaps. -/
theorem onDisk_of_marked {device : Buffer} {unallocatedInodes unallocatedBlocks : UInt32}
    {xs : List WriteAction} {s : WriteState L}
    (run : RunWhen Marked writeExec (.new L device unallocatedInodes unallocatedBlocks) xs s) :
    s.OnDisk device := by
  have inv := run.invariant (fun _ _ _ inv marked step => WriteInv.step inv marked step)
    (writeInv_new L device unallocatedInodes unallocatedBlocks)
  refine ⟨inv.fits, fun written current => ?_⟩
  have applied : s.applied = s.device := by rw [WriteState.applied, written, foldl_nil]
  refine ⟨fun k g d m at_d at_m i inside => ?_, fun a out => ?_⟩
  · have bound : g < (s.saved.bitmaps k).length := by
      rw [← inv.length k]
      exact (List.getElem?_eq_some_iff.mp at_m).1
    have saved := List.getElem?_eq_getElem bound
    rw [← applied, inv.shown k g d _ at_d saved i inside]
    exact (inv.current current k g m _ at_m saved i).symm
  · rw [← applied]
    exact inv.outside a out

/-- One group with 8 inodes and 8 blocks, whose bitmaps are blocks 4 and 3. -/
def oneGroup : Layout where
  log2BlocksizeMinus10 := 0
  log2DeviceBlocksize := 9
  inodesPerGroup := 8
  blocksPerGroup := 8
  descriptors := [⟨3, 4, 8, 8, 0⟩]
  inodes_pos := by decide
  blocks_pos := by decide
  inodes_fit := by decide
  blocks_fit := by decide
  distinct := by
    intro g g' d d' k k' at_d at_d' same
    simp only [getElem?_singleton, ite_none_right_eq_some, some.injEq] at at_d at_d'
    obtain ⟨rfl, rfl⟩ := at_d
    obtain ⟨rfl, rfl⟩ := at_d'
    refine ⟨rfl, ?_⟩
    cases k <;> cases k' <;> simp [Descriptor.bitmap] at same ⊢

def zeros : Garbage := ⟨fun _ => 0, fun _ => 0⟩

/-- An inode is allocated, and its bit reaches the device. -/
theorem onDisk_allocateInode : ∃ s, RunWhen Marked writeExec (.new oneGroup (fun _ => 0) 8 8)
      [.allocateInode, .getBitmapWrites fun _ _ => zeros, .submit] s ∧
    s.queue = [] ∧ bitAt s.device (4 * 1024) 0 = true ∧ s.OnDisk fun _ => 0 := by
  refine RunWhen.reaches (.cons trivial rfl (.cons ⟨?_, ?_⟩ rfl (.cons trivial rfl (.nil _))))
    fun run => ⟨rfl, ?_, onDisk_of_marked run⟩
  · intro k g m m' at_m at_m' unmarked i inside set
    cases k with
    | inode =>
      obtain _ | g := g
      · cases at_m
        exact absurd (by decide +kernel) unmarked
      · cases at_m
    | block =>
      obtain rfl := some.inj (at_m.symm.trans at_m')
      exact set
  · exact fun _ _ _ _ => by decide
  · decide +kernel

/-- An inode is allocated and written, and released; nothing is marked then. -/
theorem not_onDisk_releaseInode : ∃ s, Run writeExec (.new oneGroup (fun _ => 0) 8 8)
      [.allocateInode, .getBitmapWrites fun _ _ => zeros, .submit, .releaseInode 1,
        .getBitmapWrites fun _ _ => zeros] s ∧
    s.queue = [] ∧ ¬s.OnDisk fun _ => 0 := by
  refine ⟨_, .of_foldlM rfl, rfl, fun onDisk => ?_⟩
  have shown := (onDisk.2 rfl rfl).1 .inode 0 _ _ rfl rfl 0 (by decide)
  revert shown
  decide +kernel

end JeoKernel.Ext2
