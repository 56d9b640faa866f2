import JeoKernel.Lib.Pointwise
import JeoKernel.Ext2.Inode

/-!
# Reading a file

`LoadInode` flattens the three levels of block pointers into the list `blockRefs` and leaves out the
pointers that are zero.  `ReadBytes` goes through pages of 4096 bytes; `ReadBlocks` puts a page
together from the blocks at the positions of `blockRefs`, read as blocks of the device.

The block map of an inode lists the pointer of every logical block, zero for a hole.
-/

namespace JeoKernel.Ext2

open List hiding Vector

/-! ## Reading blocks -/

/-- The blocks of the device that `ReadBlocks` reads for a block. -/
structure PhysRead where
  physBlock : ℕ
  physBlocks : ℕ
  offset : ℕ
  length : ℕ

def InodeTable.physRead (fs : InodeTable) (fsBlock : UInt32) (first last : Bool)
    (startingOffset lastBlockLength : ℕ) : PhysRead :=
  let startingAddr := fsBlock.toNat * fs.blockSize + if first then startingOffset else 0
  let endingOffset :=
    if last then startingAddr + lastBlockLength else (fsBlock + 1).toNat * fs.blockSize
  let physBlock := startingAddr / fs.devBlocksize
  let offset := startingAddr % fs.devBlocksize
  let length := (endingOffset + (2 ^ 64 - physBlock * fs.devBlocksize)) % 2 ^ 64
  { physBlock
    physBlocks := (if length % fs.devBlocksize ≠ 0 then length / fs.devBlocksize + 1
      else length / fs.devBlocksize) % 2 ^ 32
    offset
    length := (length + (2 ^ 64 - offset)) % 2 ^ 32 }

/-- The device blocks, with the block moved to their start. -/
def InodeTable.readOne (fs : InodeTable) (r : PhysRead) : Option Buffer :=
  (fs.readBlock r.physBlock r.physBlocks).map fun buffer =>
    if r.offset ≠ 0 then buffer.write 0 (buffer.read r.offset fs.blockSize) else buffer

/-- The first loop of `ReadBlocks`, over the blocks that the file has, from the `k`-th one on. -/
def InodeTable.readEach (fs : InodeTable) (numBlocks startingOffset lastBlockLength : ℕ) :
    ℕ → List UInt32 → Except FilesystemStatus (List Buffer)
  | _, [] => .ok []
  | k, fsBlock :: fsBlocks =>
    if fsBlock = 0 then .error .notSupportedFsFeature
    else
      match fs.readOne
        (fs.physRead fsBlock (k = 0) (k + 1 = numBlocks) startingOffset lastBlockLength) with
      | none => .error .ioError
      | some buffer =>
        (readEach fs numBlocks startingOffset lastBlockLength (k + 1) fsBlocks).map (buffer :: ·)

/-- The second and the third copy of `ReadBlocks`. -/
def assembleRest (blocksize lastBlockLength : ℕ) (final : Buffer) (offset : ℕ) :
    List Buffer → Buffer
  | [] => final
  | [last] => final.write offset (last.read 0 lastBlockLength)
  | block :: blocks =>
    assembleRest blocksize lastBlockLength (final.write offset (block.read 0 blocksize))
      (offset + blocksize) blocks

def assemble (blocksize length firstReadLength lastBlockLength : ℕ) : List Buffer → Buffer
  | [] => fun _ => 0
  | first :: blocks =>
    assembleRest blocksize lastBlockLength
      (Buffer.write (fun _ => 0) 0 (first.read 0 (min firstReadLength length))) firstReadLength blocks

/-- `ReadBlocks`, for an inode with these `blockRefs`. -/
def InodeTable.readBlocks (fs : InodeTable) (blockRefs : List UInt32)
    (startingBlock startingOffset length : ℕ) : Except FilesystemStatus Buffer :=
  let startingBlock := startingBlock + startingOffset / fs.blockSize
  let startingOffset := startingOffset % fs.blockSize
  let total := startingOffset + length
  let lastBlockLength := if total % fs.blockSize = 0 then fs.blockSize else total % fs.blockSize
  let numBlocks := (total + (fs.blockSize - lastBlockLength)) / fs.blockSize
  let firstReadLength := match blockRefs[startingBlock]? with
    | some fsBlock =>
      (fs.physRead fsBlock true (1 = numBlocks) startingOffset lastBlockLength).length
    | none => 0
  (fs.readEach numBlocks startingOffset lastBlockLength 0
    ((blockRefs.drop startingBlock).take numBlocks)).map
      (assemble fs.blockSize length firstReadLength lastBlockLength)

/-! ## Reading bytes -/

/-- `ReadBlock`: page `blki`, and the inode with the page in its cache. -/
def Inode.readBlock (fs : InodeTable) (inode : Inode) (blki : ℕ) :
    Inode × Except FilesystemStatus Buffer :=
  match inode.blockCache[blki]? with
  | none => (inode, .error .invalidRequest)
  | some (some page) => (inode, .ok page)
  | some none =>
    match fs.readBlocks inode.blockRefs (blki * 4096 / fs.blockSize) (blki * 4096 % fs.blockSize)
      4096 with
    | .ok page => ({ inode with blockCache := inode.blockCache.set blki (some page) }, .ok page)
    | .error _ => (inode, .error .ioError)

/-- The loop of `ReadBytes`: the bytes that it copies from `vec` on. -/
def Inode.readLoop (fs : InodeTable) (offset length : ℕ) (inode : Inode) (vec : ℕ) :
    Inode × List UInt8 × FilesystemStatus :=
  if _ : vec < length then
    let cur := (offset + vec) % 2 ^ 64
    let blklen := min (min 4096 (length - vec)) (4096 - cur % 4096)
    match inode.readBlock fs (cur / 4096) with
    | (inode, .ok page) =>
      let (inode, bytes, status) := readLoop fs offset length inode (vec + blklen)
      (inode, page.read (cur % 4096) blklen ++ bytes, status)
    | (inode, .error status) => (inode, [], status)
  else (inode, [], .success)
termination_by length - vec
decreasing_by omega

/-- `ReadBytes`, with the bytes it copies; the size it returns is their number. -/
def Inode.readBytes (fs : InodeTable) (inode : Inode) (offset length : UInt64) :
    Inode × List UInt8 × FilesystemStatus :=
  if inode.filesize.toNat < (offset.toNat + length.toNat) % 2 ^ 64 then
    if inode.filesize ≤ offset then (inode, [], .success)
    else inode.readLoop fs offset.toNat (inode.filesize.toNat - offset.toNat) 0
  else inode.readLoop fs offset.toNat length.toNat 0

def Inode.after (fs : InodeTable) (inode : Inode) (earlier : List (UInt64 × UInt64)) : Inode :=
  earlier.foldl (fun inode call => (inode.readBytes fs call.1 call.2).1) inode

/-! ## The block map -/

/-- The pointers in an indirect block; there are only holes below a pointer that is zero. -/
def pointersIn (device : Buffer) (blockSize : ℕ) (block : UInt32) : List UInt32 :=
  (List.range (blockSize / 4)).map fun i =>
    if block = 0 then 0
    else .ofNat (Record.leValue (device.read (block.toNat * blockSize + 4 * i) 4))

theorem indirect_lt : 12 < 15 := by decide

theorem doubleIndirect_lt : 13 < 15 := by decide

abbrev RawInode.indirect (raw : RawInode) : UInt32 := getElem raw.block 12 indirect_lt

abbrev RawInode.doubleIndirect (raw : RawInode) : UInt32 := getElem raw.block 13 doubleIndirect_lt

/-- The pointer of every logical block. -/
def RawInode.blockMap (raw : RawInode) (device : Buffer) (blockSize : ℕ) : List UInt32 :=
  raw.block.toList.take 12 ++ pointersIn device blockSize raw.indirect ++
    (pointersIn device blockSize raw.doubleIndirect).flatMap (pointersIn device blockSize)

/-- The byte at offset `o` of a file with the block map `refs`. -/
def byteAt (device : Buffer) (blockSize : ℕ) (refs : List UInt32) (o : ℕ) : UInt8 :=
  let block := refs.getD (o / blockSize) 0
  if block = 0 then 0 else device (block.toNat * blockSize + o % blockSize)

/-- `bdev->ReadBlock` reads from this device. -/
def InodeTable.Reads (fs : InodeTable) (device : Buffer) : Prop :=
  ∀ phys count, ∃ buffer, fs.readBlock phys count = some buffer ∧
    ∀ i < count * fs.devBlocksize, buffer i = device (phys * fs.devBlocksize + i)

/-- Whatever the blocks of the file hold, a loaded inode is read through its block map, after any
calls of `ReadBytes`. -/
def RawInode.ReadsThroughMap (raw : RawInode) (device : Buffer) (blockSize devBlocksize : ℕ)
    (earlier : List (UInt64 × UInt64)) (offset length : UInt64) : Prop :=
  ∀ (fs : InodeTable) (device' : Buffer), fs.blockSize = blockSize →
    fs.devBlocksize = devBlocksize → fs.Reads device' →
    raw.blockMap device' blockSize = raw.blockMap device blockSize →
    ∃ refs, raw.blockRefs fs = some refs ∧ ∀ blocks0 blocks1 loc blocknum inodeNum,
      (((raw.load blocks0 blocks1 fs loc blocknum inodeNum refs).after fs earlier).readBytes fs offset
          length).2 =
        ((List.range (min length.toNat (raw.size.toNat - offset.toNat))).map fun i =>
          byteAt device' blockSize (raw.blockMap device' blockSize) (offset.toNat + i), .success)

/-- An inode without a triple indirect block: its blocks are on the device, and no two pointers name
the same one. -/
structure RawInode.WellFormed (raw : RawInode) (device : Buffer) (blockSize : ℕ) : Prop where
  triple : raw.block[14] = 0
  distinct : ((raw.blockMap device blockSize).filter (· ≠ 0)).Nodup
  apart : ∀ p ∈ raw.blockMap device blockSize, p ≠ 0 → p ≠ raw.indirect ∧ p ≠ raw.doubleIndirect ∧
    p ∉ pointersIn device blockSize raw.doubleIndirect
  last : ∀ p ∈ raw.blockMap device blockSize, p ≠ 0xffffffff

/-- Logical block `b` is found at its own position: there is no hole in front of it, and if it is a
hole itself, the blocks of the file end before it. -/
def InPlace (map loaded : List UInt32) (b : ℕ) : Prop :=
  if map.getD b 0 ≠ 0 then ∀ c < b, map.getD c 0 ≠ 0 else loaded.countP (· ≠ 0) ≤ b

/-- The pointers that `LoadInode` looks at: the direct ones of a short file. -/
def RawInode.looked (raw : RawInode) (map : List UInt32) : List UInt32 :=
  if raw.size ≤ 60 then map.take 12 else map

/-- The sum of offset and length is below `2 ^ 64` or wraps to a number above the size, and every
block of the range is in its place. -/
def RawInode.Readable (raw : RawInode) (map : List UInt32) (blockSize : ℕ) (offset length : UInt64) :
    Prop :=
  (offset.toNat + length.toNat < 2 ^ 64 ∨ raw.size.toNat < offset.toNat + length.toNat - 2 ^ 64) ∧
  ∀ i < min length.toNat (raw.size.toNat - offset.toNat),
    InPlace map (raw.looked map) ((offset.toNat + i) / blockSize)

/-! ## Leaving out the holes -/

variable {l : List UInt32} {b : ℕ}

theorem getD_eq_iff_getElem? {x : UInt32} (nonzero : x ≠ 0) :
    l.getD b 0 = x ↔ l[b]? = some x := by
  rw [getD_eq_getElem?_getD]
  cases l[b]? with
  | none => simp [nonzero.symm]
  | some y => simp

/-- Where a pointer stands once the holes are left out: the pointers in front of it that are not
zero are counted. -/
theorem getElem?_filter_length {x : UInt32} (nonzero : x ≠ 0) (at_b : l[b]? = some x) :
    (l.filter (· ≠ 0))[((l.take b).filter (· ≠ 0)).length]? = some x := by
  obtain ⟨bound, rfl⟩ := List.getElem?_eq_some_iff.mp at_b
  have parts : l.filter (· ≠ 0) =
      (l.take b).filter (· ≠ 0) ++ l[b] :: (l.drop (b + 1)).filter (· ≠ 0) := by
    conv_lhs => rw [← List.take_append_drop b l, List.drop_eq_getElem_cons bound]
    rw [filter_append, filter_cons_of_pos (by simpa using nonzero)]
  rw [parts, getElem?_append_right le_rfl, Nat.sub_self, getElem?_cons_zero]

theorem filter_getD_eq_iff (nodup : (l.filter (· ≠ 0)).Nodup) (b : ℕ) :
    (l.filter (· ≠ 0)).getD b 0 = l.getD b 0 ↔ InPlace l l b := by
  unfold InPlace
  by_cases hole : l.getD b 0 = 0
  · rw [if_neg (not_not.mpr hole), hole, countP_eq_length_filter, getD_eq_getElem?_getD]
    constructor
    · intro zero
      by_contra more
      rw [getElem?_eq_getElem (not_le.mp more), Option.getD_some] at zero
      have kept := of_mem_filter (getElem_mem (not_le.mp more))
      rw [zero] at kept
      simp at kept
    · intro few
      rw [getElem?_eq_none few, Option.getD_none]
  · rw [if_pos hole, getD_eq_iff_getElem? hole]
    have at_b := (getD_eq_iff_getElem? hole).mp rfl
    have moved := getElem?_filter_length hole at_b
    have bound := (List.getElem?_eq_some_iff.mp at_b).1
    have all : ((l.take b).filter (· ≠ 0)).length = b ↔ ∀ c < b, l.getD c 0 ≠ 0 := by
      have count := List.length_filter_eq_length_iff (p := fun x => decide (x ≠ 0)) (l := l.take b)
      rw [List.length_take_of_le bound.le] at count
      rw [count]
      constructor
      · intro kept c before
        have inside : c < l.length := before.trans bound
        rw [getD_eq_getElem _ _ inside]
        simpa using kept l[c] (mem_take_iff_getElem.mpr ⟨c, by omega, rfl⟩)
      · intro kept x mem
        obtain ⟨c, before, rfl⟩ := mem_take_iff_getElem.mp mem
        have nonzero := kept c (by omega)
        rw [getD_eq_getElem _ _ (by omega)] at nonzero
        simpa using nonzero
    rw [← all]
    constructor
    · intro same
      exact (getElem?_inj (List.getElem?_eq_some_iff.mp moved).1 nodup).mp (moved.trans same.symm)
    · intro same
      rwa [same] at moved

/-! ## Reading from the device -/

/-- The block sizes of a file system that fits its blocks into pages. -/
def PageBlocks (blockSize : ℕ) : Prop := blockSize = 1024 ∨ blockSize = 2048 ∨ blockSize = 4096

section Device

variable {fs : InodeTable} {device : Buffer}

theorem InodeTable.Reads.readBlock_eq (reads : fs.Reads device) {addr length count : ℕ}
    (covered : addr % fs.devBlocksize + length ≤ count * fs.devBlocksize) :
    ∃ buffer, fs.readBlock (addr / fs.devBlocksize) count = some buffer ∧
      ∀ i < length, buffer (addr % fs.devBlocksize + i) = device (addr + i) := by
  obtain ⟨buffer, read, same⟩ := reads (addr / fs.devBlocksize) count
  refine ⟨buffer, read, fun i inside => ?_⟩
  rw [same _ (by omega), ← add_assoc, Nat.div_add_mod']

variable (sizes : PageBlocks fs.blockSize) (pos : 0 < fs.devBlocksize) (reads : fs.Reads device)

open InodeTable

include sizes pos in
theorem InodeTable.physRead_eq {fsBlock : UInt32} (below : fsBlock ≠ 0xffffffff) (first last : Bool) :
    let r := fs.physRead fsBlock first last 0 fs.blockSize
    r.physBlock = fsBlock.toNat * fs.blockSize / fs.devBlocksize ∧
      r.offset = fsBlock.toNat * fs.blockSize % fs.devBlocksize ∧
      r.offset + fs.blockSize ≤ r.physBlocks * fs.devBlocksize ∧ r.length = fs.blockSize := by
  intro r
  have next : (fsBlock + 1).toNat = fsBlock.toNat + 1 := by
    have : fsBlock.toNat ≠ 4294967295 := fun h => below (UInt32.toNat_inj.mp h)
    have := fsBlock.toNat_lt
    rw [UInt32.toNat_add]
    simp only [UInt32.reduceToNat]
    omega
  set addr := fsBlock.toNat * fs.blockSize with haddr
  have ending : (if last then addr + fs.blockSize else (fsBlock + 1).toNat * fs.blockSize) =
      addr + fs.blockSize := by
    rw [next, Nat.succ_mul]
    exact ite_self _
  have start : addr + (if first then 0 else 0) = addr := by simp
  have parts := Nat.div_add_mod' addr fs.devBlocksize
  have rest := Nat.mod_lt addr pos
  have small : addr + fs.blockSize < 2 ^ 45 := by
    have := fsBlock.toNat_lt
    rcases sizes with h | h | h <;> simp only [haddr, h] <;> omega
  have length : (addr + fs.blockSize + (2 ^ 64 - addr / fs.devBlocksize * fs.devBlocksize)) % 2 ^ 64 =
      addr % fs.devBlocksize + fs.blockSize := by omega
  have count : (addr % fs.devBlocksize + fs.blockSize) / fs.devBlocksize < 5000 := by
    rw [Nat.div_lt_iff_lt_mul pos]
    rcases sizes with h | h | h <;> omega
  have whole := Nat.div_add_mod' (addr % fs.devBlocksize + fs.blockSize) fs.devBlocksize
  have last := Nat.mod_lt (addr % fs.devBlocksize + fs.blockSize) pos
  simp only [r, physRead, ← haddr, start, ending, length, true_and]
  refine ⟨?_, by rcases sizes with h | h | h <;> omega⟩
  split_ifs with beyond
  · rw [Nat.mod_eq_of_lt (b := 2 ^ 32) (by omega), Nat.succ_mul]
    omega
  · rw [Nat.mod_eq_of_lt (b := 2 ^ 32) (by omega)]
    omega

include sizes pos reads in
theorem InodeTable.Reads.readOne_eq {fsBlock : UInt32} (below : fsBlock ≠ 0xffffffff)
    (first last : Bool) :
    ∃ buffer, fs.readOne (fs.physRead fsBlock first last 0 fs.blockSize) = some buffer ∧
      ∀ i < fs.blockSize, buffer i = device (fsBlock.toNat * fs.blockSize + i) := by
  obtain ⟨block, offset, covered, -⟩ := physRead_eq sizes pos below first last
  rw [offset] at covered
  obtain ⟨buffer, read, same⟩ := reads.readBlock_eq covered
  unfold readOne
  rw [block, read, offset]
  refine ⟨_, rfl, fun i inside => ?_⟩
  beta_reduce
  by_cases moved : fsBlock.toNat * fs.blockSize % fs.devBlocksize ≠ 0
  · rw [if_pos moved, Buffer.write, if_pos (by simpa using inside), Buffer.read, getD_eq_getElem?_getD,
      getElem?_map, Nat.sub_zero, getElem?_range inside]
    exact same i inside
  · rw [if_neg moved, ← same i inside, not_not.mp moved, zero_add]

def Hold (fs : InodeTable) (device : Buffer) (fsBlock : UInt32) (buffer : Buffer) : Prop :=
  ∀ i < fs.blockSize, buffer i = device (fsBlock.toNat * fs.blockSize + i)

include sizes pos reads in
theorem InodeTable.Reads.readEach_eq (numBlocks k : ℕ) (fsBlocks : List UInt32)
    (nonzero : ∀ p ∈ fsBlocks, p ≠ 0) (below : ∀ p ∈ fsBlocks, p ≠ 0xffffffff) :
    ∃ buffers, fs.readEach numBlocks 0 fs.blockSize k fsBlocks = .ok buffers ∧
      Forall₂ (Hold fs device) fsBlocks buffers := by
  induction fsBlocks generalizing k with
  | nil => exact ⟨[], rfl, .nil⟩
  | cons fsBlock fsBlocks ih =>
    obtain ⟨buffer, read, same⟩ := reads.readOne_eq sizes pos (below fsBlock mem_cons_self)
      (decide (k = 0)) (decide (k + 1 = numBlocks))
    obtain ⟨buffers, rest, hold⟩ := ih (k + 1)
      (fun p mem => nonzero p (mem_cons_of_mem _ mem))
      (fun p mem => below p (mem_cons_of_mem _ mem))
    refine ⟨buffer :: buffers, ?_, .cons same hold⟩
    rw [readEach, if_neg (nonzero fsBlock mem_cons_self), read, rest]
    rfl

end Device

/-! ## Pages -/

theorem assembleRest_apply {blocksize : ℕ} (pos : 0 < blocksize) (final : Buffer) (offset : ℕ)
    (blocks : List Buffer) (j : ℕ) :
    assembleRest blocksize blocksize final offset blocks j =
      if offset ≤ j then (blocks[(j - offset) / blocksize]?.map (· ((j - offset) % blocksize))).getD
        (final j) else final j := by
  have copy (final : Buffer) (offset : ℕ) (block : Buffer) (j : ℕ) :
      final.write offset (block.read 0 blocksize) j =
        if offset ≤ j ∧ j < offset + blocksize then block (j - offset) else final j := by
    rw [Buffer.write, Buffer.length_read]
    split_ifs with inside
    · rw [Buffer.read, getD_eq_getElem?_getD, getElem?_map,
        getElem?_range (by omega), Option.map_some, Option.getD_some, zero_add]
    · rfl
  induction blocks generalizing final offset with
  | nil => simp [assembleRest]
  | cons block blocks ih =>
    have first : assembleRest blocksize blocksize final offset (block :: blocks) =
        assembleRest blocksize blocksize (final.write offset (block.read 0 blocksize))
          (offset + blocksize) blocks := by
      cases blocks <;> rfl
    rw [first, ih, copy]
    by_cases before : offset ≤ j
    · by_cases here : j < offset + blocksize
      · rw [if_neg (by omega), if_pos ⟨before, here⟩, if_pos before,
          Nat.div_eq_of_lt (by omega), Nat.mod_eq_of_lt (by omega)]
        rfl
      · have shift : j - offset = j - (offset + blocksize) + blocksize := by omega
        rw [if_pos (by omega), if_neg (by omega), if_pos before, shift, Nat.add_div_right _ pos,
          Nat.add_mod_right, getElem?_cons_succ]
    · rw [if_neg (by omega), if_neg (by omega), if_neg before]

theorem assemble_apply {blocksize length : ℕ} (pos : 0 < blocksize) (fits : blocksize ≤ length)
    (blocks : List Buffer) (j : ℕ) :
    assemble blocksize length blocksize blocksize blocks j =
      (blocks[j / blocksize]?.map (· (j % blocksize))).getD 0 := by
  cases blocks with
  | nil => simp [assemble]
  | cons first blocks =>
    have whole := assembleRest_apply pos (fun _ => 0) 0 (first :: blocks) j
    rw [if_pos (Nat.zero_le j), Nat.sub_zero] at whole
    rw [assemble, min_eq_left fits, ← whole]
    cases blocks with
    | nil => rfl
    | cons second blocks =>
      have next : assembleRest blocksize blocksize (fun _ => 0) 0 (first :: second :: blocks) =
          assembleRest blocksize blocksize (Buffer.write (fun _ => 0) 0 (first.read 0 blocksize))
            (0 + blocksize) (second :: blocks) := rfl
      rw [next, zero_add]

variable {inode : Inode} {vec : ℕ}

section Pages

variable {fs : InodeTable} {device : Buffer} (sizes : PageBlocks fs.blockSize)
  (pos : 0 < fs.devBlocksize) (reads : fs.Reads device)

include sizes pos reads in
theorem InodeTable.Reads.readBlocks_eq {refs : List UInt32} (nonzero : ∀ p ∈ refs, p ≠ 0)
    (below : ∀ p ∈ refs, p ≠ 0xffffffff) (blki : ℕ) :
    ∃ page, fs.readBlocks refs (blki * 4096 / fs.blockSize) (blki * 4096 % fs.blockSize) 4096 =
        .ok page ∧
      ∀ j < 4096, page j = byteAt device fs.blockSize refs (blki * 4096 + j) := by
  have aligned : blki * 4096 % fs.blockSize = 0 := by
    rcases sizes with h | h | h <;> simp only [h] <;> omega
  have whole : (0 + 4096) % fs.blockSize = 0 := by
    rcases sizes with h | h | h <;> rw [h]
  have bound : 0 < fs.blockSize ∧ fs.blockSize ≤ 4096 := by
    rcases sizes with h | h | h <;> rw [h] <;> decide
  obtain ⟨buffers, read, hold⟩ := reads.readEach_eq sizes pos (4096 / fs.blockSize) 0
    ((refs.drop (blki * 4096 / fs.blockSize)).take (4096 / fs.blockSize))
    (fun p mem => nonzero p (mem_of_mem_drop (mem_of_mem_take mem)))
    (fun p mem => below p (mem_of_mem_drop (mem_of_mem_take mem)))
  simp only [readBlocks, aligned, Nat.zero_div, add_zero, Nat.zero_mod, whole, if_true,
    Nat.sub_self, zero_add, read]
  refine ⟨_, rfl, fun j inside => ?_⟩
  -- the length of the first read only matters if there is one
  have first : assemble fs.blockSize 4096 (match refs[blki * 4096 / fs.blockSize]? with
      | some fsBlock => (fs.physRead fsBlock true (1 = 4096 / fs.blockSize) 0 fs.blockSize).length
      | none => 0) fs.blockSize buffers =
      assemble fs.blockSize 4096 fs.blockSize fs.blockSize buffers := by
    cases buffers with
    | nil => rfl
    | cons buffer buffers =>
      obtain ⟨fsBlock, at_zero, -⟩ := Pointwise.getElem?_right hold (i := 0) rfl
      rw [getElem?_take, getElem?_drop, add_zero] at at_zero
      obtain ⟨-, at_start⟩ := Option.ite_none_right_eq_some.mp at_zero
      rw [at_start]
      dsimp only
      rw [(physRead_eq sizes pos (below fsBlock (mem_of_getElem? at_start)) _ _).2.2.2]
  rw [first, assemble_apply bound.1 bound.2, byteAt]
  have index : (blki * 4096 + j) / fs.blockSize = blki * 4096 / fs.blockSize + j / fs.blockSize := by
    rcases sizes with h | h | h <;> simp only [h] <;> omega
  have rest : (blki * 4096 + j) % fs.blockSize = j % fs.blockSize := by
    rw [Nat.add_mod, aligned, zero_add, Nat.mod_mod]
  have near : j / fs.blockSize < 4096 / fs.blockSize := by
    rcases sizes with h | h | h <;> simp only [h] <;> omega
  have block : ((refs.drop (blki * 4096 / fs.blockSize)).take (4096 / fs.blockSize))[
      j / fs.blockSize]? = refs[blki * 4096 / fs.blockSize + j / fs.blockSize]? := by
    rw [getElem?_take, if_pos near, getElem?_drop]
  rw [index, rest, getD_eq_getElem?_getD, ← block]
  cases located : ((refs.drop (blki * 4096 / fs.blockSize)).take (4096 / fs.blockSize))[
      j / fs.blockSize]? with
  | none =>
    have none : buffers[j / fs.blockSize]? = none := by
      rw [getElem?_eq_none_iff, ← hold.length_eq]
      exact getElem?_eq_none_iff.mp located
    simp [none]
  | some fsBlock =>
    obtain ⟨buffer, at_j, same⟩ := Pointwise.getElem?_left hold located
    have mem := mem_of_getElem? (block.symm.trans located)
    rw [at_j, Option.map_some, Option.getD_some, Option.getD_some, if_neg (nonzero fsBlock mem)]
    exact same _ (Nat.mod_lt j bound.1)

/-! ## The cache -/

/-- The pages in the cache are those that would be read. -/
structure Inode.Cached (fs : InodeTable) (device : Buffer) (inode : Inode) : Prop where
  nonzero : ∀ p ∈ inode.blockRefs, p ≠ 0
  below : ∀ p ∈ inode.blockRefs, p ≠ 0xffffffff
  pages : ∀ (blki : ℕ) page, inode.blockCache[blki]? = some (some page) →
    ∀ j < 4096, page j = byteAt device fs.blockSize inode.blockRefs (blki * 4096 + j)

structure Inode.Same (inode inode' : Inode) : Prop where
  blockRefs : inode'.blockRefs = inode.blockRefs
  filesize : inode'.filesize = inode.filesize
  length : inode'.blockCache.length = inode.blockCache.length

theorem Inode.Same.refl (inode : Inode) : inode.Same inode := ⟨rfl, rfl, rfl⟩

theorem Inode.Same.trans {a b c : Inode} (h : a.Same b) (h' : b.Same c) : a.Same c :=
  ⟨h'.blockRefs.trans h.blockRefs, h'.filesize.trans h.filesize, h'.length.trans h.length⟩

open Inode

include sizes pos reads in
theorem Inode.Cached.readBlock (h : inode.Cached fs device) (blki : ℕ) :
    let r := inode.readBlock fs blki
    inode.Same r.1 ∧ r.1.Cached fs device ∧
      (blki < inode.blockCache.length → ∃ page, r.2 = .ok page ∧
        ∀ j < 4096, page j = byteAt device fs.blockSize inode.blockRefs (blki * 4096 + j)) ∧
      (inode.blockCache.length ≤ blki → r.2 = .error .invalidRequest) := by
  unfold Inode.readBlock
  split
  case h_1 absent =>
    have past := getElem?_eq_none_iff.mp absent
    exact ⟨.refl _, h, fun inside => absurd past (by omega), fun _ => rfl⟩
  case h_2 page cached =>
    have inside := (List.getElem?_eq_some_iff.mp cached).1
    exact ⟨.refl _, h, fun _ => ⟨page, rfl, h.pages blki page cached⟩,
      fun past => absurd past (by omega)⟩
  case h_3 empty =>
    have inside := (List.getElem?_eq_some_iff.mp empty).1
    obtain ⟨page, read, same⟩ := reads.readBlocks_eq sizes pos h.nonzero h.below blki
    rw [read]
    refine ⟨⟨rfl, rfl, List.length_set⟩, ⟨h.nonzero, h.below, fun k p at_k => ?_⟩,
      fun _ => ⟨page, rfl, same⟩, fun past => absurd past (by omega)⟩
    rw [getElem?_set] at at_k
    split_ifs at at_k with here
    · obtain rfl : page = p := by simpa using at_k
      exact here ▸ same
    · exact h.pages k p at_k

/-! ## The loop -/

variable {offset length : ℕ}

include sizes pos reads

section

variable (h : inode.Cached fs device)

include h

theorem Inode.Cached.readLoop (offset length vec : ℕ) :
    inode.Same (inode.readLoop fs offset length vec).1 ∧
      (inode.readLoop fs offset length vec).1.Cached fs device := by
  fun_induction Inode.readLoop fs offset length inode vec with
  | case1 inode vec more cur blklen inode' page read inode'' bytes status rest ih =>
    obtain ⟨same, cached, -⟩ := h.readBlock sizes pos reads (cur / 4096)
    rw [read] at same cached
    obtain ⟨same', cached'⟩ := ih cached
    rw [rest] at same' cached'
    exact ⟨same.trans same', cached'⟩
  | case2 inode vec more cur inode' status read =>
    obtain ⟨same, cached, -⟩ := h.readBlock sizes pos reads (cur / 4096)
    rw [read] at same cached
    exact ⟨same, cached⟩
  | case3 inode vec done => exact ⟨.refl _, h⟩

theorem Inode.Cached.readLoop_eq (vec : ℕ)
    (inside : offset + length ≤ inode.blockCache.length * 4096)
    (small : inode.blockCache.length * 4096 ≤ 2 ^ 64) :
    (inode.readLoop fs offset length vec).2 =
      ((List.range (length - vec)).map fun i =>
        byteAt device fs.blockSize inode.blockRefs (offset + vec + i), .success) := by
  fun_induction Inode.readLoop fs offset length inode vec with
  | case1 inode vec more cur blklen inode' page read inode'' bytes status rest ih =>
    have here : cur = offset + vec := Nat.mod_eq_of_lt (by omega)
    have turn : blklen ≤ length - vec ∧ cur % 4096 + blklen ≤ 4096 := by
      simp only [blklen]
      omega
    obtain ⟨same, cached, found, -⟩ := h.readBlock sizes pos reads (cur / 4096)
    obtain ⟨page', ok, content⟩ := found (by omega)
    rw [read] at same cached ok
    cases ok
    have after := ih cached (by rw [same.length]; exact inside) (by rw [same.length]; exact small)
    rw [rest, same.blockRefs] at after
    cases after
    generalize blklen = n at *
    have parts : length - vec = n + (length - (vec + n)) := by omega
    rw [parts, range_add, map_append, map_map]
    dsimp only
    congr 2
    · refine map_congr_left fun i mem => ?_
      have := List.mem_range.mp mem
      rw [content _ (by omega)]
      congr 1
      omega
    · refine map_congr_left fun i _ => ?_
      simp only [Function.comp_apply, add_assoc]
  | case2 inode vec more cur inode' status read =>
    have here : cur = offset + vec := Nat.mod_eq_of_lt (by omega)
    obtain ⟨page, ok, -⟩ := (h.readBlock sizes pos reads (cur / 4096)).2.2.1 (by omega)
    rw [read] at ok
    cases ok
  | case3 inode vec done =>
    rw [show length - vec = 0 by omega]
    rfl

theorem Inode.Cached.readLoop_success (vec : ℕ)
    (success : (inode.readLoop fs offset length vec).2.2 = .success) {c : ℕ} (from_vec : vec ≤ c)
    (inside : c < length) : (offset + c) % 2 ^ 64 < inode.blockCache.length * 4096 := by
  fun_induction Inode.readLoop fs offset length inode vec with
  | case1 inode vec more cur blklen inode' page read inode'' bytes status rest ih =>
    obtain ⟨same, cached, -, absent⟩ := h.readBlock sizes pos reads (cur / 4096)
    rw [read] at same cached absent
    by_cases turn : c < vec + blklen
    · have within : cur / 4096 < inode.blockCache.length := by
        by_contra past
        cases absent (not_lt.mp past)
      simp only [blklen, cur] at turn within
      omega
    · rw [← same.length]
      exact ih cached (by rw [rest]; exact success) (not_lt.mp turn)
  | case2 inode vec more cur inode' status read =>
    obtain ⟨-, -, found, absent⟩ := h.readBlock sizes pos reads (cur / 4096)
    rw [read] at found absent
    rcases lt_or_ge (cur / 4096) inode.blockCache.length with near | past
    · obtain ⟨page, ok, -⟩ := found near
      cases ok
    · cases absent past
      cases success
  | case3 => omega

theorem Inode.Cached.readBytes (offset length : UInt64) :
    inode.Same (inode.readBytes fs offset length).1 ∧
      (inode.readBytes fs offset length).1.Cached fs device := by
  unfold Inode.readBytes
  split_ifs
  · exact ⟨.refl _, h⟩
  · exact h.readLoop sizes pos reads ..
  · exact h.readLoop sizes pos reads ..

theorem Inode.Cached.after (earlier : List (UInt64 × UInt64)) :
    inode.Same (inode.after fs earlier) ∧ (inode.after fs earlier).Cached fs device := by
  induction earlier generalizing inode with
  | nil => exact ⟨.refl _, h⟩
  | cons call earlier ih =>
    obtain ⟨same, cached⟩ := h.readBytes sizes pos reads call.1 call.2
    obtain ⟨same', cached'⟩ := ih cached
    exact ⟨same.trans same', cached'⟩

variable {offset length : UInt64}

/-- What `ReadBytes` returns, unless the sum of offset and length wraps to a number up to the size. -/
theorem Inode.Cached.readBytes_eq
    (pages : inode.blockCache.length = (inode.filesize.toNat + 4095) / 4096)
    (size : inode.filesize.toNat < 2 ^ 32)
    (range : offset.toNat + length.toNat < 2 ^ 64 ∨
      inode.filesize.toNat < offset.toNat + length.toNat - 2 ^ 64) :
    (inode.readBytes fs offset length).2 =
      ((List.range (min length.toNat (inode.filesize.toNat - offset.toNat))).map fun i =>
        byteAt device fs.blockSize inode.blockRefs (offset.toNat + i), .success) := by
  have := offset.toNat_lt
  have := length.toNat_lt
  unfold Inode.readBytes
  by_cases longer : inode.filesize.toNat < (offset.toNat + length.toNat) % 2 ^ 64
  · rw [if_pos longer]
    by_cases past : inode.filesize ≤ offset
    · have none : inode.filesize.toNat - offset.toNat = 0 := by
        have := UInt64.le_iff_toNat_le.mp past
        omega
      rw [if_pos past, none, Nat.min_zero]
      rfl
    · have before : offset.toNat < inode.filesize.toNat := by
        have := UInt64.not_le.mp past
        exact UInt64.lt_iff_toNat_lt.mp this
      rw [if_neg past, h.readLoop_eq sizes pos reads 0 (by omega) (by omega), Nat.sub_zero,
        min_eq_right (by omega)]
      rfl
  · rw [if_neg longer, h.readLoop_eq sizes pos reads 0 (by omega) (by omega), Nat.sub_zero,
      min_eq_left (by omega)]
    rfl

theorem Inode.Cached.not_success
    (pages : inode.blockCache.length = (inode.filesize.toNat + 4095) / 4096)
    (size : inode.filesize.toNat < 2 ^ 32) (wraps : 2 ^ 64 ≤ offset.toNat + length.toNat)
    (within : offset.toNat + length.toNat - 2 ^ 64 ≤ inode.filesize.toNat) :
    (inode.readBytes fs offset length).2.2 ≠ .success := by
  intro success
  have := offset.toNat_lt
  rw [Inode.readBytes, if_neg (by omega)] at success
  have last := h.readLoop_success sizes pos reads 0 success (c := 2 ^ 64 - 1 - offset.toNat)
  omega

end

end Pages

/-! ## Loading -/

variable {block : UInt32}

section Loading

variable {fs : InodeTable} {device : Buffer} (blockSize_pos : 0 < fs.blockSize)
  (pos : 0 < fs.devBlocksize) (reads : fs.Reads device)
include blockSize_pos pos reads

theorem InodeTable.Reads.readPointers_eq (nonzero : block ≠ 0) :
    readPointers fs block = some (pointersIn device fs.blockSize block) := by
  set addr := block.toNat * fs.blockSize with haddr
  have parts := Nat.div_add_mod' addr fs.devBlocksize
  have count : (addr + fs.blockSize - 1) / fs.devBlocksize - addr / fs.devBlocksize + 1 =
      (addr % fs.devBlocksize + fs.blockSize - 1) / fs.devBlocksize + 1 := by
    have split : addr + fs.blockSize - 1 =
        addr % fs.devBlocksize + fs.blockSize - 1 + addr / fs.devBlocksize * fs.devBlocksize := by
      omega
    rw [split, Nat.add_mul_div_right _ _ pos, Nat.add_sub_cancel]
  have covered : addr % fs.devBlocksize + fs.blockSize ≤
      ((addr + fs.blockSize - 1) / fs.devBlocksize - addr / fs.devBlocksize + 1) *
        fs.devBlocksize := by
    have whole := Nat.div_add_mod' (addr % fs.devBlocksize + fs.blockSize - 1) fs.devBlocksize
    have last := Nat.mod_lt (addr % fs.devBlocksize + fs.blockSize - 1) pos
    rw [count, Nat.succ_mul]
    omega
  obtain ⟨buffer, read, same⟩ := reads.readBlock_eq covered
  simp only [readPointers, ← haddr, read, Option.map_some, pointersIn, if_neg nonzero]
  congr 1
  refine map_congr_left fun i mem => ?_
  have inside := List.mem_range.mp mem
  have bytes : buffer.read (addr % fs.devBlocksize + 4 * i) 4 = device.read (addr + 4 * i) 4 := by
    refine map_congr_left fun j mem => ?_
    have := List.mem_range.mp mem
    rw [add_assoc, add_assoc, same _ (by omega)]
  rw [bytes]

theorem InodeTable.Reads.indirectRefs_eq (block : UInt32) :
    indirectRefs fs block = some ((pointersIn device fs.blockSize block).filter (· ≠ 0)) := by
  unfold indirectRefs
  split_ifs with nonzero
  · rw [reads.readPointers_eq blockSize_pos pos nonzero]
    rfl
  · rw [not_not.mp nonzero]
    simp [pointersIn]

theorem InodeTable.Reads.doubleIndirectRefs_eq (block : UInt32) :
    doubleIndirectRefs fs block = some (((pointersIn device fs.blockSize block).flatMap
      (pointersIn device fs.blockSize)).filter (· ≠ 0)) := by
  unfold doubleIndirectRefs
  have each : indirectRefs fs = fun block =>
      pure ((pointersIn device fs.blockSize block).filter (· ≠ 0)) :=
    funext fun block => reads.indirectRefs_eq blockSize_pos pos block
  split_ifs with nonzero
  · rw [reads.readPointers_eq blockSize_pos pos nonzero, each]
    simp only [mapM_pure, flatMap_def, filter_flatten, map_map]
    rfl
  · have hole : ∀ p ∈ (pointersIn device fs.blockSize block).flatMap (pointersIn device fs.blockSize),
        p = 0 := by
      intro p mem
      obtain ⟨q, mem, below⟩ := mem_flatMap.mp mem
      rw [not_not.mp nonzero] at mem
      obtain ⟨_, -, rfl⟩ := mem_map.mp mem
      obtain ⟨_, -, rfl⟩ := mem_map.mp below
      rfl
    rw [filter_eq_nil_iff.mpr fun p mem => by simp [hole p mem]]

open RawInode

theorem InodeTable.Reads.blockRefs_eq (raw : RawInode) : raw.blockRefs fs =
    some ((raw.looked (raw.blockMap device fs.blockSize)).filter (· ≠ 0)) := by
  unfold blockRefs looked
  split_ifs with short
  · rw [blockMap, append_assoc, take_left' (by simp)]
  · rw [reads.indirectRefs_eq blockSize_pos pos, reads.doubleIndirectRefs_eq blockSize_pos pos]
    simp [blockMap]

end Loading

/-! ## Reading through the map -/

variable {value : UInt8}

section ThroughMap

variable {raw : RawInode} {device : Buffer} {blockSize devBlocksize : ℕ}

theorem PageBlocks.pos (sizes : PageBlocks blockSize) : 0 < blockSize := by
  rcases sizes with h | h | h <;> omega

def RawInode.loadedRefs (raw : RawInode) (map : List UInt32) : List UInt32 :=
  (raw.looked map).filter (· ≠ 0)

variable {map : List UInt32}

theorem RawInode.mem_of_mem_loadedRefs {p : UInt32} (mem : p ∈ raw.loadedRefs map) :
    p ∈ map ∧ p ≠ 0 := by
  obtain ⟨listed, nonzero⟩ := mem_filter.mp mem
  refine ⟨?_, by simpa using nonzero⟩
  unfold looked at listed
  split_ifs at listed
  · exact mem_of_mem_take listed
  · exact listed

/-- For the blocks up to the size, the condition says that the pointer that is loaded at the position
of the block is the one of the block. -/
theorem RawInode.inPlace_iff (sizes : PageBlocks blockSize) (nodup : (map.filter (· ≠ 0)).Nodup)
    {o : ℕ} (inside : o < raw.size.toNat) :
    (raw.loadedRefs map).getD (o / blockSize) 0 = map.getD (o / blockSize) 0 ↔
      InPlace map (raw.looked map) (o / blockSize) := by
  unfold loadedRefs looked
  split_ifs with short
  · -- a short file has one block
    have first : o / blockSize = 0 := by
      have := UInt32.le_iff_toNat_le.mp short
      have : raw.size.toNat ≤ 60 := this
      refine Nat.div_eq_of_lt ?_
      rcases sizes with h | h | h <;> omega
    have same : map.getD 0 0 = (map.take 12).getD 0 0 := by
      cases map <;> rfl
    have sub : ((map.take 12).filter (· ≠ 0)).Nodup :=
      nodup.sublist ((take_sublist 12 map).filter _)
    rw [first, same, filter_getD_eq_iff sub]
    unfold InPlace
    rw [same]
    by_cases hole : (map.take 12).getD 0 0 = 0
    · rw [if_neg (not_not.mpr hole), if_neg (not_not.mpr hole)]
    · rw [if_pos hole, if_pos hole]
      exact iff_of_true (fun c before => absurd before (Nat.not_lt_zero c))
        (fun c before => absurd before (Nat.not_lt_zero c))
  · exact filter_getD_eq_iff nodup _

def fill (device : Buffer) (blockSize : ℕ) (block : UInt32) (value : UInt8) : Buffer := fun a =>
  if block.toNat * blockSize ≤ a ∧ a < block.toNat * blockSize + blockSize then value else device a

theorem fill_self {j : ℕ} (inside : j < blockSize) :
    fill device blockSize block value (block.toNat * blockSize + j) = value :=
  if_pos ⟨by omega, by omega⟩

theorem fill_of_ne {other : UInt32} {j : ℕ} (apart : other ≠ block) (inside : j < blockSize) :
    fill device blockSize block value (other.toNat * blockSize + j) =
      device (other.toNat * blockSize + j) := by
  refine if_neg fun within => apart (UInt32.toNat_inj.mp ?_)
  have low : block.toNat * blockSize < (other.toNat + 1) * blockSize := by
    rw [Nat.succ_mul]
    omega
  have high : other.toNat * blockSize < (block.toNat + 1) * blockSize := by
    rw [Nat.succ_mul]
    omega
  have := Nat.lt_of_mul_lt_mul_right low
  have := Nat.lt_of_mul_lt_mul_right high
  omega

theorem pointersIn_fill {other : UInt32} (apart : other ≠ block) :
    pointersIn (fill device blockSize block value) blockSize other =
      pointersIn device blockSize other := by
  refine map_congr_left fun i mem => ?_
  have inside := List.mem_range.mp mem
  have bytes : (fill device blockSize block value).read (other.toNat * blockSize + 4 * i) 4 =
      device.read (other.toNat * blockSize + 4 * i) 4 := by
    refine map_congr_left fun j mem => ?_
    have := List.mem_range.mp mem
    rw [add_assoc, fill_of_ne apart (by omega)]
  rw [bytes]

/-- Filling a block that holds no pointers does not change the map. -/
theorem RawInode.blockMap_fill (single : block ≠ raw.indirect) (double : block ≠ raw.doubleIndirect)
    (below : block ∉ pointersIn device blockSize raw.doubleIndirect) :
    raw.blockMap (fill device blockSize block value) blockSize = raw.blockMap device blockSize := by
  unfold blockMap
  rw [pointersIn_fill single.symm, pointersIn_fill double.symm]
  congr 1
  refine flatMap_congr fun q mem => pointersIn_fill ?_
  rintro rfl
  exact below mem

def deviceTable (device : Buffer) (blockSize devBlocksize : ℕ) : InodeTable where
  inodesPerGroup := 1
  inodeSize := 128
  blockSize := blockSize
  groups := []
  devBlocksize := devBlocksize
  readBlock := fun phys _ => some fun i => device (phys * devBlocksize + i)

theorem reads_deviceTable (device : Buffer) (blockSize devBlocksize : ℕ) :
    (deviceTable device blockSize devBlocksize).Reads device := fun _ _ => ⟨_, rfl, fun _ _ => rfl⟩

section Loaded

variable {fs : InodeTable} (sizes : PageBlocks fs.blockSize) (pos : 0 < fs.devBlocksize)
  (reads : fs.Reads device) (last : ∀ p ∈ raw.blockMap device fs.blockSize, p ≠ 0xffffffff)
  (blocks0 blocks1 : Option PageRef) (loc : Location) (blocknum inodeNum : ℕ)
  (earlier : List (UInt64 × UInt64)) (offset length : UInt64)
include sizes pos reads last

/-- An inode that was loaded is read through the pointers that were loaded, unless the sum wraps to a
number up to the size. -/
theorem RawInode.readBytes_load :
    let refs := raw.loadedRefs (raw.blockMap device fs.blockSize)
    let inode := (raw.load blocks0 blocks1 fs loc blocknum inodeNum refs).after fs earlier
    if offset.toNat + length.toNat < 2 ^ 64 ∨ raw.size.toNat < offset.toNat + length.toNat - 2 ^ 64 then
      (inode.readBytes fs offset length).2 =
        ((List.range (min length.toNat (raw.size.toNat - offset.toNat))).map fun i =>
          byteAt device fs.blockSize refs (offset.toNat + i), .success)
    else (inode.readBytes fs offset length).2.2 ≠ .success := by
  intro refs inode
  have fresh : (raw.load blocks0 blocks1 fs loc blocknum inodeNum refs).Cached fs device := by
    refine ⟨fun p mem => (mem_of_mem_loadedRefs mem).2,
      fun p mem => last p (mem_of_mem_loadedRefs mem).1, fun blki page at_blki => ?_⟩
    have := mem_of_getElem? at_blki
    simp [load] at this
  obtain ⟨same, cached⟩ := fresh.after sizes pos reads earlier
  have filesize := (congrArg UInt64.toNat same.filesize).trans (UInt32.toNat_toUInt64 raw.size)
  have pages : inode.blockCache.length = (inode.filesize.toNat + 4095) / 4096 := by
    rw [same.length, filesize]
    exact length_replicate
  have small := raw.size.toNat_lt
  rw [← filesize] at small ⊢
  split_ifs with range
  · have read := cached.readBytes_eq sizes pos reads pages small range
    rwa [same.blockRefs] at read
  · exact cached.not_success sizes pos reads pages small (by omega) (by omega)

end Loaded

section Main

variable (sizes : PageBlocks blockSize) (pos : 0 < devBlocksize)
  (wellFormed : raw.WellFormed device blockSize) {earlier : List (UInt64 × UInt64)}
  {offset length : UInt64}
include sizes wellFormed

include pos in
theorem RawInode.readsThroughMap_of_readable
    (readable : raw.Readable (raw.blockMap device blockSize) blockSize offset length) :
    raw.ReadsThroughMap device blockSize devBlocksize earlier offset length := by
  rintro fs device' rfl rfl reads sameMap
  refine ⟨_, reads.blockRefs_eq sizes.pos pos raw, fun blocks0 blocks1 loc blocknum inodeNum => ?_⟩
  have read := readBytes_load sizes pos reads (sameMap ▸ wellFormed.last) blocks0 blocks1 loc blocknum
    inodeNum earlier offset length
  dsimp only at read
  rw [if_pos readable.1] at read
  refine read.trans ?_
  rw [sameMap]
  congr 1
  refine map_congr_left fun i mem => ?_
  have inside := List.mem_range.mp mem
  have place := (raw.inPlace_iff sizes wellFormed.distinct
    (o := offset.toNat + i) (by omega)).mpr (readable.2 i inside)
  unfold byteAt
  rw [place]

/-- If the wrong pointer is loaded for a block, some contents of the blocks show it. -/
theorem RawInode.exists_differs {o : ℕ} {map : List UInt32}
    (mapped : raw.blockMap device blockSize = map)
    (wrong : (raw.loadedRefs map).getD (o / blockSize) 0 ≠ map.getD (o / blockSize) 0) :
    ∃ device', raw.blockMap device' blockSize = map ∧
      byteAt device' blockSize (raw.loadedRefs map) o ≠ byteAt device' blockSize map o := by
  have inside := Nat.mod_lt o sizes.pos
  have keeps {block : UInt32} (nonzero : block ≠ 0) (mem : block ∈ map) (value : UInt8) :
      raw.blockMap (fill device blockSize block value) blockSize = map := by
    subst mapped
    obtain ⟨single, double, below⟩ := wellFormed.apart block mem nonzero
    exact blockMap_fill single double below
  have listed {refs : List UInt32} (nonzero : refs.getD (o / blockSize) 0 ≠ 0) :
      refs.getD (o / blockSize) 0 ∈ refs :=
    mem_of_getElem? ((getD_eq_iff_getElem? nonzero).mp rfl)
  unfold byteAt
  by_cases hole : map.getD (o / blockSize) 0 = 0
  · -- a hole: the block that is read instead
    have loaded := hole ▸ wrong
    have mem := (mem_of_mem_loadedRefs (listed loaded)).1
    refine ⟨_, keeps loaded mem 1, ?_⟩
    rw [if_neg loaded, if_pos hole, fill_self inside]
    decide
  · by_cases absent : (raw.loadedRefs map).getD (o / blockSize) 0 = 0
    · refine ⟨_, keeps hole (listed hole) 1, ?_⟩
      rw [if_pos absent, if_neg hole, fill_self inside]
      decide
    · -- two blocks: the one that is read keeps its byte
      refine ⟨_, keeps hole (listed hole) (device (((raw.loadedRefs map).getD (o / blockSize)
        0).toNat * blockSize + o % blockSize) + 1), ?_⟩
      rw [if_neg absent, if_neg hole, fill_self inside, fill_of_ne wrong inside]
      intro same
      have values := congrArg UInt8.toNat same
      simp only [UInt8.toNat_add, UInt8.reduceToNat] at values
      omega

include pos in
theorem RawInode.readable_of_readsThroughMap
    (through : raw.ReadsThroughMap device blockSize devBlocksize earlier offset length) :
    raw.Readable (raw.blockMap device blockSize) blockSize offset length := by
  have loc : Location := ⟨0, 0, 0, 0⟩
  have read (device' : Buffer)
      (sameMap : raw.blockMap device' blockSize = raw.blockMap device blockSize) :
      (((raw.load none none (deviceTable device' blockSize devBlocksize) loc 0 0
          (raw.loadedRefs (raw.blockMap device' blockSize))).after
            (deviceTable device' blockSize devBlocksize) earlier).readBytes
              (deviceTable device' blockSize devBlocksize) offset length).2 =
        ((List.range (min length.toNat (raw.size.toNat - offset.toNat))).map fun i =>
          byteAt device' blockSize (raw.blockMap device' blockSize) (offset.toNat + i), .success) := by
    have reads := reads_deviceTable device' blockSize devBlocksize
    obtain ⟨refs, loaded, result⟩ := through _ device' rfl rfl reads sameMap
    obtain rfl := Option.some.inj (loaded.symm.trans (reads.blockRefs_eq sizes.pos pos raw))
    exact result none none loc 0 0
  have loads (device' : Buffer)
      (sameMap : raw.blockMap device' blockSize = raw.blockMap device blockSize) :=
    raw.readBytes_load (show PageBlocks (InodeTable.blockSize _) from sizes) pos
      (reads_deviceTable device' blockSize devBlocksize) (sameMap ▸ wellFormed.last) none none loc 0 0
      earlier offset length
  dsimp only at loads
  have range : offset.toNat + length.toNat < 2 ^ 64 ∨
      raw.size.toNat < offset.toNat + length.toNat - 2 ^ 64 := by
    by_contra bad
    have fails := loads device rfl
    rw [if_neg bad] at fails
    exact fails (congrArg Prod.snd (read device rfl))
  refine ⟨range, fun i inside => ?_⟩
  rw [← raw.inPlace_iff sizes wellFormed.distinct (by omega)]
  by_contra wrong
  obtain ⟨device', sameMap, differs⟩ := exists_differs sizes wellFormed rfl wrong
  have bytes := loads device' sameMap
  rw [if_pos range] at bytes
  have bytes := bytes.symm.trans (read device' sameMap)
  have all := List.map_inj_left.mp (congrArg Prod.fst bytes) i (List.mem_range.mpr inside)
  change byteAt device' blockSize (raw.loadedRefs (raw.blockMap device' blockSize)) _ = _ at all
  rw [sameMap] at all
  exact differs all

end Main

/-- A file is read through its block map exactly where no hole moves a block of the range. -/
theorem readsThroughMap_iff_readable {raw : RawInode} {device : Buffer} {blockSize devBlocksize : ℕ}
    (sizes : PageBlocks blockSize) (pos : 0 < devBlocksize)
    (wellFormed : raw.WellFormed device blockSize) (earlier : List (UInt64 × UInt64))
    (offset length : UInt64) :
    raw.ReadsThroughMap device blockSize devBlocksize earlier offset length ↔
      raw.Readable (raw.blockMap device blockSize) blockSize offset length :=
  ⟨RawInode.readable_of_readsThroughMap sizes pos wellFormed,
    RawInode.readsThroughMap_of_readable sizes pos wellFormed⟩

def RawInode.ofBlocks (block : Vector UInt32 15) : RawInode :=
  ⟨0x81a4, 7, 2048, 1, 2, 3, 0, 100, 1, 4, 0, 0, block, 0, 0, 0, 0, 0, 0, 0, 3, 0, 0⟩

theorem RawInode.wellFormed_direct (single : raw.indirect = 0) (double : raw.doubleIndirect = 0)
    (triple : raw.block[14] = 0) (nodup : ((raw.block.toList.take 12).filter (· ≠ 0)).Nodup)
    (last : 0xffffffff ∉ raw.block.toList.take 12) : raw.WellFormed device blockSize := by
  have holes : ∀ p ∈ pointersIn device blockSize 0, p = 0 := by
    intro p mem
    obtain ⟨_, -, rfl⟩ := mem_map.mp mem
    rfl
  have below : ∀ p ∈ (pointersIn device blockSize 0).flatMap (pointersIn device blockSize),
      p = 0 := by
    intro p mem
    obtain ⟨q, mem, below⟩ := mem_flatMap.mp mem
    exact holes p (holes q mem ▸ below)
  have direct : ∀ p ∈ raw.blockMap device blockSize, p ≠ 0 → p ∈ raw.block.toList.take 12 := by
    intro p mem nonzero
    rw [blockMap, single, double, mem_append, mem_append] at mem
    rcases mem with (mem | mem) | mem
    · exact mem
    · exact absurd (holes p mem) nonzero
    · exact absurd (below p mem) nonzero
  refine ⟨triple, ?_, fun p mem nonzero => ?_, fun p mem top => ?_⟩
  · have kept {l : List UInt32} (zero : ∀ p ∈ l, p = 0) : l.filter (· ≠ 0) = [] :=
      filter_eq_nil_iff.mpr fun p mem => by simp [zero p mem]
    rw [blockMap, single, double, filter_append, filter_append, kept holes,
      kept below, append_nil, append_nil]
    exact nodup
  · rw [single, double]
    exact ⟨nonzero, nonzero, fun mem => nonzero (holes p mem)⟩
  · subst top
    exact last (direct _ mem (by decide))

theorem RawInode.getD_blockMap_direct (direct : b < 12) :
    (raw.blockMap device blockSize).getD b 0 = raw.block.toList.getD b 0 := by
  have inside : b < (raw.block.toList.take 12).length := by simpa using direct
  rw [blockMap, append_assoc, getD_append _ _ _ _ inside,
    getD_eq_getElem?_getD, getElem?_take_of_lt direct, getD_eq_getElem?_getD]

/-- A file of two blocks. -/
theorem readsThroughMap_two_blocks :
    (RawInode.ofBlocks #v[5, 6, 0, 0, 0, 0, 0, 0, 0, 0, 0, 0, 0, 0, 0]).ReadsThroughMap (fun _ => 7)
      1024 512 [(100, 5)] 1000 5000 := by
  refine (readsThroughMap_iff_readable (.inl rfl) (by decide)
    (RawInode.wellFormed_direct rfl rfl rfl (by decide) (by decide)) _ _ _).mpr
    ⟨.inl (by decide), fun i inside => ?_⟩
  have size : i < 1048 := inside
  have used : ∀ b < 2, ((RawInode.ofBlocks #v[5, 6, 0, 0, 0, 0, 0, 0, 0, 0, 0, 0, 0, 0, 0]).blockMap
      (fun _ => 7) 1024).getD b 0 ≠ 0 := by
    intro b first
    revert b
    decide
  have block : (1000 + i) / 1024 < 2 := by omega
  change InPlace _ _ ((1000 + i) / 1024)
  rw [InPlace, if_pos (used _ block)]
  exact fun c before => used c (by omega)

/-- A file that starts with a hole. -/
theorem not_readsThroughMap_hole :
    (RawInode.ofBlocks #v[0, 5, 0, 0, 0, 0, 0, 0, 0, 0, 0, 0, 0, 0, 0]).WellFormed (fun _ => 7) 1024 ∧
    ¬(RawInode.ofBlocks #v[0, 5, 0, 0, 0, 0, 0, 0, 0, 0, 0, 0, 0, 0, 0]).ReadsThroughMap (fun _ => 7)
      1024 512 [] 0 1 := by
  refine and_iff_left_of_imp (fun wellFormed through => ?_) |>.mpr
    (RawInode.wellFormed_direct rfl rfl rfl (by decide) (by decide))
  have place := (RawInode.readable_of_readsThroughMap (.inl rfl) (by decide) wellFormed through).2 0
    (by decide)
  change InPlace _ _ 0 at place
  rw [InPlace, RawInode.getD_blockMap_direct (by decide), if_neg (by decide), Nat.le_zero,
    countP_eq_zero] at place
  refine absurd (place 5 ?_) (by decide)
  exact mem_append_left _ (by decide)

end ThroughMap

end JeoKernel.Ext2
