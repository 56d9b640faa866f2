import Mathlib.Data.Vector.Basic
import JeoKernel.Lib.Bytes
import JeoKernel.Ext2.BlockAlloc

/-!
# Inodes: flushing to the inode table and loading from it

`GetMetaWrites` encodes the in-memory inode into its slot of the inode table, `LoadInode` decodes a
slot into an in-memory inode.  The slot lies in one page of the table or straddles two; the pages
are cached per block group and shared by all inodes in them.  The two directions are written as two
separate field lists over direct, indirect and double indirect block pointers and over ids split
into a low and a high half.
-/

namespace JeoKernel.Ext2

open List hiding Vector

/-! ## The on-disk record -/

/-- `ext2inode`. -/
structure RawInode where
  mode : UInt16
  uid : UInt16
  size : UInt32
  atime : UInt32
  ctime : UInt32
  mtime : UInt32
  dtime : UInt32
  gid : UInt16
  linksCount : UInt16
  blocks : UInt32
  flags : UInt32
  reserved1 : UInt32
  block : Vector UInt32 15
  generation : UInt32
  fileAcl : UInt32
  dirAcl : UInt32
  fragmentAddress : UInt32
  fragmentNumber : UInt8
  fragmentSize : UInt8
  pad1 : UInt16
  uidHigh : UInt16
  gidHigh : UInt16
  extspace : UInt32
  deriving DecidableEq

namespace RawInode

/-- The widths of the fields of `ext2inode`, in their order. -/
def layout : List ℕ :=
  [2, 2, 4, 4, 4, 4, 4, 2, 2, 4, 4, 4] ++ replicate 15 4 ++ [4, 4, 4, 4, 1, 1, 2, 2, 2, 4]

/-- `sizeof(ext2inode)` -/
example : layout.sum = 128 := rfl

def fields (raw : RawInode) : List ℕ :=
  [raw.mode.toNat, raw.uid.toNat, raw.size.toNat, raw.atime.toNat, raw.ctime.toNat,
    raw.mtime.toNat, raw.dtime.toNat, raw.gid.toNat, raw.linksCount.toNat, raw.blocks.toNat,
    raw.flags.toNat, raw.reserved1.toNat] ++ raw.block.toList.map UInt32.toNat ++
  [raw.generation.toNat, raw.fileAcl.toNat, raw.dirAcl.toNat, raw.fragmentAddress.toNat,
    raw.fragmentNumber.toNat, raw.fragmentSize.toNat, raw.pad1.toNat, raw.uidHigh.toNat,
    raw.gidHigh.toNat, raw.extspace.toNat]

def ofFields (fields : List ℕ) : RawInode where
  mode := .ofNat (fields.getD 0 0)
  uid := .ofNat (fields.getD 1 0)
  size := .ofNat (fields.getD 2 0)
  atime := .ofNat (fields.getD 3 0)
  ctime := .ofNat (fields.getD 4 0)
  mtime := .ofNat (fields.getD 5 0)
  dtime := .ofNat (fields.getD 6 0)
  gid := .ofNat (fields.getD 7 0)
  linksCount := .ofNat (fields.getD 8 0)
  blocks := .ofNat (fields.getD 9 0)
  flags := .ofNat (fields.getD 10 0)
  reserved1 := .ofNat (fields.getD 11 0)
  block := Vector.ofFn fun i => .ofNat (fields.getD (12 + i) 0)
  generation := .ofNat (fields.getD 27 0)
  fileAcl := .ofNat (fields.getD 28 0)
  dirAcl := .ofNat (fields.getD 29 0)
  fragmentAddress := .ofNat (fields.getD 30 0)
  fragmentNumber := .ofNat (fields.getD 31 0)
  fragmentSize := .ofNat (fields.getD 32 0)
  pad1 := .ofNat (fields.getD 33 0)
  uidHigh := .ofNat (fields.getD 34 0)
  gidHigh := .ofNat (fields.getD 35 0)
  extspace := .ofNat (fields.getD 36 0)

def bytes (raw : RawInode) : List UInt8 := Record.encode layout raw.fields

def ofBytes (bytes : List UInt8) : RawInode := ofFields (Record.decode layout bytes)

theorem fits_fields (raw : RawInode) : Record.Fits layout raw.fields := by
  have word (x : UInt32) : x.toNat < 256 ^ 4 := x.toNat_lt
  have half (x : UInt16) : x.toNat < 256 ^ 2 := x.toNat_lt
  have byte (x : UInt8) : x.toNat < 256 ^ 1 := x.toNat_lt
  have pointers : Record.Fits (replicate 15 4) (raw.block.toList.map UInt32.toNat) := by
    have := Record.fits_replicate 4 (raw.block.toList.map UInt32.toNat)
      fun value h => by
        obtain ⟨x, -, rfl⟩ := mem_map.mp h
        exact word x
    rwa [length_map, Vector.length_toList] at this
  refine Record.Fits.append (Record.Fits.append ?_ pointers) ?_
  · exact ⟨half _, half _, word _, word _, word _, word _, word _, half _, half _, word _, word _,
      word _, trivial⟩
  · exact ⟨word _, word _, word _, word _, byte _, byte _, half _, half _, half _, word _, trivial⟩

theorem getD_fields_block (raw : RawInode) {i : ℕ} (hi : i < 15) :
    raw.fields.getD (12 + i) 0 = raw.block[i].toNat := by
  rw [add_comm]
  simp [fields, getElem?_append, hi]

theorem ofFields_fields (raw : RawInode) : ofFields raw.fields = raw := by
  have block : (Vector.ofFn fun i : Fin 15 => UInt32.ofNat (raw.fields.getD (12 + i) 0)) =
      raw.block := by
    refine Vector.ext fun i hi => ?_
    rw [Vector.getElem_ofFn, getD_fields_block raw hi, UInt32.ofNat_toNat]
  rw [ofFields, block]
  simp [fields]

theorem length_bytes (raw : RawInode) : raw.bytes.length = 128 :=
  Record.length_encode raw.fits_fields

theorem ofBytes_bytes (raw : RawInode) : ofBytes raw.bytes = raw := by
  rw [ofBytes, bytes, Record.decode_encode raw.fits_fields, ofFields_fields]

end RawInode

/-! ## Slots -/

/-- `ext2fs_inode::Read` on the two pages of the slot; `none` is the result false. -/
def readSlot (page0 page1 : Option Buffer) (offset : ℕ) : Option RawInode :=
  if 128 + offset > 4096 then
    match page1, page0 with
    | some p1, some p0 =>
      some (.ofBytes (p0.read offset (4096 - offset) ++ p1.read 0 (128 - (4096 - offset))))
    | _, _ => none
  else page0.map fun p0 => .ofBytes (p0.read offset 128)

/-- The end of `ext2fs_inode::Write`: the part in the first page, then the zeroes behind it. -/
def writeFirst (page0 page1 : Option Buffer) (offset : ℕ) (bytes : List UInt8) (extendedSize : ℕ) :
    Bool × Option Buffer × Option Buffer :=
  match page0 with
  | none => (false, none, page1)
  | some p0 => (true, some ((p0.write offset bytes).zero (offset + bytes.length) extendedSize), page1)

/-- `ext2fs_inode::Write`: the record, and zeroes up to the inode size of the file system. -/
def writeSlot (page0 page1 : Option Buffer) (offset inodesize : ℕ) (raw : RawInode) :
    Bool × Option Buffer × Option Buffer :=
  let fullInodeSize := if inodesize > 128 then inodesize else 128
  let extendedSize := fullInodeSize - 128
  if fullInodeSize + offset > 4096 then
    match page1 with
    -- Where only the zeroes reach the second page the source does not test the pointer.
    | none => (false, page0, none)
    | some p1 =>
      if 128 + offset > 4096 then
        let sz1 := 4096 - offset
        let p1 := (p1.write 0 (raw.bytes.drop sz1)).zero (128 - sz1) extendedSize
        writeFirst page0 (some p1) offset (raw.bytes.take sz1) 0
      else
        let clear0 := 4096 - offset - 128
        writeFirst page0 (some (p1.zero 0 (extendedSize - clear0))) offset raw.bytes clear0
  else writeFirst page0 page1 offset raw.bytes extendedSize

/-! ## The inode table -/

/-- A page of the inode table: `InodeTableBlocks[index]` of a group. -/
structure PageRef where
  group : ℕ
  index : ℕ
  deriving DecidableEq

/-- The part of `ext2fs_group` that belongs to the inode table. -/
structure InodeGroup where
  inodeTableBlock : ℕ
  inodeTableOffset : ℕ
  inodeTableBlocks : List (Option Buffer)

/-- The state `LoadInode` and `GetMetaWrites` work on, and the device below it. -/
structure InodeTable where
  inodesPerGroup : ℕ
  inodeSize : ℕ
  blockSize : ℕ
  groups : List InodeGroup
  devBlocksize : ℕ
  /-- `bdev->ReadBlock(block, count)` -/
  readBlock : ℕ → ℕ → Option Buffer

/-- `ext2fs_inode`. -/
structure Inode where
  blocks0 : Option PageRef
  blocks1 : Option PageRef
  offset : ℕ
  blocksize : ℕ
  inodesize : ℕ
  blockRefs : List UInt32
  symlinkPointer : List UInt8
  blockCache : List (Option Buffer)
  inode : ℕ
  filesize : UInt64
  blocknum : ℕ
  mode : UInt16
  linkCount : UInt16
  uid : UInt32
  atime : UInt32
  ctime : UInt32
  mtime : UInt32
  dtime : UInt32
  gid : UInt32
  flags : UInt32
  generation : UInt32
  fileAcl : UInt32
  dirAcl : UInt32
  fragmentAddress : UInt32
  fragmentNumber : UInt8
  fragmentSize : UInt8
  dirty : Bool

namespace InodeTable

/-- The page behind a pointer; `none` is a null pointer. -/
def page (fs : InodeTable) (ref : PageRef) : Option Buffer :=
  fs.groups[ref.group]?.bind fun group => group.inodeTableBlocks[ref.index]?.join

def setPage (fs : InodeTable) (ref : PageRef) (page : Buffer) : InodeTable :=
  { fs with
    groups := fs.groups.modify ref.group fun group =>
      { group with inodeTableBlocks := group.inodeTableBlocks.set ref.index (some page) } }

/-- Store a page through a pointer that may be null. -/
def put (fs : InodeTable) (ref : Option PageRef) (page : Option Buffer) : InodeTable :=
  match ref, page with
  | some ref, some page => fs.setPage ref page
  | _, _ => fs

end InodeTable

/-! ## Flushing -/

/-- The direct pointers from `blockRefs`, and zeroes for the rest and for the indirect ones. -/
def directBlocks (blockRefs : List UInt32) : Vector UInt32 15 :=
  Vector.ofFn fun i => if i.val < 12 then blockRefs.getD i 0 else 0

/-- The fields `GetMetaWrites` sets in the record it has read. -/
def Inode.store (inode : Inode) (raw : RawInode) : RawInode :=
  { raw with
    blocks := .ofNat (inode.blockRefs.length * inode.blocksize / 512)
    mode := inode.mode
    uid := (inode.uid &&& 0xFFFF).toUInt16
    size := inode.filesize.toUInt32
    atime := inode.atime
    ctime := inode.ctime
    mtime := inode.mtime
    dtime := inode.dtime
    gid := (inode.gid &&& 0xFFFF).toUInt16
    flags := inode.flags
    reserved1 := 0
    generation := inode.generation
    fileAcl := inode.fileAcl
    dirAcl := inode.dirAcl
    fragmentAddress := inode.fragmentAddress
    fragmentNumber := inode.fragmentNumber
    fragmentSize := inode.fragmentSize
    uidHigh := ((inode.uid &&& 0xFFFF0000) >>> 16).toUInt16
    gidHigh := ((inode.gid &&& 0xFFFF0000) >>> 16).toUInt16
    linksCount := inode.linkCount
    block := directBlocks inode.blockRefs }

structure DirtyBlock where
  page1 : Option PageRef
  page2 : Option PageRef
  blockaddr : ℕ
  offset : ℕ
  length : UInt32
  deriving DecidableEq

def Inode.read (fs : InodeTable) (inode : Inode) : Option RawInode :=
  readSlot (inode.blocks0.bind fs.page) (inode.blocks1.bind fs.page) inode.offset

def Inode.write (fs : InodeTable) (inode : Inode) (raw : RawInode) : Bool × InodeTable :=
  let (written, page0, page1) := writeSlot (inode.blocks0.bind fs.page)
    (inode.blocks1.bind fs.page) inode.offset inode.inodesize raw
  (written, (fs.put inode.blocks0 page0).put inode.blocks1 page1)

/-- `GetMetaWrites`, with the table and the inode it leaves behind. -/
def getMetaWrites (fs : InodeTable) (inode : Inode) : InodeTable × Inode × List DirtyBlock :=
  if inode.dirty then
    match inode.read fs with
    | none => (fs, inode, [])
    | some raw =>
      match inode.write fs (inode.store raw) with
      | (false, fs) => (fs, inode, [])
      | (true, fs) =>
        let wsize := if 128 < inode.inodesize then inode.inodesize else 128
        (fs, { inode with dirty := false },
          [⟨inode.blocks0, inode.blocks1, inode.blocknum, 0, .ofNat (inode.offset + wsize)⟩])
  else (fs, inode, [])

def Inode.setFileSize (inode : Inode) (filesize : UInt64) : Inode :=
  { inode with filesize, dirty := true }

/-! ## Loading -/

structure Location where
  group : ℕ
  blockNum : ℕ
  blockEnd : ℕ
  offset : ℕ
  deriving DecidableEq

/-- The arithmetic at the start of `LoadInode`; `none` is `INVALID_REQUEST`. -/
def locate (fs : InodeTable) (inodeNum : ℕ) : Option Location :=
  let n := (inodeNum + (2 ^ 64 - 1)) % 2 ^ 64
  fs.groups[n / fs.inodesPerGroup]?.map fun group =>
    let offset := n % fs.inodesPerGroup * fs.inodeSize + group.inodeTableOffset
    ⟨n / fs.inodesPerGroup, offset / 4096, (offset + fs.inodeSize - 1) / 4096, offset % 4096⟩

/-- The device block in which page `index` of a group's table starts. -/
def rdStart (fs : InodeTable) (group : InodeGroup) (index : ℕ) : ℕ :=
  index * 4096 / fs.devBlocksize + group.inodeTableBlock

/-- Read a page of the table from the device unless it is cached. -/
def cachePage (fs : InodeTable) (ref : PageRef) : InodeTable :=
  match fs.page ref, fs.groups[ref.group]? with
  | none, some group =>
    let rdEnd := (ref.index * 4096 + 4096 + fs.devBlocksize - 1) / fs.devBlocksize +
      group.inodeTableBlock
    match fs.readBlock (rdStart fs group ref.index) (rdEnd - rdStart fs group ref.index) with
    | some buffer =>
      fs.setPage ref fun i => buffer (ref.index * 4096 % fs.devBlocksize + i)
    | none => fs
  | _, _ => fs

def readPointers (fs : InodeTable) (block : UInt32) : Option (List UInt32) :=
  let addr := block.toNat * fs.blockSize
  let phys := addr / fs.devBlocksize
  let physBlocks := (addr + fs.blockSize - 1) / fs.devBlocksize - phys + 1
  (fs.readBlock phys physBlocks).map fun buffer =>
    (range (fs.blockSize / 4)).map fun i =>
      .ofNat (Record.leValue (buffer.read (addr % fs.devBlocksize + 4 * i) 4))

/-- The blocks behind a single indirect pointer, holes left out. -/
def indirectRefs (fs : InodeTable) (block : UInt32) : Option (List UInt32) :=
  if block ≠ 0 then (readPointers fs block).map (·.filter (· ≠ 0)) else some []

def doubleIndirectRefs (fs : InodeTable) (block : UInt32) : Option (List UInt32) :=
  if block ≠ 0 then do
    let pointers ← readPointers fs block
    let refs ← pointers.mapM (indirectRefs fs)
    return refs.flatten
  else some []

/-- The `blockRefs` of a loaded inode; `none` is a read error. -/
def RawInode.blockRefs (fs : InodeTable) (raw : RawInode) : Option (List UInt32) :=
  let direct := (raw.block.toList.take 12).filter (· ≠ 0)
  if raw.size ≤ 60 then some direct
  else do
    let single ← indirectRefs fs raw.block[12]
    let double ← doubleIndirectRefs fs raw.block[13]
    return direct ++ single ++ double

/-- `ext2fs_get_inode_result`. -/
structure GetInodeResult where
  inode : Option Inode
  status : FilesystemStatus

/-- The inode object `LoadInode` fills from the record. -/
def RawInode.load (raw : RawInode) (blocks0 blocks1 : Option PageRef) (fs : InodeTable)
    (loc : Location) (blocknum inodeNum : ℕ) (blockRefs : List UInt32) : Inode where
  blocks0 := blocks0
  blocks1 := blocks1
  offset := loc.offset
  blocksize := fs.blockSize
  inodesize := fs.inodeSize
  blockRefs := blockRefs
  symlinkPointer :=
    if raw.size ≤ 60 then
      (Record.encode (replicate 15 4) (raw.block.toList.map UInt32.toNat)).take raw.size.toNat
    else []
  blockCache := replicate ((raw.size.toNat + 4095) / 4096) none
  inode := inodeNum
  filesize := raw.size.toUInt64
  blocknum := blocknum
  mode := raw.mode
  linkCount := raw.linksCount
  uid := raw.uid.toUInt32 + raw.uidHigh.toUInt32 <<< 16
  atime := raw.atime
  ctime := raw.ctime
  mtime := raw.mtime
  dtime := raw.dtime
  -- The high half is added first and lost when the low half is assigned.
  gid := raw.gid.toUInt32
  flags := raw.flags
  generation := raw.generation
  fileAcl := raw.fileAcl
  dirAcl := raw.dirAcl
  fragmentAddress := raw.fragmentAddress
  fragmentNumber := raw.fragmentNumber
  fragmentSize := raw.fragmentSize
  dirty := false

/-- A pointer to a page of the table, null if the page could not be read. -/
def InodeTable.pointer (fs : InodeTable) (ref : PageRef) : Option PageRef :=
  if (fs.page ref).isSome then some ref else none

/-- The pages of a slot, read from the device unless they are cached. -/
def cachePages (fs : InodeTable) (loc : Location) : InodeTable :=
  let fs := cachePage fs ⟨loc.group, loc.blockNum⟩
  if loc.blockNum + 1 = loc.blockEnd then cachePage fs ⟨loc.group, loc.blockEnd⟩ else fs

/-- The rest of `LoadInode`, once the pages of the slot are cached. -/
def loadCached (fs : InodeTable) (loc : Location) (inodeNum : ℕ) : GetInodeResult :=
  let blocks0 := fs.pointer ⟨loc.group, loc.blockNum⟩
  let blocks1 := if loc.blockNum = loc.blockEnd then none else fs.pointer ⟨loc.group, loc.blockEnd⟩
  if loc.blockNum = loc.blockEnd ∨ loc.blockNum + 1 = loc.blockEnd then
    match readSlot (blocks0.bind fs.page) (blocks1.bind fs.page) loc.offset with
    | none => ⟨none, .ioError⟩
    | some raw =>
      match raw.blockRefs fs with
      | none => ⟨none, .ioError⟩
      | some blockRefs =>
        let blocknum := (fs.groups[loc.group]?.map (rdStart fs · loc.blockNum)).getD 0
        ⟨some (raw.load blocks0 blocks1 fs loc blocknum inodeNum blockRefs), .success⟩
  else ⟨none, .success⟩

/-- `LoadInode`, with the table it leaves behind. -/
def loadInode (fs : InodeTable) (inodeNum : ℕ) : InodeTable × GetInodeResult :=
  match locate fs inodeNum with
  | none => (fs, ⟨none, .invalidRequest⟩)
  | some loc => (cachePages fs loc, loadCached (cachePages fs loc) loc inodeNum)

/-! ## A slot reads back what was written -/

open Buffer

variable {page0 page1 page0' page1' : Option Buffer}

theorem writeFirst_eq_true {offset ext : ℕ} {bytes : List UInt8}
    (h : writeFirst page0 page1 offset bytes ext = (true, page0', page1')) :
    page1' = page1 ∧ page0.isSome ∧ ∃ p0', page0' = some p0' ∧
      p0'.read offset bytes.length = bytes := by
  rcases page0 with _ | p0
  · simp [writeFirst] at h
  · simp only [writeFirst, Prod.mk.injEq, true_and] at h
    refine ⟨h.2.symm, rfl, _, h.1.symm, ?_⟩
    rw [read_zero_of_disjoint _ (.inl (Nat.le_refl _)), read_write_self]

open RawInode

variable {offset inodesize : ℕ}

theorem readSlot_writeSlot {raw : RawInode}
    (h : writeSlot page0 page1 offset inodesize raw = (true, page0', page1')) :
    readSlot page0' page1' offset = some raw ∧ page0.isSome ∧ page0'.isSome ∧
      page1'.isSome = page1.isSome ∧ (inodesize + offset > 4096 → page1.isSome) := by
  have size := raw.length_bytes
  have atLeast : 128 ≤ (if inodesize > 128 then inodesize else 128) ∧
      inodesize ≤ if inodesize > 128 then inodesize else 128 := by split_ifs <;> omega
  revert h
  fun_cases writeSlot page0 page1 offset inodesize raw with intro h
  | case1 => simp at h
  | case2 full _ big p1 crosses sz1 =>
    obtain ⟨rfl, present, p0', rfl, read⟩ := writeFirst_eq_true h
    have taken : (raw.bytes.take sz1).length = sz1 := by
      rw [length_take]; omega
    have rest : (raw.bytes.drop sz1).length = 128 - sz1 := by
      rw [length_drop, size]
    have read1 := read_write_self p1 0 (raw.bytes.drop sz1)
    rw [taken] at read
    rw [rest] at read1
    refine ⟨?_, present, by simp, by simp, fun _ => by simp⟩
    unfold readSlot
    rw [if_pos crosses]
    simp only
    rw [read, read_zero_of_disjoint _ (.inl (by omega)), read1, take_append_drop, ofBytes_bytes]
  | case3 full _ big p1 crosses =>
    obtain ⟨rfl, present, p0', rfl, read⟩ := writeFirst_eq_true h
    refine ⟨?_, present, by simp, by simp, fun _ => by simp⟩
    rw [size] at read
    rw [readSlot, if_neg crosses, Option.map_some, read, ofBytes_bytes]
  | case4 _ _ _ small =>
    obtain ⟨rfl, present, p0', rfl, read⟩ := writeFirst_eq_true h
    refine ⟨?_, present, rfl, rfl, fun reaches => by omega⟩
    rw [size] at read
    unfold readSlot
    rw [if_neg (by omega), Option.map_some, read, ofBytes_bytes]

/-- What a slot holds: the record, and zeroes up to the inode size. -/
def slotBytes (inodesize : ℕ) (raw : RawInode) : List UInt8 :=
  raw.bytes ++ replicate (inodesize - 128) 0

theorem writeSlot_eq (p0 : Buffer) {page1 : Option Buffer} (raw : RawInode)
    (inside : offset < 4096) (least : 128 ≤ inodesize)
    (reach : offset + inodesize ≤ 4096 ∨ page1.isSome) :
    writeSlot (some p0) page1 offset inodesize raw =
      (true, some (p0.write offset ((slotBytes inodesize raw).take (4096 - offset))),
        page1.map (·.write 0 ((slotBytes inodesize raw).drop (4096 - offset)))) := by
  have size := raw.length_bytes
  have full : (if inodesize > 128 then inodesize else 128) = inodesize := by split_ifs <;> omega
  have first : ∀ n, (p0.write offset raw.bytes).write (offset + 128) (replicate n 0) =
      p0.write offset (raw.bytes ++ replicate n 0) := fun n => by
    rw [← write_append, size]
  unfold writeSlot writeFirst slotBytes
  rw [full, take_append, drop_append, size, take_replicate, drop_replicate]
  simp only [zero, write_append]
  by_cases big : inodesize + offset > 4096
  · obtain ⟨p1, rfl⟩ := Option.isSome_iff_exists.mp (reach.resolve_left (by omega))
    rw [if_pos big]
    dsimp only
    by_cases crosses : 128 + offset > 4096
    · have second := write_append p1 0 (raw.bytes.drop (4096 - offset))
        (replicate (inodesize - 128) 0)
      rw [length_drop, size, zero_add] at second
      rw [if_pos crosses, second]
      simp [show 4096 - offset - 128 = 0 by omega]
    · rw [if_neg crosses, take_of_length_le (by omega), drop_of_length_le (by omega)]
      simp [first, show min (4096 - offset - 128) (inodesize - 128) = 4096 - offset - 128 by omega]
  · rw [if_neg big, take_of_length_le (by omega), drop_of_length_le (by omega)]
    have none : ∀ p1 : Buffer, p1.write 0 [] = p1 := fun p1 => by
      funext i
      simp [write]
    simp [first, none, show min (4096 - offset - 128) (inodesize - 128) = inodesize - 128 by omega,
      show inodesize - 128 - (4096 - offset - 128) = 0 by omega]

def pairByte (page0 page1 : Option Buffer) (a : ℕ) : Option UInt8 :=
  if a < 4096 then page0.map (· a) else page1.map (· (a - 4096))

theorem writeSlot_frame {offset inodesize : ℕ} (p0 : Buffer) {page1 : Option Buffer} (raw : RawInode)
    (inside : offset < 4096) (least : 128 ≤ inodesize)
    (reach : offset + inodesize ≤ 4096 ∨ page1.isSome) :
    ∃ page0' page1', writeSlot (some p0) page1 offset inodesize raw = (true, page0', page1') ∧
      readSlot page0' page1' offset = some raw ∧
      ∀ a < 8192, pairByte page0' page1' a =
        if offset ≤ a ∧ a < offset + inodesize then some ((slotBytes inodesize raw).getD (a - offset) 0)
        else pairByte (some p0) page1 a := by
  have written := writeSlot_eq p0 raw inside least reach
  have size : (slotBytes inodesize raw).length = inodesize := by
    rw [slotBytes, length_append, raw.length_bytes, length_replicate]
    omega
  refine ⟨_, _, written, (readSlot_writeSlot written).1, fun a below => ?_⟩
  unfold pairByte write
  simp only [Option.map_some, Option.map_map, Function.comp_def, length_take, length_drop, size]
  split_ifs with first <;> try omega
  · rw [getD_eq_getElem?_getD, getElem?_take_of_lt (by omega), getD_eq_getElem?_getD]
  · rfl
  · obtain ⟨p1, rfl⟩ := Option.isSome_iff_exists.mp (reach.resolve_left (by omega))
    rw [Option.map_some, getD_eq_getElem?_getD, getElem?_drop, getD_eq_getElem?_getD,
      show 4096 - offset + (a - 4096 - 0) = a - offset by omega]
  · rfl

/-- The slot straddles the two pages, and its record does not. -/
theorem writeSlot_frame_straddling : ∃ page0' page1',
    writeSlot (some fun _ => 7) (some fun _ => 9) 3900 256 (.ofBytes []) = (true, page0', page1') ∧
      readSlot page0' page1' 3900 = some (.ofBytes []) ∧ pairByte page0' page1' 3899 = some 7 ∧
      pairByte page0' page1' 4100 = some 0 ∧ pairByte page0' page1' 4156 = some 9 := by
  obtain ⟨page0', page1', written, read, bytes⟩ := @writeSlot_frame 3900 256 (fun _ => 7)
    (some fun _ => 9) (.ofBytes []) (by decide) (by decide) (.inr rfl)
  refine ⟨page0', page1', written, read, ?_, ?_, ?_⟩ <;> rw [bytes _ (by decide)] <;> decide +kernel

namespace InodeTable

variable {fs : InodeTable} {ref other : PageRef}

theorem page_setPage_self (present : (fs.page ref).isSome) (page : Buffer) :
    (fs.setPage ref page).page ref = some page := by
  unfold InodeTable.page setPage at *
  simp only [getElem?_modify, if_true]
  rcases hgroup : fs.groups[ref.group]? with _ | group
  · simp [hgroup] at present
  · have inside : ref.index < group.inodeTableBlocks.length := by
      by_contra outside
      simp [hgroup, getElem?_eq_none (not_lt.mp outside)] at present
    simp [inside]

theorem page_setPage_of_ne (apart : ref ≠ other) (page : Buffer) :
    (fs.setPage ref page).page other = fs.page other := by
  unfold InodeTable.page setPage
  simp only [getElem?_modify]
  by_cases group : ref.group = other.group
  · have index : ref.index ≠ other.index := fun h => apart (by
      cases ref; cases other; simp_all)
    rcases fs.groups[other.group]? with _ | g <;> simp [group, index]
  · rcases fs.groups[other.group]? with _ | g <;> simp [group]

theorem page_put_self (fs : InodeTable) (pointer : Option PageRef) (page : Option Buffer)
    (same : page.isSome = (pointer.bind fs.page).isSome) :
    pointer.bind (fs.put pointer page).page = page := by
  rcases pointer with _ | ref
  · have null : page = none := by simpa using same
    rw [null, Option.bind_none]
  · rcases page with _ | page
    · simpa [put] using same.symm
    · exact page_setPage_self (by simpa using same.symm) page

theorem page_put_of_ne {pointer : Option PageRef} (page : Option Buffer)
    (apart : ∀ r ∈ pointer, r ≠ other) : (fs.put pointer page).page other = fs.page other := by
  rcases pointer with _ | ref
  · rfl
  · rcases page with _ | page
    · rfl
    · exact page_setPage_of_ne (apart ref rfl) page

theorem locate_put (pointer : Option PageRef) (page : Option Buffer) (inodeNum : ℕ) :
    locate (fs.put pointer page) inodeNum = locate fs inodeNum := by
  rcases pointer with _ | ref
  · rfl
  · rcases page with _ | page
    · rfl
    · simp only [locate, put, setPage, getElem?_modify]
      generalize (inodeNum + (2 ^ 64 - 1)) % 2 ^ 64 = n
      rcases fs.groups[n / fs.inodesPerGroup]? with _ | group
      · rfl
      · by_cases h : ref.group = n / fs.inodesPerGroup <;> simp [h]

end InodeTable

variable {fs' : InodeTable} {inode : Inode}

open Inode

variable {fs : InodeTable}

theorem Inode.write_eq_true {raw : RawInode} (h : inode.write fs raw = (true, fs'))
    (apart : ∀ r₀ ∈ inode.blocks0, ∀ r₁ ∈ inode.blocks1, r₀ ≠ r₁) :
    inode.read fs' = some raw ∧ (inode.blocks0.bind fs'.page).isSome ∧
      (inode.inodesize + inode.offset > 4096 → (inode.blocks1.bind fs'.page).isSome) ∧
      ∀ n, locate fs' n = locate fs n := by
  unfold write at h
  generalize out : writeSlot (inode.blocks0.bind fs.page) (inode.blocks1.bind fs.page)
    inode.offset inode.inodesize raw = written at h
  obtain ⟨written, page0, page1⟩ := written
  obtain ⟨rfl, rfl⟩ := h
  obtain ⟨read, present, present', same, reaches⟩ := readSlot_writeSlot out
  -- The second store does not touch the first page.
  have read0 : inode.blocks0.bind ((fs.put inode.blocks0 page0).put inode.blocks1 page1).page =
      page0 := by
    rcases hb : inode.blocks0 with _ | r₀
    · simp [hb] at present
    · rw [hb] at present
      have stored := InodeTable.page_put_self fs (some r₀) page0
        (by rw [present, present'])
      rw [Option.bind_some] at stored ⊢
      rw [InodeTable.page_put_of_ne page1 (fun r₁ h₁ => (apart r₀ hb r₁ h₁).symm), stored]
  have old1 : inode.blocks1.bind (fs.put inode.blocks0 page0).page =
      inode.blocks1.bind fs.page := by
    rcases hb : inode.blocks1 with _ | r₁
    · rfl
    · exact InodeTable.page_put_of_ne page0 fun r₀ h₀ => apart r₀ h₀ r₁ hb
  have read1 : inode.blocks1.bind ((fs.put inode.blocks0 page0).put inode.blocks1 page1).page =
      page1 := InodeTable.page_put_self _ _ page1 (by rw [old1, same])
  refine ⟨by rw [Inode.read, read0, read1, read], by rw [read0, present'], fun h => ?_, fun n => ?_⟩
  · rw [read1, same, reaches h]
  · rw [InodeTable.locate_put, InodeTable.locate_put]

/-! ## Fields through the record -/

theorem and_mask (n : ℕ) : n &&& 65535 = n % 65536 := Nat.and_two_pow_sub_one_eq_mod n 16

theorem toNat_low_half (x : UInt32) : (x &&& 0xFFFF).toUInt16.toUInt32.toNat = x.toNat % 65536 := by
  simp [and_mask]

theorem toNat_high_half (x : UInt32) :
    ((x &&& 0xFFFF0000) >>> 16).toUInt16.toUInt32.toNat = x.toNat / 65536 := by
  have shifted : (x.toNat &&& 0xFFFF0000) >>> 16 = x.toNat / 65536 % 65536 := by
    rw [Nat.shiftRight_and_distrib, ← and_mask, Nat.shiftRight_eq_div_pow]
    rfl
  have small := x.toNat_lt
  simp [shifted]
  omega

theorem uid_halves (x : UInt32) : (x &&& 0xFFFF).toUInt16.toUInt32 +
    ((x &&& 0xFFFF0000) >>> 16).toUInt16.toUInt32 <<< 16 = x := by
  have small := x.toNat_lt
  rw [← UInt32.toNat_inj, UInt32.toNat_add, UInt32.toNat_shiftLeft, toNat_low_half,
    toNat_high_half, Nat.shiftLeft_eq]
  simp
  omega

theorem gid_low_half_iff (x : UInt32) :
    (x &&& 0xFFFF).toUInt16.toUInt32 = x ↔ x.toNat < 65536 := by
  rw [← UInt32.toNat_inj, toNat_low_half]
  omega

theorem filesize_truncated_iff (x : UInt64) : x.toUInt32.toUInt64 = x ↔ x.toNat < 2 ^ 32 := by
  rw [← UInt64.toNat_inj]
  simp

theorem take_directBlocks (refs : List UInt32) :
    (directBlocks refs).toList.take 12 = refs.take 12 ++ replicate (12 - refs.length) 0 := by
  refine ext_getElem ?_ fun i h₁ h₂ => ?_
  · simp
    omega
  · have hi : i < 12 := by simp at h₁; omega
    by_cases inside : i < refs.length
    · simp [directBlocks, hi, inside]
    · simp [directBlocks, hi, getElem_append, inside]

theorem filter_directBlocks (refs : List UInt32) :
    ((directBlocks refs).toList.take 12).filter (· ≠ 0) = (refs.take 12).filter (· ≠ 0) := by
  rw [take_directBlocks, filter_append]
  simp

theorem filter_take_eq_self_iff (refs : List UInt32) :
    (refs.take 12).filter (· ≠ 0) = refs ↔ refs.length ≤ 12 ∧ 0 ∉ refs := by
  constructor
  · intro h
    have short : refs.length ≤ 12 := by
      have := length_filter_le (· ≠ 0) (refs.take 12)
      rw [h, length_take] at this
      omega
    refine ⟨short, fun mem => ?_⟩
    rw [← h] at mem
    simp at mem
  · rintro ⟨short, nonzero⟩
    rw [take_of_length_le short, filter_eq_self]
    intro x hx
    simpa using fun h : x = 0 => nonzero (h ▸ hx)

theorem blockRefs_store (fs : InodeTable) (inode : Inode) (raw : RawInode) :
    (inode.store raw).blockRefs fs = some ((inode.blockRefs.take 12).filter (· ≠ 0)) := by
  have single : (inode.store raw).block[12] = 0 := by simp [store, directBlocks]
  have double : (inode.store raw).block[13] = 0 := by simp [store, directBlocks]
  have direct : ((inode.store raw).block.toList.take 12).filter (· ≠ 0) =
      (inode.blockRefs.take 12).filter (· ≠ 0) := filter_directBlocks inode.blockRefs
  unfold RawInode.blockRefs
  rw [direct, single, double]
  split_ifs
  · rfl
  · simp [indirectRefs, doubleIndirectRefs]

/-! ## Flush and reload -/

/-- The inode object belongs to slot `inodeNum` of the table: where `LoadInode` has put it, whatever
has become of its other fields and of the contents of the table since. -/
def Inode.At (inode : Inode) (fs : InodeTable) (inodeNum : ℕ) : Prop :=
  ∃ loc, locate fs inodeNum = some loc ∧
    (loc.blockNum = loc.blockEnd ∨ loc.blockNum + 1 = loc.blockEnd) ∧
    inode.offset = loc.offset ∧ inode.inodesize = fs.inodeSize ∧
    (∀ r ∈ inode.blocks0, r = ⟨loc.group, loc.blockNum⟩) ∧
    (∀ r ∈ inode.blocks1, r = ⟨loc.group, loc.blockEnd⟩ ∧ loc.blockNum ≠ loc.blockEnd)

variable {inodeNum : ℕ}

theorem Inode.At.setFileSize (slot : inode.At fs inodeNum) (filesize : UInt64) :
    (inode.setFileSize filesize).At fs inodeNum := slot

theorem locate_cachePage (fs : InodeTable) (ref : PageRef) (inodeNum : ℕ) :
    locate (cachePage fs ref) inodeNum = locate fs inodeNum := by
  unfold cachePage
  split
  · simp only
    split
    · exact InodeTable.locate_put (some ref) (some _) inodeNum
    · rfl
  · rfl

theorem InodeTable.eq_of_mem_pointer {ref r : PageRef} (h : r ∈ fs.pointer ref) : r = ref := by
  unfold InodeTable.pointer at h
  split_ifs at h
  · exact (Option.some.inj h).symm
  · simp at h

theorem locate_cachePages (fs : InodeTable) (loc : Location) (inodeNum : ℕ) :
    locate (cachePages fs loc) inodeNum = locate fs inodeNum := by
  unfold cachePages
  split_ifs <;> simp only [locate_cachePage]

theorem loadCached_eq_some {loc : Location} (h : (loadCached fs loc inodeNum).inode = some inode) :
    (loc.blockNum = loc.blockEnd ∨ loc.blockNum + 1 = loc.blockEnd) ∧
    ∃ raw blocknum blockRefs, inode = RawInode.load raw (fs.pointer ⟨loc.group, loc.blockNum⟩)
      (if loc.blockNum = loc.blockEnd then none else fs.pointer ⟨loc.group, loc.blockEnd⟩) fs loc
      blocknum inodeNum blockRefs := by
  unfold loadCached at h
  by_cases pages : loc.blockNum = loc.blockEnd ∨ loc.blockNum + 1 = loc.blockEnd
  · rw [if_pos pages] at h
    split at h
    · simp at h
    · split at h
      · simp at h
      · exact ⟨pages, _, _, _, (Option.some.inj h).symm⟩
  · simp [if_neg pages] at h

theorem loadInode_at (h : (loadInode fs inodeNum).2.inode = some inode) :
    inode.At (loadInode fs inodeNum).1 inodeNum := by
  unfold loadInode at h ⊢
  rcases located : locate fs inodeNum with _ | loc
  · simp [located] at h
  · simp only [located] at h ⊢
    have kept := (locate_cachePages fs loc inodeNum).trans located
    obtain ⟨pages, raw, blocknum, blockRefs, rfl⟩ := loadCached_eq_some h
    refine ⟨loc, kept, pages, rfl, rfl, fun r hr => InodeTable.eq_of_mem_pointer hr, fun r hr => ?_⟩
    by_cases one : loc.blockNum = loc.blockEnd
    · simp [load, one] at hr
    · simp only [load, if_neg one] at hr
      exact ⟨InodeTable.eq_of_mem_pointer hr, one⟩

/-- What flushing and reloading has to preserve. -/
structure SameInode (a b : Inode) : Prop where
  blockRefs : a.blockRefs = b.blockRefs
  uid : a.uid = b.uid
  gid : a.gid = b.gid
  mode : a.mode = b.mode
  filesize : a.filesize = b.filesize
  atime : a.atime = b.atime
  ctime : a.ctime = b.ctime
  mtime : a.mtime = b.mtime
  dtime : a.dtime = b.dtime
  flags : a.flags = b.flags
  linkCount : a.linkCount = b.linkCount

theorem exists_of_isSome_bind {pointer : Option PageRef} (h : (pointer.bind fs.page).isSome) :
    ∃ r, pointer = some r ∧ (fs.page r).isSome := by
  rcases pointer with _ | r
  · simp at h
  · exact ⟨r, rfl, h⟩

theorem cachePage_of_isSome {ref : PageRef} (present : (fs.page ref).isSome) :
    cachePage fs ref = fs := by
  obtain ⟨page, hpage⟩ := Option.isSome_iff_exists.mp present
  simp [cachePage, hpage]

/-- A slot that crosses its page reaches as far as the inode size says. -/
theorem crosses_of_locate {loc : Location} (h : locate fs inodeNum = some loc)
    (crosses : loc.blockNum + 1 = loc.blockEnd) : fs.inodeSize + loc.offset > 4096 := by
  obtain ⟨group, -, rfl⟩ := Option.map_eq_some_iff.mp h
  simp only at crosses ⊢
  omega

variable {writes : List DirtyBlock}

theorem getMetaWrites_eq {inode' : Inode} (h : getMetaWrites fs inode = (fs', inode', writes))
    (wrote : writes ≠ []) : ∃ raw, inode.write fs (inode.store raw) = (true, fs') := by
  revert h
  fun_cases getMetaWrites fs inode with rintro ⟨⟩
  | case3 _ raw _ _ written => exact ⟨raw, written⟩
  | _ => exact absurd rfl wrote

/-- Reloading a flushed inode: what `LoadInode` makes of the record `GetMetaWrites` has stored. -/
theorem loadInode_getMetaWrites {inode' : Inode} (slot : inode.At fs inodeNum)
    (flush : getMetaWrites fs inode = (fs', inode', writes)) (wrote : writes ≠ []) :
    ∃ raw blocks0 blocks1 loc blocknum, loadInode fs' inodeNum = (fs',
      ⟨some ((inode.store raw).load blocks0 blocks1 fs' loc blocknum inodeNum
        ((inode.blockRefs.take 12).filter (· ≠ 0))), .success⟩) := by
  obtain ⟨raw, written⟩ := getMetaWrites_eq flush wrote
  obtain ⟨loc, located, pages, offset, size, first, second⟩ := slot
  obtain ⟨read, present0, present1, kept⟩ := write_eq_true written (by
    intro r₀ h₀ r₁ h₁ same
    rw [first r₀ h₀, (second r₁ h₁).1] at same
    exact (second r₁ h₁).2 (by simpa using same))
  rw [offset, size] at present1
  obtain ⟨r₀, hr₀, hp₀⟩ := exists_of_isSome_bind present0
  obtain rfl := first r₀ hr₀
  have cached : cachePage fs' ⟨loc.group, loc.blockNum⟩ = fs' := cachePage_of_isSome hp₀
  -- The second page is null exactly when the slot has none.
  have second' : inode.blocks1.bind fs'.page = (if loc.blockNum = loc.blockEnd then none else
      fs'.pointer ⟨loc.group, loc.blockEnd⟩).bind fs'.page ∧
      (if loc.blockNum + 1 = loc.blockEnd then cachePage fs' ⟨loc.group, loc.blockEnd⟩ else fs') =
        fs' := by
    rcases pages with one | two
    · have null : inode.blocks1 = none := by
        rcases hb : inode.blocks1 with _ | r₁
        · rfl
        · exact absurd one (second r₁ hb).2
      simp [null, one]
    · have reach := present1 (crosses_of_locate located two)
      obtain ⟨r₁, hr₁, hp₁⟩ := exists_of_isSome_bind reach
      obtain rfl := (second r₁ hr₁).1
      rw [if_neg (by omega), if_pos two, cachePage_of_isSome hp₁, hr₁, InodeTable.pointer,
        if_pos hp₁]
      exact ⟨rfl, rfl⟩
  have pointer : fs'.pointer ⟨loc.group, loc.blockNum⟩ = some ⟨loc.group, loc.blockNum⟩ :=
    if_pos hp₀
  rw [Inode.read, hr₀, second'.1, offset] at read
  refine ⟨raw, some ⟨loc.group, loc.blockNum⟩,
    if loc.blockNum = loc.blockEnd then none else fs'.pointer ⟨loc.group, loc.blockEnd⟩, loc,
    (fs'.groups[loc.group]?.map (rdStart fs' · loc.blockNum)).getD 0, ?_⟩
  unfold loadInode loadCached cachePages
  simp only [kept, located, cached, second'.2, pointer, read, if_pos pages, blockRefs_store]

theorem sameInode_load_store_iff (inode : Inode) (raw : RawInode) (blocks0 blocks1 : Option PageRef)
    (fs : InodeTable) (loc : Location) (blocknum inodeNum : ℕ) :
    SameInode ((inode.store raw).load blocks0 blocks1 fs loc blocknum inodeNum
      ((inode.blockRefs.take 12).filter (· ≠ 0))) inode ↔
    inode.blockRefs.length ≤ 12 ∧ 0 ∉ inode.blockRefs ∧ inode.gid.toNat < 2 ^ 16 ∧
      inode.filesize.toNat < 2 ^ 32 := by
  constructor
  · intro same
    obtain ⟨short, nonzero⟩ := (filter_take_eq_self_iff _).mp same.blockRefs
    exact ⟨short, nonzero, (gid_low_half_iff _).mp same.gid,
      (filesize_truncated_iff _).mp same.filesize⟩
  · rintro ⟨short, nonzero, low, small⟩
    exact ⟨(filter_take_eq_self_iff _).mpr ⟨short, nonzero⟩, uid_halves _,
      (gid_low_half_iff _).mpr low, rfl, (filesize_truncated_iff _).mpr small, rfl, rfl, rfl, rfl,
      rfl, rfl⟩

/-- An inode flushed by `GetMetaWrites` is loaded again, and agrees with what was flushed exactly
if it has at most twelve blocks, none of them 0, a group id below 65536 and a 32-bit size. -/
theorem sameInode_reload_iff {fs fs' : InodeTable} {inodeNum : ℕ} {inode inode' : Inode}
    {writes : List DirtyBlock} (slot : inode.At fs inodeNum)
    (flush : getMetaWrites fs inode = (fs', inode', writes)) (wrote : writes ≠ []) :
    ∃ reloaded, loadInode fs' inodeNum = (fs', ⟨some reloaded, .success⟩) ∧
      (SameInode reloaded inode ↔ inode.blockRefs.length ≤ 12 ∧ 0 ∉ inode.blockRefs ∧
        inode.gid.toNat < 2 ^ 16 ∧ inode.filesize.toNat < 2 ^ 32) := by
  obtain ⟨raw, blocks0, blocks1, loc, blocknum, loaded⟩ := loadInode_getMetaWrites slot flush wrote
  exact ⟨_, loaded, sameInode_load_store_iff ..⟩

/-- A table of one inode, for concrete runs; every indirect block holds one pointer, to block 21. -/
def tableOf (block : Vector UInt32 15) : InodeTable where
  inodesPerGroup := 1
  inodeSize := 128
  blockSize := 1024
  groups := [⟨5, 0, [some (Buffer.write (fun _ => 0) 0 (RawInode.bytes
    ⟨0x81a4, 7, 13312, 1, 2, 3, 0, 100, 1, 28, 0, 0, block, 0, 0, 0, 0, 0, 0, 0, 3, 0, 0⟩))]⟩]
  devBlocksize := 512
  readBlock := fun _ _ => some fun i => if i = 0 then 21 else 0

/-- Two direct blocks survive flush and reload. -/
theorem sameInode_reload_two_blocks : ∃ inode fs' inode' writes reloaded,
    (loadInode (tableOf #v[5, 6, 0, 0, 0, 0, 0, 0, 0, 0, 0, 0, 0, 0, 0]) 1).2.inode = some inode ∧
    getMetaWrites (loadInode (tableOf #v[5, 6, 0, 0, 0, 0, 0, 0, 0, 0, 0, 0, 0, 0, 0]) 1).1
      (inode.setFileSize 1500) = (fs', inode', writes) ∧ writes ≠ [] ∧
    loadInode fs' 1 = (fs', ⟨some reloaded, .success⟩) ∧
    SameInode reloaded (inode.setFileSize 1500) := by
  set fs := tableOf #v[5, 6, 0, 0, 0, 0, 0, 0, 0, 0, 0, 0, 0, 0, 0] with hfs
  have computed : ((loadInode fs 1).2.inode.map fun inode => (inode.blockRefs, inode.gid,
      (getMetaWrites (loadInode fs 1).1 (inode.setFileSize 1500)).2.2.length)) =
      some ([5, 6], 100, 1) := by rw [hfs]; decide +kernel
  obtain ⟨inode, loaded, eq⟩ := Option.map_eq_some_iff.mp computed
  simp only [Prod.mk.injEq] at eq
  have wrote : (getMetaWrites (loadInode fs 1).1 (inode.setFileSize 1500)).2.2 ≠ [] := by
    intro none
    simp [none] at eq
  obtain ⟨reloaded, again, iff⟩ :=
    sameInode_reload_iff ((loadInode_at loaded).setFileSize 1500) rfl wrote
  refine ⟨inode, _, _, _, reloaded, loaded, rfl, wrote, again, iff.mpr ⟨?_, ?_, ?_, ?_⟩⟩
  · simp [setFileSize, eq.1]
  · simp [setFileSize, eq.1]
  · simp [setFileSize, eq.2.1]
  · simp [setFileSize]

/-- A file with an indirect block comes back without it. -/
theorem not_sameInode_indirect_block : ∃ inode fs' inode' writes reloaded,
    (loadInode (tableOf #v[1, 2, 3, 4, 5, 6, 7, 8, 9, 10, 11, 12, 13, 0, 0]) 1).2.inode =
      some inode ∧
    getMetaWrites (loadInode (tableOf #v[1, 2, 3, 4, 5, 6, 7, 8, 9, 10, 11, 12, 13, 0, 0]) 1).1
      (inode.setFileSize 13000) = (fs', inode', writes) ∧ writes ≠ [] ∧
    loadInode fs' 1 = (fs', ⟨some reloaded, .success⟩) ∧
    ¬SameInode reloaded (inode.setFileSize 13000) := by
  set fs := tableOf #v[1, 2, 3, 4, 5, 6, 7, 8, 9, 10, 11, 12, 13, 0, 0] with hfs
  have computed : ((loadInode fs 1).2.inode.map fun inode => (inode.blockRefs,
      (getMetaWrites (loadInode fs 1).1 (inode.setFileSize 13000)).2.2.length)) =
      some ([1, 2, 3, 4, 5, 6, 7, 8, 9, 10, 11, 12, 21], 1) := by rw [hfs]; decide +kernel
  obtain ⟨inode, loaded, eq⟩ := Option.map_eq_some_iff.mp computed
  simp only [Prod.mk.injEq] at eq
  have wrote : (getMetaWrites (loadInode fs 1).1 (inode.setFileSize 13000)).2.2 ≠ [] := by
    intro none
    simp [none] at eq
  obtain ⟨raw, blocks0, blocks1, loc, blocknum, again⟩ :=
    loadInode_getMetaWrites ((loadInode_at loaded).setFileSize 13000) rfl wrote
  refine ⟨inode, _, _, _, _, loaded, rfl, wrote, again, fun same => ?_⟩
  have short := ((sameInode_load_store_iff ..).mp same).1
  simp [setFileSize, eq.1] at short

end JeoKernel.Ext2
