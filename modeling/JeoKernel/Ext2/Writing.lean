import JeoKernel.Ext2.Reading

/-!
# Writing a file

`ext2fs_inode_reader` goes through a file page by page and keeps the page it is in, an offset in it
and two page numbers.  A write first calls `AllocToExtend`, which gets the blocks that the page needs
and puts zero pages behind the last one; a page that is already there but not cached is read from
its blocks only after that, the new ones among them.

The bytes of a file are one function `byte`: a cached page holds its own, any other page what its
blocks hold on the device.
-/

namespace JeoKernel.Ext2

open List Option

/-! ## The pages of an inode -/

/-- A page of the cache with the length of its dirty part. -/
structure CachePage where
  data : Buffer
  dirty : ℕ

/-- `SetDirty`, with no other call under way: a length that is set stays. -/
def CachePage.setDirty (page : CachePage) (length : ℕ) : CachePage :=
  if page.dirty = 0 then { page with dirty := length } else page

def CachePage.zero : CachePage := ⟨fun _ => 0, 0⟩

/-- The data of an inode in memory; `asked` counts the calls of `AllocateBlocks`. -/
structure InodePages where
  blockRefs : List UInt32
  blockCache : List (Option CachePage)
  filesize : ℕ
  dirty : Bool
  asked : ℕ

/-- The loop of `AllocToExtend` over `AllocateBlocks(1)`: the blocks, if it gets all of them, and the
number of calls so far.  The `k`-th call gives `supply k`. -/
def takeBlocks (supply : ℕ → Option UInt32) : ℕ → ℕ → Option (List UInt32) × ℕ
  | asked, 0 => (some [], asked)
  | asked, n + 1 =>
    match supply asked with
    | none => (none, asked + 1)
    | some block =>
      let (blocks, asked) := takeBlocks supply (asked + 1) n
      (blocks.map (block :: ·), asked)

/-- Where `AllocToExtend` lets a page end. -/
def endingAddr (blki sizeAlloc : ℕ) : ℕ := blki * 4096 + if sizeAlloc = 0 then 4096 else sizeAlloc

def endingBlock (blocksize blki sizeAlloc : ℕ) : ℕ :=
  let endingBlock := endingAddr blki sizeAlloc / blocksize
  if endingBlock * blocksize < endingAddr blki sizeAlloc then endingBlock + 1 else endingBlock

/-- The pages that `AllocToExtend` puts behind `size` pages. -/
def newPages (size blki sizeAlloc : ℕ) : List (Option CachePage) :=
  if size ≤ blki then
    replicate (blki - size) (some (CachePage.zero.setDirty 4096)) ++
      [some (CachePage.zero.setDirty sizeAlloc)]
  else []

/-- `AllocToExtend`.  The blocks of a call that fails are released again. -/
def InodePages.allocToExtend (blocksize : ℕ) (supply : ℕ → Option UInt32) (inode : InodePages)
    (blki sizeAlloc : ℕ) : InodePages × FilesystemStatus :=
  match takeBlocks supply inode.asked
    (endingBlock blocksize blki sizeAlloc - inode.blockRefs.length) with
  | (none, asked) => ({ inode with asked }, .noAvailBlocks)
  | (some blocks, asked) =>
    ({ inode with
        blockRefs := inode.blockRefs ++ blocks
        blockCache := inode.blockCache ++ newPages inode.blockCache.length blki sizeAlloc
        asked }, .success)

/-- `ReadBlock`; with `SUCCESS` the page is in the cache. -/
def InodePages.readBlock (fs : InodeTable) (inode : InodePages) (blki : ℕ) :
    InodePages × FilesystemStatus :=
  match inode.blockCache[blki]? with
  | none => (inode, .invalidRequest)
  | some (some _) => (inode, .success)
  | some none =>
    match fs.readBlocks inode.blockRefs (blki * 4096 / fs.blockSize) (blki * 4096 % fs.blockSize)
      4096 with
    | .ok page =>
      ({ inode with blockCache := inode.blockCache.set blki (some ⟨page, 0⟩) }, .success)
    | .error _ => (inode, .ioError)

/-- `ReadOrAllocBlock`: the status of `AllocToExtend` is dropped. -/
def InodePages.readOrAllocBlock (fs : InodeTable) (supply : ℕ → Option UInt32) (inode : InodePages)
    (blki sizeAlloc : ℕ) : InodePages × FilesystemStatus :=
  (inode.allocToExtend fs.blockSize supply blki sizeAlloc).1.readBlock fs blki

def InodePages.data (inode : InodePages) (blki : ℕ) : Buffer :=
  match inode.blockCache[blki]? with
  | some (some page) => page.data
  | _ => fun _ => 0

/-- Bytes are copied into a cached page, and the page is marked. -/
def InodePages.copyIn (inode : InodePages) (blki offset : ℕ) (bytes : List UInt8) : InodePages :=
  { inode with
    blockCache := inode.blockCache.modify blki (Option.map fun page =>
      { page with data := page.data.write offset bytes }.setDirty (offset + bytes.length)) }

/-! ## The reader -/

/-- `ext2fs_inode_reader`; the page it holds is page `curBlki`. -/
structure Reader where
  page : Bool
  offset : ℕ
  nextBlki : ℕ
  curBlki : ℕ
  offset_lt : offset < 4096

def Reader.start : Reader := ⟨false, 0, 0, 0, by decide⟩

/-- The reader when it has asked for its next page. -/
def Reader.turn (r : Reader) (status : FilesystemStatus) : Reader :=
  { r with page := status = .success, curBlki := r.nextBlki, nextBlki := r.nextBlki + 1 }

/-- The reader behind `n` bytes of its page. -/
def Reader.advance (r : Reader) (n : ℕ) : Reader :=
  if h : r.offset + n < 4096 then { r with offset := r.offset + n, offset_lt := h }
  else { r with page := false, offset := 0, offset_lt := by decide }

/-- The reader at the start of `seek_set`. -/
def Reader.aim (r : Reader) (offset : ℕ) : Reader :=
  { r with
    nextBlki := offset / 4096, offset := offset % 4096, offset_lt := Nat.mod_lt _ (by decide) }

def Reader.seekSet (fs : InodeTable) (inode : InodePages) (r : Reader) (offset : ℕ) :
    InodePages × Reader × FilesystemStatus :=
  if r.curBlki ≠ offset / 4096 ∨ ¬r.page then
    let (inode, status) := inode.readBlock fs (offset / 4096)
    (inode, (r.aim offset).turn status, status)
  else (inode, { r.aim offset with nextBlki := offset / 4096 + 1 }, .success)

/-- The page that `read` reads from. -/
def Reader.forRead (fs : InodeTable) (inode : InodePages) (r : Reader) :
    InodePages × Reader × FilesystemStatus :=
  if r.page then (inode, r, .success)
  else
    let (inode, status) := inode.readBlock fs r.nextBlki
    (inode, r.turn status, status)

/-- `read`, with the bytes it copies; the size it returns is their number. -/
def Reader.read (fs : InodeTable) (inode : InodePages) (r : Reader) (n : ℕ) :
    InodePages × Reader × List UInt8 × FilesystemStatus :=
  match r.forRead fs inode with
  | (inode, r, .success) =>
    let remaining := 4096 - r.offset
    if _ : n ≤ remaining then
      (inode, r.advance n, (inode.data r.curBlki).read r.offset n, .success)
    else
      let (inode', r', bytes, status) := (r.advance remaining).read fs inode (n - remaining)
      (inode', r', (inode.data r.curBlki).read r.offset remaining ++ bytes, status)
  | (inode, r, status) => (inode, r, [], status)
termination_by n
decreasing_by
  have := r.offset_lt
  omega

/-- The page that `write` writes to. -/
def Reader.forWrite (fs : InodeTable) (supply : ℕ → Option UInt32) (inode : InodePages) (r : Reader)
    (length : ℕ) : InodePages × Reader × FilesystemStatus :=
  if r.page then (inode, r, .success)
  else
    let (inode, status) :=
      inode.readOrAllocBlock fs supply r.nextBlki (min (r.offset + length) 4096)
    (inode, r.turn status, status)

/-- The part of `write` in one page: the status of `AllocToExtend` is dropped here, too. -/
def Reader.put (blocksize : ℕ) (supply : ℕ → Option UInt32) (inode : InodePages) (r : Reader)
    (bytes : List UInt8) : InodePages :=
  (inode.allocToExtend blocksize supply r.curBlki (r.offset + bytes.length)).1.copyIn r.curBlki
    r.offset bytes

/-- `write`, with the size it returns. -/
def Reader.write (fs : InodeTable) (supply : ℕ → Option UInt32) (inode : InodePages) (r : Reader)
    (bytes : List UInt8) : InodePages × Reader × ℕ × FilesystemStatus :=
  match r.forWrite fs supply inode bytes.length with
  | (inode, r, .success) =>
    let remaining := 4096 - r.offset
    if _ : bytes.length ≤ remaining then
      (r.put fs.blockSize supply inode bytes, r.advance bytes.length, bytes.length, .success)
    else
      let (inode, r, size, status) := (r.advance remaining).write fs supply
        (r.put fs.blockSize supply inode (bytes.take remaining)) (bytes.drop remaining)
      (inode, r, remaining + size, status)
  | (inode, r, status) => (inode, r, 0, status)
termination_by bytes.length
decreasing_by
  have := r.offset_lt
  rw [length_drop]
  omega

/-! ## The file as an array of bytes -/

/-- The byte of the file at offset `o`: from its page, or from its block if the page is not
cached. -/
def InodePages.byte (device : Buffer) (blocksize : ℕ) (inode : InodePages) : Buffer := fun o =>
  match inode.blockCache[o / 4096]? with
  | some (some page) => page.data (o % 4096)
  | _ => byteAt device blocksize inode.blockRefs o

def InodePages.loaded (refs : List UInt32) (filesize : ℕ) : InodePages where
  blockRefs := refs
  blockCache := replicate ((filesize + 4095) / 4096) none
  filesize := filesize
  dirty := false
  asked := 0

/-- Where the next byte of the reader is. -/
def Reader.blki (r : Reader) : ℕ := if r.page then r.curBlki else r.nextBlki

def Reader.address (r : Reader) : ℕ := r.blki * 4096 + r.offset

/-- An inode and its readers, each with the position a reader of an array of bytes would have, and
that array. -/
structure FileState where
  inode : InodePages
  readers : List (Reader × ℕ)
  contents : Buffer

/-- The array holds what the blocks of the file hold, and zeros behind them. -/
def FileState.start (device : Buffer) (blocksize : ℕ) (refs : List UInt32) (filesize : ℕ) :
    FileState where
  inode := .loaded refs filesize
  readers := []
  contents := byteAt device blocksize refs

inductive FileAction where
  | create
  | seekSet (reader offset : ℕ)
  | read (reader n : ℕ)
  | write (reader : ℕ) (bytes : List UInt8)

def fileExec (fs : InodeTable) (supply : ℕ → Option UInt32) (s : FileState) :
    FileAction → Option FileState
  | .create => some { s with readers := s.readers ++ [(.start, 0)] }
  | .seekSet i offset => do
    let (r, _) ← s.readers[i]?
    let (inode, r, _) := r.seekSet fs s.inode offset
    pure { s with inode, readers := s.readers.set i (r, offset) }
  | .read i n => do
    let (r, pos) ← s.readers[i]?
    let (inode, r, bytes, _) := r.read fs s.inode n
    pure { s with inode, readers := s.readers.set i (r, pos + bytes.length) }
  | .write i bytes => do
    let (r, pos) ← s.readers[i]?
    let (inode, r, size, _) := r.write fs supply s.inode bytes
    pure { inode, readers := s.readers.set i (r, pos + size)
           contents := s.contents.write pos (bytes.take size) }

/-- Every page of the file can be read and holds the bytes of the array, and so do the bytes that a
reader in its place reads. -/
structure FileState.Agrees (fs : InodeTable) (s : FileState) : Prop where
  pages : ∀ blki < s.inode.blockCache.length, ∃ inode, s.inode.readBlock fs blki = (inode, .success) ∧
    ∀ j < 4096, inode.data blki j = s.contents (blki * 4096 + j)
  reads : ∀ r pos n, (r, pos) ∈ s.readers → r.address = pos →
    ∃ size ≤ n, (r.read fs s.inode n).2.2.1 = s.contents.read pos size

/-- Where the blocks end that a write of `length` bytes asks for: nothing written at the start of a
page asks for the whole page. -/
def reach (address length : ℕ) : ℕ :=
  if length = 0 ∧ address % 4096 = 0 then address + 4096 else address + length

/-- Blocks up to `stop` can be had without a page changing: if blocks are missing, then no page that
is not cached gets one of them, and if pages are missing, then the file has no blocks behind its
pages. -/
structure InodePages.Room (blocksize : ℕ) (inode : InodePages) (stop : ℕ) : Prop where
  uncached : stop ≤ inode.blockRefs.length * blocksize ∨
    ∀ k, inode.blockCache[k]? = some none → (k + 1) * 4096 ≤ inode.blockRefs.length * blocksize
  pages : stop ≤ inode.blockCache.length * 4096 ∨
    inode.blockRefs.length * blocksize ≤ inode.blockCache.length * 4096

/-- A reader reads and writes only where it stands at its position, and writes only where there is
room. -/
def FileState.Steady (blocksize : ℕ) (s : FileState) : FileAction → Prop
  | .read i _ => ∀ r pos, s.readers[i]? = some (r, pos) → r.address = pos
  | .write i bytes => ∀ r pos, s.readers[i]? = some (r, pos) →
      r.address = pos ∧ s.inode.Room blocksize (reach pos bytes.length)
  | _ => True

/-! ## Getting blocks -/

theorem takeBlocks_cases (supply : ℕ → Option UInt32) (asked n : ℕ) :
    (∃ k < n, supply (asked + k) = none ∧ takeBlocks supply asked n = (none, asked + k + 1)) ∨
    (∀ k < n, supply (asked + k) ≠ none) ∧ ∃ blocks, blocks.length = n ∧
      (∀ b ∈ blocks, ∃ k, supply k = some b) ∧
      takeBlocks supply asked n = (some blocks, asked + n) := by
  induction n generalizing asked with
  | zero => exact .inr ⟨by simp, [], rfl, by simp, rfl⟩
  | succ n ih =>
    cases given : supply asked with
    | none => exact .inl ⟨0, by omega, given, by simp only [takeBlocks, given]⟩
    | some block =>
      rcases ih (asked + 1) with ⟨k, before, failed, result⟩ | ⟨all, blocks, length, from_supply, result⟩
      · refine .inl ⟨k + 1, by omega, by rw [← failed]; congr 1; omega, ?_⟩
        simp only [takeBlocks, given, result, map_none]
        congr 1
        omega
      · refine .inr ⟨fun k before => ?_, block :: blocks, by simp [length], ?_, ?_⟩
        · cases k with
          | zero => simp [given]
          | succ k => simpa [add_assoc, add_comm 1] using all k (by omega)
        · intro b mem
          rcases mem_cons.mp mem with rfl | mem
          · exact ⟨asked, given⟩
          · exact from_supply b mem
        · simp only [takeBlocks, given, result, map_some]
          congr 1
          omega

/-- A call of `AllocToExtend` fails and changes nothing, or it gets all the blocks. -/
theorem InodePages.allocToExtend_cases (blocksize : ℕ) (supply : ℕ → Option UInt32)
    (inode : InodePages) (blki sizeAlloc : ℕ) :
    let needed := endingBlock blocksize blki sizeAlloc - inode.blockRefs.length
    (∃ k < needed, supply (inode.asked + k) = none ∧
      inode.allocToExtend blocksize supply blki sizeAlloc =
        ({ inode with asked := inode.asked + k + 1 }, .noAvailBlocks)) ∨
    (∀ k < needed, supply (inode.asked + k) ≠ none) ∧ ∃ blocks, blocks.length = needed ∧
      (∀ b ∈ blocks, ∃ k, supply k = some b) ∧
      inode.allocToExtend blocksize supply blki sizeAlloc =
        ({ inode with
            blockRefs := inode.blockRefs ++ blocks
            blockCache := inode.blockCache ++ newPages inode.blockCache.length blki sizeAlloc
            asked := inode.asked + needed }, .success) := by
  rcases takeBlocks_cases supply inode.asked
      (endingBlock blocksize blki sizeAlloc - inode.blockRefs.length) with
    ⟨k, before, failed, result⟩ | ⟨all, blocks, length, from_supply, result⟩
  · exact .inl ⟨k, before, failed, by rw [allocToExtend, result]⟩
  · exact .inr ⟨all, blocks, length, from_supply, by rw [allocToExtend, result]⟩

variable {n : ℕ} {blocksize : ℕ}

theorem endingBlock_le_iff (sizes : PageBlocks blocksize) {blki sizeAlloc : ℕ} :
    endingBlock blocksize blki sizeAlloc ≤ n ↔ endingAddr blki sizeAlloc ≤ n * blocksize := by
  unfold endingBlock
  rcases sizes with rfl | rfl | rfl
  all_goals
    dsimp only
    split_ifs with partly <;> omega

theorem endingAddr_bounds (blki : ℕ) {sizeAlloc : ℕ} (small : sizeAlloc ≤ 4096) :
    blki * 4096 < endingAddr blki sizeAlloc ∧ endingAddr blki sizeAlloc ≤ (blki + 1) * 4096 := by
  unfold endingAddr
  split_ifs <;> omega

theorem endingBlock_mul_le (sizes : PageBlocks blocksize) (blki : ℕ) {sizeAlloc : ℕ}
    (small : sizeAlloc ≤ 4096) :
    endingBlock blocksize blki sizeAlloc * blocksize ≤ (blki + 1) * 4096 := by
  obtain ⟨n, whole⟩ : ∃ n, (blki + 1) * 4096 = n * blocksize := by
    rcases sizes with rfl | rfl | rfl
    · exact ⟨(blki + 1) * 4, by omega⟩
    · exact ⟨(blki + 1) * 2, by omega⟩
    · exact ⟨blki + 1, rfl⟩
  rw [whole]
  refine Nat.mul_le_mul_right _ ((endingBlock_le_iff sizes).mpr ?_)
  rw [← whole]
  exact (endingAddr_bounds blki small).2

variable {cache : List (Option CachePage)}

theorem getElem?_newPages {blki sizeAlloc k : ℕ} :
    (cache ++ newPages cache.length blki sizeAlloc)[k]? =
      if k < cache.length then cache[k]?
      else if k < blki then some (some (CachePage.zero.setDirty 4096))
      else if k = blki then some (some (CachePage.zero.setDirty sizeAlloc))
      else none := by
  unfold newPages
  by_cases inside : k < cache.length
  · rw [if_pos inside, getElem?_append_left inside]
  rw [if_neg inside, getElem?_append_right (not_lt.mp inside)]
  by_cases new : cache.length ≤ blki
  · rw [if_pos new]
    by_cases before : k < blki
    · rw [if_pos before, getElem?_append_left (by rw [length_replicate]; omega),
        getElem?_replicate_of_lt (by omega)]
    · rw [if_neg before, getElem?_append_right (by rw [length_replicate]; omega), length_replicate]
      by_cases here : k = blki
      · rw [if_pos here, here, Nat.sub_self, getElem?_cons_zero]
      · rw [if_neg here]
        exact getElem?_eq_none (by simp; omega)
  · rw [if_neg new, if_neg (by omega), if_neg (by omega), getElem?_nil]

/-! ## What the operations keep -/

def InodePages.Cached (inode : InodePages) (blki : ℕ) : Prop :=
  ∃ page, inode.blockCache[blki]? = some (some page)

def ValidBlocks (blocks : List UInt32) : Prop := ∀ b ∈ blocks, b ≠ 0 ∧ b ≠ 0xffffffff

/-- What every operation does to an inode: blocks and pages are only added, and new blocks belong to
pages that are there. -/
structure InodePages.Extends (blocksize : ℕ) (inode inode' : InodePages) : Prop where
  refs_le : inode.blockRefs.length ≤ inode'.blockRefs.length
  length_le : inode.blockCache.length ≤ inode'.blockCache.length
  uncached : ∀ k : ℕ, inode'.blockCache[k]? = some none → inode.blockCache[k]? = some none
  cached : ∀ k, inode.Cached k → inode'.Cached k
  room : inode'.blockRefs.length * blocksize ≤ inode.blockRefs.length * blocksize ∨
    inode'.blockRefs.length * blocksize ≤ inode'.blockCache.length * 4096
  valid : ValidBlocks inode.blockRefs → ValidBlocks inode'.blockRefs

namespace InodePages

variable {blocksize : ℕ} {inode inode' inode'' : InodePages}

theorem Extends.refl (inode : InodePages) : inode.Extends blocksize inode :=
  ⟨le_rfl, le_rfl, fun _ h => h, fun _ h => h, .inl le_rfl, fun h => h⟩

theorem Extends.trans (first : inode.Extends blocksize inode')
    (second : inode'.Extends blocksize inode'') : inode.Extends blocksize inode'' where
  refs_le := first.refs_le.trans second.refs_le
  length_le := first.length_le.trans second.length_le
  uncached k h := first.uncached k (second.uncached k h)
  cached k h := second.cached k (first.cached k h)
  room := by
    have := Nat.mul_le_mul_right 4096 second.length_le
    rcases second.room with same | within
    · rcases first.room with same' | within'
      · exact .inl (same.trans same')
      · exact .inr (same.trans (within'.trans this))
    · exact .inr within
  valid h := second.valid (first.valid h)

theorem Room.of_extends {stop : ℕ} (room : inode.Room blocksize stop)
    (grown : inode.Extends blocksize inode') : inode'.Room blocksize stop where
  uncached := by
    have refs := Nat.mul_le_mul_right blocksize grown.refs_le
    rcases room.uncached with enough | complete
    · exact .inl (enough.trans refs)
    · exact .inr fun k none => (complete k (grown.uncached k none)).trans refs
  pages := by
    have pages := Nat.mul_le_mul_right 4096 grown.length_le
    rcases room.pages with enough | behind
    · exact .inl (enough.trans pages)
    · rcases grown.room with same | within
      · exact .inr (same.trans (behind.trans pages))
      · exact .inr within

theorem Room.mono {stop stop' : ℕ} (room : inode.Room blocksize stop) (less : stop' ≤ stop) :
    inode.Room blocksize stop' where
  uncached := room.uncached.imp less.trans id
  pages := room.pages.imp less.trans id

theorem Extends.of_set (blocksize : ℕ) {blki : ℕ} {page : CachePage}
    (none : inode.blockCache[blki]? = some none) :
    inode.Extends blocksize
      { inode with blockCache := inode.blockCache.set blki (some page) } where
  refs_le := le_rfl
  length_le := by simp
  uncached k h := by
    rcases eq_or_ne blki k with rfl | other
    · exact none
    · rwa [getElem?_set_ne other] at h
  cached := by
    rintro k ⟨page', at_k⟩
    have other : blki ≠ k := by
      rintro rfl
      simp [none] at at_k
    exact ⟨page', by simpa [getElem?_set_ne other] using at_k⟩
  room := .inl le_rfl
  valid h := h

theorem Extends.copyIn (blocksize blki offset : ℕ) (bytes : List UInt8) :
    inode.Extends blocksize (inode.copyIn blki offset bytes) where
  refs_le := le_rfl
  length_le := by simp [InodePages.copyIn]
  uncached k h := by
    simp only [InodePages.copyIn, getElem?_modify] at h
    cases at_k : inode.blockCache[k]? with
    | none => simp [at_k] at h
    | some entry =>
      cases entry with
      | none => rfl
      | some page =>
        rw [at_k] at h
        split_ifs at h <;> simp at h
  cached := by
    rintro k ⟨page, at_k⟩
    simp only [Cached, InodePages.copyIn, getElem?_modify, at_k]
    split_ifs <;> simp
  room := .inl le_rfl
  valid h := h

variable {blocks : List UInt32}

section Alloc

variable {supply : ℕ → Option UInt32} {blki sizeAlloc : ℕ}

theorem length_newPages :
    (cache ++ newPages cache.length blki sizeAlloc).length = max cache.length (blki + 1) := by
  unfold newPages
  split_ifs with new <;> simp <;> omega

theorem Extends.alloc (sizes : PageBlocks blocksize) (small : sizeAlloc ≤ 4096) {asked : ℕ}
    (valid : ValidBlocks blocks)
    (length : blocks.length = endingBlock blocksize blki sizeAlloc - inode.blockRefs.length) :
    inode.Extends blocksize
      { inode with
        blockRefs := inode.blockRefs ++ blocks
        blockCache := inode.blockCache ++ newPages inode.blockCache.length blki sizeAlloc
        asked := asked } where
  refs_le := by simp
  length_le := by simp
  uncached k h := by
    rw [getElem?_newPages] at h
    split_ifs at h with inside before here
    · exact h
    · simp at h
    · simp at h
  cached := by
    rintro k ⟨page, at_k⟩
    refine ⟨page, ?_⟩
    rw [getElem?_newPages, if_pos (List.getElem?_eq_some_iff.mp at_k).1, at_k]
  room := by
    rw [List.length_append, length, length_newPages]
    have upto := endingBlock_mul_le sizes blki small
    rcases Nat.le_total (endingBlock blocksize blki sizeAlloc) inode.blockRefs.length with le | le
    · exact .inl (by rw [Nat.sub_eq_zero_of_le le, add_zero])
    · refine .inr ?_
      rw [Nat.add_sub_cancel' le]
      exact upto.trans (Nat.mul_le_mul_right _ (le_max_right _ _))
  valid h b mem := by
    rcases mem_append.mp mem with mem | mem
    · exact h b mem
    · exact valid b mem

variable {refs : List UInt32}

theorem byteAt_behind {device : Buffer} (sizes : PageBlocks blocksize) {o : ℕ}
    (past : refs.length * blocksize ≤ o) : byteAt device blocksize refs o = 0 := by
  have : refs.length ≤ o / blocksize := (Nat.le_div_iff_mul_le sizes.pos).mpr past
  simp only [byteAt, getD_eq_default _ _ this, if_pos]

theorem byteAt_append {device : Buffer} (sizes : PageBlocks blocksize) {o : ℕ}
    (before : o < refs.length * blocksize) :
    byteAt device blocksize (refs ++ blocks) o = byteAt device blocksize refs o := by
  have : o / blocksize < refs.length := (Nat.div_lt_iff_lt_mul sizes.pos).mpr before
  simp only [byteAt, getD_append _ _ _ _ this]

/-- `AllocToExtend` where there is room leaves the bytes of the file as they are: a new page is zero
where the file has no block, and a page that is not cached keeps its blocks. -/
theorem byte_alloc (device : Buffer) (sizes : PageBlocks blocksize) (small : sizeAlloc ≤ 4096)
    {asked : ℕ}
    (length : blocks.length = endingBlock blocksize blki sizeAlloc - inode.blockRefs.length)
    (room : inode.Room blocksize (endingAddr blki sizeAlloc)) :
    byte device blocksize
      { inode with
        blockRefs := inode.blockRefs ++ blocks
        blockCache := inode.blockCache ++ newPages inode.blockCache.length blki sizeAlloc
        asked := asked } = inode.byte device blocksize := by
  funext o
  obtain ⟨start, -⟩ := endingAddr_bounds blki small
  simp only [byte, getElem?_newPages]
  by_cases inside : o / 4096 < inode.blockCache.length
  · rw [if_pos inside]
    match at_o : inode.blockCache[o / 4096]? with
    | some (some page) => rfl
    | none => exact absurd (getElem?_eq_none_iff.mp at_o) (by omega)
    | some none =>
      rcases room.uncached with enough | complete
      · rw [Nat.sub_eq_zero_of_le ((endingBlock_le_iff sizes).mpr enough)] at length
        rw [length_eq_zero_iff.mp length, append_nil]
      · have := complete _ at_o
        exact byteAt_append sizes (by omega)
  rw [if_neg inside, getElem?_eq_none (not_lt.mp inside)]
  by_cases new : o / 4096 ≤ blki
  · have behind : inode.blockRefs.length * blocksize ≤ o := by
      rcases room.pages with enough | behind <;> omega
    rw [byteAt_behind sizes behind]
    split_ifs with before here
    · rfl
    · rfl
    · omega
  · rw [if_neg (by omega), if_neg (by omega)]
    rcases Nat.le_total (endingBlock blocksize blki sizeAlloc) inode.blockRefs.length with le | le
    · rw [Nat.sub_eq_zero_of_le le] at length
      rw [length_eq_zero_iff.mp length, append_nil]
    · have upto := endingBlock_mul_le sizes blki small
      have fewer := Nat.mul_le_mul_right blocksize le
      rw [byteAt_behind sizes (by rw [List.length_append, length, Nat.add_sub_cancel' le]; omega),
        byteAt_behind sizes (by omega)]

end Alloc

/-! ## Pages -/

variable {device : Buffer}

theorem data_eq_byte {blki j : ℕ} (cached : inode.Cached blki) (inside : j < 4096) :
    inode.data blki j = inode.byte device blocksize (blki * 4096 + j) := by
  obtain ⟨page, at_blki⟩ := cached
  have div : (blki * 4096 + j) / 4096 = blki := by omega
  have mod : (blki * 4096 + j) % 4096 = j := by omega
  simp only [data, byte, div, mod, at_blki]

variable {blki offset : ℕ}

theorem read_data (cached : inode.Cached blki) (inside : offset + n ≤ 4096) :
    (inode.data blki).read offset n =
      (inode.byte device blocksize).read (blki * 4096 + offset) n := by
  refine map_congr_left fun i mem => ?_
  have := mem_range.mp mem
  rw [data_eq_byte cached (by omega), add_assoc]

variable {bytes : List UInt8}

theorem byte_copyIn (cached : inode.Cached blki) (inside : offset + bytes.length ≤ 4096) :
    (inode.copyIn blki offset bytes).byte device blocksize =
      (inode.byte device blocksize).write (blki * 4096 + offset) bytes := by
  obtain ⟨page, at_blki⟩ := cached
  funext o
  simp only [byte, copyIn, getElem?_modify, Buffer.write]
  by_cases here : blki = o / 4096
  · have marked : ∀ page : CachePage, (page.setDirty (offset + bytes.length)).data = page.data := by
      intro page
      unfold CachePage.setDirty
      split_ifs <;> rfl
    subst here
    simp only [at_blki, if_pos, map_some, Option.map_eq_map, marked, Buffer.write]
    split_ifs <;> try omega
    · congr 1
      omega
    · rfl
  · rw [if_neg (by omega)]
    simp [here]

section Read

variable {fs : InodeTable} {device : Buffer} (sizes : PageBlocks fs.blockSize)
  (pos : 0 < fs.devBlocksize) (reads : fs.Reads device)
include sizes pos reads

theorem readBlock_spec (valid : ValidBlocks inode.blockRefs) {blki : ℕ}
    (inside : blki < inode.blockCache.length) :
    ∃ inode', inode.readBlock fs blki = (inode', .success) ∧ inode'.Cached blki ∧
      inode.Extends fs.blockSize inode' ∧
      inode'.byte device fs.blockSize = inode.byte device fs.blockSize := by
  unfold readBlock
  match at_blki : inode.blockCache[blki]? with
  | none => exact absurd (getElem?_eq_none_iff.mp at_blki) (by omega)
  | some (some page) => exact ⟨inode, rfl, ⟨page, at_blki⟩, .refl inode, rfl⟩
  | some none =>
    obtain ⟨page, read, same⟩ := reads.readBlocks_eq sizes pos (fun p mem => (valid p mem).1)
      (fun p mem => (valid p mem).2) blki
    rw [read]
    refine ⟨_, rfl, ⟨⟨page, 0⟩, by simp [inside]⟩, .of_set _ at_blki, funext fun o => ?_⟩
    simp only [byte]
    rcases eq_or_ne blki (o / 4096) with here | other
    · rw [← here, getElem?_set_self inside, at_blki]
      dsimp only
      rw [same _ (Nat.mod_lt _ (by decide)), here, Nat.div_add_mod']
    · rw [getElem?_set_ne other]

omit sizes pos reads in
theorem readBlock_behind {blki : ℕ} (behind : inode.blockCache.length ≤ blki) :
    inode.readBlock fs blki = (inode, .invalidRequest) := by
  rw [readBlock, getElem?_eq_none behind]

end Read

end InodePages

/-! ## Reading and writing -/

def Supplied (supply : ℕ → Option UInt32) : Prop :=
  ∀ k, ∃ block, supply k = some block ∧ block ≠ 0 ∧ block ≠ 0xffffffff

/-- The page that a reader holds is cached, and the page behind it is the next one. -/
def Reader.Holds (inode : InodePages) (r : Reader) : Prop :=
  r.page → inode.Cached r.curBlki ∧ r.nextBlki = r.curBlki + 1

variable {r : Reader}

theorem Reader.Holds.of_extends {inode inode' : InodePages} (holds : r.Holds inode)
    (grown : inode.Extends blocksize inode') : r.Holds inode' :=
  fun page => ⟨grown.cached _ (holds page).1, (holds page).2⟩

open Reader

variable {inode : InodePages}

theorem Reader.advance_spec (page : r.page) (holds : r.Holds inode) (inside : n ≤ 4096 - r.offset) :
    (r.advance n).Holds inode ∧ (r.advance n).address = r.address + n := by
  have := r.offset_lt
  have next := (holds page).2
  unfold advance
  split_ifs with more
  · refine ⟨fun _ => holds page, ?_⟩
    simp only [address, blki, page, if_pos]
    omega
  · refine ⟨fun impossible => absurd impossible (by simp), ?_⟩
    simp only [address, blki, page, if_pos, next]
    simp only [Bool.false_eq_true, if_false]
    omega

/-- The reader holds page `blki` with the same offset. -/
structure Reader.Entered (inode : InodePages) (r r' : Reader) : Prop where
  page : r'.page
  holds : r'.Holds inode
  address : r'.address = r.address

theorem Reader.entered_turn (page : ¬r.page) (cached : inode.Cached r.nextBlki) :
    r.Entered inode (r.turn .success) where
  page := by simp [Reader.turn]
  holds _ := ⟨cached, rfl⟩
  address := by simp [address, blki, turn, page]

section Device

variable {fs : InodeTable} {device : Buffer} (sizes : PageBlocks fs.blockSize)
  (pos : 0 < fs.devBlocksize) (reads : fs.Reads device) {inode : InodePages} {r : Reader}
include sizes pos reads

section

variable (valid : ValidBlocks inode.blockRefs) (holds : r.Holds inode)

include valid holds

theorem Reader.forRead_spec :
    ∃ inode' r' status, r.forRead fs inode = (inode', r', status) ∧
      inode.Extends fs.blockSize inode' ∧
      inode'.byte device fs.blockSize = inode.byte device fs.blockSize ∧
      (status = .success → r.Entered inode' r') ∧ (status ≠ .success → ¬r'.page) := by
  unfold forRead
  by_cases page : r.page
  · rw [if_pos page]
    exact ⟨inode, r, .success, rfl, .refl inode, rfl, fun _ => ⟨page, holds, rfl⟩, absurd rfl⟩
  rw [if_neg page]
  by_cases inside : r.nextBlki < inode.blockCache.length
  · obtain ⟨inode', read, cached, grown, same⟩ := inode.readBlock_spec sizes pos reads valid inside
    rw [read]
    exact ⟨inode', _, .success, rfl, grown, same, fun _ => entered_turn page cached, absurd rfl⟩
  · rw [inode.readBlock_behind (not_lt.mp inside)]
    exact ⟨inode, _, .invalidRequest, rfl, .refl inode, rfl, by simp, by simp [turn]⟩

/-- What `read` gives is what the file holds, from the address of the reader on. -/
theorem Reader.read_spec (n : ℕ) :
    ∃ inode' r' size status, r.read fs inode n =
        (inode', r', (inode.byte device fs.blockSize).read r.address size, status) ∧ size ≤ n ∧
      inode.Extends fs.blockSize inode' ∧
      inode'.byte device fs.blockSize = inode.byte device fs.blockSize ∧ r'.Holds inode' ∧
      (r'.page → r'.address = r.address + size) := by
  induction n using Nat.strong_induction_on generalizing inode r with
  | h n ih =>
    obtain ⟨inode', r', status, fetched, grown, same, entered, left⟩ :=
      r.forRead_spec sizes pos reads valid holds
    by_cases found : status = .success
    · obtain ⟨page, holds', address⟩ := entered found
      have offset := r'.offset_lt
      have cached := (holds' page).1
      have place : r'.curBlki * 4096 + r'.offset = r.address := by
        rw [← address]
        simp only [Reader.address, blki, page, if_pos]
      rw [read, fetched, found]
      dsimp only
      by_cases all : n ≤ 4096 - r'.offset
      · obtain ⟨held, moved⟩ := r'.advance_spec page holds' all
        rw [dif_pos all, InodePages.read_data cached (by omega), place, same]
        exact ⟨inode', _, n, .success, rfl, le_rfl, grown, same, held,
          fun _ => by rw [moved, address]⟩
      · obtain ⟨held, moved⟩ := r'.advance_spec page holds' le_rfl
        obtain ⟨inode'', r'', size, status', rest, le, grown', same', held', moved'⟩ :=
          ih (n - (4096 - r'.offset)) (by omega) (grown.valid valid) held
        rw [dif_neg all, InodePages.read_data cached (by omega), place, rest, moved, address, same,
          ← Buffer.read_add]
        refine ⟨inode'', r'', 4096 - r'.offset + size, status', rfl, by omega, grown.trans grown',
          same'.trans same, held', fun page' => ?_⟩
        rw [moved' page', moved, address, add_assoc]
    · refine ⟨inode', r', 0, status, ?_, Nat.zero_le n, grown, same,
        fun page => absurd page (left found), fun page => absurd page (left found)⟩
      rw [read, fetched]
      cases status <;> first | exact absurd rfl found | rfl

theorem Reader.seekSet_spec (offset : ℕ) :
    ∃ inode' r' status, r.seekSet fs inode offset = (inode', r', status) ∧
      inode.Extends fs.blockSize inode' ∧
      inode'.byte device fs.blockSize = inode.byte device fs.blockSize ∧ r'.Holds inode' ∧
      (r'.page → r'.address = offset) := by
  unfold seekSet
  have whole := Nat.div_add_mod' offset 4096
  split_ifs with move
  · by_cases inside : offset / 4096 < inode.blockCache.length
    · obtain ⟨inode', read, cached, grown, same⟩ := inode.readBlock_spec sizes pos reads valid inside
      rw [read]
      exact ⟨inode', _, .success, rfl, grown, same, fun _ => ⟨cached, rfl⟩, fun _ => whole⟩
    · rw [inode.readBlock_behind (not_lt.mp inside)]
      exact ⟨inode, _, .invalidRequest, rfl, .refl inode, rfl,
        fun page => absurd page (by simp [turn]), fun page => absurd page (by simp [turn])⟩
  · simp only [not_or, not_not] at move
    obtain ⟨here, page⟩ := move
    refine ⟨inode, _, .success, rfl, .refl inode, rfl, fun _ => ⟨(holds page).1, ?_⟩, fun _ => ?_⟩
    · simp only [aim, here]
    · simp only [address, blki, aim, page, if_pos, here]
      exact whole

end

variable {supply : ℕ → Option UInt32} (supplied : Supplied supply)

omit pos reads in
include supplied in
theorem InodePages.allocToExtend_spec (device : Buffer) {blki sizeAlloc : ℕ} (small : sizeAlloc ≤ 4096)
    (room : inode.Room fs.blockSize (endingAddr blki sizeAlloc)) :
    ∃ inode', inode.allocToExtend fs.blockSize supply blki sizeAlloc = (inode', .success) ∧
      inode.Extends fs.blockSize inode' ∧ blki < inode'.blockCache.length ∧
      inode'.byte device fs.blockSize = inode.byte device fs.blockSize := by
  rcases inode.allocToExtend_cases fs.blockSize supply blki sizeAlloc with
    ⟨k, -, failed, -⟩ | ⟨-, blocks, length, from_supply, result⟩
  · obtain ⟨block, given, -⟩ := supplied (inode.asked + k)
    exact absurd (failed.symm.trans given) (by simp)
  · have valid : ValidBlocks blocks := by
      intro b mem
      obtain ⟨k, given⟩ := from_supply b mem
      obtain ⟨block, given', good⟩ := supplied k
      obtain rfl := some.inj (given.symm.trans given')
      exact good
    refine ⟨_, result, .alloc sizes small valid length, ?_, byte_alloc device sizes small length room⟩
    rw [length_newPages]
    omega

include supplied in
theorem Reader.forWrite_spec (valid : ValidBlocks inode.blockRefs) (holds : r.Holds inode)
    {length : ℕ} (room : inode.Room fs.blockSize (reach r.address length)) :
    ∃ inode' r', r.forWrite fs supply inode length = (inode', r', .success) ∧
      inode.Extends fs.blockSize inode' ∧
      inode'.byte device fs.blockSize = inode.byte device fs.blockSize ∧ r.Entered inode' r' := by
  unfold forWrite
  by_cases page : r.page
  · rw [if_pos page]
    exact ⟨inode, r, rfl, .refl inode, rfl, page, holds, rfl⟩
  rw [if_neg page]
  have within : endingAddr r.nextBlki (min (r.offset + length) 4096) ≤ reach r.address length := by
    have address : r.address = r.nextBlki * 4096 + r.offset := by
      simp only [address, blki, page, if_false, Bool.false_eq_true]
    unfold endingAddr reach
    split_ifs <;> omega
  obtain ⟨extended, alloc, grown, inside, same⟩ := InodePages.allocToExtend_spec sizes supplied device
    (min_le_right _ _) (room.mono within)
  obtain ⟨inode', read, cached, grown', same'⟩ :=
    extended.readBlock_spec sizes pos reads (grown.valid valid) inside
  unfold InodePages.readOrAllocBlock
  rw [alloc, read]
  exact ⟨inode', _, rfl, grown.trans grown', same'.trans same, entered_turn page cached⟩

omit pos reads in
include supplied in
theorem Reader.put_spec (device : Buffer) (page : r.page) (holds : r.Holds inode)
    (inside : bytes.length ≤ 4096 - r.offset)
    (room : inode.Room fs.blockSize (reach r.address bytes.length)) :
    inode.Extends fs.blockSize (r.put fs.blockSize supply inode bytes) ∧
      (r.put fs.blockSize supply inode bytes).byte device fs.blockSize =
        (inode.byte device fs.blockSize).write r.address bytes := by
  have offset := r.offset_lt
  have address : r.address = r.curBlki * 4096 + r.offset := by
    simp only [address, blki, page, if_pos]
  have within : endingAddr r.curBlki (r.offset + bytes.length) ≤ reach r.address bytes.length := by
    unfold endingAddr reach
    split_ifs <;> omega
  obtain ⟨extended, alloc, grown, -, same⟩ := InodePages.allocToExtend_spec sizes supplied device
    (show r.offset + bytes.length ≤ 4096 by omega) (room.mono within)
  unfold put
  rw [alloc]
  refine ⟨grown.trans (.copyIn _ _ _ _), ?_⟩
  rw [InodePages.byte_copyIn (grown.cached _ (holds page).1) (by omega), same, address]

include supplied in
/-- A write with room behind it writes all its bytes, at the address of the reader. -/
theorem Reader.write_spec (valid : ValidBlocks inode.blockRefs) (holds : r.Holds inode)
    (room : inode.Room fs.blockSize (reach r.address bytes.length)) :
    ∃ inode' r', r.write fs supply inode bytes = (inode', r', bytes.length, .success) ∧
      inode.Extends fs.blockSize inode' ∧
      inode'.byte device fs.blockSize = (inode.byte device fs.blockSize).write r.address bytes ∧
      r'.Holds inode' ∧ r'.address = r.address + bytes.length := by
  induction n : bytes.length using Nat.strong_induction_on generalizing inode r bytes with
  | h n' ih =>
    subst n
    obtain ⟨entered, r', fetched, grown, same, page, holds', address⟩ :=
      r.forWrite_spec sizes pos reads supplied valid holds room
    have offset := r'.offset_lt
    have room' := room.of_extends grown
    rw [write, fetched]
    dsimp only
    by_cases all : bytes.length ≤ 4096 - r'.offset
    · obtain ⟨held, moved⟩ := r'.advance_spec page holds' all
      obtain ⟨grown', wrote⟩ := r'.put_spec sizes supplied device page holds' all
        (by rw [address]; exact room')
      rw [dif_pos all]
      exact ⟨_, _, rfl, grown.trans grown', by rw [wrote, same, address], held.of_extends grown',
        by rw [moved, address]⟩
    · obtain ⟨held, moved⟩ := r'.advance_spec page holds' le_rfl
      rw [dif_neg all]
      have positive : 0 < 4096 - r'.offset := by omega
      generalize whole : 4096 - r'.offset = remaining at all held moved positive ⊢
      have first : (bytes.take remaining).length = remaining := length_take_of_le (by omega)
      have rest : (bytes.drop remaining).length = bytes.length - remaining := length_drop
      have reached : reach r'.address remaining ≤ reach r.address bytes.length ∧
          reach (r'.address + remaining) (bytes.length - remaining) =
            reach r.address bytes.length := by
        unfold reach
        rw [if_neg (by omega), if_neg (by omega), if_neg (by omega)]
        omega
      obtain ⟨grown', wrote⟩ := r'.put_spec sizes supplied device page holds' (first.trans whole.symm).le
        (by rw [first]; exact room'.mono reached.1)
      obtain ⟨inode'', r'', result, grown'', wrote', held', moved'⟩ :=
        ih _ (by omega) ((grown.trans grown').valid valid) (held.of_extends grown')
          (by rw [moved, rest, reached.2]; exact room'.of_extends grown') rest
      rw [result]
      refine ⟨inode'', r'', ?_, (grown.trans grown').trans grown'', ?_, held', ?_⟩
      · dsimp only
        rw [Nat.add_sub_cancel' (by omega)]
      · have joined := (inode.byte device fs.blockSize).write_append r.address (bytes.take remaining)
          (bytes.drop remaining)
        rw [first, take_append_drop] at joined
        rw [wrote', wrote, same, moved, address, joined]
      · rw [moved', moved, address]
        omega

end Device

/-! ## Runs -/

/-- The file holds the bytes of the array, and a reader with a page stands at its position. -/
structure FileState.Inv (device : Buffer) (blocksize : ℕ) (s : FileState) : Prop where
  valid : ValidBlocks s.inode.blockRefs
  byte : s.inode.byte device blocksize = s.contents
  readers : ∀ r pos, (r, pos) ∈ s.readers → r.Holds s.inode ∧ (r.page → r.address = pos)

variable {s : FileState}

theorem FileState.Inv.set {device : Buffer} (inv : s.Inv device blocksize)
    (grown : s.inode.Extends blocksize inode) {contents : Buffer}
    (byte : inode.byte device blocksize = contents) {pos : ℕ} (holds : r.Holds inode)
    (place : r.page → r.address = pos) (i : ℕ) :
    FileState.Inv device blocksize ⟨inode, s.readers.set i (r, pos), contents⟩ where
  valid := grown.valid inv.valid
  byte := byte
  readers r' pos' mem := by
    rcases mem_or_eq_of_mem_set mem with mem | same
    · obtain ⟨holds', place'⟩ := inv.readers r' pos' mem
      exact ⟨holds'.of_extends grown, place'⟩
    · obtain ⟨rfl, rfl⟩ := Prod.mk.inj same
      exact ⟨holds, place⟩

section Runs

variable {fs : InodeTable} {device : Buffer} (sizes : PageBlocks fs.blockSize)
  (pos : 0 < fs.devBlocksize) (reads : fs.Reads device)
include sizes pos reads

theorem FileState.Inv.step {supply : ℕ → Option UInt32} (supplied : Supplied supply) {t : FileState}
    {a : FileAction} (inv : s.Inv device fs.blockSize) (steady : s.Steady fs.blockSize a)
    (taken : fileExec fs supply s a = some t) :
    t.Inv device fs.blockSize := by
  cases a with
  | create =>
    cases taken
    refine ⟨inv.valid, inv.byte, fun r p mem => ?_⟩
    rcases mem_append.mp mem with mem | mem
    · exact inv.readers r p mem
    · obtain ⟨rfl, rfl⟩ := Prod.mk.inj (mem_singleton.mp mem)
      exact ⟨fun page => absurd page (by decide), fun page => absurd page (by decide)⟩
  | seekSet i offset =>
    obtain ⟨⟨r, p⟩, at_i, taken⟩ := bind_eq_some_iff.mp taken
    obtain ⟨holds, -⟩ := inv.readers r p (mem_of_getElem? at_i)
    obtain ⟨inode, r', status, result, grown, same, holds', place⟩ :=
      r.seekSet_spec sizes pos reads inv.valid holds offset
    simp only [result, Option.pure_def, some.injEq] at taken
    subst taken
    exact inv.set grown (same.trans inv.byte) holds' place i
  | read i n =>
    obtain ⟨⟨r, p⟩, at_i, taken⟩ := bind_eq_some_iff.mp taken
    obtain ⟨holds, -⟩ := inv.readers r p (mem_of_getElem? at_i)
    obtain ⟨inode, r', size, status, result, -, grown, same, holds', place⟩ :=
      r.read_spec sizes pos reads inv.valid holds n
    simp only [result, Option.pure_def, some.injEq, Buffer.length_read] at taken
    subst taken
    exact inv.set grown (same.trans inv.byte) holds'
      (fun page => by rw [place page, steady r p at_i]) i
  | write i bytes =>
    obtain ⟨⟨r, p⟩, at_i, taken⟩ := bind_eq_some_iff.mp taken
    obtain ⟨holds, -⟩ := inv.readers r p (mem_of_getElem? at_i)
    obtain ⟨here, room⟩ := steady r p at_i
    obtain ⟨inode, r', result, grown, wrote, holds', place⟩ :=
      r.write_spec sizes pos reads supplied inv.valid holds (here ▸ room)
    simp only [result, Option.pure_def, some.injEq, take_length] at taken
    subst taken
    exact inv.set grown (by rw [wrote, inv.byte, here]) holds' (fun _ => by rw [place, here]) i

theorem FileState.Inv.agrees (inv : s.Inv device fs.blockSize) : s.Agrees fs where
  pages blki inside := by
    obtain ⟨inode, read, cached, -, same⟩ := s.inode.readBlock_spec sizes pos reads inv.valid inside
    refine ⟨inode, read, fun j below => ?_⟩
    rw [InodePages.data_eq_byte cached below, same, inv.byte]
  reads r p n mem here := by
    obtain ⟨inode, r', size, status, result, le, -⟩ :=
      r.read_spec sizes pos reads inv.valid (inv.readers r p mem).1 n
    exact ⟨size, le, by rw [result, inv.byte, here]⟩

/-- While the readers stand at their positions when they are used and every write has room, the
pages of the file hold what an array of bytes would hold. -/
theorem agrees_of_steady {supply : ℕ → Option UInt32} (supplied : Supplied supply)
    {refs : List UInt32} (valid : ValidBlocks refs) {filesize : ℕ} {xs : List FileAction}
    {s : FileState} (run : Machine.RunWhen (FileState.Steady fs.blockSize) (fileExec fs supply)
      (.start device fs.blockSize refs filesize) xs s) : s.Agrees fs := by
  refine FileState.Inv.agrees sizes pos reads (run.invariant
    (fun _ _ _ inv steady taken => inv.step sizes pos reads supplied steady taken)
    ⟨valid, ?_, by simp [FileState.start]⟩)
  funext o
  simp only [FileState.start, InodePages.loaded, InodePages.byte, getElem?_replicate]
  split_ifs <;> rfl

end Runs

def fromSix (k : ℕ) : Option UInt32 := if k = 0 then some 6 else some 7

theorem supplied_fromSix : Supplied fromSix := by
  intro k
  unfold fromSix
  split_ifs
  · exact ⟨6, rfl, by decide⟩
  · exact ⟨7, rfl, by decide⟩

/-- A file with one full page is overwritten and extended. -/
theorem agrees_extend :
    let fs := deviceTable (fun _ => 0xaa) 1024 512
    ∃ s, Machine.RunWhen (FileState.Steady fs.blockSize) (fileExec fs fromSix)
        (.start (fun _ => 0xaa) fs.blockSize [2, 3, 4, 5] 4096)
        [.create, .write 0 (replicate 5000 7)] s ∧ s.Agrees fs := by
  intro fs
  have reads : fs.Reads fun _ => 0xaa := reads_deviceTable _ 1024 512
  have valid : ValidBlocks [2, 3, 4, 5] := by simp [ValidBlocks]
  have room : (InodePages.loaded [2, 3, 4, 5] 4096).Room fs.blockSize
      (reach start.address (replicate 5000 (7 : UInt8)).length) := by
    refine ⟨.inr fun k none => ?_, .inr (by decide)⟩
    have : k < 1 := by simpa [InodePages.loaded] using (List.getElem?_eq_some_iff.mp none).1
    change (k + 1) * 4096 ≤ 4 * 1024
    omega
  obtain ⟨inode, r, result, -⟩ := start.write_spec (.inl rfl) (show 0 < 512 by decide) reads
    supplied_fromSix valid (fun page => absurd page (by decide)) room
  have run : Machine.RunWhen (FileState.Steady fs.blockSize) (fileExec fs fromSix)
      (.start (fun _ => 0xaa) fs.blockSize [2, 3, 4, 5] 4096)
      [.create, .write 0 (replicate 5000 7)]
      ⟨inode, [(r, 0 + (replicate 5000 (7 : UInt8)).length)],
        Buffer.write (byteAt (fun _ => 0xaa) 1024 [2, 3, 4, 5]) 0
          ((replicate 5000 7).take (replicate 5000 (7 : UInt8)).length)⟩ := by
    refine .cons trivial rfl (.cons ?_ ?_ (.nil _))
    · rintro r pos at_zero
      obtain ⟨rfl, rfl⟩ := Prod.mk.inj (some.inj at_zero)
      exact ⟨rfl, room⟩
    · simp only [fileExec, FileState.start, nil_append, getElem?_cons_zero,
        bind_eq_bind, bind_some, result]
      rfl
  exact ⟨_, run, agrees_of_steady (.inl rfl) (show 0 < 512 by decide) reads supplied_fromSix valid run⟩

/-- A file with one block in its page is overwritten beyond the block: the page is read with the new
block, which still holds what was there before. -/
theorem not_agrees_overwrite :
    let fs := deviceTable (fun _ => 0xaa) 1024 512
    ∃ s, Machine.Run (fileExec fs fromSix) (.start (fun _ => 0xaa) fs.blockSize [5] 100)
        [.create, .write 0 (replicate 1025 7)] s ∧ ¬s.Agrees fs := by
  intro fs
  have reads : fs.Reads fun _ => 0xaa := reads_deviceTable _ 1024 512
  have valid : ValidBlocks [5, 6] := by simp [ValidBlocks]
  obtain ⟨page, read, same⟩ := reads.readBlocks_eq (.inl rfl) (show 0 < 512 by decide)
    (fun p mem => (valid p mem).1) (fun p mem => (valid p mem).2) 0
  have alloc : (InodePages.loaded [5] 100).allocToExtend 1024 fromSix 0 1025 =
      (⟨[5, 6], [none], 100, false, 1⟩, .success) := rfl
  have loaded : InodePages.readBlock fs ⟨[5, 6], [none], 100, false, 1⟩ 0 =
      (⟨[5, 6], [some ⟨page, 0⟩], 100, false, 1⟩, .success) := by
    rw [InodePages.readBlock]
    rw [show fs.readBlocks [5, 6] (0 * 4096 / fs.blockSize) (0 * 4096 % fs.blockSize) 4096 =
      .ok page from read]
    rfl
  have fetched : start.forWrite fs fromSix (.loaded [5] 100) 1025 =
      (⟨[5, 6], [some ⟨page, 0⟩], 100, false, 1⟩, ⟨true, 0, 1, 0, by decide⟩, .success) := by
    rw [forWrite, if_neg (by decide), InodePages.readOrAllocBlock,
      show start.nextBlki = 0 from rfl, show min (start.offset + 1025) 4096 = 1025 by decide,
      show fs.blockSize = 1024 from rfl, alloc, loaded]
    rfl
  have again : InodePages.allocToExtend 1024 fromSix ⟨[5, 6], [some ⟨page, 0⟩], 100, false, 1⟩ 0 1025 =
      (⟨[5, 6], [some ⟨page, 0⟩], 100, false, 1⟩, .success) := rfl
  have result : start.write fs fromSix (.loaded [5] 100) (replicate 1025 7) =
      (⟨[5, 6], [some ⟨page.write 0 (replicate 1025 7), 1025⟩], 100, false, 1⟩,
        ⟨true, 1025, 1, 0, by decide⟩, 1025, .success) := by
    rw [write, length_replicate, fetched]
    dsimp only
    rw [dif_pos (by decide), put, length_replicate, zero_add,
      show fs.blockSize = 1024 from rfl, again, InodePages.copyIn, length_replicate]
    generalize replicate 1025 (7 : UInt8) = bytes
    simp [advance, CachePage.setDirty]
  refine ⟨⟨⟨[5, 6], [some ⟨page.write 0 (replicate 1025 7), 1025⟩], 100, false, 1⟩,
      [(⟨true, 1025, 1, 0, by decide⟩, 0 + 1025)],
      Buffer.write (byteAt (fun _ => 0xaa) 1024 [5]) 0 ((replicate 1025 7).take 1025)⟩,
    .cons trivial rfl (.cons trivial ?_ (.nil _)), fun agrees => ?_⟩
  · simp only [fileExec, FileState.start, nil_append, getElem?_cons_zero,
      bind_eq_bind, bind_some, result]
    rfl
  · obtain ⟨inode, got, bytes⟩ := agrees.pages 0 one_pos
    obtain ⟨rfl, -⟩ := Prod.mk.inj got
    have byte := bytes 2000 (by decide)
    simp only [InodePages.data, getElem?_cons_zero, Buffer.write, length_replicate,
      length_take] at byte
    rw [if_neg (by decide), if_neg (by decide), same 2000 (by decide)] at byte
    exact absurd byte (by decide)

end JeoKernel.Ext2
