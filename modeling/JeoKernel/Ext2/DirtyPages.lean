import JeoKernel.Ext2.Writing

/-!
# The blocks of the dirty pages

`GetDataWrites` takes a block from `blockRefs` for every block of the dirty part of a page.
`AllocToExtend` gets these blocks before a page is marked, but `ReadBlockRaw` and
`ext2fs_inode_reader::write` drop its status: a page that is in the cache is marked all the same.
-/

namespace JeoKernel.Ext2

open List Option Reader InodePages CachePage

/-! ## Writing through the inode -/

/-- The loop of `WriteBytes` from `vec` on, with the bytes that are left. -/
def InodePages.writeLoop (fs : InodeTable) (supply : ℕ → Option UInt32) (offset : ℕ)
    (inode : InodePages) (vec : ℕ) (bytes : List UInt8) : InodePages × ℕ × FilesystemStatus :=
  if _ : 0 < bytes.length then
    let cur := (offset + vec) % 2 ^ 64
    let blklen := min (min 4096 bytes.length) (4096 - cur % 4096)
    match inode.readOrAllocBlock fs supply (cur / 4096) (cur % 4096 + blklen) with
    | (inode, .success) =>
      writeLoop fs supply offset (inode.copyIn (cur / 4096) (cur % 4096) (bytes.take blklen))
        (vec + blklen) (bytes.drop blklen)
    | (inode, status) =>
      (if inode.filesize < cur then { inode with filesize := cur, dirty := true } else inode, vec,
        status)
  else (inode, vec, .success)
termination_by bytes.length
decreasing_by
  rw [length_drop]
  omega

/-- `WriteBytes`, with the size it returns. -/
def InodePages.writeBytes (fs : InodeTable) (supply : ℕ → Option UInt32) (inode : InodePages)
    (offset : UInt64) (bytes : List UInt8) : InodePages × ℕ × FilesystemStatus :=
  inode.writeLoop fs supply offset.toNat 0 bytes

/-! ## Writing the pages out -/

/-- A `dirty_block` of `GetDataWrites`: the page, the entry of `blockRefs` that it takes, and the
part of the page. -/
structure DataWrite where
  page : ℕ
  block : Option UInt32
  offset : ℕ
  length : ℕ

def lastDirtyBlock (blocksize blki dirty : ℕ) : ℕ :=
  let endingAddr := blki * 4096 + dirty
  if endingAddr % blocksize = 0 then endingAddr / blocksize - 1 else endingAddr / blocksize

def InodePages.pageWrites (blocksize : ℕ) (inode : InodePages) (blki dirty : ℕ) : List DataWrite :=
  let startingBlock := blki * 4096 / blocksize
  (range (lastDirtyBlock blocksize blki dirty + 1 - startingBlock)).map fun i =>
    { page := (startingBlock + i) * blocksize / 4096
      block := inode.blockRefs[startingBlock + i]?
      offset := (startingBlock + i) * blocksize % 4096
      length := blocksize }

def InodePages.getDataWrites (blocksize : ℕ) (inode : InodePages) : InodePages × List DataWrite :=
  ({ inode with blockCache := inode.blockCache.map (Option.map fun page => { page with dirty := 0 }) },
    (range inode.blockCache.length).flatMap fun blki =>
      match inode.blockCache[blki]? with
      | some (some page) =>
        if page.dirty ≠ 0 then inode.pageWrites blocksize blki page.dirty else []
      | _ => [])

/-- The blocks of the dirty part of every page are there. -/
def InodePages.Covered (blocksize : ℕ) (inode : InodePages) : Prop :=
  ∀ (blki : ℕ) page, inode.blockCache[blki]? = some (some page) → page.dirty ≠ 0 →
    blki * 4096 + page.dirty ≤ inode.blockRefs.length * blocksize

/-! ## Runs -/

/-- An inode with its readers; whether the last call reported all its bytes and `SUCCESS`, and
whether it got no block when it asked for one. -/
structure DirtyState where
  inode : InodePages
  readers : List Reader
  reported : Bool
  refused : Bool

inductive DirtyAction where
  | create
  | seekSet (reader offset : ℕ)
  | read (reader n : ℕ)
  | write (reader : ℕ) (bytes : List UInt8)
  | writeBytes (offset : UInt64) (bytes : List UInt8)

/-- A call of `AllocateBlocks` between the two counts gave no block. -/
def refusedIn (supply : ℕ → Option UInt32) (asked asked' : ℕ) : Bool :=
  (range (asked' - asked)).any fun k => (supply (asked + k)).isNone

def dirtyExec (fs : InodeTable) (supply : ℕ → Option UInt32) (s : DirtyState) :
    DirtyAction → Option DirtyState
  | .create =>
    some { s with readers := s.readers ++ [.start], reported := false, refused := false }
  | .seekSet i offset => do
    let r ← s.readers[i]?
    let (inode, r, _) := r.seekSet fs s.inode offset
    pure ⟨inode, s.readers.set i r, false, false⟩
  | .read i n => do
    let r ← s.readers[i]?
    let (inode, r, _, _) := r.read fs s.inode n
    pure ⟨inode, s.readers.set i r, false, false⟩
  | .write i bytes => do
    let r ← s.readers[i]?
    let (inode, r, size, status) := r.write fs supply s.inode bytes
    pure ⟨inode, s.readers.set i r, size = bytes.length ∧ status = .success,
      refusedIn supply s.inode.asked inode.asked⟩
  | .writeBytes offset bytes =>
    let (inode, size, status) := s.inode.writeBytes fs supply offset bytes
    some ⟨inode, s.readers, size = bytes.length ∧ status = .success,
      refusedIn supply s.inode.asked inode.asked⟩

/-- The dirty pages have their blocks, so that `GetDataWrites` finds them all, and a call that got no
block did not report success. -/
structure DirtyState.Backed (blocksize : ℕ) (s : DirtyState) : Prop where
  blocks : ∀ (blki : ℕ) page, s.inode.blockCache[blki]? = some (some page) →
    ∀ b, blki * 4096 < (b + 1) * blocksize → b * blocksize < blki * 4096 + page.dirty →
      page.dirty ≠ 0 → b < s.inode.blockRefs.length
  writes : ∀ w ∈ (s.inode.getDataWrites blocksize).2, w.block.isSome
  honest : s.refused → ¬s.reported

/-- `AllocateBlocks` gives the blocks up to `stop` that pages of the cache lack. -/
def InodePages.Enough (blocksize : ℕ) (supply : ℕ → Option UInt32) (inode : InodePages) (stop : ℕ) :
    Prop :=
  ∀ k, (inode.blockRefs.length + k) * blocksize < min stop (inode.blockCache.length * 4096) →
    supply (inode.asked + k) ≠ none

/-- A write finds the blocks that it needs for pages of the cache. -/
def DirtyState.Enough (blocksize : ℕ) (supply : ℕ → Option UInt32) (s : DirtyState) :
    DirtyAction → Prop
  | .write i bytes => ∀ r, s.readers[i]? = some r →
      s.inode.Enough blocksize supply (reach r.address bytes.length)
  | .writeBytes offset bytes => offset.toNat + bytes.length ≤ 2 ^ 64 ∧
      s.inode.Enough blocksize supply (offset.toNat + bytes.length)
  | _ => True

/-! ## What the operations keep -/

structure InodePages.Loads (inode inode' : InodePages) : Prop where
  refs : inode'.blockRefs = inode.blockRefs
  asked : inode'.asked = inode.asked
  length : inode'.blockCache.length = inode.blockCache.length
  cached : ∀ k, inode.Cached k → inode'.Cached k
  pages : ∀ (k : ℕ) page, inode'.blockCache[k]? = some (some page) →
    page.dirty = 0 ∨ inode.blockCache[k]? = some (some page)

/-- What the parts of a call that finds its blocks do. -/
structure InodePages.Served (blocksize : ℕ) (supply : ℕ → Option UInt32) (stop : ℕ)
    (inode inode' : InodePages) : Prop where
  covered : inode.Covered blocksize → inode'.Covered blocksize
  enough : inode.Enough blocksize supply stop → inode'.Enough blocksize supply stop
  given : ∀ k, inode.asked ≤ k → k < inode'.asked → supply k ≠ none
  cached : ∀ k, inode.Cached k → inode'.Cached k

namespace InodePages

variable {blocksize : ℕ} {supply : ℕ → Option UInt32} {stop : ℕ} {inode inode' inode'' : InodePages}

theorem Loads.refl (inode : InodePages) : inode.Loads inode :=
  ⟨rfl, rfl, rfl, fun _ h => h, fun _ _ h => .inr h⟩

theorem Loads.trans (first : inode.Loads inode') (second : inode'.Loads inode'') :
    inode.Loads inode'' where
  refs := second.refs.trans first.refs
  asked := second.asked.trans first.asked
  length := second.length.trans first.length
  cached k h := second.cached k (first.cached k h)
  pages k page h := (second.pages k page h).elim .inl (first.pages k page)

theorem Loads.covered (loads : inode.Loads inode') (covered : inode.Covered blocksize) :
    inode'.Covered blocksize := by
  intro blki page at_blki dirty
  rw [loads.refs]
  exact covered blki page ((loads.pages blki page at_blki).resolve_left dirty) dirty

theorem Loads.served (loads : inode.Loads inode') : inode.Served blocksize supply stop inode' where
  covered := loads.covered
  enough h k := by
    rw [loads.refs, loads.asked, loads.length]
    exact h k
  given k lower upper := absurd upper (by rw [loads.asked]; omega)
  cached := loads.cached

theorem Served.refl (inode : InodePages) : inode.Served blocksize supply stop inode :=
  (Loads.refl inode).served

theorem Served.trans (first : inode.Served blocksize supply stop inode')
    (second : inode'.Served blocksize supply stop inode'') :
    inode.Served blocksize supply stop inode'' where
  covered h := second.covered (first.covered h)
  enough h := second.enough (first.enough h)
  given k lower upper := by
    rcases Nat.lt_or_ge k inode'.asked with before | behind
    · exact first.given k lower before
    · exact second.given k behind upper
  cached k h := second.cached k (first.cached k h)

theorem readBlock_loads (fs : InodeTable) (inode : InodePages) (blki : ℕ) :
    ∃ inode' status, inode.readBlock fs blki = (inode', status) ∧ inode.Loads inode' ∧
      (status = .success → inode'.Cached blki) := by
  unfold readBlock
  match at_blki : inode.blockCache[blki]? with
  | none => exact ⟨_, _, rfl, .refl inode, by simp⟩
  | some (some page) => exact ⟨_, _, rfl, .refl inode, fun _ => ⟨page, at_blki⟩⟩
  | some none =>
    dsimp only
    split
    · rename_i page _
      have inside := (List.getElem?_eq_some_iff.mp at_blki).1
      refine ⟨_, _, rfl, ⟨rfl, rfl, List.length_set, (Extends.of_set 1024 at_blki).cached,
        fun k page' at_k => ?_⟩, fun _ => ⟨⟨page, 0⟩, List.getElem?_set_self inside⟩⟩
      rcases eq_or_ne blki k with rfl | other
      · rw [List.getElem?_set_self inside] at at_k
        obtain rfl := some.inj (some.inj at_k)
        exact .inl rfl
      · rw [getElem?_set_ne other] at at_k
        exact .inr at_k
    · exact ⟨_, _, rfl, .refl inode, by simp⟩

theorem lastDirtyBlock_mul_lt (pos : 0 < blocksize) {blki dirty : ℕ} (some_dirty : dirty ≠ 0) :
    lastDirtyBlock blocksize blki dirty * blocksize < blki * 4096 + dirty := by
  have split := Nat.div_add_mod' (blki * 4096 + dirty) blocksize
  unfold lastDirtyBlock
  dsimp only
  split_ifs with whole
  · rw [Nat.sub_mul]
    omega
  · omega

theorem Covered.writes (covered : inode.Covered blocksize) (pos : 0 < blocksize) :
    ∀ w ∈ (inode.getDataWrites blocksize).2, w.block.isSome := by
  intro w mem
  obtain ⟨blki, -, mem⟩ := mem_flatMap.mp mem
  split at mem
  · rename_i page at_blki
    split_ifs at mem with dirty
    · obtain ⟨i, bound, rfl⟩ := mem_map.mp mem
      have bound := mem_range.mp bound
      have last := (lastDirtyBlock_mul_lt pos dirty).trans_le (covered blki page at_blki dirty)
      have inside := Nat.lt_of_mul_lt_mul_right last
      exact isSome_iff_exists.mpr ⟨_, List.getElem?_eq_getElem (by omega)⟩
    · cases mem
  · cases mem

theorem Served.copyIn (blki offset : ℕ) (bytes : List UInt8)
    (fits : blki * 4096 + (offset + bytes.length) ≤ inode.blockRefs.length * blocksize) :
    inode.Served blocksize supply stop (inode.copyIn blki offset bytes) where
  covered h k page at_k dirty := by
    simp only [InodePages.copyIn, getElem?_modify] at at_k
    rcases old : inode.blockCache[k]? with _ | _ | page'
    · simp [old] at at_k
    · simp [old] at at_k
    rw [old] at at_k
    by_cases here : blki = k
    · subst here
      obtain rfl : setDirty _ _ = page := by simpa using at_k
      unfold setDirty at dirty ⊢
      split_ifs with clean
      · exact fits
      · exact h blki page' old clean
    · obtain rfl : page' = page := by simpa [here] using at_k
      exact h k page' old dirty
  enough h := by simpa [Enough, InodePages.copyIn] using h
  given k lower upper := absurd lower (by simpa [InodePages.copyIn] using upper)
  cached := (Extends.copyIn 1024 blki offset bytes).cached

variable (sizes : PageBlocks blocksize) {blki sizeAlloc : ℕ}
include sizes

/-- `AllocToExtend` for a page up to `stop`: it gets its blocks, or the page is not in the cache and
the call fails. -/
theorem allocToExtend_served (small : sizeAlloc ≤ 4096)
    (ends : endingAddr blki sizeAlloc = min stop ((blki + 1) * 4096))
    (enough : inode.Enough blocksize supply stop) :
    (∃ inode', inode.allocToExtend blocksize supply blki sizeAlloc = (inode', .success) ∧
      inode.Served blocksize supply stop inode' ∧
      endingAddr blki sizeAlloc ≤ inode'.blockRefs.length * blocksize) ∨
    inode.blockCache.length ≤ blki ∧ ∃ asked,
      (inode.allocToExtend blocksize supply blki sizeAlloc).1 = { inode with asked } := by
  -- a block that the call asks for starts before the end of the page
  have starts {k : ℕ} (asks : k < endingBlock blocksize blki sizeAlloc - inode.blockRefs.length) :
      (inode.blockRefs.length + k) * blocksize < endingAddr blki sizeAlloc := by
    by_contra behind
    have := (endingBlock_le_iff sizes).mpr (not_lt.mp behind)
    omega
  rcases inode.allocToExtend_cases blocksize supply blki sizeAlloc with
    ⟨k, asks, failed, result⟩ | ⟨all, blocks, length, -, result⟩
  · refine .inr ⟨?_, _, by rw [result]⟩
    by_contra inside
    have := starts asks
    exact enough k (by omega) failed
  · have total : (inode.blockRefs ++ blocks).length =
        max inode.blockRefs.length (endingBlock blocksize blki sizeAlloc) := by
      rw [length_append, length]
      omega
    have reached : endingAddr blki sizeAlloc ≤ (inode.blockRefs ++ blocks).length * blocksize := by
      rw [total]
      exact (endingBlock_le_iff sizes).mp (le_max_right _ _)
    refine .inl ⟨_, result, ⟨?_, ?_, ?_, ?_⟩, reached⟩
    · intro covered k page at_k dirty
      rw [getElem?_newPages] at at_k
      obtain ⟨start, -⟩ := endingAddr_bounds blki small
      have grown : inode.blockRefs.length * blocksize ≤ (inode.blockRefs ++ blocks).length * blocksize :=
        Nat.mul_le_mul_right _ (by simp)
      split_ifs at at_k with inside before here
      · exact (covered k page at_k dirty).trans grown
      · obtain rfl := some.inj (some.inj at_k)
        simp only [setDirty, zero, if_pos]
        omega
      · obtain rfl := some.inj (some.inj at_k)
        refine le_trans ?_ reached
        simp only [setDirty, zero, if_pos, here, endingAddr]
        split_ifs <;> omega
    · intro _ k missing
      dsimp only at missing ⊢
      rw [length_newPages] at missing
      by_cases inside : blki < inode.blockCache.length
      · rw [add_assoc]
        refine enough _ (lt_of_eq_of_lt ?_ (missing.trans_eq ?_))
        · rw [total, ← add_assoc]
          congr 2
          omega
        · omega
      · have : (inode.blockRefs ++ blocks).length * blocksize ≤
            ((inode.blockRefs ++ blocks).length + k) * blocksize :=
          Nat.mul_le_mul_right _ (by omega)
        omega
    · intro k lower upper
      obtain ⟨i, rfl⟩ := Nat.exists_eq_add_of_le lower
      exact all i (by dsimp only at upper; omega)
    · rintro k ⟨page, at_k⟩
      refine ⟨page, ?_⟩
      rw [getElem?_newPages, if_pos (List.getElem?_eq_some_iff.mp at_k).1, at_k]

omit sizes in
/-- `ReadOrAllocBlock` up to `stop`: the page with its blocks, or an error. -/
theorem readOrAllocBlock_served {fs : InodeTable} (sizes : PageBlocks fs.blockSize)
    (small : sizeAlloc ≤ 4096) (ends : endingAddr blki sizeAlloc = min stop ((blki + 1) * 4096))
    (enough : inode.Enough fs.blockSize supply stop) :
    ∃ inode' status, inode.readOrAllocBlock fs supply blki sizeAlloc = (inode', status) ∧
      (inode.Covered fs.blockSize → inode'.Covered fs.blockSize) ∧
      (∀ k, inode.Cached k → inode'.Cached k) ∧
      (status = .success → inode.Served fs.blockSize supply stop inode' ∧ inode'.Cached blki ∧
        endingAddr blki sizeAlloc ≤ inode'.blockRefs.length * fs.blockSize) := by
  unfold readOrAllocBlock
  rcases allocToExtend_served sizes small ends enough with
    ⟨extended, result, served, reached⟩ | ⟨behind, asked, result⟩
  · obtain ⟨inode', status, read, loads, found⟩ := readBlock_loads fs extended blki
    have both := served.trans loads.served
    rw [result, read]
    refine ⟨_, _, rfl, both.covered, both.cached, fun success => ⟨both, found success, ?_⟩⟩
    rw [loads.refs]
    exact reached
  · rw [result]
    exact ⟨_, _, readBlock_behind behind, fun h => h, fun _ h => h, by simp⟩

end InodePages

/-! ## The reader -/

theorem endingAddr_min {blki offset : ℕ} (inside : offset < 4096) (length : ℕ) :
    endingAddr blki (min (offset + length) 4096) =
      min (reach (blki * 4096 + offset) length) ((blki + 1) * 4096) := by
  unfold endingAddr reach
  split_ifs <;> omega

variable {bytes : List UInt8}

section Calls

variable {fs : InodeTable} {supply : ℕ → Option UInt32} {inode : InodePages} {r : Reader}

variable {inode' : InodePages}

/-- A reader keeps its page over calls that keep the pages of the cache. -/
theorem Reader.Holds.mono (holds : r.Holds inode) (cached : ∀ k, inode.Cached k → inode'.Cached k) :
    r.Holds inode' :=
  fun page => ⟨cached _ (holds page).1, (holds page).2⟩

theorem Reader.seekSet_loads (fs : InodeTable) (holds : r.Holds inode) (offset : ℕ) :
    inode.Loads (r.seekSet fs inode offset).1 ∧
      (r.seekSet fs inode offset).2.1.Holds (r.seekSet fs inode offset).1 := by
  unfold seekSet
  split_ifs with move
  · obtain ⟨inode', status, read, loads, found⟩ := readBlock_loads fs inode (offset / 4096)
    rw [read]
    exact ⟨loads, fun page => ⟨found (by simpa [turn] using page), rfl⟩⟩
  · simp only [not_or, not_not] at move
    refine ⟨.refl inode, fun page => ⟨(holds page).1, ?_⟩⟩
    simp only [aim, move.1]

theorem Reader.forRead_loads (fs : InodeTable) (holds : r.Holds inode) :
    ∃ inode' r' status, r.forRead fs inode = (inode', r', status) ∧ inode.Loads inode' ∧
      r'.Holds inode' ∧ (status = .success → r'.page) := by
  unfold forRead
  split_ifs with page
  · exact ⟨inode, r, _, rfl, .refl inode, holds, fun _ => page⟩
  · obtain ⟨inode', status, read, loads, found⟩ := readBlock_loads fs inode r.nextBlki
    rw [read]
    exact ⟨_, _, _, rfl, loads, fun page => ⟨found (by simpa [turn] using page), rfl⟩,
      fun success => by simpa [turn] using success⟩

theorem Reader.read_loads (fs : InodeTable) (holds : r.Holds inode) (n : ℕ) :
    inode.Loads (r.read fs inode n).1 ∧ (r.read fs inode n).2.1.Holds (r.read fs inode n).1 := by
  induction n using Nat.strong_induction_on generalizing inode r with
  | h n ih =>
    obtain ⟨inode', r', status, fetched, loads, holds', found⟩ := r.forRead_loads fs holds
    have offset := r'.offset_lt
    by_cases success : status = .success
    · have page := found success
      rw [read, fetched, success]
      dsimp only
      split_ifs with all
      · exact ⟨loads, (r'.advance_spec page holds' all).1⟩
      · obtain ⟨loads', held⟩ := ih (n - (4096 - r'.offset)) (by omega)
          (r'.advance_spec page holds' le_rfl).1
        exact ⟨loads.trans loads', held⟩
    · have left : r.read fs inode n = (inode', r', [], status) := by
        rw [read, fetched]
        cases status <;> first | exact absurd rfl success | rfl
      rw [left]
      exact ⟨loads, holds'⟩

/-- What a write does: it keeps the pages covered, and if it reports all its bytes, then it got all
the blocks it asked for. -/
structure Outcome (fs : InodeTable) (supply : ℕ → Option UInt32) (inode inode' : InodePages)
    (reported : Prop) : Prop where
  covered : inode.Covered fs.blockSize → inode'.Covered fs.blockSize
  cached : ∀ k, inode.Cached k → inode'.Cached k
  given : reported → ∀ k, inode.asked ≤ k → k < inode'.asked → supply k ≠ none

theorem Outcome.of_served {stop : ℕ} {reported : Prop}
    (served : inode.Served fs.blockSize supply stop inode') :
    Outcome fs supply inode inode' reported :=
  ⟨served.covered, served.cached, fun _ => served.given⟩

theorem Outcome.after {inode' inode'' : InodePages} {stop : ℕ} {reported reported' : Prop}
    (served : inode.Served fs.blockSize supply stop inode')
    (rest : Outcome fs supply inode' inode'' reported) (same : reported' → reported) :
    Outcome fs supply inode inode'' reported' where
  covered h := rest.covered (served.covered h)
  cached k h := rest.cached k (served.cached k h)
  given h k lower upper := by
    rcases Nat.lt_or_ge k inode'.asked with before | behind
    · exact served.given k lower before
    · exact rest.given (same h) k behind upper

variable (sizes : PageBlocks fs.blockSize)
include sizes

theorem Reader.forWrite_served (holds : r.Holds inode) {length : ℕ}
    (enough : inode.Enough fs.blockSize supply (reach r.address length)) :
    ∃ inode' r' status, r.forWrite fs supply inode length = (inode', r', status) ∧
      (inode.Covered fs.blockSize → inode'.Covered fs.blockSize) ∧
      (∀ k, inode.Cached k → inode'.Cached k) ∧ (status ≠ .success → ¬r'.page) ∧
      (status = .success → inode.Served fs.blockSize supply (reach r.address length) inode' ∧
        r.Entered inode' r') := by
  unfold forWrite
  split_ifs with page
  · exact ⟨inode, r, _, rfl, fun h => h, fun _ h => h, absurd rfl,
      fun _ => ⟨.refl inode, page, holds, rfl⟩⟩
  · have address : r.address = r.nextBlki * 4096 + r.offset := by
      simp only [address, blki, page, if_false, Bool.false_eq_true]
    rw [address] at enough
    obtain ⟨inode', status, result, covered, cached, served⟩ :=
      readOrAllocBlock_served sizes (min_le_right _ _) (endingAddr_min r.offset_lt length)
        enough
    rw [result, address]
    refine ⟨inode', _, status, rfl, covered, cached, by simp [turn], fun success => ?_⟩
    obtain ⟨served, here, -⟩ := served success
    rw [success]
    exact ⟨served, entered_turn page here⟩

theorem Reader.put_served (page : r.page) (holds : r.Holds inode) (bytes : List UInt8) {length : ℕ}
    (first : bytes.length = min length (4096 - r.offset))
    (enough : inode.Enough fs.blockSize supply (reach r.address length)) :
    inode.Served fs.blockSize supply (reach r.address length)
      (r.put fs.blockSize supply inode bytes) := by
  have offset := r.offset_lt
  have address : r.address = r.curBlki * 4096 + r.offset := by
    simp only [address, blki, page, if_pos]
  have size : r.offset + bytes.length = min (r.offset + length) 4096 := by omega
  unfold put
  rw [address] at enough ⊢
  obtain ⟨present, at_cur⟩ := (holds page).1
  rcases allocToExtend_served sizes (min_le_right _ _) (endingAddr_min offset length)
      enough with ⟨extended, result, served, reached⟩ | ⟨behind, -⟩
  · rw [size, result]
    refine served.trans (.copyIn _ _ bytes (le_trans ?_ reached))
    unfold endingAddr
    split_ifs <;> omega
  · have := (List.getElem?_eq_some_iff.mp at_cur).1
    omega

theorem Reader.write_outcome (holds : r.Holds inode)
    (enough : inode.Enough fs.blockSize supply (reach r.address bytes.length)) :
    ∃ inode' r' size status, r.write fs supply inode bytes = (inode', r', size, status) ∧
      r'.Holds inode' ∧
      Outcome fs supply inode inode' (size = bytes.length ∧ status = .success) := by
  induction n : bytes.length using Nat.strong_induction_on generalizing inode r bytes with
  | h n' ih =>
    obtain ⟨entered, r', status, fetched, covered, cached, left, served⟩ :=
      r.forWrite_served sizes holds enough
    have offset := r'.offset_lt
    by_cases success : status = .success
    · obtain ⟨served, page, holds', address⟩ := served success
      rw [← address] at enough served
      have enough' := served.enough enough
      rw [write, fetched, success]
      dsimp only
      by_cases all : bytes.length ≤ 4096 - r'.offset
      · rw [dif_pos all]
        have put := r'.put_served sizes page holds' bytes (min_eq_left all).symm enough'
        exact ⟨_, _, _, _, rfl, (r'.advance_spec page holds' all).1.mono put.cached,
          .of_served (served.trans put)⟩
      · rw [dif_neg all]
        obtain ⟨held, moved⟩ := r'.advance_spec page holds' le_rfl
        generalize whole : 4096 - r'.offset = remaining at all held moved ⊢
        have put := r'.put_served sizes page holds' (bytes.take remaining)
          (by rw [length_take, whole, min_comm]) enough'
        have both := served.trans put
        have rest : (bytes.drop remaining).length = bytes.length - remaining := length_drop
        have reached : reach (r'.address + remaining) (bytes.length - remaining) =
            reach r'.address bytes.length := by
          unfold reach
          rw [if_neg (by omega), if_neg (by omega)]
          omega
        obtain ⟨inode'', r'', size, status', result, held', outcome⟩ :=
          ih (bytes.length - remaining) (by omega) (held.mono put.cached)
            (by rw [moved, rest, reached]; exact both.enough enough) rest
        rw [result]
        exact ⟨inode'', r'', remaining + size, status', rfl, held',
          .after both outcome (And.imp_left (by omega))⟩
    · have failed : r.write fs supply inode bytes = (entered, r', 0, status) := by
        rw [write, fetched]
        cases status <;> first | exact absurd rfl success | rfl
      exact ⟨_, _, _, _, failed, fun page => absurd page (left success), covered, cached,
        fun reported => absurd reported.2 success⟩

theorem InodePages.writeLoop_outcome (offset vec : ℕ) (range : offset + vec + bytes.length ≤ 2 ^ 64)
    (enough : inode.Enough fs.blockSize supply (offset + vec + bytes.length)) :
    ∃ inode' size status,
      inode.writeLoop fs supply offset vec bytes = (inode', size, status) ∧
      Outcome fs supply inode inode' (size = vec + bytes.length ∧ status = .success) := by
  induction n : bytes.length using Nat.strong_induction_on generalizing inode vec bytes with
  | h n' ih =>
    by_cases more : 0 < bytes.length
    · have low : (offset + vec) % 2 ^ 64 = offset + vec := Nat.mod_eq_of_lt (by omega)
      rw [writeLoop, dif_pos more]
      dsimp only
      rw [low]
      generalize address : offset + vec = cur at *
      obtain ⟨blklen, chunk⟩ : ∃ n, n = min (min 4096 bytes.length) (4096 - cur % 4096) := ⟨_, rfl⟩
      rw [← chunk]
      have ends : endingAddr (cur / 4096) (cur % 4096 + blklen) =
          min (cur + bytes.length) ((cur / 4096 + 1) * 4096) := by
        unfold endingAddr
        rw [if_neg (by omega)]
        omega
      obtain ⟨entered, status, fetched, covered, cached, served⟩ :=
        readOrAllocBlock_served sizes (by omega) ends enough
      rw [fetched]
      by_cases success : status = .success
      · obtain ⟨served, -, reached⟩ := served success
        rw [success]
        dsimp only
        have taken : (bytes.take blklen).length = blklen := length_take_of_le (by omega)
        have rest : (bytes.drop blklen).length = bytes.length - blklen := length_drop
        have both := served.trans (.copyIn (cur / 4096) (cur % 4096) (bytes.take blklen)
          (by rw [taken]; omega))
        obtain ⟨inode'', size, status', result, outcome⟩ :=
          ih (bytes.length - blklen) (by omega) (vec + blklen) (by omega)
            (by rw [rest, show offset + (vec + blklen) + (bytes.length - blklen) = cur + bytes.length
              by omega]; exact both.enough enough) rest
        rw [result]
        exact ⟨inode'', size, status', rfl, .after both outcome (And.imp_left (by omega))⟩
      · -- the size of the file may change
        have kept : ∀ last, last = (if entered.filesize < cur then
            { entered with filesize := cur, dirty := true } else entered) →
            (inode.Covered fs.blockSize → last.Covered fs.blockSize) ∧
              ∀ k, inode.Cached k → last.Cached k := by
          rintro last rfl
          split_ifs
          · exact ⟨covered, cached⟩
          · exact ⟨covered, cached⟩
        obtain ⟨covered', cached'⟩ := kept _ rfl
        cases status
        case success => exact absurd rfl success
        all_goals exact ⟨_, _, _, rfl, covered', cached', fun reported => absurd reported.2 success⟩
    · rw [writeLoop, dif_neg more]
      exact ⟨inode, vec, .success, rfl, .of_served (.refl inode : inode.Served _ _ 0 inode)⟩

end Calls

/-! ## Every run -/

def DirtyState.start (inode : InodePages) : DirtyState := ⟨inode, [], false, false⟩

structure DirtyState.Inv (blocksize : ℕ) (s : DirtyState) : Prop where
  covered : s.inode.Covered blocksize
  holds : ∀ r ∈ s.readers, r.Holds s.inode
  honest : s.refused → ¬s.reported

variable {supply : ℕ → Option UInt32}

theorem exists_of_refusedIn {asked asked' : ℕ} (refused : refusedIn supply asked asked') :
    ∃ k, asked ≤ k ∧ k < asked' ∧ supply k = none := by
  obtain ⟨k, mem, none⟩ := any_eq_true.mp refused
  have := mem_range.mp mem
  exact ⟨asked + k, by omega, by omega, isNone_iff_eq_none.mp none⟩

theorem DirtyState.holds_set {readers : List Reader} {inode inode' : InodePages}
    (holds : ∀ r ∈ readers, r.Holds inode) (cached : ∀ k, inode.Cached k → inode'.Cached k)
    {r' : Reader} (held : r'.Holds inode') (i : ℕ) : ∀ r ∈ readers.set i r', r.Holds inode' := by
  intro r mem
  rcases mem_or_eq_of_mem_set mem with mem | rfl
  · exact (holds r mem).mono cached
  · exact held

section Runs

variable {fs : InodeTable} {supply : ℕ → Option UInt32} (sizes : PageBlocks fs.blockSize)
include sizes

theorem DirtyState.Inv.step {s t : DirtyState} {a : DirtyAction} (inv : s.Inv fs.blockSize)
    (enough : s.Enough fs.blockSize supply a) (taken : dirtyExec fs supply s a = some t) :
    t.Inv fs.blockSize := by
  cases a with
  | create =>
    cases taken
    refine ⟨inv.covered, fun r mem => ?_, by simp⟩
    rcases mem_append.mp mem with mem | mem
    · exact inv.holds r mem
    · obtain rfl := mem_singleton.mp mem
      exact fun page => absurd page (by decide)
  | seekSet i offset =>
    obtain ⟨r, at_i, taken⟩ := bind_eq_some_iff.mp taken
    obtain ⟨loads, held⟩ :=
      r.seekSet_loads fs (inv.holds r (mem_of_getElem? at_i)) offset
    cases taken
    exact ⟨loads.covered inv.covered, holds_set inv.holds loads.cached held i, by simp⟩
  | read i n =>
    obtain ⟨r, at_i, taken⟩ := bind_eq_some_iff.mp taken
    obtain ⟨loads, held⟩ := r.read_loads fs (inv.holds r (mem_of_getElem? at_i)) n
    cases taken
    exact ⟨loads.covered inv.covered, holds_set inv.holds loads.cached held i, by simp⟩
  | write i bytes =>
    obtain ⟨r, at_i, taken⟩ := bind_eq_some_iff.mp taken
    obtain ⟨inode, r', size, status, result, held, outcome⟩ :=
      r.write_outcome sizes (inv.holds r (mem_of_getElem? at_i)) (enough r at_i)
    simp only [result, Option.pure_def, some.injEq] at taken
    subst taken
    refine ⟨outcome.covered inv.covered, holds_set inv.holds outcome.cached held i,
      fun refused reported => ?_⟩
    obtain ⟨k, lower, upper, none⟩ := exists_of_refusedIn refused
    exact outcome.given (of_decide_eq_true reported) k lower upper none
  | writeBytes offset bytes =>
    obtain ⟨inode, size, status, result, outcome⟩ :=
      s.inode.writeLoop_outcome sizes offset.toNat 0 enough.1 enough.2
    simp only [dirtyExec, writeBytes, result, some.injEq] at taken
    subst taken
    refine ⟨outcome.covered inv.covered, fun r mem => (inv.holds r mem).mono outcome.cached,
      fun refused reported => ?_⟩
    obtain ⟨k, lower, upper, none⟩ := exists_of_refusedIn refused
    have reported := of_decide_eq_true reported
    exact outcome.given ⟨by omega, reported.2⟩ k lower upper none

/-- While a write finds the blocks that it needs for pages of the cache, the dirty pages have their
blocks, and a call that got no block reports it. -/
theorem backed_of_enough {inode : InodePages} (covered : inode.Covered fs.blockSize)
    {xs : List DirtyAction} {s : DirtyState}
    (run : Machine.RunWhen (DirtyState.Enough fs.blockSize supply) (dirtyExec fs supply)
      (.start inode) xs s) : s.Backed fs.blockSize := by
  have start : (DirtyState.start inode).Inv fs.blockSize :=
    ⟨covered, by simp [DirtyState.start], by simp [DirtyState.start]⟩
  have inv : s.Inv fs.blockSize :=
    run.invariant (fun _ _ _ inv enough taken => inv.step sizes enough taken) start
  have pos : 0 < fs.blockSize := by
    rcases sizes with same | same | same <;> rw [same] <;> decide
  refine ⟨fun blki page at_blki b _ before dirty => ?_, inv.covered.writes pos, inv.honest⟩
  exact Nat.lt_of_mul_lt_mul_right (before.trans_le (inv.covered blki page at_blki dirty))

end Runs

def oneBlock (page : Buffer) : InodePages := ⟨[5], [some ⟨page, 0⟩], 100, false, 0⟩

theorem write_oneBlock (fs : InodeTable) (supply : ℕ → Option UInt32) (page : Buffer) :
    Reader.write fs supply (oneBlock page) ⟨true, 1024, 1, 0, by decide⟩ [7] =
      (Reader.put fs.blockSize supply (oneBlock page) ⟨true, 1024, 1, 0, by decide⟩ [7],
        ⟨true, 1025, 1, 0, by decide⟩, 1, .success) := by
  rw [write]
  rfl

theorem dirtyExec_write {fs : InodeTable} {s : DirtyState} {i size : ℕ} {r r' : Reader}
    {inode : InodePages} {status : FilesystemStatus} (at_i : s.readers[i]? = some r)
    (result : r.write fs supply s.inode bytes = (inode, r', size, status)) :
    dirtyExec fs supply s (.write i bytes) = some ⟨inode, s.readers.set i r',
      size = bytes.length ∧ status = .success, refusedIn supply s.inode.asked inode.asked⟩ := by
  simp only [dirtyExec, at_i, Option.bind_eq_bind, bind_some, result, Option.pure_def]

/-- The block that the byte needs is there. -/
theorem backed_append :
    let fs := deviceTable (fun _ => 0) 1024 512
    ∃ s, Machine.RunWhen (DirtyState.Enough fs.blockSize fromSix) (dirtyExec fs fromSix)
        (.start (oneBlock fun _ => 0)) [.create, .seekSet 0 1024, .write 0 [7]] s ∧
      s.Backed fs.blockSize := by
  intro fs
  have covered : (oneBlock fun _ => 0).Covered fs.blockSize := by
    intro blki page at_blki dirty
    match blki, at_blki with
    | 0, at_zero =>
      obtain rfl := some.inj (some.inj at_zero)
      exact absurd rfl dirty
  refine Machine.RunWhen.reaches (.cons trivial rfl (.cons trivial rfl
    (.cons ?_ (dirtyExec_write rfl (write_oneBlock fs fromSix fun _ => 0)) (.nil _))))
    fun run => backed_of_enough (.inl rfl) covered run
  intro r at_zero k missing
  unfold fromSix
  split_ifs <;> simp

/-- The same with no block left: the write reports its byte, the page is marked, and there is no
block for it. -/
theorem not_backed_append :
    let fs := deviceTable (fun _ => 0) 1024 512
    ∃ s, Machine.Run (dirtyExec fs fun _ => none) (.start (oneBlock fun _ => 0))
        [.create, .seekSet 0 1024, .write 0 [7]] s ∧ s.reported ∧ ¬s.Backed fs.blockSize := by
  intro fs
  refine ⟨_, .cons trivial rfl (.cons trivial rfl (.cons trivial
    (dirtyExec_write rfl (write_oneBlock fs (fun _ => none) fun _ => 0)) (.nil _))), rfl, ?_⟩
  intro backed
  have put : (put fs.blockSize (fun _ => none) (oneBlock fun _ => 0)
      ⟨true, 1024, 1, 0, by decide⟩ [7]) =
        ⟨[5], [some ⟨Buffer.write (fun _ => 0) 1024 [7], 1025⟩], 100, false, 1⟩ := by
    have alloc : (oneBlock fun _ => 0).allocToExtend 1024 (fun _ => none) 0 1025 =
      (⟨[5], [some ⟨fun _ => 0, 0⟩], 100, false, 1⟩, .noAvailBlocks) := rfl
    rw [put, show fs.blockSize = 1024 from rfl,
      show 1024 + [(7 : UInt8)].length = 1025 from rfl, alloc]
    rfl
  have inside := backed.blocks 0 ⟨Buffer.write (fun _ => 0) 1024 [7], 1025⟩ (by rw [put]; rfl) 1
    (show 0 * 4096 < 2 * 1024 by decide) (show 1 * 1024 < 0 * 4096 + 1025 by decide)
  exact absurd inside (by decide)

end JeoKernel.Ext2
