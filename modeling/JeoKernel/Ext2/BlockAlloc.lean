import Mathlib.Data.List.Sort
import JeoKernel.Lib.Machine
import JeoKernel.Ext2.Bitmap

/-!
# Block allocation in ext2

`AllocateBlocks` takes the first free bit of the first group that has one and extends the result
over the following free bits of that group; `ReleaseBlock` finds the bit of a block number again.
The two translate between bits and block numbers separately, and differently for group 0, whose
bit 0 is block 1, and for group `i > 0`, whose bit 0 is block `blocks_per_group * i`.

A run interleaves the two calls in any order; only outstanding blocks are released.
-/

namespace JeoKernel.Ext2

open List Option Machine UInt32

inductive FilesystemStatus where
  | success
  | ioError
  | integrityError
  | notSupportedFsFeature
  | invalidRequest
  | noAvailInodes
  | noAvailBlocks
  deriving DecidableEq

/-- The part of `ext2fs_group` that belongs to blocks, with the bitmap of the group:
`ReadBlockGroups` loads one bitmap for every group. -/
structure BlockGroup (blocksPerGroup : ℕ) where
  bitmap : Bitmap blocksPerGroup
  freeBlocksCount : UInt32
  dirty : Bool
  deriving DecidableEq

/-- The state `AllocateBlocks` and `ReleaseBlock` work on. -/
structure BlockMap (blocksPerGroup : ℕ) where
  unallocatedBlocks : UInt32
  groups : List (BlockGroup blocksPerGroup)
  deriving DecidableEq

/-- `ext2fs_allocate_blocks_result`. -/
structure AllocateBlocksResult where
  block : ℕ
  count : ℕ
  status : FilesystemStatus
  deriving DecidableEq

def AllocateBlocksResult.blocks (r : AllocateBlocksResult) : List ℕ :=
  (range r.count).map (r.block + ·)

variable {blocksPerGroup : ℕ}

/-- The bit for `block` in group `i`; group 0 counts its blocks from 1. -/
def blockIndex (i block : ℕ) : ℕ := if i ≠ 0 then block else block - 1

def BlockGroup.take (group : BlockGroup blocksPerGroup) (index : ℕ) : BlockGroup blocksPerGroup :=
  { group with
    bitmap := group.bitmap.set index true
    freeBlocksCount := group.freeBlocksCount - 1 }

/-- The inner loop of `AllocateBlocks`: the following blocks, as long as they are free. -/
def extend (i : ℕ) : ℕ → ℕ → UInt32 → BlockGroup blocksPerGroup → ℕ →
    UInt32 × BlockGroup blocksPerGroup × ℕ
  | 0, _, unallocated, group, count => (unallocated, group, count)
  | requestedCount + 1, block, unallocated, group, count =>
    if unallocated = 0 ∨ group.freeBlocksCount = 0 then (unallocated, group, count)
    else if blocksPerGroup ≤ block + 1 ∨ group.bitmap.get (blockIndex i (block + 1)) then
      (unallocated, group, count)
    else
      extend i requestedCount (block + 1) (unallocated - 1)
        (group.take (blockIndex i (block + 1))) (count + 1)

/-- The body of the loop over the groups, once `FindFree` has found bit `free` of group `i`. -/
def allocateFrom (i requestedCount : ℕ) (unallocated : UInt32) (group : BlockGroup blocksPerGroup)
    (free : ℕ) : UInt32 × BlockGroup blocksPerGroup × AllocateBlocksResult :=
  let block := if i ≠ 0 then free else free + 1
  let (unallocated, group, count) := extend i (requestedCount - 1) block (unallocated - 1)
    { group.take (blockIndex i block) with dirty := true } 1
  (unallocated, group, ⟨blocksPerGroup * i % 2 ^ 32 + block, count, .success⟩)

/-- The loop of `AllocateBlocks` over the groups, from group `i` on. -/
def allocateIn (requestedCount : ℕ) (unallocated : UInt32) : ℕ → List (BlockGroup blocksPerGroup) →
    Option (UInt32 × List (BlockGroup blocksPerGroup) × AllocateBlocksResult)
  | _, [] => none
  | i, group :: groups =>
    let skip := (allocateIn requestedCount unallocated (i + 1) groups).map fun (u, gs, r) =>
      (u, group :: gs, r)
    if group.freeBlocksCount = 0 then skip
    else
      match group.bitmap.findFree with
      | 0 => skip
      | free + 1 =>
        let (u, g, r) := allocateFrom i requestedCount unallocated group free
        some (u, g :: groups, r)

def allocateBlocks (fs : BlockMap blocksPerGroup) (requestedCount : ℕ) :
    BlockMap blocksPerGroup × AllocateBlocksResult :=
  if requestedCount = 0 then (fs, ⟨0, 0, .success⟩)
  else if fs.unallocatedBlocks = 0 then (fs, ⟨0, 0, .noAvailBlocks⟩)
  else
    match allocateIn requestedCount fs.unallocatedBlocks 0 fs.groups with
    | some (unallocatedBlocks, groups, result) => (⟨unallocatedBlocks, groups⟩, result)
    | none => (fs, ⟨0, 0, .noAvailBlocks⟩)

def BlockGroup.put (group : BlockGroup blocksPerGroup) (index : ℕ) : BlockGroup blocksPerGroup where
  bitmap := group.bitmap.set index false
  freeBlocksCount := group.freeBlocksCount + 1
  dirty := true

/-- `ReleaseBlock`; its argument is a `uint32_t`. -/
def releaseBlock (fs : BlockMap blocksPerGroup) (blknum : ℕ) :
    BlockMap blocksPerGroup × FilesystemStatus :=
  let blknum := blknum % 2 ^ 32
  if blknum < 1 then (fs, .integrityError)
  else
    let i := blknum / blocksPerGroup
    match fs.groups[i]? with
    | none => (fs, .integrityError)
    | some group =>
      (⟨fs.unallocatedBlocks + 1,
        fs.groups.set i (group.put (blockIndex i (blknum % blocksPerGroup)))⟩, .success)

/-! ## Bits, counters and outstanding blocks -/

def BlockMap.bit (fs : BlockMap blocksPerGroup) (p : ℕ × ℕ) : Bool :=
  match fs.groups[p.1]? with
  | some group => group.bitmap.get p.2
  | none => false

def BlockMap.freeBlocks (fs : BlockMap blocksPerGroup) (i : ℕ) : Option UInt32 :=
  fs.groups[i]?.map BlockGroup.freeBlocksCount

/-- The bits that are clear in `fs` and set in `fs'`, in the order of the groups. -/
def setBits (fs fs' : BlockMap blocksPerGroup) : List (ℕ × ℕ) :=
  ((range fs.groups.length).flatMap fun i => (range blocksPerGroup).map (i, ·)).filter
    fun p => !fs.bit p && fs'.bit p

/-- An outstanding block, with the bit that its allocation set. -/
structure Held where
  block : ℕ
  bit : Option (ℕ × ℕ)
  deriving DecidableEq

structure AllocState (blocksPerGroup : ℕ) where
  fs : BlockMap blocksPerGroup
  outstanding : List Held

inductive AllocAction where
  | allocate (requestedCount : ℕ)
  | release (blknum : ℕ)

def allocExec (s : AllocState blocksPerGroup) : AllocAction → Option (AllocState blocksPerGroup)
  | .allocate requestedCount =>
    let (fs, result) := allocateBlocks s.fs requestedCount
    let bits := setBits s.fs fs
    some ⟨fs, s.outstanding ++ (range result.count).map fun k => ⟨result.block + k, bits[k]?⟩⟩
  | .release blknum =>
    -- Only an outstanding block is released.
    (s.outstanding.find? (·.block == blknum)).map fun held =>
      ⟨(releaseBlock s.fs blknum).1, s.outstanding.erase held⟩

structure SameFree (fs fs' : BlockMap blocksPerGroup) : Prop where
  bits : ∀ p, fs.bit p = fs'.bit p
  freeBlocks : ∀ i, fs.freeBlocks i = fs'.freeBlocks i
  unallocated : fs.unallocatedBlocks = fs'.unallocatedBlocks

/-- Releasing `held` succeeds and clears the bit its allocation set, and no other. -/
def ReleaseClears (fs : BlockMap blocksPerGroup) (held : Held) : Prop :=
  ∃ p, held.bit = some p ∧ fs.bit p = true ∧ (releaseBlock fs held.block).2 = .success ∧
    ∀ q, (releaseBlock fs held.block).1.bit q = if q = p then false else fs.bit q

/-- Releasing what one `AllocateBlocks` handed out, in any order, undoes it. -/
def AllocateUndone (fs : BlockMap blocksPerGroup) (requestedCount : ℕ) : Prop :=
  ∀ blocks : List ℕ, blocks.Perm (allocateBlocks fs requestedCount).2.blocks →
    SameFree (blocks.foldl (fun fs blknum => (releaseBlock fs blknum).1)
      (allocateBlocks fs requestedCount).1) fs

/-- This `AllocateBlocks` does not hand out the last bit of group 0. -/
def SparesLastBit (s : AllocState blocksPerGroup) : AllocAction → Prop
  | .allocate requestedCount =>
    0 < requestedCount → s.fs.unallocatedBlocks ≠ 0 → ∀ group ∈ s.fs.groups[0]?,
      group.freeBlocksCount ≠ 0 → group.bitmap.findFree ≠ blocksPerGroup
  | .release _ => True

instance (s : AllocState blocksPerGroup) (a : AllocAction) : Decidable (SparesLastBit s a) :=
  match a with
  | .allocate .. | .release .. => by dsimp only [SparesLastBit]; infer_instance

structure AllocSafe (s : AllocState blocksPerGroup) : Prop where
  distinct : (s.outstanding.map Held.block).Nodup
  clears : ∀ held ∈ s.outstanding, ReleaseClears s.fs held
  undone : ∀ requestedCount, SparesLastBit s (.allocate requestedCount) →
    AllocateUndone s.fs requestedCount

/-! ## What one allocation takes -/

/-- `group'` is `group` with the `count` clear bits from `first` on set. -/
structure Filled (group group' : BlockGroup blocksPerGroup) (first count : ℕ) : Prop where
  clear : ∀ k < count, group.bitmap.get (first + k) = false
  bits : ∀ j, group'.bitmap.get j = (group.bitmap.get j || decide (first ≤ j ∧ j < first + count))
  counter : group'.freeBlocksCount + UInt32.ofNat count = group.freeBlocksCount

theorem Filled.refl (group : BlockGroup blocksPerGroup) (first : ℕ) :
    Filled group group first 0 where
  clear := by simp
  bits := by simp
  counter := by simp

variable {first : ℕ}

theorem Filled.cons {group group' : BlockGroup blocksPerGroup} {count : ℕ}
    (inside : first < blocksPerGroup) (free : group.bitmap.get first = false)
    (rest : Filled (group.take first) group' (first + 1) count) :
    Filled group group' first (count + 1) where
  clear := by
    intro k hk
    rcases k with _ | k
    · exact free
    · have later := rest.clear k (by omega)
      rw [BlockGroup.take, Bitmap.get_set _ inside, if_neg (by omega)] at later
      rwa [show first + (k + 1) = first + 1 + k by omega]
  bits := by
    intro j
    rw [rest.bits, BlockGroup.take, Bitmap.get_set _ inside]
    by_cases h : first = j
    · subst h; simp
    · simp only [if_neg h]
      congr 2
      exact propext ⟨fun hj => by omega, fun hj => by omega⟩
  counter := by
    have := rest.counter
    rw [ofNat_add, ← UInt32.add_assoc, this]
    exact UInt32.sub_add_cancel _ _

theorem extend_spec (i requestedCount block : ℕ) (unallocated : UInt32)
    (group : BlockGroup blocksPerGroup) (count : ℕ) (one : i = 0 → 1 ≤ block) :
    ∃ k unallocated' group', extend i requestedCount block unallocated group count =
        (unallocated', group', count + k) ∧
      unallocated' + UInt32.ofNat k = unallocated ∧
      Filled group group' (blockIndex i block + 1) k ∧ (0 < k → block + k < blocksPerGroup) := by
  induction requestedCount generalizing block unallocated group count with
  | zero => exact ⟨0, unallocated, group, rfl, by simp, .refl _ _, by simp⟩
  | succ requestedCount ih =>
    rw [extend]
    split_ifs with empty full
    · exact ⟨0, unallocated, group, rfl, by simp, .refl _ _, by simp⟩
    · exact ⟨0, unallocated, group, rfl, by simp, .refl _ _, by simp⟩
    · simp only [not_or, Nat.not_le, Bool.not_eq_true] at full
      have next : blockIndex i (block + 1) = blockIndex i block + 1 := by
        unfold blockIndex
        split_ifs <;> omega
      have inside : blockIndex i block + 1 < blocksPerGroup := by
        unfold blockIndex
        split_ifs <;> omega
      obtain ⟨k, u, g, eq, counter, filled, bound⟩ := ih (block + 1) (unallocated - 1)
        (group.take (blockIndex i (block + 1))) (count + 1) (by omega)
      rw [next] at full filled
      refine ⟨k + 1, u, g, by rw [eq]; congr 2; omega, ?_, filled.cons inside full.2, ?_⟩
      · rw [ofNat_add, ← UInt32.add_assoc, counter]
        exact UInt32.sub_add_cancel _ _
      · by_cases more : 0 < k
        · have := bound more; omega
        · omega

/-- In group `i`, the bits from `first` on, as many as the result counts, go from clear to set; the
last bit of group 0 is only taken alone. -/
structure Takes (i first : ℕ) (unallocated unallocated' : UInt32)
    (group group' : BlockGroup blocksPerGroup) (r : AllocateBlocksResult) : Prop where
  found : group.freeBlocksCount ≠ 0 ∧ group.bitmap.findFree = first + 1
  filled : Filled group group' first r.count
  inside : first + r.count ≤ blocksPerGroup
  last : i = 0 → first + r.count < blocksPerGroup ∨ first + 1 = blocksPerGroup
  block : r.block = blocksPerGroup * i % 2 ^ 32 + if i ≠ 0 then first else first + 1
  unallocated : unallocated' + UInt32.ofNat r.count = unallocated

variable {i requestedCount : ℕ}

theorem takes_allocateFrom {free : ℕ} {unallocated : UInt32} {group : BlockGroup blocksPerGroup}
    (counter : group.freeBlocksCount ≠ 0) (found : group.bitmap.findFree = free + 1) :
    let x := allocateFrom i requestedCount unallocated group free
    Takes i free unallocated x.1 group x.2.1 x.2.2 := by
  have first := group.bitmap.firstFree_findFree
  rw [found] at first
  obtain ⟨inside, clear, -⟩ := first
  unfold allocateFrom
  generalize hblock : (if i ≠ 0 then free else free + 1) = block
  have index : blockIndex i block = free := by
    unfold blockIndex
    split_ifs at hblock ⊢ <;> omega
  obtain ⟨k, u, g, eq, total, filled, bound⟩ := extend_spec i (requestedCount - 1) block
    (unallocated - 1) { group.take (blockIndex i block) with dirty := true } 1
    (by intro zero; simp [zero] at hblock; omega)
  have reach : free + (1 + k) ≤ blocksPerGroup ∧
      (i = 0 → free + (1 + k) < blocksPerGroup ∨ free + 1 = blocksPerGroup) := by
    rcases Nat.eq_zero_or_pos k with rfl | more
    · omega
    · split_ifs at hblock <;> omega
  simp only [eq]
  rw [index] at filled
  refine ⟨⟨counter, found⟩, ?_, reach.1, reach.2, by rw [hblock], ?_⟩
  · rw [add_comm 1 k]
    exact Filled.cons inside clear { filled with }
  · rw [add_comm 1 k, ofNat_add, ← UInt32.add_assoc, total]
    exact UInt32.sub_add_cancel _ _

variable {r : AllocateBlocksResult}

def BlockGroup.Full (g : BlockGroup blocksPerGroup) : Prop :=
  g.freeBlocksCount = 0 ∨ ∀ b < blocksPerGroup, g.bitmap.get b = true

theorem allocateIn_cases (requestedCount : ℕ) (unallocated : UInt32) (i : ℕ)
    (groups : List (BlockGroup blocksPerGroup)) :
    (allocateIn requestedCount unallocated i groups = none ∧ ∀ g ∈ groups, g.Full) ∨
    ∃ k g b, groups[k]? = some g ∧ (∀ j < k, ∀ g', groups[j]? = some g' → g'.Full) ∧
      g.freeBlocksCount ≠ 0 ∧ g.bitmap.findFree = b + 1 ∧
      allocateIn requestedCount unallocated i groups =
        (let x := allocateFrom (i + k) requestedCount unallocated g b
        some (x.1, groups.set k x.2.1, x.2.2)) := by
  induction groups generalizing i with
  | nil => exact .inl ⟨rfl, by simp⟩
  | cons group groups ih =>
    have first := group.bitmap.firstFree_findFree
    by_cases none : group.freeBlocksCount = 0 ∨ group.bitmap.findFree = 0
    · have full : group.Full := none.imp id fun zero => by rwa [zero] at first
      have skipped : allocateIn requestedCount unallocated i (group :: groups) =
          (allocateIn requestedCount unallocated (i + 1) groups).map fun x =>
            (x.1, group :: x.2.1, x.2.2) := by
        rw [allocateIn]
        rcases none with zero | zero <;> simp [zero]
      rcases ih (i + 1) with ⟨none, all⟩ | ⟨k, g, b, at_k, before, counter, found, result⟩
      · exact .inl ⟨by rw [skipped, none]; rfl, by simpa [full] using all⟩
      · refine .inr ⟨k + 1, g, b, at_k, fun j less g' at_j => ?_, counter, found, ?_⟩
        · cases j with
          | zero => rwa [← Option.some.inj at_j]
          | succ j => exact before j (by omega) g' at_j
        · rw [skipped, result, Nat.add_right_comm]
          rfl
    · obtain ⟨counter, some⟩ := not_or.mp none
      obtain ⟨b, found⟩ := Nat.exists_eq_succ_of_ne_zero some
      refine .inr ⟨0, group, b, rfl, by simp, counter, found, ?_⟩
      rw [allocateIn, if_neg counter, found]
      rfl

theorem allocateBlocks_cases (fs : BlockMap blocksPerGroup) (requestedCount : ℕ) :
    let x := allocateBlocks fs requestedCount
    (x.1 = fs ∧ x.2.count = 0) ∨
    (0 < requestedCount ∧ fs.unallocatedBlocks ≠ 0 ∧ ∃ i first g g', fs.groups[i]? = some g ∧
      x.1.groups = fs.groups.set i g' ∧
      Takes i first fs.unallocatedBlocks x.1.unallocatedBlocks g g' x.2) := by
  unfold allocateBlocks
  split_ifs with none empty
  · exact .inl ⟨rfl, rfl⟩
  · exact .inl ⟨rfl, rfl⟩
  · rcases allocateIn_cases requestedCount fs.unallocatedBlocks 0 fs.groups with
      ⟨missed, -⟩ | ⟨i, g, first, at_i, -, counter, found, result⟩
    · exact .inl ⟨by rw [missed], by rw [missed]⟩
    · rw [result, zero_add]
      exact .inr ⟨Nat.pos_of_ne_zero none, empty, i, first, g, _, at_i, rfl,
        takes_allocateFrom counter found⟩

/-! ## Bits and block numbers -/

def number (blocksPerGroup : ℕ) (p : ℕ × ℕ) : ℕ :=
  blocksPerGroup * p.1 + if p.1 ≠ 0 then p.2 else p.2 + 1

/-- A bit of the file system that is not the last one of group 0. -/
structure Fits (fs : BlockMap blocksPerGroup) (p : ℕ × ℕ) : Prop where
  group : p.1 < fs.groups.length
  bit : p.2 < blocksPerGroup
  last : p.1 = 0 → p.2 + 1 < blocksPerGroup

variable {fs fs' : BlockMap blocksPerGroup} {p q : ℕ × ℕ}

theorem Fits.number_div (fits : Fits fs p) : number blocksPerGroup p / blocksPerGroup = p.1 := by
  have := fits.bit
  have := fits.last
  refine Nat.div_eq_of_lt_le ?_ ?_ <;> unfold number <;> rw [mul_comm]
  · omega
  · rw [Nat.succ_mul]
    split_ifs <;> omega

theorem Fits.blockIndex_mod (fits : Fits fs p) :
    blockIndex p.1 (number blocksPerGroup p % blocksPerGroup) = p.2 := by
  have := fits.bit
  have := fits.last
  unfold number blockIndex
  rw [Nat.mul_add_mod]
  split_ifs <;> rw [Nat.mod_eq_of_lt] <;> omega

theorem Fits.number_inj (hp : Fits fs p) (hq : Fits fs' q)
    (h : number blocksPerGroup p = number blocksPerGroup q) : p = q := by
  have group : p.1 = q.1 := by rw [← hp.number_div, h, hq.number_div]
  refine Prod.ext group ?_
  rw [← hp.blockIndex_mod, h, group, hq.blockIndex_mod]

theorem Fits.number_bounds (fits : Fits fs p) (small : blocksPerGroup * fs.groups.length ≤ 2 ^ 32) :
    1 ≤ number blocksPerGroup p ∧ number blocksPerGroup p < 2 ^ 32 := by
  have := fits.bit
  have := fits.last
  have below : blocksPerGroup * (p.1 + 1) ≤ blocksPerGroup * fs.groups.length :=
    Nat.mul_le_mul_left _ fits.group
  rw [Nat.mul_succ] at below
  have positive : p.1 ≠ 0 → 1 ≤ blocksPerGroup * p.1 := fun h =>
    Nat.mul_pos (by omega) (Nat.pos_of_ne_zero h)
  unfold number
  split_ifs with h
  · have := positive h; omega
  · omega

open BlockMap

theorem bit_set {u : UInt32} {groups : List (BlockGroup blocksPerGroup)}
    (g : BlockGroup blocksPerGroup) (hi : i < groups.length) (q : ℕ × ℕ) :
    BlockMap.bit ⟨u, groups.set i g⟩ q =
      if i = q.1 then g.bitmap.get q.2 else BlockMap.bit ⟨u, groups⟩ q := by
  unfold bit
  simp only [getElem?_set, hi, if_true]
  split_ifs <;> rfl

theorem bit_put {u : UInt32} {g g' : BlockGroup blocksPerGroup} (at_i : fs.groups[i]? = some g) {b : ℕ}
    {value : Bool} (get : ∀ c, g'.bitmap.get c = if b = c then value else g.bitmap.get c) (q : ℕ × ℕ) :
    BlockMap.bit ⟨u, fs.groups.set i g'⟩ q = if q = (i, b) then value else fs.bit q := by
  obtain ⟨j, c⟩ := q
  rw [bit_set _ (List.getElem?_eq_some_iff.mp at_i).1]
  by_cases group : i = j
  · subst group
    simp only [if_true, get, bit, at_i, Prod.mk.injEq, true_and, eq_comm]
  · rw [if_neg group, if_neg (fun h => group (Prod.mk.inj h).1.symm)]
    rfl

section

variable (fits : Fits fs p) (small : blocksPerGroup * fs.groups.length ≤ 2 ^ 32)

include fits small

/-- Releasing the block of a bit clears that bit and counts it as free in its group. -/
theorem Fits.release :
    ∃ g, fs.groups[p.1]? = some g ∧ releaseBlock fs (number blocksPerGroup p) =
      (⟨fs.unallocatedBlocks + 1, fs.groups.set p.1 (g.put p.2)⟩, .success) := by
  obtain ⟨positive, below⟩ := fits.number_bounds small
  have located := getElem?_eq_getElem fits.group
  refine ⟨_, located, ?_⟩
  simp only [releaseBlock, Nat.mod_eq_of_lt below, fits.number_div, located, fits.blockIndex_mod]
  rw [if_neg (by omega)]

theorem Fits.bit_release (q : ℕ × ℕ) : (releaseBlock fs (number blocksPerGroup p)).1.bit q =
      if q = p then false else fs.bit q := by
  obtain ⟨g, located, eq⟩ := fits.release small
  rw [eq]
  exact bit_put located (g.bitmap.get_set fits.bit false) q

theorem Fits.freeBlocks_release (i : ℕ) :
    (releaseBlock fs (number blocksPerGroup p)).1.freeBlocks i =
      if i = p.1 then (fs.freeBlocks i).map (· + 1) else fs.freeBlocks i := by
  obtain ⟨g, located, eq⟩ := fits.release small
  simp only [eq, freeBlocks, getElem?_set, fits.group, if_true, eq_comm]
  split_ifs with group
  · rw [group, located]
    rfl
  · rfl

end

/-! ## Undoing an allocation -/

theorem release_foldl (fs : BlockMap blocksPerGroup) (i : ℕ) (blocks : List ℕ)
    (small : blocksPerGroup * fs.groups.length ≤ 2 ^ 32)
    (fit : ∀ b ∈ blocks, ∃ p, Fits fs p ∧ p.1 = i ∧ b = number blocksPerGroup p) :
    let fs' := blocks.foldl (fun fs blknum => (releaseBlock fs blknum).1) fs
    (∀ q, Fits fs q → fs'.bit q = (fs.bit q && !decide (number blocksPerGroup q ∈ blocks))) ∧
    (∀ q, ¬Fits fs q → fs'.bit q = fs.bit q) ∧
    (∀ j, fs'.freeBlocks j = if j = i then
      (fs.freeBlocks j).map (· + UInt32.ofNat blocks.length) else fs.freeBlocks j) ∧
    fs'.unallocatedBlocks = fs.unallocatedBlocks + UInt32.ofNat blocks.length := by
  induction blocks generalizing fs with
  | nil => simp
  | cons b blocks ih =>
    obtain ⟨p, fits, rfl, rfl⟩ := fit b mem_cons_self
    obtain ⟨g, -, eq⟩ := fits.release small
    have length : (releaseBlock fs (number blocksPerGroup p)).1.groups.length =
        fs.groups.length := by rw [eq]; exact length_set
    have keep (q : ℕ × ℕ) : Fits (releaseBlock fs (number blocksPerGroup p)).1 q ↔ Fits fs q :=
      ⟨fun h => ⟨length ▸ h.group, h.bit, h.last⟩, fun h => ⟨length.symm ▸ h.group, h.bit, h.last⟩⟩
    obtain ⟨bits, others, counters, total⟩ := ih (releaseBlock fs _).1
      (by rwa [length]) fun c hc => by
        obtain ⟨q, hq, group, rfl⟩ := fit c (mem_cons_of_mem _ hc)
        exact ⟨q, (keep q).mpr hq, group, rfl⟩
    refine ⟨fun q hq => ?_, fun q hq => ?_, fun j => ?_, ?_⟩
    · rw [foldl_cons, bits q ((keep q).mpr hq), fits.bit_release small]
      by_cases same : q = p
      · subst same; simp
      · have other : number blocksPerGroup q ≠ number blocksPerGroup p :=
          fun h => same (hq.number_inj fits h)
        simp [same, other]
    · rw [foldl_cons, others q (fun h => hq ((keep q).mp h)), fits.bit_release small,
        if_neg (by rintro rfl; exact hq fits)]
    · rw [foldl_cons, counters, fits.freeBlocks_release small]
      split_ifs with group
      · rw [Option.map_map, length_cons, Nat.add_comm, ofNat_add]
        congr 1
        funext x
        exact UInt32.add_assoc _ _ _
      · rfl
    · rw [foldl_cons, total, eq, length_cons, Nat.add_comm, ofNat_add]
      exact UInt32.add_assoc _ _ _

/-- A whole allocation, seen from the file system. -/
structure Taken (fs fs' : BlockMap blocksPerGroup) (i first : ℕ) (r : AllocateBlocksResult) :
    Prop where
  fits : ∀ k < r.count, Fits fs (i, first + k)
  blocks : ∀ k, r.block + k = number blocksPerGroup (i, first + k)
  clear : ∀ k < r.count, fs.bit (i, first + k) = false
  bits : ∀ q, fs'.bit q = (fs.bit q || decide (q.1 = i ∧ first ≤ q.2 ∧ q.2 < first + r.count))
  length : fs'.groups.length = fs.groups.length
  freeBlocks : ∀ j, fs.freeBlocks j = if j = i then
    (fs'.freeBlocks j).map (· + UInt32.ofNat r.count) else fs'.freeBlocks j
  unallocated : fs.unallocatedBlocks = fs'.unallocatedBlocks + UInt32.ofNat r.count

theorem allocateBlocks_taken {held : List Held} (small : blocksPerGroup * fs.groups.length ≤ 2 ^ 32)
    (spares : SparesLastBit ⟨fs, held⟩ (.allocate requestedCount)) :
    let x := allocateBlocks fs requestedCount
    (x.1 = fs ∧ x.2.count = 0) ∨ ∃ i first, Taken fs x.1 i first x.2 := by
  rcases allocateBlocks_cases fs requestedCount with none |
    ⟨asked, available, i, first, g, g', located, groups, takes⟩
  · exact .inl none
  · refine .inr ⟨i, first, ?_⟩
    generalize allocateBlocks fs requestedCount = out at groups takes ⊢
    obtain ⟨⟨u, gs⟩, r⟩ := out
    obtain rfl : gs = _ := groups
    obtain ⟨hi, -⟩ := List.getElem?_eq_some_iff.mp located
    have old (b : ℕ) : fs.bit (i, b) = g.bitmap.get b := by simp only [bit, located]
    have inside := takes.inside
    have found := g.bitmap.firstFree_findFree
    rw [takes.found.2] at found
    have positive : 0 < blocksPerGroup := by have := found.1; omega
    have wrap : blocksPerGroup * i % 2 ^ 32 = blocksPerGroup * i :=
      Nat.mod_eq_of_lt (Nat.lt_of_lt_of_le (Nat.mul_lt_mul_of_pos_left hi positive) small)
    refine ⟨fun k hk => ⟨hi, by simp only; omega, ?_⟩, fun k => ?_, fun k hk => ?_, fun q => ?_,
      length_set, fun j => ?_, takes.unallocated.symm⟩
    · rintro rfl
      have notLast := spares asked available g located takes.found.1
      rw [takes.found.2] at notLast
      rcases takes.last rfl with below | last
      · simp only; omega
      · exact absurd last notLast
    · rw [takes.block, wrap, number]
      split_ifs <;> simp only <;> omega
    · rw [old, takes.filled.clear k hk]
    · rw [bit_set _ hi, takes.filled.bits]
      by_cases group : i = q.1
      · subst group
        simp [← old]
      · rw [if_neg group]
        simp [Ne.symm group, bit]
    · simp only [freeBlocks, getElem?_set, hi, if_true]
      by_cases group : i = j
      · subst group
        simp [located, takes.filled.counter]
      · simp [group, Ne.symm group]

theorem Taken.mem_blocks {b : ℕ} (taken : Taken fs fs' i first r) :
    b ∈ r.blocks ↔ ∃ k < r.count, b = number blocksPerGroup (i, first + k) := by
  simp only [AllocateBlocksResult.blocks, List.mem_map, List.mem_range, taken.blocks]
  exact ⟨fun ⟨k, hk, h⟩ => ⟨k, hk, h.symm⟩, fun ⟨k, hk, h⟩ => ⟨k, hk, h.symm⟩⟩

/-- Releasing the blocks of an allocation, in any order, restores bits and counters. -/
theorem Taken.undone (taken : Taken fs fs' i first r)
    (small : blocksPerGroup * fs.groups.length ≤ 2 ^ 32) {blocks : List ℕ}
    (order : blocks.Perm r.blocks) :
    SameFree (blocks.foldl (fun fs blknum => (releaseBlock fs blknum).1) fs') fs := by
  have keep (q : ℕ × ℕ) : Fits fs' q ↔ Fits fs q :=
    ⟨fun h => ⟨taken.length ▸ h.group, h.bit, h.last⟩,
      fun h => ⟨taken.length.symm ▸ h.group, h.bit, h.last⟩⟩
  have count : blocks.length = r.count := by
    rw [order.length_eq, AllocateBlocksResult.blocks, length_map, length_range]
  obtain ⟨bits, others, counters, total⟩ := release_foldl fs' i blocks
    (by rwa [taken.length]) fun b hb => by
      obtain ⟨k, hk, rfl⟩ := taken.mem_blocks.mp (order.mem_iff.mp hb)
      exact ⟨_, (keep _).mpr (taken.fits k hk), rfl, rfl⟩
  refine ⟨fun q => ?_, fun j => ?_, ?_⟩
  · by_cases fits : Fits fs q
    · rw [bits q ((keep q).mpr fits), taken.bits]
      -- `q` is released exactly when the allocation took it.
      have released : number blocksPerGroup q ∈ blocks ↔
          q.1 = i ∧ first ≤ q.2 ∧ q.2 < first + r.count := by
        rw [order.mem_iff, taken.mem_blocks]
        refine ⟨fun ⟨k, hk, h⟩ => ?_, fun ⟨group, lower, upper⟩ => ⟨q.2 - first, by omega, ?_⟩⟩
        · obtain rfl := fits.number_inj (taken.fits k hk) h
          exact ⟨rfl, by simp only; omega, by simp only; omega⟩
        · rw [Nat.add_sub_cancel' lower, ← group]
      by_cases inside : q.1 = i ∧ first ≤ q.2 ∧ q.2 < first + r.count
      · have clear := taken.clear (q.2 - first) (by omega)
        rw [Nat.add_sub_cancel' inside.2.1, ← inside.1] at clear
        simp [released, inside, clear]
      · simp [released, inside]
    · rw [others q (fun h => fits ((keep q).mp h)), taken.bits]
      have outside : ¬(q.1 = i ∧ first ≤ q.2 ∧ q.2 < first + r.count) := by
        rintro ⟨rfl, lower, upper⟩
        have := taken.fits (q.2 - first) (by omega)
        rw [Nat.add_sub_cancel' lower] at this
        exact fits this
      simp [outside]
  · rw [counters, count, taken.freeBlocks j]
  · rw [total, count, taken.unallocated]

/-! ## The bits an allocation sets -/

def Before (p q : ℕ × ℕ) : Prop := p.1 < q.1 ∨ p.1 = q.1 ∧ p.2 < q.2

theorem pairwise_before_setBits (fs fs' : BlockMap blocksPerGroup) :
    (setBits fs fs').Pairwise Before := by
  refine Pairwise.filter _ (pairwise_flatMap.mpr ⟨fun i _ => ?_, ?_⟩)
  · exact pairwise_map.mpr (pairwise_lt_range.imp fun h => .inr ⟨rfl, h⟩)
  · refine pairwise_lt_range.imp fun h x hx y hy => .inl ?_
    obtain ⟨_, -, rfl⟩ := List.mem_map.mp hx
    obtain ⟨_, -, rfl⟩ := List.mem_map.mp hy
    exact h

theorem Taken.setBits_eq (taken : Taken fs fs' i first r) :
    setBits fs fs' = (range r.count).map fun k => (i, first + k) := by
  have sorted : ((range r.count).map fun k => (i, first + k)).Pairwise Before :=
    pairwise_map.mpr (pairwise_lt_range.imp fun h => .inr ⟨rfl, by omega⟩)
  have strict {l : List (ℕ × ℕ)} (h : l.Pairwise Before) : l.Nodup :=
    h.imp fun h eq => by subst eq; simp [Before] at h
  refine Perm.eq_of_pairwise (fun p q _ _ h h' => ?_) (pairwise_before_setBits fs fs') sorted
    ((perm_ext_iff_of_nodup (strict (pairwise_before_setBits fs fs')) (strict sorted)).mpr
      fun p => ?_)
  · unfold Before at h h'
    omega
  · simp only [setBits, List.mem_filter, List.mem_flatMap, List.mem_map, List.mem_range,
      taken.bits, Bool.and_eq_true, Bool.not_eq_true', Bool.or_eq_true, decide_eq_true_eq]
    constructor
    · rintro ⟨-, clear, set | ⟨rfl, lower, upper⟩⟩
      · simp [clear] at set
      · exact ⟨p.2 - first, by omega, by rw [Nat.add_sub_cancel' lower]⟩
    · rintro ⟨k, hk, rfl⟩
      have fits := taken.fits k hk
      exact ⟨⟨i, fits.group, first + k, fits.bit, rfl⟩, taken.clear k hk,
        .inr ⟨rfl, by simp only; omega, by simp only; omega⟩⟩

/-! ## Runs -/

structure AllocInv (s : AllocState blocksPerGroup) : Prop where
  small : blocksPerGroup * s.fs.groups.length ≤ 2 ^ 32
  distinct : (s.outstanding.map Held.block).Nodup
  held : ∀ held ∈ s.outstanding, ∃ p, held.bit = some p ∧ Fits s.fs p ∧ s.fs.bit p = true ∧
    held.block = number blocksPerGroup p

variable {s : AllocState blocksPerGroup}

theorem AllocInv.safe (inv : AllocInv s) : AllocSafe s where
  distinct := inv.distinct
  clears := by
    intro held hheld
    obtain ⟨p, bit, fits, set, block⟩ := inv.held held hheld
    obtain ⟨g, -, eq⟩ := fits.release inv.small
    refine ⟨p, bit, set, by rw [block, eq], fun q => ?_⟩
    rw [block, fits.bit_release inv.small]
  undone := by
    intro requestedCount spares blocks order
    rcases allocateBlocks_taken inv.small spares with ⟨same, none⟩ | ⟨i, first, taken⟩
    · rw [AllocateBlocksResult.blocks, none] at order
      obtain rfl := perm_nil.mp order
      rw [same]
      exact ⟨fun _ => rfl, fun _ => rfl, rfl⟩
    · exact taken.undone inv.small order

variable {t : AllocState blocksPerGroup}

theorem AllocInv.allocate (inv : AllocInv s) (spares : SparesLastBit s (.allocate requestedCount))
    (h : allocExec s (.allocate requestedCount) = some t) : AllocInv t := by
  simp only [allocExec, some.injEq] at h
  subst h
  rcases allocateBlocks_taken inv.small spares with ⟨same, none⟩ | ⟨i, first, taken⟩
  · simpa [same, none] using inv
  · generalize allocateBlocks s.fs requestedCount = out at taken ⊢
    obtain ⟨fs', r⟩ := out
    have keep {p : ℕ × ℕ} (fits : Fits s.fs p) : Fits fs' p :=
      ⟨taken.length.symm ▸ fits.group, fits.bit, fits.last⟩
    refine ⟨taken.length.symm ▸ inv.small, ?_, ?_⟩
    · simp only [List.map_append, List.map_map, Function.comp_def, taken.blocks]
      refine List.nodup_append.mpr ⟨inv.distinct, ?_, ?_⟩
      · refine List.Nodup.map_on (fun k hk l hl eq => ?_) List.nodup_range
        have := (taken.fits k (List.mem_range.mp hk)).number_inj
          (taken.fits l (List.mem_range.mp hl)) eq
        simpa using this
      · intro b hb c hc eq
        obtain ⟨held, hheld, rfl⟩ := List.mem_map.mp hb
        obtain ⟨k, hk, rfl⟩ := List.mem_map.mp hc
        obtain ⟨p, -, fits, set, block⟩ := inv.held held hheld
        obtain rfl := fits.number_inj (taken.fits k (List.mem_range.mp hk)) (block.symm.trans eq)
        simp [taken.clear k (List.mem_range.mp hk)] at set
    · intro held hheld
      rcases List.mem_append.mp hheld with old | new
      · obtain ⟨p, bit, fits, set, block⟩ := inv.held held old
        exact ⟨p, bit, keep fits, by simp [taken.bits, set], block⟩
      · obtain ⟨k, hk, rfl⟩ := List.mem_map.mp new
        have hk := List.mem_range.mp hk
        refine ⟨(i, first + k), ?_, keep (taken.fits k hk), ?_, taken.blocks k⟩
        · simp [taken.setBits_eq, hk]
        · simp [taken.bits, hk]

theorem AllocInv.release (inv : AllocInv s) {blknum : ℕ}
    (h : allocExec s (.release blknum) = some t) : AllocInv t := by
  obtain ⟨held, found, rfl⟩ := map_eq_some_iff.mp h
  have listed := mem_of_find?_eq_some found
  obtain rfl : held.block = blknum := by simpa using find?_some found
  obtain ⟨p, bit, fits, set, block⟩ := inv.held held listed
  obtain ⟨g, -, eq⟩ := fits.release inv.small
  have length : (releaseBlock s.fs held.block).1.groups.length = s.fs.groups.length := by
    rw [block, eq]
    exact length_set
  refine ⟨by rw [length]; exact inv.small, ?_, fun other hother => ?_⟩
  · exact inv.distinct.sublist (erase_sublist.map _)
  · have listed' := mem_of_mem_erase hother
    obtain ⟨q, bit', fits', set', block'⟩ := inv.held other listed'
    refine ⟨q, bit', ⟨length.symm ▸ fits'.group, fits'.bit, fits'.last⟩, ?_, block'⟩
    rw [block, fits.bit_release inv.small]
    -- Another outstanding block has another number, hence another bit.
    have apart : q ≠ p := by
      rintro rfl
      have same := inj_on_of_nodup_map inv.distinct listed' listed (block'.trans block.symm)
      subst same
      exact ((inv.distinct.of_map _).mem_erase_iff.mp hother).1 rfl
    rw [if_neg apart, set']

theorem AllocInv.exec {s t : AllocState blocksPerGroup} {a : AllocAction} (inv : AllocInv s)
    (spares : SparesLastBit s a) (h : allocExec s a = some t) : AllocInv t := by
  cases a with
  | allocate requestedCount => exact inv.allocate spares h
  | release blknum => exact inv.release h

/-- As long as the last bit of group 0 is never handed out, block allocation keeps its promises on
every file system whose block numbers fit into 32 bits. -/
theorem allocSafe_of_sparesLastBit {fs : BlockMap blocksPerGroup}
    (small : blocksPerGroup * fs.groups.length ≤ 2 ^ 32) {as : List AllocAction}
    {s : AllocState blocksPerGroup} (run : RunWhen SparesLastBit allocExec ⟨fs, []⟩ as s) :
    AllocSafe s :=
  (run.invariant (I := AllocInv) (fun _ _ _ inv spares taken => inv.exec spares taken)
    ⟨small, by simp, by simp⟩).safe

def octet (bits : BitVec 32) (freeBlocksCount : UInt32) : BlockGroup 8 where
  bitmap := { Bitmap.create 8 1024 with words := [bits, 0], length_words := rfl }
  freeBlocksCount := freeBlocksCount
  dirty := false

/-- Two blocks are allocated, the first is released and allocated again. -/
theorem allocSafe_reuse : ∃ s, RunWhen SparesLastBit allocExec
    ⟨⟨10, [octet 0xf8 3, octet 0x01 7]⟩, []⟩ [.allocate 2, .release 1, .allocate 1] s ∧
    s.outstanding.map Held.block = [2, 1] ∧ AllocSafe s := by
  refine RunWhen.exists_and (f := fun s => s.outstanding.map Held.block) rfl fun s run blocks => ?_
  exact ⟨blocks, allocSafe_of_sparesLastBit (by decide) run⟩

/-- The last bit of group 0 and the first bit of group 1 are both handed out as block 8. -/
theorem not_allocSafe_last_bit : ∃ s, Run allocExec ⟨⟨8, [octet 0x7f 1, octet 0x00 7]⟩, []⟩
    [.allocate 1, .allocate 1] s ∧ ¬AllocSafe s := by
  refine RunWhen.exists_and (f := fun s => s.outstanding.map Held.block) (v := [8, 8]) rfl
    fun s _ blocks safe => ?_
  have distinct := safe.distinct
  simp [blocks] at distinct

end JeoKernel.Ext2
