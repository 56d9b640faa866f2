import JeoKernel.Lib.Pointwise
import JeoKernel.Ext2.BlockAlloc

/-!
# Inode allocation in ext2

`AllocateInode` takes the first clear bit of the first group that counts a free inode, and
`ReleaseInode` clears the bit of an inode number again.  Inode numbers start at 1.  The number of
directories of a group is kept next to them.

What all four allocation functions do to a bitmap is a sequence of assignments to its bits
(`Bitmap.Edited`).
-/

namespace JeoKernel.Ext2

open List JeoKernel.Pointwise

/-- The part of `ext2fs_group` that belongs to inodes, with the bitmap of the group. -/
structure InodeBits (inodesPerGroup : ℕ) where
  bitmap : Bitmap inodesPerGroup
  freeInodesCount : UInt32
  directoryCount : UInt32
  dirty : Bool
  deriving DecidableEq

/-- The state `AllocateInode` and `ReleaseInode` work on. -/
structure InodeMap (inodesPerGroup : ℕ) where
  unallocatedInodes : UInt32
  groups : List (InodeBits inodesPerGroup)
  deriving DecidableEq

variable {inodesPerGroup blocksPerGroup : ℕ}

def InodeBits.take (group : InodeBits inodesPerGroup) (index : ℕ) : InodeBits inodesPerGroup :=
  { group with
    bitmap := group.bitmap.set index true
    freeInodesCount := group.freeInodesCount - 1
    dirty := true }

/-- The loop of `AllocateInode` over the groups, from group `i` on, with the number of the inode. -/
def allocateInodeIn : ℕ → List (InodeBits inodesPerGroup) →
    Option (List (InodeBits inodesPerGroup) × ℕ)
  | _, [] => none
  | i, group :: groups =>
    let skip := (allocateInodeIn (i + 1) groups).map fun (gs, inodeNum) => (group :: gs, inodeNum)
    if group.freeInodesCount = 0 then skip
    else
      match group.bitmap.findFree with
      | 0 => skip
      | free + 1 =>
        some (group.take free :: groups, free + 1 + i * inodesPerGroup % 2 ^ 32)

/-- `AllocateInode` up to the call of `GetInode`: the number that it is called with, if any. -/
def allocateInode (fs : InodeMap inodesPerGroup) : InodeMap inodesPerGroup × Option ℕ :=
  if fs.unallocatedInodes = 0 then (fs, none)
  else
    match allocateInodeIn 0 fs.groups with
    | some (groups, inodeNum) => (⟨fs.unallocatedInodes - 1, groups⟩, some inodeNum)
    | none => (fs, none)

def InodeBits.put (group : InodeBits inodesPerGroup) (index : ℕ) : InodeBits inodesPerGroup :=
  { group with
    bitmap := group.bitmap.set index false
    freeInodesCount := group.freeInodesCount + 1
    dirty := true }

/-- `ReleaseInode`; its argument is a `uint32_t`. -/
def releaseInode (fs : InodeMap inodesPerGroup) (inodeNum : ℕ) :
    InodeMap inodesPerGroup × FilesystemStatus :=
  let inodeNum := inodeNum % 2 ^ 32
  if inodeNum = 0 then (fs, .invalidRequest)
  else
    match fs.groups[(inodeNum - 1) / inodesPerGroup]? with
    | none => (fs, .invalidRequest)
    | some group =>
      if group.bitmap.get ((inodeNum - 1) % inodesPerGroup) then
        (⟨fs.unallocatedInodes + 1, fs.groups.set ((inodeNum - 1) / inodesPerGroup)
          (group.put ((inodeNum - 1) % inodesPerGroup))⟩, .success)
      else (fs, .invalidRequest)

/-! ## Assignments to bits -/

/-- The second bitmap comes from the first one by assignments to bits below `n`. -/
inductive Bitmap.Edited {n : ℕ} (m : Bitmap n) : Bitmap n → Prop
  | refl : Edited m m
  | set {m' i} (value : Bool) : Edited m m' → i < n → Edited m (m'.set i value)

theorem Bitmap.Edited.trans {n : ℕ} {m m' m'' : Bitmap n} (h : m.Edited m') (h' : m'.Edited m'') :
    m.Edited m'' := by
  induction h' with
  | refl => exact h
  | set value _ inside ih => exact .set value ih inside

theorem Bitmap.edited_set {n : ℕ} (m : Bitmap n) {i : ℕ} (value : Bool) (inside : i < n) :
    m.Edited (m.set i value) := .set value .refl inside

/-! ### Blocks -/

theorem extend_edited (i requestedCount block : ℕ) (unallocated : UInt32)
    (group : BlockGroup blocksPerGroup) (count : ℕ) :
    group.bitmap.Edited (extend i requestedCount block unallocated group count).2.1.bitmap := by
  induction requestedCount generalizing block unallocated group count with
  | zero => exact .refl
  | succ requestedCount ih =>
    rw [extend]
    split_ifs with empty full
    · exact .refl
    · exact .refl
    · have inside : blockIndex i (block + 1) < blocksPerGroup := by
        unfold blockIndex
        split_ifs <;> omega
      exact (group.bitmap.edited_set true inside).trans (ih _ _ (group.take _) _)

theorem allocateFrom_edited {i requestedCount free : ℕ} {unallocated : UInt32}
    {group : BlockGroup blocksPerGroup} (found : group.bitmap.findFree = free + 1) :
    group.bitmap.Edited (allocateFrom i requestedCount unallocated group free).2.1.bitmap := by
  have first := group.bitmap.firstFree_findFree
  rw [found] at first
  have inside : blockIndex i (if i ≠ 0 then free else free + 1) < blocksPerGroup := by
    have := first.1
    unfold blockIndex
    split_ifs <;> omega
  exact (group.bitmap.edited_set true inside).trans (extend_edited i (requestedCount - 1) _ _
    { group.take (blockIndex i (if i ≠ 0 then free else free + 1)) with dirty := true } 1)

theorem allocateBlocks_edited (fs : BlockMap blocksPerGroup) (requestedCount : ℕ) :
    Forall₂ (fun g g' => g.bitmap.Edited g'.bitmap) fs.groups
      (allocateBlocks fs requestedCount).1.groups := by
  unfold allocateBlocks
  split_ifs with none empty
  · exact forall₂_same.mpr fun _ _ => .refl
  · exact forall₂_same.mpr fun _ _ => .refl
  · rcases allocateIn_cases requestedCount fs.unallocatedBlocks 0 fs.groups with
      ⟨missed, -⟩ | ⟨i, g, b, at_i, -, -, found, result⟩
    · rw [missed]
      exact forall₂_same.mpr fun _ _ => .refl
    · rw [result]
      exact forall₂_set (fun _ => .refl) at_i (allocateFrom_edited found)

theorem releaseBlock_edited (pos : 0 < blocksPerGroup) (fs : BlockMap blocksPerGroup) (blknum : ℕ) :
    Forall₂ (fun g g' => g.bitmap.Edited g'.bitmap) fs.groups (releaseBlock fs blknum).1.groups := by
  fun_cases releaseBlock fs blknum with
  | case3 blk _ _ group located =>
    refine forall₂_set (fun _ => .refl) located (group.bitmap.edited_set false ?_)
    have := Nat.mod_lt blk pos
    unfold blockIndex
    split_ifs <;> omega
  | _ => exact forall₂_same.mpr fun _ _ => .refl

/-! ### Inodes -/

def InodeBits.Full (g : InodeBits inodesPerGroup) : Prop :=
  g.freeInodesCount = 0 ∨ ∀ b < inodesPerGroup, g.bitmap.get b = true

theorem allocateInodeIn_cases (i : ℕ) (groups : List (InodeBits inodesPerGroup)) :
    (allocateInodeIn i groups = none ∧ ∀ g ∈ groups, g.Full) ∨
    ∃ k g b, groups[k]? = some g ∧ (∀ j < k, ∀ g', groups[j]? = some g' → g'.Full) ∧
      g.freeInodesCount ≠ 0 ∧ b < inodesPerGroup ∧ g.bitmap.get b = false ∧
      allocateInodeIn i groups =
        some (groups.set k (g.take b), b + 1 + (i + k) * inodesPerGroup % 2 ^ 32) := by
  induction groups generalizing i with
  | nil => exact .inl ⟨rfl, by simp⟩
  | cons group groups ih =>
    have first := group.bitmap.firstFree_findFree
    by_cases none : group.freeInodesCount = 0 ∨ group.bitmap.findFree = 0
    · have full : group.Full := none.imp id fun zero => by rwa [zero] at first
      have skipped : allocateInodeIn i (group :: groups) =
          (allocateInodeIn (i + 1) groups).map fun x => (group :: x.1, x.2) := by
        rw [allocateInodeIn]
        rcases none with zero | zero <;> simp [zero]
      rcases ih (i + 1) with ⟨none, all⟩ | ⟨k, g, b, at_k, before, counter, below, clear, result⟩
      · exact .inl ⟨by rw [skipped, none]; rfl, by simpa [full] using all⟩
      · refine .inr ⟨k + 1, g, b, at_k, fun j less g' at_j => ?_, counter, below, clear, ?_⟩
        · cases j with
          | zero => rwa [← Option.some.inj at_j]
          | succ j => exact before j (by omega) g' at_j
        · rw [skipped, result, Nat.add_right_comm i 1 k]
          rfl
    · obtain ⟨counter, some⟩ := not_or.mp none
      obtain ⟨b, found⟩ := Nat.exists_eq_succ_of_ne_zero some
      rw [found] at first
      refine .inr ⟨0, group, b, rfl, by simp, counter, first.1, first.2.1, ?_⟩
      rw [allocateInodeIn, if_neg counter, found]
      rfl

theorem allocateInode_edited (fs : InodeMap inodesPerGroup) :
    Forall₂ (fun g g' => g.bitmap.Edited g'.bitmap) fs.groups (allocateInode fs).1.groups := by
  unfold allocateInode
  split_ifs with empty
  · exact forall₂_same.mpr fun _ _ => .refl
  · rcases allocateInodeIn_cases 0 fs.groups with
      ⟨missed, -⟩ | ⟨i, g, b, at_i, -, -, below, -, result⟩
    · rw [missed]
      exact forall₂_same.mpr fun _ _ => .refl
    · rw [result]
      exact forall₂_set (fun _ => .refl) at_i (g.bitmap.edited_set true below)

theorem releaseInode_edited (pos : 0 < inodesPerGroup) (fs : InodeMap inodesPerGroup) (inodeNum : ℕ) :
    Forall₂ (fun g g' => g.bitmap.Edited g'.bitmap) fs.groups
      (releaseInode fs inodeNum).1.groups := by
  fun_cases releaseInode fs inodeNum with
  | case3 _ _ group located =>
    exact forall₂_set (fun _ => .refl) located (group.bitmap.edited_set false (Nat.mod_lt _ pos))
  | _ => exact forall₂_same.mpr fun _ _ => .refl

end JeoKernel.Ext2
