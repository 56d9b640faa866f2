import JeoKernel.Lib.FreeCount
import JeoKernel.Ext2.InodeAlloc

/-!
# The counters of free inodes, free blocks and directories

`CreateFile` and `CreateDirectory` take an inode (and a block) first and put them back where the rest
fails; `AllocToExtend` puts the blocks back that it got if it does not get all of them.  The answers
of the calls in between (`GetInode`, `Entries`, the reads and writes of the directory's file) come
from outside.
-/

namespace JeoKernel.Ext2

open List Function FreeCount InodeMap

variable {inodesPerGroup blocksPerGroup : ℕ}

/-! ## The operations -/

def inodeAt (inodesPerGroup inodeNum : ℕ) : ℕ × ℕ :=
  ((inodeNum - 1) / inodesPerGroup, (inodeNum - 1) % inodesPerGroup)

def InodeMap.bit (fs : InodeMap inodesPerGroup) (p : ℕ × ℕ) : Bool :=
  match fs.groups[p.1]? with
  | some group => group.bitmap.get p.2
  | none => false

def InodeBits.countDirectory (group : InodeBits inodesPerGroup) : InodeBits inodesPerGroup :=
  { group with directoryCount := group.directoryCount + 1, dirty := true }

/-- `IncrementDirCount`; its argument is a `uint32_t`. -/
def incrementDirCount (fs : InodeMap inodesPerGroup) (inodeNum : ℕ) : InodeMap inodesPerGroup :=
  { fs with
    groups := fs.groups.modify ((inodeNum + (2 ^ 32 - 1)) % 2 ^ 32 / inodesPerGroup)
      InodeBits.countDirectory }

/-- The loop of `AllocToExtend`: the blocks that it gets, and whether it gets all of them. -/
def takeEach (fs : BlockMap blocksPerGroup) : ℕ → BlockMap blocksPerGroup × List ℕ × Bool
  | 0 => (fs, [], true)
  | n + 1 =>
    let (fs, r) := allocateBlocks fs 1
    if r.status ≠ .success ∨ r.count ≠ 1 then (fs, [], false)
    else
      let (fs, blocks, all) := takeEach fs n
      (fs, r.block :: blocks, all)

/-- The file system: its bitmaps and counters, which inodes are directories, the inodes that an entry
names, and the bits of the blocks that an inode refers to. -/
structure CountState (inodesPerGroup blocksPerGroup : ℕ) where
  inodes : InodeMap inodesPerGroup
  blocks : BlockMap blocksPerGroup
  isDir : ℕ × ℕ → Bool
  linked : List ℕ
  owned : List (ℕ × ℕ)

/-- `AllocToExtend` for `n` blocks. -/
def CountState.extendFile (s : CountState inodesPerGroup blocksPerGroup) (n : ℕ) :
    CountState inodesPerGroup blocksPerGroup :=
  let (blocks, taken, all) := takeEach s.blocks n
  if all then { s with blocks, owned := s.owned ++ setBits s.blocks blocks }
  else { s with blocks := taken.foldl (fun fs blknum => (releaseBlock fs blknum).1) blocks }

/-- A write through the reader calls `AllocToExtend` for one page after the other. -/
def CountState.extendAll (s : CountState inodesPerGroup blocksPerGroup) (needs : List ℕ) :
    CountState inodesPerGroup blocksPerGroup :=
  needs.foldl CountState.extendFile s

def CountState.releaseInode (s : CountState inodesPerGroup blocksPerGroup) (inodeNum : ℕ) :
    CountState inodesPerGroup blocksPerGroup :=
  { s with inodes := (Ext2.releaseInode s.inodes inodeNum).1 }

/-- How the calls in `Create` turn out: `GetInode`, `Entries`, the search for the name, the read of
the last entry, the write that cuts it and the write of the new one (with the blocks that each of
them asks for), `CreateDirectoryEntry` and `LoadItem`. -/
structure Answers where
  inode : Bool
  entries : Bool
  fresh : Bool
  last : Bool
  cutNeeds : List ℕ
  cut : Bool
  entryNeeds : List ℕ
  written : Bool
  made : Bool
  loaded : Bool

/-- `Create`, with whether it reports `SUCCESS`. -/
def CountState.create (s : CountState inodesPerGroup blocksPerGroup) (directory : Bool) (a : Answers) :
    CountState inodesPerGroup blocksPerGroup × Bool :=
  match allocateInode s.inodes with
  | (inodes, none) => ({ s with inodes }, false)
  | (inodes, some inodeNum) =>
    let s := { s with inodes }
    -- `AllocateInode` does not give the inode back
    if !a.inode then (s, false)
    else if !a.entries || !a.fresh then (s.releaseInode inodeNum, false)
    else
      let s := { s with isDir := update s.isDir (inodeAt inodesPerGroup inodeNum) directory }
      if !a.last then (s.releaseInode inodeNum, false)
      else
        let s := s.extendAll a.cutNeeds
        if !a.cut then (s.releaseInode inodeNum, false)
        else
          let s := s.extendAll a.entryNeeds
          -- nor does `Create`, if the entry was not written
          if !a.written then (s, false)
          else ({ s with linked := inodeNum :: s.linked }, a.made)

/-- `CreateDirectory` in the directory with the inode `parent`. -/
def CountState.createDirectory (s : CountState inodesPerGroup blocksPerGroup) (parent : ℕ)
    (a : Answers) : CountState inodesPerGroup blocksPerGroup :=
  let (blocks, r) := allocateBlocks s.blocks 1
  if r.status ≠ .success then { s with blocks }
  else
    let (t, success) := { s with blocks }.create true a
    if !(success && a.loaded) then { t with blocks := (releaseBlock t.blocks r.block).1 }
    else
      { t with
        owned := t.owned ++ setBits s.blocks blocks
        inodes := incrementDirCount t.inodes parent }

inductive CountAction where
  | extendFile (n : ℕ)
  | createFile (a : Answers)
  | createDirectory (parent : ℕ) (a : Answers)

def countExec (s : CountState inodesPerGroup blocksPerGroup) :
    CountAction → Option (CountState inodesPerGroup blocksPerGroup)
  | .extendFile n => some (s.extendFile n)
  | .createFile a => some (s.create false a).1
  | .createDirectory parent a => some (s.createDirectory parent a)

/-! ## Counters that agree with the bitmaps -/

def InodeMap.Counted (fs : InodeMap inodesPerGroup) : Prop :=
  FreeCount inodesPerGroup (fun g => g.bitmap.get) InodeBits.freeInodesCount fs.unallocatedInodes
    fs.groups

def BlockMap.Counted (fs : BlockMap blocksPerGroup) : Prop :=
  FreeCount blocksPerGroup (fun g => g.bitmap.get) BlockGroup.freeBlocksCount fs.unallocatedBlocks
    fs.groups

/-- The directories of group `i`, apart from one inode that is being made. -/
def CountState.directories (s : CountState inodesPerGroup blocksPerGroup) (hole : Option (ℕ × ℕ))
    (i : ℕ) : Finset ℕ :=
  (Finset.range inodesPerGroup).filter fun b =>
    s.inodes.bit (i, b) = true ∧ s.isDir (i, b) = true ∧ some (i, b) ≠ hole

def inodeNumber (inodesPerGroup : ℕ) (p : ℕ × ℕ) : ℕ := p.2 + 1 + p.1 * inodesPerGroup

/-- The counters agree with the bitmaps, and what is marked used is referred to. -/
structure CountState.Sound (s : CountState inodesPerGroup blocksPerGroup) : Prop where
  inodes : s.inodes.Counted
  blocks : s.blocks.Counted
  directories : ∀ (i : ℕ) g, s.inodes.groups[i]? = some g →
    g.directoryCount.toNat = (s.directories none i).card
  linked : ∀ p, s.inodes.bit p = true → p.2 < inodesPerGroup → inodeNumber inodesPerGroup p ∈ s.linked
  owned : ∀ p, s.blocks.bit p = true → p.2 < blocksPerGroup → p ∈ s.owned

/-! ## Steps that keep them -/

/-- `n` calls of `AllocateBlocks` do not take the last bit of group 0. -/
def BlockMap.Spares (fs : BlockMap blocksPerGroup) (n : ℕ) : Prop :=
  fs.bit (0, blocksPerGroup - 1) = true ∨ n < clearCount blocksPerGroup fun b => fs.bit (0, b)

def Answers.needs (a : Answers) : ℕ := a.cutNeeds.sum + a.entryNeeds.sum

/-- `Create` comes to the write of the entry. -/
def Answers.Reaches (a : Answers) : Prop := a.entries ∧ a.fresh ∧ a.last ∧ a.cut

/-- Group `i` is the first one that counts a free inode. -/
def InodeMap.FirstFree (fs : InodeMap inodesPerGroup) (i : ℕ) : Prop :=
  (∀ j < i, ∀ g, fs.groups[j]? = some g → g.freeInodesCount = 0) ∧
    ∃ g, fs.groups[i]? = some g ∧ g.freeInodesCount ≠ 0

/-- An inode that was taken is loaded, and its entry is written.  The entry of a new directory is
loaded, and the directory comes into the group of its parent.  Where blocks are put back, the last
bit of group 0 is not among them. -/
def CountState.Careful (s : CountState inodesPerGroup blocksPerGroup) : CountAction → Prop
  | .extendFile n => s.blocks.Spares n ∨ n ≤ s.blocks.unallocatedBlocks.toNat
  | .createFile a => a.inode ∧ a.written ∧
      (s.blocks.Spares a.needs ∨ a.needs ≤ s.blocks.unallocatedBlocks.toNat)
  | .createDirectory parent a => a.inode ∧ a.written ∧ a.made ∧ a.loaded ∧
      (s.blocks.Spares (a.needs + 1) ∨ a.needs + 1 ≤ s.blocks.unallocatedBlocks.toNat ∧ a.Reaches ∧
        s.inodes.unallocatedInodes ≠ 0) ∧
      (a.Reaches → s.inodes.unallocatedInodes ≠ 0 →
        s.inodes.FirstFree ((parent + (2 ^ 32 - 1)) % 2 ^ 32 / inodesPerGroup))

/-! ## One block -/

/-- `AllocateBlocks(1)` finds no block, or takes the first clear bit of the first group that has
one. -/
theorem allocateBlocks_one (fs : BlockMap blocksPerGroup) :
    (allocateBlocks fs 1 = (fs, ⟨0, 0, .noAvailBlocks⟩) ∧
      (fs.unallocatedBlocks = 0 ∨ ∀ g ∈ fs.groups, g.Full)) ∨
    ∃ i g b, fs.groups[i]? = some g ∧ (∀ j < i, ∀ g', fs.groups[j]? = some g' → g'.Full) ∧
      b < blocksPerGroup ∧ g.bitmap.get b = false ∧ (∀ c < b, g.bitmap.get c = true) ∧
      allocateBlocks fs 1 = (⟨fs.unallocatedBlocks - 1,
        fs.groups.set i { g.take b with dirty := true }⟩,
        ⟨blocksPerGroup * i % 2 ^ 32 + if i ≠ 0 then b else b + 1, 1, .success⟩) := by
  unfold allocateBlocks
  rw [if_neg one_ne_zero]
  by_cases empty : fs.unallocatedBlocks = 0
  · exact .inl ⟨by rw [if_pos empty], .inl empty⟩
  · rw [if_neg empty]
    rcases allocateIn_cases 1 fs.unallocatedBlocks 0 fs.groups with
      ⟨none, all⟩ | ⟨i, g, b, at_i, before, -, found, result⟩
    · exact .inl ⟨by rw [none], .inr all⟩
    · have first := g.bitmap.firstFree_findFree
      rw [found] at first
      obtain ⟨below, clear, lower⟩ := first
      have index : blockIndex i (if i ≠ 0 then b else b + 1) = b := by
        unfold blockIndex
        split_ifs <;> omega
      refine .inr ⟨i, g, b, at_i, before, below, clear, lower, ?_⟩
      simp only [result, zero_add, allocateFrom, Nat.sub_self, extend, index]

def BlockMap.Inside (fs : BlockMap blocksPerGroup) (p : ℕ × ℕ) : Prop :=
  p.1 < fs.groups.length ∧ p.2 < blocksPerGroup

variable {p : ℕ × ℕ} {fs : BlockMap blocksPerGroup}

theorem BlockMap.inside_of_bit (set : fs.bit p = true) (below : p.2 < blocksPerGroup) :
    fs.Inside p := by
  refine ⟨?_, below⟩
  by_contra behind
  rw [BlockMap.bit, getElem?_eq_none (not_lt.mp behind)] at set
  exact absurd set (by simp)

variable {fs fs' : BlockMap blocksPerGroup}

theorem BlockMap.mem_setBits :
    p ∈ setBits fs fs' ↔ fs.Inside p ∧ fs.bit p = false ∧ fs'.bit p = true := by
  obtain ⟨i, b⟩ := p
  simp [setBits, BlockMap.Inside, and_assoc]

variable {m n : ℕ}

theorem BlockMap.Spares.mono (spares : fs.Spares n) (le : m ≤ n) :
    fs.Spares m := spares.imp id le.trans_lt

theorem BlockMap.Spares.congr (spares : fs.Spares n) (same : ∀ q, fs'.bit q = fs.bit q) :
    fs'.Spares n := by
  unfold BlockMap.Spares at spares ⊢
  simpa only [same] using spares

structure BlockMap.Took (fs fs' : BlockMap blocksPerGroup) (p : ℕ × ℕ) : Prop where
  inside : fs.Inside p
  clear : fs.bit p = false
  bits : ∀ q, fs'.bit q = if q = p then true else fs.bit q
  counted : fs'.Counted
  length : fs'.groups.length = fs.groups.length
  total : fs'.unallocatedBlocks.toNat + 1 = fs.unallocatedBlocks.toNat
  spares : ∀ n, fs.Spares (n + 1) → p ≠ (0, blocksPerGroup - 1) ∧ fs'.Spares n

variable {i : ℕ}

section Blocks

variable {fs : BlockMap blocksPerGroup}

section

variable (counted : fs.Counted)

include counted

theorem BlockMap.Counted.exists_not_full (free : fs.unallocatedBlocks ≠ 0) :
    ∃ g ∈ fs.groups, ¬g.Full := by
  obtain ⟨g, mem, counts⟩ := exists_free counted free
  obtain ⟨b, below, clear⟩ := exists_clear counted mem counts
  refine ⟨g, mem, ?_⟩
  rintro (zero | all)
  · exact counts zero
  · exact absurd (all b below) (by rw [clear]; simp)

theorem BlockMap.Counted.took {b : ℕ} {g : BlockGroup blocksPerGroup}
    (at_i : fs.groups[i]? = some g) (before : ∀ j < i, ∀ g', fs.groups[j]? = some g' → g'.Full)
    (below : b < blocksPerGroup) (clear : g.bitmap.get b = false)
    (lower : ∀ c < b, g.bitmap.get c = true) :
    fs.Took ⟨fs.unallocatedBlocks - 1, fs.groups.set i { g.take b with dirty := true }⟩ (i, b) := by
  set fs' : BlockMap blocksPerGroup :=
    ⟨fs.unallocatedBlocks - 1, fs.groups.set i { g.take b with dirty := true }⟩ with made
  have inside := (List.getElem?_eq_some_iff.mp at_i).1
  have old (c : ℕ) : fs.bit (i, c) = g.bitmap.get c := by rw [BlockMap.bit, at_i]
  have get (c : ℕ) : ({ g.take b with dirty := true } : BlockGroup blocksPerGroup).bitmap.get c =
      if b = c then true else g.bitmap.get c := g.bitmap.get_set below true c
  have bits (q : ℕ × ℕ) : fs'.bit q = if q = (i, b) then true else fs.bit q := bit_put at_i get q
  have positive : 0 < fs.unallocatedBlocks.toNat := by
    have := le_sum_map
      (fun g : BlockGroup blocksPerGroup => clearCount blocksPerGroup g.bitmap.get)
      (mem_of_getElem? at_i)
    rw [counted.total]
    exact (clearCount_pos_iff.mpr ⟨b, below, clear⟩).trans_le this
  refine ⟨⟨inside, below⟩, by rw [old, clear], bits,
    take counted at_i below clear get rfl, length_set,
    by rw [toNat_sub_one positive]; omega, ?_⟩
  rintro n (last | more)
  · have other : (i, b) ≠ (0, blocksPerGroup - 1) := by
      rintro same
      rw [← same, old, clear] at last
      exact absurd last (by simp)
    exact ⟨other, .inl (by rw [bits, if_neg other.symm, last])⟩
  · -- group 0 has two clear bits, so it is the first one that is not full
    have zero : i = 0 := by
      by_contra later
      obtain ⟨g₀, at_zero⟩ : ∃ g₀, fs.groups[0]? = some g₀ :=
        ⟨_, getElem?_eq_getElem (by omega)⟩
      have view : (fun c => fs.bit (0, c)) = g₀.bitmap.get := by
        funext c
        rw [BlockMap.bit, at_zero]
      rw [view] at more
      rcases before 0 (Nat.pos_of_ne_zero later) g₀ at_zero with none | all
      · have := counted.free g₀ (mem_of_getElem? at_zero)
        rw [none] at this
        simp at this
        omega
      · obtain ⟨c, inside, clear⟩ := clearCount_pos_iff.mp (Nat.zero_lt_of_lt more)
        exact absurd (all c inside) (by rw [clear]; simp)
    subst zero
    have fewer : (clearCount blocksPerGroup fun c => fs.bit (0, c)) =
        (clearCount blocksPerGroup fun c => fs'.bit (0, c)) + 1 := by
      refine clearCount_take below (by rw [old, clear]) fun c => ?_
      rw [bits]
      simp only [Prod.mk.injEq, true_and, eq_comm]
    refine ⟨fun last => ?_, .inr (by omega)⟩
    have none : ¬0 < clearCount blocksPerGroup fun c => fs'.bit (0, c) := by
      rw [clearCount_pos_iff]
      rintro ⟨c, inside, clear⟩
      rw [bits] at clear
      split_ifs at clear with here
      have : b = blocksPerGroup - 1 := (Prod.mk.inj last).2
      have : c ≠ b := fun same => here (by rw [same])
      rw [old, lower c (by omega)] at clear
      exact absurd clear (by simp)
    omega

section

variable (small : blocksPerGroup * fs.groups.length < 2 ^ 32)

include small

theorem BlockMap.Counted.allocate :
    (allocateBlocks fs 1 = (fs, ⟨0, 0, .noAvailBlocks⟩) ∧ fs.unallocatedBlocks = 0) ∨
    ∃ fs' p, allocateBlocks fs 1 = (fs', ⟨number blocksPerGroup p, 1, .success⟩) ∧ fs.Took fs' p := by
  rcases allocateBlocks_one fs with ⟨result, empty⟩ | ⟨i, g, b, at_i, before, below, clear, lower, result⟩
  · refine .inl ⟨result, ?_⟩
    rcases empty with zero | all
    · exact zero
    · by_contra free
      obtain ⟨g, mem, not_full⟩ := counted.exists_not_full free
      exact not_full (all g mem)
  · have inside := (List.getElem?_eq_some_iff.mp at_i).1
    have bound : blocksPerGroup * i < 2 ^ 32 :=
      lt_of_le_of_lt (Nat.mul_le_mul_left _ inside.le) small
    rw [Nat.mod_eq_of_lt bound] at result
    exact .inr ⟨_, (i, b), result, counted.took at_i before below clear lower⟩

theorem takeEach_spec (n : ℕ) :
    ∃ (fs' : BlockMap blocksPerGroup) (ps : List (ℕ × ℕ)) (all : Bool),
      takeEach fs n = (fs', ps.map (number blocksPerGroup), all) ∧ fs'.Counted ∧
      fs'.groups.length = fs.groups.length ∧ ps.Nodup ∧
      (∀ p ∈ ps, fs.Inside p ∧ fs.bit p = false) ∧
      (∀ q, fs'.bit q = (fs.bit q || decide (q ∈ ps))) ∧
      (∀ m, fs.Spares (n + m) → (∀ p ∈ ps, p ≠ (0, blocksPerGroup - 1)) ∧ fs'.Spares m) ∧
      (n ≤ fs.unallocatedBlocks.toNat →
        all = true ∧ fs'.unallocatedBlocks.toNat + n = fs.unallocatedBlocks.toNat) := by
  induction n generalizing fs with
  | zero =>
    exact ⟨fs, [], true, rfl, counted, rfl, .nil, by simp, by simp,
      fun m spares => ⟨by simp, by simpa using spares⟩, by simp⟩
  | succ n ih =>
    rcases counted.allocate small with ⟨result, empty⟩ | ⟨fs₁, p, result, took⟩
    · refine ⟨fs, [], false, by simp [takeEach, result], counted, rfl, .nil, by simp, by simp,
        fun m spares => ⟨by simp, spares.mono (by omega)⟩, fun enough => ?_⟩
      rw [empty] at enough
      simp at enough
    · obtain ⟨fs', ps, all, rest, counted', length, nodup, fresh, bits, spares, enough⟩ :=
        ih took.counted (by rw [took.length]; exact small)
      have other : p ∉ ps := by
        intro mem
        have := (fresh p mem).2
        rw [took.bits, if_pos rfl] at this
        exact absurd this (by simp)
      refine ⟨fs', p :: ps, all, ?_, counted', length.trans took.length,
        nodup_cons.mpr ⟨other, nodup⟩, ?_, ?_, ?_, ?_⟩
      · simp only [takeEach, result, rest]
        rfl
      · intro q mem
        rcases mem_cons.mp mem with rfl | later
        · exact ⟨took.inside, took.clear⟩
        · obtain ⟨inside, clear⟩ := fresh q later
          rw [BlockMap.Inside, took.length] at inside
          rw [took.bits, if_neg (fun same : q = p => other (same ▸ later))] at clear
          exact ⟨inside, clear⟩
      · intro q
        rw [bits, took.bits]
        by_cases here : q = p
        · simp [here]
        · simp [here]
      · intro m spare
        obtain ⟨not_last, spare⟩ := took.spares (n + m) (spare.mono (by omega))
        obtain ⟨not_last', spare⟩ := spares m spare
        refine ⟨fun q mem => ?_, spare⟩
        rcases mem_cons.mp mem with rfl | mem
        · exact not_last
        · exact not_last' q mem
      · intro le
        have := took.total
        obtain ⟨all, total⟩ := enough (by omega)
        exact ⟨all, by omega⟩

theorem BlockMap.Counted.release {ps : List (ℕ × ℕ)} (nodup : ps.Nodup)
    (fit : ∀ p ∈ ps, Fits fs p ∧ fs.bit p = true) :
    let fs' := (ps.map (number blocksPerGroup)).foldl (fun fs blknum => (releaseBlock fs blknum).1) fs
    fs'.Counted ∧ fs'.groups.length = fs.groups.length ∧
      ∀ q, fs'.bit q = (fs.bit q && !decide (q ∈ ps)) := by
  induction ps generalizing fs with
  | nil => exact ⟨counted, rfl, by simp⟩
  | cons p ps ih =>
    obtain ⟨fits, set⟩ := fit p mem_cons_self
    obtain ⟨other, nodup⟩ := nodup_cons.mp nodup
    obtain ⟨g, at_group, result⟩ := fits.release small.le
    have bits := fits.bit_release small.le
    have old : g.bitmap.get p.2 = true := by rw [← set, BlockMap.bit, at_group]
    rw [result] at bits
    have counted₁ : BlockMap.Counted ⟨fs.unallocatedBlocks + 1, fs.groups.set p.1 (g.put p.2)⟩ :=
      put counted (by rw [mul_comm]; exact small) at_group fits.bit old
        (fun j => g.bitmap.get_set fits.bit false j) rfl
    have length : (fs.groups.set p.1 (g.put p.2)).length = fs.groups.length := length_set
    obtain ⟨counted', length', bits'⟩ := ih counted₁ (by rw [length]; exact small) nodup
      fun q mem => by
        obtain ⟨fits', set'⟩ := fit q (mem_cons_of_mem p mem)
        refine ⟨⟨by rw [length]; exact fits'.group, fits'.bit, fits'.last⟩, ?_⟩
        rw [bits, if_neg (by rintro rfl; exact other mem), set']
    simp only [map_cons, foldl_cons, result]
    refine ⟨counted', length'.trans length, fun q => ?_⟩
    rw [bits', bits]
    by_cases here : q = p
    · simp [here]
    · simp [here]

end

end

end Blocks

/-! ## One inode -/

theorem InodeMap.bit_set {u u' : UInt32} {groups : List (InodeBits inodesPerGroup)}
    {g g' : InodeBits inodesPerGroup} (at_i : groups[i]? = some g) {b : ℕ} {value : Bool}
    (get : ∀ c, g'.bitmap.get c = if b = c then value else g.bitmap.get c) (q : ℕ × ℕ) :
    InodeMap.bit ⟨u', groups.set i g'⟩ q = if q = (i, b) then value else InodeMap.bit ⟨u, groups⟩ q := by
  obtain ⟨j, c⟩ := q
  have inside := (List.getElem?_eq_some_iff.mp at_i).1
  simp only [bit, List.getElem?_set, inside, if_true, Prod.mk.injEq]
  by_cases group : i = j
  · subst group
    simp only [if_true, true_and, get, at_i, eq_comm]
  · rw [if_neg group, if_neg (fun h => group h.1.symm)]

structure InodeMap.Took (fs fs' : InodeMap inodesPerGroup) (g : InodeBits inodesPerGroup)
    (p : ℕ × ℕ) : Prop where
  at_group : fs.groups[p.1]? = some g
  before : ∀ j < p.1, ∀ g', fs.groups[j]? = some g' → g'.Full
  counts : g.freeInodesCount ≠ 0
  below : p.2 < inodesPerGroup
  clear : fs.bit p = false
  bits : ∀ q, fs'.bit q = if q = p then true else fs.bit q
  counted : fs'.Counted
  groups : fs'.groups = fs.groups.set p.1 (g.take p.2)

section Inodes

variable {fs : InodeMap inodesPerGroup}

theorem inodeNumber_lt (small : fs.groups.length * inodesPerGroup < 2 ^ 32)
    (group : p.1 < fs.groups.length) (below : p.2 < inodesPerGroup) :
    p.1 * inodesPerGroup < 2 ^ 32 ∧ inodeNumber inodesPerGroup p < 2 ^ 32 := by
  have : (p.1 + 1) * inodesPerGroup ≤ fs.groups.length * inodesPerGroup :=
    Nat.mul_le_mul_right _ group
  rw [Nat.succ_mul] at this
  unfold inodeNumber
  omega

theorem inodeAt_inodeNumber (below : p.2 < inodesPerGroup) :
    inodeAt inodesPerGroup (inodeNumber inodesPerGroup p) = p := by
  unfold inodeAt inodeNumber
  rw [show p.2 + 1 + p.1 * inodesPerGroup - 1 = p.1 * inodesPerGroup + p.2 by omega]
  refine Prod.ext ?_ ?_
  · exact (Nat.div_eq_of_lt_le (by omega) (by rw [Nat.succ_mul]; omega))
  · rw [mul_comm, Nat.mul_add_mod, Nat.mod_eq_of_lt below]

/-- `AllocateInode` on counted groups, up to the call of `GetInode`. -/
theorem InodeMap.Counted.allocate (counted : fs.Counted)
    (small : fs.groups.length * inodesPerGroup < 2 ^ 32) :
    (allocateInode fs = (fs, none) ∧ fs.unallocatedInodes = 0) ∨
    ∃ fs' g p, allocateInode fs = (fs', some (inodeNumber inodesPerGroup p)) ∧ fs.Took fs' g p ∧
      fs.unallocatedInodes ≠ 0 := by
  unfold allocateInode
  by_cases empty : fs.unallocatedInodes = 0
  · exact .inl ⟨by rw [if_pos empty], empty⟩
  rw [if_neg empty]
  rcases allocateInodeIn_cases 0 fs.groups with
    ⟨-, all⟩ | ⟨i, g, b, at_i, before, counts, below, clear, result⟩
  · obtain ⟨g, mem, counts⟩ := exists_free counted empty
    obtain ⟨b, below, clear⟩ := exists_clear counted mem counts
    rcases all g mem with zero | full
    · exact absurd zero counts
    · exact absurd (full b below) (by rw [clear]; simp)
  · have bound := (inodeNumber_lt small (p := (i, b)) (List.getElem?_eq_some_iff.mp at_i).1 below).1
    rw [result, zero_add, Nat.mod_eq_of_lt bound]
    have get := g.bitmap.get_set below true
    refine .inr ⟨_, g, (i, b), rfl, ⟨at_i, before, counts, below, ?_, ?_, ?_, rfl⟩, empty⟩
    · rw [bit, at_i]
      exact clear
    · exact bit_set at_i get
    · exact take counted at_i below clear get rfl

theorem InodeMap.Counted.release (counted : fs.Counted)
    (small : fs.groups.length * inodesPerGroup < 2 ^ 32) (below : p.2 < inodesPerGroup)
    (set : fs.bit p = true) :
    ∃ fs' g, fs.groups[p.1]? = some g ∧
      (Ext2.releaseInode fs (inodeNumber inodesPerGroup p)).1 = fs' ∧ fs'.Counted ∧
      fs'.groups = fs.groups.set p.1 (g.put p.2) ∧
      ∀ q, fs'.bit q = if q = p then false else fs.bit q := by
  obtain ⟨g, at_group⟩ : ∃ g, fs.groups[p.1]? = some g := by
    cases located : fs.groups[p.1]? with
    | none => simp [bit, located] at set
    | some g => exact ⟨g, rfl⟩
  have old : g.bitmap.get p.2 = true := by rw [← set, bit, at_group]
  have bound := (inodeNumber_lt small (List.getElem?_eq_some_iff.mp at_group).1 below).2
  have place := inodeAt_inodeNumber below
  have get := g.bitmap.get_set below false
  refine ⟨⟨fs.unallocatedInodes + 1, fs.groups.set p.1 (g.put p.2)⟩, g, at_group, ?_, ?_, rfl, ?_⟩
  · unfold Ext2.releaseInode
    rw [Nat.mod_eq_of_lt bound, if_neg (by unfold inodeNumber; omega)]
    have group : (inodeNumber inodesPerGroup p - 1) / inodesPerGroup = p.1 := congrArg Prod.fst place
    have bit : (inodeNumber inodesPerGroup p - 1) % inodesPerGroup = p.2 := congrArg Prod.snd place
    simp only [group, bit, at_group, old, if_true]
  · exact put counted small at_group below old get rfl
  · exact bit_set at_group get

end Inodes

variable {g : InodeBits inodesPerGroup}

/-- The first group that counts a free inode is the one that the inode comes from. -/
theorem InodeMap.Took.group_eq {fs fs' : InodeMap inodesPerGroup} (took : fs.Took fs' g p)
    (counted : fs.Counted) (first : fs.FirstFree i) : i = p.1 := by
  obtain ⟨before, g', at_i, counts⟩ := first
  rcases Nat.lt_trichotomy i p.1 with less | same | less
  · obtain ⟨b, below, clear⟩ := exists_clear counted (mem_of_getElem? at_i) counts
    rcases took.before i less g' at_i with zero | full
    · exact absurd zero counts
    · exact absurd (full b below) (by rw [clear]; simp)
  · exact same
  · exact absurd (before p.1 less g took.at_group) took.counts

/-! ## In the middle of an operation -/

/-- `Sound`, apart from an inode that is being made and a block that is held. -/
structure CountState.Open (s : CountState inodesPerGroup blocksPerGroup) (hole : Option (ℕ × ℕ))
    (held : List (ℕ × ℕ)) : Prop where
  smallInodes : s.inodes.groups.length * inodesPerGroup < 2 ^ 32
  smallBlocks : blocksPerGroup * s.blocks.groups.length < 2 ^ 32
  inodes : s.inodes.Counted
  blocks : s.blocks.Counted
  directories : ∀ (i : ℕ) g, s.inodes.groups[i]? = some g →
    g.directoryCount.toNat = (s.directories hole i).card
  linked : ∀ p, s.inodes.bit p = true → p.2 < inodesPerGroup → some p ≠ hole →
    inodeNumber inodesPerGroup p ∈ s.linked
  owned : ∀ p, s.blocks.bit p = true → p.2 < blocksPerGroup → p ∉ held → p ∈ s.owned
  hole : ∀ p, hole = some p → s.inodes.bit p = true ∧ p.2 < inodesPerGroup

namespace CountState

variable {s t : CountState inodesPerGroup blocksPerGroup} {hole : Option (ℕ × ℕ)}
  {held : List (ℕ × ℕ)} {p : ℕ × ℕ}

theorem Sound.open (sound : s.Sound) (smallInodes : s.inodes.groups.length * inodesPerGroup < 2 ^ 32)
    (smallBlocks : blocksPerGroup * s.blocks.groups.length < 2 ^ 32) : s.Open none [] :=
  ⟨smallInodes, smallBlocks, sound.inodes, sound.blocks, sound.directories,
    fun p set below _ => sound.linked p set below, fun p set below _ => sound.owned p set below,
    by simp⟩

theorem Open.sound (h : s.Open none []) : s.Sound where
  __ := h
  linked p set below := h.linked p set below (by simp)
  owned p set below := h.owned p set below (by simp)

theorem Open.set_blocks (h : s.Open hole held) {blocks : BlockMap blocksPerGroup}
    {owned held' : List (ℕ × ℕ)} (counted : blocks.Counted)
    (length : blocks.groups.length = s.blocks.groups.length)
    (refers : ∀ p, blocks.bit p = true → p.2 < blocksPerGroup → p ∉ held' → p ∈ owned) :
    Open { s with blocks, owned } hole held' :=
  ⟨h.smallInodes, by rw [length]; exact h.smallBlocks, h.inodes, counted, h.directories, h.linked,
    refers, h.hole⟩

/-- The blocks that are left after a write suffice for the next ones. -/
def Suffices (s : CountState inodesPerGroup blocksPerGroup) (n : ℕ) : Prop :=
  s.blocks.Spares n ∨ n ≤ s.blocks.unallocatedBlocks.toNat

/-- What a write to a file leaves as it is. -/
structure Frame (s t : CountState inodesPerGroup blocksPerGroup) : Prop where
  inodes : t.inodes = s.inodes
  isDir : t.isDir = s.isDir
  linked : t.linked = s.linked
  bits : ∀ q, s.blocks.bit q = true → t.blocks.bit q = true
  length : t.blocks.groups.length = s.blocks.groups.length

theorem Frame.refl (s : CountState inodesPerGroup blocksPerGroup) : Frame s s :=
  ⟨rfl, rfl, rfl, fun _ h => h, rfl⟩

theorem Frame.trans {u : CountState inodesPerGroup blocksPerGroup} (first : Frame s t)
    (second : Frame t u) : Frame s u :=
  ⟨second.inodes.trans first.inodes, second.isDir.trans first.isDir,
    second.linked.trans first.linked, fun q h => second.bits q (first.bits q h),
    second.length.trans first.length⟩

theorem Open.extendFile (h : s.Open hole held) (suffices_ : s.Suffices (n + m)) :
    (s.extendFile n).Open hole held ∧ (s.extendFile n).Suffices m ∧ Frame s (s.extendFile n) := by
  obtain ⟨blocks, ps, all, result, counted, length, nodup, fresh, bits, spares, enough⟩ :=
    takeEach_spec h.blocks h.smallBlocks n
  cases all with
  | true =>
    have extended : s.extendFile n =
        { s with blocks := blocks, owned := s.owned ++ setBits s.blocks blocks } := by
      simp only [CountState.extendFile, result, if_true]
    rw [extended]
    refine ⟨h.set_blocks counted length fun q set below free => ?_, ?_, rfl, rfl, rfl, ?_, length⟩
    · by_cases before : s.blocks.bit q = true
      · exact mem_append_left _ (h.owned q before below free)
      · have before := Bool.not_eq_true _ ▸ before
        refine mem_append_right _ (BlockMap.mem_setBits.mpr ⟨?_, before, set⟩)
        rw [BlockMap.Inside, ← length]
        exact BlockMap.inside_of_bit set below
    · rcases suffices_ with spare | more
      · exact .inl (spares m spare).2
      · exact .inr (by dsimp only; omega)
    · intro q set
      exact (bits q).trans (by rw [set, Bool.true_or])
  | false =>
    -- all the blocks that were taken go back
    have undone : s.extendFile n = { s with blocks :=
        (ps.map (number blocksPerGroup)).foldl (fun fs blknum => (releaseBlock fs blknum).1) blocks } := by
      simp [CountState.extendFile, result]
    rw [undone]
    rcases suffices_ with spare | more
    · have fit : ∀ p ∈ ps, Fits blocks p ∧ blocks.bit p = true := by
        intro p mem
        obtain ⟨⟨group, below⟩, -⟩ := fresh p mem
        refine ⟨⟨by rw [length]; exact group, below, fun zero => ?_⟩, by rw [bits]; simp [mem]⟩
        have := (spares m spare).1 p mem
        have : p.2 ≠ blocksPerGroup - 1 := fun same => this (Prod.ext zero same)
        omega
      obtain ⟨counted', length', bits'⟩ :=
        counted.release (by rw [length]; exact h.smallBlocks) nodup fit
      have same : ∀ q, _ = s.blocks.bit q := fun q => (bits' q).trans (by
        rw [bits]
        by_cases mem : q ∈ ps
        · simp [mem, (fresh q mem).2]
        · simp [mem])
      refine ⟨h.set_blocks counted' (length'.trans length) fun q set below free => ?_,
        .inl ((spare.mono (by omega)).congr same), rfl, rfl, rfl, fun q set => ?_,
        length'.trans length⟩
      · rw [same] at set
        exact h.owned q set below free
      · exact (same q).trans set
    · exact absurd (enough (by omega)).1 (by simp)

theorem Open.extendAll (needs : List ℕ) (h : s.Open hole held)
    (suffices_ : s.Suffices (needs.sum + m)) :
    (s.extendAll needs).Open hole held ∧ (s.extendAll needs).Suffices m ∧
      Frame s (s.extendAll needs) := by
  induction needs generalizing s with
  | nil =>
    rw [sum_nil, zero_add] at suffices_
    exact ⟨h, suffices_, .refl s⟩
  | cons n needs ih =>
    rw [sum_cons, add_assoc] at suffices_
    obtain ⟨h₁, suffices₁, frame₁⟩ := h.extendFile suffices_
    obtain ⟨h₂, suffices₂, frame₂⟩ := ih h₁ suffices₁
    exact ⟨h₂, suffices₂, frame₁.trans frame₂⟩

/-- The directories do not change with the bit of the inode that is being made. -/
theorem directories_congr
    (bits : ∀ b, some (i, b) ≠ hole → t.inodes.bit (i, b) = s.inodes.bit (i, b))
    (isDir : ∀ b, some (i, b) ≠ hole → t.isDir (i, b) = s.isDir (i, b)) :
    t.directories hole i = s.directories hole i := by
  refine Finset.filter_congr fun b _ => ?_
  by_cases other : some (i, b) ≠ hole
  · rw [bits b other, isDir b other]
  · simp [other]

variable {inodes : InodeMap inodesPerGroup}

theorem Open.take_inode (h : s.Open none held) (took : s.inodes.Took inodes g p) :
    Open { s with inodes } (some p) held where
  smallInodes := by
    rw [took.groups, length_set]
    exact h.smallInodes
  __ := h
  inodes := took.counted
  directories i g' at_i := by
    have same : CountState.directories { s with inodes } (some p) i = s.directories none i := by
      refine Finset.filter_congr fun b _ => ?_
      rw [took.bits]
      by_cases here : (i, b) = p
      · simp [here, took.clear]
      · simp [here]
    rw [same]
    rw [took.groups, List.getElem?_set] at at_i
    split_ifs at at_i with here inside
    · cases at_i
      exact h.directories i g (here ▸ took.at_group)
    · exact h.directories i g' at_i
  linked q set below other := by
    rw [took.bits, if_neg (fun same => other (congrArg some same))] at set
    exact h.linked q set below (by simp)
  hole q same := by
    cases same
    exact ⟨(took.bits p).trans (if_pos rfl), took.below⟩

section

variable (h : s.Open (some p) held)

include h

theorem Open.set_type (directory : Bool) :
    Open { s with isDir := update s.isDir p directory } (some p) held where
  __ := h
  directories i g at_i := by
    rw [h.directories i g at_i]
    refine congrArg Finset.card (directories_congr (fun _ _ => rfl) fun b other => ?_)
    exact (update_of_ne (fun same => other (congrArg some same)) _ _).symm

theorem Open.release_inode : (s.releaseInode (inodeNumber inodesPerGroup p)).Open none held := by
  obtain ⟨set, below⟩ := h.hole p rfl
  obtain ⟨inodes, g, at_group, result, counted, groups, bits⟩ :=
    h.inodes.release h.smallInodes below set
  unfold CountState.releaseInode
  rw [result]
  refine ⟨?_, h.smallBlocks, counted, h.blocks, fun i g' at_i => ?_, fun q used inside _ => ?_, h.owned,
    by simp⟩
  · rw [groups, length_set]
    exact h.smallInodes
  · have same : CountState.directories { s with inodes } none i = s.directories (some p) i := by
      refine Finset.filter_congr fun b _ => ?_
      rw [bits]
      by_cases here : (i, b) = p
      · simp [here]
      · simp [here]
    rw [same]
    rw [groups, List.getElem?_set] at at_i
    split_ifs at at_i with here inside
    · cases at_i
      exact h.directories i g (here ▸ at_group)
    · exact h.directories i g' at_i
  · rw [bits] at used
    split_ifs at used with here
    exact h.linked q used inside fun same => here (Option.some.inj same)

theorem Open.close_file (named : inodeNumber inodesPerGroup p ∈ s.linked)
    (file : s.isDir p = false) : s.Open none held where
  __ := h
  directories i g at_i := by
    rw [h.directories i g at_i]
    refine congrArg Finset.card (Finset.filter_congr fun b _ => ?_)
    by_cases here : (i, b) = p
    · simp [here, file]
    · simp [here]
  linked q set below _ := by
    by_cases here : q = p
    · rw [here]
      exact named
    · exact h.linked q set below fun same => here (Option.some.inj same)
  hole := by simp

theorem Open.close_directory (named : inodeNumber inodesPerGroup p ∈ s.linked)
    (directory : s.isDir p = true) (at_group : s.inodes.groups[p.1]? = some g)
    (groups : inodes.groups = s.inodes.groups.set p.1 g.countDirectory)
    (total : inodes.unallocatedInodes = s.inodes.unallocatedInodes) :
    Open { s with inodes } none held := by
  obtain ⟨set, below⟩ := h.hole p rfl
  have inside := (List.getElem?_eq_some_iff.mp at_group).1
  have bits (q : ℕ × ℕ) : inodes.bit q = s.inodes.bit q := by
    simp only [bit, groups, List.getElem?_set]
    by_cases here : p.1 = q.1
    · rw [if_pos here, if_pos inside, ← here, at_group]
      rfl
    · rw [if_neg here]
  have bound : inodesPerGroup < 2 ^ 32 :=
    lt_of_le_of_lt (Nat.le_mul_of_pos_left _ (by omega)) h.smallInodes
  refine ⟨?_, h.smallBlocks, ?_, h.blocks, fun i g' at_i => ?_, fun q used inside _ => ?_, h.owned,
    by simp⟩
  · rw [groups, length_set]
    exact h.smallInodes
  · unfold InodeMap.Counted
    rw [groups, total]
    exact set_same h.inodes at_group rfl rfl
  · -- the new directory is the only one that was not counted
    have others : ∀ b, (i, b) ≠ p →
        (b ∈ CountState.directories { s with inodes } none i ↔ b ∈ s.directories (some p) i) := by
      intro b other
      simp [CountState.directories, bits, other]
    rw [groups, List.getElem?_set] at at_i
    split_ifs at at_i with here
    · cases at_i
      subst here
      have inserted : CountState.directories { s with inodes } none p.1 =
          insert p.2 (s.directories (some p) p.1) := by
        ext b
        by_cases same : b = p.2
        · subst same
          simp [CountState.directories, bits, set, below, directory]
        · rw [others b (fun h => same (congrArg Prod.snd h))]
          simp [same]
      have fresh : p.2 ∉ s.directories (some p) p.1 := by simp [CountState.directories]
      have count := Finset.card_insert_of_notMem fresh
      have small : (insert p.2 (s.directories (some p) p.1)).card ≤ inodesPerGroup := by
        rw [← inserted]
        exact (Finset.card_filter_le _ _).trans_eq (Finset.card_range _)
      have old := h.directories p.1 g at_group
      rw [inserted, count]
      exact (toNat_add_one (by rw [old]; omega)).trans (by rw [old])
    · rw [h.directories i g' at_i]
      refine congrArg Finset.card (Finset.ext fun b => (others b fun same => ?_).symm)
      exact here (by rw [← same])
  · rw [bits] at used
    by_cases here : q = p
    · rw [here]
      exact named
    · exact h.linked q used inside fun same => here (Option.some.inj same)

end

/-! ## The operations keep the counters -/

/-- `Create` undoes what it did, or it makes the inode and its entry. -/
theorem Open.create (h : s.Open none held) {a : Answers} (directory : Bool) (inode : a.inode)
    (written : a.written) (suffices_ : s.Suffices a.needs) :
    ∃ t success, s.create directory a = (t, success) ∧
      (∀ q, s.blocks.bit q = true → t.blocks.bit q = true) ∧
      t.blocks.groups.length = s.blocks.groups.length ∧
      (t.Open none held ∧ success = false ∧ ¬(a.Reaches ∧ s.inodes.unallocatedInodes ≠ 0) ∨
        ∃ p inodes g, t.Open (some p) held ∧ inodeNumber inodesPerGroup p ∈ t.linked ∧
          t.isDir p = directory ∧ success = a.made ∧ s.inodes.Took inodes g p ∧ a.Reaches ∧
          s.inodes.unallocatedInodes ≠ 0) := by
  unfold CountState.create
  rcases h.inodes.allocate h.smallInodes with ⟨result, empty⟩ | ⟨inodes, g, p, result, took, free⟩
  · rw [result]
    exact ⟨_, _, rfl, fun _ set => set, rfl, .inl ⟨h, rfl, fun reaches => reaches.2 empty⟩⟩
  rw [result]
  have h₁ := h.take_inode took
  simp only [inode, Bool.not_true, Bool.false_eq_true, if_false]
  by_cases found : (!a.entries || !a.fresh) = true
  · rw [if_pos found]
    refine ⟨_, _, rfl, fun _ set => set, rfl, .inl ⟨h₁.release_inode, rfl, ?_⟩⟩
    rintro ⟨⟨entries, fresh, -⟩, -⟩
    simp [entries, fresh] at found
  rw [if_neg found, inodeAt_inodeNumber took.below]
  have h₂ := h₁.set_type directory
  by_cases last : (!a.last) = true
  · rw [if_pos last]
    refine ⟨_, _, rfl, fun _ set => set, rfl, .inl ⟨h₂.release_inode, rfl, ?_⟩⟩
    rintro ⟨⟨-, -, read, -⟩, -⟩
    simp [read] at last
  rw [if_neg last]
  obtain ⟨h₃, suffices₃, frame₃⟩ := h₂.extendAll a.cutNeeds suffices_
  by_cases cut : (!a.cut) = true
  · rw [if_pos cut]
    refine ⟨_, _, rfl, frame₃.bits, frame₃.length, .inl ⟨h₃.release_inode, rfl, ?_⟩⟩
    rintro ⟨⟨-, -, -, done⟩, -⟩
    simp [done] at cut
  rw [if_neg cut]
  obtain ⟨h₄, -, frame₄⟩ := h₃.extendAll a.entryNeeds (m := 0) suffices₃
  have frame := frame₃.trans frame₄
  simp only [written, Bool.not_true, Bool.false_eq_true, if_false]
  refine ⟨_, _, rfl, frame.bits, frame.length, .inr ⟨p, inodes, g, ?_, mem_cons_self, ?_, rfl,
    took, ?_, free⟩⟩
  · exact { h₄ with
      linked := fun q set below other => mem_cons_of_mem _ (h₄.linked q set below other) }
  · exact (congrFun frame.isDir p).trans (update_self p directory s.isDir)
  · simp only [Bool.or_eq_true, Bool.not_eq_true', not_or, Bool.not_eq_false] at found last cut
    exact ⟨found.1, found.2, last, cut⟩

theorem incrementDirCount_groups {fs : InodeMap inodesPerGroup} {parent : ℕ}
    (group : (parent + (2 ^ 32 - 1)) % 2 ^ 32 / inodesPerGroup = i)
    (at_i : fs.groups[i]? = some g) :
    (incrementDirCount fs parent).groups = fs.groups.set i g.countDirectory := by
  unfold incrementDirCount
  rw [group, modify_eq_set_getElem?, at_i]
  rfl

theorem incrementDirCount_unallocatedInodes (fs : InodeMap inodesPerGroup) (parent : ℕ) :
    (incrementDirCount fs parent).unallocatedInodes = fs.unallocatedInodes := by
  rw [incrementDirCount]

theorem Open.createDirectory (h : s.Open none []) {parent : ℕ} {a : Answers}
    (careful : s.Careful (.createDirectory parent a)) :
    (s.createDirectory parent a).Open none [] := by
  obtain ⟨inode, written, made, loaded, blocks_left, parent_group⟩ := careful
  unfold CountState.createDirectory
  rcases h.blocks.allocate h.smallBlocks with ⟨result, -⟩ | ⟨blocks, q, result, took⟩
  · rw [result]
    exact h
  rw [result]
  have h₁ : Open { s with blocks } none [q] := by
    refine h.set_blocks took.counted took.length fun p set below other => ?_
    rw [took.bits, if_neg (by simpa using other)] at set
    exact h.owned p set below (by simp)
  have suffices₁ : Suffices { s with blocks } a.needs := by
    rcases blocks_left with spare | ⟨enough, -⟩
    · exact .inl (took.spares _ spare).2
    · have := took.total
      exact .inr (by dsimp only; omega)
  obtain ⟨t, success, created, kept, length, outcome⟩ := h₁.create true inode written suffices₁
  simp only [ne_eq, not_true_eq_false, if_false, created]
  have held_bit : t.blocks.bit q = true := kept q ((took.bits q).trans (if_pos rfl))
  rcases outcome with ⟨h₂, rfl, unreached⟩ |
    ⟨p, inodes, g, h₂, named, directory, rfl, took_inode, reaches, free⟩
  · -- the block goes back
    rcases blocks_left with spare | ⟨-, reached⟩
    · have fits : Fits t.blocks q := by
        refine ⟨?_, took.inside.2, fun zero => ?_⟩
        · rw [length]
          exact took.inside.1.trans_eq took.length.symm
        · have other := (took.spares _ spare).1
          have : q.2 ≠ blocksPerGroup - 1 := fun same => other (Prod.ext zero same)
          have := took.inside.2
          omega
      obtain ⟨counted, length', bits⟩ := h₂.blocks.release h₂.smallBlocks (nodup_singleton q)
        (by simpa using ⟨fits, held_bit⟩)
      refine h₂.set_blocks counted length' fun p set below _ => ?_
      have set := (bits p).symm.trans set
      simp only [mem_singleton, Bool.and_eq_true, Bool.not_eq_true', decide_eq_false_iff_not] at set
      exact h₂.owned p set.1 below (by simpa using set.2)
    · exact absurd reached unreached
  · simp only [made, loaded, Bool.and_self, Bool.not_true, Bool.false_eq_true, if_false]
    have h₃ : Open { t with owned := t.owned ++ setBits s.blocks blocks } (some p) [] := by
      refine h₂.set_blocks h₂.blocks rfl fun r set below _ => ?_
      by_cases here : r = q
      · refine mem_append_right _ (BlockMap.mem_setBits.mpr ?_)
        rw [here]
        exact ⟨took.inside, took.clear, (took.bits q).trans (if_pos rfl)⟩
      · exact mem_append_left _ (h₂.owned r set below (by simpa using here))
    obtain ⟨g', at_group⟩ : ∃ g', t.inodes.groups[p.1]? = some g' := by
      have set := (h₂.hole p rfl).1
      cases located : t.inodes.groups[p.1]? with
      | none => simp [bit, located] at set
      | some g' => exact ⟨g', rfl⟩
    have group := took_inode.group_eq h.inodes (parent_group reaches free)
    have groups := incrementDirCount_groups group at_group
    have total := incrementDirCount_unallocatedInodes t.inodes parent
    exact h₃.close_directory named directory at_group groups total

theorem Open.step (h : s.Open none []) {x : CountAction} (careful : s.Careful x)
    (taken : countExec s x = some t) : t.Open none [] := by
  cases x with
  | extendFile n =>
    cases taken
    exact (h.extendFile (m := 0) careful).1
  | createFile a =>
    cases taken
    obtain ⟨inode, written, suffices_⟩ := careful
    obtain ⟨t, success, created, -, -, outcome⟩ := h.create false inode written suffices_
    simp only [created]
    rcases outcome with ⟨h₂, -⟩ | ⟨p, inodes, g, h₂, named, file, -⟩
    · exact h₂
    · exact h₂.close_file named file
  | createDirectory parent a =>
    cases taken
    exact h.createDirectory careful

end CountState

/-- From an image whose counters agree with its bitmaps, and in which everything used is referred to,
steps that are careful lead only to such images. -/
theorem sound_of_careful {s t : CountState inodesPerGroup blocksPerGroup} {xs : List CountAction}
    (sound : s.Sound) (smallInodes : s.inodes.groups.length * inodesPerGroup < 2 ^ 32)
    (smallBlocks : blocksPerGroup * s.blocks.groups.length < 2 ^ 32)
    (run : Machine.RunWhen CountState.Careful countExec s xs t) : t.Sound := by
  have start := sound.open smallInodes smallBlocks
  exact (run.invariant (I := fun s => CountState.Open s none [])
    (fun _ _ _ h careful taken => h.step careful taken) start).sound

def pair (directoryCount : UInt32) : InodeBits 2 where
  bitmap := { Bitmap.create 2 1024 with words := [1], length_words := rfl }
  freeInodesCount := 1
  directoryCount := directoryCount
  dirty := false

def twoDirectories : CountState 2 8 where
  inodes := ⟨2, [pair 1, pair 1]⟩
  blocks := ⟨7, [octet 0x01 7]⟩
  isDir p := p.2 = 0
  linked := [1, 3]
  owned := [(0, 0)]

theorem sound_twoDirectories : twoDirectories.Sound where
  inodes := ⟨by decide, by decide⟩
  blocks := ⟨by decide, by decide⟩
  directories i g at_i := by
    rcases i with _ | _ | i
    · cases at_i
      decide
    · cases at_i
      decide
    · cases at_i
  linked p used below := by
    obtain ⟨i, b⟩ := p
    rcases i with _ | _ | i
    · have all : ∀ b < 2, twoDirectories.inodes.bit (0, b) = true → inodeNumber 2 (0, b) ∈ [1, 3] := by
        decide
      exact all b below used
    · have all : ∀ b < 2, twoDirectories.inodes.bit (1, b) = true → inodeNumber 2 (1, b) ∈ [1, 3] := by
        decide
      exact all b below used
    · cases used
  owned p used below := by
    obtain ⟨i, b⟩ := p
    rcases i with _ | i
    · have all : ∀ b < 8, twoDirectories.blocks.bit (0, b) = true → (0, b) ∈ [(0, 0)] := by decide
      exact all b below used
    · cases used

def untroubled : Answers := ⟨true, true, true, true, [], true, [], true, true, true⟩

/-- A directory in the first group, which has a free inode. -/
theorem sound_same_group : ∃ t, Machine.RunWhen CountState.Careful countExec twoDirectories
    [.createDirectory 1 untroubled] t ∧ t.linked = [2, 1, 3] ∧ t.Sound := by
  have careful : twoDirectories.Careful (.createDirectory 1 untroubled) := by
    refine ⟨rfl, rfl, rfl, rfl, .inl (.inr (by decide)), fun _ _ => ⟨?_, pair 1, rfl, by decide⟩⟩
    omega
  exact Machine.RunWhen.reaches (t := twoDirectories.createDirectory 1 untroubled)
    (.cons careful rfl (.nil _)) fun run =>
      ⟨by decide, sound_of_careful sound_twoDirectories (by decide) (by decide) run⟩

/-- A directory whose parent is in the second group: its inode is in the first group, and the second
group counts it. -/
theorem not_sound_other_group : twoDirectories.Sound ∧ ∃ t, Machine.Run countExec twoDirectories
    [.createDirectory 3 untroubled] t ∧ t.linked = [2, 1, 3] ∧ ¬t.Sound := by
  refine ⟨sound_twoDirectories, twoDirectories.createDirectory 3 untroubled,
    .cons trivial rfl (.nil _), by decide, fun sound => ?_⟩
  have count := sound.directories 0 _ rfl
  exact absurd count (by decide)

end JeoKernel.Ext2
