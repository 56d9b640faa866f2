import Mathlib.Algebra.BigOperators.Ring.List
import JeoKernel.Lib.Machine
import JeoKernel.Memory.AllocTable

/-!
# The kernel heap

An arena is a table followed by its units.  Arenas are chained: a pointer is returned to the arena
that owns it, and when no arena has room a new one is put in front.  The objects that manage an arena
are blocks of it.
-/

namespace JeoKernel.Heap

open List Option

/-! ## Arenas -/

/-- `BasicMemoryAllocator`, with the table at the address `base`. -/
structure Arena where
  base : ℕ
  table : AllocTable
  consumed : ℕ

namespace Arena

def beginPtr (a : Arena) : ℕ := a.base + 4096

def endPtr (a : Arena) : ℕ := a.beginPtr + 16 * unitCount

def smOwned (a : Arena) (ptr : ℕ) : Bool := a.beginPtr ≤ ptr ∧ ptr < a.endPtr

def smAllocate (a : Arena) (size : ℕ) : Option (Arena × ℕ) :=
  let size := roundUp size
  if 16 * unitCount < (a.consumed + size) % 2 ^ 32 then none
  else
    match a.table.smAllocate size with
    | none => none
    | some (table, pos) => some (⟨a.base, table, (a.consumed + size) % 2 ^ 32⟩, a.beginPtr + 16 * pos)

def smFree (a : Arena) (ptr : ℕ) : Arena × ℕ :=
  let freed := a.table.smFree (ptr - a.beginPtr)
  (⟨a.base, freed.1, (a.consumed + 2 ^ 32 - freed.2) % 2 ^ 32⟩, freed.2)

def smSizeof (a : Arena) (ptr : ℕ) : ℕ := a.table.smSizeof (ptr - a.beginPtr)

end Arena

/-- A block that was handed out for a request of `size` bytes. -/
structure Block where
  ptr : ℕ
  size : ℕ
  deriving DecidableEq

/-- The sizes of the objects that manage an arena: `BasicMemoryAllocator`, `ChainedAllocator` and
`ChainedAllocatorRoot`. -/
structure ObjectSizes where
  basic : ℕ
  chained : ℕ
  root : ℕ
  small : basic ≤ 1024 ∧ chained ≤ 1024 ∧ root ≤ 1024

/-- An arena and the objects in it that manage it. -/
structure Managed where
  arena : Arena
  objects : List Block

/-- `CreateBasicMemoryAllocator` at an address that `vpagealloc` gave: the object is the first block. -/
def createBasicMemoryAllocator (sizes : ObjectSizes) (base : ℕ) : Option Managed :=
  match AllocTable.empty.smAllocate (roundUp sizes.basic) with
  | none => none
  | some (table, pos) =>
    some ⟨⟨base, table, roundUp sizes.basic⟩, [⟨base + 4096 + 16 * pos, sizes.basic⟩]⟩

/-- An object is constructed in a block of the arena that it manages. -/
def Managed.construct (m : Managed) (size : ℕ) : Option Managed :=
  match m.arena.smAllocate size with
  | none => none
  | some (arena, ptr) => some ⟨arena, ⟨ptr, size⟩ :: m.objects⟩

def createChainedAllocator (sizes : ObjectSizes) (base : ℕ) : Option Managed :=
  (createBasicMemoryAllocator sizes base).bind (Managed.construct · sizes.chained)

/-! ## The chain -/

/-- `sm_allocate` of the chain: the first arena that has room. -/
def chainAllocate (size : ℕ) : List Arena → Option (List Arena × ℕ)
  | [] => none
  | a :: rest =>
    match a.smAllocate size with
    | some (a, ptr) => some (a :: rest, ptr)
    | none => (chainAllocate size rest).map fun x => (a :: x.1, x.2)

/-- `sm_free` of the chain; the last arena is not asked whether it owns the pointer. -/
def chainFree (ptr : ℕ) : List Arena → List Arena × ℕ
  | [] => ([], 0)
  | [a] => ([(a.smFree ptr).1], (a.smFree ptr).2)
  | a :: b :: rest =>
    if a.smOwned ptr then ((a.smFree ptr).1 :: b :: rest, (a.smFree ptr).2)
    else (a :: (chainFree ptr (b :: rest)).1, (chainFree ptr (b :: rest)).2)

def chainSizeof (ptr : ℕ) : List Arena → ℕ
  | [] => 0
  | [a] => a.smSizeof ptr
  | a :: b :: rest => if a.smOwned ptr then a.smSizeof ptr else chainSizeof ptr (b :: rest)

/-- `ChainedAllocatorRoot`: the arenas from `head` on, and all objects that manage them. -/
structure Root where
  chain : List Arena
  objects : List Block

namespace Root

/-- `sm_allocate`; a new arena comes to the address `base`.  If a new arena refuses, too, it is not
chained in. -/
def smAllocate (sizes : ObjectSizes) (root : Root) (size base : ℕ) : Root × Option ℕ :=
  match chainAllocate size root.chain with
  | some (chain, ptr) => (⟨chain, root.objects⟩, some ptr)
  | none =>
    match createChainedAllocator sizes base with
    | none => (root, none)
    | some m =>
      match m.arena.smAllocate size with
      | none => (root, none)
      | some (arena, ptr) => (⟨arena :: root.chain, m.objects ++ root.objects⟩, some ptr)

def smFree (root : Root) (ptr : ℕ) : Root × ℕ :=
  (⟨(chainFree ptr root.chain).1, root.objects⟩, (chainFree ptr root.chain).2)

def smSizeof (root : Root) (ptr : ℕ) : ℕ := chainSizeof ptr root.chain

def smAllocatedSize (root : Root) : ℕ := (root.chain.map Arena.consumed).sum

end Root

def createChainedAllocatorRoot (sizes : ObjectSizes) (base : ℕ) : Option Root :=
  ((createBasicMemoryAllocator sizes base).bind (Managed.construct · sizes.root)).map fun m =>
    ⟨[m.arena], m.objects⟩

/-! ## Runs -/

/-- The heap and the blocks that callers hold. -/
structure HeapState where
  root : Root
  outstanding : List Block

inductive Call
  /-- If a new arena is needed, `vpagealloc` places it at `base`. -/
  | allocate (size base : ℕ)
  /-- A holder of block `i` returns it. -/
  | free (i : ℕ)

namespace HeapState

def exec (sizes : ObjectSizes) (s : HeapState) : Call → Option HeapState
  | .allocate size base =>
    match s.root.smAllocate sizes size base with
    | (root, none) => some ⟨root, s.outstanding⟩
    | (root, some ptr) => some ⟨root, ⟨ptr, size⟩ :: s.outstanding⟩
  | .free i => s.outstanding[i]?.map fun block =>
    ⟨(s.root.smFree block.ptr).1, s.outstanding.eraseIdx i⟩

def blocks (s : HeapState) : List Block := s.outstanding ++ s.root.objects

end HeapState

/-! ## One arena -/

namespace Arena

variable {a a' : Arena} {held : List Region} {size ptr : ℕ}

theorem smOwned_iff {ptr : ℕ} : a.smOwned ptr = true ↔ a.beginPtr ≤ ptr ∧ ptr < a.endPtr :=
  decide_eq_true_iff

theorem smFree_base (a : Arena) (ptr : ℕ) : (a.smFree ptr).1.base = a.base := by
  obtain ⟨base, table, consumed⟩ := a
  rfl

def usedUnits (a : Arena) : ℕ := ((Finset.range unitCount).filter (a.table.isFree · = false)).card

/-- The arena has the blocks `held`, and counts their bytes. -/
structure Holds (a : Arena) (held : List Region) : Prop where
  table : a.table.Holds held
  consumed : a.consumed = 16 * (held.map Region.length).sum

namespace Holds

theorem perm {held' : List Region} (h : a.Holds held) (same : held.Perm held') : a.Holds held' where
  table := h.table.perm same
  consumed := by rw [h.consumed, (same.map _).sum_eq]

theorem usedUnits_eq (h : a.Holds held) : a.usedUnits = (held.map Region.length).sum := by
  rw [← h.table.regions.card_used h.table.inside, usedUnits]
  refine congrArg Finset.card (Finset.filter_congr fun u mem => ?_)
  rw [← not_iff_not, ← h.table.isFree_iff (Finset.mem_range.mp mem), Bool.not_eq_false]

theorem usedUnits_le (a : Arena) : a.usedUnits ≤ unitCount := by
  exact (Finset.card_filter_le _ _).trans_eq (Finset.card_range _)

section

variable (h : a.Holds held) (small : size ≤ 16 * unitCount)

include h small

theorem consumed_add :
    (a.consumed + roundUp size) % 2 ^ 32 = 16 * (a.usedUnits + unitsFor size) := by
  have le := usedUnits_le a
  have : 16 * unitCount = 262144 := rfl
  rw [h.consumed, ← h.usedUnits_eq, roundUp_eq small]
  unfold unitsFor
  omega

theorem smAllocate_eq (enough : a.usedUnits + unitsFor size ≤ unitCount) :
    a.smAllocate size = (a.table.smAllocate (16 * unitsFor size)).map fun x =>
      (⟨a.base, x.1, 16 * (a.usedUnits + unitsFor size)⟩, a.beginPtr + 16 * x.2) := by
  unfold smAllocate
  dsimp only
  rw [h.consumed_add small, if_neg (by omega), roundUp_eq small]
  cases a.table.smAllocate (16 * unitsFor size) <;> rfl

/-- A request is refused only if there are too few units, or no run of that many free ones. -/
theorem smAllocate_none (result : a.smAllocate size = none) :
    unitCount < a.usedUnits + unitsFor size ∨
      ∀ start, ¬Region.Fits (a.table.isFree · = true) 0 unitCount ⟨start, unitsFor size⟩ := by
  refine or_iff_not_imp_left.mpr fun enough start => ?_
  rw [h.smAllocate_eq small (not_lt.mp enough), map_eq_none_iff] at result
  have refused := AllocTable.smAllocate_none (by omega) result start
  rwa [unitsFor_mul _ (unitsFor_pos size)] at refused

theorem smAllocate_some (result : a.smAllocate size = some (a', ptr)) :
    ∃ pos, ptr = a.beginPtr + 16 * pos ∧ a'.base = a.base ∧ a.table.Found (unitsFor size) pos ∧
      a'.Holds (⟨pos, unitsFor size⟩ :: held) := by
  have enough : a.usedUnits + unitsFor size ≤ unitCount := by
    by_contra less
    unfold smAllocate at result
    dsimp only at result
    rw [h.consumed_add small, if_pos (by omega)] at result
    cases result
  rw [h.smAllocate_eq small enough] at result
  obtain ⟨⟨table, pos⟩, found, placed⟩ := Option.map_eq_some_iff.mp result
  obtain ⟨rfl, rfl⟩ := Prod.mk.inj placed
  obtain ⟨first, rfl⟩ := AllocTable.smAllocate_some found
  rw [unitsFor_mul _ (unitsFor_pos size)] at first ⊢
  refine ⟨pos, rfl, rfl, first, ?_, ?_⟩
  · exact h.table.mark (r := ⟨pos, unitsFor size⟩) (unitsFor_pos size) first.1
  · rw [map_cons, sum_cons, ← h.usedUnits_eq, add_comm]

/-- If all blocks lie in the first `n` units, a request is met there or right behind them. -/
theorem smAllocate_early {n : ℕ} (early : ∀ r ∈ held, r.start + r.length ≤ n)
    (room : n + unitsFor size ≤ unitCount) :
    ∃ a' pos, a.smAllocate size = some (a', a.beginPtr + 16 * pos) ∧ pos ≤ n := by
  have free : Region.Fits (a.table.isFree · = true) 0 unitCount ⟨n, unitsFor size⟩ := by
    refine ⟨Nat.zero_le _, room, fun u mem => (h.table.isFree_iff ?_).mpr fun used => ?_⟩
    · exact lt_of_lt_of_le mem.2 room
    · obtain bad | ⟨r, held, here⟩ := (h.table.regions.used u).mp used
      · exact bad
      · exact absurd (early r held) (not_le.mpr (lt_of_le_of_lt mem.1 here.2))
  have few : a.usedUnits ≤ n := by
    rw [h.usedUnits_eq, ← h.table.regions.card_used early]
    exact (Finset.card_filter_le _ _).trans_eq (Finset.card_range n)
  cases result : a.smAllocate size with
  | none =>
    obtain less | refused := h.smAllocate_none small result
    · omega
    · exact absurd free (refused n)
  | some x =>
    obtain ⟨a', ptr⟩ := x
    obtain ⟨pos, rfl, -, first, -⟩ := h.smAllocate_some small result
    exact ⟨a', pos, rfl, not_lt.mp fun later => first.2 n later free⟩

end

variable {r : Region}

theorem smSizeof_eq (h : a.Holds held) (mem : r ∈ held) :
    a.smSizeof (a.beginPtr + 16 * r.start) = 16 * r.length := by
  rw [smSizeof, Nat.add_sub_cancel_left]
  exact h.table.smSizeof_eq mem

theorem smFree_snd (h : a.Holds held) (mem : r ∈ held) :
    (a.smFree (a.beginPtr + 16 * r.start)).2 = 16 * r.length := by
  rw [smFree, Nat.add_sub_cancel_left]
  exact (h.table.smFree_spec mem).1

theorem smFree (h : a.Holds (r :: held)) :
    (a.smFree (a.beginPtr + 16 * r.start)).1.Holds held := by
  have size := (h.table.smFree_spec mem_cons_self).1
  have bound := usedUnits_le a
  have total := h.consumed
  rw [h.usedUnits_eq] at bound
  rw [map_cons, sum_cons] at total bound
  have : unitCount = 16384 := rfl
  rw [Arena.smFree, Nat.add_sub_cancel_left]
  refine ⟨h.table.smFree, ?_⟩
  dsimp only
  omega

end Holds

end Arena

/-! ## The blocks of the chain -/

def Arena.Apart (a a' : Arena) : Prop := a.endPtr ≤ a'.base ∨ a'.endPtr ≤ a.base

instance : Std.Symm Arena.Apart := ⟨fun _ _ => Or.symm⟩

def Block.bytes (b : Block) : Region := ⟨b.ptr, 16 * unitsFor b.size⟩

/-- The units that the block has if it lies in this arena. -/
def Arena.regionOf (a : Arena) (b : Block) : Region := ⟨(b.ptr - a.beginPtr) / 16, unitsFor b.size⟩

def Arena.regionsIn (a : Arena) (blocks : List Block) : List Region :=
  (blocks.filter (a.smOwned ·.ptr)).map a.regionOf

/-- The block starts with a unit of the arena. -/
def Arena.Places (a : Arena) (b : Block) : Prop :=
  a.smOwned b.ptr = true ∧ b.ptr = a.beginPtr + 16 * (a.regionOf b).start

/-- The chain has exactly these blocks. -/
structure Blocks (chain : List Arena) (blocks : List Block) : Prop where
  apart : chain.Pairwise Arena.Apart
  placed : ∀ b ∈ blocks, ∃ a ∈ chain, a.Places b
  holds : ∀ a ∈ chain, a.Holds (a.regionsIn blocks)

namespace Arena

variable {a a' : Arena} {b : Block} {blocks : List Block}

theorem regionOf_length (a : Arena) (b : Block) : (a.regionOf b).length = unitsFor b.size := rfl

theorem regionsIn_cons_of_owned (owned : a.smOwned b.ptr = true) :
    a.regionsIn (b :: blocks) = a.regionOf b :: a.regionsIn blocks := by
  rw [regionsIn, filter_cons, if_pos owned, map_cons, regionsIn]

theorem regionsIn_cons_of_not (other : ¬a.smOwned b.ptr = true) :
    a.regionsIn (b :: blocks) = a.regionsIn blocks := by
  rw [regionsIn, filter_cons, if_neg other, regionsIn]

theorem mem_regionsIn (mem : b ∈ blocks) (owned : a.smOwned b.ptr = true) :
    a.regionOf b ∈ a.regionsIn blocks :=
  mem_map_of_mem (mem_filter.mpr ⟨mem, owned⟩)

theorem regionsIn_eq_nil (other : ∀ b ∈ blocks, ¬a.smOwned b.ptr = true) : a.regionsIn blocks = [] := by
  rw [regionsIn, filter_eq_nil_iff.mpr other, map_nil]

theorem regionsIn_append (blocks blocks' : List Block) :
    a.regionsIn (blocks ++ blocks') = a.regionsIn blocks ++ a.regionsIn blocks' := by
  rw [regionsIn, filter_append, map_append, regionsIn, regionsIn]

theorem regionsIn_congr (same : a'.base = a.base) (blocks : List Block) :
    a'.regionsIn blocks = a.regionsIn blocks := by
  unfold regionsIn regionOf smOwned endPtr beginPtr
  rw [same]

theorem not_owned_of_apart {ptr : ℕ} (apart : a.Apart a') (owned : a.smOwned ptr = true) :
    ¬a'.smOwned ptr = true := by
  rw [smOwned_iff] at *
  unfold Apart endPtr beginPtr at *
  omega

theorem Holds.places_inside {held : List Region} (h : a.Holds held) (mem : a.regionOf b ∈ held)
    (placed : a.Places b) : a.beginPtr ≤ b.ptr ∧ b.ptr + 16 * unitsFor b.size ≤ a.endPtr := by
  have inside := h.table.inside _ mem
  have here := placed.2
  have length := a.regionOf_length b
  unfold endPtr
  omega

variable {x : ℕ}

theorem Places.mem_bytes (placed : a.Places b) :
    x ∈ b.bytes ↔ a.beginPtr ≤ x ∧ (x - a.beginPtr) / 16 ∈ a.regionOf b := by
  have here := placed.2
  have length := a.regionOf_length b
  rw [Region.mem_def, Region.mem_def, length]
  unfold Block.bytes
  dsimp only
  omega

end Arena

theorem mem_append_cons {pre post : List Arena} {a c : Arena} :
    c ∈ pre ++ a :: post ↔ c = a ∨ c ∈ pre ++ post := by
  rw [mem_append, mem_cons, mem_append, or_left_comm]

theorem apart_replace {pre post : List Arena} {a a' : Arena} (same : a'.base = a.base)
    (apart : (pre ++ a :: post).Pairwise Arena.Apart) : (pre ++ a' :: post).Pairwise Arena.Apart := by
  have bases : (pre ++ a' :: post).map Arena.base = (pre ++ a :: post).map Arena.base := by
    rw [map_append, map_append, map_cons, map_cons, same]
  have far : ((pre ++ a :: post).map Arena.base).Pairwise fun x y =>
      x + 4096 + 16 * unitCount ≤ y ∨ y + 4096 + 16 * unitCount ≤ x := pairwise_map.mpr apart
  rw [← bases, pairwise_map] at far
  exact far

namespace Blocks

variable {chain pre post : List Arena} {a a' : Arena} {b : Block} {blocks blocks' : List Block}
  {size ptr : ℕ}

theorem perm (h : Blocks chain blocks) (same : blocks.Perm blocks') : Blocks chain blocks' where
  apart := h.apart
  placed b mem := h.placed b (same.mem_iff.mpr mem)
  holds a mem := (h.holds a mem).perm ((same.filter _).map _)

theorem owner_unique (h : Blocks chain blocks) (mem : a ∈ chain) (mem' : a' ∈ chain)
    (owned : a.smOwned ptr = true) (owned' : a'.smOwned ptr = true) : a = a' := by
  by_contra other
  exact Arena.not_owned_of_apart (h.apart.forall mem mem' other) owned owned'

section

variable (h : Blocks (pre ++ a :: post) blocks)

include h

theorem not_owned_of_mem (owned : a.smOwned ptr = true) {c : Arena} (mem : c ∈ pre ++ post) :
    ¬c.smOwned ptr = true := by
  obtain ⟨-, tail, before⟩ := pairwise_append.mp h.apart
  obtain inPre | inPost := mem_append.mp mem
  · exact Arena.not_owned_of_apart (before c inPre a mem_cons_self).symm owned
  · exact Arena.not_owned_of_apart ((pairwise_cons.mp tail).1 c inPost) owned

theorem replace (same : a'.base = a.base)
    (placed : ∀ b ∈ blocks', ∃ c ∈ pre ++ a :: post, c.Places b)
    (here : a'.Holds (a.regionsIn blocks'))
    (others : ∀ c ∈ pre ++ post, c.regionsIn blocks' = c.regionsIn blocks) :
    Blocks (pre ++ a' :: post) blocks' where
  apart := apart_replace same h.apart
  placed b mem := by
    obtain ⟨c, inChain, places⟩ := placed b mem
    obtain rfl | other := mem_append_cons.mp inChain
    · refine ⟨a', by simp, ?_⟩
      unfold Arena.Places Arena.regionOf Arena.smOwned Arena.endPtr Arena.beginPtr at *
      rwa [same]
    · exact ⟨c, mem_append_cons.mpr (.inr other), places⟩
  holds c mem := by
    obtain rfl | other := mem_append_cons.mp mem
    · rwa [Arena.regionsIn_congr same]
    · rw [others c other]
      exact h.holds c (mem_append_cons.mpr (.inr other))

theorem allocate (small : size ≤ 16 * unitCount) (result : a.smAllocate size = some (a', ptr)) :
    Blocks (pre ++ a' :: post) (⟨ptr, size⟩ :: blocks) := by
  have inChain : a ∈ pre ++ a :: post := by simp
  obtain ⟨pos, rfl, same, found, holds⟩ := (h.holds a inChain).smAllocate_some small result
  have region : a.regionOf ⟨a.beginPtr + 16 * pos, size⟩ = ⟨pos, unitsFor size⟩ := by
    rw [Arena.regionOf, Nat.add_sub_cancel_left, Nat.mul_div_cancel_left _ (by decide)]
  have owned : a.smOwned (a.beginPtr + 16 * pos) = true := by
    have upper := found.1.upper
    have pos_units := unitsFor_pos size
    rw [Arena.smOwned_iff, Arena.endPtr]
    dsimp only at upper
    omega
  refine h.replace same (forall_mem_cons.mpr ⟨⟨a, inChain, owned, ?_⟩, h.placed⟩) ?_
    fun c mem => Arena.regionsIn_cons_of_not (h.not_owned_of_mem owned mem)
  · rw [region]
  · rwa [Arena.regionsIn_cons_of_owned owned, region]

end

theorem free (h : Blocks (pre ++ a :: post) (b :: blocks)) (places : a.Places b) :
    Blocks (pre ++ (a.smFree b.ptr).1 :: post) blocks := by
  have holds := h.holds a (by simp)
  rw [Arena.regionsIn_cons_of_owned places.1] at holds
  refine h.replace (a.smFree_base _) (fun b' mem => h.placed b' (mem_cons_of_mem _ mem)) ?_
    fun c mem => (Arena.regionsIn_cons_of_not (h.not_owned_of_mem places.1 mem)).symm
  rw [places.2]
  exact holds.smFree

theorem cons (h : Blocks chain blocks) (new : Blocks [a] blocks')
    (apart : ∀ c ∈ chain, a.Apart c) : Blocks (a :: chain) (blocks' ++ blocks) where
  apart := pairwise_cons.mpr ⟨apart, h.apart⟩
  placed b mem := by
    obtain here | there := mem_append.mp mem
    · obtain ⟨c, inNew, places⟩ := new.placed b here
      obtain rfl := mem_singleton.mp inNew
      exact ⟨c, mem_cons_self, places⟩
    · obtain ⟨c, inChain, places⟩ := h.placed b there
      exact ⟨c, mem_cons_of_mem _ inChain, places⟩
  holds := by
    refine forall_mem_cons.mpr ⟨?_, fun c mem => ?_⟩
    · have old : a.regionsIn blocks = [] := Arena.regionsIn_eq_nil fun b mem => by
        obtain ⟨c, inChain, places⟩ := h.placed b mem
        exact Arena.not_owned_of_apart (apart c inChain).symm places.1
      rw [Arena.regionsIn_append, old, append_nil]
      exact new.holds a mem_cons_self
    · have fresh : c.regionsIn blocks' = [] := Arena.regionsIn_eq_nil fun b inNew => by
        obtain ⟨a', isNew, places⟩ := new.placed b inNew
        obtain rfl := mem_singleton.mp isNew
        exact Arena.not_owned_of_apart (apart c mem) places.1
      rw [Arena.regionsIn_append, fresh, nil_append]
      exact h.holds c mem

end Blocks

/-! ## The calls on the chain -/

section Chain

variable {chain chain' pre post : List Arena} {a a' : Arena} {size ptr : ℕ}

theorem chainAllocate_some (result : chainAllocate size chain = some (chain', ptr)) :
    ∃ pre a a' post, chain = pre ++ a :: post ∧ chain' = pre ++ a' :: post ∧
      a.smAllocate size = some (a', ptr) := by
  induction chain generalizing chain' with
  | nil => cases result
  | cons a rest ih =>
    rw [chainAllocate] at result
    cases first : a.smAllocate size with
    | some x =>
      rw [first] at result
      obtain ⟨rfl, rfl⟩ := Prod.mk.inj (some.inj result)
      exact ⟨[], a, x.1, rest, rfl, rfl, first⟩
    | none =>
      rw [first] at result
      obtain ⟨⟨rest', ptr'⟩, found, same⟩ := Option.map_eq_some_iff.mp result
      obtain ⟨rfl, rfl⟩ := Prod.mk.inj same
      obtain ⟨pre, b, b', post, rfl, rfl, answer⟩ := ih found
      exact ⟨a :: pre, b, b', post, rfl, rfl, answer⟩

theorem not_owned_of_cons {c : Arena} (apart : (c :: (pre ++ a :: post)).Pairwise Arena.Apart)
    (owned : a.smOwned ptr = true) : ¬c.smOwned ptr = true :=
  Arena.not_owned_of_apart ((pairwise_cons.mp apart).1 a (by simp)).symm owned

section

variable (apart : (pre ++ a :: post).Pairwise Arena.Apart) (owned : a.smOwned ptr = true)

include apart owned

theorem chainFree_append (freed : a.smFree ptr = (a', size)) :
    chainFree ptr (pre ++ a :: post) = (pre ++ a' :: post, size) := by
  induction pre with
  | nil =>
    cases post with
    | nil => rw [nil_append, chainFree, freed, nil_append]
    | cons b post => rw [nil_append, chainFree, if_pos owned, freed, nil_append]
  | cons c pre ih =>
    have other := not_owned_of_cons apart owned
    have rest := ih (pairwise_cons.mp apart).2
    obtain ⟨d, tail, shape⟩ : ∃ d tail, pre ++ a :: post = d :: tail :=
      exists_cons_of_ne_nil (by simp)
    rw [cons_append, shape, chainFree, if_neg other, ← shape, rest, cons_append]

theorem chainSizeof_append : chainSizeof ptr (pre ++ a :: post) = a.smSizeof ptr := by
  induction pre with
  | nil =>
    cases post with
    | nil => rfl
    | cons b post => rw [nil_append, chainSizeof, if_pos owned]
  | cons c pre ih =>
    have other := not_owned_of_cons apart owned
    obtain ⟨d, tail, shape⟩ : ∃ d tail, pre ++ a :: post = d :: tail :=
      exists_cons_of_ne_nil (by simp)
    rw [cons_append, shape, chainSizeof, if_neg other, ← shape, ih (pairwise_cons.mp apart).2]

end

end Chain

/-! ## New arenas -/

/-- The objects lie in the first `n` units of the arena. -/
structure Managed.Early (m : Managed) (n : ℕ) : Prop where
  blocks : Blocks [m.arena] m.objects
  early : ∀ r ∈ m.arena.regionsIn m.objects, r.start + r.length ≤ n

namespace Managed

variable {m : Managed} {n size : ℕ}

theorem Early.smAllocate (h : m.Early n) (small : size ≤ 16 * unitCount)
    (room : n + unitsFor size ≤ unitCount) :
    ∃ arena ptr, m.arena.smAllocate size = some (arena, ptr) ∧ arena.base = m.arena.base ∧
      Early ⟨arena, ⟨ptr, size⟩ :: m.objects⟩ (n + unitsFor size) := by
  have holds := h.blocks.holds m.arena mem_cons_self
  obtain ⟨arena, pos, result, le⟩ := holds.smAllocate_early small h.early room
  obtain ⟨pos', placed, same, found, -⟩ := holds.smAllocate_some small result
  have blocks : Blocks ([] ++ m.arena :: []) m.objects := h.blocks
  refine ⟨arena, _, result, same, blocks.allocate small result, ?_⟩
  rw [Arena.regionsIn_congr same]
  by_cases owned : m.arena.smOwned (m.arena.beginPtr + 16 * pos) = true
  · rw [Arena.regionsIn_cons_of_owned owned]
    refine forall_mem_cons.mpr ⟨?_, fun r mem => (h.early r mem).trans (Nat.le_add_right _ _)⟩
    rw [Arena.regionOf, Nat.add_sub_cancel_left, Nat.mul_div_cancel_left _ (by decide)]
    dsimp only
    omega
  · rw [Arena.regionsIn_cons_of_not owned]
    exact fun r mem => (h.early r mem).trans (Nat.le_add_right _ _)

theorem Early.construct (h : m.Early n) (size : ℕ) (small : size ≤ 16 * unitCount)
    (room : n + unitsFor size ≤ unitCount) :
    ∃ m', m.construct size = some m' ∧ m'.arena.base = m.arena.base ∧ m'.Early (n + unitsFor size) := by
  obtain ⟨arena, ptr, result, same, early⟩ := h.smAllocate small room
  exact ⟨_, by rw [Managed.construct, result], same, early⟩

theorem early_empty (base : ℕ) : Early ⟨⟨base, .empty, 0⟩, []⟩ 0 where
  blocks := by
    refine ⟨pairwise_singleton _ _, by simp, fun a mem => ?_⟩
    obtain rfl := mem_singleton.mp mem
    exact ⟨AllocTable.holds_empty, rfl⟩
  early := by simp [Arena.regionsIn]

theorem Early.mono {n' : ℕ} (h : m.Early n) (le : n ≤ n') : m.Early n' :=
  ⟨h.blocks, fun r mem => (h.early r mem).trans le⟩

end Managed

section Create

variable (sizes : ObjectSizes) (base : ℕ)

theorem unitsFor_le {n : ℕ} (size : ℕ) (le : size ≤ 16 * n) (pos : 0 < n) : unitsFor size ≤ n := by
  unfold unitsFor
  omega

theorem createBasicMemoryAllocator_eq :
    createBasicMemoryAllocator sizes base =
      Managed.construct ⟨⟨base, .empty, 0⟩, []⟩ sizes.basic := by
  have small : sizes.basic ≤ 16 * unitCount := sizes.small.1.trans (by decide)
  have fits : roundUp sizes.basic ≤ 1024 := by
    rw [roundUp_eq small]
    have := unitsFor_le (n := 64) sizes.basic sizes.small.1 (by decide)
    omega
  have consumed : (0 + roundUp sizes.basic) % 2 ^ 32 = roundUp sizes.basic := by omega
  unfold createBasicMemoryAllocator Managed.construct Arena.smAllocate
  dsimp only
  rw [consumed, if_neg (not_lt.mpr (fits.trans (by decide)))]
  cases AllocTable.empty.smAllocate (roundUp sizes.basic) <;> rfl

theorem create_construct (size : ℕ) (small : size ≤ 1024) :
    ∃ m, (createBasicMemoryAllocator sizes base).bind (Managed.construct · size) = some m ∧
      m.arena.base = base ∧ m.Early 128 := by
  have first := unitsFor_le (n := 64) sizes.basic sizes.small.1 (by decide)
  have second := unitsFor_le (n := 64) size small (by decide)
  have : unitCount = 16384 := rfl
  obtain ⟨m, basic, at_base, early⟩ := (Managed.early_empty base).construct
    sizes.basic (sizes.small.1.trans (by decide)) (by omega)
  obtain ⟨m', result, at_base', early'⟩ := early.construct size
    (small.trans (by decide)) (by omega)
  refine ⟨m', ?_, at_base'.trans at_base, early'.mono (by omega)⟩
  rw [createBasicMemoryAllocator_eq, basic, bind_some, result]

end Create

/-! ## Whole runs -/

/-- The byte belongs to a unit that is in use. -/
def Root.InUse (root : Root) (x : ℕ) : Prop :=
  ∃ a ∈ root.chain, a.smOwned x = true ∧ a.table.isFree ((x - a.beginPtr) / 16) = false

/-- The requests are for less than 8192 bytes, `vpagealloc` gives addresses that no arena has, and
only blocks that are outstanding are returned. -/
def Legal (s : HeapState) : Call → Prop
  | .allocate size base => size < 8192 ∧ ∀ a ∈ s.root.chain, Arena.Apart ⟨base, .empty, 0⟩ a
  | .free i => i < s.outstanding.length

structure HeapState.Sound (sizes : ObjectSizes) (s : HeapState) : Prop where
  arenas : s.root.chain.Pairwise Arena.Apart
  inside : ∀ b ∈ s.blocks, ∃ a ∈ s.root.chain,
    a.beginPtr ≤ b.ptr ∧ b.ptr + 16 * unitsFor b.size ≤ a.endPtr
  /-- The blocks are disjoint, and the units in use are exactly theirs. -/
  regions : Regions (fun _ => False) s.root.InUse (s.blocks.map Block.bytes)
  sizeof : ∀ b ∈ s.blocks, s.root.smSizeof b.ptr = 16 * unitsFor b.size
  freed : ∀ b ∈ s.blocks, (s.root.smFree b.ptr).2 = 16 * unitsFor b.size ∧
    ∀ x, (s.root.smFree b.ptr).1.InUse x ↔ s.root.InUse x ∧ x ∉ b.bytes
  /-- An arena refuses only if it has too few units or no run of that many free ones. -/
  refuses : ∀ a ∈ s.root.chain, ∀ size < 8192, a.smAllocate size = none →
    unitCount < a.usedUnits + unitsFor size ∨
      ∀ start, ¬Region.Fits (a.table.isFree · = true) 0 unitCount ⟨start, unitsFor size⟩
  answered : ∀ size base, Legal s (.allocate size base) →
    (s.root.smAllocate sizes size base).2.isSome = true
  allocated : s.root.smAllocatedSize = 16 * (s.root.chain.map Arena.usedUnits).sum

namespace Blocks

variable {chain : List Arena} {blocks : List Block} {b : Block} {a : Arena}

section

variable (h : Blocks chain blocks) (mem : b ∈ blocks) (inChain : a ∈ chain)

include h mem inChain

/-- The arena that owns the pointer is the one that the block is in. -/
theorem places (owned : a.smOwned b.ptr = true) : a.Places b := by
  obtain ⟨c, inChain', places⟩ := h.placed b mem
  obtain rfl := h.owner_unique inChain inChain' owned places.1
  exact places

theorem inside (places : a.Places b) :
    a.beginPtr ≤ b.ptr ∧ b.ptr + 16 * unitsFor b.size ≤ a.endPtr :=
  (h.holds a inChain).places_inside (Arena.mem_regionsIn mem places.1) places

theorem owns_bytes (places : a.Places b) (here : x ∈ b.bytes) : a.smOwned x = true := by
  obtain ⟨lower, upper⟩ := h.inside mem inChain places
  exact Arena.smOwned_iff.mpr ⟨lower.trans here.1, lt_of_lt_of_le here.2 upper⟩

end

variable {root : Root}

theorem inUse_iff (h : Blocks root.chain blocks) : root.InUse x ↔ ∃ b ∈ blocks, x ∈ b.bytes := by
  constructor
  · rintro ⟨a, inChain, owned, taken⟩
    have holds := (h.holds a inChain).table
    have bounds := Arena.smOwned_iff.mp owned
    have unit_lt : (x - a.beginPtr) / 16 < unitCount := by
      unfold Arena.endPtr at bounds
      omega
    have used : a.table.Used ((x - a.beginPtr) / 16) := by
      by_contra unused
      rw [(holds.isFree_iff unit_lt).mpr unused] at taken
      cases taken
    obtain bad | ⟨r, mem, here⟩ := (holds.regions.used _).mp used
    · exact bad.elim
    · obtain ⟨b, kept, rfl⟩ := mem_map.mp mem
      obtain ⟨inBlocks, owned'⟩ := mem_filter.mp kept
      exact ⟨b, inBlocks, (h.places inBlocks inChain owned').mem_bytes.mpr ⟨bounds.1, here⟩⟩
  · rintro ⟨b, mem, here⟩
    obtain ⟨a, inChain, places⟩ := h.placed b mem
    have holds := (h.holds a inChain).table
    have used := (holds.regions.used _).mpr
      (.inr ⟨_, Arena.mem_regionsIn mem places.1, (places.mem_bytes.mp here).2⟩)
    refine ⟨a, inChain, h.owns_bytes mem inChain places here, ?_⟩
    rw [← Bool.not_eq_true, holds.isFree_iff used.1]
    exact not_not.mpr used

theorem bytes_apart (h : Blocks chain blocks) :
    blocks.Pairwise fun b b' => b.bytes.Apart b'.bytes := by
  induction blocks generalizing chain with
  | nil => exact .nil
  | cons b blocks ih =>
    obtain ⟨a, inChain, places⟩ := h.placed b mem_cons_self
    refine pairwise_cons.mpr ⟨fun b' mem' x here there => ?_, ?_⟩
    · obtain ⟨a', inChain', places'⟩ := h.placed b' (mem_cons_of_mem _ mem')
      -- a byte of both has one owner, and there the units are apart
      obtain rfl := h.owner_unique inChain inChain'
        (h.owns_bytes mem_cons_self inChain places here)
        (h.owns_bytes (mem_cons_of_mem _ mem') inChain' places' there)
      have apart := (h.holds a inChain).table.regions.apart
      rw [Arena.regionsIn_cons_of_owned places.1] at apart
      exact (pairwise_cons.mp apart).1 _ (Arena.mem_regionsIn mem' places'.1) _
        (places.mem_bytes.mp here).2 (places'.mem_bytes.mp there).2
    · obtain ⟨pre, post, rfl⟩ := append_of_mem inChain
      exact ih (h.free places)

theorem regions (h : Blocks root.chain blocks) :
    Regions (fun _ => False) root.InUse (blocks.map Block.bytes) where
  nonempty := forall_mem_map.mpr fun b _ => Nat.mul_pos (by decide) (unitsFor_pos b.size)
  apart := pairwise_map.mpr h.bytes_apart
  unreserved _ _ _ _ := id
  used x := by simp [h.inUse_iff]

theorem smSizeof_eq (h : Blocks root.chain blocks) (mem : b ∈ blocks) :
    root.smSizeof b.ptr = 16 * unitsFor b.size := by
  obtain ⟨a, inChain, places⟩ := h.placed b mem
  have size := (h.holds a inChain).smSizeof_eq (Arena.mem_regionsIn mem places.1)
  obtain ⟨pre, post, split⟩ := append_of_mem inChain
  have apart := h.apart
  rw [split] at apart
  rw [Root.smSizeof, split, chainSizeof_append apart places.1, places.2, size, Arena.regionOf_length]

theorem smFree (h : Blocks root.chain (b :: blocks)) :
    (root.smFree b.ptr).2 = 16 * unitsFor b.size ∧ Blocks (root.smFree b.ptr).1.chain blocks := by
  obtain ⟨a, inChain, places⟩ := h.placed b mem_cons_self
  have size := (h.holds a inChain).smFree_snd (Arena.mem_regionsIn mem_cons_self places.1)
  rw [← places.2, Arena.regionOf_length] at size
  obtain ⟨pre, post, split⟩ := append_of_mem inChain
  rw [split] at h
  have rest := h.free places
  obtain ⟨⟨a', n⟩, freed⟩ : ∃ x, a.smFree b.ptr = x := ⟨_, rfl⟩
  rw [freed] at size rest
  have whole : root.smFree b.ptr = (⟨pre ++ a' :: post, root.objects⟩, n) := by
    rw [Root.smFree, split, chainFree_append h.apart places.1 freed]
  rw [whole]
  exact ⟨size, rest⟩

end Blocks

/-- A request is met by an arena of the chain, or by a new one with its objects. -/
theorem Root.smAllocate_spec (sizes : ObjectSizes) (root : Root) {blocks : List Block} {size base : ℕ}
    (h : Blocks root.chain blocks) (small : size < 8192)
    (fresh : ∀ a ∈ root.chain, Arena.Apart ⟨base, .empty, 0⟩ a) :
    ∃ chain new ptr, root.smAllocate sizes size base = (⟨chain, new ++ root.objects⟩, some ptr) ∧
      Blocks chain (⟨ptr, size⟩ :: new ++ blocks) := by
  have inArena : size ≤ 16 * unitCount := small.le.trans (by decide)
  unfold Root.smAllocate
  cases result : chainAllocate size root.chain with
  | some x =>
    obtain ⟨pre, a, a', post, split, split', answer⟩ := chainAllocate_some result
    rw [split] at h
    refine ⟨x.1, [], x.2, rfl, ?_⟩
    rw [split']
    exact h.allocate inArena answer
  | none =>
    obtain ⟨m, created, at_base, early⟩ := create_construct sizes base sizes.chained sizes.small.2.1
    have units := unitsFor_le (n := 512) size (by omega) (by decide)
    have : unitCount = 16384 := rfl
    obtain ⟨arena, ptr, answer, same, early'⟩ := early.smAllocate inArena (by omega)
    refine ⟨arena :: root.chain, m.objects, ptr, ?_, h.cons early'.blocks fun a mem => ?_⟩
    · rw [createChainedAllocator, created]
      dsimp only
      rw [answer]
    · have apart := fresh a mem
      unfold Arena.Apart Arena.endPtr Arena.beginPtr at apart ⊢
      rwa [same, at_base]

namespace HeapState

variable {sizes : ObjectSizes} {s t : HeapState}

theorem blocks_step {x : Call} (h : Blocks s.root.chain s.blocks) (legal : Legal s x)
    (step : s.exec sizes x = some t) : Blocks t.root.chain t.blocks := by
  cases x with
  | allocate size base =>
    obtain ⟨chain, new, ptr, answer, rest⟩ := Root.smAllocate_spec sizes s.root h legal.1 legal.2
    rw [exec, answer] at step
    cases step
    refine rest.perm ?_
    rw [blocks, blocks, cons_append, cons_append, ← append_assoc, ← append_assoc]
    exact ((perm_append_comm).append_right _).cons _
  | free i =>
    obtain ⟨b, at_i, rfl⟩ := Option.map_eq_some_iff.mp step
    obtain ⟨lt, rfl⟩ := List.getElem?_eq_some_iff.mp at_i
    have front : s.blocks.Perm (s.outstanding[i] :: (s.outstanding.eraseIdx i ++ s.root.objects)) :=
      ((List.getElem_cons_eraseIdx_perm lt).symm.append_right _)
    exact (h.perm front).smFree.2

theorem sound_of_blocks (h : Blocks s.root.chain s.blocks) : s.Sound sizes where
  arenas := h.apart
  inside b mem := by
    obtain ⟨a, inChain, places⟩ := h.placed b mem
    exact ⟨a, inChain, h.inside mem inChain places⟩
  regions := h.regions
  sizeof b mem := h.smSizeof_eq mem
  freed b mem := by
    have front := h.perm (perm_cons_erase mem)
    obtain ⟨size, rest⟩ := front.smFree
    refine ⟨size, fun x => ?_⟩
    rw [rest.inUse_iff, front.inUse_iff]
    constructor
    · rintro ⟨b', mem', here⟩
      exact ⟨⟨b', mem_cons_of_mem _ mem', here⟩,
        fun there => (pairwise_cons.mp front.bytes_apart).1 b' mem' x there here⟩
    · rintro ⟨⟨b', mem', here⟩, outside⟩
      obtain rfl | other := mem_cons.mp mem'
      · exact absurd here outside
      · exact ⟨b', other, here⟩
  refuses a mem size small := (h.holds a mem).smAllocate_none (small.le.trans (by decide))
  answered size base legal := by
    obtain ⟨chain, new, ptr, answer, -⟩ := Root.smAllocate_spec sizes s.root h legal.1 legal.2
    rw [answer]
    rfl
  allocated := by
    rw [Root.smAllocatedSize, ← sum_map_mul_left]
    refine congrArg List.sum (map_congr_left fun a mem => ?_)
    rw [(h.holds a mem).consumed, (h.holds a mem).usedUnits_eq]

theorem blocks_create {base : ℕ} {root : Root}
    (created : createChainedAllocatorRoot sizes base = some root) :
    Blocks root.chain (blocks ⟨root, []⟩) := by
  obtain ⟨m, result, -, early⟩ := create_construct sizes base sizes.root sizes.small.2.2
  rw [createChainedAllocatorRoot, result] at created
  cases created
  exact early.blocks

/-- After every sequence of calls the blocks are disjoint and the heap reports them truly. -/
theorem sound_of_legal {base : ℕ} {root : Root} {xs : List Call}
    (created : createChainedAllocatorRoot sizes base = some root)
    (run : Machine.RunWhen Legal (exec sizes) ⟨root, []⟩ xs t) : t.Sound sizes :=
  sound_of_blocks (run.invariant (I := fun s => Blocks s.root.chain s.blocks)
    (fun _ _ _ h legal step => blocks_step h legal step) (blocks_create created))

/-- A block of 100 bytes is taken and returned. -/
theorem sound_taken_and_returned :
    ∃ root t, createChainedAllocatorRoot ⟨216, 24, 208, by decide⟩ 0x1000000 = some root ∧
      Machine.RunWhen Legal (exec ⟨216, 24, 208, by decide⟩) ⟨root, []⟩
        [.allocate 100 0x2000000, .free 0] t ∧ t.Sound ⟨216, 24, 208, by decide⟩ := by
  obtain ⟨m, result, at_base, early⟩ := create_construct ⟨216, 24, 208, by decide⟩ 0x1000000
    208 (by decide)
  have created : createChainedAllocatorRoot ⟨216, 24, 208, by decide⟩ 0x1000000 =
      some ⟨[m.arena], m.objects⟩ := by
    rw [createChainedAllocatorRoot, result, map_some]
  have fresh : ∀ a ∈ [m.arena], Arena.Apart ⟨0x2000000, .empty, 0⟩ a := by
    intro a mem
    obtain rfl := mem_singleton.mp mem
    right
    rw [Arena.endPtr, Arena.beginPtr, at_base]
    decide
  obtain ⟨chain, new, ptr, answer, -⟩ := Root.smAllocate_spec ⟨216, 24, 208, by decide⟩
    ⟨[m.arena], m.objects⟩ (blocks_create created) (show 100 < 8192 by decide) fresh
  have run : Machine.RunWhen Legal (exec ⟨216, 24, 208, by decide⟩) ⟨⟨[m.arena], m.objects⟩, []⟩
      [.allocate 100 0x2000000, .free 0]
      ⟨(Root.smFree ⟨chain, new ++ m.objects⟩ ptr).1, []⟩ :=
    .cons ⟨by decide, fresh⟩ (by rw [exec, answer]) (.cons (by exact one_pos) rfl (.nil _))
  exact ⟨_, _, created, run, sound_of_legal created run⟩

end HeapState

end JeoKernel.Heap
