import JeoKernel.Lib.FirstFit
import JeoKernel.Lib.Loop

/-!
# The table of a heap arena

A table has two bits for each of the 16384 units of 16 bytes of an arena.  The first unit of a block
has the code 3, the others have the code 1, a free unit has the code 0.
-/

namespace JeoKernel.Heap

open List Region

/-! ## The calls -/

def unitCount : ℕ := 16384

/-- `SmallUnitMemoryAllocTable`. -/
structure AllocTable where
  bits : List (BitVec 8)
  length_bits : bits.length = 4096

namespace AllocTable

def empty : AllocTable := ⟨replicate 4096 0, length_replicate⟩

def byte (t : AllocTable) (i : ℕ) : BitVec 8 := t.bits.getD i 0

def getBits (t : AllocTable) (position : ℕ) : BitVec 8 :=
  (t.byte (position / 4) &&& 3#8 <<< (position % 4 * 2)) >>> (position % 4 * 2)

def isFree (t : AllocTable) (position : ℕ) : Bool :=
  t.byte (position / 4) &&& 1#8 <<< (position % 4 * 2) == 0#8

def setAllocation (t : AllocTable) (position : ℕ) (ibits : BitVec 8) : AllocTable where
  bits := t.bits.modify (position / 4) fun byte =>
    byte &&& ~~~(3#8 <<< (position % 4 * 2)) ||| ibits <<< (position % 4 * 2)
  length_bits := by rw [length_modify, t.length_bits]

/-- The inner loop of `sm_allocate`; it is left at the first position of a run. -/
def searchByte (t : AllocTable) (size i count : ℕ) : Except ℕ ℕ :=
  Loop.forRange 0 4 (fun j count =>
    let pos := 4 * i + j
    if t.isFree pos then
      if count + 1 = size then .error (pos - count) else .ok (count + 1)
    else .ok 0) count

/-- The outer loop of `sm_allocate`, which passes over a byte without a free unit. -/
def search (t : AllocTable) (size : ℕ) : Except ℕ ℕ :=
  Loop.forRange 0 4096 (fun i count =>
    if t.byte i &&& 0x55#8 ≠ 0x55#8 then t.searchByte size i count else .ok 0) 0

def mark (t : AllocTable) (pos count : ℕ) : AllocTable :=
  (range' (pos + 1) (count - 1)).foldl (fun t p => t.setAllocation p 1) (t.setAllocation pos 3)

end AllocTable

/-- The size in bytes that is allocated for `size`. -/
def roundUp (size : ℕ) : ℕ :=
  if size < 16 then 16 else if size % 16 ≠ 0 then (size + (16 - size % 16)) % 2 ^ 32 else size

namespace AllocTable

/-- `sm_allocate`, with the position of the block. -/
def smAllocate (t : AllocTable) (size : ℕ) : Option (AllocTable × ℕ) :=
  if 16 * unitCount < size then none
  else
    match t.search (roundUp size / 16) with
    | .error pos => some (t.mark pos (roundUp size / 16), pos)
    | .ok _ => none

def freeLoop : ℕ → AllocTable → ℕ → ℕ → AllocTable × ℕ
  | 0, t, _, size => (t, size)
  | turns + 1, t, vector, size =>
    if t.getBits vector = 0 ∨ t.getBits vector = 3 then (t, size)
    else freeLoop turns (t.setAllocation vector 0) (vector + 1) (size + 16)

/-- `sm_free`; `vector` is the offset from the first unit. -/
def smFree (t : AllocTable) (vector : ℕ) : AllocTable × ℕ :=
  if vector % 16 ≠ 0 then (t, 0)
  else freeLoop (unitCount - (vector / 16 + 1)) (t.setAllocation (vector / 16) 0) (vector / 16 + 1) 16

def sizeofLoop (t : AllocTable) : ℕ → ℕ → ℕ → ℕ
  | 0, _, size => size
  | turns + 1, vector, size =>
    if t.getBits vector = 0 ∨ t.getBits vector = 3 then size
    else sizeofLoop t turns (vector + 1) (size + 16)

def smSizeof (t : AllocTable) (vector : ℕ) : ℕ :=
  if vector % 16 ≠ 0 then 0 else t.sizeofLoop (unitCount - (vector / 16 + 1)) (vector / 16 + 1) 16

end AllocTable

/-- The number of units of a block of `size` bytes. -/
def unitsFor (size : ℕ) : ℕ := max 1 ((size + 15) / 16)

theorem unitsFor_pos (size : ℕ) : 0 < unitsFor size := by
  unfold unitsFor
  omega

theorem roundUp_eq {size : ℕ} (small : size ≤ 16 * unitCount) : roundUp size = 16 * unitsFor size := by
  have : size ≤ 262144 := small
  unfold roundUp unitsFor
  split_ifs <;> omega

theorem unitsFor_mul (n : ℕ) (pos : 0 < n) : unitsFor (16 * n) = n := by
  unfold unitsFor
  omega

/-! ## The codes -/

/-- The code in one of the four slots of a byte. -/
def code (byte : BitVec 8) (slot : ℕ) : BitVec 8 := (byte &&& 3#8 <<< (slot * 2)) >>> (slot * 2)

theorem slot_masks : ∀ slot < 4, ∀ other < 4, ~~~(3#8 <<< (slot * 2)) &&& 3#8 <<< (other * 2) =
    if other = slot then 0 else 3#8 <<< (other * 2) := by
  decide

theorem code_shifted : ∀ ibits ∈ [0#8, 1#8, 3#8], ∀ slot < 4, ∀ other < 4,
    code (ibits <<< (slot * 2)) other = if other = slot then ibits else 0 := by
  decide

variable {ibits : BitVec 8}

theorem code_put (byte : BitVec 8) (known : ibits ∈ [0#8, 1#8, 3#8]) {slot other : ℕ}
    (slot_lt : slot < 4) (other_lt : other < 4) :
    code (byte &&& ~~~(3#8 <<< (slot * 2)) ||| ibits <<< (slot * 2)) other =
      if other = slot then ibits else code byte other := by
  have masks := slot_masks slot slot_lt other other_lt
  have shifted := code_shifted ibits known slot slot_lt other other_lt
  unfold code at *
  rw [BitVec.and_comm (_ ||| _), BitVec.and_or_distrib_left, BitVec.ushiftRight_or_distrib,
    BitVec.and_comm _ (ibits <<< (slot * 2)), shifted, BitVec.and_comm _ (byte &&& _),
    BitVec.and_assoc, masks]
  split_ifs <;> simp

theorem low_bit : ∀ byte : BitVec 8, ∀ slot < 4,
    (byte &&& 1#8 <<< (slot * 2) == 0#8) = (code byte slot &&& 1#8 == 0#8) := by
  decide +kernel

theorem not_free_of_mask : ∀ byte : BitVec 8, byte &&& 0x55#8 = 0x55#8 → ∀ slot < 4,
    (byte &&& 1#8 <<< (slot * 2) == 0#8) = false := by
  decide +kernel

namespace AllocTable

variable {t : AllocTable} {held : List Region} {r : Region}

theorem getBits_empty (u : ℕ) : empty.getBits u = 0 := by
  have zero : empty.byte (u / 4) = 0 := by
    unfold byte empty
    rw [getD_eq_getElem?_getD, getElem?_replicate]
    split_ifs <;> rfl
  rw [getBits, zero]
  simp

theorem getBits_setAllocation (t : AllocTable) {p : ℕ} (inside : p < unitCount) (ibits : BitVec 8)
    (known : ibits ∈ [0#8, 1#8, 3#8]) (u : ℕ) :
    (t.setAllocation p ibits).getBits u = if u = p then ibits else t.getBits u := by
  have slot : ∀ v, v % 4 < 4 := fun v => Nat.mod_lt v (by decide)
  have there : p / 4 < t.bits.length := by
    rw [t.length_bits]
    unfold unitCount at inside
    omega
  by_cases same : u / 4 = p / 4
  · -- the same byte: another slot keeps its code
    have byte : (t.setAllocation p ibits).byte (u / 4) =
        t.byte (p / 4) &&& ~~~(3#8 <<< (p % 4 * 2)) ||| ibits <<< (p % 4 * 2) := by
      unfold AllocTable.byte setAllocation
      rw [same, getD_eq_getElem?_getD, getD_eq_getElem?_getD, getElem?_modify_eq,
        getElem?_eq_getElem there]
      rfl
    have put := code_put (t.byte (p / 4)) known (slot p) (slot u)
    rw [show (t.setAllocation p ibits).getBits u =
      code ((t.setAllocation p ibits).byte (u / 4)) (u % 4) from rfl, byte, put,
      show t.getBits u = code (t.byte (u / 4)) (u % 4) from rfl, same]
    exact if_congr (by omega) rfl rfl
  · have byte : (t.setAllocation p ibits).byte (u / 4) = t.byte (u / 4) := by
      unfold AllocTable.byte setAllocation
      rw [getD_eq_getElem?_getD, getD_eq_getElem?_getD, getElem?_modify_ne _ _ (Ne.symm same)]
    rw [if_neg (fun h => same (by rw [h])), getBits, byte, getBits]

theorem getBits_foldl_setAllocation (known : ibits ∈ [0#8, 1#8, 3#8]) (t : AllocTable)
    (pos count : ℕ) (inside : pos + count ≤ unitCount) (u : ℕ) :
    ((range' pos count).foldl (fun t p => t.setAllocation p ibits) t).getBits u =
      if pos ≤ u ∧ u < pos + count then ibits else t.getBits u := by
  induction count generalizing pos t with
  | zero => rw [if_neg (by omega)]; rfl
  | succ count ih =>
    rw [range'_succ, foldl_cons, ih _ _ (by omega), getBits_setAllocation t (by omega) ibits known]
    split_ifs <;> first | rfl | omega

theorem getBits_mark (t : AllocTable) (pos count : ℕ) (pos_count : 0 < count)
    (inside : pos + count ≤ unitCount) (u : ℕ) :
    (t.mark pos count).getBits u =
      if u = pos then 3 else if pos < u ∧ u < pos + count then 1 else t.getBits u := by
  rw [mark, getBits_foldl_setAllocation (by simp) _ _ _ (by omega),
    getBits_setAllocation t (by omega) 3 (by simp)]
  split_ifs <;> first | rfl | omega

theorem isFree_eq (t : AllocTable) (u : ℕ) : t.isFree u = (t.getBits u &&& 1#8 == 0#8) :=
  low_bit _ _ (Nat.mod_lt u (by decide))

/-! ## The blocks of a table -/

def Used (t : AllocTable) (u : ℕ) : Prop := u < unitCount ∧ t.getBits u ≠ 0

instance (t : AllocTable) : DecidablePred t.Used := fun _ => inferInstanceAs (Decidable (_ ∧ _))

/-- The codes say that the table has the blocks `held`. -/
structure Holds (t : AllocTable) (held : List Region) : Prop where
  inside : ∀ r ∈ held, r.start + r.length ≤ unitCount
  regions : Regions (fun _ => False) t.Used held
  first : ∀ r ∈ held, t.getBits r.start = 3
  rest : ∀ r ∈ held, ∀ u ∈ r, u ≠ r.start → t.getBits u = 1

theorem holds_empty : empty.Holds [] where
  inside := by simp
  regions := by
    have unused : empty.Used = fun _ => False :=
      funext fun u => eq_false fun used => used.2 (getBits_empty u)
    rw [unused]
    exact .nil _
  first := by simp
  rest := by simp

namespace Holds

theorem perm {held' : List Region} (h : t.Holds held) (same : held.Perm held') : t.Holds held' where
  inside r mem := h.inside r (same.mem_iff.mpr mem)
  regions := h.regions.perm same
  first r mem := h.first r (same.mem_iff.mpr mem)
  rest r mem := h.rest r (same.mem_iff.mpr mem)

theorem isFree_iff (h : t.Holds held) {u : ℕ} (inside : u < unitCount) :
    t.isFree u = true ↔ ¬t.Used u := by
  rw [isFree_eq, Used, not_and, not_not, beq_iff_eq]
  constructor
  · intro low _
    by_contra used
    obtain bad | ⟨r, mem, here⟩ := (h.regions.used u).mp ⟨inside, used⟩
    · exact bad
    · by_cases first : u = r.start
      · rw [first, h.first r mem] at low
        exact absurd low (by decide)
      · rw [h.rest r mem u here first] at low
        exact absurd low (by decide)
  · intro zero
    rw [zero inside]
    rfl

/-- Behind a block there is a free unit or the start of another block. -/
theorem behind (h : t.Holds held) (mem : r ∈ held) (inside : r.start + r.length < unitCount) :
    t.getBits (r.start + r.length) = 0 ∨ t.getBits (r.start + r.length) = 3 := by
  by_contra neither
  obtain ⟨used, notFirst⟩ := not_or.mp neither
  obtain bad | ⟨r', mem', here⟩ := (h.regions.used _).mp ⟨inside, used⟩
  · exact bad
  · have notStart : r'.start ≠ r.start + r.length := fun same => notFirst (same ▸ h.first r' mem')
    have other : r ≠ r' := by
      rintro rfl
      rw [mem_def] at here
      omega
    -- the last unit of the block would be in both
    refine h.regions.apart.forall mem mem' other
      (r.start + r.length - 1) ?_ ?_
    · have := h.regions.nonempty r mem
      rw [mem_def]
      omega
    · rw [mem_def] at here ⊢
      omega

theorem mark (h : t.Holds held) (nonempty : 0 < r.length)
    (fits : r.Fits (t.isFree · = true) 0 unitCount) :
    (t.mark r.start r.length).Holds (r :: held) := by
  have inside := fits.upper
  have codes := getBits_mark t r.start r.length nonempty inside
  have unused : ∀ u ∈ r, ¬t.Used u := fun u mem => by
    rw [mem_def] at mem
    exact (h.isFree_iff (by omega)).mp (fits.free u mem)
  have kept : ∀ r' ∈ held, ∀ u ∈ r', (t.mark r.start r.length).getBits u = t.getBits u := by
    intro r' mem u here
    have outside : u ∉ r := fun there => unused u there ((h.regions.used u).mpr (.inr ⟨r', mem, here⟩))
    rw [mem_def] at outside
    rw [codes, if_neg (by omega), if_neg (by omega)]
  refine ⟨forall_mem_cons.mpr ⟨inside, h.inside⟩, h.regions.take nonempty unused fun u => ?_,
    forall_mem_cons.mpr ⟨by rw [codes, if_pos rfl], fun r' mem => ?_⟩,
    forall_mem_cons.mpr ⟨fun u here ne => ?_, fun r' mem u here ne => ?_⟩⟩
  · unfold Used
    rw [codes, mem_def]
    split_ifs with first rest
    · exact ⟨fun _ => .inr (by omega), fun _ => ⟨by omega, by decide⟩⟩
    · exact ⟨fun _ => .inr (by omega), fun _ => ⟨by omega, by decide⟩⟩
    · constructor
      · exact .inl
      · rintro (used | here)
        · exact used
        · omega
  · have := h.regions.nonempty r' mem
    rw [kept r' mem _ (by rw [mem_def]; omega)]
    exact h.first r' mem
  · rw [mem_def] at here
    rw [codes, if_neg ne, if_pos (by omega)]
  · rw [kept r' mem u here]
    exact h.rest r' mem u here ne

end Holds

/-! ## Looking for a run -/

section Search

variable {size : ℕ}

/-- What the search is left with: the first run of that many free units. -/
def Found (t : AllocTable) (size pos : ℕ) : Prop :=
  Region.Fits (t.isFree · = true) 0 unitCount ⟨pos, size⟩ ∧
    ∀ start < pos, ¬Region.Fits (t.isFree · = true) 0 unitCount ⟨start, size⟩

theorem searchByte_post {i count : ℕ} (below : i < 4096)
    (counting : Counting (t.isFree · = true) size 0 (4 * i) count) :
    Loop.Post (Counting (t.isFree · = true) size 0 (4 * (i + 1))) (t.Found size)
      (t.searchByte size i count) := by
  refine Loop.forRange_post (I := fun j => Counting (t.isFree · = true) size 0 (4 * i + j))
    (by omega) (fun j count _ turn counting => ?_) counting
  dsimp only
  split_ifs with free enough
  · obtain ⟨fits, first⟩ := counting.found free enough
    have end_le : 4 * i + j + 1 ≤ unitCount := by unfold unitCount; omega
    refine ⟨⟨fits.lower, fits.upper.trans end_le, fits.free⟩, fun start earlier fits' => ?_⟩
    refine first start earlier ⟨fits'.lower, ?_, fits'.free⟩
    have := fits.upper
    dsimp only at this ⊢
    omega
  · exact counting.succ free enough
  · exact counting.used free

theorem search_post (pos : 0 < size) :
    Loop.Post (fun _ => ∀ start, ¬Region.Fits (t.isFree · = true) 0 unitCount ⟨start, size⟩)
      (t.Found size) (t.search size) := by
  refine Loop.Post.mono (Loop.forRange_post
    (I := fun i => Counting (t.isFree · = true) size 0 (4 * i)) (by omega)
    (fun i count _ turn counting => ?_) (Counting.start _ _ pos)) fun _ counting => counting.none_yet
  split_ifs with some
  · exact searchByte_post turn counting
  · have taken : ∀ slot < 4, ¬(t.isFree (4 * i + slot) = true) := fun slot lt => by
      have := not_free_of_mask (t.byte i) (not_not.mp some) slot lt
      rw [isFree, show (4 * i + slot) / 4 = i by omega, show (4 * i + slot) % 4 = slot by omega, this]
      exact Bool.false_ne_true
    exact (((counting.used (taken 0 (by omega))).used (taken 1 (by omega))).used
      (taken 2 (by omega))).used (taken 3 (by omega))

end Search

theorem smAllocate_some {t' : AllocTable} {size pos : ℕ} (result : t.smAllocate size = some (t', pos)) :
    t.Found (unitsFor size) pos ∧ t' = t.mark pos (unitsFor size) := by
  unfold smAllocate at result
  split_ifs at result with large
  have units : roundUp size / 16 = unitsFor size := by
    rw [roundUp_eq (not_lt.mp large)]
    omega
  rw [units] at result
  have post := search_post (t := t) (unitsFor_pos size)
  cases outcome : t.search (unitsFor size) with
  | ok _ => rw [outcome] at result; cases result
  | error p =>
    rw [outcome] at result post
    obtain ⟨rfl, rfl⟩ := Prod.mk.inj (Option.some.inj result)
    exact ⟨post, rfl⟩

theorem smAllocate_none {size : ℕ} (small : size ≤ 16 * unitCount) (result : t.smAllocate size = none)
    (start : ℕ) : ¬Region.Fits (t.isFree · = true) 0 unitCount ⟨start, unitsFor size⟩ := by
  have units : roundUp size / 16 = unitsFor size := by
    rw [roundUp_eq small]
    omega
  unfold smAllocate at result
  rw [if_neg (not_lt.mpr small), units] at result
  have post := search_post (t := t) (unitsFor_pos size)
  cases outcome : t.search (unitsFor size) with
  | ok _ => rw [outcome] at post; exact post start
  | error p => rw [outcome] at result; cases result

/-! ## Returning a block -/

section Loops

variable {v stop : ℕ} (t : AllocTable) (size : ℕ) (le : v ≤ stop) (inside : stop ≤ unitCount)
  (one : ∀ u, v ≤ u → u < stop → t.getBits u = 1)
  (ends : stop < unitCount → t.getBits stop = 0 ∨ t.getBits stop = 3)
include le inside one ends

theorem freeLoop_spec :
    (freeLoop (unitCount - v) t v size).2 = size + 16 * (stop - v) ∧
      ∀ u, (freeLoop (unitCount - v) t v size).1.getBits u =
        if v ≤ u ∧ u < stop then 0 else t.getBits u := by
  induction turns : unitCount - v generalizing t v size with
  | zero =>
    rw [freeLoop]
    exact ⟨by dsimp only; omega, fun u => by rw [if_neg (by omega)]⟩
  | succ turns ih =>
    rw [freeLoop]
    by_cases last : v = stop
    · rw [if_pos (last ▸ ends (by omega))]
      exact ⟨by dsimp only; omega, fun u => by rw [if_neg (by omega)]⟩
    · have here := one v le_rfl (by omega)
      rw [if_neg (by rw [here]; decide)]
      have put := getBits_setAllocation t (p := v) (by omega) 0 (by simp)
      obtain ⟨total, codes⟩ := ih (v := v + 1) (t.setAllocation v 0) (size + 16) (by omega)
        (fun u lower upper => by rw [put, if_neg (by omega)]; exact one u (by omega) upper)
        (fun more => by rw [put, if_neg (by omega)]; exact ends more) (by omega)
      refine ⟨by omega, fun u => ?_⟩
      rw [codes, put]
      split_ifs <;> first | rfl | omega

theorem sizeofLoop_spec :
    t.sizeofLoop (unitCount - v) v size = size + 16 * (stop - v) := by
  induction turns : unitCount - v generalizing v size with
  | zero =>
    rw [sizeofLoop]
    omega
  | succ turns ih =>
    rw [sizeofLoop]
    by_cases last : v = stop
    · rw [if_pos (last ▸ ends (by omega))]
      omega
    · have here := one v le_rfl (by omega)
      rw [if_neg (by rw [here]; decide), ih (v := v + 1) (size + 16) (by omega)
        (fun u lower => one u (by omega)) (by omega)]
      omega

end Loops

namespace Holds

section

variable (h : t.Holds held) (mem : r ∈ held)

include h mem

theorem smSizeof_eq : t.smSizeof (16 * r.start) = 16 * r.length := by
  have nonempty := h.regions.nonempty r mem
  have spec := sizeofLoop_spec (v := r.start + 1) t 16 (by omega) (h.inside r mem)
    (fun u lower upper => h.rest r mem u ⟨by omega, upper⟩ (by omega)) (h.behind mem)
  rw [smSizeof, if_neg (by omega), Nat.mul_div_cancel_left _ (by decide), spec]
  omega

theorem smFree_spec :
    (t.smFree (16 * r.start)).2 = 16 * r.length ∧
      ∀ u, (t.smFree (16 * r.start)).1.getBits u = if u ∈ r then 0 else t.getBits u := by
  have nonempty := h.regions.nonempty r mem
  have inside := h.inside r mem
  have put := getBits_setAllocation t (p := r.start) (by omega) 0 (by simp)
  obtain ⟨total, codes⟩ := freeLoop_spec (v := r.start + 1) (t.setAllocation r.start 0) 16
    (by omega) inside
    (fun u lower upper => by
      rw [put, if_neg (by omega)]
      exact h.rest r mem u ⟨by omega, upper⟩ (by omega))
    (fun more => by rw [put, if_neg (by omega)]; exact h.behind mem more)
  rw [smFree, if_neg (by omega), Nat.mul_div_cancel_left _ (by decide)]
  refine ⟨by omega, fun u => ?_⟩
  rw [codes, put]
  simp only [mem_def]
  split_ifs <;> first | rfl | omega

theorem used_smFree (u : ℕ) : (t.smFree (16 * r.start)).1.Used u ↔ t.Used u ∧ u ∉ r := by
  unfold Used
  rw [(h.smFree_spec mem).2]
  split_ifs with here
  · exact ⟨fun used => absurd rfl used.2, fun used => absurd here used.2⟩
  · exact ⟨fun used => ⟨used, here⟩, And.left⟩

end

theorem smFree (h : t.Holds (r :: held)) : (t.smFree (16 * r.start)).1.Holds held := by
  have codes := (h.smFree_spec mem_cons_self).2
  have kept : ∀ r' ∈ held, ∀ u ∈ r', (t.smFree (16 * r.start)).1.getBits u = t.getBits u := by
    intro r' mem u here
    rw [codes, if_neg fun there => (pairwise_cons.mp h.regions.apart).1 r' mem u there here]
  refine ⟨(forall_mem_cons.mp h.inside).2,
    h.regions.put (h.used_smFree mem_cons_self), fun r' mem => ?_, fun r' mem u here ne => ?_⟩
  · have := (forall_mem_cons.mp h.regions.nonempty).2 r' mem
    rw [kept r' mem _ (by rw [mem_def]; omega)]
    exact (forall_mem_cons.mp h.first).2 r' mem
  · rw [kept r' mem u here]
    exact (forall_mem_cons.mp h.rest).2 r' mem u here ne

end Holds

end AllocTable

end JeoKernel.Heap
