import Mathlib.Data.List.TakeWhile
import JeoKernel.Exec.Mmap

/-!
# The search for free pages

`FindFree`, `FindFreeStart` and `IsFree`.  The areas that the search builds from the mappings leave
the same places clear as the mappings do.  A mapping without pages is an area too: it cuts the gap
that it lies in.
-/

namespace JeoKernel.AddressSpace

open List MemoryArea

def findFreeStart (mappings : List MemMapping) (pages : ℕ) : ℕ :=
  match leastArea (·.start) (findFreeMemoryAreas mappings) pages with
  | none => 0
  | some a => a.start

def isFree (mappings : List MemMapping) (pagenum pages : ℕ) : Bool :=
  mappings.all fun m =>
    !(⟨pagenum, wrap32 (pagenum + pages)⟩ : MemoryArea).overlaps ⟨m.pagenum, m.ending⟩

/-! ## What the search should do -/

/-- A page of the range is mapped. -/
def MemMapping.Meets (m : MemMapping) (pagenum pages : ℕ) : Prop :=
  ∃ page, m.Contains page ∧ pagenum ≤ page ∧ page < pagenum + pages

structure FreePlace (ms : List MemMapping) (pages s : ℕ) : Prop where
  low : lowLim ≤ s
  high : s + pages ≤ highLim
  free : ∀ m ∈ ms, ¬m.Meets s pages

/-- The two searches answer with free places, the second one with the lowest, or there is none. -/
structure Finds (ms : List MemMapping) (pages : ℕ) : Prop where
  sound : findFree ms pages = 0 ∨ FreePlace ms pages (findFree ms pages)
  complete : findFree ms pages = 0 → ∀ s, ¬FreePlace ms pages s
  soundStart : findFreeStart ms pages = 0 ∨ FreePlace ms pages (findFreeStart ms pages)
  completeStart : findFreeStart ms pages = 0 → ∀ s, ¬FreePlace ms pages s
  least : ∀ s, FreePlace ms pages s → findFreeStart ms pages ≤ s

/-- No mapping without pages lies strictly inside of the place. -/
def Uncut (ms : List MemMapping) (pages s : ℕ) : Prop :=
  ∀ m ∈ ms, m.pages = 0 → m.pagenum ≤ s ∨ s + pages ≤ m.pagenum

variable {areas : List MemoryArea} {a b : MemoryArea} {ms : List MemMapping} {m : MemMapping}
  {s n : ℕ}

/-! ## The areas -/

/-- The range from `s` on lies before the area or behind it. -/
def MemoryArea.Clear (a : MemoryArea) (s n : ℕ) : Prop := a.ending ≤ s ∨ s + n ≤ a.start

def MemoryArea.Valid (a : MemoryArea) : Prop := a.start ≤ a.ending ∧ a.ending < 2 ^ 32

theorem MemoryArea.Valid.length_eq (valid : a.Valid) : a.length = a.ending - a.start := by
  unfold length wrap32
  have := valid.1
  have := valid.2
  omega

theorem MemoryArea.Valid.combine (valid : a.Valid) (valid' : b.Valid) : (a.combine b).Valid := by
  obtain ⟨⟨_, _⟩, _, _⟩ := And.intro valid valid'
  unfold MemoryArea.combine MemoryArea.Valid
  dsimp only
  split_ifs <;> omega

theorem clear_combine (valid : a.Valid) (valid' : b.Valid) (overlaps : a.overlaps b) (pos : 0 < n) :
    (a.combine b).Clear s n ↔ a.Clear s n ∧ b.Clear s n := by
  have small := (decide_eq_true_eq.mp overlaps).trans_le (Nat.mod_le _ _)
  rw [(valid.combine valid').length_eq, valid.length_eq, valid'.length_eq] at small
  unfold combine at *
  unfold MemoryArea.Clear
  dsimp only at *
  split_ifs at * <;> omega

/-- What the list of areas built from some mappings keeps. -/
structure Areas (areas : List MemoryArea) : Prop where
  valid : ∀ a ∈ areas, a.Valid
  sorted : areas.Pairwise (·.start ≤ ·.start)

theorem mergeArea_fold (valid : ∀ a ∈ areas, a.Valid) {l : List MemoryArea} (valid' : b.Valid) :
    ∃ kept c, areas.foldl mergeArea (l, b) = (l ++ kept, c) ∧ kept.Sublist areas ∧ c.Valid ∧
      ∀ s n, 0 < n → ((∀ a ∈ kept, a.Clear s n) ∧ c.Clear s n ↔
        (∀ a ∈ areas, a.Clear s n) ∧ b.Clear s n) := by
  induction areas generalizing l b with
  | nil => exact ⟨[], b, by simp, .slnil, valid', by simp⟩
  | cons a areas ih =>
    obtain ⟨here, rest⟩ := forall_mem_cons.mp valid
    rw [foldl_cons, mergeArea]
    split_ifs with overlaps
    · obtain ⟨kept, c, fold, sub, valid_c, clear⟩ := ih (l := l) rest (here.combine valid')
      refine ⟨kept, c, fold, sub.cons a, valid_c, fun s n pos => ?_⟩
      rw [clear s n pos, clear_combine here valid' overlaps pos, forall_mem_cons]
      tauto
    · obtain ⟨kept, c, fold, sub, valid_c, clear⟩ := ih (l := l ++ [a]) rest valid'
      refine ⟨a :: kept, c, by simpa using fold, sub.cons_cons a, valid_c, fun s n pos => ?_⟩
      have := clear s n pos
      rw [forall_mem_cons, forall_mem_cons]
      tauto

theorem pairwise_insert {c : MemoryArea} (sorted : areas.Pairwise (·.start ≤ ·.start)) :
    (areas.takeWhile (·.start ≤ c.start) ++ c :: areas.dropWhile (·.start ≤ c.start)).Pairwise
      (·.start ≤ ·.start) := by
  induction areas with
  | nil => simp
  | cons a areas ih =>
    obtain ⟨first, rest⟩ := pairwise_cons.mp sorted
    by_cases before : a.start ≤ c.start
    · rw [takeWhile_cons_of_pos (by simpa using before),
        dropWhile_cons_of_pos (by simpa using before)]
      refine pairwise_cons.mpr ⟨fun d mem => ?_, ih rest⟩
      rcases mem_append.mp mem with mem | mem
      · exact first d (takeWhile_subset _ mem)
      · rcases mem_cons.mp mem with rfl | mem
        · exact before
        · exact first d (dropWhile_subset _ mem)
    · rw [takeWhile_cons_of_neg (by simpa using before),
        dropWhile_cons_of_neg (by simpa using before)]
      refine pairwise_cons.mpr ⟨forall_mem_cons.mpr ⟨by omega, fun d mem => ?_⟩, sorted⟩
      have := first d mem
      omega

theorem Areas.insertArea (inv : Areas areas) (valid : b.Valid) :
    Areas (insertArea areas b) ∧ ∀ s n, 0 < n →
      ((∀ a ∈ AddressSpace.insertArea areas b, a.Clear s n) ↔
        (∀ a ∈ areas, a.Clear s n) ∧ b.Clear s n) := by
  obtain ⟨kept, c, fold, sub, valid_c, clear⟩ := mergeArea_fold (l := []) inv.valid valid
  unfold AddressSpace.insertArea
  rw [fold, nil_append]
  have perm : (kept.takeWhile (·.start ≤ c.start) ++ c :: kept.dropWhile (·.start ≤ c.start)).Perm
      (c :: kept) := by
    conv_rhs => rw [← takeWhile_append_dropWhile (p := (·.start ≤ c.start)) (l := kept)]
    exact perm_middle
  refine ⟨⟨fun a mem => ?_, pairwise_insert (inv.sorted.sublist sub)⟩, fun s n pos => ?_⟩
  · rcases mem_cons.mp (perm.subset mem) with rfl | mem
    · exact valid_c
    · exact inv.valid a (sub.subset mem)
  · rw [← clear s n pos]
    simp only [perm.mem_iff, forall_mem_cons, and_comm]

theorem areas_mappings (below : ∀ m ∈ ms, m.pagenum + m.pages < 2 ^ 32) :
    Areas (ms.foldl (fun areas m => insertArea areas ⟨m.pagenum, m.ending⟩) []) ∧
      ∀ s n, 0 < n →
        ((∀ a ∈ ms.foldl (fun areas m => insertArea areas ⟨m.pagenum, m.ending⟩) [], a.Clear s n) ↔
          ∀ m ∈ ms, m.pagenum + m.pages ≤ s ∨ s + n ≤ m.pagenum) := by
  induction ms using List.reverseRecOn with
  | nil => exact ⟨⟨by simp, .nil⟩, by simp⟩
  | append_singleton ms m ih =>
    obtain ⟨earlier, last⟩ := forall_mem_append.mp below
    obtain ⟨inv, clear⟩ := ih earlier
    have here := forall_mem_singleton.mp last
    have valid : (⟨m.pagenum, m.ending⟩ : MemoryArea).Valid := by
      rw [ending_eq here]
      exact ⟨by simp, here⟩
    rw [foldl_append]
    refine ⟨(inv.insertArea valid).1, fun s n pos => ?_⟩
    rw [forall_mem_append, forall_mem_singleton, ← clear s n pos]
    refine ((inv.insertArea valid).2 s n pos).trans (and_congr_right fun _ => ?_)
    rw [MemoryArea.Clear, ending_eq here]

/-! ## The gaps -/

theorem gaps_iff {start : ℕ} (inv : Areas areas) (pos : 0 < n) :
    (∃ g ∈ gaps areas start, g.start ≤ s ∧ s + n ≤ g.ending) ↔
      start ≤ s ∧ s + n ≤ highLim ∧ ∀ a ∈ areas, a.Clear s n := by
  induction areas generalizing start with
  | nil =>
    unfold gaps
    split_ifs with room
    · simp
    · simp only [not_mem_nil, false_and, exists_false, false_iff]
      omega
  | cons a areas ih =>
    obtain ⟨first, sorted⟩ := pairwise_cons.mp inv.sorted
    obtain ⟨⟨order, word⟩, valid⟩ := forall_mem_cons.mp inv.valid
    have top : highLim = 2 ^ 32 - 1 := rfl
    rw [gaps, forall_mem_cons]
    simp only [mem_append, or_and_right, exists_or, ih ⟨valid, sorted⟩]
    constructor
    · rintro (⟨g, mem, low, high⟩ | ⟨low, high, clear⟩)
      · split_ifs at mem
        · obtain rfl := mem_singleton.mp mem
          dsimp only at low high
          exact ⟨low, by omega, .inr high, fun b mem => .inr (high.trans (first b mem))⟩
        · simp at mem
      · refine ⟨?_, high, .inl ?_, clear⟩ <;> split_ifs at low <;> omega
    · rintro ⟨low, high, here, clear⟩
      rcases here with before | behind
      · refine .inr ⟨?_, high, clear⟩
        split_ifs <;> omega
      · refine .inl ⟨⟨start, a.start⟩, ?_, low, behind⟩
        rw [if_pos (by omega)]
        exact mem_singleton_self _

theorem freePlace_iff (below : ∀ m ∈ ms, m.pagenum + m.pages < 2 ^ 32) (pos : 0 < n) :
    FreePlace ms n s ∧ Uncut ms n s ↔
      ∃ g ∈ findFreeMemoryAreas ms, g.start ≤ s ∧ s + n ≤ g.ending := by
  obtain ⟨inv, clear⟩ := areas_mappings below
  rw [findFreeMemoryAreas, gaps_iff inv pos, clear s n pos]
  constructor
  · rintro ⟨⟨low, high, free⟩, uncut⟩
    refine ⟨low, high, fun m mem => ?_⟩
    by_contra meets
    rcases Nat.eq_zero_or_pos m.pages with empty | some
    · have := uncut m mem empty
      omega
    · exact free m mem ⟨max s m.pagenum, ⟨by omega, by omega⟩, by omega, by omega⟩
  · rintro ⟨low, high, clear⟩
    refine ⟨⟨low, high, fun m mem => ?_⟩, fun m mem empty => ?_⟩
    · rintro ⟨page, ⟨_, _⟩, _, _⟩
      have := clear m mem
      omega
    · have := clear m mem
      omega

/-! ## The searches -/

section

variable (below : ∀ m ∈ ms, m.pagenum + m.pages < 2 ^ 32) (pos : 0 < n)

include below pos

theorem findFree_spec : (findFree ms n = 0 ∧ ∀ s, ¬(FreePlace ms n s ∧ Uncut ms n s)) ∨
    (FreePlace ms n (findFree ms n) ∧ Uncut ms n (findFree ms n)) := by
  simp only [freePlace_iff below pos, findFree]
  rcases leastArea_spec (fun a => a.ending - a.start) (findFreeMemoryAreas ms) n with
    ⟨none, small⟩ | ⟨b, some, mem, room, -⟩
  · refine .inl ⟨by rw [show smallestArea _ n = .none from none], fun s ⟨g, mem, low, high⟩ => ?_⟩
    have := small g mem
    omega
  · rw [show smallestArea _ n = .some b from some]
    exact .inr ⟨b, mem, by dsimp only; omega, by dsimp only; omega⟩

theorem findFreeStart_spec :
    (findFreeStart ms n = 0 ∧ ∀ s, ¬(FreePlace ms n s ∧ Uncut ms n s)) ∨
    ((FreePlace ms n (findFreeStart ms n) ∧ Uncut ms n (findFreeStart ms n)) ∧
      ∀ s, FreePlace ms n s ∧ Uncut ms n s → findFreeStart ms n ≤ s) := by
  simp only [freePlace_iff below pos, findFreeStart]
  rcases leastArea_spec (·.start) (findFreeMemoryAreas ms) n with
    ⟨none, small⟩ | ⟨b, some, mem, room, least⟩
  · refine .inl ⟨by rw [none], fun s ⟨g, mem, low, high⟩ => ?_⟩
    have := small g mem
    omega
  · rw [some]
    refine .inr ⟨⟨b, mem, le_rfl, by dsimp only; omega⟩, fun s ⟨g, mem, low, high⟩ => ?_⟩
    exact (least g mem (by omega)).trans low

theorem finds_iff :
    Finds ms n ↔ ∀ s, FreePlace ms n s → ∃ s' ≤ s, FreePlace ms n s' ∧ Uncut ms n s' := by
  have nonzero : ∀ {s}, FreePlace ms n s → s ≠ 0 := fun place zero => by
    have low := place.low
    rw [zero] at low
    exact absurd low (by decide)
  constructor
  · intro finds s place
    rcases findFreeStart_spec below pos with ⟨zero, -⟩ | ⟨⟨found, uncut⟩, -⟩
    · exact absurd place (finds.completeStart zero s)
    · exact ⟨_, finds.least s place, found, uncut⟩
  · intro uncuts
    have none : (∀ s, ¬(FreePlace ms n s ∧ Uncut ms n s)) → ∀ s, ¬FreePlace ms n s :=
      fun none s place => by
        obtain ⟨s', -, both⟩ := uncuts s place
        exact none s' both
    rcases findFree_spec below pos with ⟨zero, empty⟩ | ⟨found, -⟩
    · rcases findFreeStart_spec below pos with ⟨zero', -⟩ | ⟨place', -⟩
      · exact ⟨.inl zero, fun _ => none empty, .inl zero', fun _ => none empty,
          fun s place => absurd place (none empty s)⟩
      · exact absurd place' (empty _)
    · rcases findFreeStart_spec below pos with ⟨-, empty⟩ | ⟨⟨found', -⟩, least⟩
      · exact absurd found (none empty _)
      · refine ⟨.inr found, fun zero => absurd zero (nonzero found), .inr found',
          fun zero => absurd zero (nonzero found'), fun s place => ?_⟩
        obtain ⟨s', le, place'⟩ := uncuts s place
        exact (least s' place').trans le

end

/-! ## IsFree -/

variable {pagenum pages : ℕ}

theorem overlaps_mapping (below : m.pagenum + m.pages < 2 ^ 32) (low : pagenum < 2 ^ 32)
    (small : pages < 2 ^ 32) :
    (⟨pagenum, wrap32 (pagenum + pages)⟩ : MemoryArea).overlaps ⟨m.pagenum, m.ending⟩ ↔
      pages + m.pages < 2 ^ 32 ∧ (m.Meets pagenum pages ∨ 2 ^ 32 ≤ pagenum + pages) := by
  have meets : m.Meets pagenum pages ↔
      max m.pagenum pagenum < min (m.pagenum + m.pages) (pagenum + pages) := by
    constructor
    · rintro ⟨page, ⟨_, _⟩, _, _⟩
      omega
    · intro lt
      exact ⟨max m.pagenum pagenum, ⟨by omega, by omega⟩, by omega, by omega⟩
  rw [meets, overlaps, decide_eq_true_eq, ending_eq below]
  unfold MemoryArea.length combine wrap32
  dsimp only
  split_ifs <;> omega

theorem isFree_iff (below : ∀ m ∈ ms, m.pagenum + m.pages < 2 ^ 32) (low : pagenum < 2 ^ 32)
    (small : pages < 2 ^ 32) : isFree ms pagenum pages ↔ ∀ m ∈ ms,
      ¬(pages + m.pages < 2 ^ 32 ∧ (m.Meets pagenum pages ∨ 2 ^ 32 ≤ pagenum + pages)) := by
  rw [isFree, all_eq_true]
  refine forall₂_congr fun m mem => ?_
  rw [← overlaps_mapping (below m mem) low small, Bool.not_eq_true', Bool.not_eq_true]

/-- The searches are right where the lowest free place is not cut by a mapping without pages, and
`IsFree` is right where the sum of two lengths does not wrap around. -/
theorem findsFree_iff (below : ∀ m ∈ ms, m.pagenum + m.pages < 2 ^ 32) (pos : 0 < n)
    (low : pagenum < 2 ^ 32) (small : pages < 2 ^ 32) :
    Finds ms n ∧ (isFree ms pagenum pages ↔ ∀ m ∈ ms, ¬m.Meets pagenum pages) ↔
      (∀ s, FreePlace ms n s → ∃ s' ≤ s, FreePlace ms n s' ∧ Uncut ms n s') ∧
      (pagenum + pages < 2 ^ 32 → (∃ m ∈ ms, m.Meets pagenum pages) →
        ∃ m ∈ ms, m.Meets pagenum pages ∧ pages + m.pages < 2 ^ 32) ∧
      (2 ^ 32 ≤ pagenum + pages →
        ((∃ m ∈ ms, pages + m.pages < 2 ^ 32) ↔ ∃ m ∈ ms, m.Meets pagenum pages)) := by
  rw [finds_iff below pos, isFree_iff below low small]
  refine and_congr_right' ?_
  by_cases wraps : 2 ^ 32 ≤ pagenum + pages
  · simp only [wraps, not_lt.mpr wraps, or_true, and_true, false_imp_iff, true_imp_iff, true_and]
    rw [← not_iff_not (a := ∃ m ∈ ms, _)]
    simp only [not_exists, not_and]
  · simp only [wraps, not_le.mp wraps, or_false, false_imp_iff, true_imp_iff, and_true]
    constructor
    · rintro told ⟨m, mem, meets⟩
      by_contra none
      exact told.mp (fun m mem short => none ⟨m, mem, short.2, short.1⟩) m mem meets
    · refine fun told => ⟨fun free m mem meets => ?_, fun free m mem short => free m mem short.2⟩
      obtain ⟨m, mem, meets, short⟩ := told ⟨m, mem, meets⟩
      exact free m mem ⟨short, meets⟩

theorem findsFree_adjacent :
    let ms := [⟨none, 2 ^ 31 + 4, 2, 0, 0, true, false, false, []⟩,
      (⟨none, 2 ^ 31, 4, 0, 0, true, false, false, []⟩ : MemMapping)]
    Finds ms 3 ∧ (isFree ms (2 ^ 31 + 6) 8 ↔ ∀ m ∈ ms, ¬m.Meets (2 ^ 31 + 6) 8) := by
  refine (findsFree_iff (by decide) (by decide) (by decide) (by decide)).mpr
    ⟨fun s place => ⟨s, le_rfl, place, by simp [Uncut]⟩, ?_, by simp⟩
  simp

/-- A mapping without pages hides the free pages around it, and two long ranges are not seen to
meet. -/
theorem not_findsFree :
    let empty : MemMapping := ⟨none, 3 * 2 ^ 30, 0, 0, 0, true, false, false, []⟩
    let long : MemMapping := ⟨none, 0, 2 ^ 31, 0, 0, true, false, false, []⟩
    (findFree [empty] (2 ^ 30 + 1) = 0 ∧ findFreeStart [empty] (2 ^ 30 + 1) = 0 ∧
      FreePlace [empty] (2 ^ 30 + 1) (2 ^ 31)) ∧
    isFree [long] 0 (2 ^ 31) ∧ long.Meets 0 (2 ^ 31) := by
  refine ⟨⟨by decide +kernel, by decide +kernel, by decide, by decide, ?_⟩, by decide +kernel, 0,
    by decide, by decide, by decide⟩
  rintro m mem ⟨page, ⟨first, last⟩, -⟩
  obtain rfl := mem_singleton.mp mem
  exact absurd (first.trans_lt last) (lt_irrefl _)

end JeoKernel.AddressSpace
