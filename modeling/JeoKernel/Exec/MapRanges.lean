import Mathlib.Data.List.Nodup
import JeoKernel.Exec.Tables
import JeoKernel.Lib.Machine

/-!
# The ranges of the mappings

`Map`, `ClearRange`, `Protect` and `brk` split, shrink, extend and append ranges.  As long as no
range ends at or above page 2^32 the sums of the source are exact, and the ranges stay disjoint.
-/

namespace JeoKernel.AddressSpace

open List Loop Machine MemMapping Process

/-- The page lies in the range of the mapping, as a range of numbers. -/
def MemMapping.Contains (m : MemMapping) (page : ℕ) : Prop :=
  m.pagenum ≤ page ∧ page < m.pagenum + m.pages

instance (m : MemMapping) (page : ℕ) : Decidable (m.Contains page) :=
  inferInstanceAs (Decidable (_ ∧ _))

def MemMapping.Apart (m m' : MemMapping) : Prop := ∀ page, m.Contains page → ¬m'.Contains page

structure RangesOk (mappings : List MemMapping) : Prop where
  below : ∀ m ∈ mappings, m.pagenum + m.pages ≤ 2 ^ 32
  apart : mappings.Pairwise MemMapping.Apart
  inside : ∀ m ∈ mappings, ∀ h ∈ m.mappings, m.Contains h.page
  single : ((mappings.flatMap (·.mappings)).map (·.page)).Nodup

/-! ## Calls -/

section

variable [TableMemory]

/-- The calls with the arguments that the system calls pass, and the answers of the allocator of
page tables. -/
inductive Action where
  | mapImage (grants : Grants) (image : Option ℕ) (pagenum pages imageSkipPages : UInt32)
      (load : UInt16) (write execute copyOnWrite binaryMap : Bool)
  | map (grants : Grants) (pagenum pages : UInt32) (binaryMap : Bool)
  | clearRange (pagenum pages : UInt32)
  | protect (grants : Grants) (pagenum pages : UInt32) (prot : Prot)
  | brk (grants : Grants) (brkAddr : Int64)

def exec (p : Process) : Action → Option Process
  | .mapImage grants image pagenum pages imageSkipPages load write execute copyOnWrite binaryMap =>
    some (p.mapImage grants image pagenum.toNat pages.toNat imageSkipPages.toNat load.toNat
      write execute copyOnWrite binaryMap).2
  | .map grants pagenum pages binaryMap => some (p.map grants pagenum.toNat pages.toNat binaryMap).2
  | .clearRange pagenum pages => some (p.clearRange pagenum.toNat pages.toNat)
  | .protect grants pagenum pages prot => some (p.protect grants pagenum.toNat pages.toNat prot).2
  | .brk grants brkAddr => some (p.brk grants brkAddr.toInt).process

/-- A new range ends below page 2^32, and so does the break. -/
def EndsBelow (_ : Process) : Action → Prop
  | .mapImage _ _ pagenum pages .. | .map _ pagenum pages _ => pagenum.toNat + pages.toNat < 2 ^ 32
  | .brk _ brkAddr => brkAddr.toInt ≤ (2 ^ 32 - 1) * 4096
  | .clearRange .. | .protect .. => True

end

/-! ## Mappings that are apart -/

/-- A mapping whose end does not wrap around, with its records in its range. -/
structure MemMapping.Fits (m : MemMapping) : Prop where
  below : m.pagenum + m.pages < 2 ^ 32
  inside : ∀ h ∈ m.mappings, m.Contains h.page

structure Separate (mappings : List MemMapping) : Prop where
  fits : ∀ m ∈ mappings, m.Fits
  apart : mappings.Pairwise MemMapping.Apart

def Single (mappings : List MemMapping) : Prop :=
  ∀ m ∈ mappings, (m.mappings.map (·.page)).Nodup

variable {m m' x : MemMapping} {ms ms' : List MemMapping} {pagenum pages page i : ℕ}

theorem MemMapping.Apart.symm (h : m.Apart m') : m'.Apart m := fun page inside' inside =>
  h page inside inside'

theorem separate_nil : Separate [] := ⟨by simp, .nil⟩

theorem separate_cons : Separate (m :: ms) ↔ m.Fits ∧ (∀ m' ∈ ms, m.Apart m') ∧ Separate ms := by
  constructor
  · rintro ⟨fits, apart⟩
    obtain ⟨first, rest⟩ := pairwise_cons.mp apart
    exact ⟨fits m mem_cons_self, first, fun m mem => fits m (mem_cons_of_mem _ mem), rest⟩
  · rintro ⟨here, first, fits, rest⟩
    exact ⟨forall_mem_cons.mpr ⟨here, fits⟩, pairwise_cons.mpr ⟨first, rest⟩⟩

theorem Separate.perm (h : Separate ms) (same : ms.Perm ms') : Separate ms' :=
  ⟨fun m mem => h.fits m (same.mem_iff.mpr mem), same.pairwise h.apart MemMapping.Apart.symm⟩

theorem separate_middle : Separate (ms ++ m :: ms') ↔
    m.Fits ∧ (∀ m' ∈ ms ++ ms', m.Apart m') ∧ Separate (ms ++ ms') := by
  rw [← separate_cons]
  exact ⟨fun h => h.perm perm_middle, fun h => h.perm perm_middle.symm⟩

theorem Separate.append (h : Separate ms) (h' : Separate ms')
    (apart : ∀ m ∈ ms, ∀ m' ∈ ms', m.Apart m') : Separate (ms ++ ms') :=
  ⟨forall_mem_append.mpr ⟨h.fits, h'.fits⟩, pairwise_append.mpr ⟨h.apart, h'.apart, apart⟩⟩

theorem set_split (at_i : ms[i]? = some m) :
    ∃ l l', ms = l ++ m :: l' ∧ ∀ x, ms.set i x = l ++ x :: l' := by
  obtain ⟨bound, rfl⟩ := List.getElem?_eq_some_iff.mp at_i
  refine ⟨ms.take i, ms.drop (i + 1), ?_, fun x => ?_⟩
  · rw [List.getElem_cons_drop, List.take_append_drop]
  · rw [set_eq_take_append_cons_drop, if_pos bound]

theorem Separate.set (h : Separate ms) (at_i : ms[i]? = some m) (fits : x.Fits)
    (apart : ∀ m' ∈ ms, m.Apart m' → x.Apart m') : Separate (ms.set i x) := by
  obtain ⟨l, l', split, set⟩ := set_split at_i
  obtain ⟨-, others, rest⟩ := separate_middle.mp (split ▸ h)
  rw [set]
  refine separate_middle.mpr ⟨fits, fun m' mem => apart m' ?_ (others m' mem), rest⟩
  rw [split]
  simp only [mem_append, mem_cons] at mem ⊢
  tauto

theorem Separate.rangesOk (h : Separate ms) (single : Single ms) : RangesOk ms := by
  refine ⟨fun m mem => (h.fits m mem).below.le, h.apart, fun m mem => (h.fits m mem).inside, ?_⟩
  induction ms with
  | nil => exact nodup_nil
  | cons m ms ih =>
    obtain ⟨fits, apart, rest⟩ := separate_cons.mp h
    obtain ⟨here, singles⟩ := forall_mem_cons.mp single
    rw [flatMap_cons, map_append, nodup_append]
    refine ⟨here, ih rest singles, ?_⟩
    rintro _ here _ there rfl
    obtain ⟨a, mem, rfl⟩ := mem_map.mp here
    obtain ⟨b, mem', same⟩ := mem_map.mp there
    obtain ⟨m', inRest, mem'⟩ := mem_flatMap.mp mem'
    exact apart m' inRest a.page (fits.inside a mem) (same ▸ (rest.fits m' inRest).inside b mem')

/-! ## Mappings cut into parts -/

/-- The range of `x` is part of that of `m`, of the same image, and its records are those of `m` in
that range. -/
structure Part (m x : MemMapping) : Prop where
  low : m.pagenum ≤ x.pagenum
  high : x.pagenum + x.pages ≤ m.pagenum + m.pages
  image : x.image = m.image
  records : x.mappings = m.mappings.filter fun h => x.Contains h.page

theorem Part.refl (fits : m.Fits) : Part m m := by
  refine ⟨le_rfl, le_rfl, rfl, (filter_eq_self.mpr fun h mem => ?_).symm⟩
  exact decide_eq_true (fits.inside h mem)

theorem Part.contains (h : Part m x) (inside : x.Contains page) :
    m.Contains page :=
  ⟨h.low.trans inside.1, inside.2.trans_le h.high⟩

theorem Part.sublist (h : Part m x) : x.mappings.Sublist m.mappings :=
  h.records ▸ filter_sublist

variable {y : MemMapping}

theorem Part.trans (h : Part m x) (h' : Part x y) : Part m y := by
  refine ⟨h.low.trans h'.low, h'.high.trans h.high, h'.image.trans h.image, ?_⟩
  rw [h'.records, h.records, filter_filter]
  refine filter_congr fun r _ => ?_
  have outer : y.Contains r.page → x.Contains r.page := h'.contains
  by_cases inside : y.Contains r.page <;> simp [inside, outer]

theorem Part.fits (h : Part m x) (fits : m.Fits) : x.Fits := by
  refine ⟨h.high.trans_lt fits.below, fun r mem => ?_⟩
  rw [h.records] at mem
  exact of_decide_eq_true (mem_filter.mp mem).2

theorem apart_of_le (le : x.pagenum + x.pages ≤ y.pagenum) : x.Apart y :=
  fun _ inside inside' => absurd (inside.2.trans_le le) (not_lt.mpr inside'.1)

structure PartsOf (m : MemMapping) (parts : List MemMapping) : Prop where
  part : ∀ x ∈ parts, Part m x
  apart : parts.Pairwise MemMapping.Apart

theorem PartsOf.nil : PartsOf m [] := ⟨by simp, .nil⟩

theorem PartsOf.one (h : Part m x) : PartsOf m [x] := ⟨by simpa, by simp⟩

/-- Each mapping is replaced by parts of it, some in its place and some behind all others. -/
inductive Cut : List MemMapping → List MemMapping → List MemMapping → Prop
  | nil : Cut [] [] []
  | cons {m ms kept new} (here later : List MemMapping) :
      PartsOf m (here ++ later) → Cut ms kept new → Cut (m :: ms) (here ++ kept) (later ++ new)

variable {kept new : List MemMapping}

theorem Cut.contains (cut : Cut ms kept new) :
    ∀ x ∈ kept ++ new, ∃ m ∈ ms, Part m x := by
  induction cut with
  | nil => simp
  | @cons m ms kept new here later parts _ ih =>
    intro x mem
    have split : x ∈ here ++ later ∨ x ∈ kept ++ new := by
      simp only [mem_append] at mem ⊢
      tauto
    rcases split with part | other
    · exact ⟨m, mem_cons_self, parts.part x part⟩
    · obtain ⟨m', mem', part⟩ := ih x other
      exact ⟨m', mem_cons_of_mem _ mem', part⟩

theorem Cut.separate (cut : Cut ms kept new) (h : Separate ms) :
    Separate (kept ++ new) := by
  induction cut with
  | nil => exact separate_nil
  | @cons m ms kept new here later parts cut ih =>
    obtain ⟨fits, apart, rest⟩ := separate_cons.mp h
    have whole : Separate (here ++ later) :=
      ⟨fun x mem => (parts.part x mem).fits fits, parts.apart⟩
    refine (whole.append (ih rest) ?_).perm ?_
    · intro x mem y mem' page inside inside'
      obtain ⟨m', inRest, part⟩ := cut.contains y mem'
      exact apart m' inRest page ((parts.part x mem).contains inside) (part.contains inside')
    · simpa only [append_assoc] using (perm_append_comm_assoc later kept new).append_left here

theorem Cut.refl (fits : ∀ m ∈ ms, m.Fits) : Cut ms ms [] := by
  induction ms with
  | nil => exact .nil
  | cons m ms ih =>
    obtain ⟨here, rest⟩ := forall_mem_cons.mp fits
    exact .cons [m] [] (.one (.refl here)) (ih rest)

/-- The records of each mapping come from one mapping of the same image. -/
def Inherited (ms ms' : List MemMapping) : Prop :=
  ∀ x ∈ ms', x.mappings = [] ∨ ∃ m ∈ ms, x.image = m.image ∧ x.mappings.Sublist m.mappings

theorem Inherited.refl : Inherited ms ms := fun x mem => .inr ⟨x, mem, rfl, .refl _⟩

theorem Inherited.single (h : Inherited ms ms') (single : Single ms) : Single ms' := by
  intro x mem
  rcases h x mem with none | ⟨m, listed, -, sub⟩
  · simp [none]
  · exact (single m listed).sublist (sub.map _)

theorem Cut.inherited (cut : Cut ms kept new) :
    Inherited ms (kept ++ new) := fun x mem =>
  have ⟨m, listed, part⟩ := cut.contains x mem
  .inr ⟨m, listed, part.image, part.sublist⟩

theorem Inherited.set (at_i : ms[i]? = some m) (image : x.image = m.image)
    (sub : x.mappings.Sublist m.mappings) :
    Inherited ms (ms.set i x) := by
  intro y mem
  rcases mem_or_eq_of_mem_set mem with old | rfl
  · exact .inr ⟨y, old, rfl, .refl _⟩
  · exact .inr ⟨m, mem_of_getElem? at_i, image, sub⟩

/-! ## The overlap of a mapping with a range -/

theorem ending_eq (below : m.pagenum + m.pages < 2 ^ 32) : m.ending = m.pagenum + m.pages :=
  Nat.mod_eq_of_lt below

theorem wrap32_le (n : ℕ) : wrap32 n ≤ n := Nat.mod_le _ _

/-- Where the overlap is not empty, the sums have not wrapped around. -/
theorem overlap_bounds (fits : m.Fits) (small : pages < 2 ^ 32)
    (overlap : m.overlapPage pagenum < m.overlapEnd pagenum pages) :
    m.overlapPage pagenum = max m.pagenum pagenum ∧
      m.overlapEnd pagenum pages = min (m.pagenum + m.pages) (pagenum + pages) := by
  unfold overlapPage overlapEnd at *
  rw [ending_eq fits.below] at *
  unfold wrap32 at *
  split_ifs at * <;> omega

/-- The check is right about mappings and ranges whose ends do not wrap around. -/
theorem checkMapOverlap_apart (below : pagenum + pages < 2 ^ 32)
    (check : checkMapOverlap ms pagenum pages) (mem : m ∈ ms) (ends : m.pagenum + m.pages < 2 ^ 32) :
    ∀ page, m.Contains page → ¬(pagenum ≤ page ∧ page < pagenum + pages) := by
  rintro page ⟨low, high⟩ ⟨low', high'⟩
  have passed : ¬m.overlapPage pagenum < m.overlapEnd pagenum pages := by
    simpa using all_eq_true.mp check m mem
  refine passed ?_
  unfold overlapPage overlapEnd
  rw [ending_eq ends, wrap32, Nat.mod_eq_of_lt below]
  split_ifs <;> omega

/-! ## ClearRange -/

theorem Part.filter (fits : m.Fits) {q : PhysMapping → Bool} (low : m.pagenum ≤ x.pagenum)
    (high : x.pagenum + x.pages ≤ m.pagenum + m.pages) (image : x.image = m.image)
    (records : x.mappings = m.mappings.filter q)
    (range : ∀ h, m.Contains h.page → (q h ↔ x.Contains h.page)) : Part m x := by
  refine ⟨low, high, image, records.trans (filter_congr fun h mem => ?_)⟩
  rw [Bool.eq_iff_iff, decide_eq_true_eq]
  exact range h (fits.inside h mem)

theorem clear_partsOf (fits : m.Fits) (small : pages < 2 ^ 32) :
    PartsOf m ((m.clear pagenum pages).kept ++ (m.clear pagenum pages).split) := by
  unfold clear
  by_cases overlap : m.overlapPage pagenum < m.overlapEnd pagenum pages
  swap
  · rw [if_neg overlap]
    exact .one (.refl fits)
  obtain ⟨first, last⟩ := overlap_bounds fits small overlap
  rw [if_pos overlap, ending_eq fits.below]
  split_ifs with below above above
  · refine ⟨forall_mem_cons.mpr ⟨?_, forall_mem_singleton.mpr ?_⟩, ?_⟩
    · refine .filter fits ?_ ?_ rfl rfl ?_ <;>
        simp only [MemMapping.Contains, decide_eq_true_eq] <;> omega
    · refine .filter fits ?_ ?_ rfl rfl ?_ <;>
        simp only [MemMapping.Contains, decide_eq_true_eq] <;> omega
    · refine pairwise_pair.mpr (apart_of_le ?_)
      dsimp only
      omega
  · refine .one (.filter fits ?_ ?_ rfl rfl ?_) <;>
      simp only [MemMapping.Contains, decide_eq_true_eq] <;> omega
  · refine .one (.filter fits ?_ ?_ rfl rfl ?_) <;>
      simp only [MemMapping.Contains, decide_eq_true_eq] <;> omega
  · exact .nil

theorem clearRange_cut (fits : ∀ m ∈ ms, m.Fits) (small : pages < 2 ^ 32) :
    Cut ms (ms.flatMap fun m => (m.clear pagenum pages).kept)
      (ms.flatMap fun m => (m.clear pagenum pages).split) := by
  induction ms with
  | nil => exact .nil
  | cons m ms ih =>
    obtain ⟨here, rest⟩ := forall_mem_cons.mp fits
    exact .cons _ _ (clear_partsOf here small) (ih rest)

/-! ## Protect -/

theorem splitBelow_partsOf (fits : m.Fits) (start : ℕ) (bound : start ≤ m.pagenum + m.pages) :
    PartsOf m ((m.splitBelow start).2 :: (m.splitBelow start).1) := by
  unfold splitBelow
  have below := fits.below
  by_cases cut : start > m.pagenum
  swap
  · rw [if_neg cut]
    exact .one (.refl fits)
  have size : wrap32 (m.pagenum + (start - m.pagenum)) = start := by unfold wrap32; omega
  rw [if_pos cut]
  refine ⟨forall_mem_cons.mpr ⟨?_, forall_mem_singleton.mpr ?_⟩, ?_⟩
  · refine .filter fits ?_ ?_ rfl rfl ?_ <;>
      simp only [MemMapping.Contains, Bool.not_eq_true', decide_eq_false_iff_not] <;> omega
  · refine .filter fits ?_ ?_ rfl rfl ?_ <;>
      simp only [MemMapping.Contains, decide_eq_true_eq] <;> omega
  · refine pairwise_pair.mpr (apart_of_le ?_).symm
    dsimp only
    omega

theorem splitAbove_partsOf (fits : m.Fits) {ending : ℕ} (low : m.pagenum ≤ ending) :
    PartsOf m ((m.splitAbove ending).2 :: (m.splitAbove ending).1) := by
  unfold splitAbove
  have below := fits.below
  rw [ending_eq fits.below]
  by_cases cut : ending < m.pagenum + m.pages
  swap
  · rw [if_neg cut]
    exact .one (.refl fits)
  have size : wrap32 (m.pagenum + (ending - m.pagenum)) = ending := by unfold wrap32; omega
  have size' : wrap32 (ending + (m.pages - (ending - m.pagenum))) = m.pagenum + m.pages := by
    unfold wrap32; omega
  rw [if_pos cut]
  dsimp only [create]
  simp only [size, size']
  refine ⟨forall_mem_cons.mpr ⟨?_, forall_mem_singleton.mpr ?_⟩, ?_⟩
  · refine .filter fits ?_ ?_ rfl rfl ?_ <;>
      simp only [MemMapping.Contains, Bool.not_eq_true', decide_eq_false_iff_not] <;> omega
  · refine .filter fits ?_ ?_ rfl rfl ?_ <;>
      simp only [MemMapping.Contains, decide_eq_true_eq] <;> omega
  · refine pairwise_pair.mpr (apart_of_le ?_)
    dsimp only
    omega

theorem PartsOf.refine {l l' : List MemMapping} (h : PartsOf m (x :: l)) (h' : PartsOf x (y :: l')) :
    PartsOf m (y :: (l ++ l')) := by
  obtain ⟨first, others⟩ := forall_mem_cons.mp h.part
  obtain ⟨apart, rest⟩ := pairwise_cons.mp h.apart
  obtain ⟨apart', rest'⟩ := pairwise_cons.mp h'.apart
  have outside : ∀ z ∈ l, ∀ y' ∈ y :: l', z.Apart y' := fun z mem y' mem' page inside inside' =>
    apart z mem page ((h'.part y' mem').contains inside') inside
  refine ⟨forall_mem_cons.mpr ⟨first.trans (h'.part y mem_cons_self), ?_⟩,
    pairwise_cons.mpr ⟨?_, pairwise_append.mpr ⟨rest, rest', ?_⟩⟩⟩
  · exact forall_mem_append.mpr
      ⟨others, fun z mem => first.trans (h'.part z (mem_cons_of_mem _ mem))⟩
  · exact forall_mem_append.mpr
      ⟨fun z mem => (outside z mem y mem_cons_self).symm, apart'⟩
  · exact fun z mem z' mem' => outside z mem z' (mem_cons_of_mem _ mem')

theorem protStart_eq : m.protStart pagenum = m.overlapPage pagenum := by
  unfold protStart overlapPage
  split_ifs <;> omega

theorem protEnd_eq : m.protEnd pagenum pages = m.overlapEnd pagenum pages := rfl

theorem overlap_of_isProtected (met : m.isProtected pagenum pages) :
    m.overlapPage pagenum < m.overlapEnd pagenum pages := by
  simpa only [isProtected, protStart_eq, protEnd_eq, decide_eq_true_eq] using met

theorem splitBelow_pagenum {start : ℕ} (le : m.pagenum ≤ start) :
    (m.splitBelow start).2.pagenum = start := by
  unfold splitBelow
  split
  · rfl
  · next whole => exact le.antisymm (not_lt.mp whole)

theorem protectParts_partsOf (fits : m.Fits) (small : pages < 2 ^ 32)
    (met : m.isProtected pagenum pages) :
    PartsOf m ((m.protectParts pagenum pages).2 :: (m.protectParts pagenum pages).1) := by
  have overlap := overlap_of_isProtected met
  obtain ⟨first, last⟩ := overlap_bounds fits small overlap
  unfold protectParts
  rw [protStart_eq, protEnd_eq]
  have lower := splitBelow_partsOf fits (m.overlapPage pagenum) (by omega)
  have inside := (lower.part _ mem_cons_self).fits fits
  refine lower.refine (splitAbove_partsOf inside ?_)
  rw [splitBelow_pagenum (by omega)]
  exact overlap.le

section

variable {v n : ℕ}

structure Bounded (m : MemMapping) (v n : ℕ) (parts : List MemMapping × MemMapping) : Prop where
  first : parts.2.pagenum = max m.pagenum v
  last : parts.2.pagenum + parts.2.pages = min (m.pagenum + m.pages) (v + n)
  others : ∀ x ∈ parts.1, x.cow = m.cow ∧
    (x.read = m.read ∧ x.pagenum + x.pages ≤ v ∨ v + n ≤ x.pagenum)

theorem splitBelow_bounds (m : MemMapping) (start : ℕ) (low : m.pagenum ≤ start)
    (high : start ≤ m.pagenum + m.pages) :
    let parts := m.splitBelow start
    parts.2.pagenum = start ∧ parts.2.pagenum + parts.2.pages = m.pagenum + m.pages ∧
      parts.2.cow = m.cow ∧ ∀ x ∈ parts.1, x.cow = m.cow ∧ x.read = m.read ∧
        m.pagenum < start ∧ x.pagenum + x.pages = start := by
  unfold splitBelow
  split
  · next before =>
    refine ⟨rfl, by dsimp only; omega, rfl, ?_⟩
    intro x mem
    rw [mem_singleton.mp mem]
    exact ⟨rfl, rfl, before, by dsimp only; omega⟩
  · exact ⟨by dsimp only; omega, rfl, rfl, by simp⟩

theorem splitAbove_bounds (below : m.pagenum + m.pages < 2 ^ 32) (ending : ℕ)
    (low : m.pagenum ≤ ending) (high : ending ≤ m.pagenum + m.pages) :
    let parts := m.splitAbove ending
    parts.2.pagenum = m.pagenum ∧ parts.2.pagenum + parts.2.pages = ending ∧
      ∀ x ∈ parts.1, x.cow = m.cow ∧ ending < m.pagenum + m.pages ∧ x.pagenum = ending := by
  unfold splitAbove
  rw [ending_eq below]
  split_ifs with behind
  · refine ⟨rfl, by dsimp only; omega, ?_⟩
    intro x mem
    rw [mem_singleton.mp mem]
    refine ⟨rfl, behind, ?_⟩
    dsimp only [create]
    unfold wrap32
    omega
  · exact ⟨rfl, by dsimp only; omega, by simp⟩

theorem protectParts_bounded (fits : m.Fits) (small : n < 2 ^ 32) (met : m.isProtected v n) :
    Bounded m v n (m.protectParts v n) := by
  have overlap := overlap_of_isProtected met
  obtain ⟨first, last⟩ := overlap_bounds fits small overlap
  have below := fits.below
  unfold protectParts
  rw [protStart_eq, protEnd_eq]
  obtain ⟨start, size, cow, lower⟩ :=
    splitBelow_bounds m (m.overlapPage v) (by omega) (by omega)
  generalize m.splitBelow (m.overlapPage v) = cut at start size cow lower
  obtain ⟨under, inside⟩ := cut
  dsimp only at start size cow lower ⊢
  obtain ⟨start', ending, upper⟩ :=
    splitAbove_bounds (m := inside) (by omega) (m.overlapEnd v n) (by omega) (by omega)
  generalize inside.splitAbove (m.overlapEnd v n) = cut at start' ending upper
  obtain ⟨behind, inside'⟩ := cut
  dsimp only at start' ending upper ⊢
  refine ⟨by dsimp only; omega, by dsimp only; omega, forall_mem_append.mpr ⟨?_, ?_⟩⟩
  · intro x mem
    obtain ⟨same, read, before, high⟩ := lower x mem
    exact ⟨same, .inl ⟨read, by omega⟩⟩
  · intro x mem
    obtain ⟨same, after, first'⟩ := upper x mem
    exact ⟨same.trans cow, .inr (by omega)⟩

theorem isProtected_of_contains (fits : m.Fits) (below : v + n < 2 ^ 32) (inside : m.Contains page)
    (low : v ≤ page) (high : page < v + n) : m.isProtected v n := by
  obtain ⟨first, last⟩ := inside
  unfold isProtected protStart protEnd
  rw [ending_eq fits.below, wrap32_eq below]
  simp only [decide_eq_true_eq]
  split_ifs <;> omega

theorem inside_contains_iff {parts : List MemMapping × MemMapping} (bounds : Bounded m v n parts) :
    parts.2.Contains page ↔ m.Contains page ∧ v ≤ page ∧ page < v + n := by
  have first := bounds.first
  have last := bounds.last
  unfold MemMapping.Contains
  omega

end

theorem setProtection_part (fits : m.Fits) (prot : Prot) : Part m (m.setProtection prot) := by
  have whole := (Part.refl fits).records
  cases prot <;> exact ⟨le_rfl, le_rfl, rfl, whole⟩

section

variable [TableMemory]

theorem protectLoop_cut (grants : Grants) (pagenum : ℕ) (prot : Prot) (fits : ∀ m ∈ ms, m.Fits)
    (small : pages < 2 ^ 32) (t : PageTables) :
    Cut ms (protectLoop grants pagenum pages prot ms t).1
      (protectLoop grants pagenum pages prot ms t).2.1 := by
  induction ms generalizing t with
  | nil => exact .nil
  | cons m ms ih =>
    obtain ⟨here, rest⟩ := forall_mem_cons.mp fits
    unfold protectLoop
    by_cases met : m.isProtected pagenum pages
    · have parts := protectParts_partsOf here small met
      split_ifs
      · simpa using Cut.cons [_] _ parts (.refl rest)
      · have inside := (parts.part _ mem_cons_self).fits here
        have changed := parts.refine (.one (setProtection_part inside prot))
        rw [append_nil] at changed
        exact .cons [_] _ changed (ih rest _)
    · rw [if_neg met]
      exact .cons [m] [] (.one (.refl here)) (ih rest t)

theorem protectLoop_from {grants : Grants} {prot : Prot} (t : PageTables)
    (mem : x ∈ (protectLoop grants pagenum pages prot ms t).1 ++
      (protectLoop grants pagenum pages prot ms t).2.1) :
    ∃ m ∈ ms, x = m ∧ (prot = .invalid ∨ ¬m.isProtected pagenum pages) ∨
      m.isProtected pagenum pages ∧
        (x ∈ (m.protectParts pagenum pages).1 ∨
          x = (m.protectParts pagenum pages).2.setProtection prot) := by
  induction ms generalizing t with
  | nil => simp [protectLoop] at mem
  | cons m ms ih =>
    unfold protectLoop at mem
    by_cases met : m.isProtected pagenum pages
    swap
    · rw [if_neg met] at mem
      rcases mem_cons.mp mem with rfl | later
      · exact ⟨x, mem_cons_self, .inl ⟨rfl, .inr met⟩⟩
      · obtain ⟨m', listed, source⟩ := ih t later
        exact ⟨m', mem_cons_of_mem _ listed, source⟩
    split_ifs at mem with invalid
    · rw [cons_append] at mem
      rcases mem_cons.mp mem with rfl | later
      · exact ⟨m, mem_cons_self, .inr ⟨met, .inr (by rw [invalid]; rfl)⟩⟩
      rcases mem_append.mp later with old | part
      · exact ⟨x, mem_cons_of_mem _ old, .inl ⟨rfl, .inl invalid⟩⟩
      · exact ⟨m, mem_cons_self, .inr ⟨met, .inl part⟩⟩
    · rw [cons_append] at mem
      rcases mem_cons.mp mem with rfl | later
      · exact ⟨m, mem_cons_self, .inr ⟨met, .inr rfl⟩⟩
      rw [mem_append, mem_append, or_left_comm, ← mem_append] at later
      rcases later with part | rest
      · exact ⟨m, mem_cons_self, .inr ⟨met, .inl part⟩⟩
      · obtain ⟨m', listed, source⟩ := ih _ rest
        exact ⟨m', mem_cons_of_mem _ listed, source⟩

variable {p : Process}

theorem protect_separate (h : Separate p.mappings) (grants : Grants) (small : pages < 2 ^ 32)
    (prot : Prot) :
    Separate (p.protect grants pagenum pages prot).2.mappings := by
  unfold protect
  split_ifs
  · exact h
  · exact (protectLoop_cut grants pagenum prot h.fits small p.tables).separate h

/-! ## Map -/

theorem addMapping_separate (h : Separate p.mappings) (grants : Grants)
    (func : PageEntry → PageEntry) (below : m.pagenum + m.pages < 2 ^ 32) (new : m.mappings = []) :
    Separate (p.addMapping grants m func).2.mappings := by
  have fits : m.Fits := ⟨below, by simp [new]⟩
  fun_cases addMapping p grants m func with
  | case3 => exact h
  | case1 check | case2 check =>
    refine h.append (separate_cons.mpr ⟨fits, by simp, separate_nil⟩) fun m' mem => ?_
    simpa [MemMapping.Apart, MemMapping.Contains] using
      checkMapOverlap_apart below check mem (h.fits m' mem).below

end

/-! ## The program break -/

theorem brkMapping_getElem (found : brkMapping ms = some (m, i)) : ms[i]? = some m := by
  have listed : ∀ b, brkMapping ms = some b → b ∈ ms.zipIdx := by
    refine foldlRecOn (motive := fun best => ∀ b, best = some b → b ∈ ms.zipIdx) ms.zipIdx _
      (by simp) fun best known mi mem => ?_
    split_ifs
    · cases best with
      | none => simpa using mem
      | some b =>
        dsimp only
        split_ifs
        · simpa using mem
        · exact known
    · exact known
  exact mk_mem_zipIdx_iff_getElem?.mp (listed _ found)

variable {records : List PhysMapping}

theorem filter_page_ne (low : page ≤ i) :
    (records.filter fun h => ¬(page ≤ h.page ∧ h.page < i)).filter (·.page ≠ i) =
      records.filter fun h => ¬(page ≤ h.page ∧ h.page < i + 1) := by
  rw [filter_filter]
  refine filter_congr fun h _ => ?_
  rw [Bool.eq_iff_iff]
  simp only [Bool.and_eq_true, decide_eq_true_eq, ne_eq]
  omega

theorem filter_page_none (records : List PhysMapping) (page : ℕ) :
    (records.filter fun h => ¬(page ≤ h.page ∧ h.page < page)) = records := by
  refine filter_eq_self.mpr fun h _ => ?_
  simp only [decide_eq_true_eq]
  omega

section

variable [TableMemory] {p : Process}

/-- What the loop that shrinks the heap has done when it comes to page `i`. -/
structure Shrunk (t : PageTables) (records : List PhysMapping) (page i : ℕ)
    (s : PageTables × List PhysMapping × List PhysMapping) : Prop where
  tables : ChangedUpTo (fun e => { e with present := false }) page i t s.1
  kept : s.2.1 = records.filter fun h => ¬(page ≤ h.page ∧ h.page < i)
  freed : (s.2.1 ++ s.2.2).Perm records

theorem shrink_post (grants : Grants) {endpage : ℕ} (le : page ≤ endpage)
    (bound : endpage ≤ 2 ^ 32) (t : PageTables) (records : List PhysMapping) :
    Post (Shrunk t records page endpage)
      (fun s => ∃ i, page ≤ i ∧ i < endpage ∧ Shrunk t records page i s)
      (forRange page endpage (shrinkTurn grants) (t, records, [])) := by
  apply forRange_post (I := Shrunk t records page) le
  · rintro i ⟨t', left, freed⟩ low high earlier
    unfold shrinkTurn
    dsimp only
    rw [show wrap32 i = i from Nat.mod_eq_of_lt (by omega)]
    split
    · next done =>
      refine ⟨earlier.tables.modify low done, ?_, ?_⟩
      · have kept : left = _ := earlier.kept
        rw [kept, filter_page_ne low]
      · have parts : (left.filter (·.page = i) ++ left.filter (·.page ≠ i)).Perm left := by
          simpa using filter_append_perm (fun h : PhysMapping => decide (h.page = i)) left
        calc left.filter (·.page ≠ i) ++ (freed ++ left.filter (·.page = i))
            _ |>.Perm (freed ++ (left.filter (·.page = i) ++ left.filter (·.page ≠ i))) := by
              rw [← append_assoc freed]
              exact perm_append_comm
            _ |>.Perm (left ++ freed) := (parts.append_left freed).trans perm_append_comm
            _ |>.Perm records := earlier.freed
    · exact ⟨i, low, high, earlier⟩
  · exact ⟨changedUpTo_refl, (filter_page_none records page).symm, by simp⟩

/-- What `brk` can do: nothing, extend the mapping `m` of the heap to end at `page` or fail on the
way, shrink it or fail on the way. -/
inductive BrkStep (p : Process) : Broken → Prop
  | idle {b} : b.process.mappings = p.mappings → b.process.tables = p.tables →
      b.freed = [] → BrkStep p b
  | extended {m i page brk result t} :
      p.mappings[i]? = some m → m.pagenum + m.pages < page → page < 2 ^ 32 →
      (∀ m' ∈ p.mappings, ∀ q, m'.Contains q → ¬(m.pagenum + m.pages ≤ q ∧ q < page)) →
      ChangedUpTo (freshEntry true true) (m.pagenum + m.pages) page p.tables t →
      BrkStep p ⟨result, ⟨p.mappings.set i { m with pages := page - m.pagenum }, t, brk⟩, []⟩
  | notExtended {m : MemMapping} {page i brk result t} :
      (∀ m' ∈ p.mappings, ∀ q, m'.Contains q → ¬(m.pagenum + m.pages ≤ q ∧ q < page)) → i < page →
      ChangedUpTo (freshEntry true true) (m.pagenum + m.pages) i p.tables t →
      BrkStep p ⟨result, ⟨p.mappings, t, brk⟩, []⟩
  | shrunk {m i page brk result s} :
      p.mappings[i]? = some m → m.image = none → m.pagenum < page → page < m.pagenum + m.pages →
      Shrunk p.tables m.mappings page (m.pagenum + m.pages) s →
      BrkStep p ⟨result, ⟨p.mappings.set i { m with pages := page - m.pagenum, mappings := s.2.1 },
        s.1, brk⟩, s.2.2⟩
  | notShrunk {m i j page brk result s} :
      p.mappings[i]? = some m → m.image = none → m.pagenum < page → j < m.pagenum + m.pages →
      Shrunk p.tables m.mappings page j s →
      BrkStep p ⟨result, ⟨p.mappings.set i { m with mappings := s.2.1 }, s.1, brk⟩, s.2.2⟩

theorem brkTo_step (h : Separate p.mappings) (grants : Grants) {addr : ℕ}
    (at_i : p.mappings[i]? = some m) (image : m.image = none) (above : m.pagenum < page)
    (below : page < 2 ^ 32) : BrkStep p (p.brkTo grants m i page addr) := by
  have bound := (h.fits m (mem_of_getElem? at_i)).below
  have size : wrap32 (page - m.pagenum) = page - m.pagenum := by unfold wrap32; omega
  unfold brkTo
  dsimp only
  rw [size]
  split_ifs with same extend check
  · exact .idle rfl rfl rfl
  · have free : ∀ m' ∈ p.mappings, ∀ q, m'.Contains q →
        ¬(m.pagenum + m.pages ≤ q ∧ q < page) := by
      intro m' mem q inside
      have apart := checkMapOverlap_apart (by unfold wrap32; omega) check mem (h.fits m' mem).below
        q inside
      unfold wrap32 at apart
      omega
    have loop := modifyRange_get (t := p.tables) grants (freshEntry true true) extend.le
      below.le
    split
    · next done => rw [done] at loop; exact .extended at_i extend below free loop
    · next failed =>
      rw [failed] at loop
      obtain ⟨last, -, before, changed⟩ := loop
      exact .notExtended free before changed
  · exact .idle rfl rfl rfl
  · have loop := shrink_post grants (show page ≤ m.pagenum + m.pages by omega) bound.le p.tables
      m.mappings
    cases done : forRange page (m.pagenum + m.pages) (shrinkTurn grants) (p.tables, m.mappings, [])
      with
    | error s =>
      rw [done] at loop
      obtain ⟨j, -, before, shrunk⟩ := loop
      exact .notShrunk at_i image above before shrunk
    | ok s =>
      rw [done] at loop
      exact .shrunk at_i image above (by omega) loop

/-- A request that takes the break below zero wraps around to an address that is refused. -/
theorem brkTarget_le {brkAddr : ℤ} (fits : m.Fits) (word : -2 ^ 63 ≤ brkAddr)
    (below : brkAddr ≤ (2 ^ 32 - 1) * 4096) (brk : p.programBrk ≤ (m.pagenum + m.pages) * 4096)
    (passed : p.brkTarget m brkAddr ≤ 127 * 2 ^ 39) :
    p.brkTarget m brkAddr ≤ (2 ^ 32 - 1) * 4096 := by
  have exact_or_high : ∀ x : ℤ, -2 ^ 63 ≤ x → x ≤ (2 ^ 32 - 1) * 4096 →
      (x % 2 ^ 64).toNat ≤ 127 * 2 ^ 39 → (x % 2 ^ 64).toNat ≤ (2 ^ 32 - 1) * 4096 := by
    intro x low high passed
    by_cases negative : x < 0
    · omega
    · omega
  have bound := fits.below
  unfold brkTarget at passed ⊢
  dsimp only at passed ⊢
  split_ifs at passed ⊢
  all_goals exact exact_or_high _ (by omega) (by omega) passed

theorem brk_step (h : Separate p.mappings) (grants : Grants) {brkAddr : ℤ}
    (word : -2 ^ 63 ≤ brkAddr) (below : brkAddr ≤ (2 ^ 32 - 1) * 4096) :
    BrkStep p (p.brk grants brkAddr) := by
  fun_cases Process.brk p grants brkAddr with
  | case7 m i found addr page image grown high low under =>
    have at_i := brkMapping_getElem found
    have target := brkTarget_le (h.fits m (mem_of_getElem? at_i)) word below
      (not_lt.mp grown) (not_lt.mp high)
    have bound : page < 2 ^ 32 := by
      dsimp only [page, addr]
      split_ifs <;> omega
    exact brkTo_step h grants at_i (by simpa using image) (not_le.mp under) bound
  | _ => exact .idle rfl rfl rfl

variable {s : PageTables × List PhysMapping × List PhysMapping}

theorem Shrunk.sublist {t : PageTables} (h : Shrunk t records page i s) : s.2.1.Sublist records :=
  h.kept ▸ filter_sublist

theorem Shrunk.part {t : PageTables} (h : Shrunk t m.mappings page (m.pagenum + m.pages) s)
    (fits : m.Fits) (above : m.pagenum < page) (below : page < m.pagenum + m.pages) :
    Part m { m with pages := page - m.pagenum, mappings := s.2.1 } := by
  refine .filter fits le_rfl (by dsimp only; omega) rfl h.kept fun r inside => ?_
  simp only [MemMapping.Contains, decide_eq_true_eq] at inside ⊢
  omega

theorem BrkStep.separate {b : Broken} (step : BrkStep p b) (h : Separate p.mappings) :
    Separate b.process.mappings := by
  cases step with
  | idle mappings => exact mappings ▸ h
  | @extended m i page _ _ _ at_i above below free =>
    have fits := h.fits m (mem_of_getElem? at_i)
    refine h.set at_i ⟨?_, fun r mem => ?_⟩ fun m' mem apart q inside inside' => ?_
    · dsimp only
      omega
    · obtain ⟨low, high⟩ := fits.inside r mem
      exact ⟨low, by dsimp only; omega⟩
    · have unchecked := free m' mem q inside'
      have old := apart q
      simp only [MemMapping.Contains] at inside inside' unchecked old
      omega
  | notExtended => exact h
  | @shrunk m i page _ _ s at_i _ above below shrunk =>
    have fits := h.fits m (mem_of_getElem? at_i)
    have part := shrunk.part fits above below
    exact h.set at_i (part.fits fits) fun m' _ apart q inside => apart q (part.contains inside)
  | @notShrunk m i _ _ _ _ s at_i _ _ _ shrunk =>
    have fits := h.fits m (mem_of_getElem? at_i)
    exact h.set at_i ⟨fits.below, fun r mem => fits.inside r (shrunk.sublist.subset mem)⟩
      fun m' _ apart => apart

/-! ## Runs -/

theorem step_separate (p : Process) (a : Action) (p' : Process) (h : Separate p.mappings)
    (ends : EndsBelow p a) (taken : exec p a = some p') : Separate p'.mappings := by
  cases a with
  | mapImage | map => cases taken; exact addMapping_separate h _ _ ends rfl
  | clearRange _ pages =>
    cases taken
    exact (clearRange_cut h.fits pages.toNat_lt).separate h
  | protect _ _ pages => cases taken; exact protect_separate h _ pages.toNat_lt _
  | brk _ brkAddr => cases taken; exact (brk_step h _ brkAddr.le_toInt ends).separate h

theorem BrkStep.inherited {b : Broken} (step : BrkStep p b) :
    Inherited p.mappings b.process.mappings := by
  cases step with
  | idle mappings => exact mappings ▸ .refl
  | extended at_i => exact .set at_i rfl (.refl _)
  | notExtended => exact .refl
  | shrunk at_i _ _ _ shrunk | notShrunk at_i _ _ _ shrunk => exact .set at_i rfl shrunk.sublist

theorem addMapping_inherited (grants : Grants) (func : PageEntry → PageEntry)
    (new : m.mappings = []) : Inherited p.mappings (p.addMapping grants m func).2.mappings := by
  have added : Inherited p.mappings (p.mappings ++ [m]) := by
    intro x mem
    rcases mem_append.mp mem with old | added
    · exact .inr ⟨x, old, rfl, .refl _⟩
    · exact .inl (mem_singleton.mp added ▸ new)
  unfold addMapping
  split_ifs
  · split <;> exact added
  · exact .refl

theorem protect_inherited (h : Separate p.mappings) (grants : Grants) (small : pages < 2 ^ 32)
    (prot : Prot) :
    Inherited p.mappings (p.protect grants pagenum pages prot).2.mappings := by
  unfold protect
  split_ifs
  · exact .refl
  · exact (protectLoop_cut grants pagenum prot h.fits small p.tables).inherited

theorem step_inherited (p : Process) (a : Action) (p' : Process) (h : Separate p.mappings)
    (ends : EndsBelow p a) (taken : exec p a = some p') : Inherited p.mappings p'.mappings := by
  cases a with
  | mapImage | map => cases taken; exact addMapping_inherited _ _ rfl
  | clearRange _ pages => cases taken; exact (clearRange_cut h.fits pages.toNat_lt).inherited
  | protect _ _ pages => cases taken; exact protect_inherited h _ pages.toNat_lt _
  | brk _ brkAddr => cases taken; exact (brk_step h _ brkAddr.le_toInt ends).inherited

/-- Where no new range and no break reaches page 2^32, the ranges stay disjoint. -/
theorem rangesOk_of_endsBelow {p p' : Process} {actions : List Action} (start : Separate p.mappings)
    (single : Single p.mappings) (run : RunWhen EndsBelow exec p actions p') :
    RangesOk p'.mappings := by
  have step : ∀ p a p', Separate p.mappings ∧ Single p.mappings → EndsBelow p a →
      exec p a = some p' → Separate p'.mappings ∧ Single p'.mappings :=
    fun p a p' known ends taken => ⟨step_separate p a p' known.1 ends taken,
      (step_inherited p a p' known.1 ends taken).single known.2⟩
  have reached := run.invariant (I := fun p => Separate p.mappings ∧ Single p.mappings) step
    ⟨start, single⟩
  exact reached.1.rangesOk reached.2

end

namespace FourGigabytes

scoped instance : LowTables where
  top := 2 ^ 20
  low := le_rfl

end FourGigabytes

open FourGigabytes

def allGranted : Grants where
  table page := some ⟨page / 512 % 2 ^ 19 + 1, by dsimp only [TableMemory.top]; omega⟩
  old _ := .zero

/-- A mapping is made, its middle protected, one end unmapped, and the heap extended. -/
theorem rangesOk_split_mapping : ∃ p', RunWhen EndsBelow exec .empty
      [.map allGranted 16 8 true, .protect allGranted 18 2 .read, .clearRange 16 1,
        .brk allGranted (28 * 4096)] p' ∧
    p'.mappings.map (fun m => (m.pagenum, m.pages)) = [(18, 2), (17, 1), (20, 8)] ∧
    RangesOk p'.mappings := by
  refine RunWhen.reaches (.cons (by unfold EndsBelow; decide) rfl (.cons trivial rfl
    (.cons trivial rfl (.cons (by unfold EndsBelow; decide) rfl (.nil _))))) fun run => ?_
  exact ⟨by decide +kernel, rangesOk_of_endsBelow separate_nil (by simp [Single, empty]) run⟩

/-- A break at page 2^32 passes the check for overlaps and covers another mapping. -/
theorem not_rangesOk_high_break : ∃ p', Run exec .empty
      [.map allGranted 0xFFFFFFF0 1 true, .map allGranted 0xFFFFFFF8 1 false,
        .brk allGranted (2 ^ 44)] p' ∧
    p'.mappings.map (fun m => (m.pagenum, m.pages)) = [(0xFFFFFFF0, 16), (0xFFFFFFF8, 1)] ∧
    ¬RangesOk p'.mappings := by
  have overlap : ∀ ms : List MemMapping,
      ms.map (fun m => (m.pagenum, m.pages)) = [(0xFFFFFFF0, 16), (0xFFFFFFF8, 1)] →
      ¬RangesOk ms := by
    intro ms shape ok
    obtain ⟨m, m', rfl⟩ := length_eq_two.mp (by simpa using congrArg List.length shape)
    simp only [map_cons, map_nil, List.cons.injEq, Prod.mk.injEq, and_true] at shape
    refine pairwise_pair.mp ok.apart 0xFFFFFFF8 ?_ ?_ <;>
      simp only [MemMapping.Contains] <;> omega
  exact ⟨_, .of_foldlM rfl, by decide +kernel,
    overlap _ (by decide +kernel)⟩

end JeoKernel.AddressSpace
