import JeoKernel.Exec.MapRanges
import JeoKernel.Exec.Fault

/-!
# What `ClearRange` leaves

Every mapping that meets the range is dropped, cut at its end, cut at its start or split in two.  A part
that starts behind the range keeps the file offset of the whole mapping, so a fault in it loads the
wrong page of the file.
-/

namespace JeoKernel.AddressSpace

open List Option MemMapping

/-- The page belongs to the mapping, as the source decides. -/
def MemMapping.Has (m : MemMapping) (page : ℕ) : Prop := m.pagenum ≤ page ∧ page < m.ending

instance (m : MemMapping) (page : ℕ) : Decidable (m.Has page) := inferInstanceAs (Decidable (_ ∧ _))

/-- What a mapping says about one of its pages. -/
structure PageView where
  /-- The file, and the page of it that a fault loads. -/
  file : Option (ℕ × ℕ)
  load : ℕ
  read : Bool
  cow : Bool
  record : Option PhysMapping
  deriving DecidableEq

def MemMapping.view (m : MemMapping) (page : ℕ) : PageView where
  file := m.image.map fun image => (image, m.imagePage page)
  load := m.load
  read := m.read
  cow := m.cow
  record := m.physMapping page

section

variable [TableMemory]

def Process.view (p : Process) (page : ℕ) : Option PageView :=
  (findMapping p.mappings page).map fun mi => mi.1.view page

/-- The range is cleared, and every other page keeps its mapping's attributes. -/
structure ClearsExactly (p : Process) (pagenum pages : ℕ) : Prop where
  inside : ∀ page, pagenum ≤ page → page < pagenum + pages →
    ∀ m ∈ (p.clearRange pagenum pages).mappings, ¬m.Has page
  outside : ∀ page, ¬(pagenum ≤ page ∧ page < pagenum + pages) →
    (p.clearRange pagenum pages).view page = p.view page

end

/-- The mapping meets the range and has pages behind it. -/
def MemMapping.ReachesPast (m : MemMapping) (pagenum pages : ℕ) : Prop :=
  m.overlapPage pagenum < m.overlapEnd pagenum pages ∧ pagenum + pages < m.ending

/-- The fields of the mappings are 32-bit words, and a page belongs to one mapping at most. -/
structure Mapped (mappings : List MemMapping) : Prop where
  words : ∀ m ∈ mappings, m.pagenum < 2 ^ 32 ∧ m.pages < 2 ^ 32
  apart : mappings.Pairwise fun m m' => ∀ page, m.Has page → ¬m'.Has page

variable {m x : MemMapping} {ms : List MemMapping} {pagenum pages page : ℕ}

/-! ## The parts of a mapping -/

def MemMapping.parts (m : MemMapping) (pagenum pages : ℕ) : List MemMapping :=
  (m.clear pagenum pages).kept ++ (m.clear pagenum pages).split

structure PartWith (m x : MemMapping) (pagenum pages page : ℕ) : Prop where
  has : m.Has page
  outside : ¬(pagenum ≤ page ∧ page < pagenum + pages)
  image : x.image = m.image
  skip : x.imageSkipPages = m.imageSkipPages
  load : x.load = m.load
  read : x.read = m.read
  cow : x.cow = m.cow
  record : x.physMapping page = m.physMapping page
  /-- It starts where the mapping starts, or behind the range. -/
  start : x.pagenum = m.pagenum ∧ (m.ReachesPast pagenum pages → page < pagenum) ∨
    x.pagenum = pagenum + pages ∧ m.ReachesPast pagenum pages

theorem find?_filter_page {hs : List PhysMapping} {f : PhysMapping → Bool}
    (keeps : ∀ h, h.page = page → f h = true) :
    (hs.filter f).find? (·.page = page) = hs.find? (·.page = page) := by
  rw [find?_filter]
  congr 1
  funext h
  by_cases here : h.page = page
  · simp [here, keeps h here]
  · simp [here]

theorem ending_of_has (words : m.pagenum < 2 ^ 32 ∧ m.pages < 2 ^ 32) (below : m.pagenum < m.ending) :
    m.ending = m.pagenum + m.pages := by
  unfold ending wrap32 at *
  omega

theorem overlapEnd_eq (m : MemMapping) (range : pagenum + pages < 2 ^ 32) :
    m.overlapEnd pagenum pages = min (pagenum + pages) m.ending := by
  have sum := wrap32_eq range
  unfold overlapEnd
  split_ifs
  · omega
  · omega

theorem overlapPage_eq (m : MemMapping) : m.overlapPage pagenum = max m.pagenum pagenum := by
  unfold overlapPage
  split_ifs
  · omega
  · omega

theorem PartWith.front (range : pagenum + pages < 2 ^ 32) (before : m.pagenum < pagenum)
    (below : pagenum < m.ending)
    (has : MemMapping.Has { m with
      pages := pagenum - m.pagenum, mappings := m.mappings.filter (·.page < pagenum) } page) :
    PartWith m { m with
      pages := pagenum - m.pagenum, mappings := m.mappings.filter (·.page < pagenum) }
      pagenum pages page := by
  have lt : page < pagenum := by
    obtain ⟨-, upper⟩ := has
    unfold ending wrap32 at upper
    dsimp only at upper
    omega
  have record : (m.mappings.filter (·.page < pagenum)).find? (·.page = page) =
      m.mappings.find? (·.page = page) :=
    find?_filter_page fun h here => by simp [here, lt]
  refine ⟨⟨has.1, by omega⟩, by omega, rfl, rfl, rfl, rfl, rfl, record,
    .inl ⟨rfl, fun _ => lt⟩⟩

theorem PartWith.back {f : PhysMapping → Bool} {count : ℕ}
    (reaches : m.ReachesPast pagenum pages) (start : m.pagenum < pagenum + pages)
    (size : count = m.ending - (pagenum + pages))
    (keeps : ∀ h : PhysMapping, pagenum + pages ≤ h.page → f h = true)
    (has : MemMapping.Has { m with
      pages := count, pagenum := pagenum + pages, mappings := m.mappings.filter f } page) :
    PartWith m { m with
      pages := count, pagenum := pagenum + pages, mappings := m.mappings.filter f }
      pagenum pages page := by
  have below : m.ending < 2 ^ 32 := Nat.mod_lt _ (by decide)
  have behind := reaches.2
  have le : pagenum + pages ≤ page := has.1
  have lt : page < m.ending := by
    obtain ⟨-, upper⟩ := has
    have ending : wrap32 (pagenum + pages + count) = m.ending := by
      unfold wrap32
      omega
    rwa [MemMapping.ending, ending] at upper
  have record : (m.mappings.filter f).find? (·.page = page) = m.mappings.find? (·.page = page) :=
    find?_filter_page fun h here => keeps h (here ▸ le)
  exact ⟨⟨by omega, lt⟩, by omega, rfl, rfl, rfl, rfl, rfl, record,
    .inr ⟨rfl, reaches⟩⟩

section

variable (words : m.pagenum < 2 ^ 32 ∧ m.pages < 2 ^ 32) (range : pagenum + pages < 2 ^ 32)

include words range

theorem partWith_of_mem (mem : x ∈ m.parts pagenum pages) (has : x.Has page) :
    PartWith m x pagenum pages page := by
  have reaches : m.ReachesPast pagenum pages ↔
      max m.pagenum pagenum < min (pagenum + pages) m.ending ∧ pagenum + pages < m.ending := by
    rw [MemMapping.ReachesPast, overlapEnd_eq m range, overlapPage_eq m]
  unfold parts clear at mem
  rw [overlapEnd_eq m range, overlapPage_eq m] at mem
  have ending (overlap : max m.pagenum pagenum < min (pagenum + pages) m.ending) :=
    ending_of_has words (m := m) (by omega)
  dsimp only at mem
  split_ifs at mem with overlap before behind behind
  · have ending := ending overlap
    rw [show max m.pagenum pagenum = pagenum by omega,
      show min (pagenum + pages) m.ending = pagenum + pages by omega] at mem
    rcases mem_cons.mp mem with rfl | mem
    · exact .front range (by omega) (by omega) has
    · obtain rfl := mem_singleton.mp mem
      refine .back (reaches.mpr ⟨overlap, by omega⟩) (by omega) (by omega) (fun h le => ?_) has
      simp only [decide_eq_true_eq]
      omega
  · have ending := ending overlap
    rw [show max m.pagenum pagenum = pagenum by omega] at mem
    obtain rfl := mem_singleton.mp mem
    exact .front range (by omega) (by omega) has
  · have ending := ending overlap
    rw [show min (pagenum + pages) m.ending = pagenum + pages by omega] at mem
    obtain rfl := mem_singleton.mp mem
    refine .back (reaches.mpr ⟨overlap, by omega⟩) (by omega) rfl (fun h le => ?_) has
    simpa only [decide_eq_true_eq] using le
  · simp at mem
  · obtain rfl := mem_singleton.mp mem
    obtain ⟨low, high⟩ := has
    exact ⟨⟨low, high⟩, by omega, rfl, rfl, rfl, rfl, rfl, rfl,
      .inl ⟨rfl, fun past => absurd (reaches.mp past).1 overlap⟩⟩

theorem exists_part (has : m.Has page) (outside : ¬(pagenum ≤ page ∧ page < pagenum + pages)) :
    ∃ x ∈ m.parts pagenum pages, x.Has page := by
  obtain ⟨low, high⟩ := has
  have below : m.ending < 2 ^ 32 := Nat.mod_lt _ (by decide)
  have ending := ending_of_has words (by omega)
  unfold parts clear
  rw [overlapEnd_eq m range, overlapPage_eq m]
  dsimp only
  split_ifs with overlap before behind behind
  · by_cases front : page < pagenum
    · refine ⟨_, mem_cons_self, low, ?_⟩
      simp only [MemMapping.ending, wrap32]
      omega
    · refine ⟨_, mem_cons_of_mem _ (mem_singleton_self _), ?_, ?_⟩
      · dsimp only
        omega
      · simp only [MemMapping.ending, wrap32]
        omega
  · refine ⟨_, mem_singleton_self _, low, ?_⟩
    simp only [MemMapping.ending, wrap32]
    omega
  · refine ⟨_, mem_singleton_self _, ?_, ?_⟩
    · dsimp only
      omega
    · simp only [MemMapping.ending, wrap32] at *
      omega
  · omega
  · exact ⟨m, mem_singleton_self _, low, high⟩

end

/-! ## The mapping of a page -/

theorem Mapped.unique (mapped : Mapped ms) {m m' : MemMapping} (mem : m ∈ ms) (mem' : m' ∈ ms)
    (has : m.Has page) (has' : m'.Has page) : m = m' := by
  by_contra other
  have : Std.Symm fun m m' : MemMapping => ∀ page, m.Has page → ¬m'.Has page :=
    ⟨fun m m' apart page has has' => apart page has' has⟩
  exact mapped.apart.forall mem mem' other page has has'

/-- A part that starts with its mapping, or has no file, says the same about a page. -/
theorem PartWith.view_eq (part : PartWith m x pagenum pages page)
    (same : x.pagenum = m.pagenum ∨ m.image = none) : x.view page = m.view page := by
  have file : x.image.map (fun image => (image, x.imagePage page)) =
      m.image.map fun image => (image, m.imagePage page) := by
    rcases same with start | anonymous
    · simp only [imagePage, part.image, part.skip, start]
    · simp [part.image, anonymous]
  simp only [view, file, part.load, part.read, part.cow, part.record]

/-- A part that starts behind the range loads another page of the file. -/
theorem PartWith.view_ne (part : PartWith m x pagenum pages page)
    (words : m.pagenum < 2 ^ 32 ∧ m.pages < 2 ^ 32) (start : x.pagenum = pagenum + pages)
    (before : m.pagenum < pagenum + pages) (le : pagenum + pages ≤ page)
    (range : pagenum + pages < 2 ^ 32) (file : m.image.isSome = true) :
    x.view page ≠ m.view page := by
  intro same
  obtain ⟨image, is_file⟩ := isSome_iff_exists.mp file
  have pages := congrArg PageView.file same
  simp only [view, part.image, is_file, map_some, some.injEq,
    Prod.mk.injEq, true_and, imagePage, part.skip, start, wrap32] at pages
  omega

section

variable [TableMemory] {p : Process}

theorem view_eq_none (none : ∀ m ∈ p.mappings, ¬m.Has page) : p.view page = .none := by
  unfold Process.view findMapping
  rw [map_eq_none_iff, find?_eq_none]
  intro mi mem
  simpa [MemMapping.Has] using none mi.1 (fst_mem_of_mem_zipIdx mem)

theorem view_eq_some {v : PageView} (mem : m ∈ p.mappings) (has : m.Has page)
    (all : ∀ x ∈ p.mappings, x.Has page → x.view page = v) : p.view page = some v := by
  have found : (findMapping p.mappings page).isSome := by
    obtain ⟨i, at_i⟩ := getElem?_of_mem mem
    refine find?_isSome.mpr ⟨(m, i), mk_mem_zipIdx_iff_getElem?.mpr at_i, ?_⟩
    simpa [MemMapping.Has] using has
  obtain ⟨mi, found⟩ := isSome_iff_exists.mp found
  unfold Process.view
  rw [found, map_some, all mi.1 (fst_mem_of_mem_zipIdx (mem_of_find?_eq_some found))]
  simpa [MemMapping.Has] using find?_some found

theorem mem_clearRange {p : Process} :
    x ∈ (p.clearRange pagenum pages).mappings ↔
      ∃ m ∈ p.mappings, x ∈ m.parts pagenum pages := by
  simp only [Process.clearRange, parts, mem_append, mem_flatMap]
  constructor
  · rintro (⟨m, mem, part⟩ | ⟨m, mem, part⟩)
    · exact ⟨m, mem, .inl part⟩
    · exact ⟨m, mem, .inr part⟩
  · rintro ⟨m, mem, part | part⟩
    · exact .inl ⟨m, mem, part⟩
    · exact .inr ⟨m, mem, part⟩

/-! ## ClearRange removes the range -/

section

variable (mapped : Mapped p.mappings) (range : pagenum + pages < 2 ^ 32)

include mapped range

theorem clearRange_inside (low : pagenum ≤ page) (high : page < pagenum + pages) :
    ∀ m ∈ (p.clearRange pagenum pages).mappings, ¬m.Has page := by
  intro x mem has
  obtain ⟨m, listed, part⟩ := mem_clearRange.mp mem
  exact (partWith_of_mem (mapped.words m listed) range part has).outside ⟨low, high⟩

theorem clearRange_view (mem : m ∈ p.mappings) (has : m.Has page)
    (outside : ¬(pagenum ≤ page ∧ page < pagenum + pages)) :
    ∃ x ∈ m.parts pagenum pages, PartWith m x pagenum pages page ∧
      ((∀ y ∈ m.parts pagenum pages, y.Has page → y.view page = x.view page) →
        (p.clearRange pagenum pages).view page = some (x.view page)) := by
  obtain ⟨x, part, has'⟩ := exists_part (mapped.words m mem) range has outside
  refine ⟨x, part, partWith_of_mem (mapped.words m mem) range part has', fun all => ?_⟩
  refine view_eq_some (mem_clearRange.mpr ⟨m, mem, part⟩) has' fun y listed has_y => ?_
  obtain ⟨m', mem', part'⟩ := mem_clearRange.mp listed
  have with_y := partWith_of_mem (mapped.words m' mem') range part' has_y
  obtain rfl := mapped.unique mem mem' has with_y.has
  exact all y part' has_y

theorem clearRange_outside
    (files : ∀ m ∈ p.mappings, m.image.isSome = true → ¬m.ReachesPast pagenum pages)
    (outside : ¬(pagenum ≤ page ∧ page < pagenum + pages)) :
    (p.clearRange pagenum pages).view page = p.view page := by
  by_cases some_m : ∃ m ∈ p.mappings, m.Has page
  · obtain ⟨m, mem, has⟩ := some_m
    have same : ∀ y, PartWith m y pagenum pages page → y.view page = m.view page := by
      intro y part
      refine part.view_eq (part.start.imp And.left fun behind => ?_)
      by_contra file
      exact files m mem (isSome_iff_ne_none.mpr file) behind.2
    have before : p.view page = some (m.view page) := by
      refine view_eq_some mem has fun x listed has_x => ?_
      rw [mapped.unique mem listed has has_x]
    obtain ⟨x, part, with_x, after⟩ := clearRange_view mapped range mem has outside
    rw [before, ← same x with_x]
    refine after fun y part' has_y => ?_
    rw [same x with_x, same y (partWith_of_mem (mapped.words m mem) range part' has_y)]
  · have none : ∀ m ∈ p.mappings, ¬m.Has page := fun m mem has => some_m ⟨m, mem, has⟩
    rw [view_eq_none none]
    refine view_eq_none fun x mem has => ?_
    obtain ⟨m, listed, part⟩ := mem_clearRange.mp mem
    exact none m listed (partWith_of_mem (mapped.words m listed) range part has).has

end

/-- For every set of mappings `ClearRange` removes exactly the range if and only if no mapping of a
file that meets the range has pages behind it. -/
theorem clearsExactly_iff (mapped : Mapped p.mappings) (range : pagenum + pages < 2 ^ 32) :
    ClearsExactly p pagenum pages ↔
      ∀ m ∈ p.mappings, m.image.isSome = true → ¬m.ReachesPast pagenum pages := by
  constructor
  · intro exact_range m mem file reaches
    have meets := reaches.1
    rw [overlapEnd_eq m range, overlapPage_eq m] at meets
    have past := reaches.2
    have has : m.Has (pagenum + pages) := ⟨by omega, past⟩
    have outside : ¬(pagenum ≤ pagenum + pages ∧ pagenum + pages < pagenum + pages) := by omega
    have behind : ∀ y, PartWith m y pagenum pages (pagenum + pages) → y.pagenum = pagenum + pages := by
      intro y part
      rcases part.start with ⟨-, front⟩ | ⟨start, -⟩
      · exact absurd (front reaches) (by omega)
      · exact start
    obtain ⟨x, part, with_x, after⟩ := clearRange_view mapped range mem has outside
    have all : ∀ y ∈ m.parts pagenum pages, y.Has (pagenum + pages) →
        y.view (pagenum + pages) = x.view (pagenum + pages) := by
      intro y part' has_y
      have with_y := partWith_of_mem (mapped.words m mem) range part' has_y
      simp only [view, imagePage, with_y.image, with_x.image, with_y.skip,
        with_x.skip, with_y.load, with_x.load, with_y.read, with_x.read, with_y.cow, with_x.cow,
        with_y.record, with_x.record, behind y with_y, behind x with_x]
    have before : p.view (pagenum + pages) = some (m.view (pagenum + pages)) := by
      refine view_eq_some mem has fun y listed has_y => ?_
      rw [mapped.unique mem listed has has_y]
    have same := exact_range.outside (pagenum + pages) outside
    rw [before, after all] at same
    exact with_x.view_ne (mapped.words m mem) (behind x with_x) (by omega) (le_refl _) range file
      (some.inj same)
  · intro files
    exact ⟨fun page low high => clearRange_inside mapped range low high,
      fun page outside => clearRange_outside mapped range files outside⟩

end

open FourGigabytes

/-- A file of four pages that loses the last two, and memory without a file that loses pages from the
middle. -/
def twoMappings : Process :=
  { Process.empty with
    mappings := [.create (some 1) 16 4 0 0 false false, .create none 20 8 0 0 false false] }

theorem twoMappings_mapped : Mapped twoMappings.mappings := by
  refine ⟨by decide, pairwise_pair.mpr fun page has has' => ?_⟩
  have high : page < 20 := has.2
  have low : 20 ≤ page := has'.1
  omega

theorem clearsExactly_twoMappings :
    ClearsExactly twoMappings 18 2 ∧ ClearsExactly twoMappings 22 2 := by
  have same : ∀ v : ℕ, twoMappings.mappings.all (fun m => m.image.isNone ||
      !decide (m.overlapPage v < m.overlapEnd v 2) || !decide (v + 2 < m.ending)) = true →
      ∀ m ∈ twoMappings.mappings, m.image.isSome = true → ¬m.ReachesPast v 2 := by
    intro v all m mem file reaches
    have here := all_eq_true.mp all m mem
    simp only [MemMapping.ReachesPast] at reaches
    simp [reaches, isSome_iff_ne_none.mp file] at here
  exact ⟨(clearsExactly_iff twoMappings_mapped (by decide)).mpr (same 18 (by decide)),
    (clearsExactly_iff twoMappings_mapped (by decide)).mpr (same 22 (by decide))⟩

/-- Of a file of eight pages the pages 2 and 3 are cleared.  The page behind them was page 4 of the
file and is page 0 afterwards. -/
theorem not_clearsExactly_split :
    ∃ p : Process, Mapped p.mappings ∧
      (p.view 20).bind PageView.file = some (1, 4) ∧
      ((p.clearRange 18 2).view 20).bind PageView.file = some (1, 0) ∧
      ¬ClearsExactly p 18 2 := by
  refine ⟨{ Process.empty with mappings := [.create (some 1) 16 8 0 0 false false] },
    ⟨by decide, pairwise_singleton ..⟩, by decide, by decide, fun exact_range => ?_⟩
  have same := congrArg (Option.bind · PageView.file) (exact_range.outside 20 (by decide))
  exact absurd same (by decide)

end JeoKernel.AddressSpace
