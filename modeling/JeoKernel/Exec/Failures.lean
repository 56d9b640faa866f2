import JeoKernel.Exec.Munmap

/-!
# Calls that fail

`Map` appends its mapping before it goes through the page tables, `brk` gives pages back one by one,
and `mmap` at a fixed address clears the range before it looks at the descriptor.  For each of the
calls, a condition on the process and the arguments tells when a failure leaves the address space as
it was.
-/

namespace JeoKernel.AddressSpace

open List Loop MmapArgs Process

/-! ## What is claimed -/

section

variable [TableMemory]

def Process.Mapped (p : Process) (page : ℕ) : Prop := ∃ m ∈ p.mappings, m.Contains page

/-- The mappings with their records, the break and the entries of the mapped pages are the same. -/
structure Unchanged (p p' : Process) : Prop where
  mappings : p'.mappings = p.mappings
  programBrk : p'.programBrk = p.programBrk
  entries : ∀ page, p.Mapped page → p'.tables.get page = p.tables.get page

inductive Call where
  | mapImage (grants : Grants) (image : Option ℕ) (pagenum pages imageSkipPages : UInt32)
      (load : UInt16) (write execute copyOnWrite binaryMap : Bool)
  | map (grants : Grants) (pagenum pages : UInt32) (binaryMap : Bool)
  | brk (grants : Grants) (brkAddr : Int64)
  | mmap (grants : Fin 3 → Grants) (c : MmapArgs)

/-- Whether the call fails, and the process after it.  An address that `mmap` returns is a multiple
of the page size, so it is not one of the negative numbers of the errors. -/
def Call.run (p : Process) : Call → Bool × Process
  | .mapImage grants image pagenum pages imageSkipPages load write execute copyOnWrite binaryMap =>
    let answer := p.mapImage grants image pagenum.toNat pages.toNat imageSkipPages.toNat load.toNat
      write execute copyOnWrite binaryMap
    (!answer.1, answer.2)
  | .map grants pagenum pages binaryMap =>
    let answer := p.map grants pagenum.toNat pages.toNat binaryMap
    (!answer.1, answer.2)
  | .brk grants brkAddr =>
    let answer := p.brk grants brkAddr.toInt
    (answer.result.isNone, answer.process)
  | .mmap grants c =>
    let answer := p.mmap grants c
    (-4096 < answer.1 ∧ answer.1 < 0, answer.2)

/-! ## When a failure is clean -/

/-- The tests of `brk` that a request for the address `addr` passes. -/
def Process.BrkAllowed (p : Process) (m : MemMapping) (addr page : ℕ) : Prop :=
  m.image = none ∧ p.programBrk ≤ (m.pagenum + m.pages) * 4096 ∧ addr ≤ 127 * 2 ^ 39 ∧
    ¬((m.pagenum + m.pages) * 4096 ≤ 3 * 2 ^ 30 ∧ addr > 3 * 2 ^ 30) ∧ m.pagenum < page

def brkPage (addr : ℕ) : ℕ := addr / 4096 + if addr % 4096 ≠ 0 then 1 else 0

/-- The pages that `brk` comes to before it fails: to extend the heap, those that are mapped have the
entry of a new page; to shrink it, they have no record, and those that are mapped are not present. -/
structure BrkClean (p : Process) (grants : Grants) (m : MemMapping) (page : ℕ) : Prop where
  extend : checkMapOverlap p.mappings (wrap32 (m.pagenum + m.pages))
      (wrap32 (page - (m.pagenum + m.pages))) →
    ∀ q, m.pagenum + m.pages ≤ q → q < page → Entered p.tables grants (m.pagenum + m.pages) q →
      p.Mapped (wrap32 q) → p.tables.get (wrap32 q) = freshEntry true true .zero
  shrink : ∀ q, page ≤ q → q < m.pagenum + m.pages → Entered p.tables grants page q →
    (∀ h ∈ m.mappings, h.page ≠ q) ∧ (p.Mapped (wrap32 q) → ¬(p.tables.get (wrap32 q)).present)

def MmapArgs.firstPages (c : MmapArgs) : ℕ := if c.file.isSome then c.fullPages else c.pages

def MmapArgs.fixedPage (c : MmapArgs) : ℕ := wrap32 (c.addr.toNat / 4096)

def MmapArgs.cleared (c : MmapArgs) (p : Process) (grants : Grants) : Process :=
  (p.clearRange c.fixedPage (wrap32 c.pages)).disableRange grants c.fixedPage (wrap32 c.pages)

/-- The request is refused, and no mapping meets the range that is cleared before.  A mapping that
ends beyond the last page number may have pages there; they are not present. -/
structure FixedClean (p : Process) (c : MmapArgs) : Prop where
  refuses : c.refuses
  apart : ∀ m ∈ p.mappings, ¬m.overlapPage c.fixedPage < m.overlapEnd c.fixedPage (wrap32 c.pages)
  absent : ∀ page, c.fixedPage ≤ page → page < c.fixedPage + wrap32 c.pages → p.Mapped page →
    ¬(p.tables.get page).present

/-- A request without a fixed address is refused, or `Map` finds an overlap. -/
structure MmapClean (p : Process) (c : MmapArgs) : Prop where
  found : c.flags &&& mapTypeMask = mapPrivate → !c.fixed →
    findFree p.mappings (wrap32 c.pages) ≠ 0 →
    c.refuses ∨ ¬checkMapOverlap p.mappings (wrap32 (findFree p.mappings (wrap32 c.pages)))
      (wrap32 c.firstPages)
  fixed : c.flags &&& mapTypeMask = mapPrivate → c.fixed → c.addr.toNat % 4096 = 0 →
    isInRange c.fixedPage (wrap32 c.pages) → FixedClean p c

def Call.Clean (p : Process) : Call → Prop
  | .mapImage _ _ pagenum pages _ _ _ _ _ _ =>
    ¬checkMapOverlap p.mappings pagenum.toNat pages.toNat
  | .map _ pagenum pages _ => ¬checkMapOverlap p.mappings pagenum.toNat pages.toNat
  | .brk grants brkAddr =>
    ∀ m i, brkMapping p.mappings = some (m, i) →
      p.BrkAllowed m (p.brkTarget m brkAddr.toInt) (brkPage (p.brkTarget m brkAddr.toInt)) →
      BrkClean p grants m (brkPage (p.brkTarget m brkAddr.toInt))
  | .mmap _ c => MmapClean p c

/-- A request at a fixed address makes a mapping that the process has. -/
def Call.Remakes (p : Process) : Call → Prop
  | .mmap _ c => c.fixed ∧ ∃ m ∈ c.created (c.addr.toNat / 4096), m ∈ p.mappings
  | _ => False

end

variable {c : MmapArgs} {m m' : MemMapping} {ms : List MemMapping} {v n i : ℕ}

/-! ## Entries -/

theorem freshEntry_again (write execute : Bool) (e : PageEntry) :
    freshEntry write execute (freshEntry write execute e) = freshEntry write execute e := rfl

theorem absent_iff (e : PageEntry) : { e with present := false } = e ↔ ¬e.present := by
  cases e
  simp [eq_comm]

/-! ## The mappings of a request -/

theorem set_eq_self_iff {x : MemMapping} (at_i : ms[i]? = some m) :
    ms.set i x = ms ↔ x = m := by
  obtain ⟨l, l', split, set⟩ := set_split at_i
  rw [set, split]
  simp

theorem created_head {new : List MemMapping} (created : c.created v = m :: new) :
    m.pagenum = wrap32 v ∧ m.pages = wrap32 c.firstPages := by
  unfold MmapArgs.created at created
  cases given : c.file with
  | none =>
    rw [given] at created
    obtain ⟨rfl, -⟩ := cons.inj created
    simp [firstPages, given, MemMapping.create]
  | some file =>
    rw [given] at created
    dsimp only at created
    split_ifs at created with whole <;>
      obtain ⟨rfl, -⟩ := cons.inj created <;>
      simp [firstPages, given, imagePart, MemMapping.create]

theorem firstPages_cases (c : MmapArgs) :
    wrap32 c.firstPages ≤ wrap32 c.pages ∨
      wrap32 c.pages = 0 ∧ wrap32 c.firstPages = 2 ^ 32 - 1 := by
  have count : c.pages = c.firstPages ∨ c.pages = c.firstPages + 1 := by
    unfold firstPages
    split_ifs
    · exact fullPages_cases c
    · exact .inl rfl
  unfold wrap32
  omega

theorem fixedPage_bounds (range : isInRange c.fixedPage (wrap32 c.pages)) :
    2 ^ 31 ≤ c.fixedPage ∧ c.fixedPage + wrap32 c.pages < 2 ^ 32 := by
  simp only [isInRange, Bool.and_eq_true, decide_eq_true_eq] at range
  unfold lowLim highLim at range
  omega

theorem not_error_of_address (v : ℕ) :
    ¬(-4096 < Int.bmod (v * 4096 : ℕ) (2 ^ 64) ∧ Int.bmod (v * 4096 : ℕ) (2 ^ 64) < 0) := by
  rw [Int.bmod_def]
  split_ifs <;> omega

/-! ## Mappings and ranges -/

theorem overlapEnd_cases (ending : wrap32 (v + n) = v + n) :
    m.overlapEnd v n ≤ v + n ∧ m.overlapEnd v n ≤ m.ending ∧
      (m.overlapEnd v n < m.ending → m.overlapEnd v n = v + n) := by
  unfold MemMapping.overlapEnd
  split_ifs <;> omega

theorem overlapPage_of_before (before : m.pagenum < m.overlapPage v) : m.overlapPage v = v := by
  unfold MemMapping.overlapPage at before ⊢
  split_ifs at before ⊢ <;> omega

/-- The parts of a mapping that `clear` leaves do not meet the range. -/
theorem clear_parts_apart (bound : v + n < 2 ^ 32) {x : MemMapping}
    (mem : x ∈ (m.clear v n).kept ++ (m.clear v n).split) :
    ¬x.overlapPage v < x.overlapEnd v n := by
  have ending := wrap32_eq bound
  have high := overlapEnd_cases (m := m) ending
  have below : m.pagenum < v → wrap32 (m.pagenum + (v - m.pagenum)) = v := fun before => by
    rw [Nat.add_sub_of_le before.le]
    exact Nat.mod_eq_of_lt (by omega)
  unfold MemMapping.clear at mem
  by_cases overlaps : m.overlapPage v < m.overlapEnd v n
  · rw [if_pos overlaps] at mem
    unfold MemMapping.overlapPage MemMapping.overlapEnd MemMapping.ending
    split_ifs at mem with before behind behind'
    · have first := overlapPage_of_before before
      simp only [singleton_append, mem_cons, not_mem_nil, or_false] at mem
      rcases mem with rfl | rfl
      · rw [first, ending, below (first ▸ before)]
        split_ifs <;> omega
      · dsimp only
        split_ifs <;> omega
    · have first := overlapPage_of_before before
      simp only [append_nil, mem_singleton] at mem
      subst mem
      rw [first, ending, below (first ▸ before)]
      split_ifs <;> omega
    · have last := high.2.2 behind'
      simp only [append_nil, mem_singleton] at mem
      subst mem
      dsimp only
      split_ifs <;> omega
    · simp at mem
  · rw [if_neg overlaps] at mem
    simp only [append_nil, mem_singleton] at mem
    exact mem ▸ overlaps

theorem not_overlap_of_le {k : ℕ} (apart : ¬m.overlapPage v < m.overlapEnd v n)
    (bound : v + n < 2 ^ 32) (le : k ≤ n) : ¬m.overlapPage v < m.overlapEnd v k := by
  unfold MemMapping.overlapPage MemMapping.overlapEnd at apart ⊢
  rw [wrap32_eq bound] at apart
  rw [wrap32_eq (by omega)]
  split_ifs at apart ⊢ <;> omega

theorem checkMapOverlap_iff :
    checkMapOverlap ms v n ↔ ∀ m ∈ ms, ¬m.overlapPage v < m.overlapEnd v n := by
  simp [checkMapOverlap]

section

variable [LowTables] {p p' : Process} {grants : Grants} {func : PageEntry → PageEntry}

theorem Unchanged.refl (p : Process) : Unchanged p p := ⟨rfl, rfl, fun _ _ => rfl⟩

/-! ## Map -/

theorem addMapping_failed (failed : ¬(p.addMapping grants m func).1) :
    ¬checkMapOverlap p.mappings m.pagenum m.pages ∧ (p.addMapping grants m func).2 = p ∨
      checkMapOverlap p.mappings m.pagenum m.pages ∧
        (p.addMapping grants m func).2.mappings = p.mappings ++ [m] := by
  revert failed
  fun_cases addMapping p grants m func with intro failed
  | case1 => exact absurd rfl failed
  | case2 check t done => exact .inr ⟨check, rfl⟩
  | case3 check => exact .inl ⟨check, rfl⟩

theorem not_unchanged_of_longer (new : List MemMapping) (longer : p'.mappings = p.mappings ++ new)
    (some_new : new ≠ []) : ¬Unchanged p p' := fun same =>
  some_new (append_right_eq_self.mp (longer.symm.trans same.mappings))

theorem addMapping_unchanged_iff (failed : ¬(p.addMapping grants m func).1) :
    Unchanged p (p.addMapping grants m func).2 ↔
      ¬checkMapOverlap p.mappings m.pagenum m.pages := by
  rcases addMapping_failed failed with ⟨check, same⟩ | ⟨check, added⟩
  · rw [same]
    exact iff_of_true (.refl p) check
  · exact iff_of_false (not_unchanged_of_longer [m] added (cons_ne_nil m [])) (not_not_intro check)

/-! ## The program break -/

theorem brk_cases (p : Process) (grants : Grants) (brkAddr : ℤ) :
    let target m := p.brkTarget m brkAddr
    p.brk grants brkAddr = ⟨none, p, []⟩ ∧ (∀ m i, brkMapping p.mappings = some (m, i) →
        ¬p.BrkAllowed m (target m) (brkPage (target m))) ∨
      ∃ m i, brkMapping p.mappings = some (m, i) ∧ p.BrkAllowed m (target m) (brkPage (target m)) ∧
        p.brk grants brkAddr = p.brkTo grants m i (brkPage (target m)) (target m) := by
  unfold brk
  cases found : brkMapping p.mappings with
  | none => exact .inl ⟨rfl, by simp⟩
  | some b =>
    obtain ⟨m, i⟩ := b
    dsimp only
    rw [← brkPage]
    by_cases allowed : p.BrkAllowed m (p.brkTarget m brkAddr) (brkPage (p.brkTarget m brkAddr))
    · obtain ⟨image, brk, high, low, above⟩ := allowed
      refine .inr ⟨m, i, rfl, ⟨image, brk, high, low, above⟩, ?_⟩
      rw [if_neg (by simp [image]), if_neg (not_lt.mpr brk), if_neg (not_lt.mpr high), if_neg low,
        if_neg (not_le.mpr above)]
    · refine .inl ⟨?_, ?_⟩
      · split_ifs with image brk high low above
        · rfl
        · rfl
        · rfl
        · rfl
        · rfl
        · exact absurd ⟨by simpa using image, not_lt.mp brk, not_lt.mp high, low, not_le.mp above⟩
            allowed
      · rintro m' i' same
        obtain ⟨rfl, rfl⟩ := Prod.mk.inj (Option.some.inj same)
        exact allowed

/-- What the loop that shrinks the heap has done when it comes to page `i`. -/
structure ShrunkTo (grants : Grants) (t : PageTables) (records : List PhysMapping) (page i : ℕ)
    (s : PageTables × List PhysMapping × List PhysMapping) : Prop where
  tables : EnteredUpTo grants (fun e => { e with present := false }) page i t s.1
  kept : s.2.1 = records.filter fun h => ¬(page ≤ h.page ∧ h.page < i)

variable {page : ℕ}

theorem shrink_entered (grants : Grants) {endpage : ℕ} (le : page ≤ endpage) (t : PageTables)
    (records : List PhysMapping) :
    Post (ShrunkTo grants t records page endpage)
      (fun s => ∃ i, page ≤ i ∧ i < endpage ∧ ¬CanEnter t grants page i ∧
        ShrunkTo grants t records page i s)
      (forRange page endpage (shrinkTurn grants) (t, records, [])) := by
  apply forRange_post (I := ShrunkTo grants t records page) le
  · rintro i ⟨t', left, freed⟩ low high earlier
    unfold shrinkTurn
    dsimp only
    split
    · next done =>
      refine ⟨earlier.tables.modify (fun _ => rfl) low done, ?_⟩
      have kept : left = _ := earlier.kept
      rw [kept, filter_page_ne low]
    · next failed =>
      refine ⟨i, low, high, ?_, earlier⟩
      rw [earlier.tables.canEnter_iff, failed]
      exact Bool.false_ne_true
  · exact ⟨enteredUpTo_refl, (filter_page_none records page).symm⟩

theorem extend_unchanged_iff {endpage : ℕ} {t : PageTables} (le : endpage ≤ page)
    (done : modifyRange grants (freshEntry true true) endpage page p.tables = .error t) :
    Unchanged p { p with tables := t } ↔
      ∀ q, endpage ≤ q → q < page → Entered p.tables grants endpage q → p.Mapped (wrap32 q) →
        p.tables.get (wrap32 q) = freshEntry true true .zero := by
  have loop := modifyRange_entered grants (freshEntry_again true true) le p.tables
  rw [done] at loop
  obtain ⟨stop, low, high, stops, entered⟩ := loop
  have iff := entered.same_iff stops low p.Mapped
  constructor
  · intro same q low _ reached mapped
    exact (iff.mp same.entries q low reached mapped).symm
  · intro clean
    refine ⟨rfl, rfl, iff.mpr fun q low' reached mapped => ?_⟩
    have before := (entered.entered_iff stops low).mp reached
    exact (clean q low' (by omega) reached mapped).symm

theorem shrink_unchanged_iff {t : PageTables} {records freed : List PhysMapping}
    (at_i : p.mappings[i]? = some m) (le : page ≤ m.pagenum + m.pages)
    (done : forRange page (m.pagenum + m.pages) (shrinkTurn grants) (p.tables, m.mappings, []) =
      .error (t, records, freed)) :
    Unchanged p { p with mappings := p.mappings.set i { m with mappings := records }, tables := t } ↔
      ∀ q, page ≤ q → q < m.pagenum + m.pages → Entered p.tables grants page q →
        (∀ h ∈ m.mappings, h.page ≠ q) ∧
          (p.Mapped (wrap32 q) → ¬(p.tables.get (wrap32 q)).present) := by
  have loop := shrink_entered grants le p.tables m.mappings
  rw [done] at loop
  obtain ⟨stop, low, high, stops, entered, kept⟩ := loop
  have iff := entered.same_iff stops low p.Mapped
  simp only [absent_iff] at iff
  dsimp only at kept iff
  -- no record is gone if none was at a page before the one that failed
  have all : records = m.mappings ↔ ∀ h ∈ m.mappings, ¬(page ≤ h.page ∧ h.page < stop) := by
    rw [kept, filter_eq_self]
    simp only [decide_eq_true_eq]
  constructor
  · intro same q low' _ reached
    refine ⟨fun h mem here => ?_, iff.mp same.entries q low' reached⟩
    have records_eq := congrArg MemMapping.mappings ((set_eq_self_iff at_i).mp same.mappings)
    have before := (entered.entered_iff stops low).mp reached
    exact all.mp records_eq h mem (here ▸ ⟨low', before⟩)
  · intro clean
    refine ⟨(set_eq_self_iff at_i).mpr ?_, rfl, iff.mpr fun q low' reached mapped => ?_⟩
    · rw [all.mpr]
      rintro h mem ⟨low', before⟩
      have reached := (entered.entered_iff stops low).mpr before
      exact (clean h.page low' (by omega) reached).1 h mem rfl
    · have before := (entered.entered_iff stops low).mp reached
      exact (clean q low' (by omega) reached).2 mapped

theorem brkTo_unchanged_iff {addr : ℕ} (at_i : p.mappings[i]? = some m)
    (failed : (p.brkTo grants m i page addr).result = none) :
    Unchanged p (p.brkTo grants m i page addr).process ↔ BrkClean p grants m page := by
  revert failed
  fun_cases brkTo p grants m i page addr with intro failed
  | case3 _ _ extend check t done =>
    refine (extend_unchanged_iff extend.le done).trans ⟨fun clean => ?_, (·.extend check)⟩
    exact ⟨fun _ => clean, fun q low high => by omega⟩
  | case4 _ _ extend check =>
    exact iff_of_true (.refl p) ⟨fun passed => absurd passed check, fun q low high => by omega⟩
  | case6 _ _ extend t records freed done =>
    refine (shrink_unchanged_iff at_i (by omega) done).trans ⟨fun clean => ?_, BrkClean.shrink⟩
    exact ⟨fun _ q _ high => by omega, clean⟩
  | _ => cases failed

variable {grants' : Grants} {e : ℤ} {r : Option ℤ × Process}

/-- A request that fails is refused or overlaps, or its mapping stays behind. -/
theorem Installed.failed (h : Installed p grants grants' c v r) (failed : r.1 = some e) :
    (c.refuses ∨ ¬checkMapOverlap p.mappings (wrap32 v) (wrap32 c.firstPages)) ∧ r.2 = p ∨
      ¬(c.refuses ∨ ¬checkMapOverlap p.mappings (wrap32 v) (wrap32 c.firstPages)) ∧
        ∃ m ∈ c.created v, ∃ new, r.2.mappings = p.mappings ++ m :: new := by
  cases h with
  | refused refuses => exact .inl ⟨.inl refuses, rfl⟩
  | @single m accepts created =>
    obtain ⟨pagenum, pages⟩ := created_head created
    split_ifs at failed with not_mapped
    rw [← pagenum, ← pages]
    exact (addMapping_failed not_mapped).imp (.imp_left .inr) fun ⟨check, added⟩ =>
      ⟨not_or_intro accepts (not_not_intro check), m, by simp [created], [], added⟩
  | @first m m' accepts created not_mapped =>
    obtain ⟨pagenum, pages⟩ := created_head created
    rw [← pagenum, ← pages]
    exact (addMapping_failed not_mapped).imp (.imp_left .inr) fun ⟨check, added⟩ =>
      ⟨not_or_intro accepts (not_not_intro check), m, by simp [created], [], added⟩
  | @second m m' accepts created mapped =>
    obtain ⟨pagenum, pages⟩ := created_head created
    obtain ⟨mappings, made⟩ := addMapping_made mapped
    rw [← pagenum, ← pages]
    refine .inr ⟨not_or_intro accepts (not_not_intro made.check), m, by simp [created], ?_⟩
    split_ifs at failed with not_mapped
    rcases addMapping_failed not_mapped with ⟨-, same⟩ | ⟨-, added⟩
    · exact ⟨[], by rw [same, mappings]⟩
    · exact ⟨[m'], by rw [added, mappings, append_assoc]; rfl⟩

/-! ## Requests at a fixed address -/

theorem clearRange_apart (bound : v + n < 2 ^ 32) :
    ∀ m ∈ (p.clearRange v n).mappings, ¬m.overlapPage v < m.overlapEnd v n := by
  intro x mem
  simp only [clearRange, mem_append, mem_flatMap] at mem
  rcases mem with ⟨m, -, kept⟩ | ⟨m, -, split⟩
  · exact clear_parts_apart bound (mem_append_left _ kept)
  · exact clear_parts_apart bound (mem_append_right _ split)

section

variable (range : isInRange c.fixedPage (wrap32 c.pages))

include range

theorem cleared_check (grants : Grants) :
    checkMapOverlap (c.cleared p grants).mappings c.fixedPage (wrap32 c.firstPages) := by
  obtain ⟨low, high⟩ := fixedPage_bounds range
  refine checkMapOverlap_iff.mpr fun m mem => ?_
  rcases firstPages_cases c with less | ⟨-, all⟩
  · exact not_overlap_of_le (clearRange_apart high m mem) high less
  · -- the end of the range is just below its start
    unfold MemMapping.overlapPage MemMapping.overlapEnd
    rw [all]
    unfold wrap32
    split_ifs <;> omega

theorem cleared_unchanged_iff (refuses : c.refuses) (grants : Grants) :
    Unchanged p (c.cleared p grants) ↔ FixedClean p c := by
  obtain ⟨low, high⟩ := fixedPage_bounds range
  have entry := disableRange_get grants (p := p.clearRange c.fixedPage (wrap32 c.pages)) high.le
  constructor
  · intro same
    refine ⟨refuses, fun m mem => ?_, fun page first last mapped => ?_⟩
    · rw [← same.mappings] at mem
      exact clearRange_apart high m mem
    · have kept := same.entries page mapped
      rw [cleared, entry, if_pos ⟨first, last⟩] at kept
      exact (absent_iff _).mp kept
  · intro clean
    obtain ⟨kept, split⟩ := flatMap_clear_apart clean.apart
    refine ⟨?_, rfl, fun page mapped => ?_⟩
    · simp only [cleared, disableRange, clearRange, kept, split, append_nil]
    · rw [cleared, entry]
      split_ifs with range
      · exact (absent_iff _).mpr (clean.absent page range.1 range.2 mapped)
      · rfl

end

/-! ## The result -/

theorem mmapPlace_cases (place : p.mmapPlace grants c = .ok (v, p')) :
    ((!c.fixed) = true ∧ findFree p.mappings (wrap32 c.pages) ≠ 0 ∧
        v = findFree p.mappings (wrap32 c.pages) ∧ p' = p) ∨
      (c.fixed = true ∧ c.addr.toNat % 4096 = 0 ∧ isInRange c.fixedPage (wrap32 c.pages) = true ∧
        v = c.addr.toNat / 4096 ∧ p' = c.cleared p grants) := by
  revert place
  fun_cases mmapPlace p grants c with first | rintro ⟨⟩ | intro place
  | case2 free found => exact .inl ⟨free, found, rfl, rfl⟩
  | case5 fixed aligned page range =>
    obtain ⟨rfl, rfl⟩ := Prod.mk.inj (Except.ok.inj place)
    exact .inr ⟨by simpa using fixed, not_not.mp aligned, by simpa [fixedPage, page] using range,
      rfl, rfl⟩

theorem mmapPlace_refuses (place : p.mmapPlace grants c = .error e) :
    ((!c.fixed) = true → findFree p.mappings (wrap32 c.pages) = 0) ∧
      (c.fixed = true → c.addr.toNat % 4096 = 0 →
        ¬isInRange c.fixedPage (wrap32 c.pages) = true) := by
  revert place
  fun_cases mmapPlace p grants c with rintro ⟨⟩
  | case1 free none => exact ⟨fun _ => none, fun fixed => by simp [fixed] at free⟩
  | case3 fixed misaligned =>
    exact ⟨(absurd · fixed), fun _ aligned => absurd aligned misaligned⟩
  | case4 fixed _ page outside =>
    exact ⟨(absurd · fixed), fun _ _ => by simpa [fixedPage, page] using outside⟩

theorem mmap_unchanged {grants : Fin 3 → Grants}
    (failed : -4096 < (p.mmap grants c).1 ∧ (p.mmap grants c).1 < 0) :
    (MmapClean p c → Unchanged p (p.mmap grants c).2) ∧
      (¬Call.Remakes p (.mmap grants c) → Unchanged p (p.mmap grants c).2 → MmapClean p c) := by
  revert failed
  fun_cases mmap p grants c with intro failed
  | case1 shared =>
    exact ⟨fun _ => .refl p, fun _ _ =>
      ⟨fun isPrivate => absurd isPrivate shared, fun isPrivate => absurd isPrivate shared⟩⟩
  | case2 _ e place =>
    obtain ⟨found, fixed⟩ := mmapPlace_refuses place
    exact ⟨fun _ => .refl p, fun _ _ => ⟨fun _ free some_page => absurd (found free) some_page,
      fun _ isFixed aligned range => absurd range (fixed isFixed aligned)⟩⟩
  | case3 shared v p' place e after install =>
    have installed : Installed p' (grants 1) (grants 2) c v _ := mmapInstall_installed
    rw [install] at installed
    rcases mmapPlace_cases place with ⟨free, found, rfl, rfl⟩ | ⟨fixed, aligned, range, rfl, rfl⟩
    · rcases installed.failed rfl with ⟨clean, same⟩ | ⟨accepts, m, -, new, added⟩
      · exact ⟨fun _ => same ▸ .refl _, fun _ _ =>
          ⟨fun _ _ _ => clean, fun _ fixed => by simp [fixed] at free⟩⟩
      · refine ⟨fun clean => absurd (clean.found (not_not.mp shared) free found) accepts, ?_⟩
        exact fun _ same => absurd same (not_unchanged_of_longer _ added (cons_ne_nil m new))
    · have clean_of (clean : FixedClean p c) : MmapClean p c :=
        ⟨fun _ free => by simp [fixed] at free, fun _ _ _ _ => clean⟩
      rcases installed.failed rfl with ⟨clean, same⟩ | ⟨accepts, m, made, new, added⟩
      · have refuses := clean.resolve_right (not_not_intro (cleared_check range (grants 0)))
        rw [show after = c.cleared p (grants 0) from same, cleared_unchanged_iff range refuses]
        exact ⟨fun clean => clean.fixed (not_not.mp shared) fixed aligned range,
          fun _ => clean_of⟩
      · refine ⟨fun clean => absurd (.inl ?_) accepts,
          fun fresh same => absurd ⟨fixed, m, made, ?_⟩ fresh⟩
        · exact (clean.fixed (not_not.mp shared) fixed aligned range).refuses
        · rw [← same.mappings, show after.mappings = _ from added]
          simp
  | case4 _ v =>
    dsimp only at failed
    exact absurd failed (not_error_of_address v)

/-- A call that fails leaves the address space alone where its condition holds and, unless it makes a
mapping that was there, only where it holds. -/
theorem unchanged_iff_clean (p : Process) (call : Call) (failed : (call.run p).1) :
    (call.Clean p → Unchanged p (call.run p).2) ∧
      (¬call.Remakes p → Unchanged p (call.run p).2 → call.Clean p) := by
  cases call with
  | mapImage grants image pagenum pages imageSkipPages load write execute copyOnWrite binaryMap =>
    have not_mapped : ¬(p.mapImage grants image pagenum.toNat pages.toNat imageSkipPages.toNat
        load.toNat write execute copyOnWrite binaryMap).1 := by simpa [Call.run] using failed
    have iff := addMapping_unchanged_iff not_mapped
    exact ⟨iff.mpr, fun _ => iff.mp⟩
  | map grants pagenum pages binaryMap =>
    have not_mapped : ¬(p.map grants pagenum.toNat pages.toNat binaryMap).1 := by
      simpa [Call.run] using failed
    have iff := addMapping_unchanged_iff not_mapped
    exact ⟨iff.mpr, fun _ => iff.mp⟩
  | brk grants brkAddr =>
    have no_result : (p.brk grants brkAddr.toInt).result = none := by
      simpa [Call.run] using failed
    dsimp only [Call.run, Call.Clean]
    rcases brk_cases p grants brkAddr.toInt with
      ⟨same, refused⟩ | ⟨m, i, found, allowed, same⟩
    · rw [same]
      exact ⟨fun _ => .refl p, fun _ _ m i found allowed => absurd allowed (refused m i found)⟩
    · rw [same] at no_result ⊢
      rw [brkTo_unchanged_iff (brkMapping_getElem found) no_result]
      refine ⟨fun clean => clean m i found allowed, fun _ clean m' i' found' _ => ?_⟩
      obtain ⟨rfl, rfl⟩ := Prod.mk.inj (Option.some.inj (found.symm.trans found'))
      exact clean
  | mmap grants c => exact mmap_unchanged (by simpa [Call.run] using failed)

end

open FourGigabytes

def onePage : Process :=
  { Process.empty with mappings := [.create none 0x80000000 1 0 0 false false] }

/-- The first mapping of the process has its table. -/
def oneTable : Process := (Process.empty.map allGranted 16 1 false).2

def badDescriptor (addr : UInt64) (flags : UInt32) : Call :=
  .mmap (fun _ => allGranted) ⟨addr, 4096, 3, flags, none, 0⟩

/-- At a free place, the request changes nothing. -/
theorem unchanged_bad_descriptor :
    ((badDescriptor 0 2).run onePage).1 ∧ Unchanged onePage ((badDescriptor 0 2).run onePage).2 := by
  have failed : ((badDescriptor 0 2).run onePage).1 := by decide +kernel
  refine ⟨failed, (unchanged_iff_clean onePage _ failed).1 ⟨fun _ _ _ => .inl ?_, fun _ fixed => ?_⟩⟩
  · decide
  · exact absurd fixed (by decide)

/-- `Map` fails because there is no page for another table, and leaves its mapping.  The request at a
fixed address takes away the mapping that was there. -/
theorem not_unchanged_failures :
    ((Call.map .nothing 512 1 false).run oneTable).1 ∧
      ¬Unchanged oneTable ((Call.map .nothing 512 1 false).run oneTable).2 ∧
      ((badDescriptor 0x80000000000 0x12).run onePage).1 ∧
      ¬Unchanged onePage ((badDescriptor 0x80000000000 0x12).run onePage).2 := by
  refine ⟨by decide +kernel, fun same => ?_, by decide +kernel, fun same => ?_⟩
  · exact absurd same.mappings (by decide +kernel)
  · exact absurd same.mappings (by decide +kernel)

end JeoKernel.AddressSpace
