import JeoKernel.Exec.Fault
import JeoKernel.Exec.MapRanges
import JeoKernel.Lib.Ledger

/-!
# Pages and their records

What a page of a mapping is to the process is its entry and the records of the page, in their order.
The invariant of a page is stated about these two, and every call is described by what it does to
them.
-/

namespace JeoKernel.AddressSpace

open List Loop Ledger MemMapping Process

def PhysMapping.Private (h : PhysMapping) : Prop := h.data = none ∧ h.cow = none

instance (h : PhysMapping) : Decidable h.Private := inferInstanceAs (Decidable (_ ∧ _))

def PhysMapping.Holds (h : PhysMapping) (n : ℕ) : Prop :=
  h.data = some n ∨ h.cow = some n ∨ (h.Private ∧ h.physPage = n)

instance (h : PhysMapping) (n : ℕ) : Decidable (h.Holds n) := inferInstanceAs (Decidable (_ ∨ _))

def records (mappings : List MemMapping) : List PhysMapping := mappings.flatMap (·.mappings)

def recordsOf (mappings : List MemMapping) (page : ℕ) : List PhysMapping :=
  (records mappings).filter (·.page = page)

structure ViewOk (e : PageEntry) (hs : List PhysMapping) : Prop where
  /-- A page that can be written is a private one. -/
  writes : e.present → e.writeable → ∃ h ∈ hs, h.Private ∧ h.physPage = e.pagePpn
  /-- `Protect` looks at the first record only. -/
  first : e.present → ∀ h ∈ hs.head?, h.Private → ∃ h' ∈ hs, h'.Private ∧ h'.physPage = e.pagePpn
  held : e.present → ∃ h ∈ hs, h.Holds e.pagePpn
  /-- A page of the file cache is not entered again as one that can be written. -/
  clean : e.writeable → ¬e.present → ∀ h ∈ hs.head?, h.data = none

def Process.Viewed [TableMemory] (p : Process) : Prop :=
  ∀ m ∈ p.mappings, ∀ page, m.Contains page →
    ViewOk (p.tables.get page) (recordsOf p.mappings page)

variable {m x : MemMapping} {ms ms' : List MemMapping} {page pagenum pages i : ℕ}
  {e e' : PageEntry} {hs : List PhysMapping}

/-! ## Records of a page -/

theorem recordsOf_eq_nil (fits : ∀ m ∈ ms, m.Fits) (outside : ∀ m ∈ ms, ¬m.Contains page) :
    recordsOf ms page = [] := by
  refine filter_eq_nil_iff.mpr fun r listed => ?_
  obtain ⟨m, mem, listed⟩ := mem_flatMap.mp listed
  simp only [decide_eq_true_eq]
  rintro rfl
  exact outside m mem ((fits m mem).inside r listed)

theorem recordsOf_eq (h : Separate ms) (mem : m ∈ ms) (inside : m.Contains page) :
    recordsOf ms page = m.mappings.filter (·.page = page) := by
  obtain ⟨l, l', rfl⟩ := append_of_mem mem
  obtain ⟨-, apart, rest⟩ := separate_middle.mp h
  have none : ∀ ms : List MemMapping, (∀ m' ∈ ms, m' ∈ l ++ l') → recordsOf ms page = [] :=
    fun ms others => recordsOf_eq_nil (fun m' mem => rest.fits m' (others m' mem))
      fun m' mem => apart m' (others m' mem) page inside
  have before := none l fun m' => mem_append_left _
  have behind := none l' fun m' => mem_append_right _
  unfold recordsOf records at before behind ⊢
  rw [flatMap_append, flatMap_cons, filter_append, filter_append, before, behind,
    nil_append, append_nil]

theorem physMapping_eq (h : Separate ms) (mem : m ∈ ms) (inside : m.Contains page) :
    m.physMapping page = (recordsOf ms page).head? := by
  rw [recordsOf_eq h mem inside, head?_filter]
  rfl

theorem Part.recordsOf (part : Part m x) (inside : x.Contains page) :
    x.mappings.filter (·.page = page) = m.mappings.filter (·.page = page) := by
  rw [part.records, filter_filter]
  refine filter_congr fun r _ => ?_
  by_cases same : r.page = page
  · simp [same, inside]
  · simp [same]

variable {kept new : List MemMapping}

/-- Cutting mappings leaves the records of the pages that stay mapped. -/
theorem Cut.recordsOf (cut : Cut ms kept new) (h : Separate ms) (mem : x ∈ kept ++ new)
    (inside : x.Contains page) :
    ∃ m ∈ ms, Part m x ∧ m.Contains page ∧
      AddressSpace.recordsOf (kept ++ new) page = AddressSpace.recordsOf ms page := by
  obtain ⟨m, listed, part⟩ := cut.contains x mem
  refine ⟨m, listed, part, part.contains inside, ?_⟩
  rw [recordsOf_eq (cut.separate h) mem inside, recordsOf_eq h listed (part.contains inside),
    part.recordsOf inside]

theorem viewOk_nil (absent : ¬e.present) : ViewOk e [] :=
  ⟨fun h => absurd h absent, fun h => absurd h absent, fun h => absurd h absent, by simp⟩

theorem records_append : records (ms ++ ms') = records ms ++ records ms' := flatMap_append

theorem records_cons : records (m :: ms) = m.mappings ++ records ms := flatMap_cons

theorem recordsOf_of_records (same : records ms = records ms') (page : ℕ) :
    recordsOf ms page = recordsOf ms' page := by
  unfold recordsOf
  rw [same]

theorem recordsOf_set {y : MemMapping} (h : Separate ms) (h' : Separate (ms.set i x))
    (mem : y ∈ ms.set i x) (old : y ∈ ms) (inside : y.Contains page) :
    recordsOf (ms.set i x) page = recordsOf ms page := by
  rw [recordsOf_eq h' mem inside, recordsOf_eq h old inside]

theorem mem_set_cases {y : MemMapping} (h : Separate ms) (at_i : ms[i]? = some m)
    (mem : y ∈ ms.set i x) : y = x ∨ (y ∈ ms ∧ m.Apart y) := by
  obtain ⟨l, l', split, set⟩ := set_split at_i
  obtain ⟨-, apart, -⟩ := separate_middle.mp (split ▸ h)
  rw [set] at mem
  rw [split]
  simp only [mem_append, mem_cons] at mem apart ⊢
  rcases mem with before | rfl | behind
  · exact .inr ⟨.inl before, apart y (.inl before)⟩
  · exact .inl rfl
  · exact .inr ⟨.inr (.inr behind), apart y (.inr behind)⟩

theorem records_set (x : MemMapping) (at_i : ms[i]? = some m) (same : x.mappings = m.mappings) :
    records (ms.set i x) = records ms := by
  obtain ⟨l, l', split, set⟩ := set_split at_i
  rw [set, split, records_append, records_append, records_cons, records_cons, same]

/-! ## Records of a mapping in parts -/

theorem filter_halves {Q Q' : PhysMapping → Prop} [DecidablePred Q] [DecidablePred Q']
    (other : ∀ r, Q' r ↔ ¬Q r) (l : List PhysMapping) :
    (l.filter (fun r => Q r) ++ l.filter fun r => Q' r).Perm l := by
  have same : (fun r => decide (Q' r)) = fun r => !decide (Q r) :=
    funext fun r => by rw [← decide_not]; exact decide_eq_decide.mpr (other r)
  rw [same]
  exact filter_append_perm _ l

theorem clear_records (m : MemMapping) (pagenum pages : ℕ) :
    let c := m.clear pagenum pages
    (records c.kept ++ records c.split ++ (c.released ++ c.destroyed)).Perm m.mappings := by
  unfold clear
  dsimp only
  generalize m.overlapPage pagenum = first
  generalize m.overlapEnd pagenum pages = last
  split_ifs
  · -- the records behind the start of the range go to the second part or are released
    have behind := filter_halves (Q := fun r => last ≤ r.page) (fun r => not_le.symm)
      (m.mappings.filter (first ≤ ·.page))
    have all := filter_halves (Q := fun r => r.page < first) (fun r => not_lt.symm) m.mappings
    simp only [filter_filter] at behind
    simp only [records, flatMap_cons, flatMap_nil, append_nil, append_assoc, Bool.decide_and]
    refine Perm.trans (Perm.append_left _ ?_) all
    simpa only [Bool.and_comm] using behind
  · simpa [records] using
      filter_halves (Q := fun r => r.page < first) (fun r => not_lt.symm) m.mappings
  · simpa [records] using
      filter_halves (Q := fun r => last ≤ r.page) (fun r => not_le.symm) m.mappings
  · simp [records]
  · simp [records]

theorem splitBelow_records (m : MemMapping) (start : ℕ) :
    (records (m.splitBelow start).1 ++ (m.splitBelow start).2.mappings).Perm m.mappings := by
  unfold splitBelow
  split
  · simp only [records, flatMap_cons, flatMap_nil, append_nil]
    exact filter_append_perm _ m.mappings
  · simp [records]

theorem splitAbove_records (m : MemMapping) (ending : ℕ) :
    (records (m.splitAbove ending).1 ++ (m.splitAbove ending).2.mappings).Perm m.mappings := by
  unfold splitAbove
  split_ifs
  · simp only [records, flatMap_cons, flatMap_nil, append_nil]
    exact filter_append_perm _ m.mappings
  · simp [records]

theorem protectParts_records (m : MemMapping) (pagenum pages : ℕ) :
    (records (m.protectParts pagenum pages).1 ++ (m.protectParts pagenum pages).2.mappings).Perm
      m.mappings := by
  unfold protectParts
  rw [records_append, append_assoc]
  exact ((splitAbove_records _ _).append_left _).trans (splitBelow_records _ _)

theorem setProtection_mappings (m : MemMapping) (prot : Prot) :
    (m.setProtection prot).mappings = m.mappings := by
  cases prot <;> rfl

theorem Modified.viewOk {prot : Prot} (change : Modified (protectEntry prot hs.head?) e e')
    (view : ViewOk e hs) : ViewOk e' hs := by
  rcases change with ⟨rfl, -⟩ | ⟨f, given, rfl⟩
  · exact view
  cases prot with
  | invalid => cases given
  | none =>
    cases given
    exact ⟨by simp, by simp, by simp, by simp⟩
  | read =>
    cases given
    exact ⟨by simp, view.first, view.held, by simp⟩
  | readWrite =>
    cases head : hs.head? with
    | none =>
      obtain rfl := head?_eq_none_iff.mp head
      cases given
      refine viewOk_nil fun present => ?_
      obtain ⟨h, mem, -⟩ := view.held present
      simp at mem
    | some h =>
      rw [head] at given
      simp only [protectEntry] at given
      split_ifs at given with other
      cases given
      have isPrivate : h.Private := by
        simp only [Bool.or_eq_true, decide_eq_true_eq, not_or, Bool.not_eq_true,
          Option.isSome_eq_false_iff, Option.isNone_iff_eq_none] at other
        exact other.1
      refine ⟨fun present _ => view.first present h head isPrivate, view.first, view.held, ?_⟩
      intro _ _ h' first
      exact Option.some.inj (head.symm.trans first) ▸ isPrivate.1

section

variable [LowTables] {p : Process}

/-! ## Map and ClearRange -/

theorem addMapping_records (grants : Grants) (func : PageEntry → PageEntry)
    (new : m.mappings = []) :
    records (p.addMapping grants m func).2.mappings = records p.mappings := by
  have added : records (p.mappings ++ [m]) = records p.mappings := by
    simp [records, new]
  unfold addMapping
  split_ifs
  · split <;> exact added
  · rfl

/-- A mapping that is made has no page that is present, if all its entries were reached or none of
them was present before. -/
theorem addMapping_viewed (viewed : p.Viewed) (h : Separate p.mappings) {grants : Grants}
    {func : PageEntry → PageEntry} (below : m.pagenum + m.pages < 2 ^ 32) (new : m.mappings = [])
    (fresh : ∀ e, ¬(func e).present)
    (stale : (p.addMapping grants m func).1 ∨
      ∀ page, m.Contains page → ¬(p.tables.get page).present) :
    (p.addMapping grants m func).2.Viewed := by
  have same := addMapping_records (p := p) grants func new
  have loop := modifyRange_get (t := p.tables) grants func (Nat.le_add_right m.pagenum m.pages)
    below.le
  -- the new mapping at the end, with any of the tables that the loop may leave
  have added : checkMapOverlap p.mappings m.pagenum m.pages →
      ∀ t, (∀ page, ¬m.Contains page → t.get page = p.tables.get page) →
      (∀ page, m.Contains page → ¬(t.get page).present) →
      records (p.mappings ++ [m]) = records p.mappings →
      Process.Viewed { p with mappings := p.mappings ++ [m], tables := t } := by
    intro check t others absent same m' mem page inside
    have apart : ∀ m' ∈ p.mappings, ∀ page, m'.Contains page → ¬m.Contains page := fun m' mem =>
      checkMapOverlap_apart below check mem (h.fits m' mem).below
    have recordsOf_same : recordsOf (p.mappings ++ [m]) page = recordsOf p.mappings page := by
      unfold recordsOf
      rw [same]
    rw [recordsOf_same]
    rcases mem_append.mp mem with old | made
    · rw [others page (apart m' old page inside)]
      exact viewed m' old page inside
    · obtain rfl := mem_singleton.mp made
      rw [recordsOf_eq_nil h.fits fun m'' mem'' inside' => apart m'' mem'' page inside' inside]
      exact viewOk_nil (absent page inside)
  revert same stale
  fun_cases addMapping p grants m func with intro stale same
  | case3 => exact viewed
  | case1 check t done =>
    rw [done] at loop
    refine added check t (fun page outside => ?_) (fun page inside => ?_) same
    · exact (loop LowTables.low page).trans (if_neg outside)
    · rw [(loop LowTables.low page).trans (if_pos inside)]
      exact fresh _
  | case2 check t done =>
    rw [done] at loop
    obtain ⟨last, -, before, changed⟩ := loop
    have unreached := stale.resolve_left (by simp)
    refine added check t (fun page outside => ?_) (fun page inside => ?_) same
    · rw [changed LowTables.low page, if_neg]
      rintro ⟨low, high⟩
      exact outside ⟨low, by omega⟩
    · rw [changed LowTables.low page]
      split_ifs
      · exact fresh _
      · exact unreached page inside

theorem Cut.viewed (cut : Cut p.mappings kept new) (h : Separate p.mappings) (viewed : p.Viewed) :
    Process.Viewed { p with mappings := kept ++ new } := by
  intro x mem page inside
  obtain ⟨m, listed, -, inside', same⟩ := cut.recordsOf h mem inside
  rw [same]
  exact viewed m listed page inside'

theorem clearRange_records (p : Process) (pagenum pages : ℕ) :
    (records (p.clearRange pagenum pages).mappings ++
      (p.mappings.flatMap (fun m => (m.clear pagenum pages).released) ++
        p.mappings.flatMap fun m => (m.clear pagenum pages).destroyed)).Perm
      (records p.mappings) := by
  simp only [clearRange, records_append]
  have pieces : ∀ f : MemMapping → List MemMapping,
      records (p.mappings.flatMap f) = p.mappings.flatMap fun m => records (f m) := fun f =>
    flatMap_assoc
  rw [pieces, pieces]
  refine ((flatMap_append_perm _ _ _).append (flatMap_append_perm _ _ _)).trans ?_
  refine (flatMap_append_perm _ _ _).trans ?_
  exact Perm.flatMap_left _ fun m _ => clear_records m pagenum pages

/-! ## Protect -/

theorem protectLoop_records (grants : Grants) (pagenum pages : ℕ) (prot : Prot)
    (ms : List MemMapping) (t : PageTables) :
    (records ((protectLoop grants pagenum pages prot ms t).1 ++
      (protectLoop grants pagenum pages prot ms t).2.1)).Perm (records ms) := by
  induction ms generalizing t with
  | nil => exact .refl _
  | cons m ms ih =>
    have whole := protectParts_records m pagenum pages
    refine perm_iff_count.mpr fun r => ?_
    have here := whole.count_eq r
    unfold protectLoop
    split_ifs with met invalid
    · simp only [records_append, records_cons, count_append] at here ⊢
      omega
    · have later := (ih (protectTables grants prot (m.protectParts pagenum pages).2 t)).count_eq r
      dsimp only
      generalize protectLoop grants pagenum pages prot ms
        (protectTables grants prot (m.protectParts pagenum pages).2 t) = loop at later ⊢
      obtain ⟨rest, new, t'⟩ := loop
      simp only [records_append, records_cons, count_append, setProtection_mappings]
        at here later ⊢
      omega
    · have later := (ih t).count_eq r
      generalize protectLoop grants pagenum pages prot ms t = loop at later ⊢
      obtain ⟨rest, new, t'⟩ := loop
      simp only [records_append, records_cons, count_append] at later ⊢
      omega

theorem protect_records (p : Process) (grants : Grants) (pagenum pages : ℕ) (prot : Prot) :
    (records (p.protect grants pagenum pages prot).2.mappings).Perm (records p.mappings) := by
  unfold protect
  split_ifs
  · exact .refl _
  · exact protectLoop_records grants pagenum pages prot p.mappings p.tables

theorem protectTables_get (grants : Grants) (prot : Prot) (inner : x.Fits) (t : PageTables)
    (page : ℕ) :
    if x.Contains page then
      Modified (protectEntry prot (x.physMapping page)) (t.get page)
        ((protectTables grants prot x t).get page)
    else (protectTables grants prot x t).get page = t.get page := by
  have change := tryModifyRange_get t grants (fun page => protectEntry prot (x.physMapping page))
    x.pagenum inner.below.le page
  unfold protectTables
  rw [ending_eq inner.below]
  exact change

/-- `Protect` changes the entry of a page of the mappings it meets, as the first record says. -/
theorem protectLoop_get (grants : Grants) (pagenum : ℕ) (prot : Prot) (h : Separate ms)
    (small : pages < 2 ^ 32) (t : PageTables) (page : ℕ) :
    ((protectLoop grants pagenum pages prot ms t).2.2.get page = t.get page ∧
      ∀ m ∈ ms, m.Contains page → prot = .invalid ∨ ¬m.isProtected pagenum pages ∨
        ¬(pagenum ≤ page ∧ page < pagenum + pages)) ∨
    ∃ m ∈ ms, m.Contains page ∧ (pagenum ≤ page ∧ page < pagenum + pages) ∧
      Modified (protectEntry prot (m.physMapping page)) (t.get page)
        ((protectLoop grants pagenum pages prot ms t).2.2.get page) := by
  induction ms generalizing t with
  | nil => exact .inl ⟨rfl, by simp⟩
  | cons m ms ih =>
    obtain ⟨fits, apart, rest⟩ := separate_cons.mp h
    unfold protectLoop
    by_cases met : m.isProtected pagenum pages
    swap
    · rw [if_neg met]
      refine (ih rest t).imp ?_ ?_
      · rintro ⟨same, kept⟩
        exact ⟨same, forall_mem_cons.mpr ⟨fun _ => .inr (.inl met), kept⟩⟩
      · rintro ⟨m', mem, change⟩
        exact ⟨m', mem_cons_of_mem _ mem, change⟩
    rw [if_pos met]
    dsimp only
    by_cases invalid : prot = .invalid
    · rw [if_pos invalid]
      exact .inl ⟨rfl, fun _ _ _ => .inl invalid⟩
    rw [if_neg invalid]
    have part := (protectParts_partsOf fits small met).part _ mem_cons_self
    have bounds := @inside_contains_iff _ page _ _ _ (protectParts_bounded fits small met)
    generalize (m.protectParts pagenum pages).2 = inside at part bounds ⊢
    have change := protectTables_get grants prot (part.fits fits) t page
    by_cases here : inside.Contains page
    · -- the mappings that follow do not contain the page
      have alone := (ih rest (protectTables grants prot inside t)).resolve_right <| by
        rintro ⟨m', mem, contains, -⟩
        exact apart m' mem page (part.contains here) contains
      rw [if_pos here] at change
      refine .inr ⟨m, mem_cons_self, part.contains here, (bounds.mp here).2, ?_⟩
      have first : inside.physMapping page = m.physMapping page := by
        unfold physMapping
        rw [← head?_filter, ← head?_filter, part.recordsOf here]
      rw [first] at change
      exact alone.1.symm ▸ change
    · rw [if_neg here] at change
      have rest := ih rest (protectTables grants prot inside t)
      rw [change] at rest
      refine rest.imp ?_ ?_
      · rintro ⟨same, kept⟩
        refine ⟨same, forall_mem_cons.mpr ⟨fun contains => .inr (.inr fun range => ?_), kept⟩⟩
        exact here (bounds.mpr ⟨contains, range⟩)
      · rintro ⟨m', mem, change⟩
        exact ⟨m', mem_cons_of_mem _ mem, change⟩

theorem protect_viewed (viewed : p.Viewed) (h : Separate p.mappings) (grants : Grants)
    (small : pages < 2 ^ 32) (prot : Prot) : (p.protect grants pagenum pages prot).2.Viewed := by
  unfold protect
  split_ifs
  · exact viewed
  have cut := protectLoop_cut grants pagenum prot h.fits small p.tables
  intro x mem page inside
  obtain ⟨m, listed, -, contains, same⟩ := cut.recordsOf h mem inside
  have view := viewed m listed page contains
  rw [same]
  rcases protectLoop_get grants pagenum prot h small p.tables page with
    ⟨unchanged, -⟩ | ⟨m', mem', contains', -, change⟩
  · rw [unchanged]
    exact view
  · rw [physMapping_eq h mem' contains'] at change
    exact change.viewOk view

/-! ## The program break -/

theorem BrkStep.records {b : Broken} (step : BrkStep p b) :
    (AddressSpace.records b.process.mappings ++ b.freed).Perm (AddressSpace.records p.mappings) := by
  have replaced : ∀ {i : ℕ} {m x : MemMapping} {freed : List PhysMapping},
      p.mappings[i]? = some m → (x.mappings ++ freed).Perm m.mappings →
      (AddressSpace.records (p.mappings.set i x) ++ freed).Perm (AddressSpace.records p.mappings) := by
    intro i m x freed at_i left
    obtain ⟨rest, before, after, -⟩ := flatMap_set_perm at_i (·.mappings)
    refine perm_iff_count.mpr fun r => ?_
    have before := before.count_eq r
    have after := (after x).count_eq r
    have left := left.count_eq r
    simp only [AddressSpace.records, count_append] at before after left ⊢
    omega
  cases step with
  | idle mappings _ freed => rw [mappings, freed, append_nil]
  | extended at_i => exact replaced at_i (by rw [append_nil])
  | notExtended => rw [append_nil]
  | shrunk at_i _ _ _ shrunk | notShrunk at_i _ _ _ shrunk => exact replaced at_i shrunk.freed

theorem BrkStep.viewed {b : Broken} (step : BrkStep p b) (h : Separate p.mappings)
    (viewed : p.Viewed) : b.process.Viewed := by
  have h' := step.separate h
  cases step with
  | idle mappings tables =>
    intro m mem page inside
    rw [mappings] at mem ⊢
    rw [tables]
    exact viewed m mem page inside
  | @extended m i last _ _ _ at_i above below free changed =>
    intro y mem page inside
    rw [recordsOf_of_records (records_set { m with pages := last - m.pagenum } at_i rfl),
      changed LowTables.low page]
    have listed := mem_of_getElem? at_i
    by_cases new : m.pagenum + m.pages ≤ page ∧ page < last
    · rw [if_pos new, recordsOf_eq_nil h.fits fun m' listed' inside' => free m' listed' page inside' new]
      exact viewOk_nil (by simp [freshEntry])
    · rw [if_neg new]
      rcases mem_set_cases h at_i mem with rfl | ⟨old, -⟩
      · refine viewed m listed page ⟨inside.1, ?_⟩
        have high : page < m.pagenum + (last - m.pagenum) := inside.2
        omega
      · exact viewed y old page inside
  | notExtended free before changed =>
    intro y mem page inside
    rw [changed LowTables.low page, if_neg fun new => free y mem page inside ⟨new.1, new.2.trans before⟩]
    exact viewed y mem page inside
  | @shrunk m i last _ _ s at_i _ above below shrunk =>
    intro y mem page inside
    have listed := mem_of_getElem? at_i
    have part := shrunk.part (h.fits m listed) above below
    rw [shrunk.tables LowTables.low page]
    rcases mem_set_cases h at_i mem with rfl | ⟨old, apart⟩
    · have high : page < m.pagenum + (last - m.pagenum) := inside.2
      rw [if_neg (by omega), recordsOf_eq h' mem inside, part.recordsOf inside,
        ← recordsOf_eq h listed (part.contains inside)]
      exact viewed m listed page (part.contains inside)
    · rw [if_neg fun gone => apart page ⟨above.le.trans gone.1, gone.2⟩ inside,
        recordsOf_set h h' mem old inside]
      exact viewed y old page inside
  | @notShrunk m i j last _ _ s at_i _ above below shrunk =>
    intro y mem page inside
    have listed := mem_of_getElem? at_i
    rw [shrunk.tables LowTables.low page]
    rcases mem_set_cases h at_i mem with rfl | ⟨old, apart⟩
    · have kept : s.2.1.filter (·.page = page) =
          if last ≤ page ∧ page < j then [] else m.mappings.filter (·.page = page) := by
        rw [shrunk.kept, filter_filter]
        split_ifs with gone
        · refine filter_eq_nil_iff.mpr fun r _ => ?_
          by_cases same : r.page = page <;> simp [same, gone]
        · refine filter_congr fun r _ => ?_
          by_cases same : r.page = page
          · simp only [same, decide_true, Bool.true_and, decide_eq_true_eq]
            exact gone
          · simp [same]
      rw [recordsOf_eq h' mem inside]
      rw [kept]
      split_ifs with gone
      · exact viewOk_nil (by simp)
      · rw [← recordsOf_eq h listed inside]
        exact viewed m listed page inside
    · rw [if_neg fun gone => apart page ⟨above.le.trans gone.1, gone.2.trans below⟩ inside,
        recordsOf_set h h' mem old inside]
      exact viewed y old page inside

end

end JeoKernel.AddressSpace
