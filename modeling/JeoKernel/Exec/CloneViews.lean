import JeoKernel.Exec.FaultViews

/-!
# What a fork does to a page

`WriteProtectCow` goes over the records of all mappings in their order.  Of the records of one page
only the first can find the page writeable, so a fork shares the first record of a page and passes
on, of the others, those that were shared already.
-/

namespace JeoKernel.AddressSpace

open List Option Loop Ledger PhysMapping PageEntry

variable {m x : MemMapping} {ms ms' : List MemMapping} {page : ℕ} {e : PageEntry}
  {h : PhysMapping} {hs hs' : List PhysMapping} {w : Bool}

/-! ## Records -/

@[simp] theorem share_page : (h.share w).page = h.page := by
  unfold share
  split_ifs <;> rfl

@[simp] theorem share_data : (h.share w).data = h.data := by
  unfold share
  split_ifs <;> rfl

@[simp] theorem share_false : h.share false = h := by
  simp [share]

theorem share_holds {n : ℕ} (held : h.Holds n) : (h.share w).Holds n := by
  unfold share
  split_ifs with shared
  · simp only [Bool.and_eq_true, isNone_iff_eq_none, decide_eq_true_eq] at shared
    rcases held with data | cow | ⟨-, rfl⟩
    · rw [shared.1.2] at data
      cases data
    · rw [shared.2] at cow
      cases cow
    · exact .inr (.inl rfl)
  · exact held

theorem share_eq_self (other : ¬h.Private) : h.share w = h := by
  unfold share
  rw [if_neg]
  simp only [Bool.and_eq_true, isNone_iff_eq_none]
  exact fun shared => other ⟨shared.1.2, shared.2⟩

theorem share_eq (proper : h.Proper) (isPrivate : h.Private) :
    h.share true = { h with cow := some h.physPage, physPage := 0 } := by
  unfold share
  simp [isPrivate.1, isPrivate.2, proper.nonzero isPrivate]

theorem share_not_private (proper : h.Proper) : ¬(h.share true).Private := by
  by_cases isPrivate : h.Private
  · rw [share_eq proper isPrivate]
    exact fun still => some_ne_none _ still.2
  · rwa [share_eq_self isPrivate]

theorem share_proper (proper : h.Proper) : (h.share w).Proper := by
  cases w with
  | false => rwa [share_false]
  | true =>
    by_cases isPrivate : h.Private
    · rw [share_eq proper isPrivate]
      refine ⟨fun n data => ?_, fun n shared => ⟨rfl, ?_⟩, fun still => ?_⟩
      · exact absurd (isPrivate.1.symm.trans data) (by simp)
      · exact some.inj shared ▸ proper.nonzero isPrivate
      · cases still.2
    · rwa [share_eq_self isPrivate]

theorem isCloned_false_iff : h.isCloned false ↔ ¬h.Private := by
  unfold isCloned PhysMapping.Private
  cases h.data <;> cases h.cow <;> simp

/-! ## Records of one page -/

/-- The records of a page in the parent: the first one is shared if the page could be written. -/
def shareHead (w : Bool) : List PhysMapping → List PhysMapping
  | [] => []
  | h :: hs => h.share w :: hs

def clonedHead (w : Bool) : List PhysMapping → List PhysMapping
  | [] => []
  | h :: hs => (if h.isCloned w then [h.share w] else []) ++ hs.filter (·.isCloned false)

@[simp] theorem shareHead_false : shareHead false hs = hs := by
  cases hs <;> simp [shareHead]

@[simp] theorem clonedHead_false : clonedHead false hs = hs.filter (·.isCloned false) := by
  cases hs with
  | nil => rfl
  | cons h hs =>
    by_cases cloned : h.isCloned false <;> simp [clonedHead, cloned]

/-- The entry of a page with the records `hs` after `WriteProtectCow`. -/
def sharedEntry (e : PageEntry) (hs : List PhysMapping) : PageEntry :=
  if hs = [] then e else protectWrite e

theorem ViewOk.shared (view : ViewOk e hs) (proper : ∀ h ∈ hs, h.Proper) :
    ViewOk (sharedEntry e hs) (shareHead e.writeable hs) := by
  cases hs with
  | nil => exact view
  | cons h hs =>
    refine ⟨by simp [sharedEntry, protectWrite], fun present h' head isPrivate => ?_,
      fun present => ?_, by simp [sharedEntry, protectWrite]⟩
    · cases head
      cases writeable : e.writeable with
      | false =>
        rw [writeable, share_false] at isPrivate
        exact view.first present h rfl isPrivate
      | true =>
        rw [writeable] at isPrivate
        exact absurd isPrivate (share_not_private (proper h mem_cons_self))
    · obtain ⟨h', mem, held⟩ := view.held present
      rcases mem_cons.mp mem with rfl | later
      · exact ⟨_, mem_cons_self, share_holds held⟩
      · exact ⟨h', mem_cons_of_mem _ later, held⟩

/-- The child gets a record of the page that the entry names: one that was shared already, or the
first one of a page that could be written. -/
def PassedOn (e : PageEntry) (hs : List PhysMapping) : Prop :=
  (∃ h ∈ hs, ¬h.Private ∧ h.Holds e.pagePpn) ∨ (e.writeable ∧ ∃ h ∈ hs.head?, h.Holds e.pagePpn)

theorem PassedOn.held (passed : PassedOn e hs) :
    ∃ h ∈ clonedHead e.writeable hs, h.Holds e.pagePpn := by
  cases hs with
  | nil => simp [PassedOn] at passed
  | cons h hs =>
    rcases passed with ⟨h', mem, other, held⟩ | ⟨writeable, h', head, held⟩
    · rcases mem_cons.mp mem with rfl | later
      · have cloned : h'.isCloned e.writeable := by
          have kept := isCloned_false_iff.mpr other
          unfold isCloned at kept ⊢
          rw [Bool.or_assoc, Bool.or_eq_true]
          exact .inr (by simpa using kept)
        exact ⟨_, mem_append_left _ (by rw [if_pos cloned]; exact mem_singleton_self _),
          share_holds held⟩
      · exact ⟨h', mem_append_right _ (mem_filter.mpr ⟨later, isCloned_false_iff.mpr other⟩), held⟩
    · cases head
      have cloned : h.isCloned e.writeable := by simp [isCloned, writeable]
      exact ⟨_, mem_append_left _ (by rw [if_pos cloned]; exact mem_singleton_self _),
        share_holds held⟩

theorem clonedHead_not_private (proper : ∀ h ∈ hs, h.Proper) :
    ∀ h ∈ clonedHead w hs, ¬h.Private := by
  cases hs with
  | nil => simp [clonedHead]
  | cons h hs =>
    intro h' mem
    rcases mem_append.mp mem with first | later
    · split_ifs at first with cloned
      · obtain rfl := mem_singleton.mp first
        cases w with
        | false => rw [share_false]; exact isCloned_false_iff.mp cloned
        | true => exact share_not_private (proper h mem_cons_self)
      · simp at first
    · exact isCloned_false_iff.mp (mem_filter.mp later).2

theorem ViewOk.cloned (view : ViewOk e hs) (proper : ∀ h ∈ hs, h.Proper)
    (passed : e.present → PassedOn e hs) :
    ViewOk (sharedEntry e hs) (clonedHead e.writeable hs) := by
  cases hs with
  | nil => exact view
  | cons h hs =>
    refine ⟨by simp [sharedEntry, protectWrite], fun _ h' head isPrivate => ?_,
      fun present => (passed present).held, by simp [sharedEntry, protectWrite]⟩
    exact absurd isPrivate (clonedHead_not_private proper h' (mem_of_mem_head? head))

theorem viewOk_zero : ViewOk .zero hs :=
  ⟨by simp [zero], by simp [zero], by simp [zero],
    by simp [zero]⟩

/-! ## Mappings -/

/-- The mapping `x` of the parent or the child after the fork, made from `m`. -/
structure Forked (m x : MemMapping) : Prop where
  image : x.image = m.image
  pagenum : x.pagenum = m.pagenum
  pages : x.pages = m.pages
  imageSkipPages : x.imageSkipPages = m.imageSkipPages
  load : x.load = m.load
  records : ∀ h ∈ x.mappings, ∃ h' ∈ m.mappings, ∃ w, h = h'.share w

theorem Forked.contains_iff (forked : Forked m x) : x.Contains page ↔ m.Contains page := by
  unfold MemMapping.Contains
  rw [forked.pagenum, forked.pages]

theorem Forked.fits (forked : Forked m x) (fits : m.Fits) : x.Fits := by
  refine ⟨by rw [forked.pagenum, forked.pages]; exact fits.below, fun h mem => ?_⟩
  obtain ⟨h', mem', w, rfl⟩ := forked.records h mem
  rw [share_page]
  exact forked.contains_iff.mpr (fits.inside h' mem')

theorem mem_forked (forked : Forall₂ Forked ms ms') (mem : x ∈ ms') :
    ∃ m ∈ ms, Forked m x := by
  induction forked with
  | nil => cases mem
  | cons first _ ih =>
    rcases mem_cons.mp mem with rfl | later
    · exact ⟨_, mem_cons_self, first⟩
    · obtain ⟨m, mem', same⟩ := ih later
      exact ⟨m, mem_cons_of_mem _ mem', same⟩

theorem forked_separate (forked : Forall₂ Forked ms ms') (sep : Separate ms) :
    Separate ms' := by
  induction forked with
  | nil => exact sep
  | @cons m x ms ms' first rest ih =>
    obtain ⟨fits, apart, later⟩ := separate_cons.mp sep
    refine separate_cons.mpr ⟨first.fits fits, fun y mem page inside inside' => ?_, ih later⟩
    obtain ⟨m', mem', other⟩ := mem_forked rest mem
    exact apart m' mem' page (first.contains_iff.mp inside) (other.contains_iff.mp inside')

/-- The child gets a record of every page that is present. -/
def CloneKeeps [TableMemory] (p : Process) : Prop :=
  ∀ m ∈ p.mappings, ∀ page, m.Contains page → (p.tables.get page).present →
    PassedOn (p.tables.get page) (recordsOf p.mappings page)

section

variable [LowTables] {p : Process} {t : PageTables} {grants : Grants}

/-! ## Tables -/

theorem wasWriteable_eq (t : PageTables) (grants : Grants) (page : ℕ) :
    t.wasWriteable grants page = (t.get page).writeable := by
  unfold PageTables.wasWriteable
  cases done : t.modify grants page protectWrite with
  | none =>
    rw [modify_none done]
    rfl
  | some t' =>
    unfold PageTables.get
    cases t.pageentry page <;> rfl

theorem protected_get (t : PageTables) (grants : Grants) (page r : ℕ) :
    (t.tryModify grants page (some protectWrite)).get r =
      if r = page then protectWrite (t.get r) else t.get r := by
  have change := tryModify_get t grants page (some protectWrite) r
  split_ifs at change ⊢
  · rcases change with ⟨same, none | zero⟩ | ⟨f, given, made⟩
    · cases none
    · rw [same, zero]
      rfl
    · rw [made, ← some.inj given]
  · exact change

theorem shareRecords_get (grants : Grants) (t : PageTables) (hs : List PhysMapping) (page : ℕ) :
    (shareRecords grants t hs).tables.get page =
      if hs.filter (·.page = page) = [] then t.get page else protectWrite (t.get page) := by
  induction hs generalizing t with
  | nil => rfl
  | cons h hs ih =>
    simp only [shareRecords]
    rw [ih, protected_get]
    by_cases here : h.page = page
    · simp only [here, filter_cons, decide_true, if_true, cons_ne_nil, if_false]
      split_ifs <;> rfl
    · rw [if_neg (Ne.symm here), filter_cons_of_neg (by simpa using here)]

theorem shareRecords_page (grants : Grants) (t : PageTables) (hs : List PhysMapping)
    (page : ℕ) :
    (shareRecords grants t hs).parent.filter (·.page = page) =
        shareHead (t.get page).writeable (hs.filter (·.page = page)) ∧
      (shareRecords grants t hs).child.filter (·.page = page) =
        clonedHead (t.get page).writeable (hs.filter (·.page = page)) := by
  induction hs generalizing t with
  | nil => exact ⟨rfl, rfl⟩
  | cons h hs ih =>
    obtain ⟨parent, child⟩ := ih (t.tryModify grants h.page (some protectWrite))
    simp only [shareRecords, wasWriteable_eq]
    rw [protected_get] at parent child
    by_cases here : h.page = page
    · -- the records that follow find the page write-protected
      rw [if_pos here.symm, here] at parent child
      have head : (h :: hs).filter (·.page = page) = h :: hs.filter (·.page = page) :=
        filter_cons_of_pos (by simpa using here)
      simp only [protectWrite, shareHead_false, clonedHead_false] at parent child
      rw [head, here, filter_cons_of_pos (by simpa using here), parent]
      refine ⟨rfl, ?_⟩
      split_ifs with cloned
      · rw [filter_cons_of_pos (by simpa using here), child]
        simp [clonedHead, cloned]
      · rw [child]
        simp [clonedHead, cloned]
    · rw [if_neg (Ne.symm here)] at parent child
      have skip : (h :: hs).filter (·.page = page) = hs.filter (·.page = page) :=
        filter_cons_of_neg (by simpa using here)
      rw [skip, filter_cons_of_neg (by simpa using here), parent]
      refine ⟨rfl, ?_⟩
      split_ifs
      · rw [filter_cons_of_neg (by simpa using here), child]
      · exact child

section

variable (grants : Grants) (t : PageTables)

theorem shareRecords_from (hs : List PhysMapping) :
    (∀ h ∈ (shareRecords grants t hs).parent, ∃ h' ∈ hs, ∃ w, h = h'.share w) ∧
      ∀ h ∈ (shareRecords grants t hs).child, ∃ h' ∈ hs, ∃ w, h = h'.share w := by
  induction hs generalizing t with
  | nil => exact ⟨by simp [shareRecords], by simp [shareRecords]⟩
  | cons h hs ih =>
    obtain ⟨parent, child⟩ := ih (t.tryModify grants h.page (some protectWrite))
    have first : ∀ w, ∃ h' ∈ h :: hs, ∃ w', h.share w = h'.share w' := fun w =>
      ⟨h, mem_cons_self, w, rfl⟩
    have later : ∀ r, (∃ h' ∈ hs, ∃ w, r = share h' w) →
        ∃ h' ∈ h :: hs, ∃ w, r = h'.share w := by
      rintro r ⟨h', mem, made⟩
      exact ⟨h', mem_cons_of_mem _ mem, made⟩
    simp only [shareRecords]
    refine ⟨forall_mem_cons.mpr ⟨first _, fun r mem => later r (parent r mem)⟩, ?_⟩
    split_ifs
    · exact forall_mem_cons.mpr ⟨first _, fun r mem => later r (child r mem)⟩
    · exact fun r mem => later r (child r mem)

theorem writeProtectCow_forked (ms : List MemMapping) :
    Forall₂ Forked ms (writeProtectCow grants t ms).2.1 ∧
      Forall₂ Forked ms (writeProtectCow grants t ms).2.2 := by
  induction ms generalizing t with
  | nil => exact ⟨.nil, .nil⟩
  | cons m ms ih =>
    obtain ⟨parent, child⟩ := shareRecords_from grants t m.mappings
    obtain ⟨rest, rest'⟩ := ih (shareRecords grants t m.mappings).tables
    exact ⟨.cons ⟨rfl, rfl, rfl, rfl, rfl, parent⟩ rest,
      .cons ⟨rfl, rfl, rfl, rfl, rfl, child⟩ rest'⟩

theorem shareRecords_append (hs hs' : List PhysMapping) :
    let first := shareRecords grants t hs
    let second := shareRecords grants first.tables hs'
    shareRecords grants t (hs ++ hs') =
      ⟨second.tables, first.parent ++ second.parent, first.child ++ second.child⟩ := by
  induction hs generalizing t with
  | nil => rfl
  | cons h hs ih =>
    simp only [cons_append, shareRecords, ih]
    split_ifs <;> rfl

theorem writeProtectCow_records (ms : List MemMapping) :
    let shared := shareRecords grants t (records ms)
    (writeProtectCow grants t ms).1 = shared.tables ∧
      records (writeProtectCow grants t ms).2.1 = shared.parent ∧
      records (writeProtectCow grants t ms).2.2 = shared.child := by
  induction ms generalizing t with
  | nil => exact ⟨rfl, rfl, rfl⟩
  | cons m ms ih =>
    obtain ⟨tables, parent, child⟩ := ih (shareRecords grants t m.mappings).tables
    have whole := shareRecords_append grants t m.mappings (records ms)
    simp only [records_cons, writeProtectCow]
    rw [whole, tables, parent, child]
    exact ⟨rfl, rfl, rfl⟩

end

/-! ## The child's tables -/

theorem copiedEntry_get {f : PageEntry → PageEntry} (small : page < 2 ^ 32)
    (found : copiedEntry t page = some f) : f e = t.get page := by
  unfold copiedEntry at found
  rw [wrap32_eq small] at found
  obtain ⟨e', found', rfl⟩ := map_eq_some_iff.mp found
  exact (get_of_pageentry found').symm

theorem cloneTables_get {source : PageTables} (fits : ∀ m ∈ ms, m.Fits)
    (start : ∀ page, t.get page = .zero ∨ t.get page = source.get page) (page : ℕ) :
    (cloneTables grants source ms t).get page = .zero ∨
      (cloneTables grants source ms t).get page = source.get page := by
  induction ms generalizing t with
  | nil => exact start page
  | cons m ms ih =>
    obtain ⟨first, rest⟩ := forall_mem_cons.mp fits
    refine ih rest fun r => ?_
    have change := tryModifyRange_get t grants (copiedEntry source) m.pagenum first.below.le r
    split_ifs at change with inside
    · rcases change with ⟨same, -⟩ | ⟨f, given, made⟩
      · rw [same]
        exact start r
      · exact .inr (made.trans (copiedEntry_get (inside.2.trans first.below) given))
    · rw [change]
      exact start r

/-! ## The parent and the child -/

theorem clone_forked (p : Process) (grants childGrants : Grants) :
    Forall₂ Forked p.mappings (p.clone grants childGrants).1.mappings ∧
      Forall₂ Forked p.mappings (p.clone grants childGrants).2.mappings :=
  writeProtectCow_forked grants p.tables p.mappings

theorem clone_records (p : Process) (grants childGrants : Grants) :
    let shared := shareRecords grants p.tables (records p.mappings)
    (p.clone grants childGrants).1.tables = shared.tables ∧
      records (p.clone grants childGrants).1.mappings = shared.parent ∧
      records (p.clone grants childGrants).2.mappings = shared.child :=
  writeProtectCow_records grants p.tables p.mappings

theorem clone_get (p : Process) (grants childGrants : Grants) (page : ℕ) :
    (p.clone grants childGrants).1.tables.get page =
      sharedEntry (p.tables.get page) (recordsOf p.mappings page) := by
  rw [(clone_records p grants childGrants).1, shareRecords_get]
  rfl

theorem clone_child_get (sep : Separate p.mappings) (grants childGrants : Grants) (page : ℕ) :
    (p.clone grants childGrants).2.tables.get page = .zero ∨
      (p.clone grants childGrants).2.tables.get page =
        sharedEntry (p.tables.get page) (recordsOf p.mappings page) := by
  rw [← clone_get p grants childGrants]
  refine cloneTables_get (forked_separate (clone_forked p grants childGrants).2 sep).fits
    (fun r => .inl ?_) page
  simp [PageTables.get, PageTables.pageentry, PageTables.leaf, Process.empty]

theorem clone_viewed (sep : Separate p.mappings) (viewed : p.Viewed)
    (proper : ∀ h ∈ records p.mappings, h.Proper) (keeps : CloneKeeps p)
    (grants childGrants : Grants) :
    (p.clone grants childGrants).1.Viewed ∧ (p.clone grants childGrants).2.Viewed := by
  obtain ⟨forked, forked'⟩ := clone_forked p grants childGrants
  obtain ⟨-, parent, child⟩ := clone_records p grants childGrants
  have here : ∀ page, ∀ h ∈ recordsOf p.mappings page, h.Proper := fun page h mem =>
    proper h (mem_filter.mp mem).1
  constructor
  · intro x mem page inside
    obtain ⟨m, listed, same⟩ := mem_forked forked mem
    have view := viewed m listed page (same.contains_iff.mp inside)
    unfold recordsOf
    rw [clone_get, parent, (shareRecords_page grants p.tables (records p.mappings) page).1]
    exact view.shared (here page)
  · intro x mem page inside
    obtain ⟨m, listed, same⟩ := mem_forked forked' mem
    have contains := same.contains_iff.mp inside
    have view := viewed m listed page contains
    rcases clone_child_get sep grants childGrants page with zero | copied
    · rw [zero]
      exact viewOk_zero
    · unfold recordsOf
      rw [copied, child, (shareRecords_page grants p.tables (records p.mappings) page).2]
      exact view.cloned (here page) (keeps m listed page contains)

end

end JeoKernel.AddressSpace
