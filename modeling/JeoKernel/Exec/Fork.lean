import Mathlib.Data.Vector.Defs
import Mathlib.Data.List.Flatten
import JeoKernel.Exec.Isolation
import JeoKernel.Exec.Reprotect

/-!
# What a forked process reads

A page of a process is read from the physical page in its entry.  Where the page is not present, the
fault handlers enter the page of its first record again, load it from the image, or give it a page
of zeros, in the order of `syncLoad`.  A fork changes no physical page, so the child reads what the
parent would have read if it reads from the same source.
-/

namespace JeoKernel.AddressSpace

open List hiding Vector
open Loop Ledger Machine PageTables Process

/-! ## Sources -/

/-- Where the contents of a page come from. -/
inductive Source where
  | memory (n : ℕ)
  | file (image imagePage load : ℕ)
  | zero

def sourceOf (e : PageEntry) (physPage : ℕ) (image : Option ℕ) (imagePage load : ℕ) : Source :=
  if e.present then .memory e.pagePpn
  else if physPage ≠ 0 then .memory physPage
  else
    match image with
    | some image => .file image imagePage load
    | none => .zero

def numberOf (record : Option PhysMapping) : ℕ := (record.map (·.physPage)).getD 0

def Process.source [TableMemory] (p : Process) (m : MemMapping) (page : ℕ) : Source :=
  sourceOf (p.tables.get page) (numberOf (m.physMapping page)) m.image (m.imagePage page) m.load

/-- What the sources hold: the physical pages, the pages of the images (cleared from `load` on where
that is not 0), and a page of zeros. -/
structure Contents (β : Type) where
  memory : ℕ → β
  file : ℕ → ℕ → ℕ → β
  zero : β

def Contents.read {β : Type} (c : Contents β) : Source → β
  | .memory n => c.memory n
  | .file image imagePage load => c.file image imagePage load
  | .zero => c.zero

/-- The child holds the pages that it has in its tables, and reads from each page what the parent
would have read, whatever is protected later. -/
def ForkKeeps [TableMemory] (p : Process) (grants childGrants : Grants) : Prop :=
  ∀ m ∈ p.mappings, ∀ page, m.Contains page →
    (((p.clone grants childGrants).2.tables.get page).present →
      ∃ h ∈ recordsOf (p.clone grants childGrants).2.mappings page,
        h.Holds ((p.clone grants childGrants).2.tables.get page).pagePpn) ∧
    ∀ later, ∀ m' ∈ ((p.clone grants childGrants).2.reprotect later).mappings,
      m'.Contains page → m'.read →
      ∀ (β : Type) (c : Contents β),
        c.read (((p.clone grants childGrants).2.reprotect later).source m' page) =
          c.read (p.source m page)

variable {m x y : MemMapping} {ms : List MemMapping} {page pagenum pages i addr alloc : ℕ}
  {e e' : PageEntry} {h : PhysMapping} {hs : List PhysMapping} {w : Bool}

/-! ## Pages and records -/

def clonedPages (ms : List MemMapping) : List ℕ := ms.flatMap fun m => range' m.pagenum m.pages

theorem clonedPages_nodup (sep : Separate ms) : (clonedPages ms).Nodup := by
  refine nodup_flatMap.mpr ⟨fun m _ => nodup_range', sep.apart.imp ?_⟩
  intro m m' apart page mem mem'
  have inside := mem_range'_1.mp mem
  have inside' := mem_range'_1.mp mem'
  exact apart page inside inside'

theorem mem_clonedPages : page ∈ clonedPages ms ↔ ∃ m ∈ ms, m.Contains page := by
  simp [clonedPages, mem_flatMap, mem_range'_1, MemMapping.Contains]

theorem userPage_of_table {r : ℕ} (same : r / 512 = page / 512) (user : userPage page) :
    userPage r := by
  simp only [userPage, Bool.or_eq_true, Bool.and_eq_true, decide_eq_true_eq] at user ⊢
  omega

theorem clonedPages_forked {ms' : List MemMapping} (forked : Forall₂ Forked ms ms') :
    clonedPages ms' = clonedPages ms := by
  unfold clonedPages
  induction forked with
  | nil => rfl
  | cons first _ ih => rw [flatMap_cons, flatMap_cons, first.pagenum, first.pages, ih]

theorem clonedPages_small (sep : Separate ms) : ∀ r ∈ clonedPages ms, r < 2 ^ 32 := by
  intro r mem
  obtain ⟨m, listed, inside⟩ := mem_clonedPages.mp mem
  exact inside.2.trans (sep.fits m listed).below

theorem Separate.unique {m' : MemMapping} (sep : Separate ms) (mem : m ∈ ms) (mem' : m' ∈ ms)
    (inside : m.Contains page) (inside' : m'.Contains page) : m' = m := by
  obtain ⟨l, l', rfl⟩ := append_of_mem mem
  obtain ⟨-, apart, -⟩ := separate_middle.mp sep
  by_contra other
  refine apart m' ?_ page inside inside'
  simp only [mem_append, mem_cons] at mem' ⊢
  exact mem'.imp_right (·.resolve_left other)

/-! ## Sources and records -/

variable {number imagePage load : ℕ} {image : Option ℕ}

theorem sourceOf_present (present : e.present) :
    sourceOf e number image imagePage load = .memory e.pagePpn := if_pos present

theorem sourceOf_number (absent : ¬e.present) (known : number ≠ 0) :
    sourceOf e number image imagePage load = .memory number := by
  unfold sourceOf
  rw [if_neg absent, if_pos known]

theorem number_of_sourceOf {n : ℕ} (absent : ¬e.present)
    (read : sourceOf e number image imagePage load = .memory n) : number = n ∧ number ≠ 0 := by
  unfold sourceOf at read
  split_ifs at read with known
  · exact ⟨Source.memory.inj read, known⟩
  · cases image <;> cases read

theorem sharedEntry_present : (sharedEntry e hs).present = e.present := by
  unfold sharedEntry protectWrite
  split_ifs <;> rfl

theorem sharedEntry_pagePpn : (sharedEntry e hs).pagePpn = e.pagePpn := by
  unfold sharedEntry protectWrite
  split_ifs <;> rfl

theorem mem_clonedHead (mem : h ∈ clonedHead w hs) :
    ∃ h' ∈ hs, h'.isCloned false ∧ h = h' ∨ (w ∧ hs.head? = some h' ∧ h = h'.share true) := by
  cases hs with
  | nil => simp [clonedHead] at mem
  | cons h' hs =>
    rcases mem_append.mp mem with first | later
    · split_ifs at first with cloned
      · obtain rfl := mem_singleton.mp first
        refine ⟨h', mem_cons_self, ?_⟩
        cases w with
        | false => exact .inl ⟨cloned, share_false⟩
        | true => exact .inr ⟨rfl, rfl, rfl⟩
      · simp at first
    · obtain ⟨listed, cloned⟩ := mem_filter.mp later
      exact ⟨h, mem_cons_of_mem _ listed, .inl ⟨cloned, rfl⟩⟩

theorem holds_of_share {n : ℕ} (held : (h.share w).Holds n) :
    h.Holds n := by
  by_cases isPrivate : h.Private
  · unfold PhysMapping.share at held
    split_ifs at held
    · rcases held with data | shared | ⟨still, -⟩
      · exact .inl data
      · exact .inr (.inr ⟨isPrivate, Option.some.inj shared⟩)
      · cases still.2
    · exact held
  · rwa [share_eq_self isPrivate] at held

/-- The child holds the page of a copied entry exactly if the record was passed on. -/
theorem passedOn_iff :
    (∃ h ∈ clonedHead e.writeable hs, h.Holds e.pagePpn) ↔ PassedOn e hs := by
  refine ⟨?_, PassedOn.held⟩
  rintro ⟨h, mem, held⟩
  obtain ⟨h', listed, ⟨cloned, rfl⟩ | ⟨writeable, head, rfl⟩⟩ := mem_clonedHead mem
  · exact .inl ⟨h, listed, isCloned_false_iff.mp cloned, held⟩
  · exact .inr ⟨writeable, h', head, holds_of_share held⟩

theorem number_clonedHead (shared : ∀ h ∈ hs.head?, ¬h.Private) :
    numberOf (clonedHead w hs).head? = numberOf hs.head? := by
  cases hs with
  | nil => rfl
  | cons h hs =>
    have other := shared h rfl
    have cloned : h.isCloned w := by
      have passed := isCloned_false_iff.mpr other
      cases w with
      | false => exact passed
      | true => rfl
    simp [clonedHead, cloned, share_eq_self other]

theorem source_of_reads {s s' : Source} (same : ∀ (β : Type) (c : Contents β), c.read s = c.read s') :
    s = s' := by
  have read := same Source ⟨.memory, .file, .zero⟩
  have self : ∀ s : Source, Contents.read ⟨.memory, .file, .zero⟩ s = s := fun s => by
    cases s <;> rfl
  rwa [self, self] at read

theorem data_of_number (proper : h.Proper) (other : ¬h.Private) (known : h.physPage ≠ 0) :
    h.data = some h.physPage := by
  cases data : h.data with
  | some n => rw [(proper.file n data).2.1]
  | none =>
    cases cow : h.cow with
    | none => exact absurd ⟨data, cow⟩ other
    | some n => exact absurd (proper.shared n cow).1 known

section

variable [LowTables] {p q q' : Process} {t source : PageTables} {grants childGrants : Grants}

/-! ## The child's tables -/

/-- The child has a table for the entry of the page when `Clone` comes to it: the allocator grants
one, or has granted one at an earlier page. -/
def HasTable (grants : Grants) (pages : List ℕ) (page : ℕ) : Prop :=
  ∃ before after, pages = before ++ page :: after ∧
    ∃ r ∈ page :: before, r / 512 = page / 512 ∧ grants r

def copyPages (grants : Grants) (source : PageTables) (pages : List ℕ) (t : PageTables) :
    PageTables :=
  pages.foldl (fun t r => t.tryModify grants (wrap32 r) (copiedEntry source r)) t

theorem cloneTables_eq : cloneTables grants source ms t =
    copyPages grants source (clonedPages ms) t := by
  unfold cloneTables copyPages clonedPages tryModifyRange
  rw [foldl_flatMap]
  simp only [Nat.add_sub_cancel_left]

variable {pages : List ℕ}

theorem copyPages_other (grants : Grants) (source t : PageTables)
    (small : ∀ r ∈ pages, r < 2 ^ 32) (other : page ∉ pages) :
    (copyPages grants source pages t).get page = t.get page := by
  unfold copyPages
  induction pages generalizing t with
  | nil => rfl
  | cons r pages ih =>
    obtain ⟨first, rest⟩ := forall_mem_cons.mp small
    rw [mem_cons, not_or] at other
    have step := tryModify_get t grants (wrap32 r) (copiedEntry source r) page
    rw [wrap32_eq first, if_neg other.1] at step
    rw [foldl_cons, ih _ rest other.2, wrap32_eq first]
    exact step

theorem copyStep_leaf {r : ℕ} (user : userPage r) (known : source.leaf (r / 512))
    (small : r < 2 ^ 32) (k : ℕ) :
    (t.tryModify grants (wrap32 r) (copiedEntry source r)).leaf k ↔
      t.leaf k ∨ (r / 512 = k ∧ grants r) := by
  have word := wrap32_eq small
  have copied : copiedEntry source r = some fun _ => source.entry r := by
    simp [copiedEntry, word, pageentry, user, known]
  rw [copied, word]
  unfold tryModify
  dsimp only
  cases done : t.modify grants r fun _ => source.entry r with
  | none =>
    have failed := (modify_isSome_iff t grants r fun _ => source.entry r).not.mp (by simp [done])
    simp only [not_and, not_or] at failed
    have refused := (failed user).2
    simp [refused]
  | some t' =>
    have allowed := (modify_isSome_iff t grants r fun _ => source.entry r).mp (by simp [done])
    rw [Option.getD_some, modify_leaf done]
    refine or_congr_right' fun missing => ⟨?_, And.left⟩
    rintro rfl
    exact ⟨rfl, allowed.2.resolve_left missing⟩

theorem copyPages_leaf (grants : Grants) (t : PageTables) (small : ∀ r ∈ pages, r < 2 ^ 32)
    (user : userPage page) (known : source.leaf (page / 512)) :
    (copyPages grants source pages t).leaf (page / 512) ↔
      t.leaf (page / 512) ∨ ∃ r ∈ pages, r / 512 = page / 512 ∧ grants r := by
  unfold copyPages
  induction pages generalizing t with
  | nil => simp
  | cons r pages ih =>
    obtain ⟨first, rest⟩ := forall_mem_cons.mp small
    rw [foldl_cons, ih _ rest, exists_mem_cons_iff, ← or_assoc]
    refine or_congr_left ?_
    by_cases same : r / 512 = page / 512
    · exact copyStep_leaf (userPage_of_table same user) (same ▸ known) first _
    · -- a page of another table
      simp only [same, false_and, or_false]
      unfold tryModify
      cases copiedEntry source r with
      | none => rfl
      | some f =>
        dsimp only
        cases done : t.modify grants (wrap32 r) f with
        | none => rfl
        | some t' =>
          rw [Option.getD_some, modify_leaf done, wrap32_eq first]
          simp [same]

theorem pageentry_known (entry : source.pageentry page = some e) :
    userPage page ∧ source.leaf (page / 512) := by
  unfold pageentry at entry
  split_ifs at entry with both
  simpa using both

theorem copiedEntry_eq (small : page < 2 ^ 32) :
    copiedEntry source page = (source.pageentry page).map fun e _ => e := by
  unfold copiedEntry
  rw [wrap32_eq small]

/-- `Clone` comes to a page for which the child has a table or gets one exactly where `P` holds. -/
theorem copyStep_get {P : Prop} (small : page < 2 ^ 32) (zero : t.get page = .zero)
    (enters : userPage page → source.leaf (page / 512) → (t.leaf (page / 512) ∨ grants page ↔ P)) :
    (P → (t.tryModify grants page (copiedEntry source page)).get page = source.get page) ∧
      (¬P → (t.tryModify grants page (copiedEntry source page)).get page = .zero) := by
  rw [copiedEntry_eq small]
  cases entry : source.pageentry page with
  | none =>
    have absent : source.get page = .zero := by simp [PageTables.get, entry]
    rw [absent]
    exact ⟨fun _ => zero, fun _ => zero⟩
  | some e =>
    obtain ⟨user, known⟩ := pageentry_known entry
    have granted := modify_isSome_iff t grants page fun _ => e
    rw [and_iff_right user, enters user known] at granted
    cases done : t.modify grants page fun _ => e with
    | none =>
      simp only [Option.map_some, tryModify, done, Option.getD_none]
      exact ⟨fun holds => by simp [done, holds] at granted, fun _ => zero⟩
    | some t' =>
      simp only [Option.map_some, tryModify, done, Option.getD_some]
      rw [modify_get LowTables.low done, if_pos rfl, get_of_pageentry entry]
      exact ⟨fun _ => rfl, absurd (granted.mp (done ▸ rfl))⟩

variable {before after : List ℕ}

theorem copyPages_split (grants : Grants) (source t : PageTables)
    (small : ∀ r ∈ page :: after, r < 2 ^ 32) (single : (page :: after).Nodup) :
    (copyPages grants source (before ++ page :: after) t).get page =
      ((copyPages grants source before t).tryModify grants page (copiedEntry source page)).get
        page := by
  obtain ⟨first, rest⟩ := forall_mem_cons.mp small
  have later := copyPages_other grants source
    ((copyPages grants source before t).tryModify grants page (copiedEntry source page))
    rest (nodup_cons.mp single).1
  rw [← later]
  unfold copyPages
  rw [foldl_append, foldl_cons, wrap32_eq first]

theorem copyPages_page (grants : Grants) (source : PageTables) (none : ∀ k, ¬t.leaf k)
    (small : ∀ r ∈ before ++ page :: after, r < 2 ^ 32) (single : (before ++ page :: after).Nodup) :
    ((∃ r ∈ page :: before, r / 512 = page / 512 ∧ grants r) →
      (copyPages grants source (before ++ page :: after) t).get page = source.get page) ∧
    ((¬∃ r ∈ page :: before, r / 512 = page / 512 ∧ grants r) →
      (copyPages grants source (before ++ page :: after) t).get page = .zero) := by
  obtain ⟨low, high⟩ := forall_mem_append.mp small
  have here := high page mem_cons_self
  obtain ⟨-, behind, apart⟩ := nodup_append.mp single
  have zero : (copyPages grants source before t).get page = .zero := by
    rw [copyPages_other grants source t low fun mem => apart page mem page mem_cons_self rfl]
    simp [PageTables.get, pageentry, none]
  -- a table that the child has by now was granted at an earlier page
  have leaf : userPage page → source.leaf (page / 512) →
      ((copyPages grants source before t).leaf (page / 512) ↔
        ∃ r ∈ before, r / 512 = page / 512 ∧ grants r) := fun user known => by
    rw [copyPages_leaf grants t low user known, or_iff_right (none _)]
  rw [copyPages_split grants source t high behind, exists_mem_cons_iff]
  refine copyStep_get here zero fun user known => ?_
  rw [leaf user known, or_comm, and_iff_right rfl]

theorem clone_child_records (p : Process) (grants childGrants : Grants) (page : ℕ) :
    recordsOf (p.clone grants childGrants).2.mappings page =
      clonedHead (p.tables.get page).writeable (recordsOf p.mappings page) := by
  unfold recordsOf
  rw [(clone_records p grants childGrants).2.2, (shareRecords_page grants p.tables _ page).2]

/-! ## Sources in the child -/

/-- What the parent must be like at a page of the mapping `m`. -/
structure ForkSafe (p : Process) (childGrants : Grants) (m : MemMapping) (page : ℕ) : Prop where
  /-- The child gets a record of a page whose entry is copied. -/
  passed : (p.tables.get page).present → HasTable childGrants (clonedPages p.mappings) page →
    PassedOn (p.tables.get page) (recordsOf p.mappings page)
  /-- Where the child has no table for the entry, the first record that it gets names the page. -/
  untabled : (p.tables.get page).present → ¬HasTable childGrants (clonedPages p.mappings) page →
    ∃ h ∈ (clonedHead (p.tables.get page).writeable (recordsOf p.mappings page)).head?,
      h.physPage = (p.tables.get page).pagePpn
  /-- A page that is not present has no private page waiting for it. -/
  absent : ¬(p.tables.get page).present → ∀ h ∈ (recordsOf p.mappings page).head?, ¬h.Private
  /-- Of a mapping that is loaded in part, only the first page is still to be loaded. -/
  unloaded : ¬(p.tables.get page).present → numberOf (recordsOf p.mappings page).head? = 0 →
    m.image.isSome → m.load = 0 ∨ page = m.pagenum

/-- No private page of the process is also one of its pages of the file cache. -/
def Process.Distinct (p : Process) : Prop :=
  ∀ h ∈ records p.mappings, ∀ h' ∈ records p.mappings, h.Private → h'.data ≠ some h.physPage

section

variable (sep : Separate p.mappings) (mem : m ∈ p.mappings) (inside : m.Contains page)

include sep mem inside

theorem clone_child_entry (grants childGrants : Grants) :
    (HasTable childGrants (clonedPages p.mappings) page →
      (p.clone grants childGrants).2.tables.get page =
        sharedEntry (p.tables.get page) (recordsOf p.mappings page)) ∧
    (¬HasTable childGrants (clonedPages p.mappings) page →
      (p.clone grants childGrants).2.tables.get page = .zero) := by
  have single := clonedPages_nodup sep
  have small := clonedPages_small sep
  have tables : (p.clone grants childGrants).2.tables = copyPages childGrants
      (p.clone grants childGrants).1.tables (clonedPages p.mappings) empty.tables := by
    rw [← clonedPages_forked (clone_forked p grants childGrants).2, ← cloneTables_eq]
    rfl
  rw [tables, ← clone_get p grants childGrants]
  have copied : ∀ before after, clonedPages p.mappings = before ++ page :: after → _ :=
    fun before after split => copyPages_page (t := empty.tables) childGrants
      (p.clone grants childGrants).1.tables (fun _ => Bool.false_ne_true) (split ▸ small)
      (split ▸ single)
  constructor
  · rintro ⟨before, after, split, granted⟩
    rw [split]
    exact (copied before after split).1 granted
  · intro refused
    obtain ⟨before, after, split⟩ := append_of_mem (mem_clonedPages.mpr ⟨m, mem, inside⟩)
    rw [split]
    exact (copied before after split).2 fun granted => refused ⟨before, after, split, granted⟩

theorem source_eq :
    p.source m page = sourceOf (p.tables.get page) (numberOf (recordsOf p.mappings page).head?)
      m.image (m.imagePage page) m.load := by
  unfold source
  rw [physMapping_eq sep mem inside]

theorem child_source (grants childGrants : Grants) (later : List Later)
    (listed : x ∈ ((p.clone grants childGrants).2.reprotect later).mappings)
    (contains : x.Contains page) :
    (x.load = m.load ∨ (x.load = 0 ∧ m.pagenum < page)) ∧
    ((p.clone grants childGrants).2.reprotect later).source x page =
      sourceOf ((p.clone grants childGrants).2.tables.get page)
        (numberOf (clonedHead (p.tables.get page).writeable (recordsOf p.mappings page)).head?)
        m.image (m.imagePage page) x.load := by
  have forked := (clone_forked p grants childGrants).2
  have sep' := forked_separate forked sep
  have kept := reprotect_reprotected sep' later page
  obtain ⟨y, listed', kin⟩ := kept.kin x listed
  obtain ⟨m', mem', same⟩ := mem_forked forked listed'
  have contains' := kin.part.contains contains
  obtain rfl := sep.unique mem mem' inside (same.contains_iff.mp contains')
  have low := contains.1
  refine ⟨?_, ?_⟩
  · rw [← same.load, ← same.pagenum]
    exact kin.load.imp_right fun lost => ⟨lost.1, by omega⟩
  · rw [source_eq kept.separate listed contains, kept.records x listed contains,
      clone_child_records]
    have image : x.image = m'.image := kin.part.image.trans same.image
    have imagePage : m'.image.isSome → x.imagePage page = m'.imagePage page := by
      intro some
      rw [kin.imagePage (same.image.symm ▸ some) page contains]
      unfold MemMapping.imagePage
      rw [same.imageSkipPages, same.pagenum]
    unfold sourceOf
    rw [kept.present, kept.pagePpn, image]
    cases known : m'.image with
    | none => rfl
    | some n => rw [imagePage (by simp [known])]

/-! ## The fork -/

theorem ForkSafe.owns (safe : ForkSafe p childGrants m page)
    (present : ((p.clone grants childGrants).2.tables.get page).present) :
    ∃ h ∈ recordsOf (p.clone grants childGrants).2.mappings page,
      h.Holds ((p.clone grants childGrants).2.tables.get page).pagePpn := by
  obtain ⟨copied, missing⟩ := clone_child_entry sep mem inside grants childGrants
  by_cases table : HasTable childGrants (clonedPages p.mappings) page
  · rw [copied table] at present ⊢
    rw [sharedEntry_present] at present
    rw [sharedEntry_pagePpn, clone_child_records]
    exact (safe.passed present table).held
  · rw [missing table] at present
    cases present

theorem clone_child_absent (grants childGrants : Grants) (absent : ¬(p.tables.get page).present) :
    ¬((p.clone grants childGrants).2.tables.get page).present := by
  obtain ⟨copied, missing⟩ := clone_child_entry sep mem inside grants childGrants
  by_cases table : HasTable childGrants (clonedPages p.mappings) page
  · rwa [copied table, sharedEntry_present]
  · simp [missing table, PageEntry.zero]

theorem ForkSafe.reads (safe : ForkSafe p childGrants m page)
    (view : ViewOk (p.tables.get page) (recordsOf p.mappings page))
    (proper : ∀ h ∈ records p.mappings, h.Proper) {later : List Later}
    (listed : x ∈ ((p.clone grants childGrants).2.reprotect later).mappings)
    (contains : x.Contains page) :
    ((p.clone grants childGrants).2.reprotect later).source x page = p.source m page := by
  obtain ⟨load, child⟩ := child_source sep mem inside grants childGrants later listed contains
  obtain ⟨copied, missing⟩ := clone_child_entry sep mem inside grants childGrants
  rw [child, source_eq sep mem inside]
  by_cases present : (p.tables.get page).present
  · rw [sourceOf_present present]
    by_cases table : HasTable childGrants (clonedPages p.mappings) page
    · rw [copied table, sourceOf_present (sharedEntry_present.trans present), sharedEntry_pagePpn]
    · -- the child enters the page of its first record again
      obtain ⟨h, head, named⟩ := safe.untabled present table
      obtain ⟨h', here, held⟩ := view.held present
      have nonzero : (p.tables.get page).pagePpn ≠ 0 := by
        have kind := proper h' (mem_filter.mp here).1
        rcases held with data | shared | ⟨isPrivate, same⟩
        · exact (kind.file _ data).2.2
        · exact (kind.shared _ shared).2
        · exact same ▸ kind.nonzero isPrivate
      have number : numberOf (clonedHead (p.tables.get page).writeable
          (recordsOf p.mappings page)).head? = (p.tables.get page).pagePpn := by
        rw [Option.mem_def.mp head]
        exact named
      rw [missing table, number, sourceOf_number (by simp [PageEntry.zero]) nonzero]
  · have gone := clone_child_absent sep mem inside grants childGrants present
    have shared := safe.absent present
    rw [number_clonedHead shared]
    by_cases known : numberOf (recordsOf p.mappings page).head? ≠ 0
    · rw [sourceOf_number gone known, sourceOf_number present known]
    · unfold sourceOf
      rw [if_neg gone, if_neg present, if_neg known, if_neg known]
      cases image : m.image with
      | none => rfl
      | some n =>
        have kept : x.load = m.load := by
          rcases safe.unloaded present (not_not.mp known) (by simp [image]) with zero | first
          · exact load.elim id fun lost => lost.1.trans zero.symm
          · exact load.resolve_right fun lost => by omega
        rw [kept]

theorem clone_child_mapping (grants childGrants : Grants) :
    ∃ y ∈ (p.clone grants childGrants).2.mappings, Forked m y := by
  have forked := (clone_forked p grants childGrants).2
  have listed : page ∈ clonedPages (p.clone grants childGrants).2.mappings := by
    rw [clonedPages_forked forked]
    exact mem_clonedPages.mpr ⟨m, mem, inside⟩
  obtain ⟨y, mem', contains⟩ := mem_clonedPages.mp listed
  obtain ⟨m', mem'', same⟩ := mem_forked forked mem'
  obtain rfl := sep.unique mem mem'' inside (same.contains_iff.mp contains)
  exact ⟨y, mem', same⟩

variable (keeps : ForkKeeps p grants childGrants)

include keeps

/-- Once the page can be read by itself, the child reads it from the source of the parent.  The first
page of the mapping may be protected by itself, and the others lose `load`. -/
theorem ForkKeeps.sourceOf_eq {load : ℕ} (known : load = m.load ∨ load = 0 ∧ m.pagenum < page) :
    sourceOf ((p.clone grants childGrants).2.tables.get page)
        (numberOf (clonedHead (p.tables.get page).writeable (recordsOf p.mappings page)).head?)
        m.image (m.imagePage page) load =
      sourceOf (p.tables.get page) (numberOf (recordsOf p.mappings page).head?) m.image
        (m.imagePage page) m.load := by
  obtain ⟨y, listed, same⟩ := clone_child_mapping sep mem inside grants childGrants
  have sep' := forked_separate (clone_forked p grants childGrants).2 sep
  have contains := same.contains_iff.mpr inside
  have made : ∃ later, ∃ x ∈ ((p.clone grants childGrants).2.reprotect later).mappings,
      x.Contains page ∧ x.read ∧ x.load = load := by
    rcases known with rfl | ⟨rfl, behind⟩
    · exact same.load ▸ ⟨_, readOne_readable sep' listed contains⟩
    · exact ⟨_, readOne_behind sep' listed contains (same.pagenum ▸ behind)⟩
  obtain ⟨later, x, made, here, readable, rfl⟩ := made
  have equal := source_of_reads ((keeps m mem page inside).2 _ x made here readable)
  rwa [(child_source sep mem inside grants childGrants _ made here).2, source_eq sep mem inside] at equal

/-- A private page behind an entry that is not present would be lost. -/
theorem ForkKeeps.absent (proper : ∀ h ∈ records p.mappings, h.Proper) (distinct : p.Distinct)
    (absent : ¬(p.tables.get page).present) :
    ∀ h ∈ (recordsOf p.mappings page).head?, ¬h.Private := by
  intro h head isPrivate
  have mine : h ∈ records p.mappings := (mem_filter.mp (mem_of_mem_head? head)).1
  have nonzero := (proper h mine).nonzero isPrivate
  have number : numberOf (recordsOf p.mappings page).head? = h.physPage := by
    rw [Option.mem_def.mp head]
    rfl
  have equal := keeps.sourceOf_eq sep mem inside (.inl rfl)
  rw [number, sourceOf_number absent nonzero] at equal
  obtain ⟨named, -⟩ :=
    number_of_sourceOf (clone_child_absent sep mem inside grants childGrants absent) equal
  cases first : (clonedHead (p.tables.get page).writeable (recordsOf p.mappings page)).head? with
  | none =>
    rw [first] at named
    exact nonzero named.symm
  | some h' =>
    -- the first record of the child would have to be of the file cache
    rw [first] at named
    have ppn : h'.physPage = h.physPage := named
    have cloned := mem_of_mem_head? (Option.mem_def.mpr first)
    obtain ⟨h'', listed, origin⟩ := mem_clonedHead cloned
    have theirs := (mem_filter.mp listed).1
    have kind : h'.Proper ∧ h'.data = h''.data := by
      rcases origin with ⟨-, rfl⟩ | ⟨-, -, rfl⟩
      · exact ⟨proper h' theirs, rfl⟩
      · exact ⟨share_proper (proper h'' theirs), share_data⟩
    have other := clonedHead_not_private
      (fun r here => proper r (mem_filter.mp here).1) h' cloned
    have data := data_of_number kind.1 other (ppn ▸ nonzero)
    exact distinct h mine h'' theirs isPrivate (by rw [← kind.2, data, ppn])

theorem ForkKeeps.unloaded (absent : ¬(p.tables.get page).present)
    (shared : ∀ h ∈ (recordsOf p.mappings page).head?, ¬h.Private)
    (zero : numberOf (recordsOf p.mappings page).head? = 0) (image : m.image.isSome) :
    m.load = 0 ∨ page = m.pagenum := by
  by_contra lost
  rw [not_or] at lost
  have low := inside.1
  have equal := keeps.sourceOf_eq sep mem inside (.inr ⟨rfl, by omega⟩)
  have gone := clone_child_absent sep mem inside grants childGrants absent
  rw [number_clonedHead shared, zero] at equal
  unfold sourceOf at equal
  rw [if_neg gone, if_neg absent, if_neg (by simp), if_neg (by simp)] at equal
  cases known : m.image with
  | none => simp [known] at image
  | some n =>
    rw [known] at equal
    exact lost.1 (Source.file.inj equal).2.2.symm

theorem ForkKeeps.safe (proper : ∀ h ∈ records p.mappings, h.Proper) (distinct : p.Distinct) :
    ForkSafe p childGrants m page := by
  have equal := keeps.sourceOf_eq sep mem inside (.inl rfl)
  have shared := keeps.absent sep mem inside proper distinct
  obtain ⟨copied, missing⟩ := clone_child_entry sep mem inside grants childGrants
  refine ⟨fun present table => ?_, fun present table => ?_, shared,
    fun absent => keeps.unloaded sep mem inside absent (shared absent)⟩
  · have held := (keeps m mem page inside).1 (by rw [copied table, sharedEntry_present, present])
    rw [copied table, sharedEntry_pagePpn, clone_child_records] at held
    exact passedOn_iff.mp held
  · rw [missing table, sourceOf_present present] at equal
    obtain ⟨named, nonzero⟩ := number_of_sourceOf (by simp [PageEntry.zero]) equal
    cases first : (clonedHead (p.tables.get page).writeable (recordsOf p.mappings page)).head? with
    | none =>
      rw [first] at nonzero
      exact absurd rfl nonzero
    | some h =>
      rw [first] at named
      exact ⟨h, rfl, named⟩

end

theorem World.Ok.distinct {w : World} (ok : w.Ok) (at_i : w.processes[i]? = some p) :
    p.Distinct := by
  intro h mem h' mem' isPrivate data
  have listed : ∀ r ∈ AddressSpace.records p.mappings, r ∈ w.records := fun r here =>
    mem_flatMap.mpr ⟨p, mem_of_getElem? at_i, here⟩
  exact ok.kept.sound.owned_uncached h.physPage
    (mem_append_left _ (mem_privatePages.mpr ⟨h, listed h mem, isPrivate, rfl⟩))
    (ok.kept.filed h' (listed h' mem') _ data)

/-- What holds of every process while the operations keep the processes apart. -/
structure Process.Sound (p : Process) : Prop where
  separate : Separate p.mappings
  viewed : p.Viewed
  proper : ∀ h ∈ AddressSpace.records p.mappings, h.Proper
  distinct : p.Distinct

theorem sound_of_run {w w' : World} {ops : List Operation} (fresh : w.Fresh)
    (run : RunWhen Allowed World.exec w ops w') (at_i : w'.processes[i]? = some p) : p.Sound := by
  have ok := run.invariant World.Ok.step fresh.ok
  have here := ok.processes p (mem_of_getElem? at_i)
  exact ⟨here.separate, here.viewed, ok.proper at_i, ok.distinct at_i⟩

end

open FourGigabytes

end JeoKernel.AddressSpace
