import Mathlib.Order.Interval.Finset.Nat
import JeoKernel.Exec.CloneViews
import JeoKernel.Exec.Failures

/-!
# Pages that `Protect` has closed

After `Protect` for reading or for no access, a page of the range is to stay as it is until another
call covers it.  The rights of a page are not kept anywhere: the resolvers infer them from the mapping,
from the record of the page and from its entry.

`resolve_page` and `resolve_write` give up the lock of the process on their way.  What each of them has
still to do is part of the state, and any call may come between.
-/

namespace JeoKernel.ReadOnly

open List Option Machine AddressSpace Loop MemMapping Process

/-! ## Calls in progress -/

section

variable [TableMemory]

/-- `resolve_write` before its next page. -/
structure WriteRange where
  addr : UInt64
  ending : UInt64
  deriving DecidableEq

def WriteRange.next (w : WriteRange) : Option WriteRange :=
  let addr := w.addr + 4096
  if addr &&& ~~~4095 ≥ w.ending then none else some { w with addr }

structure State where
  process : Process
  /-- The calls of `resolve_page` that are reading the file. -/
  loads : List LoadRequest
  /-- The calls of `resolve_write` that have not returned. -/
  writes : List WriteRange

inductive Action where
  | syncResolvePage (addr : UInt64) (alloc : ℕ)
  /-- `resolve_page` up to the place where it gives up the lock. -/
  | beginLoad (addr : UInt64)
  | finishLoad (r : LoadRequest) (loaded : Loaded) (same : Bool)
  | resolveWritePage (addr : UInt64) (alloc : ℕ)
  | resolveWrite (addr len : UInt64)
  /-- One turn of the loop of a call of `resolve_write`. -/
  | writePage (k alloc : ℕ)
  | clone (grants childGrants : Grants)
  /-- `Map`, `ClearRange`, `Protect` or `brk`. -/
  | call (a : AddressSpace.Action)

def exec (s : State) : Action → Option State
  | .syncResolvePage addr alloc =>
    some { s with process := (s.process.syncResolvePage addr.toNat alloc).process }
  | .beginLoad addr =>
    some { s with loads := s.loads ++ (s.process.loadRequest addr.toNat).toList }
  | .finishLoad r loaded same =>
    if r ∈ s.loads then
      some { s with process := (s.process.finishLoad r loaded same).2, loads := s.loads.erase r }
    else none
  | .resolveWritePage addr alloc =>
    some { s with process := (s.process.resolveWritePage addr.toNat alloc).process }
  | .resolveWrite addr len =>
    some { s with writes := if addr = addr + len then s.writes else s.writes ++ [⟨addr, addr + len⟩] }
  | .writePage k alloc =>
    s.writes[k]?.map fun w =>
      let fault := s.process.resolveWritePage w.addr.toNat alloc
      let rest := if fault.result = .error then none else w.next
      { s with
        process := fault.process
        writes := s.writes.take k ++ rest.toList ++ s.writes.drop (k + 1) }
  | .clone grants childGrants => some { s with process := (s.process.clone grants childGrants).1 }
  | .call a => (AddressSpace.exec s.process a).map fun p => { s with process := p }

/-! ## What is to hold -/

def Closes (prot : Prot) : Prop := prot = .read ∨ prot = .none

/-- The entry gives no right that the protection takes away. -/
structure Shut (prot : Prot) (e : PageEntry) : Prop where
  writeable : e.writeable = false
  present : prot = .none → e.present = false

/-- The page is one of those the call maps, unmaps, protects, or moves the break over. -/
def Covers (p : Process) (page : ℕ) : AddressSpace.Action → Prop
  | .mapImage _ _ pagenum pages .. | .map _ pagenum pages _ | .clearRange pagenum pages
  | .protect _ pagenum pages _ => pagenum.toNat ≤ page ∧ page < pagenum.toNat + pages.toNat
  | .brk _ brkAddr => ∃ mi ∈ brkMapping p.mappings,
      min (mi.1.pagenum + mi.1.pages) (brkPage (p.brkTarget mi.1 brkAddr.toInt)) ≤ page ∧
      page < max (mi.1.pagenum + mi.1.pages) (brkPage (p.brkTarget mi.1 brkAddr.toInt))

instance (p : Process) (page : ℕ) (a : AddressSpace.Action) : Decidable (Covers p page a) :=
  match a with
  | .mapImage .. | .map .. | .clearRange .. | .protect .. | .brk .. => by
    dsimp only [Covers]
    infer_instance

/-- The mapping has a record of the page that shares it with another process. -/
def MemMapping.Shares (m : MemMapping) (page : ℕ) : Prop :=
  m.Contains page ∧ ∃ h ∈ m.mappings, h.page = page ∧ h.cow.isSome

instance (m : MemMapping) (page : ℕ) : Decidable (MemMapping.Shares m page) :=
  inferInstanceAs (Decidable (_ ∧ _))

/-- `Protect` splits the mapping of the page, and the page is behind the range: the new mapping can be
read. -/
def Reopens (p : Process) (page : ℕ) : AddressSpace.Action → Prop
  | .protect _ pagenum pages _ => pagenum.toNat + pages.toNat ≤ page ∧
      ∃ m ∈ p.mappings, m.Contains page ∧ m.isProtected pagenum.toNat pages.toNat
  | _ => False

instance (p : Process) (page : ℕ) (a : AddressSpace.Action) : Decidable (Reopens p page a) :=
  match a with
  | .mapImage .. | .map .. | .clearRange .. | .protect .. | .brk .. => by
    dsimp only [Reopens]
    infer_instance

/-- `resolve_write_page` does not come to a page that is shared and has no image. -/
def SparesWrite (prot : Prot) (page : ℕ) (p : Process) (addr : UInt64) : Prop :=
  prot = .read → faultPage addr.toNat = some page →
    ∀ m ∈ p.mappings, m.image = none → ¬MemMapping.Shares m page

instance (prot : Prot) (page : ℕ) (p : Process) (addr : UInt64) :
    Decidable (SparesWrite prot page p addr) := by
  dsimp only [SparesWrite]
  infer_instance

/-- The conditions under which a step leaves a closed page alone. -/
def Spares (prot : Prot) (page : ℕ) (s : State) : Action → Prop
  | .syncResolvePage addr _ => prot = .read → faultPage addr.toNat = some page →
      ∀ m ∈ s.process.mappings, ¬MemMapping.Shares m page
  | .finishLoad r _ _ => prot = .none → r.page ≠ page
  | .resolveWritePage addr _ => SparesWrite prot page s.process addr
  | .writePage k _ => ∀ w ∈ s.writes[k]?, SparesWrite prot page s.process w.addr
  | .call a => EndsBelow s.process a ∧ ¬Covers s.process page a ∧
      (prot = .none → ¬Reopens s.process page a)
  | .beginLoad _ | .resolveWrite .. | .clone .. => True

instance (p : Process) (a : AddressSpace.Action) : Decidable (EndsBelow p a) :=
  match a with
  | .mapImage .. | .map .. | .clearRange .. | .protect .. | .brk .. => by
    dsimp only [EndsBelow]
    infer_instance

instance (prot : Prot) (page : ℕ) (s : State) (a : Action) : Decidable (Spares prot page s a) :=
  match a with
  | .syncResolvePage .. | .finishLoad .. | .resolveWritePage .. | .writePage .. | .call .. | .beginLoad ..
  | .resolveWrite .. | .clone .. => by dsimp only [Spares]; infer_instance

end

variable {m x : MemMapping} {ms : List MemMapping} {prot : Prot} {v n page i alloc : ℕ}
  {e e' : PageEntry} {hs : List PhysMapping}

/-! ## Entries, records and mappings -/

theorem Modified.shut (closes : Closes prot) {record : Option PhysMapping}
    (change : Modified (protectEntry prot record) e e') : Shut prot e' := by
  rcases change with ⟨rfl, left | zero⟩ | ⟨f, given, rfl⟩
  · rcases closes with rfl | rfl <;> simp [protectEntry] at left
  · rw [zero]
    exact ⟨rfl, fun _ => rfl⟩
  · rcases closes with rfl | rfl
    · simp only [protectEntry, some.injEq] at given
      subst given
      exact ⟨rfl, by simp⟩
    · simp only [protectEntry, some.injEq] at given
      subst given
      exact ⟨rfl, fun _ => rfl⟩

theorem copyRecord_none (unshared : ∀ h ∈ hs, h.page = page → h.cow = none) :
    copyRecord false page alloc hs = none := by
  induction hs with
  | nil => rfl
  | cons h hs ih =>
    obtain ⟨here, rest⟩ := forall_mem_cons.mp unshared
    unfold copyRecord
    split_ifs with file taken shared
    · simp at taken
    · rfl
    · simp [here shared.1] at shared
    · simp [here shared.1] at shared
    · rw [ih rest]
      rfl

theorem clear_from (mem : x ∈ (m.clear v n).kept ++ (m.clear v n).split) :
    x.cow = m.cow ∧ x.read = m.read := by
  unfold clear at mem
  dsimp only at mem
  split_ifs at mem <;> simp at mem
  · rcases mem with rfl | rfl <;> exact ⟨rfl, rfl⟩
  · obtain rfl := mem
    exact ⟨rfl, rfl⟩
  · obtain rfl := mem
    exact ⟨rfl, rfl⟩
  · obtain rfl := mem
    exact ⟨rfl, rfl⟩

/-! ## `Protect` returns 0 only for a range that is mapped -/

theorem covered_le_card (sep : Separate ms) (v n start : ℕ) :
    ms.foldl (fun k m => if m.isProtected v n then
        wrap32 (k + (m.protEnd v n - m.protStart v)) else k) start ≤
      start + ((Finset.Ico v (v + n)).filter fun q => ∃ m ∈ ms, m.Contains q).card := by
  induction ms generalizing start with
  | nil => simp
  | cons m ms ih =>
    obtain ⟨fits, apart, rest⟩ := separate_cons.mp sep
    have disjoint : Disjoint ((Finset.Ico v (v + n)).filter fun q => m.Contains q)
        ((Finset.Ico v (v + n)).filter fun q => ∃ m' ∈ ms, m'.Contains q) := by
      refine Finset.disjoint_filter.mpr ?_
      rintro q - inside ⟨m', mem, inside'⟩
      exact apart m' mem q inside inside'
    simp only [foldl_cons, exists_mem_cons_iff, Finset.filter_or]
    rw [Finset.card_union_of_disjoint disjoint]
    refine (ih rest _).trans ?_
    have here : (if m.isProtected v n then wrap32 (start + (m.protEnd v n - m.protStart v))
        else start) ≤ start + ((Finset.Ico v (v + n)).filter fun q => m.Contains q).card := by
      split_ifs
      · refine (wrap32_le _).trans (Nat.add_le_add_left ?_ start)
        rw [← Nat.card_Ico]
        refine Finset.card_le_card fun q mem => ?_
        obtain ⟨low, high⟩ := Finset.mem_Ico.mp mem
        have wrapped := wrap32_le (v + n)
        unfold protStart at low
        unfold protEnd at high
        rw [ending_eq fits.below] at high
        refine Finset.mem_filter.mpr ⟨Finset.mem_Ico.mpr ⟨?_, ?_⟩, ?_, ?_⟩
        all_goals split_ifs at low high <;> omega
      · omega
    omega

section

variable (sep : Separate ms) (enough : ¬covered ms v n < n) (low : v ≤ page) (high : page < v + n)

include sep enough low high

theorem mapped_of_covered : ∃ m ∈ ms, m.Contains page := by
  have count := covered_le_card sep v n 0
  have whole : (Finset.Ico v (v + n)).filter (fun q => ∃ m ∈ ms, m.Contains q) =
      Finset.Ico v (v + n) := by
    refine Finset.eq_of_subset_of_card_le (Finset.filter_subset _ _) ?_
    rw [Nat.card_Ico]
    unfold covered at enough
    omega
  exact Finset.filter_eq_self.mp whole _ (Finset.mem_Ico.mpr ⟨low, high⟩)

/-- A range that is mapped does not reach the end of the address space. -/
theorem below_of_covered : v + n < 2 ^ 32 := by
  obtain ⟨m, mem, inside⟩ :=
    mapped_of_covered sep enough (show v ≤ v + n - 1 by omega) (by omega)
  have last := inside.2
  have fits := (sep.fits m mem).below
  omega

end

section

variable [LowTables] {p p' : Process} {grants : Grants}

/-! ## `Protect` goes over its range only -/

theorem protectLoop_shut (sep : Separate ms) (below : v + n < 2 ^ 32) (closes : Closes prot)
    (low : v ≤ page) (high : page < v + n) (t : PageTables) (known : ∃ m ∈ ms, m.Contains page) :
    Shut prot ((protectLoop grants v n prot ms t).2.2.get page) := by
  obtain ⟨m, inside, contains⟩ := known
  have small : n < 2 ^ 32 := by omega
  rcases protectLoop_get grants v prot sep small t page with ⟨-, kept⟩ | ⟨m, -, -, -, change⟩
  · rcases kept m inside contains with invalid | unmet | outside
    · rcases closes with rfl | rfl <;> simp at invalid
    · exact absurd (isProtected_of_contains (sep.fits m inside) below contains low high) unmet
    · exact absurd ⟨low, high⟩ outside
  · exact Modified.shut closes change

/-! ## What holds while the page is closed -/

/-- What is known of a page that `Protect` has closed. -/
structure Closed (prot : Prot) (page : ℕ) (p : Process) : Prop where
  separate : Separate p.mappings
  cow : ∀ m ∈ p.mappings, m.Contains page → m.cow = false
  read : prot = .none → ∀ m ∈ p.mappings, m.Contains page → m.read = false
  entry : Shut prot (p.tables.get page)

theorem Closed.of_source (known : Closed prot page p) (sep : Separate p'.mappings)
    (source : ∀ x ∈ p'.mappings, x.Contains page → ∃ m ∈ p.mappings, m.Contains page ∧
      x.cow = m.cow ∧ (prot = .none → x.read = m.read))
    (entry : Shut prot (p'.tables.get page)) : Closed prot page p' := by
  refine ⟨sep, fun x mem inside => ?_, fun none x mem inside => ?_, entry⟩
  · obtain ⟨m, listed, contains, cow, -⟩ := source x mem inside
    exact cow.trans (known.cow m listed contains)
  · obtain ⟨m, listed, contains, -, read⟩ := source x mem inside
    exact (read none).trans (known.read none m listed contains)

theorem protect_closed (sep : Separate p.mappings) (small : n < 2 ^ 32) (closes : Closes prot)
    (done : (p.protect grants v n prot).1 = 0) (low : v ≤ page) (high : page < v + n) :
    Closed prot page (p.protect grants v n prot).2 := by
  have sep' : Separate (p.protect grants v n prot).2.mappings :=
    protect_separate sep grants small prot
  have enough : ¬covered p.mappings v n < n := by
    intro few
    unfold protect at done
    rw [if_pos few] at done
    simp [eINVAL] at done
  have below := below_of_covered sep enough low high
  have sources : ∀ x ∈ (p.protect grants v n prot).2.mappings, x.Contains page →
      x.cow = false ∧ (prot = .none → x.read = false) := by
    intro x mem inside
    unfold protect at mem
    rw [if_neg enough] at mem
    obtain ⟨m, listed, source⟩ := protectLoop_from p.tables mem
    have fits := sep.fits m listed
    rcases source with ⟨rfl, invalid | unmet⟩ | ⟨met, part | rfl⟩
    · rcases closes with rfl | rfl <;> simp at invalid
    · exact absurd (isProtected_of_contains fits below inside low high) unmet
    · obtain ⟨-, before | behind⟩ := (protectParts_bounded fits small met).others x part
      · have last := inside.2
        omega
      · have first := inside.1
        omega
    · rcases closes with rfl | rfl
      · exact ⟨rfl, by simp⟩
      · exact ⟨rfl, fun _ => rfl⟩
  refine ⟨sep', fun x mem inside => (sources x mem inside).1,
    fun none x mem inside => (sources x mem inside).2 none, ?_⟩
  unfold protect
  rw [if_neg enough]
  exact protectLoop_shut sep below closes low high p.tables
    (mapped_of_covered sep enough low high)

theorem PageStep.closed {q : ℕ} (step : PageStep p p' m i q hs e) (known : Closed prot page p)
    (entry : q = page → Shut prot e) : Closed prot page p' := by
  refine known.of_source (step.separate known.separate) ?_ ?_
  · intro x mem inside
    rw [step.mappings] at mem
    rcases mem_or_eq_of_mem_set mem with old | rfl
    · exact ⟨x, old, inside, rfl, fun _ => rfl⟩
    · exact ⟨m, mem_of_getElem? step.at_i, inside, rfl, fun _ => rfl⟩
  · rw [step.entry page]
    split_ifs with here
    · exact entry here.symm
    · exact known.entry

/-! ## The resolvers -/

section

variable (known : Closed prot page p)
include known

theorem copyPage_none (listed : m ∈ p.mappings)
    (contains : m.Contains page) (unshared : ¬MemMapping.Shares m page) :
    p.copyPage m i page e alloc = none := by
  unfold copyPage
  rw [known.cow m listed contains, copyRecord_none]
  · rfl
  · intro h mem here
    cases cow : h.cow with
    | none => rfl
    | some k => exact absurd ⟨contains, h, mem, here, by simp [cow]⟩ unshared

theorem loadedEntry_shut {data : Option ℕ} {physPage : ℕ}
    (readable : prot ≠ .none) (listed : m ∈ p.mappings) (contains : m.Contains page)
    (found : p.tables.pageentry page = some e) : Shut prot (loadedEntry e data physPage m.cow) := by
  have same := get_of_pageentry found
  have entry := known.entry.writeable
  rw [same] at entry
  refine ⟨?_, fun none => absurd none readable⟩
  simp [loadedEntry, entry, known.cow m listed contains]

theorem syncLoad_closed {q : ℕ} (at_i : p.mappings[i]? = some m)
    (contains : m.Contains q) (read : m.read) (found : p.tables.pageentry q = some e) :
    Closed prot page (p.syncLoad m i q e alloc).process := by
  have listed := mem_of_getElem? at_i
  have installed : ∀ data physPage preExisting,
      Closed prot page (p.install m i q e data physPage preExisting) := by
    intro data physPage preExisting
    refine PageStep.closed (install_step at_i contains found) known ?_
    rintro rfl
    refine loadedEntry_shut known ?_ listed contains found
    intro none
    simp [known.read none m listed contains] at read
  unfold syncLoad
  dsimp only
  split_ifs
  · exact known
  · exact known
  · exact installed _ _ _
  · exact known
  · exact installed _ _ _

theorem copyPage_closed {q addr : ℕ} {dropped : Option ℕ} (at_i : p.mappings[i]? = some m)
    (contains : m.Contains q) (walk : p.tables.walk addr q = some e)
    (copied : p.copyPage m i q e alloc = some (p', dropped)) (other : q ≠ page) :
    Closed prot page p' := by
  obtain ⟨c, found, same⟩ := map_eq_some_iff.mp copied
  obtain ⟨rfl, rfl⟩ := Prod.mk.inj same
  exact PageStep.closed ⟨at_i, contains, rfl, setEntry_get (walk_pageentry walk),
    (copyRecord_step found).others⟩ known fun here => absurd here other

theorem syncResolvePage_closed {addr : UInt64} (closes : Closes prot)
    (spares : prot = .read → faultPage addr.toNat = some page →
      ∀ m ∈ p.mappings, ¬MemMapping.Shares m page) :
    Closed prot page (p.syncResolvePage addr.toNat alloc).process := by
  fun_cases Process.syncResolvePage p addr.toNat alloc with
  | case4 q faulted m i e walk found unread _ p' dropped copied =>
    obtain ⟨at_i, contains⟩ := findMapping_spec found known.separate
    refine copyPage_closed known at_i contains walk copied ?_
    rintro rfl
    have listed := mem_of_getElem? at_i
    rcases closes with readOnly | none
    · have unshared := spares readOnly faulted m listed
      simp [copyPage_none known listed contains unshared] at copied
    · simp [known.read none m listed contains] at unread
  | case5 q _ m i e walk found unread =>
    obtain ⟨at_i, contains⟩ := findMapping_spec found known.separate
    exact syncLoad_closed known at_i contains (by simpa using unread) (walk_pageentry walk)
  | _ => exact known

theorem resolveWritePage_closed {addr : UInt64} (closes : Closes prot)
    (spares : SparesWrite prot page p addr) :
    Closed prot page (p.resolveWritePage addr.toNat alloc).process := by
  fun_cases Process.resolveWritePage p addr.toNat alloc with
  | case5 q faulted m i e walk found refused _ p' dropped copied =>
    obtain ⟨at_i, contains⟩ := findMapping_spec found known.separate
    refine copyPage_closed known at_i contains walk copied ?_
    rintro rfl
    have listed := mem_of_getElem? at_i
    obtain ⟨image, present⟩ := not_or.mp refused
    rcases closes with readOnly | none
    · have anonymous : m.image = .none := by
        simpa [known.cow m listed contains] using image
      have unshared := spares readOnly faulted m listed anonymous
      simp [copyPage_none known listed contains unshared] at copied
    · have absent := known.entry.present none
      rw [get_of_pageentry (walk_pageentry walk)] at absent
      simp [absent] at present
  | _ => exact known

theorem finishLoad_closed {r : LoadRequest} {loaded : Loaded} {same : Bool}
    (spares : prot = .none → r.page ≠ page) :
    Closed prot page (p.finishLoad r loaded same).2 := by
  fun_cases Process.finishLoad p r loaded same with
  | case3 m i e walk found =>
    obtain ⟨at_i, contains⟩ := findMapping_spec found known.separate
    have entry := walk_pageentry walk
    refine PageStep.closed (install_step at_i contains entry) known ?_
    intro here
    rw [here] at contains entry
    exact loadedEntry_shut known (fun none => spares none here) (mem_of_getElem? at_i) contains entry
  | _ => exact known

end

/-! ## Clone -/

theorem writeProtectCow_from (t : PageTables) (mem : x ∈ (writeProtectCow grants t ms).2.1) :
    ∃ m ∈ ms, x.pagenum = m.pagenum ∧ x.pages = m.pages ∧ x.cow = m.cow ∧ x.read = m.read := by
  induction ms generalizing t with
  | nil => cases mem
  | cons m ms ih =>
    rcases mem_cons.mp mem with rfl | later
    · exact ⟨m, mem_cons_self, rfl, rfl, rfl, rfl⟩
    · obtain ⟨m', listed, same⟩ := ih _ later
      exact ⟨m', mem_cons_of_mem _ listed, same⟩

theorem clone_closed (known : Closed prot page p) (grants childGrants : Grants) :
    Closed prot page (p.clone grants childGrants).1 := by
  refine known.of_source (forked_separate (clone_forked p grants childGrants).1 known.separate) ?_ ?_
  · intro x mem inside
    obtain ⟨m, listed, first, size, cow, read⟩ := writeProtectCow_from p.tables mem
    refine ⟨m, listed, ?_, cow, fun _ => read⟩
    unfold MemMapping.Contains at inside ⊢
    rwa [← first, ← size]
  · rw [clone_get]
    unfold sharedEntry
    split_ifs
    · exact known.entry
    · exact ⟨rfl, known.entry.present⟩

/-! ## Calls that do not cover the page -/

variable {func : PageEntry → PageEntry}

theorem ChangedUpTo.get_outside {lo hi : ℕ} {t t' : PageTables}
    (change : ChangedUpTo func lo hi t t') (outside : ¬(lo ≤ page ∧ page < hi)) :
    t'.get page = t.get page := by
  rw [change LowTables.low page, if_neg outside]

theorem addMapping_closed (known : Closed prot page p) (below : x.pagenum + x.pages < 2 ^ 32)
    (new : x.mappings = []) (outside : ¬(x.pagenum ≤ page ∧ page < x.pagenum + x.pages)) :
    Closed prot page (p.addMapping grants x func).2 := by
  have sep := addMapping_separate known.separate grants func below new
  refine known.of_source sep (fun y mem inside => ?_) ?_
  · have old : y ∈ p.mappings := by
      revert mem
      fun_cases addMapping p grants x func with intro mem
      | case3 => exact mem
      | _ =>
        refine (mem_append.mp mem).resolve_right fun added => outside ?_
        exact mem_singleton.mp added ▸ inside
    exact ⟨y, old, inside, rfl, fun _ => rfl⟩
  · rw [addMapping_get below.le outside]
    exact known.entry

section

variable (known : Closed prot page p)

include known

theorem clearRange_closed (small : n < 2 ^ 32) : Closed prot page (p.clearRange v n) := by
  refine known.of_source ((clearRange_cut known.separate.fits small).separate known.separate) ?_
    known.entry
  intro x mem inside
  have parts : ∃ m ∈ p.mappings, x ∈ (m.clear v n).kept ++ (m.clear v n).split := by
    rcases mem_append.mp mem with kept | split
    · obtain ⟨m, listed, part⟩ := mem_flatMap.mp kept
      exact ⟨m, listed, mem_append_left _ part⟩
    · obtain ⟨m, listed, part⟩ := mem_flatMap.mp split
      exact ⟨m, listed, mem_append_right _ part⟩
  obtain ⟨m, listed, part⟩ := parts
  obtain ⟨cow, read⟩ := clear_from part
  have whole := (clear_partsOf (known.separate.fits m listed) small).part x part
  exact ⟨m, listed, whole.contains inside, cow, fun _ => read⟩

theorem protect_outside_closed {other : Prot} (small : n < 2 ^ 32)
    (outside : ¬(v ≤ page ∧ page < v + n))
    (kept : prot = .none → ¬(v + n ≤ page ∧ ∃ m ∈ p.mappings, m.Contains page ∧ m.isProtected v n)) :
    Closed prot page (p.protect grants v n other).2 := by
  have sep : Separate (p.protect grants v n other).2.mappings :=
    protect_separate known.separate grants small other
  unfold protect at sep ⊢
  by_cases few : covered p.mappings v n < n
  · rw [if_pos few]
    exact known
  rw [if_neg few] at sep ⊢
  refine known.of_source sep ?_ ?_
  · intro x mem inside
    obtain ⟨m, listed, source⟩ := protectLoop_from p.tables mem
    have fits := known.separate.fits m listed
    rcases source with ⟨rfl, -⟩ | ⟨met, part | rfl⟩
    · exact ⟨x, listed, inside, rfl, fun _ => rfl⟩
    · have contains := ((protectParts_partsOf fits small met).part x
        (mem_cons_of_mem _ part)).contains inside
      obtain ⟨cow, ⟨read, -⟩ | behind⟩ := (protectParts_bounded fits small met).others x part
      · exact ⟨m, listed, contains, cow, fun _ => read⟩
      · refine ⟨m, listed, contains, cow, fun none => ?_⟩
        exact absurd ⟨behind.trans inside.1, m, listed, contains, met⟩ (kept none)
    · have inner := ((protectParts_partsOf fits small met).part _ mem_cons_self).fits fits
      have contains := (setProtection_part inner other).contains inside
      exact absurd ((inside_contains_iff (protectParts_bounded fits small met)).mp contains).2
        outside
  · rcases protectLoop_get grants v other known.separate small p.tables page with
      ⟨same, -⟩ | ⟨-, -, -, inside, -⟩
    · exact same ▸ known.entry
    · exact absurd inside outside

theorem brkTo_closed {target addr : ℕ} (at_i : p.mappings[i]? = some m) (image : m.image = none)
    (above : m.pagenum < target) (below : target < 2 ^ 32)
    (outside : ¬(min (m.pagenum + m.pages) target ≤ page ∧ page < max (m.pagenum + m.pages) target)) :
    Closed prot page (p.brkTo grants m i target addr).process := by
  have sep : Separate (p.brkTo grants m i target addr).process.mappings :=
    (brkTo_step known.separate grants at_i image above below).separate known.separate
  have listed := mem_of_getElem? at_i
  have fits := known.separate.fits m listed
  have high := fits.below
  have size : wrap32 (target - m.pagenum) = target - m.pagenum := by
    unfold wrap32
    omega
  -- the mapping at place `i` has the page after the call only where it had it before
  have source : ∀ y, y.pagenum = m.pagenum → (page < y.pagenum + y.pages → page < m.pagenum + m.pages) →
      y.cow = m.cow → y.read = m.read → ∀ x ∈ p.mappings.set i y, x.Contains page →
      ∃ m ∈ p.mappings, m.Contains page ∧ x.cow = m.cow ∧ (prot = .none → x.read = m.read) := by
    intro y first last cow read x mem inside
    rcases mem_or_eq_of_mem_set mem with old | rfl
    · exact ⟨x, old, inside, rfl, fun _ => rfl⟩
    · exact ⟨m, listed, ⟨first ▸ inside.1, last inside.2⟩, cow, fun _ => read⟩
  unfold brkTo at sep ⊢
  dsimp only at sep ⊢
  split_ifs at sep ⊢ with same extend check
  · exact ⟨sep, known.cow, known.read, known.entry⟩
  · have loop := modifyRange_get (t := p.tables) grants (freshEntry true true) extend.le below.le
    cases done : modifyRange grants (freshEntry true true) (m.pagenum + m.pages) target p.tables with
    | ok t =>
      rw [done] at loop sep
      refine known.of_source sep (source _ rfl ?_ rfl rfl) ?_
      · dsimp only
        omega
      · rw [ChangedUpTo.get_outside loop (by omega)]
        exact known.entry
    | error t =>
      rw [done] at loop sep
      obtain ⟨k, -, before, change⟩ := loop
      refine ⟨sep, known.cow, known.read, ?_⟩
      rw [ChangedUpTo.get_outside change (by omega)]
      exact known.entry
  · exact known
  · have loop := shrink_post grants (not_lt.mp extend) high.le p.tables m.mappings
    cases done : forRange target (m.pagenum + m.pages) (shrinkTurn grants)
        (p.tables, m.mappings, []) with
    | ok r =>
      rw [done] at loop sep
      refine known.of_source sep (source _ rfl ?_ rfl rfl) ?_
      · dsimp only
        omega
      · rw [ChangedUpTo.get_outside loop.tables (by omega)]
        exact known.entry
    | error r =>
      rw [done] at loop sep
      obtain ⟨k, -, before, shrunk⟩ := loop
      refine known.of_source sep (source _ rfl id rfl rfl) ?_
      rw [ChangedUpTo.get_outside shrunk.tables (by omega)]
      exact known.entry

theorem brk_closed {brkAddr : Int64} (ends : brkAddr.toInt ≤ (2 ^ 32 - 1) * 4096)
    (outside : ¬Covers p page (.brk grants brkAddr)) :
    Closed prot page (p.brk grants brkAddr.toInt).process := by
  rcases brk_cases p grants brkAddr.toInt with ⟨refused, -⟩ | ⟨m, i, found, allowed, moved⟩
  · rw [refused]
    exact known
  · obtain ⟨image, brk, high, -, above⟩ := allowed
    have at_i := brkMapping_getElem found
    have fits := known.separate.fits m (mem_of_getElem? at_i)
    have target := brkTarget_le fits brkAddr.le_toInt ends brk high
    have below : brkPage (p.brkTarget m brkAddr.toInt) < 2 ^ 32 := by
      unfold brkPage
      split_ifs <;> omega
    rw [moved]
    exact brkTo_closed known at_i image above below fun covers => outside ⟨(m, i), found, covers⟩

theorem call_closed {a : AddressSpace.Action} (ends : EndsBelow p a) (outside : ¬Covers p page a)
    (kept : prot = .none → ¬Reopens p page a) (taken : AddressSpace.exec p a = some p') :
    Closed prot page p' := by
  cases a with
  | mapImage | map => cases taken; exact addMapping_closed known ends rfl outside
  | clearRange pagenum pages => cases taken; exact clearRange_closed known pages.toNat_lt
  | protect grants pagenum pages other =>
    cases taken
    exact protect_outside_closed known pages.toNat_lt outside kept
  | brk grants brkAddr => cases taken; exact brk_closed known ends outside

end

/-! ## Runs -/

theorem exec_closed (closes : Closes prot) (s : State) (a : Action) (s' : State)
    (known : Closed prot page s.process) (spares : Spares prot page s a)
    (taken : exec s a = some s') : Closed prot page s'.process := by
  cases a with
  | syncResolvePage => cases taken; exact syncResolvePage_closed known closes spares
  | beginLoad | resolveWrite => cases taken; exact known
  | finishLoad r loaded same =>
    simp only [exec] at taken
    split_ifs at taken
    cases taken
    exact finishLoad_closed known spares
  | resolveWritePage => cases taken; exact resolveWritePage_closed known closes spares
  | writePage k alloc =>
    obtain ⟨w, found, rfl⟩ := map_eq_some_iff.mp taken
    exact resolveWritePage_closed known closes (spares w found)
  | clone grants childGrants => cases taken; exact clone_closed known grants childGrants
  | call a =>
    obtain ⟨p, done, rfl⟩ := map_eq_some_iff.mp taken
    exact call_closed known spares.1 spares.2.1 spares.2.2 done

/-- A page that `Protect` has closed stays closed. -/
theorem shut_of_spared {p : Process} (sep : Separate p.mappings) {grants : Grants}
    {pagenum pages : UInt32} {prot : Prot} (closes : Closes prot)
    (done : (p.protect grants pagenum.toNat pages.toNat prot).1 = 0) {page : ℕ}
    (low : pagenum.toNat ≤ page) (high : page < pagenum.toNat + pages.toNat)
    {loads : List LoadRequest} {writes : List WriteRange} {actions : List Action} {s : State}
    (run : RunWhen (Spares prot page) exec
      ⟨(p.protect grants pagenum.toNat pages.toNat prot).2, loads, writes⟩ actions s) :
    Shut prot (s.process.tables.get page) := by
  have start := protect_closed sep pages.toNat_lt closes done low high
  have reached := run.invariant (I := fun s => Closed prot page s.process) (exec_closed closes) start
  exact reached.entry

end

open FourGigabytes

def twoPages : Process := (Process.empty.map allGranted 16 2 false).2

theorem separate_twoPages : Separate twoPages.mappings :=
  addMapping_separate separate_nil allGranted _ (by decide) rfl

/-- The first page is closed for writing, read, shared by a fork and written to. -/
theorem shut_read_page :
    ∃ s, RunWhen (Spares .read 16) exec ⟨(twoPages.protect allGranted 16 1 .read).2, [], []⟩
        [.syncResolvePage 0x10000 5, .clone allGranted allGranted, .syncResolvePage 0x10000 6,
          .resolveWrite 0x10000 1, .writePage 0 6, .call (.map allGranted 32 1 false)] s ∧
      (s.process.tables.get 16).present ∧ Shut .read (s.process.tables.get 16) := by
  refine RunWhen.exists_and (f := fun s => (s.process.tables.get 16).present) (v := true)
    (by decide +kernel) fun s run present => ⟨present, ?_⟩
  exact @shut_of_spared _ twoPages separate_twoPages allGranted 16 1 .read (.inl rfl)
    (by decide +kernel) 16 le_rfl (by decide) [] [] _ s run

def forkedPage : Process :=
  ((Process.empty.map allGranted 16 1 false).2.syncResolvePage 0x10000 5).process.clone allGranted
    allGranted |>.1

def filePage : Process :=
  (Process.empty.mapImage allGranted (some 1) 16 1 0 0 false false false false).2

/-- The copy of a shared page can be written whatever its mapping says.  A page that is being read
from a file, and a page behind another one that is opened again, come back after `PROT_NONE`. -/
theorem not_shut_closed_pages :
    ((forkedPage.protect allGranted 16 1 .read).1 = 0 ∧
      ∃ s, Run exec ⟨(forkedPage.protect allGranted 16 1 .read).2, [], []⟩
          [.resolveWritePage 0x10000 6] s ∧ ¬Shut .read (s.process.tables.get 16)) ∧
    ((filePage.protect allGranted 16 1 .none).1 = 0 ∧
      ∃ s, Run exec ⟨(filePage.protect allGranted 16 1 .none).2,
          (filePage.loadRequest 0x10000).toList, []⟩
          [.finishLoad ⟨0x10000, 16, 1, 0, 0⟩ (.file 7) true] s ∧
        ¬Shut .none (s.process.tables.get 16)) ∧
    ((twoPages.protect allGranted 16 2 .none).1 = 0 ∧
      ∃ s, Run exec ⟨(twoPages.protect allGranted 16 2 .none).2, [], []⟩
          [.call (.protect allGranted 16 1 .read), .syncResolvePage 0x11000 5] s ∧
        ¬Shut .none (s.process.tables.get 17)) := by
  refine ⟨⟨by decide +kernel, ?_⟩, ⟨by decide +kernel, ?_⟩, ⟨by decide +kernel, ?_⟩⟩
  · refine RunWhen.exists_and (f := fun s => (s.process.tables.get 16).writeable) (v := true)
      (by decide +kernel) fun s _ writeable shut => ?_
    simp [shut.writeable] at writeable
  · refine RunWhen.exists_and (f := fun s => (s.process.tables.get 16).present) (v := true)
      (by decide +kernel) fun s _ present shut => ?_
    simp [shut.present rfl] at present
  · refine RunWhen.exists_and (f := fun s => (s.process.tables.get 17).present) (v := true)
      (by decide +kernel) fun s _ present shut => ?_
    simp [shut.present rfl] at present

end JeoKernel.ReadOnly
