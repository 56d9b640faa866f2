import Mathlib.Data.Finset.Erase
import Mathlib.Data.Finset.Insert
import JeoKernel.Exec.CloneViews

/-!
# Physical memory under all processes

The processes of the kernel share the pages that `ppagealloc` gives out.  A page is given back when
a mapping is destroyed, when the break is lowered, when the last `CowPageRef` to it is dropped, or
when a `DeferredReleasePage` is destroyed.  `ppagefree` panics on a page that is not claimed; such a
step is not taken.

A `CowPageRef` is named by its page.  What the rest of the kernel takes from the allocator (page
tables among it) is claimed by `claim`, and a page that the file cache fills by `cachePage`.
-/

namespace JeoKernel.AddressSpace

open List

def PhysMapping.ownPage (h : PhysMapping) : Option ℕ := if h.Private then some h.physPage else none

def privatePages (hs : List PhysMapping) : List ℕ := hs.filterMap (·.ownPage)

def cowPages (hs : List PhysMapping) : List ℕ := hs.filterMap (·.cow)

section

variable [TableMemory]

/-- A call of `resolve_page` that has given up its lock, and what it has read since. -/
structure Load where
  process : ℕ
  request : LoadRequest
  loaded : Option Loaded

structure World where
  processes : List Process
  /-- The pages that `ppagealloc` has given out. -/
  claimed : Finset ℕ
  /-- The pages of the file cache. -/
  cached : Finset ℕ
  /-- The `DeferredReleasePage`s that were not destroyed yet. -/
  deferred : List PhysMapping
  loads : List Load

def World.records (w : World) : List PhysMapping :=
  w.processes.flatMap fun p => AddressSpace.records p.mappings

/-- The pages that a `CowPageRef` keeps. -/
def World.shared (w : World) : List ℕ := cowPages w.records ++ cowPages w.deferred

/-! ## Giving pages back -/

def World.free (w : World) (n : ℕ) : Option World :=
  if n ∈ w.claimed then some { w with claimed := w.claimed.erase n } else none

def World.freeAll (w : World) (ns : List ℕ) : Option World := ns.foldlM World.free w

/-- References to the pages `ns` have been dropped: those without another reference are freed. -/
def World.dropCows (w : World) (ns : List ℕ) : Option World :=
  w.freeAll (ns.dedup.filter (· ∉ w.shared))

/-! ## Calls -/

def Process.released (p : Process) : Action → List PhysMapping
  | .clearRange pagenum pages =>
    p.mappings.flatMap fun m => (m.clear pagenum.toNat pages.toNat).released
  | _ => []

def Process.discarded (p : Process) : Action → List PhysMapping
  | .clearRange pagenum pages =>
    p.mappings.flatMap fun m => (m.clear pagenum.toNat pages.toNat).destroyed
  | .brk grants brkAddr => (p.brk grants brkAddr.toInt).freed
  | _ => []

/-- The pages that a call passes to `ppagefree`; `brk` does not look at what kind of page it is. -/
def Process.freed (p : Process) : Action → List ℕ
  | .brk grants brkAddr => (p.brk grants brkAddr.toInt).freed.map (·.physPage)
  | a => privatePages (p.discarded a)

/-- What is done on the physical pages: the calls of a process, a fork, the faults, the two ends of
`resolve_page` with the reading between them, and the destruction of a `DeferredReleasePage`.
`alloc` is the answer of `ppagealloc`. -/
inductive Operation where
  | call (i : ℕ) (a : Action)
  | clone (i : ℕ) (grants childGrants : Grants)
  | syncResolvePage (i addr alloc : ℕ)
  | resolveWritePage (i addr alloc : ℕ)
  | beginLoad (i addr : ℕ)
  | readPage (k : ℕ) (loaded : Loaded)
  | finishLoad (k : ℕ) (same : Bool)
  | dropDeferred (k : ℕ)
  | cachePage (n : ℕ)
  | claim (n : ℕ)

def World.call (w : World) (i : ℕ) (a : Action) : Option World :=
  match w.processes[i]? with
  | none => none
  | some p =>
    match exec p a with
    | none => none
    | some p' =>
      ({ w with processes := w.processes.set i p'
                deferred := w.deferred ++ p.released a }.freeAll (p.freed a)).bind
        (·.dropCows (cowPages (p.discarded a)))

def World.fork (w : World) (i : ℕ) (family : Process × Process) : World :=
  { w with processes := w.processes.set i family.1 ++ [family.2] }

def World.afterFault {ρ : Type} (w : World) (i alloc : ℕ) (f : Fault ρ) : Option World :=
  if alloc = 0 ∨ alloc ∉ w.claimed then
    { w with processes := w.processes.set i f.process
             claimed := if f.took then insert alloc w.claimed else w.claimed }.dropCows
      f.dropped.toList
  else none

/-- What `resolve_page` reads: a page of the file cache, or a new page where the mapping loads a part
of it. -/
def World.readPage (w : World) (k : ℕ) (l : Load) : Loaded → Option World
  | .file n =>
    if l.request.load = 0 ∧ n ∈ w.cached then
      some { w with loads := w.loads.set k { l with loaded := some (.file n) } }
    else none
  | .copy n =>
    if l.request.load ≠ 0 ∧ n ≠ 0 ∧ n ∉ w.claimed then
      some { w with claimed := insert n w.claimed
                    loads := w.loads.set k { l with loaded := some (.copy n) } }
    else none

/-- The end of a load; a copy that is released is freed. -/
def World.finishLoad (w : World) (k : ℕ) (l : Load) (p : Process) (loaded : Loaded) (same : Bool) :
    Option World :=
  let (ending, p') := p.finishLoad l.request loaded same
  let w' := { w with processes := w.processes.set l.process p', loads := w.loads.eraseIdx k }
  match ending, loaded with
  | .released, .copy n => w'.free n
  | _, _ => some w'

/-- The number that a `DeferredReleasePage` keeps: the address of the page as a 32-bit word. -/
def PhysMapping.deferredNumber (h : PhysMapping) : ℕ := wrap32 (h.physPage * 4096)

/-- The destructor of a `DeferredReleasePage`, which takes its number for that of a page. -/
def World.dropDeferred (w : World) (k : ℕ) (h : PhysMapping) : Option World :=
  let w' := { w with deferred := w.deferred.eraseIdx k }
  (if h.Private ∧ h.deferredNumber ≠ 0 then w'.free h.deferredNumber else some w').bind
    (·.dropCows h.cow.toList)

def World.exec (w : World) : Operation → Option World
  | .call i a => w.call i a
  | .clone i grants childGrants =>
    w.processes[i]?.map fun p => w.fork i (p.clone grants childGrants)
  | .syncResolvePage i addr alloc =>
    w.processes[i]?.bind fun p => w.afterFault i alloc (p.syncResolvePage addr alloc)
  | .resolveWritePage i addr alloc =>
    w.processes[i]?.bind fun p => w.afterFault i alloc (p.resolveWritePage addr alloc)
  | .beginLoad i addr =>
    w.processes[i]?.bind fun p => (p.loadRequest addr).map fun r =>
      { w with loads := w.loads ++ [⟨i, r, none⟩] }
  | .readPage k loaded =>
    w.loads[k]?.bind fun l => if l.loaded = none then w.readPage k l loaded else none
  | .finishLoad k same =>
    w.loads[k]?.bind fun l => w.processes[l.process]?.bind fun p => l.loaded.bind fun loaded =>
      w.finishLoad k l p loaded same
  | .dropDeferred k => w.deferred[k]?.bind fun h => w.dropDeferred k h
  | .cachePage n =>
    if n ≠ 0 ∧ n ∉ w.claimed then
      some { w with cached := insert n w.cached, claimed := insert n w.claimed }
    else none
  | .claim n => if n ∉ w.claimed then some { w with claimed := insert n w.claimed } else none

/-! ## Isolation -/

/-- A page that a process can write is held by one record, a private one of this process.  It is no
page of the file cache, and no other process maps it. -/
def World.Isolated (w : World) : Prop :=
  ∀ (i : ℕ) (p : Process), w.processes[i]? = some p → ∀ m ∈ p.mappings, ∀ page,
    m.Contains page → (p.tables.get page).present → (p.tables.get page).writeable →
    (∃ h ∈ AddressSpace.records p.mappings, h.Private ∧
      w.records.filter (·.Holds (p.tables.get page).pagePpn) = [h]) ∧
    (p.tables.get page).pagePpn ∉ w.cached ∧
    ∀ (j : ℕ) (q : Process), j ≠ i → w.processes[j]? = some q → ∀ m' ∈ q.mappings, ∀ page',
      m'.Contains page' → (q.tables.get page').present →
      (q.tables.get page').pagePpn ≠ (p.tables.get page).pagePpn

structure World.Fresh (w : World) : Prop where
  mappings : ∀ p ∈ w.processes, p.mappings = []
  deferred : w.deferred = []
  loads : w.loads = []
  cached : w.cached ⊆ w.claimed
  nonzero : 0 ∉ w.cached

/-- `Map` reaches all entries or finds none of them present, and a record that `ClearRange` puts on
the release list has no number or is not a private one. -/
def CallKeeps (p : Process) : Action → Prop
  | .mapImage grants image pagenum pages imageSkipPages load write execute copyOnWrite binaryMap =>
    (p.mapImage grants image pagenum.toNat pages.toNat imageSkipPages.toNat load.toNat
      write execute copyOnWrite binaryMap).1 ∨
    ∀ page, pagenum.toNat ≤ page → page < pagenum.toNat + pages.toNat →
      ¬(p.tables.get page).present
  | .map grants pagenum pages binaryMap =>
    (p.map grants pagenum.toNat pages.toNat binaryMap).1 ∨
    ∀ page, pagenum.toNat ≤ page → page < pagenum.toNat + pages.toNat →
      ¬(p.tables.get page).present
  | .clearRange pagenum pages =>
    ∀ h ∈ p.released (.clearRange pagenum pages), h.Private → h.deferredNumber = 0
  | .protect .. | .brk .. => True

/-- The operations that keep the processes apart. -/
def Allowed (w : World) : Operation → Prop
  | .call i a => ∀ p, w.processes[i]? = some p → EndsBelow p a ∧ CallKeeps p a
  | .clone i _ _ => ∀ p, w.processes[i]? = some p → CloneKeeps p
  | .finishLoad k _ => ∀ (l : Load) (p : Process) (loaded : Loaded), w.loads[k]? = some l →
      w.processes[l.process]? = some p → l.loaded = some loaded → LoadKeeps p l.request loaded
  | _ => True

end

/-! ## Release lists -/

/-- The call of `ppagefree` for a private page, by its address and size. -/
def PhysMapping.ownFree (h : PhysMapping) : Option (ℕ × ℕ) :=
  if h.Private ∧ h.physPage ≠ 0 then some (h.physPage * 4096, 4096) else none

def PhysMapping.destroyFree (h : PhysMapping) : Option (ℕ × ℕ) :=
  if h.Private then some (h.physPage * 4096, 4096) else none

def PhysMapping.deferredFree (h : PhysMapping) : Option (ℕ × ℕ) :=
  if h.Private ∧ h.deferredNumber ≠ 0 then some (h.deferredNumber * 4096, 4096) else none

/-- Pages that were all freed under such numbers would have the number zero. -/
theorem eq_zero_of_deferred {n : ℕ} {P : ℕ → Prop} (holds : P n)
    (freed : ∀ n, P n → ∃ n', P n' ∧ wrap32 (n' * 4096) = n) : n = 0 := by
  obtain ⟨n₁, holds₁, rfl⟩ := freed n holds
  obtain ⟨n₂, holds₂, rfl⟩ := freed n₁ holds₁
  obtain ⟨n₃, -, rfl⟩ := freed n₂ holds₂
  unfold wrap32
  omega

theorem deferredFree_eq_none {h : PhysMapping} (zero : h.Private → h.physPage = 0) :
    h.deferredFree = none :=
  if_neg fun own => own.2 (by simp [PhysMapping.deferredNumber, zero own.1, wrap32])

theorem mem_of_mem_getD {lists : List (List PhysMapping)} {i : ℕ} {h : PhysMapping}
    (mem : h ∈ lists.getD i []) : ∃ list ∈ lists, h ∈ list := by
  rw [getD_eq_getElem?_getD] at mem
  cases at_i : lists[i]? with
  | none => simp [at_i] at mem
  | some list =>
    rw [at_i] at mem
    exact ⟨list, mem_of_getElem? at_i, mem⟩

theorem filter_range_held {n : ℕ} {held new : List ℕ} (mem : n ∈ new) (only : ∀ i ∈ new, i = n) :
    (range (n + 1)).filter (· ∉ held ++ new) = (range n).filter (· ∉ held) := by
  have last : [n].filter (· ∉ held ++ new) = [] := by simp [mem]
  rw [range_succ, filter_append, last, append_nil]
  refine filter_congr fun i bound => ?_
  have other : i ∉ new := fun mem => (mem_range.mp bound).ne (only i mem)
  simp [other]

section

variable [TableMemory]

/-- The release lists of a process, each with what its call of `ClearRange` has removed. -/
structure Releases where
  released : List (List PhysMapping)
  destroyed : List (List PhysMapping)
  /-- The numbers of the lists that the callers and the snapshots hold. -/
  holders : List ℕ
  /-- The calls of `ppagefree` so far. -/
  frees : List (ℕ × ℕ)

inductive ReleaseAction where
  /-- `ClearRange`; the newest snapshot, where there is one, holds the list too. -/
  | clearRange (p : Process) (pagenum pages : UInt32) (snapshot : Bool)
  | drop (list : ℕ)

namespace Releases

def start : Releases := ⟨[], [], [], []⟩

def exec (s : Releases) : ReleaseAction → Option Releases
  | .clearRange p pagenum pages snapshot =>
    let list := s.released.length
    let destroyed := p.discarded (.clearRange pagenum pages)
    some ⟨s.released ++ [p.released (.clearRange pagenum pages)], s.destroyed ++ [destroyed],
      s.holders ++ (if snapshot then [list, list] else [list]),
      s.frees ++ destroyed.filterMap (·.destroyFree)⟩
  | .drop list =>
    if list ∈ s.holders then
      let holders := s.holders.erase list
      some { s with
        holders := holders
        frees := if list ∈ holders then s.frees
          else s.frees ++ (s.released.getD list []).filterMap (·.deferredFree) }
    else none

/-- The numbers of the lists that nobody holds any more. -/
def dropped (s : Releases) : List ℕ := (range s.released.length).filter (· ∉ s.holders)

/-- The private pages of the lists that nobody holds have been freed, and nothing else. -/
def FreesOwn (s : Releases) : Prop :=
  s.frees.Perm (s.dropped.flatMap fun list =>
    (s.released.getD list [] ++ s.destroyed.getD list []).filterMap (·.ownFree))

/-- It is so in every state of the run, and while the lists that are left are dropped. -/
def FreesOwnAlong (as : List ReleaseAction) : Prop :=
  ∀ (lists : List ℕ) (k : ℕ) (s : Releases),
    Machine.Run exec start ((as ++ lists.map ReleaseAction.drop).take k) s → s.FreesOwn

end Releases

namespace ReleaseAction

def released : ReleaseAction → List (List PhysMapping)
  | .clearRange p pagenum pages _ => [p.released (.clearRange pagenum pages)]
  | .drop _ => []

def destroyed : ReleaseAction → List (List PhysMapping)
  | .clearRange p pagenum pages _ => [p.discarded (.clearRange pagenum pages)]
  | .drop _ => []

/-- The call takes no private page out of the map. -/
structure SparesPrivate (a : ReleaseAction) : Prop where
  released : ∀ list ∈ a.released, ∀ h ∈ list, h.Private → h.physPage = 0
  destroyed : ∀ list ∈ a.destroyed, ∀ h ∈ list, ¬h.Private

end ReleaseAction

namespace Releases

variable {s t : Releases} {as : List ReleaseAction}

/-! ## What a run has removed and freed -/

theorem exec_lists {a : ReleaseAction} (taken : s.exec a = some t) :
    t.released = s.released ++ a.released ∧ t.destroyed = s.destroyed ++ a.destroyed := by
  cases a with
  | clearRange =>
    cases taken
    exact ⟨rfl, rfl⟩
  | drop list =>
    dsimp only [exec] at taken
    split_ifs at taken
    all_goals
      cases taken
      exact ⟨(append_nil _).symm, (append_nil _).symm⟩

theorem run_lists (run : Machine.Run exec s as t) :
    t.released = s.released ++ as.flatMap (·.released) ∧
      t.destroyed = s.destroyed ++ as.flatMap (·.destroyed) := by
  induction run with
  | nil => exact ⟨(append_nil _).symm, (append_nil _).symm⟩
  | cons _ taken _ ih =>
    obtain ⟨released, destroyed⟩ := exec_lists taken
    rw [ih.1, ih.2, released, destroyed, append_assoc, append_assoc, flatMap_cons, flatMap_cons]
    exact ⟨rfl, rfl⟩

theorem mem_released (run : Machine.Run exec start as s) {list : List PhysMapping} :
    list ∈ s.released ↔ ∃ a ∈ as, list ∈ a.released := by
  rw [(run_lists run).1]
  exact mem_flatMap

theorem mem_destroyed (run : Machine.Run exec start as s) {list : List PhysMapping} :
    list ∈ s.destroyed ↔ ∃ a ∈ as, list ∈ a.destroyed := by
  rw [(run_lists run).2]
  exact mem_flatMap

structure Accounted (s : Releases) : Prop where
  length : s.destroyed.length = s.released.length
  frees : ∀ f ∈ s.frees, (∃ list ∈ s.destroyed, ∃ h ∈ list, h.destroyFree = some f) ∨
    ∃ list ∈ s.released, ∃ h ∈ list, h.deferredFree = some f

theorem Accounted.exec (s : Releases) (a : ReleaseAction) (t : Releases) (h : Accounted s)
    (_ : True) (taken : s.exec a = some t) : Accounted t := by
  obtain ⟨released, destroyed⟩ := exec_lists taken
  have length : t.destroyed.length = t.released.length := by
    rw [released, destroyed, length_append, length_append, h.length]
    cases a <;> rfl
  refine ⟨length, fun f mem => ?_⟩
  have old : f ∈ s.frees → (∃ list ∈ t.destroyed, ∃ h ∈ list, h.destroyFree = some f) ∨
      ∃ list ∈ t.released, ∃ h ∈ list, h.deferredFree = some f := by
    rw [released, destroyed]
    refine fun mem => (h.frees f mem).imp ?_ ?_ <;>
      exact fun ⟨list, listed, source⟩ => ⟨list, mem_append_left _ listed, source⟩
  cases a with
  | clearRange p pagenum pages snapshot =>
    cases taken
    rcases mem_append.mp mem with mem | mem
    · exact old mem
    · obtain ⟨r, mem, freed⟩ := mem_filterMap.mp mem
      exact .inl ⟨_, mem_append_right _ (mem_singleton_self _), r, mem, freed⟩
  | drop list =>
    dsimp only [Releases.exec] at taken
    split_ifs at taken with held others
    · cases taken
      exact old mem
    · cases taken
      rcases mem_append.mp mem with mem | mem
      · exact old mem
      · obtain ⟨r, mem, freed⟩ := mem_filterMap.mp mem
        obtain ⟨hs, listed, mem⟩ := mem_of_mem_getD mem
        exact .inr ⟨hs, listed, r, mem, freed⟩

theorem accounted_of_run (run : Machine.Run exec start as s) : Accounted s :=
  run.invariant Accounted.exec ⟨rfl, by simp [start]⟩

/-! ## Runs that spare private pages -/

theorem freesOwn_of_spares (run : Machine.Run exec start as s)
    (spares : ∀ a ∈ as, a.SparesPrivate) : s.FreesOwn := by
  have released : ∀ list ∈ s.released, ∀ h ∈ list, h.Private → h.physPage = 0 := by
    intro list mem
    obtain ⟨a, listed, mem⟩ := (mem_released run).mp mem
    exact (spares a listed).released list mem
  have destroyed : ∀ list ∈ s.destroyed, ∀ h ∈ list, ¬h.Private := by
    intro list mem
    obtain ⟨a, listed, mem⟩ := (mem_destroyed run).mp mem
    exact (spares a listed).destroyed list mem
  have none : s.frees = [] := by
    refine eq_nil_iff_forall_not_mem.mpr fun f mem => ?_
    rcases (accounted_of_run run).frees f mem with ⟨list, listed, h, mem, freed⟩ |
      ⟨list, listed, h, mem, freed⟩
    · rw [PhysMapping.destroyFree, if_neg (destroyed list listed h mem)] at freed
      cases freed
    · rw [deferredFree_eq_none (released list listed h mem)] at freed
      cases freed
  rw [FreesOwn, none, nil_perm, flatMap_eq_nil_iff]
  intro list _
  refine filterMap_eq_nil_iff.mpr fun h mem => if_neg fun own => ?_
  rcases mem_append.mp mem with mem | mem
  · obtain ⟨hs, listed, mem⟩ := mem_of_mem_getD mem
    exact own.2 (released hs listed h mem own.1)
  · obtain ⟨hs, listed, mem⟩ := mem_of_mem_getD mem
    exact destroyed hs listed h mem own.1

/-! ## Private pages that are removed -/

theorem dropped_clearRange {p : Process} {pagenum pages : UInt32} {snapshot : Bool}
    (taken : s.exec (.clearRange p pagenum pages snapshot) = some t) : t.dropped = s.dropped := by
  cases taken
  unfold dropped
  rw [length_append, length_singleton]
  refine filter_range_held ?_ ?_ <;> cases snapshot <;> simp

/-- A mapping that is erased frees its private pages while its release list is held. -/
theorem not_private_of_freesOwn {p : Process} {pagenum pages : UInt32} {snapshot : Bool}
    (length : s.destroyed.length = s.released.length) (own : s.FreesOwn)
    (taken : s.exec (.clearRange p pagenum pages snapshot) = some t) (own' : t.FreesOwn) :
    ∀ h ∈ p.discarded (.clearRange pagenum pages), ¬h.Private := by
  have same := dropped_clearRange taken
  cases taken
  rw [FreesOwn, same] at own'
  have expected : ∀ list ∈ s.dropped,
      ((s.released ++ [p.released (.clearRange pagenum pages)]).getD list [] ++
        (s.destroyed ++ [p.discarded (.clearRange pagenum pages)]).getD list []).filterMap
          (·.ownFree) =
      (s.released.getD list [] ++ s.destroyed.getD list []).filterMap (·.ownFree) := by
    intro list mem
    have bound := mem_range.mp (mem_filter.mp mem).1
    simp only [getD_eq_getElem?_getD, getElem?_append_left bound,
      getElem?_append_left (length ▸ bound)]
  have count := ((own'.trans (.of_eq (flatMap_congr expected))).trans own.symm).length_eq
  rw [length_append] at count
  intro h mem isPrivate
  have none := eq_nil_of_length_eq_zero (Nat.add_eq_left.mp count)
  have freed := filterMap_eq_nil_iff.mp none h mem
  rw [PhysMapping.destroyFree, if_pos isPrivate] at freed
  cases freed

theorem exists_drops (s : Releases) :
    ∃ t, Machine.Run exec s (s.holders.map .drop) t ∧ t.holders = [] := by
  induction holders : s.holders generalizing s with
  | nil => exact ⟨s, .nil s, holders⟩
  | cons list rest ih =>
    have taken : ∃ t, s.exec (.drop list) = some t ∧ t.holders = rest := by
      simp [exec, holders]
    obtain ⟨t, taken, left⟩ := taken
    obtain ⟨u, run, none⟩ := ih t left
    exact ⟨u, .cons trivial taken run, none⟩

/-- A private page on a release list is freed under the number of another page. -/
theorem physPage_eq_zero (run : Machine.Run exec start as s) (own : s.FreesOwn)
    (none : s.holders = []) (destroyed : ∀ list ∈ s.destroyed, ∀ h ∈ list, ¬h.Private)
    {list : List PhysMapping} (listed : list ∈ s.released) {h : PhysMapping} (mem : h ∈ list)
    (isPrivate : h.Private) : h.physPage = 0 := by
  by_contra nonzero
  refine nonzero (eq_zero_of_deferred (P := fun n => n ≠ 0 ∧
    ∃ list ∈ s.released, ∃ h ∈ list, h.Private ∧ h.physPage = n)
    ⟨nonzero, list, listed, h, mem, isPrivate, rfl⟩ ?_)
  rintro n ⟨nonzero, list, listed, h, mem, isPrivate, rfl⟩
  obtain ⟨i, at_i⟩ := getElem?_of_mem listed
  have freed : (h.physPage * 4096, 4096) ∈ s.frees := by
    refine own.symm.subset (mem_flatMap.mpr ⟨i, mem_filter.mpr ⟨?_, by simp [none]⟩, ?_⟩)
    · exact mem_range.mpr (List.getElem?_eq_some_iff.mp at_i).1
    · refine mem_filterMap.mpr ⟨h, mem_append_left _ ?_, if_pos ⟨isPrivate, nonzero⟩⟩
      rwa [getD_eq_getElem?_getD, at_i]
  rcases (accounted_of_run run).frees _ freed with ⟨list', listed', h', mem', source⟩ |
    ⟨list', listed', h', mem', source⟩
  · rw [PhysMapping.destroyFree, if_neg (destroyed list' listed' h' mem')] at source
    cases source
  · obtain ⟨⟨isPrivate', number⟩, source⟩ := Option.ite_none_right_eq_some.mp source
    have same : h'.deferredNumber = h.physPage := by
      have := (Prod.mk.inj (Option.some.inj source)).1
      omega
    refine ⟨h'.physPage, ⟨fun zero => number ?_, list', listed', h', mem', isPrivate', rfl⟩, same⟩
    simp [PhysMapping.deferredNumber, zero, wrap32]

/-- What is freed is right exactly where no private page is ever removed. -/
theorem freesOwn_iff (run : Machine.Run exec start as s) :
    FreesOwnAlong as ↔ ∀ a ∈ as, a.SparesPrivate := by
  constructor
  · intro along
    have destroyed : ∀ a ∈ as, ∀ list ∈ a.destroyed, ∀ h ∈ list, ¬h.Private := by
      intro a mem list listed
      obtain ⟨before, later, rfl⟩ := append_of_mem mem
      obtain ⟨t, first, rest⟩ := run.exists_of_append
      obtain ⟨-, u, taken, -⟩ := Machine.RunWhen.cons_iff.mp rest
      have own : t.FreesOwn := along [] before.length t (by simpa using first)
      have own' : u.FreesOwn := by
        refine along [] (before ++ [a]).length u ?_
        rw [map_nil, append_nil, append_cons before a later, take_left]
        exact first.append (.cons trivial taken (.nil u))
      cases a with
      | clearRange p pagenum pages snapshot =>
        obtain rfl := mem_singleton.mp listed
        exact not_private_of_freesOwn (accounted_of_run first).length own taken own'
      | drop => cases listed
    -- the lists that are left are dropped, so that every list counts
    obtain ⟨t, drops, none⟩ := exists_drops s
    have whole := run.append drops
    have own : t.FreesOwn := along s.holders _ t (by rwa [take_length])
    have destroyed' : ∀ list ∈ t.destroyed, ∀ h ∈ list, ¬h.Private := by
      intro list mem
      obtain ⟨a, listed, mem⟩ := (mem_destroyed whole).mp mem
      rcases mem_append.mp listed with listed | listed
      · exact destroyed a listed list mem
      · obtain ⟨_, -, rfl⟩ := mem_map.mp listed
        cases mem
    refine fun a mem => ⟨fun list listed h here => ?_, destroyed a mem⟩
    exact physPage_eq_zero whole own none destroyed'
      ((mem_released whole).mpr ⟨a, mem_append_left _ mem, listed⟩) here
  · intro spares lists k s run
    refine freesOwn_of_spares run fun a mem => ?_
    rcases mem_append.mp (mem_of_mem_take mem) with listed | listed
    · exact spares a listed
    · obtain ⟨_, -, rfl⟩ := mem_map.mp listed
      exact ⟨by simp [ReleaseAction.released], by simp [ReleaseAction.destroyed]⟩

end Releases

end

namespace Releases

open FourGigabytes

/-- A process with a page of the file cache and a private page in one mapping. -/
def filePageFirst : Process :=
  ⟨[⟨some 1, 16, 2, 0, 0, true, true, false,
    [⟨some 7, none, 7, 16⟩, ⟨none, none, 0x12345, 17⟩]⟩], Process.empty.tables, 0⟩

/-- The call for the page of the file cache is right, the one for the private page is not. -/
theorem freesOwn_filePage :
    FreesOwnAlong [.clearRange filePageFirst 16 1 true, .drop 0, .drop 0] ∧
      ¬FreesOwnAlong [.clearRange filePageFirst 17 1 true, .drop 0, .drop 0] := by
  constructor
  · refine (freesOwn_iff (s := ⟨[[⟨some 7, none, 7, 16⟩]], [[]], [], []⟩) (.of_foldlM rfl)).mpr ?_
    simp only [forall_mem_cons]
    exact ⟨⟨by decide +kernel, by decide +kernel⟩, ⟨by decide, by decide⟩, ⟨by decide, by decide⟩,
      by simp⟩
  · rw [freesOwn_iff (s := ⟨[[⟨none, none, 0x12345, 17⟩]], [[]], [], [(0x12345000000, 4096)]⟩)
      (.of_foldlM rfl)]
    intro spares
    exact absurd ((spares _ mem_cons_self).released _ (mem_singleton_self _)
      ⟨none, none, 0x12345, 17⟩ (by decide +kernel) (by decide)) (by decide)

/-- The page at the address 0x12345000 is not freed; another one is. -/
theorem not_freesOwn_privatePage : ∃ s, Machine.Run exec start
    [.clearRange filePageFirst 17 1 false, .drop 0] s ∧ s.frees = [(0x12345000000, 4096)] ∧
      ¬s.FreesOwn := by
  refine ⟨⟨[[⟨none, none, 0x12345, 17⟩]], [[]], [], [(0x12345000000, 4096)]⟩,
    .of_foldlM rfl, rfl, fun own => ?_⟩
  exact absurd (perm_singleton.mp own.symm) (by decide)

end Releases

end JeoKernel.AddressSpace
