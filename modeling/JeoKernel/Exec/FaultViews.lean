import JeoKernel.Exec.PageViews

/-!
# What faults and forks do to a page

A fault changes the records and the entry of one page.  A fork takes the right to write from every
page with a record, and makes the first private record of a page that could be written a shared one.
-/

namespace JeoKernel.AddressSpace

open List Option Loop Ledger Process PageTables

/-- What holds of every record: a page of the file cache is named twice, a shared page is not named
as a private one. -/
structure PhysMapping.Proper (h : PhysMapping) : Prop where
  file : ∀ n, h.data = some n → h.cow = none ∧ h.physPage = n ∧ n ≠ 0
  shared : ∀ n, h.cow = some n → h.physPage = 0 ∧ n ≠ 0
  nonzero : h.Private → h.physPage ≠ 0

variable {m : MemMapping} {ms : List MemMapping} {i page alloc : ℕ}
  {e : PageEntry} {h : PhysMapping} {hs : List PhysMapping}

/-! ## Records and views -/

theorem findMapping_spec (found : findMapping ms page = some (m, i)) (sep : Separate ms) :
    ms[i]? = some m ∧ m.Contains page := by
  have at_i := mk_mem_zipIdx_iff_getElem?.mp (mem_of_find?_eq_some found)
  have range := find?_some found
  have fits := sep.fits m (mem_of_getElem? at_i)
  rw [ending_eq fits.below] at range
  exact ⟨at_i, by simpa [MemMapping.Contains] using range⟩

theorem set_self (at_i : ms[i]? = some m) : ms.set i m = ms := by
  obtain ⟨l, l', split, set⟩ := set_split at_i
  rw [set, split]

variable {data : Option ℕ}

theorem filter_snoc (page : ℕ) {record : PhysMapping} (here : record.page = page) :
    (hs ++ [record]).filter (·.page = page) = hs.filter (·.page = page) ++ [record] := by
  simp [here]

theorem viewOk_loaded {n : ℕ} (named : ∀ k, data = some k → k = n)
    (guarded : data.isSome → ¬e.writeable ∧ ∀ h ∈ hs.head?, ¬h.Private) :
    ViewOk (loadedEntry e data n cow) (hs ++ [⟨data, none, n, page⟩]) := by
  have last : (⟨data, none, n, page⟩ : PhysMapping) ∈ hs ++ [⟨data, none, n, page⟩] := by simp
  cases data with
  | none =>
    have copy : ∃ h ∈ hs ++ [⟨none, none, n, page⟩], h.Private ∧ h.physPage = n :=
      ⟨_, last, ⟨rfl, rfl⟩, rfl⟩
    exact ⟨fun _ _ => copy, fun _ _ _ _ => copy, fun _ => ⟨_, last, .inr (.inr ⟨⟨rfl, rfl⟩, rfl⟩)⟩,
      fun _ absent => absurd rfl absent⟩
  | some k =>
    obtain rfl := named k rfl
    have readOnly : ¬(loadedEntry e (some k) k cow).writeable := by
      simpa [loadedEntry] using (guarded rfl).1
    refine ⟨fun _ writeable => absurd writeable readOnly, fun _ h head isPrivate => ?_,
      fun _ => ⟨_, last, .inl rfl⟩, fun _ absent => absurd rfl absent⟩
    cases hs with
    | nil =>
      cases head
      cases isPrivate.1
    | cons h' hs => exact absurd isPrivate ((guarded rfl).2 h head)

theorem physMapping_head : m.physMapping page = (m.mappings.filter (·.page = page)).head? := by
  rw [head?_filter]
  rfl

theorem viewOk_entered (view : ViewOk e hs) (absent : ¬e.present) (first : hs.head? = some h)
    (proper : h.Proper) (known : h.physPage ≠ 0) :
    ViewOk (loadedEntry e h.data h.physPage cow) hs := by
  have unshared : h.cow = none := by
    cases held : h.cow with
    | none => rfl
    | some n => exact absurd (proper.shared n held).1 known
  have mem : h ∈ hs := mem_of_mem_head? first
  have holds : h.Holds h.physPage := by
    cases data : h.data with
    | none => exact .inr (.inr ⟨⟨data, unshared⟩, rfl⟩)
    | some n => exact .inl (by rw [data, (proper.file n data).2.1])
  refine ⟨fun _ writeable => ⟨h, mem, ⟨?_, unshared⟩, rfl⟩, fun _ h' head isPrivate => ?_,
    fun _ => ⟨h, mem, holds⟩, fun _ absent => absurd rfl absent⟩
  · by_cases before : e.writeable
    · exact view.clean before absent h first
    · simp only [loadedEntry, Bool.or_eq_true, Bool.and_eq_true, isNone_iff_eq_none] at writeable
      exact (writeable.resolve_left before).1.2
  · obtain rfl := some.inj (first.symm.trans head)
    exact ⟨h, mem, isPrivate, rfl⟩

/-! ## Copies -/

inductive CopyStep (cow : Bool) (page alloc : ℕ) (hs : List PhysMapping) : Copied → Prop
  | file {l l' : List PhysMapping} {h : PhysMapping} {n : ℕ} :
      hs = l ++ h :: l' → h.page = page → h.data = some n → alloc ≠ 0 →
      CopyStep cow page alloc hs ⟨l ++ { h with data := none, physPage := alloc } :: l',
        fun _ => ⟨true, true, true, true, alloc⟩, none⟩
  | shared {l l' : List PhysMapping} {h : PhysMapping} {n : ℕ} :
      hs = l ++ h :: l' → h.page = page → h.data = none → h.cow = some n → alloc ≠ 0 →
      CopyStep cow page alloc hs ⟨l ++ { h with cow := none, physPage := alloc } :: l',
        fun e => { e with pagePpn := alloc, writeable := true }, some n⟩

variable {cow : Bool} {c : Copied}

theorem copyRecord_step (copied : copyRecord cow page alloc hs = some c) :
    CopyStep cow page alloc hs c := by
  fun_induction copyRecord cow page alloc hs generalizing c with
  | case1 | case3 | case5 => cases copied
  | case2 h hs file allowed =>
    obtain ⟨n, data⟩ := isSome_iff_exists.mp file.2
    cases copied
    exact .file (l := []) rfl file.1 data allowed.2
  | case4 h hs file shared allowed =>
    obtain ⟨n, held⟩ := isSome_iff_exists.mp shared.2
    cases copied
    have data : h.data = none := by
      simpa [shared.1] using file
    rw [held]
    exact .shared (l := []) rfl shared.1 data held allowed
  | case6 h hs file shared ih =>
    obtain ⟨c', later, rfl⟩ := map_eq_some_iff.mp copied
    cases ih later with
    | @file l l' h' n split here data allowed =>
      exact .file (l := h :: l) (congrArg _ split) here data allowed
    | @shared l l' h' n split here data held allowed =>
      exact .shared (l := h :: l) (congrArg _ split) here data held allowed

theorem CopyStep.others (step : CopyStep cow page alloc hs c) :
    c.records.filter (·.page ≠ page) = hs.filter (·.page ≠ page) := by
  cases step with
  | file split here | shared split here => subst split; simp [here]

/-- A page that has been copied is private, and the entry names the copy. -/
theorem CopyStep.viewOk (step : CopyStep cow page alloc hs c) (proper : ∀ h ∈ hs, h.Proper)
    (present : e.present) :
    ViewOk (c.entry e) (c.records.filter (·.page = page)) := by
  have copy : ∃ h ∈ c.records.filter (·.page = page), h.Private ∧ h.physPage = alloc := by
    cases step with
    | @file l l' h n split here data =>
      have whole := (proper h (by simp [split])).file n data
      exact ⟨_, mem_filter.mpr ⟨mem_append_right _ mem_cons_self, by simpa using here⟩,
        ⟨rfl, whole.1⟩, rfl⟩
    | @shared l l' h n split here data =>
      exact ⟨_, mem_filter.mpr ⟨mem_append_right _ mem_cons_self, by simpa using here⟩,
        ⟨data, rfl⟩, rfl⟩
  have named : (c.entry e).present ∧ (c.entry e).pagePpn = alloc := by
    cases step with
    | file => exact ⟨rfl, rfl⟩
    | shared => exact ⟨present, rfl⟩
  rw [← named.2] at copy
  refine ⟨fun _ _ => copy, fun _ _ _ _ => copy, fun _ => ?_, fun _ absent => absurd named.1 absent⟩
  obtain ⟨h, mem, isPrivate, same⟩ := copy
  exact ⟨h, mem, .inr (.inr ⟨isPrivate, same⟩)⟩

/-! ## Steps at one page -/

section

variable [TableMemory] {p p' : Process} {t : PageTables}

/-- The process differs in the records and the entry of one page. -/
structure PageStep (p p' : Process) (m : MemMapping) (i page : ℕ) (hs : List PhysMapping)
    (e : PageEntry) : Prop where
  at_i : p.mappings[i]? = some m
  contains : m.Contains page
  mappings : p'.mappings = p.mappings.set i { m with mappings := hs }
  entry : ∀ r, p'.tables.get r = if r = page then e else p.tables.get r
  others : hs.filter (·.page ≠ page) = m.mappings.filter (·.page ≠ page)

section

variable (step : PageStep p p' m i page hs e)

include step

theorem PageStep.separate (sep : Separate p.mappings) : Separate p'.mappings := by
  have fits := sep.fits m (mem_of_getElem? step.at_i)
  rw [step.mappings]
  refine sep.set step.at_i ⟨fits.below, fun r mem => ?_⟩ fun m' _ apart => apart
  by_cases same : r.page = page
  · exact same ▸ step.contains
  · have other : r ∈ m.mappings.filter (·.page ≠ page) :=
      step.others ▸ mem_filter.mpr ⟨mem, by simpa using same⟩
    exact fits.inside r (mem_filter.mp other).1

theorem PageStep.viewed (sep : Separate p.mappings) (viewed : p.Viewed)
    (view : ViewOk e (hs.filter (·.page = page))) : p'.Viewed := by
  have sep' := step.separate sep
  have listed := mem_of_getElem? step.at_i
  intro y mem r inside
  rw [step.entry r]
  have mem' := mem
  rw [step.mappings] at mem'
  rcases mem_set_cases sep step.at_i mem' with rfl | ⟨old, apart⟩
  · rw [recordsOf_eq sep' mem inside]
    by_cases same : r = page
    · subst same
      rw [if_pos rfl]
      exact view
    · have kept : hs.filter (·.page = r) = m.mappings.filter (·.page = r) := by
        have others := congrArg (filter (·.page = r)) step.others
        have absorb : ∀ l : List PhysMapping,
            (l.filter (·.page ≠ page)).filter (·.page = r) = l.filter (·.page = r) := fun l => by
          rw [List.filter_filter]
          refine List.filter_congr fun x _ => ?_
          by_cases here : x.page = r
          · simp [here, same]
          · simp [here]
        rwa [absorb, absorb] at others
      rw [if_neg same]
      rw [kept, ← recordsOf_eq sep listed inside]
      exact viewed m listed r inside
  · have other : r ≠ page := fun same => apart page step.contains (same ▸ inside)
    rw [if_neg other, recordsOf_eq sep' mem inside, ← recordsOf_eq sep old inside]
    exact viewed y old r inside

/-- The records of the process, with those of the other mappings in `rest`. -/
theorem PageStep.records :
    ∃ rest, (AddressSpace.records p.mappings).Perm (m.mappings ++ rest) ∧
      (AddressSpace.records p'.mappings).Perm (hs ++ rest) := by
  obtain ⟨rest, before, after, -⟩ := flatMap_set_perm step.at_i (·.mappings)
  exact ⟨rest, before, step.mappings ▸ after _⟩

end

theorem PageStep.added {r : PhysMapping} (step : PageStep p p' m i page (m.mappings ++ [r]) e) :
    (AddressSpace.records p'.mappings).Perm (r :: AddressSpace.records p.mappings) := by
  obtain ⟨rest, before, after⟩ := step.records
  calc AddressSpace.records p'.mappings
      _ |>.Perm (m.mappings ++ [r] ++ rest) := after
      _ |>.Perm (r :: (m.mappings ++ rest)) := by
        rw [append_assoc]
        exact perm_middle
      _ |>.Perm (r :: AddressSpace.records p.mappings) := before.symm.cons r

/-! ## Finding the page -/

theorem walk_pageentry {addr : ℕ} (found : t.walk addr page = some e) : t.pageentry page = some e := by
  unfold walk at found
  split_ifs at found
  exact found

theorem get_of_pageentry (found : t.pageentry page = some e) : t.get page = e := by
  simp [PageTables.get, found]

theorem setEntry_get {e' : PageEntry} (found : t.pageentry page = some e) (r : ℕ) :
    (t.setEntry page e').get r = if r = page then e' else t.get r := by
  by_cases same : r = page
  · subst same
    unfold pageentry at found
    split_ifs at found with exists_
    have known : (t.setEntry r e').pageentry r = some ((t.setEntry r e').entry r) := if_pos exists_
    rw [if_pos rfl, PageTables.get, known]
    exact Function.update_self ..
  · rw [if_neg same]
    exact get_congr rfl (Function.update_of_ne same ..)

theorem install_step {physPage : ℕ} {preExisting : Bool} (at_i : p.mappings[i]? = some m)
    (contains : m.Contains page) (found : p.tables.pageentry page = some e) :
    PageStep p (p.install m i page e data physPage preExisting) m i page
      (if preExisting then m.mappings else m.mappings ++ [⟨data, none, physPage, page⟩])
      (loadedEntry e data physPage m.cow) := by
  refine ⟨at_i, contains, ?_, setEntry_get found, ?_⟩
  · cases preExisting with
    | true => exact (set_self at_i).symm
    | false => rfl
  · cases preExisting with
    | true => rfl
    | false => simp

/-! ## Faults -/

/-- What `sync_resolve_page` and `resolve_write_page` can do: nothing, enter a page again that has a
record, allocate a page, or copy one.  The answer tells whether the page `alloc` was kept, and which
shared page was let go. -/
inductive FaultStep (p : Process) (alloc : ℕ) : Process → Bool → Option ℕ → Prop
  | idle {took : Bool} : FaultStep p alloc p took none
  | entered {p' : Process} {m : MemMapping} {i page : ℕ} {e : PageEntry} {h : PhysMapping} :
      PageStep p p' m i page m.mappings (loadedEntry e h.data h.physPage m.cow) →
      p.tables.get page = e → ¬e.present → m.physMapping page = some h → h.physPage ≠ 0 →
      FaultStep p alloc p' false none
  | filled {p' : Process} {m : MemMapping} {i page : ℕ} {e : PageEntry} :
      PageStep p p' m i page (m.mappings ++ [⟨none, none, alloc, page⟩])
        (loadedEntry e none alloc m.cow) →
      alloc ≠ 0 → FaultStep p alloc p' true none
  | copied {p' : Process} {m : MemMapping} {i page : ℕ} {e : PageEntry} {c : Copied} :
      PageStep p p' m i page c.records (c.entry e) → e.present →
      CopyStep m.cow page alloc m.mappings c → FaultStep p alloc p' true c.dropped

variable {dropped : Option ℕ}

section

variable (at_i : p.mappings[i]? = some m) (contains : m.Contains page)
  (found : p.tables.pageentry page = some e)
include at_i contains found

theorem copyPage_step (present : e.present)
    (copied : p.copyPage m i page e alloc = some (p', dropped)) :
    FaultStep p alloc p' true dropped := by
  obtain ⟨c, found', same⟩ := map_eq_some_iff.mp copied
  obtain ⟨rfl, rfl⟩ := Prod.mk.inj same
  have step := copyRecord_step found'
  exact .copied ⟨at_i, contains, rfl, setEntry_get found, step.others⟩ present step

theorem syncLoad_step (absent : ¬e.present) :
    let r := p.syncLoad m i page e alloc
    FaultStep p alloc r.process r.took r.dropped := by
  unfold syncLoad
  dsimp only
  split_ifs with missing refused lost refused
  · exact .idle
  · exact .idle
  · rw [not_or] at refused
    exact .filled (install_step at_i contains found) refused.2
  · exact .idle
  · cases first : m.physMapping page with
    | none => simp [first] at missing
    | some h =>
      have known : h.physPage ≠ 0 := by simpa [first] using missing
      exact .entered (install_step at_i contains found) (get_of_pageentry found) absent first known

end

theorem syncResolvePage_step (sep : Separate p.mappings) (addr alloc : ℕ) :
    let r := p.syncResolvePage addr alloc
    FaultStep p alloc r.process r.took r.dropped := by
  fun_cases Process.syncResolvePage p addr alloc with
  | case4 page _ m i e walk found _ present p' dropped copied =>
    obtain ⟨at_i, contains⟩ := findMapping_spec found sep
    exact copyPage_step at_i contains (walk_pageentry walk) present copied
  | case5 page _ m i e walk found _ absent =>
    obtain ⟨at_i, contains⟩ := findMapping_spec found sep
    exact syncLoad_step at_i contains (walk_pageentry walk) absent
  | _ => exact .idle

theorem resolveWritePage_step (sep : Separate p.mappings) (addr alloc : ℕ) :
    let r := p.resolveWritePage addr alloc
    FaultStep p alloc r.process r.took r.dropped := by
  fun_cases Process.resolveWritePage p addr alloc with
  | case5 page _ m i e walk found refused _ p' dropped copied =>
    have present : e.present := by simpa using (not_or.mp refused).2
    obtain ⟨at_i, contains⟩ := findMapping_spec found sep
    exact copyPage_step at_i contains (walk_pageentry walk) present copied
  | _ => exact .idle

theorem FaultStep.separate {took : Bool} (step : FaultStep p alloc p' took dropped)
    (sep : Separate p.mappings) : Separate p'.mappings := by
  cases step with
  | idle => exact sep
  | entered step | filled step | copied step => exact step.separate sep

theorem FaultStep.viewed {took : Bool} (step : FaultStep p alloc p' took dropped)
    (sep : Separate p.mappings) (viewed : p.Viewed)
    (proper : ∀ h ∈ AddressSpace.records p.mappings, h.Proper) : p'.Viewed := by
  have listed : ∀ {m : MemMapping} {i : ℕ}, p.mappings[i]? = some m →
      ∀ h ∈ m.mappings, h.Proper := fun at_i h mem =>
    proper h (mem_flatMap.mpr ⟨_, mem_of_getElem? at_i, mem⟩)
  cases step with
  | idle => exact viewed
  | @entered _ m i page e h step entry absent first known =>
    have mem := mem_of_getElem? step.at_i
    have view := viewed m mem page step.contains
    rw [recordsOf_eq sep mem step.contains, entry] at view
    rw [physMapping_head] at first
    have here := (mem_filter.mp (mem_of_mem_head? first)).1
    exact step.viewed sep viewed (viewOk_entered view absent first (listed step.at_i h here) known)
  | @filled _ m i page e step known =>
    refine step.viewed sep viewed ?_
    rw [filter_snoc page rfl]
    exact viewOk_loaded (by simp) (by simp)
  | copied step present copy =>
    exact step.viewed sep viewed (copy.viewOk (listed step.at_i) present)

/-! ## The end of a load -/

/-- What the second part of `resolve_page` can do: nothing, or enter the page with a new record. -/
inductive LoadStep (p : Process) (r : LoadRequest) (loaded : Loaded) : LoadEnd × Process → Prop
  | released : LoadStep p r loaded (.released, p)
  | lost : LoadStep p r loaded (.lost, p)
  | installed {p' : Process} {m : MemMapping} {i : ℕ} :
      PageStep p p' m i r.page (m.mappings ++ [⟨loaded.data, none, loaded.physPage, r.page⟩])
        (loadedEntry (p.tables.get r.page) loaded.data loaded.physPage m.cow) →
      m.image.isSome → LoadStep p r loaded (.installed, p')

theorem finishLoad_step (sep : Separate p.mappings) (r : LoadRequest) (loaded : Loaded)
    (same : Bool) : LoadStep p r loaded (p.finishLoad r loaded same) := by
  fun_cases Process.finishLoad p r loaded same with
  | case2 => exact .lost
  | case3 m i e walk found changed =>
    obtain ⟨at_i, contains⟩ := findMapping_spec found sep
    have entry := walk_pageentry walk
    have image : m.image = some r.image := by
      simp only [not_or, not_not] at changed
      exact changed.2.1
    obtain rfl := get_of_pageentry entry
    exact .installed (install_step at_i contains entry) (by simp [image])
  | _ => exact .released

/-- A page of the file cache is entered read-only, and behind no private page. -/
def LoadKeeps (p : Process) (r : LoadRequest) (loaded : Loaded) : Prop :=
  loaded.data.isSome → ¬(p.tables.get r.page).writeable ∧
    ∀ h ∈ (recordsOf p.mappings r.page).head?, ¬h.Private

variable {r : LoadRequest} {ending : LoadEnd × Process}

theorem LoadStep.separate {loaded : Loaded} (step : LoadStep p r loaded ending)
    (sep : Separate p.mappings) : Separate ending.2.mappings := by
  cases step with
  | released | lost => exact sep
  | installed step => exact step.separate sep

theorem LoadStep.viewed {loaded : Loaded} (step : LoadStep p r loaded ending)
    (sep : Separate p.mappings) (viewed : p.Viewed) (keeps : LoadKeeps p r loaded) :
    ending.2.Viewed := by
  cases step with
  | released | lost => exact viewed
  | @installed _ m i step =>
    refine step.viewed sep viewed ?_
    rw [filter_snoc r.page rfl, ← recordsOf_eq sep (mem_of_getElem? step.at_i) step.contains]
    refine viewOk_loaded (fun k named => ?_) keeps
    cases loaded with
    | file n => exact (some.inj named).symm
    | copy n => cases named

/-! ## Pages that have a record -/

def PhysMapping.Names (h : PhysMapping) (n : ℕ) : Prop :=
  h.physPage = n ∨ h.data = some n ∨ h.cow = some n

/-- A page with the record `h` gets no second record, and no other page is entered for it. -/
structure Respects (p p' : Process) (page : ℕ) (h : PhysMapping) : Prop where
  records : recordsOf p'.mappings page = recordsOf p.mappings page
  entry : (p'.tables.get page).present → h.Names (p'.tables.get page).pagePpn

/-- `sync_resolve_page` enters the page of the record, where the mapping may be read. -/
structure Restored (p : Process) (f : Fault Bool) (m : MemMapping) (page : ℕ) (h : PhysMapping) :
    Prop where
  respects : Respects p f.process page h
  done : m.read → f.result ∧ (f.process.tables.get page).present

theorem Respects.refl (found : p.tables.pageentry page = some e) (absent : ¬e.present) :
    Respects p p page h :=
  ⟨rfl, fun present => by rw [get_of_pageentry found] at present; exact absurd present absent⟩

theorem not_respects_install {physPage : ℕ} (at_i : p.mappings[i]? = some m) :
    ¬Respects p (p.install m i page e data physPage false) page h := by
  intro respects
  obtain ⟨rest, before, after, -⟩ := flatMap_set_perm at_i (·.mappings)
  have grown := (after { m with mappings := m.mappings ++ [⟨data, none, physPage, page⟩] }).filter
    (·.page = page) |>.length_eq
  have same := congrArg List.length respects.records
  have old := (before.filter (·.page = page)).length_eq
  simp only [install, recordsOf, AddressSpace.records, filter_append,
    length_append] at grown same old
  simp at grown same
  omega

theorem restored_install (found : p.tables.pageentry page = some e) :
    Restored p ⟨true, p.install m i page e h.data h.physPage true, false, none⟩ m page h := by
  have entry : (p.install m i page e h.data h.physPage true).tables.get page =
      loadedEntry e h.data h.physPage m.cow := (setEntry_get found page).trans (if_pos rfl)
  refine ⟨⟨rfl, fun _ => ?_⟩, fun _ => ⟨rfl, by rw [entry]; rfl⟩⟩
  rw [entry]
  exact .inl rfl

theorem loadRequest_page {addr : ℕ} (request : p.loadRequest addr = some r) :
    r.addr = addr ∧ faultPage addr = some r.page := by
  revert request
  fun_cases Process.loadRequest p addr with
  | case4 page at_page =>
    rintro ⟨⟩
    exact ⟨rfl, at_page⟩
  | _ => exact nofun

/-- `q` is the process at the first part of `resolve_page`, `p` the one at the second part. -/
theorem restored_iff {q : Process} {addr : ℕ} (at_page : faultPage addr = some page)
    (found : findMapping p.mappings page = some (m, i)) (has : m.physMapping page = some h)
    (walk : p.tables.walk addr page = some e) (absent : ¬e.present) :
    ((∀ alloc, Restored p (p.syncResolvePage addr alloc) m page h) ↔
      (m.read → h.physPage ≠ 0 ∧ (h.data.isSome → m.image.isSome))) ∧
    ((∀ r, q.loadRequest addr = some r →
        ∀ loaded same, Respects p (p.finishLoad r loaded same).2 page h) ↔
      ∀ r, q.loadRequest addr = some r → m.image = some r.image →
        m.imagePage page ≠ r.imagePage) := by
  have at_i := mk_mem_zipIdx_iff_getElem?.mp (mem_of_find?_eq_some found)
  have entry := walk_pageentry walk
  have sync : ∀ alloc, p.syncResolvePage addr alloc =
      if m.read then p.syncLoad m i page e alloc else ⟨false, p, false, none⟩ := fun alloc => by
    cases read : m.read <;> simp [syncResolvePage, at_page, found, walk, absent, read]
  refine ⟨⟨fun restored read => ?_, fun kept alloc => ?_⟩, fun respects r request image same => ?_,
    fun changed r request loaded same => ?_⟩
  · have done := (restored 0).done read
    simp only [sync, read, if_true, syncLoad, has, map_some, getD_some, bind_some, or_true] at done
    split_ifs at done with zero file
    · simp at done
    · simp at done
    · refine ⟨zero, fun data => ?_⟩
      by_contra none
      exact file ⟨by simpa using none, data⟩
  · rw [sync]
    split_ifs with read
    · obtain ⟨nonzero, file⟩ := kept read
      have other : ¬(m.image.isNone ∧ h.data.isSome) := fun both =>
        isSome_iff_ne_none.mp (file both.2) (isNone_iff_eq_none.mp both.1)
      simp only [syncLoad, has, map_some, getD_some, bind_some, if_neg nonzero, if_neg other]
      exact restored_install entry
    · exact ⟨.refl entry absent, fun readable => absurd readable read⟩
  · obtain ⟨rfl, at_page'⟩ := loadRequest_page request
    obtain rfl := some.inj (at_page.symm.trans at_page')
    have respects := respects r request (.file 0) true
    simp only [finishLoad, found, walk, image, same, absent] at respects
    exact not_respects_install at_i (by simpa using respects)
  · obtain ⟨rfl, at_page'⟩ := loadRequest_page request
    obtain rfl := some.inj (at_page.symm.trans at_page')
    have other : !same ∨ m.image ≠ some r.image ∨ m.imagePage r.page ≠ r.imagePage := by
      by_cases image : m.image = some r.image
      · exact .inr (.inr (changed r request image))
      · exact .inr (.inl image)
    simp only [finishLoad, found, walk, if_pos other]
    exact .refl entry absent

end

open FourGigabytes

def writtenPage : Process :=
  ((Process.empty.map allGranted (2 ^ 31) 1 false).2.syncResolvePage (2 ^ 43) 5).process

def Process.hideAndShow (p : Process) : Process :=
  ((p.protect allGranted (2 ^ 31) 1 .none).2.protect allGranted (2 ^ 31) 1 .readWrite).2

theorem restored_writtenPage :
    ¬(writtenPage.hideAndShow.tables.get (2 ^ 31)).present ∧
    ∀ alloc, Restored writtenPage.hideAndShow
      (writtenPage.hideAndShow.syncResolvePage (2 ^ 43) alloc)
      ⟨none, 2 ^ 31, 1, 0, 0, true, false, false, [⟨none, none, 5, 2 ^ 31⟩]⟩ (2 ^ 31)
      ⟨none, none, 5, 2 ^ 31⟩ := by
  refine ⟨by decide +kernel, ?_⟩
  refine (restored_iff (q := writtenPage) (i := 0) (e := ⟨false, true, true, true, 5⟩)
    (by decide +kernel) (by decide +kernel) (by decide +kernel) (by decide +kernel)
    (by decide)).1.mpr fun _ => ⟨by decide, by decide⟩

/-- The fork made the page a shared one, and the fault enters another page for it. -/
theorem not_restored_forkedPage :
    let p := (writtenPage.clone allGranted allGranted).1.hideAndShow
    let h : PhysMapping := ⟨none, some 5, 0, 2 ^ 31⟩
    recordsOf p.mappings (2 ^ 31) = [h] ∧ ¬(p.tables.get (2 ^ 31)).present ∧
      ((p.syncResolvePage (2 ^ 43) 9).process.tables.get (2 ^ 31)).pagePpn = 9 ∧
      ¬Respects p (p.syncResolvePage (2 ^ 43) 9).process (2 ^ 31) h :=
  ⟨by decide +kernel, by decide +kernel, by decide +kernel,
    fun respects => absurd respects.records (by decide +kernel)⟩

end JeoKernel.AddressSpace
