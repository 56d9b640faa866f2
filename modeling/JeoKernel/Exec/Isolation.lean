import Mathlib.Data.Finset.SDiff
import JeoKernel.Exec.Memory

/-!
# Processes kept apart

The pages of all records form a ledger: private records own their pages, shared ones share theirs,
and the file cache keeps its own.  Every operation is described by what it does to the records, and
from that its effect on the ledger follows.
-/

namespace JeoKernel.AddressSpace

open List Option Loop Ledger Machine World

def Load.copy (l : Load) : Option ℕ :=
  match l.loaded with
  | some (.copy n) => some n
  | _ => none

def World.copies [TableMemory] (w : World) : List ℕ := w.loads.flatMap (·.copy.toList)

variable {i n : ℕ} {r : PhysMapping}
  {hs hs' rs rs' ds ds' gone gone' : List PhysMapping} {copies copies' lost ns : List ℕ}
  {claimed cached freed : Set ℕ}

/-! ## Pages of records -/

theorem privatePages_append : privatePages (hs ++ hs') = privatePages hs ++ privatePages hs' :=
  filterMap_append

theorem cowPages_append : cowPages (hs ++ hs') = cowPages hs ++ cowPages hs' :=
  filterMap_append

theorem ownPage_of_private (isPrivate : r.Private) : r.ownPage = some r.physPage := if_pos isPrivate

theorem ownPage_of_not_private (other : ¬r.Private) : r.ownPage = none := if_neg other

theorem mem_privatePages : n ∈ privatePages hs ↔ ∃ h ∈ hs, h.Private ∧ h.physPage = n := by
  simp [privatePages, PhysMapping.ownPage, mem_filterMap]

theorem mem_cowPages : n ∈ cowPages hs ↔ ∃ h ∈ hs, h.cow = some n := mem_filterMap

theorem privatePages_cons (isPrivate : r.Private) :
    privatePages (r :: hs) = r.physPage :: privatePages hs :=
  filterMap_cons_some (ownPage_of_private isPrivate)

theorem privatePages_cons_other (other : ¬r.Private) : privatePages (r :: hs) = privatePages hs :=
  filterMap_cons_none (ownPage_of_not_private other)

theorem cowPages_cons_none (unshared : r.cow = none) : cowPages (r :: hs) = cowPages hs :=
  filterMap_cons_none unshared

theorem cowPages_cons_some (shared : r.cow = some n) : cowPages (r :: hs) = n :: cowPages hs :=
  filterMap_cons_some shared

/-! ## The ledger -/

/-- The ledger of the records `rs`, the records `ds` on release lists, and the pages `copies` that
loads have made. -/
structure Kept (claimed cached : Set ℕ) (rs ds : List PhysMapping) (copies : List ℕ) : Prop where
  sound : Sound ⟨privatePages rs ++ copies, cowPages rs ++ cowPages ds, cached, claimed⟩
  proper : ∀ h ∈ rs ++ ds, h.Proper
  filed : ∀ h ∈ rs, ∀ n, h.data = some n → n ∈ cached
  empty : ∀ h ∈ ds, h.Private → h.deferredNumber = 0
  copies_nonzero : 0 ∉ copies
  cached_nonzero : 0 ∉ cached

section

variable (kept : Kept claimed cached rs ds copies)

include kept

theorem Kept.perm (same : rs.Perm rs') (same' : ds.Perm ds') (same'' : copies.Perm copies') :
    Kept claimed cached rs' ds' copies' where
  sound := kept.sound.perm ((same.filterMap _).append same'')
    ((same.filterMap _).append (same'.filterMap _))
  proper h mem := kept.proper h ((same.append same').mem_iff.mpr mem)
  filed h mem := kept.filed h (same.mem_iff.mpr mem)
  empty h mem := kept.empty h (same'.mem_iff.mpr mem)
  copies_nonzero mem := kept.copies_nonzero (same''.mem_iff.mpr mem)
  cached_nonzero := kept.cached_nonzero

theorem Kept.owned_nonzero : 0 ∉ privatePages rs ++ copies := by
  intro mem
  rcases mem_append.mp mem with own | copy
  · obtain ⟨h, mem', isPrivate, zero⟩ := mem_privatePages.mp own
    exact (kept.proper h (mem_append_left _ mem')).nonzero isPrivate zero
  · exact kept.copies_nonzero copy

theorem Kept.shared_nonzero : 0 ∉ cowPages rs ++ cowPages ds := by
  rw [← cowPages_append]
  intro mem
  obtain ⟨h, mem', shared⟩ := mem_cowPages.mp mem
  exact ((kept.proper h mem').shared 0 shared).2 rfl

end

/-- Records and copies go, and pages are freed with them: private ones, copies, and shared ones that
nobody shares any more. -/
theorem Kept.discard (gone gone' : List PhysMapping) (lost : List ℕ)
    (kept : Kept claimed cached (gone ++ rs) (gone' ++ ds) (lost ++ copies))
    (unheld : ∀ n ∈ freed, n = 0 ∨ n ∈ privatePages gone ∨ n ∈ lost ∨
      (n ∈ cowPages gone ++ cowPages gone' ∧ n ∉ cowPages rs ++ cowPages ds)) :
    Kept (claimed \ freed) cached rs ds copies := by
  have split : (privatePages (gone ++ rs) ++ (lost ++ copies)).Perm
      ((privatePages gone ++ lost) ++ (privatePages rs ++ copies)) := by
    rw [privatePages_append]
    refine perm_iff_count.mpr fun k => ?_
    simp only [count_append]
    omega
  have sub : cowPages rs ++ cowPages ds ⊆ cowPages (gone ++ rs) ++ cowPages (gone' ++ ds) := by
    intro k mem
    rw [cowPages_append, cowPages_append]
    simp only [mem_append] at mem ⊢
    exact mem.imp .inr .inr
  have whole := kept.sound.perm split (.refl _)
  have rest := whole.mono (sublist_append_right _ _).subperm sub
  obtain ⟨-, -, disjoint⟩ := nodup_append.mp whole.nodup
  have zero := kept.owned_nonzero
  rw [split.mem_iff] at zero
  refine ⟨rest.free fun k mem => ?_, fun h mem => kept.proper h ?_,
    fun h mem => kept.filed h (mem_append_right _ mem),
    fun h mem => kept.empty h (mem_append_right _ mem),
    fun mem => kept.copies_nonzero (mem_append_right _ mem), kept.cached_nonzero⟩
  · have own : k ∈ privatePages gone ++ lost →
        k ∉ privatePages rs ++ copies ∧ k ∉ cowPages rs ++ cowPages ds ∧ k ∉ cached := fun held =>
      ⟨fun mine => disjoint k held k mine rfl,
        fun mine => whole.apart k (mem_append_left _ held) (sub mine),
        whole.owned_uncached k (mem_append_left _ held)⟩
    rcases unheld k mem with rfl | held | held | ⟨held, unshared⟩
    · exact ⟨fun mine => zero (mem_append_right _ mine),
        fun mine => kept.shared_nonzero (sub mine), kept.cached_nonzero⟩
    · exact own (mem_append_left _ held)
    · exact own (mem_append_right _ held)
    · have shared : k ∈ cowPages (gone ++ rs) ++ cowPages (gone' ++ ds) := by
        rw [cowPages_append, cowPages_append]
        simp only [mem_append] at held ⊢
        exact held.imp .inl .inl
      exact ⟨fun mine => whole.apart k (mem_append_right _ mine) shared, unshared,
        whole.shared_uncached k shared⟩
  · rcases mem_append.mp mem with listed | listed
    · exact mem_append_left _ (mem_append_right _ listed)
    · exact mem_append_right _ (mem_append_right _ listed)

theorem Kept.defer (kept : Kept claimed cached (gone ++ rs) ds copies)
    (empty : ∀ h ∈ gone, h.Private → h.deferredNumber = 0) :
    Kept claimed cached rs (ds ++ gone) copies where
  sound := by
    refine kept.sound.mono ?_ ?_
    · rw [privatePages_append, append_assoc]
      exact (sublist_append_right _ _).subperm
    · rw [cowPages_append, cowPages_append]
      intro k mem
      simp only [mem_append] at mem ⊢
      tauto
  proper h mem := kept.proper h <| by
    simp only [mem_append] at mem ⊢
    tauto
  filed h mem := kept.filed h (mem_append_right _ mem)
  empty h mem := (mem_append.mp mem).elim (kept.empty h) (empty h)
  __ := kept

theorem proper_of_private (isPrivate : r.Private) (nonzero : r.physPage ≠ 0) : r.Proper where
  file n data := absurd (isPrivate.1.symm.trans data) (by simp)
  shared n shared := absurd (isPrivate.2.symm.trans shared) (by simp)
  nonzero _ := nonzero

theorem Kept.take (kept : Kept claimed cached rs ds copies) (isPrivate : r.Private)
    (free : r.physPage ∉ claimed) (nonzero : r.physPage ≠ 0) :
    Kept (insert r.physPage claimed) cached (r :: rs) ds copies where
  sound := by
    rw [privatePages_cons isPrivate, cowPages_cons_none isPrivate.2]
    exact kept.sound.take free
  proper := forall_mem_cons.mpr ⟨proper_of_private isPrivate nonzero, kept.proper⟩
  filed := forall_mem_cons.mpr
    ⟨fun n data => absurd (isPrivate.1.symm.trans data) (by simp), kept.filed⟩
  __ := kept

theorem Kept.install (kept : Kept claimed cached rs ds (r.physPage :: copies))
    (isPrivate : r.Private) : Kept claimed cached (r :: rs) ds copies where
  sound := by
    rw [privatePages_cons isPrivate, cowPages_cons_none isPrivate.2]
    exact kept.sound.perm perm_middle (.refl _)
  proper := forall_mem_cons.mpr ⟨proper_of_private isPrivate fun zero =>
    kept.copies_nonzero (zero ▸ mem_cons_self), kept.proper⟩
  filed := forall_mem_cons.mpr
    ⟨fun n data => absurd (isPrivate.1.symm.trans data) (by simp), kept.filed⟩
  __ := kept
  copies_nonzero mem := kept.copies_nonzero (mem_cons_of_mem _ mem)

section

variable (kept : Kept claimed cached rs ds copies)

include kept

theorem Kept.file (data : r.data = some r.physPage) (unshared : r.cow = none)
    (filed : r.physPage ∈ cached) :
    Kept claimed cached (r :: rs) ds copies where
  sound := by
    rw [privatePages_cons_other fun isPrivate => by simp [isPrivate.1] at data,
      cowPages_cons_none unshared]
    exact kept.sound
  proper := by
    refine forall_mem_cons.mpr ⟨⟨fun n named => ?_, fun n shared => ?_, fun isPrivate => ?_⟩,
      kept.proper⟩
    · obtain rfl := some.inj (data.symm.trans named)
      exact ⟨unshared, rfl, fun zero => kept.cached_nonzero (zero ▸ filed)⟩
    · exact absurd (unshared.symm.trans shared) (by simp)
    · exact absurd (isPrivate.1.symm.trans data) (by simp)
  filed := forall_mem_cons.mpr
    ⟨fun n named => some.inj (data.symm.trans named) ▸ filed, kept.filed⟩
  __ := kept

theorem Kept.claim : Kept (insert n claimed) cached rs ds copies :=
  { kept with sound := kept.sound.claim }

theorem Kept.readCopy (free : n ∉ claimed) (nonzero : n ≠ 0) :
    Kept (insert n claimed) cached rs ds (n :: copies) :=
  { kept with
    sound := (kept.sound.take free).perm perm_middle.symm (.refl _)
    copies_nonzero := fun mem => (mem_cons.mp mem).elim (nonzero ·.symm) kept.copies_nonzero }

theorem Kept.cache (free : n ∉ claimed) (nonzero : n ≠ 0) :
    Kept (insert n claimed) (insert n cached) rs ds copies :=
  { kept with
    sound := kept.sound.cache free
    filed := fun h mem k data => Set.mem_insert_of_mem _ (kept.filed h mem k data)
    cached_nonzero := fun mem => mem.elim (nonzero ·.symm) kept.cached_nonzero }

end

theorem Kept.holders (kept : Kept claimed cached rs ds copies) {h : PhysMapping} (mem : h ∈ rs)
    (isPrivate : h.Private) : rs.filter (·.Holds h.physPage) = [h] := by
  obtain ⟨others, same⟩ : ∃ others, rs.Perm (h :: others) :=
    ⟨_, perm_cons_erase mem⟩
  have kept := kept.perm same (.refl _) (.refl _)
  have owned : h.physPage ∈ privatePages (h :: others) ++ copies := by
    rw [privatePages_cons isPrivate]
    exact mem_cons_self
  have alone : others.filter (·.Holds h.physPage) = [] := by
    refine filter_eq_nil_iff.mpr fun r listed => ?_
    simp only [decide_eq_true_eq]
    rintro (data | shared | ⟨own, page⟩)
    · exact kept.sound.owned_uncached _ owned (kept.filed r (mem_cons_of_mem _ listed) _ data)
    · exact kept.sound.apart _ owned (mem_append_left _
        (mem_cowPages.mpr ⟨r, mem_cons_of_mem _ listed, shared⟩))
    · have nodup := kept.sound.nodup
      rw [privatePages_cons isPrivate] at nodup
      exact (nodup_cons.mp nodup).1 (mem_append_left _
        (mem_privatePages.mpr ⟨r, listed, own, page⟩))
  have here : h.Holds h.physPage := .inr (.inr ⟨isPrivate, rfl⟩)
  have filtered := same.filter (·.Holds h.physPage)
  rw [filter_cons_of_pos (by simpa using here), alone] at filtered
  exact perm_singleton.mp filtered

variable {alloc : ℕ}

theorem CopyStep.plain {cow : Bool} {page : ℕ} {c : Copied} (step : CopyStep cow page alloc hs c)
    (plain : ∀ h ∈ hs, h.data = none) :
    ∀ h ∈ c.records, h.data = none := by
  intro x mem
  cases step with
  | @file l l' h n split here data =>
    exact absurd (data.symm.trans (plain h (by simp [split]))) (by simp)
  | @shared l l' h n split here data =>
    subst split
    rcases mem_append.mp mem with before | behind
    · exact plain x (mem_append_left _ before)
    · rcases mem_cons.mp behind with rfl | behind
      · exact data
      · exact plain x (mem_append_right _ (mem_cons_of_mem _ behind))

/-! ## Forks -/

section

variable [LowTables] {p p' : Process} {w w' : World}

/-- What a fork does to the pages of the records: it moves some of the private pages to the shared
ones. -/
structure Moves (hs : List PhysMapping) (s : Shared) (moved : List ℕ) : Prop where
  own : (privatePages hs).Perm (moved ++ privatePages s.parent)
  parent : cowPages s.parent ⊆ moved ++ cowPages hs
  child : cowPages s.child ⊆ moved ++ cowPages hs
  childOwn : privatePages s.child = []

theorem shareRecords_moves (grants : Grants) (t : PageTables) (proper : ∀ h ∈ hs, h.Proper) :
    ∃ moved, Moves hs (shareRecords grants t hs) moved := by
  induction hs generalizing t with
  | nil => exact ⟨[], .refl _, by simp [shareRecords, cowPages], by simp [shareRecords, cowPages], rfl⟩
  | cons h hs ih =>
    obtain ⟨first, rest⟩ := forall_mem_cons.mp proper
    obtain ⟨moved, moves⟩ := ih (t.tryModify grants h.page (some protectWrite)) rest
    simp only [shareRecords]
    generalize shareRecords grants (t.tryModify grants h.page (some protectWrite)) hs = s at moves ⊢
    by_cases isPrivate : h.Private
    · cases t.wasWriteable grants h.page with
      | false =>
        have kept : ¬h.isCloned false := fun cloned => isCloned_false_iff.mp cloned isPrivate
        refine ⟨moved, ?_, ?_, ?_, ?_⟩ <;>
          simp only [share_false, if_neg kept, privatePages_cons isPrivate,
            cowPages_cons_none isPrivate.2]
        · exact (moves.own.cons _).trans perm_middle.symm
        · exact moves.parent
        · exact moves.child
        · exact moves.childOwn
      | true =>
        -- the page of the record is moved
        have other := share_not_private first
        have shared : (h.share true).cow = some h.physPage := by rw [share_eq first isPrivate]
        have cloned : h.isCloned true := rfl
        refine ⟨h.physPage :: moved, ?_, ?_, ?_, ?_⟩ <;>
          simp only [if_pos cloned, privatePages_cons isPrivate, privatePages_cons_other other,
            cowPages_cons_none isPrivate.2, cowPages_cons_some shared, cons_append]
        · exact moves.own.cons _
        · exact cons_subset_cons _ moves.parent
        · exact cons_subset_cons _ moves.child
        · exact moves.childOwn
    · -- a record that is not private is passed on as it is
      have cloned : h.isCloned (t.wasWriteable grants h.page) := by
        have passed := isCloned_false_iff.mpr isPrivate
        cases t.wasWriteable grants h.page with
        | false => exact passed
        | true => rfl
      have more : ∀ l, l ⊆ moved ++ cowPages hs →
          cowPages [h] ++ l ⊆ moved ++ cowPages (h :: hs) := by
        intro l sub k mem
        rw [show h :: hs = [h] ++ hs from rfl, cowPages_append]
        rcases mem_append.mp mem with here | later
        · exact mem_append_right _ (mem_append_left _ here)
        · have old := mem_append.mp (sub later)
          exact mem_append.mpr (old.imp_right (mem_append_right _))
      refine ⟨moved, ?_, ?_, ?_, ?_⟩ <;>
        simp only [share_eq_self isPrivate, if_pos cloned, privatePages_cons_other isPrivate]
      · exact moves.own
      · rw [show h :: s.parent = [h] ++ s.parent from rfl, cowPages_append]
        exact more _ moves.parent
      · rw [show h :: s.child = [h] ++ s.child from rfl, cowPages_append]
        exact more _ moves.child
      · exact moves.childOwn

theorem Kept.share (kept : Kept claimed cached (hs ++ rs) ds copies) (grants : Grants)
    (t : PageTables) :
    Kept claimed cached ((shareRecords grants t hs).parent ++ (shareRecords grants t hs).child ++ rs)
      ds copies := by
  have proper : ∀ h ∈ hs, h.Proper := fun h mem =>
    kept.proper h (mem_append_left _ (mem_append_left _ mem))
  obtain ⟨moved, moves⟩ := shareRecords_moves grants t proper
  obtain ⟨parent, child⟩ := shareRecords_from grants t hs
  have back : ∀ h ∈ (shareRecords grants t hs).parent ++ (shareRecords grants t hs).child,
      ∃ h' ∈ hs, ∃ w, h = h'.share w := fun h mem =>
    (mem_append.mp mem).elim (parent h) (child h)
  generalize shareRecords grants t hs = s at moves back ⊢
  refine { kept with sound := ?_, proper := fun h mem => ?_, filed := fun h mem n data => ?_ }
  · have owned : (privatePages (hs ++ rs) ++ copies).Perm
        (moved ++ (privatePages (s.parent ++ s.child ++ rs) ++ copies)) := by
      simp only [privatePages_append, moves.childOwn, append_nil]
      rw [← append_assoc, ← append_assoc]
      exact (moves.own.append_right _).append_right _
    refine (kept.sound.perm owned (.refl _)).share fun k mem => ?_
    have from_parent := @moves.parent k
    have from_child := @moves.child k
    simp only [cowPages_append, mem_append] at mem from_parent from_child ⊢
    tauto
  · rcases mem_append.mp mem with here | deferred
    · rcases mem_append.mp here with made | old
      · obtain ⟨h', mem', w, rfl⟩ := back h made
        exact share_proper (proper h' mem')
      · exact kept.proper h (mem_append_left _ (mem_append_right _ old))
    · exact kept.proper h (mem_append_right _ deferred)
  · rcases mem_append.mp mem with made | old
    · obtain ⟨h', mem', w, rfl⟩ := back h made
      rw [share_data] at data
      exact kept.filed h' (mem_append_left _ mem') n data
    · exact kept.filed h (mem_append_right _ old) n data

/-! ## One process -/

structure ProcessOk (p : Process) : Prop where
  separate : Separate p.mappings
  viewed : p.Viewed
  /-- A mapping without an image has no page of a file. -/
  plain : ∀ m ∈ p.mappings, m.image = none → ∀ h ∈ m.mappings, h.data = none

variable {a : Action}

section

variable (ok : ProcessOk p) (ends : EndsBelow p a)

include ok ends

theorem call_viewed (keeps : CallKeeps p a) (taken : exec p a = some p') : p'.Viewed := by
  have sep := ok.separate
  cases a with
  | mapImage | map =>
    cases taken
    refine addMapping_viewed ok.viewed sep ends rfl (fun _ => by simp [freshEntry]) ?_
    exact keeps.imp_right fun absent page inside => absent page inside.1 inside.2
  | clearRange _ pages =>
    cases taken
    exact (clearRange_cut sep.fits pages.toNat_lt).viewed sep ok.viewed
  | protect _ _ pages => cases taken; exact protect_viewed ok.viewed sep _ pages.toNat_lt _
  | brk _ brkAddr => cases taken; exact (brk_step sep _ brkAddr.le_toInt ends).viewed sep ok.viewed

theorem ProcessOk.call (keeps : CallKeeps p a) (taken : exec p a = some p') : ProcessOk p' where
  separate := step_separate p a p' ok.separate ends taken
  viewed := call_viewed ok ends keeps taken
  plain x mem image h here := by
    rcases step_inherited p a p' ok.separate ends taken x mem with none | ⟨m, listed, same, sub⟩
    · simp [none] at here
    · exact ok.plain m listed (same ▸ image) h (sub.subset here)

theorem call_records (taken : exec p a = some p') :
    (p.released a ++ (p.discarded a ++ records p'.mappings)).Perm (records p.mappings) := by
  cases a with
  | mapImage | map => cases taken; exact .of_eq (addMapping_records _ _ rfl)
  | clearRange pagenum pages =>
    cases taken
    refine .trans ?_ (clearRange_records p pagenum.toNat pages.toNat)
    rw [← append_assoc]
    exact perm_append_comm
  | protect grants pagenum pages prot => cases taken; exact protect_records p _ _ _ _
  | brk grants brkAddr =>
    cases taken
    refine .trans ?_ (brk_step ok.separate grants brkAddr.le_toInt ends).records
    change ((p.brk grants brkAddr.toInt).freed ++ _).Perm _
    exact perm_append_comm

end

/-- The records that `brk` frees are of a mapping without an image. -/
theorem BrkStep.plain {b : Broken} (step : BrkStep p b) (ok : ProcessOk p) :
    ∀ h ∈ b.freed, h.data = none := by
  have own : ∀ {m : MemMapping} {i : ℕ} {kept freed : List PhysMapping}, p.mappings[i]? = some m →
      m.image = none → (kept ++ freed).Perm m.mappings → ∀ h ∈ freed, h.data = none :=
    fun at_i image same h mem => ok.plain _ (mem_of_getElem? at_i) image h
      (same.subset (mem_append_right _ mem))
  cases step with
  | idle _ _ none => simp [none]
  | extended | notExtended => simp
  | shrunk at_i image _ _ shrunk | notShrunk at_i image _ _ shrunk =>
    exact own at_i image shrunk.freed

theorem call_freed (ok : ProcessOk p) (ends : EndsBelow p a)
    (proper : ∀ h ∈ p.discarded a, h.Proper) (mem : n ∈ p.freed a) :
    n = 0 ∨ n ∈ privatePages (p.discarded a) := by
  cases a with
  | brk grants brkAddr =>
    obtain ⟨h, listed, rfl⟩ := mem_map.mp mem
    have data := (brk_step ok.separate grants brkAddr.le_toInt ends).plain ok h listed
    cases shared : h.cow with
    | none => exact .inr (mem_privatePages.mpr ⟨h, listed, ⟨data, shared⟩, rfl⟩)
    | some k => exact .inl ((proper h listed).shared k shared).1
  | mapImage | map | clearRange | protect => exact .inr mem

theorem released_empty (keeps : CallKeeps p a) :
    ∀ h ∈ p.released a, h.Private → h.deferredNumber = 0 := by
  cases a with
  | clearRange => exact keeps
  | mapImage | map | protect | brk => simp [Process.released]

/-- A step at one page keeps the mappings without an image free of file pages, if its new records
are of a file only in a mapping with an image. -/
theorem PageStep.plain {m : MemMapping} {page : ℕ} {e : PageEntry}
    (step : PageStep p p' m i page hs e) (ok : ProcessOk p)
    (new : m.image = none → (∀ h ∈ m.mappings, h.data = none) → ∀ h ∈ hs, h.data = none) :
    ∀ x ∈ p'.mappings, x.image = none → ∀ h ∈ x.mappings, h.data = none := by
  rw [step.mappings]
  intro x mem image
  rcases mem_or_eq_of_mem_set mem with old | rfl
  · exact ok.plain x old image
  · exact new image (ok.plain m (mem_of_getElem? step.at_i) image)

variable {dropped : Option ℕ}

theorem ProcessOk.fault {took : Bool} (ok : ProcessOk p)
    (proper : ∀ h ∈ records p.mappings, h.Proper) (step : FaultStep p alloc p' took dropped) :
    ProcessOk p' where
  separate := step.separate ok.separate
  viewed := step.viewed ok.separate ok.viewed proper
  plain := by
    cases step with
    | idle => exact ok.plain
    | entered step => exact step.plain ok fun _ plain => plain
    | filled step =>
      refine step.plain ok fun _ plain h mem => ?_
      rcases mem_append.mp mem with old | new
      · exact plain h old
      · rw [mem_singleton.mp new]
    | copied step _ copy => exact step.plain ok fun _ => copy.plain

variable {loaded : Loaded}

theorem ProcessOk.load {request : LoadRequest} {ending : LoadEnd × Process} (ok : ProcessOk p)
    (step : LoadStep p request loaded ending) (keeps : LoadKeeps p request loaded) :
    ProcessOk ending.2 where
  separate := step.separate ok.separate
  viewed := step.viewed ok.separate ok.viewed keeps
  plain := by
    cases step with
    | released | lost => exact ok.plain
    | installed step image =>
      exact step.plain ok fun none => by simp [none] at image

theorem ProcessOk.clone (ok : ProcessOk p) (proper : ∀ h ∈ records p.mappings, h.Proper)
    (keeps : CloneKeeps p) (grants childGrants : Grants) :
    ProcessOk (p.clone grants childGrants).1 ∧ ProcessOk (p.clone grants childGrants).2 := by
  obtain ⟨forked, forked'⟩ := clone_forked p grants childGrants
  obtain ⟨viewed, viewed'⟩ := clone_viewed ok.separate ok.viewed proper keeps grants childGrants
  have plain : ∀ {ms : List MemMapping}, Forall₂ Forked p.mappings ms →
      ∀ x ∈ ms, x.image = none → ∀ h ∈ x.mappings, h.data = none := by
    intro ms forked x mem image h here
    obtain ⟨m, listed, same⟩ := mem_forked forked mem
    obtain ⟨h', here', w, rfl⟩ := same.records h here
    rw [share_data]
    exact ok.plain m listed (same.image.symm.trans image) h' here'
  exact ⟨⟨forked_separate forked ok.separate, viewed, plain forked⟩,
    ⟨forked_separate forked' ok.separate, viewed', plain forked'⟩⟩

/-! ## All processes -/

structure World.Ok (w : World) : Prop where
  processes : ∀ p ∈ w.processes, ProcessOk p
  kept : Kept w.claimed w.cached w.records w.deferred w.copies
  loads : ∀ l ∈ w.loads, ∀ n, l.loaded = some (.file n) → n ∈ w.cached

theorem World.Fresh.ok (fresh : w.Fresh) : w.Ok := by
  have none : w.records = [] := by
    refine flatMap_eq_nil_iff.mpr fun p mem => ?_
    rw [fresh.mappings p mem]
    rfl
  refine ⟨fun p mem => ?_, ?_, by simp [fresh.loads]⟩
  · have empty := fresh.mappings p mem
    exact ⟨empty ▸ separate_nil, by simp [Process.Viewed, empty], by simp [empty]⟩
  · unfold copies
    rw [none, fresh.deferred, fresh.loads]
    refine ⟨⟨by simp [privatePages], by simp [privatePages], by simp [privatePages],
      by simp [cowPages], fun n mem => fresh.cached mem, by simp [privatePages],
      by simp [cowPages]⟩, by simp, by simp, by simp, by simp, by simpa using fresh.nonzero⟩

theorem freeAll_eq (done : w.freeAll ns = some w') :
    w' = { w with claimed := w.claimed \ ns.toFinset } := by
  induction ns generalizing w with
  | nil =>
    cases done
    simp
  | cons n ns ih =>
    obtain ⟨u, first, rest⟩ := bind_eq_some_iff.mp done
    unfold free at first
    split_ifs at first
    cases first
    rw [ih rest]
    simp only [toFinset_cons, mk.injEq, true_and, and_true]
    ext k
    simp only [Finset.mem_sdiff, Finset.mem_erase, Finset.mem_insert]
    tauto

theorem dropCows_eq (done : w.dropCows ns = some w') :
    ∃ freed : Finset ℕ, w' = { w with claimed := w.claimed \ freed } ∧
      ∀ n ∈ freed, n ∈ ns ∧ n ∉ w.shared := by
  refine ⟨_, freeAll_eq done, fun n mem => ?_⟩
  simpa using mem

theorem not_shared (free : n ∉ w.shared) (same : w.records.Perm rs) :
    n ∉ cowPages rs ++ cowPages w.deferred := fun held =>
  free (((same.filterMap fun h => h.cow).append_right (cowPages w.deferred)).symm.subset held)

theorem records_set_process (at_i : w.processes[i]? = some p) :
    ∃ rest, w.records.Perm (records p.mappings ++ rest) ∧
      (∀ p', ((w.processes.set i p').flatMap fun q => records q.mappings).Perm
        (records p'.mappings ++ rest)) ∧
      ∀ (j : ℕ) (q : Process), j ≠ i → w.processes[j]? = some q → records q.mappings ⊆ rest :=
  flatMap_set_perm at_i fun p => records p.mappings

theorem World.Ok.set (ok : w.Ok) (ok' : ProcessOk p') :
    ∀ q ∈ w.processes.set i p', ProcessOk q := fun q mem =>
  (mem_or_eq_of_mem_set mem).elim (ok.processes q) (fun same => same ▸ ok')

theorem World.Ok.proper (ok : w.Ok) (at_i : w.processes[i]? = some p) :
    ∀ h ∈ AddressSpace.records p.mappings, h.Proper := fun h mem =>
  ok.kept.proper h (mem_append_left _ (mem_flatMap.mpr ⟨p, mem_of_getElem? at_i, mem⟩))

theorem World.Ok.call (ok : w.Ok)
    (allowed : ∀ p, w.processes[i]? = some p → EndsBelow p a ∧ CallKeeps p a)
    (taken : w.call i a = some w') : w'.Ok := by
  unfold World.call at taken
  cases at_i : w.processes[i]? with
  | none => simp [at_i] at taken
  | some p =>
    rw [at_i] at taken
    dsimp only at taken
    obtain ⟨ends, keeps⟩ := allowed p at_i
    have here := ok.processes p (mem_of_getElem? at_i)
    cases done : AddressSpace.exec p a with
    | none => simp [done] at taken
    | some p' =>
      rw [done] at taken
      obtain ⟨u, freeing, dropping⟩ := bind_eq_some_iff.mp taken
      obtain rfl := freeAll_eq freeing
      obtain ⟨dropped, rfl, unshared⟩ := dropCows_eq dropping
      refine ⟨ok.set (here.call ends keeps done), ?_, ok.loads⟩
      obtain ⟨rest, before, after, -⟩ := records_set_process at_i
      have parts := call_records here ends done
      have kept := ok.kept.perm (before.trans (parts.symm.append_right rest)) (.refl _) (.refl _)
      rw [append_assoc, append_assoc] at kept
      have deferred := kept.defer (released_empty keeps)
      have proper : ∀ h ∈ p.discarded a, h.Proper := fun h mem => ok.proper at_i h
        (parts.subset (mem_append_right _ (mem_append_left _ mem)))
      rw [Finset.coe_sdiff, Finset.coe_sdiff, Set.sdiff_sdiff]
      refine Kept.perm (Kept.discard (p.discarded a) [] [] deferred fun n mem => ?_)
        (after p').symm (.refl _) (.refl _)
      rcases mem with mem | mem
      · rcases call_freed here ends proper (mem_toFinset.mp mem) with zero | own
        · exact .inl zero
        · exact .inr (.inl own)
      · obtain ⟨listed, free⟩ := unshared n mem
        exact .inr (.inr (.inr ⟨mem_append_left _ listed, not_shared free (after p')⟩))

/-- What a fault does to the ledger before a shared page is let go: the record it copied, if there is
one, is among `gone`. -/
theorem FaultStep.kept {took : Bool} (step : FaultStep p alloc p' took dropped)
    (free : alloc = 0 ∨ alloc ∉ claimed)
    (kept : Kept claimed cached (records p.mappings ++ rs) ds copies) :
    ∃ gone, Kept (if took then insert alloc claimed else claimed) cached
        (gone ++ (records p'.mappings ++ rs)) ds copies ∧
      ∀ n ∈ dropped, n ∈ cowPages gone := by
  -- the page `alloc` for a new private record `r`, with the record `h` in its place gone
  have taking : ∀ (r : PhysMapping) (gone others : List PhysMapping), r.Private →
      r.physPage = alloc → alloc ≠ 0 → (records p.mappings).Perm (gone ++ others) →
      (records p'.mappings).Perm (r :: others) →
      Kept (insert alloc claimed) cached (gone ++ (records p'.mappings ++ rs)) ds copies := by
    rintro r gone others isPrivate rfl nonzero before after
    refine (kept.take isPrivate (free.resolve_left nonzero) nonzero).perm ?_ (.refl _) (.refl _)
    refine perm_iff_count.mpr fun x => ?_
    have before := before.count_eq x
    have after := after.count_eq x
    simp only [count_append, count_cons] at before after ⊢
    omega
  cases step with
  | @idle took =>
    refine ⟨[], ?_, by simp⟩
    cases took with
    | false => exact kept
    | true => exact kept.claim
  | entered step =>
    obtain ⟨others, before, after⟩ := step.records
    refine ⟨[], kept.perm ?_ (.refl _) (.refl _), by simp⟩
    exact (before.trans after.symm).append_right rs
  | @filled _ m i page e step nonzero =>
    exact ⟨[], taking ⟨none, none, alloc, page⟩ [] _ ⟨rfl, rfl⟩ rfl nonzero (.refl _) step.added,
      by simp⟩
  | @copied _ m i page e c step present copy =>
    obtain ⟨others, before, after⟩ := step.records
    cases copy with
    | @file l l' h k split here data nonzero =>
      have listed : h ∈ records p.mappings ++ rs ++ ds := by
        refine mem_append_left _ (mem_append_left _ (before.symm.subset ?_))
        simp [split]
      refine ⟨[h], ?_, by simp⟩
      rw [split] at before
      refine taking { h with data := none, physPage := alloc } [h] (l ++ l' ++ others)
        ⟨rfl, ((kept.proper h listed).file k data).1⟩ rfl nonzero (before.trans ?_) (after.trans ?_)
      · simp
      · simp
    | @shared l l' h k split here data held nonzero =>
      refine ⟨[h], ?_, ?_⟩
      · rw [split] at before
        refine taking { h with cow := none, physPage := alloc } [h] (l ++ l' ++ others)
          ⟨data, rfl⟩ rfl nonzero (before.trans ?_) (after.trans ?_)
        · simp
        · simp
      · intro n dropped
        cases dropped
        exact mem_cowPages.mpr ⟨h, mem_singleton_self h, held⟩

theorem World.Ok.fault {ρ : Type} {f : Fault ρ} (ok : w.Ok) (at_i : w.processes[i]? = some p)
    (step : FaultStep p alloc f.process f.took f.dropped)
    (taken : w.afterFault i alloc f = some w') : w'.Ok := by
  unfold afterFault at taken
  by_cases free : alloc = 0 ∨ alloc ∉ w.claimed
  swap
  · simp [free] at taken
  rw [if_pos free] at taken
  obtain ⟨dropped, rfl, unshared⟩ := dropCows_eq taken
  have here := ok.processes p (mem_of_getElem? at_i)
  refine ⟨ok.set (here.fault (ok.proper at_i) step), ?_, ok.loads⟩
  obtain ⟨rest, before, after, -⟩ := records_set_process at_i
  obtain ⟨gone, kept, cows⟩ := step.kept (by simpa using free)
    (ok.kept.perm before (.refl _) (.refl _))
  have claims : ((if f.took then insert alloc w.claimed else w.claimed : Finset ℕ) : Set ℕ) =
      if f.took then insert alloc (w.claimed : Set ℕ) else w.claimed := by
    split_ifs <;> simp
  rw [Finset.coe_sdiff, claims]
  refine Kept.perm (Kept.discard gone [] [] kept fun n mem => ?_) (after _).symm (.refl _) (.refl _)
  obtain ⟨listed, free⟩ := unshared n mem
  have cow := cows n (mem_toList.mp listed)
  have unheld := not_shared free (after f.process)
  exact .inr (.inr (.inr ⟨mem_append_left _ cow, unheld⟩))

/-! ## Loads and release lists -/

variable {k : ℕ}

theorem World.Ok.readPage {l : Load} (ok : w.Ok) (at_k : w.loads[k]? = some l)
    (unread : l.loaded = none) (taken : w.readPage k l loaded = some w') : w'.Ok := by
  obtain ⟨rest, before, after, -⟩ := flatMap_set_perm at_k (·.copy.toList)
  have noCopy : l.copy = none := by simp [Load.copy, unread]
  have copies : w.copies.Perm rest := by simpa [noCopy, copies] using before
  cases loaded with
  | file n =>
    simp only [readPage] at taken
    split_ifs at taken with allowed
    cases taken
    refine ⟨ok.processes, ok.kept.perm (.refl _) (.refl _) (copies.trans
      (after { l with loaded := some (.file n) }).symm), ?_⟩
    intro l' mem n' read
    rcases mem_or_eq_of_mem_set mem with old | rfl
    · exact ok.loads l' old n' read
    · cases read
      exact allowed.2
  | copy n =>
    simp only [readPage] at taken
    split_ifs at taken with allowed
    cases taken
    obtain ⟨-, nonzero, free⟩ := allowed
    refine ⟨ok.processes, ?_, ?_⟩
    · rw [Finset.coe_insert]
      exact (ok.kept.readCopy (by simpa using free) nonzero).perm (.refl _) (.refl _)
        ((copies.cons n).trans (after { l with loaded := some (.copy n) }).symm)
    · intro l' mem n' read
      rcases mem_or_eq_of_mem_set mem with old | rfl
      · exact ok.loads l' old n' read
      · cases read

theorem World.Ok.finishLoad {l : Load} {same : Bool} (ok : w.Ok) (at_k : w.loads[k]? = some l)
    (at_i : w.processes[l.process]? = some p) (read : l.loaded = some loaded)
    (keeps : LoadKeeps p l.request loaded) (taken : w.finishLoad k l p loaded same = some w') :
    w'.Ok := by
  have here := ok.processes p (mem_of_getElem? at_i)
  have step := finishLoad_step here.separate l.request loaded same
  have loads : ∀ l' ∈ w.loads.eraseIdx k, ∀ n, l'.loaded = some (.file n) → n ∈ w.cached :=
    fun l' mem => ok.loads l' (mem_of_mem_eraseIdx mem)
  have copies := (perm_eraseIdx at_k).flatMap_right (·.copy.toList)
  rw [flatMap_cons] at copies
  obtain ⟨rest, before, after, -⟩ := records_set_process at_i
  have kept := ok.kept.perm before (.refl _) copies
  unfold World.finishLoad at taken
  generalize p.finishLoad l.request loaded same = ending at step taken
  have ok' := here.load step keeps
  cases loaded with
  | file n =>
    have noCopy : l.copy = none := by simp [Load.copy, read]
    rw [noCopy] at kept
    have filed := ok.loads l (mem_of_getElem? at_k) n read
    cases step with
    | released | lost =>
      cases taken
      exact ⟨ok.set here, kept.perm (after p).symm (.refl _) (.refl _), loads⟩
    | installed step =>
      cases taken
      refine ⟨ok.set ok', ?_, loads⟩
      have record := kept.file (r := ⟨some n, none, n, l.request.page⟩) rfl rfl filed
      exact record.perm ((step.added.symm.append_right rest).trans (after _).symm) (.refl _) (.refl _)
  | copy n =>
    have made : l.copy = some n := by simp [Load.copy, read]
    rw [made] at kept
    cases step with
    | released =>
      simp only [free] at taken
      split_ifs at taken
      cases taken
      refine ⟨ok.set here, ?_, loads⟩
      rw [Finset.coe_erase]
      refine (Kept.discard [] [] [n] kept fun k mem => ?_).perm (after p).symm (.refl _) (.refl _)
      exact .inr (.inr (.inl (mem_singleton.mpr mem)))
    | lost =>
      cases taken
      refine ⟨ok.set here, ?_, loads⟩
      have left := Kept.discard [] [] [n] kept fun k (mem : k ∈ (∅ : Set ℕ)) =>
        absurd mem (Set.notMem_empty k)
      rw [Set.sdiff_empty] at left
      exact left.perm (after p).symm (.refl _) (.refl _)
    | installed step =>
      cases taken
      refine ⟨ok.set ok', ?_, loads⟩
      have record := kept.install (r := ⟨none, none, n, l.request.page⟩) ⟨rfl, rfl⟩
      exact record.perm ((step.added.symm.append_right rest).trans (after _).symm) (.refl _) (.refl _)

theorem World.Ok.dropDeferred {h : PhysMapping} (ok : w.Ok) (at_k : w.deferred[k]? = some h)
    (taken : w.dropDeferred k h = some w') : w'.Ok := by
  have kept := ok.kept.perm (.refl _) (perm_eraseIdx at_k) (.refl _)
  have number : ¬(h.Private ∧ h.deferredNumber ≠ 0) := fun freed =>
    freed.2 (ok.kept.empty h (mem_of_getElem? at_k) freed.1)
  simp only [World.dropDeferred, if_neg number, bind_some] at taken
  obtain ⟨dropped, rfl, unshared⟩ := dropCows_eq taken
  refine ⟨ok.processes, ?_, ok.loads⟩
  rw [Finset.coe_sdiff]
  refine Kept.discard [] [h] [] kept fun n mem => ?_
  obtain ⟨listed, free⟩ := unshared n mem
  refine .inr (.inr (.inr ⟨?_, free⟩))
  exact mem_cowPages.mpr ⟨h, mem_singleton_self h, mem_toList.mp listed⟩

theorem World.Ok.clone {grants childGrants : Grants} (ok : w.Ok)
    (at_i : w.processes[i]? = some p) (keeps : CloneKeeps p) :
    (w.fork i (p.clone grants childGrants)).Ok := by
  have here := ok.processes p (mem_of_getElem? at_i)
  obtain ⟨parent, child⟩ := here.clone (ok.proper at_i) keeps grants childGrants
  obtain ⟨-, parentRecords, childRecords⟩ := clone_records p grants childGrants
  obtain ⟨rest, before, after, -⟩ := records_set_process at_i
  refine ⟨fun q mem => ?_, ?_, ok.loads⟩
  · rcases mem_append.mp mem with old | new
    · exact ok.set parent q old
    · exact mem_singleton.mp new ▸ child
  · have kept := (ok.kept.perm before (.refl _) (.refl _)).share grants p.tables
    refine kept.perm ?_ (.refl _) (.refl _)
    have after := after (p.clone grants childGrants).1
    rw [parentRecords] at after
    unfold records fork
    rw [flatMap_append, flatMap_singleton, childRecords]
    refine perm_iff_count.mpr fun x => ?_
    have after := after.count_eq x
    simp only [count_append] at after ⊢
    omega

/-! ## Runs -/

theorem World.Ok.step (w : World) (op : Operation) (w' : World) (ok : w.Ok)
    (allowed : Allowed w op) (taken : w.exec op = some w') : w'.Ok := by
  cases op with
  | call i a => exact ok.call allowed taken
  | clone i grants childGrants =>
    obtain ⟨p, at_i, rfl⟩ := map_eq_some_iff.mp taken
    exact ok.clone at_i (allowed p at_i)
  | syncResolvePage i addr alloc =>
    obtain ⟨p, at_i, done⟩ := bind_eq_some_iff.mp taken
    have sep := (ok.processes p (mem_of_getElem? at_i)).separate
    exact ok.fault at_i (syncResolvePage_step sep addr alloc) done
  | resolveWritePage i addr alloc =>
    obtain ⟨p, at_i, done⟩ := bind_eq_some_iff.mp taken
    have sep := (ok.processes p (mem_of_getElem? at_i)).separate
    exact ok.fault at_i (resolveWritePage_step sep addr alloc) done
  | beginLoad i addr =>
    obtain ⟨p, at_i, done⟩ := bind_eq_some_iff.mp taken
    obtain ⟨r, -, rfl⟩ := map_eq_some_iff.mp done
    refine ⟨ok.processes, ok.kept.perm (.refl _) (.refl _) (.of_eq ?_), fun l mem => ?_⟩
    · simp [copies, Load.copy]
    · rcases mem_append.mp mem with old | new
      · exact ok.loads l old
      · simp [mem_singleton.mp new]
  | readPage k loaded =>
    obtain ⟨l, at_k, done⟩ := bind_eq_some_iff.mp taken
    split_ifs at done with unread
    exact ok.readPage at_k unread done
  | finishLoad k same =>
    obtain ⟨l, at_k, done⟩ := bind_eq_some_iff.mp taken
    obtain ⟨p, at_i, done⟩ := bind_eq_some_iff.mp done
    obtain ⟨loaded, read, done⟩ := bind_eq_some_iff.mp done
    exact ok.finishLoad at_k at_i read (allowed l p loaded at_k at_i read) done
  | dropDeferred k =>
    obtain ⟨h, at_k, done⟩ := bind_eq_some_iff.mp taken
    exact ok.dropDeferred at_k done
  | cachePage n =>
    simp only [exec] at taken
    split_ifs at taken with free
    cases taken
    refine ⟨ok.processes, ?_, fun l mem k read => Finset.mem_insert_of_mem (ok.loads l mem k read)⟩
    rw [Finset.coe_insert, Finset.coe_insert]
    exact ok.kept.cache (by simpa using free.2) free.1
  | claim n =>
    simp only [exec] at taken
    split_ifs at taken
    cases taken
    refine ⟨ok.processes, ?_, ok.loads⟩
    rw [Finset.coe_insert]
    exact ok.kept.claim

theorem World.Ok.isolated (ok : w.Ok) : w.Isolated := by
  intro i p at_i m mem page inside present writeable
  have view := (ok.processes p (mem_of_getElem? at_i)).viewed m mem page inside
  obtain ⟨h, listed, isPrivate, named⟩ := view.writes present writeable
  have mine : h ∈ AddressSpace.records p.mappings := (mem_filter.mp listed).1
  have all : h ∈ w.records := mem_flatMap.mpr ⟨p, mem_of_getElem? at_i, mine⟩
  have holders := ok.kept.holders all isPrivate
  rw [← named]
  refine ⟨⟨h, mine, isPrivate, holders⟩, fun filed => ?_, ?_⟩
  · exact ok.kept.sound.owned_uncached _
      (mem_append_left _ (mem_privatePages.mpr ⟨h, all, isPrivate, rfl⟩)) filed
  · intro j q other at_j m' mem' page' inside' present' same
    have view' := (ok.processes q (mem_of_getElem? at_j)).viewed m' mem' page' inside'
    obtain ⟨h', listed', held⟩ := view'.held present'
    rw [same] at held
    -- the two holders are in the records of different processes
    obtain ⟨rest, before, -, others⟩ := records_set_process at_i
    have theirs : h' ∈ rest := others j q other at_j (mem_filter.mp listed').1
    have both := (before.filter (·.Holds h.physPage)).length_eq
    rw [holders, filter_append, length_append] at both
    have own : h.Holds h.physPage := .inr (.inr ⟨isPrivate, rfl⟩)
    have first : h ∈ (AddressSpace.records p.mappings).filter (·.Holds h.physPage) :=
      mem_filter.mpr ⟨mine, decide_eq_true own⟩
    have second : h' ∈ rest.filter (·.Holds h.physPage) :=
      mem_filter.mpr ⟨theirs, decide_eq_true held⟩
    have := length_pos_of_mem first
    have := length_pos_of_mem second
    simp only [length_singleton] at both
    omega

end

open FourGigabytes

theorem map_allowed : ∀ p, [Process.empty][0]? = some p →
    EndsBelow p (.map allGranted 16 2 false) ∧ CallKeeps p (.map allGranted 16 2 false) := by
  intro p at_0
  cases at_0
  exact ⟨by unfold EndsBelow; decide, .inl rfl⟩

end JeoKernel.AddressSpace
