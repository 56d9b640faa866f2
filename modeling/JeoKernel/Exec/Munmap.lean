import JeoKernel.Exec.Mmap

/-!
# The munmap system call

`mmap` rounds the length up to pages and `munmap` rounds it down.  For a request of whole pages the
range that `munmap` clears is the one that `mmap` has filled.
-/

namespace JeoKernel.AddressSpace

open List Loop MemMapping MmapArgs Process

def word32 (n : ℤ) : ℕ := (n % 2 ^ 32).toNat

section

variable [TableMemory]

def Process.munmap (p : Process) (grants : Grants) (uptrAddr len : ℤ) : ℤ × Process :=
  let pages := len / 4096
  if pages = 0 then (0, p)
  else
    let pagenum := uptrAddr / 4096
    (0, (p.clearRange (word32 pagenum) (word32 pages)).disableRange grants (word32 pagenum)
      (word32 pages))

/-- The answer of `munmap` on the pages from `first` on, which a request `c` has mapped in `p`. -/
structure Unmapped (p : Process) (c : MmapArgs) (first : ℕ) (answer : ℤ × Process) : Prop where
  result : answer.1 = 0
  outside : ∀ i < c.pages, ∀ m ∈ answer.2.mappings, ¬m.Contains (first + i)
  absent : ∀ i < c.pages, ¬(answer.2.tables.get (first + i)).present
  others : answer.2.mappings = p.mappings

/-- The request is for whole pages, it does not become empty as a 32-bit number, no mapping that
reaches page 2^32 is in the way, and the pages that are cut off are not in use. -/
structure UnmapExact (p : Process) (c : MmapArgs) : Prop where
  whole : c.len.toNat % 4096 = 0
  pages : wrap32 c.pages ≠ 0
  below : ∀ m ∈ p.mappings, 2 ^ 32 ≤ m.pagenum + m.pages →
    ∀ i < wrap32 c.pages, ¬m.Contains (findFree p.mappings (wrap32 c.pages) + i)
  cut : ∀ i < c.pages, wrap32 c.pages ≤ i →
    (∀ m ∈ p.mappings, ¬m.Contains (findFree p.mappings (wrap32 c.pages) + i)) ∧
      ¬(p.tables.get (findFree p.mappings (wrap32 c.pages) + i)).present

end

variable {c : MmapArgs} {m : MemMapping} {ms : List MemMapping} {v n : ℕ}

/-! ## ClearRange on mappings that are out of the range, or in it -/

theorem clear_apart (apart : ¬m.overlapPage v < m.overlapEnd v n) :
    (m.clear v n).kept = [m] ∧ (m.clear v n).split = [] := by
  unfold clear
  rw [if_neg apart]
  exact ⟨rfl, rfl⟩

theorem clear_inside (overlaps : m.overlapPage v < m.overlapEnd v n) (low : v ≤ m.pagenum)
    (high : m.ending ≤ m.overlapEnd v n) :
    (m.clear v n).kept = [] ∧ (m.clear v n).split = [] := by
  have first : ¬m.pagenum < m.overlapPage v := by
    unfold overlapPage
    split_ifs <;> omega
  unfold clear
  rw [if_pos overlaps, if_neg first, if_neg (by omega)]
  exact ⟨rfl, rfl⟩

theorem clear_ne_nil (behind : ¬m.overlapPage v < m.overlapEnd v n ∨ m.overlapEnd v n < m.ending) :
    (m.clear v n).kept ≠ [] := by
  unfold clear
  dsimp only
  split_ifs <;> first | exact cons_ne_nil _ _ | omega

theorem not_contains_of_apart (below : m.pagenum + m.pages < 2 ^ 32) (range : v + n < 2 ^ 32)
    (apart : ¬m.overlapPage v < m.overlapEnd v n) {i : ℕ} (inside : i < n) :
    ¬m.Contains (v + i) := by
  rintro ⟨low, high⟩
  unfold overlapPage overlapEnd at apart
  rw [ending_eq below, wrap32_eq range] at apart
  split_ifs at apart <;> omega

theorem flatMap_clear_apart (apart : ∀ m ∈ ms, ¬m.overlapPage v < m.overlapEnd v n) :
    ms.flatMap (fun m => (m.clear v n).kept) = ms ∧
      ms.flatMap (fun m => (m.clear v n).split) = [] := by
  induction ms with
  | nil => exact ⟨rfl, rfl⟩
  | cons m ms ih =>
    obtain ⟨here, later⟩ := forall_mem_cons.mp apart
    obtain ⟨kept, split⟩ := ih later
    obtain ⟨kept', split'⟩ := clear_apart here
    rw [flatMap_cons, flatMap_cons, kept, split, kept', split']
    exact ⟨rfl, rfl⟩

theorem not_overlap_of_check (check : checkMapOverlap ms v n) :
    ∀ m ∈ ms, ¬m.overlapPage v < m.overlapEnd v n := fun m mem => by
  simpa using all_eq_true.mp check m mem

/-! ## What munmap leaves of the new mappings -/

theorem fullPages_eq_iff : c.fullPages = c.pages ↔ c.len.toNat % 4096 = 0 := by
  unfold MmapArgs.pages fullPages
  split_ifs <;> omega

theorem created_whole (whole : c.fullPages = c.pages) (v : ℕ) :
    ∃ m, c.created v = [m] ∧ m.pagenum = wrap32 v ∧ m.pages = wrap32 c.pages := by
  cases given : c.file with
  | none =>
    exact ⟨.create none (wrap32 v) (wrap32 c.pages) 0 0 false false,
      by simp only [created, given], rfl, rfl⟩
  | some file =>
    exact ⟨c.imagePart file v c.fullPages c.fileOffset 0,
      by simp only [created, given, if_pos whole], rfl, congrArg wrap32 whole⟩

section

variable [LowTables] {p p' : Process}

section

variable (placed : Placed p c v p') (page : v < 2 ^ 32) (made : ∀ m ∈ c.created v, Made ms m)

include placed page made

/-- The range of `munmap` does not meet the mappings that were there before. -/
theorem old_apart : ∀ m ∈ ms, ¬m.overlapPage v < m.overlapEnd v (wrap32 c.fullPages) := by
  have small := wrap32_eq page
  have high := placed.high
  have low := placed.low
  unfold highLim at high
  unfold lowLim at low
  intro m mem
  cases given : c.file with
  | some file =>
    simp only [created, given, forall_mem_cons] at made
    have check := not_overlap_of_check made.1.check m mem
    simp only [imagePart, create, small] at check
    exact check
  | none =>
    simp only [created, given, forall_mem_singleton] at made
    have check := not_overlap_of_check made.check m mem
    have count := fullPages_cases c
    simp only [create, small] at check
    unfold overlapEnd overlapPage wrap32 at check ⊢
    unfold wrap32 at high
    split_ifs at check ⊢ <;> omega

/-- Unless `munmap` is called for all pages, one of the new mappings stays. -/
theorem created_stays (some_left : ¬(c.len.toNat % 4096 = 0 ∧ wrap32 c.pages ≠ 0)) :
    ∃ m ∈ c.created v, (m.clear v (wrap32 c.fullPages)).kept ≠ [] := by
  have small := wrap32_eq page
  have high := placed.high
  have low := placed.low
  unfold highLim wrap32 at high
  have count := fullPages_cases c
  rw [← fullPages_eq_iff] at some_left
  cases given : c.file with
  | none =>
    simp only [created, given]
    refine ⟨_, mem_singleton_self _, clear_ne_nil ?_⟩
    unfold overlapEnd overlapPage ending
    simp only [create, small]
    unfold wrap32 at some_left ⊢
    split_ifs <;> omega
  | some file =>
    simp only [created, given, forall_mem_cons] at made ⊢
    have narrow := narrow_of_userPage low (Nat.mod_lt _ (by decide)) made.1.user
    simp only [imagePart, create] at narrow
    by_cases whole : c.fullPages = c.pages
    · refine ⟨_, mem_cons_self, clear_ne_nil (.inl ?_)⟩
      have none : wrap32 c.fullPages = 0 := by
        rw [whole]
        tauto
      unfold overlapEnd overlapPage ending
      simp only [imagePart, create, small, none, add_zero]
      split_ifs <;> omega
    · rw [if_neg whole]
      refine ⟨_, mem_cons_of_mem _ (mem_singleton_self _), clear_ne_nil (.inl ?_)⟩
      have place : wrap32 (v + c.fullPages) = v + wrap32 c.fullPages := by
        unfold wrap32 at narrow ⊢
        omega
      have start : wrap32 (v + wrap32 c.fullPages) = v + wrap32 c.fullPages := by
        rw [← place]
        exact Nat.mod_mod _ _
      unfold overlapEnd overlapPage
      simp only [imagePart, create, place, start]
      split_ifs <;> omega

end

theorem created_cleared (placed : Placed p c v p') (page : v < 2 ^ 32) (whole : c.fullPages = c.pages)
    (pages : wrap32 c.pages ≠ 0) :
    (c.created v).flatMap (fun m => (m.clear v (wrap32 c.pages)).kept) = [] ∧
      (c.created v).flatMap (fun m => (m.clear v (wrap32 c.pages)).split) = [] := by
  have small := wrap32_eq page
  have high := placed.high
  unfold highLim at high
  obtain ⟨m, created, pagenum, count⟩ := created_whole whole v
  rw [small] at pagenum
  have ending : wrap32 (v + wrap32 c.pages) = v + wrap32 c.pages := Nat.mod_eq_of_lt (by omega)
  have gone : (m.clear v (wrap32 c.pages)).kept = [] ∧ (m.clear v (wrap32 c.pages)).split = [] := by
    refine clear_inside ?_ pagenum.ge ?_ <;>
      simp only [overlapPage, overlapEnd, MemMapping.ending, pagenum, count,
        ending, lt_irrefl, if_false, le_refl]
    omega
  rw [created, flatMap_singleton, flatMap_singleton]
  exact gone

/-! ## The tables -/

theorem disableRange_get (grants : Grants) (bound : v + n ≤ 2 ^ 32) (q : ℕ) :
    (p.disableRange grants v n).tables.get q =
      if v ≤ q ∧ q < v + n then { p.tables.get q with present := false } else p.tables.get q := by
  have entry := tryModifyRange_get p.tables grants
    (fun _ => some fun e : PageEntry => { e with present := false }) v bound q
  unfold disableRange
  split_ifs at entry ⊢ with inside
  · rcases entry with ⟨same, none | zero⟩ | ⟨f, same, changed⟩
    · cases none
    · rw [same, zero]
      rfl
    · cases same
      exact changed
  · exact entry

variable {grants : Grants}

theorem addMapping_get {func : PageEntry → PageEntry} (bound : m.pagenum + m.pages ≤ 2 ^ 32)
    {q : ℕ} (outside : ¬(m.pagenum ≤ q ∧ q < m.pagenum + m.pages)) :
    (p.addMapping grants m func).2.tables.get q = p.tables.get q := by
  have loop := modifyRange_get (t := p.tables) grants func (Nat.le_add_right m.pagenum m.pages) bound
  fun_cases addMapping p grants m func with
  | case1 _ t done =>
    rw [done] at loop
    rw [loop LowTables.low q, if_neg outside]
  | case2 _ t failed =>
    rw [failed] at loop
    obtain ⟨last, -, before, changed⟩ := loop
    exact (changed LowTables.low q).trans (if_neg (by omega))
  | case3 => rfl

theorem mmap_get {grants : Fin 3 → Grants} (words : p.Words) (found : !c.fixed)
    (whole : c.fullPages = c.pages) {v q : ℕ} (free : findFree p.mappings (wrap32 c.pages) = v)
    (outside : ¬(v ≤ q ∧ q < v + wrap32 c.pages)) :
    (p.mmap grants c).2.tables.get q = p.tables.get q := by
  unfold mmap
  split_ifs
  · rfl
  cases place : p.mmapPlace (grants 0) c with
  | error e => rfl
  | ok chosen =>
    obtain ⟨v', p'⟩ := chosen
    have placed := mmapPlace_placed words place
    obtain ⟨rfl, rfl⟩ : v = v' ∧ p = p' := by
      unfold mmapPlace at place
      split_ifs at place
      rw [free] at place
      exact Prod.mk.inj (Except.ok.inj place)
    have installed : ∀ r, Installed p (grants 1) (grants 2) c v r →
        r.2.tables.get q = p.tables.get q := by
      obtain ⟨m, created, pagenum, pages⟩ := created_whole whole v
      have small := wrap32_eq (placed.page found)
      have high := placed.high
      unfold highLim at high
      rw [← small, ← pagenum, ← pages] at outside
      intro r h
      cases h with
      | refused => rfl
      | single _ created' =>
        obtain rfl := singleton_inj.mp (created.symm.trans created')
        exact addMapping_get (by omega) outside
      | first _ created' | second _ created' => simp [created] at created'
    have entry := installed _ mmapInstall_installed
    dsimp only
    split
    · next failed => rw [failed] at entry; exact entry
    · next done => rw [done] at entry; exact entry

/-! ## The result -/

/-- The calls agree on the number of a page, and on the number of pages but for a part of a page. -/
theorem munmap_eq {answer : ℤ} (first : 0 ≤ answer) (q : Process) :
    q.munmap grants answer c.len.toInt64.toInt =
      if c.fullPages = 0 then (0, q)
      else (0, (q.clearRange (wrap32 (answer.toNat / 4096)) (wrap32 c.fullPages)).disableRange grants
        (wrap32 (answer.toNat / 4096)) (wrap32 c.fullPages)) := by
  have bound := c.len.toNat_lt
  have len : c.len.toInt64.toInt = Int.bmod c.len.toNat (2 ^ 64) :=
    BitVec.toInt_eq_toNat_bmod c.len.toBitVec
  have pages : c.len.toInt64.toInt / 4096 = 0 ↔ c.fullPages = 0 := by
    rw [len, Int.bmod_def, fullPages]
    split_ifs <;> omega
  have count : word32 (c.len.toInt64.toInt / 4096) = wrap32 c.fullPages := by
    rw [len, Int.bmod_def, fullPages, word32, wrap32]
    split_ifs <;> omega
  have page : word32 (answer / 4096) = wrap32 (answer.toNat / 4096) := by
    rw [word32, wrap32]
    omega
  unfold munmap
  simp only [pages, count, page]

section

variable {grants : Fin 3 → Grants} (grants' : Grants)

theorem munmap_stays (words : p.Words) (found : !c.fixed) (returned : 0 ≤ (p.mmap grants c).1)
    (some_left : ¬(c.len.toNat % 4096 = 0 ∧ wrap32 c.pages ≠ 0)) :
    ((p.mmap grants c).2.munmap grants' (p.mmap grants c).1 c.len.toInt64.toInt).2.mappings ≠
      p.mappings := by
  obtain ⟨v, p', placed, first, mappings, made⟩ := mmap_success words returned
  have small := wrap32_eq (placed.page found)
  have kept : c.kept p = p.mappings := if_neg (by simpa using found)
  rw [kept] at mappings made
  obtain ⟨m, mem, stays⟩ := created_stays placed (placed.page found) made some_left
  rw [munmap_eq returned, first, small]
  split_ifs
  · rw [mappings]
    intro same
    exact ne_nil_of_mem mem (append_right_eq_self.mp same)
  · obtain ⟨old, -⟩ := flatMap_clear_apart (old_apart placed (placed.page found) made)
    simp only [disableRange, clearRange, mappings, flatMap_append, old, append_assoc]
    intro same
    have none := (append_eq_nil_iff.mp (append_right_eq_self.mp same)).1
    exact stays (flatMap_eq_nil_iff.mp none m mem)

/-- Called for all pages, `munmap` restores the list of mappings, and changes no other entry. -/
theorem munmap_whole (words : p.Words) (found : !c.fixed) (returned : 0 ≤ (p.mmap grants c).1)
    (whole : c.len.toNat % 4096 = 0) (pages : wrap32 c.pages ≠ 0) :
    let n := wrap32 c.pages
    let v := findFree p.mappings n
    ∃ q, (p.mmap grants c).2.munmap grants' (p.mmap grants c).1 c.len.toInt64.toInt = (0, q) ∧
      q.mappings = p.mappings ∧ ∀ i, if i < n then ¬(q.tables.get (v + i)).present
        else q.tables.get (v + i) = p.tables.get (v + i) := by
  obtain ⟨v, p', placed, first, mappings, made⟩ := mmap_success words returned
  have page := placed.page found
  have small := wrap32_eq page
  have kept : c.kept p = p.mappings := if_neg (by simpa using found)
  have high := placed.high
  unfold highLim at high
  have full := fullPages_eq_iff.mpr whole
  rw [kept] at mappings made
  obtain ⟨old, old_split⟩ := flatMap_clear_apart (old_apart placed page made)
  obtain ⟨new, new_split⟩ := created_cleared placed page full pages
  rw [full] at old old_split
  have some_pages : c.fullPages ≠ 0 := by
    rw [full]
    rintro none
    exact pages (congrArg wrap32 none)
  dsimp only
  rw [munmap_eq returned, first, small, if_neg some_pages, full, ← placed.found found]
  refine ⟨_, rfl, ?_, fun i => ?_⟩
  · simp only [disableRange, clearRange, mappings, flatMap_append, old, new,
      old_split, new_split, append_nil]
  · have entry := disableRange_get (p := (p.mmap grants c).2.clearRange v (wrap32 c.pages))
      grants' (n := wrap32 c.pages) (v := v) (by omega) (v + i)
    split_ifs with inside
    · rw [if_pos (by omega)] at entry
      rw [entry]
      exact Bool.false_ne_true
    · rw [if_neg (by omega)] at entry
      refine entry.trans (mmap_get words found full rfl ?_)
      rw [← placed.found found]
      omega

end

/-- `munmap` undoes `mmap` exactly where the request is for whole pages and is not truncated onto
pages that are in use. -/
theorem unmapped_iff (p : Process) (grants : Fin 3 → Grants) (grants' : Grants) (c : MmapArgs)
    (words : p.Words) (found : !c.fixed) (returned : 0 ≤ (p.mmap grants c).1) :
    Unmapped p c ((p.mmap grants c).1.toNat / 4096)
        ((p.mmap grants c).2.munmap grants' (p.mmap grants c).1 c.len.toInt64.toInt) ↔
      UnmapExact p c := by
  obtain ⟨v, p', placed, first, -, made⟩ := mmap_success words returned
  have page := placed.page found
  have high := placed.high
  rw [first, placed.found found]
  by_cases all : c.len.toNat % 4096 = 0 ∧ wrap32 c.pages ≠ 0
  · obtain ⟨q, answer, mappings, entries⟩ := munmap_whole grants' words found returned
      all.1 all.2
    rw [answer]
    constructor
    · rintro ⟨-, outside, absent, -⟩
      have outside : ∀ i < c.pages, ∀ m ∈ p.mappings, _ := mappings ▸ outside
      refine ⟨all.1, all.2, fun m mem _ i bound => ?_, fun i bound cut => ⟨outside i bound, ?_⟩⟩
      · exact outside i (bound.trans_le (wrap32_le _)) m mem
      · have entry := entries i
        rw [if_neg (by omega)] at entry
        exact entry ▸ absent i bound
    · rintro ⟨-, -, below, cut⟩
      have kept : c.kept p = p.mappings := if_neg (by simpa using found)
      have apart := old_apart placed page (kept ▸ made)
      rw [fullPages_eq_iff.mpr all.1, placed.found found] at apart
      rw [wrap32_eq page, placed.found found] at high
      unfold highLim at high
      refine ⟨rfl, fun i bound m mem => ?_, fun i bound => ?_, mappings⟩
      · rw [mappings] at mem
        by_cases inside : i < wrap32 c.pages
        · by_cases reaches : 2 ^ 32 ≤ m.pagenum + m.pages
          · exact below m mem reaches i inside
          · exact not_contains_of_apart (by omega) (by omega) (apart m mem) inside
        · exact (cut i bound (by omega)).1 m mem
      · have entry := entries i
        split_ifs at entry with inside
        · exact entry
        · exact entry ▸ (cut i bound (by omega)).2
  · refine iff_of_false (fun h => ?_) fun exact => all ⟨exact.whole, exact.pages⟩
    exact munmap_stays grants' words found returned all h.others

end

open FourGigabytes

/-- Two pages, in a process that has another mapping. -/
theorem unmapped_two_pages :
    let p : Process := { Process.empty with mappings := [.create none 0x80000 1 0 0 false false] }
    let c : MmapArgs := ⟨0, 8192, 3, 0x22, none, 0⟩
    (p.mmap (fun _ => allGranted) c).1 = 0xFFFFFFFD000 ∧
      Unmapped p c 0xFFFFFFFD ((p.mmap (fun _ => allGranted) c).2.munmap allGranted
        (p.mmap (fun _ => allGranted) c).1 8192) := by
  intro p c
  have returned : (p.mmap (fun _ => allGranted) c).1 = 0xFFFFFFFD000 := by decide +kernel
  have exact : UnmapExact p c := by
    refine ⟨by decide, by decide, ?_, ?_⟩
    · decide
    · decide
  have unmapped := (unmapped_iff p (fun _ => allGranted) allGranted c
    (by simp [Process.Words, p, create]) (by decide) (by rw [returned]; decide)).mpr exact
  rw [returned] at unmapped ⊢
  exact ⟨rfl, unmapped⟩

def byteRequest : MmapArgs := ⟨0, 1, 3, 0x22, none, 0⟩

/-- `mmap` maps a page for it, and `munmap` leaves it. -/
theorem not_unmapped_byte :
    (Process.empty.mmap (fun _ => allGranted) byteRequest).1 = 0xFFFFFFFE000 ∧
      ¬Unmapped .empty byteRequest 0xFFFFFFFE
        ((Process.empty.mmap (fun _ => allGranted) byteRequest).2.munmap allGranted
          0xFFFFFFFE000 1) := by
  have returned : (empty.mmap (fun _ => allGranted) byteRequest).1 = 0xFFFFFFFE000 := by
    decide +kernel
  refine ⟨returned, fun unmapped => ?_⟩
  have others := unmapped.others
  cases others

end JeoKernel.AddressSpace
