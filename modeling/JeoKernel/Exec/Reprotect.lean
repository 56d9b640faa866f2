import JeoKernel.Exec.PageViews

/-!
# Pages that are protected again

What calls of `Protect` that allow reading leave of a page: its entry still names the same physical
page, its records stay, and its mapping, cut into parts, loads the same page of the image.  The part
that is split off behind the range has lost `load`.
-/

namespace JeoKernel.AddressSpace

open List Loop MemMapping

section

variable [TableMemory]

/-- A call of `Protect` that allows reading. -/
structure Later where
  grants : Grants
  pagenum : UInt32
  pages : UInt32
  write : Bool

def Later.prot (l : Later) : Prot := if l.write then .readWrite else .read

def Process.reprotect (p : Process) (later : List Later) : Process :=
  later.foldl (fun p l => (p.protect l.grants l.pagenum.toNat l.pages.toNat l.prot).2) p

end

variable {m x y : MemMapping} {ms : List MemMapping} {page pagenum pages : ℕ}
  {e e' : PageEntry}

/-! ## Parts of a mapping -/

/-- A part of a mapping loads the same pages of the image.  Only a part behind another one may have
lost `load`. -/
structure Kin (m x : MemMapping) : Prop where
  part : Part m x
  imagePage : m.image.isSome → ∀ page, x.Contains page → x.imagePage page = m.imagePage page
  load : x.load = m.load ∨ (x.load = 0 ∧ m.pagenum < x.pagenum)

theorem Kin.refl (fits : m.Fits) : Kin m m := ⟨.refl fits, fun _ _ _ => rfl, .inl rfl⟩

theorem Kin.trans (h : Kin m x) (h' : Kin x y) : Kin m y where
  part := h.part.trans h'.part
  imagePage image page inside := by
    rw [h'.imagePage (h.part.image ▸ image) page inside,
      h.imagePage image page (h'.part.contains inside)]
  load := by
    have low := h.part.low
    have low' := h'.part.low
    rcases h'.load with same' | ⟨zero, behind⟩
    · rcases h.load with same | ⟨zero, behind⟩
      · exact .inl (same'.trans same)
      · exact .inr ⟨same'.trans zero, by omega⟩
    · exact .inr ⟨zero, by omega⟩

theorem wrap32_imagePage {skip start page : ℕ} (low : m.pagenum ≤ start) (high : start ≤ page)
    (skips : skip = wrap32 (m.imageSkipPages + (start - m.pagenum))) :
    wrap32 (skip + (page - start)) = m.imagePage page := by
  rw [skips]
  unfold imagePage wrap32
  omega

theorem splitBelow_kin (fits : m.Fits) {start : ℕ} (bound : start ≤ m.pagenum + m.pages) :
    ∀ y ∈ (m.splitBelow start).2 :: (m.splitBelow start).1, Kin m y := by
  have parts := (splitBelow_partsOf fits start bound).part
  unfold splitBelow at parts ⊢
  by_cases cut : start > m.pagenum
  swap
  · rw [if_neg cut]
    exact forall_mem_singleton.mpr (.refl fits)
  rw [if_pos cut] at parts ⊢
  obtain ⟨inside, below⟩ := forall_mem_cons.mp parts
  refine forall_mem_cons.mpr ⟨⟨inside, fun image page contains => ?_, .inl rfl⟩,
    forall_mem_singleton.mpr ?_⟩
  · exact wrap32_imagePage cut.le contains.1 (if_pos image)
  · exact ⟨forall_mem_singleton.mp below, fun _ _ _ => rfl, .inl rfl⟩

theorem splitAbove_kin (fits : m.Fits) {ending : ℕ} (low : m.pagenum < ending) :
    ∀ y ∈ (m.splitAbove ending).2 :: (m.splitAbove ending).1, Kin m y := by
  have parts := (splitAbove_partsOf fits low.le).part
  have below := fits.below
  unfold splitAbove at parts ⊢
  by_cases cut : ending < m.ending
  swap
  · rw [if_neg cut]
    exact forall_mem_singleton.mpr (.refl fits)
  rw [if_pos cut] at parts ⊢
  rw [ending_eq fits.below] at cut
  have size : wrap32 (m.pagenum + (ending - m.pagenum)) = ending := by unfold wrap32; omega
  obtain ⟨inside, above⟩ := forall_mem_cons.mp parts
  refine forall_mem_cons.mpr ⟨⟨inside, fun _ _ _ => rfl, .inl rfl⟩,
    forall_mem_singleton.mpr ⟨forall_mem_singleton.mp above, fun _ page contains => ?_,
      .inr ⟨rfl, ?_⟩⟩⟩
  · have high : ending ≤ page := size ▸ contains.1
    rw [size]
    exact wrap32_imagePage low.le high rfl
  · exact size.symm ▸ low

theorem protectParts_kin (fits : m.Fits) (small : pages < 2 ^ 32)
    (met : m.isProtected pagenum pages) :
    ∀ y ∈ (m.protectParts pagenum pages).2 :: (m.protectParts pagenum pages).1, Kin m y := by
  have overlap := overlap_of_isProtected met
  obtain ⟨first, last⟩ := overlap_bounds fits small overlap
  unfold protectParts
  rw [protStart_eq, protEnd_eq]
  have lower := splitBelow_kin fits (show m.overlapPage pagenum ≤ m.pagenum + m.pages by omega)
  have inside := lower _ mem_cons_self
  have start := splitBelow_pagenum (show m.pagenum ≤ m.overlapPage pagenum by omega)
  have upper := splitAbove_kin (inside.part.fits fits) (start.symm ▸ overlap)
  intro y mem
  rcases mem_cons.mp mem with rfl | mem
  · exact inside.trans (upper _ mem_cons_self)
  rcases mem_append.mp mem with below | above
  · exact lower y (mem_cons_of_mem _ below)
  · exact inside.trans (upper y (mem_cons_of_mem _ above))

theorem setProtection_kin (fits : m.Fits) (prot : Prot) : Kin m (m.setProtection prot) := by
  refine ⟨setProtection_part fits prot, fun _ page _ => ?_, .inl ?_⟩
  · cases prot <;> rfl
  · cases prot <;> rfl

theorem Modified.readable {prot : Prot} {record : Option PhysMapping}
    (change : Modified (protectEntry prot record) e e') (reading : prot ≠ .none) :
    e'.present = e.present ∧ e'.pagePpn = e.pagePpn := by
  rcases change with ⟨rfl, -⟩ | ⟨f, given, rfl⟩
  · exact ⟨rfl, rfl⟩
  cases prot with
  | none => exact absurd rfl reading
  | invalid => cases given
  | read =>
    cases given
    exact ⟨rfl, rfl⟩
  | readWrite =>
    cases record with
    | none =>
      cases given
      exact ⟨rfl, rfl⟩
    | some h =>
      simp only [protectEntry] at given
      split_ifs at given
      cases given
      exact ⟨rfl, rfl⟩

theorem isProtected_one (fits : m.Fits) (small : page + 1 < 2 ^ 32) :
    m.isProtected page 1 ↔ m.Contains page := by
  have next := wrap32_eq small
  unfold isProtected protStart protEnd MemMapping.Contains
  rw [ending_eq fits.below, next]
  split_ifs <;> simp only [decide_eq_true_eq] <;> omega

theorem covered_one (sep : Separate ms) (mem : m ∈ ms) (inside : m.Contains page) :
    covered ms page 1 = 1 := by
  have small : page + 1 < 2 ^ 32 := by
    have high := inside.2
    have below := (sep.fits m mem).below
    omega
  obtain ⟨l, l', rfl⟩ := append_of_mem mem
  obtain ⟨fits, apart, rest⟩ := separate_middle.mp sep
  have skip : ∀ (ms : List MemMapping) (n : ℕ), (∀ m' ∈ ms, m' ∈ l ++ l') →
      ms.foldl (fun n m => if m.isProtected page 1 then
        wrap32 (n + (m.protEnd page 1 - m.protStart page)) else n) n = n := by
    intro ms n others
    induction ms with
    | nil => rfl
    | cons m' ms ih =>
      obtain ⟨here, later⟩ := forall_mem_cons.mp others
      have outside : ¬m'.isProtected page 1 := by
        rw [isProtected_one (rest.fits m' here) small]
        exact apart m' here page inside
      rw [foldl_cons, if_neg outside]
      exact ih later
  unfold covered
  rw [foldl_append, foldl_cons, skip l 0 fun m' => mem_append_left _,
    if_pos ((isProtected_one fits small).mpr inside), skip l' _ fun m' => mem_append_right _]
  have next := wrap32_eq small
  have low := inside.1
  have high := inside.2
  unfold protStart protEnd
  rw [ending_eq fits.below, next]
  have size : (if m.pagenum + m.pages > page + 1 then page + 1 else m.pagenum + m.pages) -
      (if m.pagenum < page then page else m.pagenum) = 1 := by
    split_ifs <;> omega
  rw [size]
  rfl

theorem splitBelow_inside (start : ℕ) (low : m.pagenum ≤ start) (high : start < m.pagenum + m.pages) :
    (m.splitBelow start).2.Contains start ∧ (m.splitBelow start).2.load = m.load := by
  unfold splitBelow MemMapping.Contains
  split
  · exact ⟨⟨le_rfl, by dsimp only; omega⟩, rfl⟩
  · exact ⟨⟨low, high⟩, rfl⟩

theorem splitAbove_inside {ending : ℕ} (contains : m.Contains page) (before : page < ending) :
    (m.splitAbove ending).2.Contains page ∧ (m.splitAbove ending).2.load = m.load := by
  have low := contains.1
  unfold splitAbove
  split_ifs
  · exact ⟨⟨low, by dsimp only; omega⟩, rfl⟩
  · exact ⟨contains, rfl⟩

theorem protectParts_one (fits : m.Fits) (inside : m.Contains page) :
    m.protectParts page 1 = ((m.splitBelow page).1 ++ ((m.splitBelow page).2.splitAbove (page + 1)).1,
      ((m.splitBelow page).2.splitAbove (page + 1)).2) := by
  have low := inside.1
  have high := inside.2
  have below := fits.below
  have start : m.protStart page = page := by
    unfold protStart
    split_ifs <;> omega
  have ending : m.protEnd page 1 = page + 1 := by
    unfold protEnd
    rw [ending_eq below, wrap32_eq (by omega)]
    split_ifs <;> omega
  unfold protectParts
  rw [start, ending]

section

variable [LowTables] {q q' : Process}

theorem protectLoop_kin (grants : Grants) (pagenum : ℕ) (prot : Prot)
    (fits : ∀ m ∈ ms, m.Fits) (small : pages < 2 ^ 32) (t : PageTables) :
    ∀ y ∈ (protectLoop grants pagenum pages prot ms t).1 ++
      (protectLoop grants pagenum pages prot ms t).2.1, ∃ m ∈ ms, Kin m y := by
  intro y mem
  obtain ⟨m, listed, source⟩ := protectLoop_from t mem
  refine ⟨m, listed, ?_⟩
  rcases source with ⟨rfl, -⟩ | ⟨met, part | rfl⟩
  · exact .refl (fits y listed)
  · exact protectParts_kin (fits m listed) small met y (mem_cons_of_mem _ part)
  · have inside := protectParts_kin (fits m listed) small met _ mem_cons_self
    exact inside.trans (setProtection_kin (inside.part.fits (fits m listed)) prot)

/-! ## A page after later protections -/

/-- What later protections that allow reading keep of a page. -/
structure Reprotected (page : ℕ) (q q' : Process) : Prop where
  separate : Separate q'.mappings
  present : (q'.tables.get page).present = (q.tables.get page).present
  pagePpn : (q'.tables.get page).pagePpn = (q.tables.get page).pagePpn
  records : ∀ x ∈ q'.mappings, x.Contains page →
    recordsOf q'.mappings page = recordsOf q.mappings page
  kin : ∀ x ∈ q'.mappings, ∃ m ∈ q.mappings, Kin m x

theorem protect_reprotected (sep : Separate q.mappings) (grants : Grants) (pagenum : ℕ)
    (small : pages < 2 ^ 32) {prot : Prot} (reading : prot ≠ .none) (page : ℕ) :
    Reprotected page q (q.protect grants pagenum pages prot).2 := by
  have sep' : Separate (q.protect grants pagenum pages prot).2.mappings :=
    protect_separate sep grants small prot
  unfold Process.protect at sep' ⊢
  split_ifs at sep' ⊢ with uncovered
  · exact ⟨sep, rfl, rfl, fun _ _ _ => rfl, fun x mem => ⟨x, mem, .refl (sep.fits x mem)⟩⟩
  · have cut := protectLoop_cut grants pagenum prot sep.fits small q.tables
    have entry : ((protectLoop grants pagenum pages prot q.mappings q.tables).2.2.get page).present =
        (q.tables.get page).present ∧
        ((protectLoop grants pagenum pages prot q.mappings q.tables).2.2.get page).pagePpn =
        (q.tables.get page).pagePpn := by
      rcases protectLoop_get grants pagenum prot sep small q.tables page with
        ⟨same, -⟩ | ⟨m, -, -, -, change⟩
      · rw [same]
        exact ⟨rfl, rfl⟩
      · exact change.readable reading
    refine ⟨sep', entry.1, entry.2, fun x mem inside => ?_,
      protectLoop_kin grants pagenum prot sep.fits small q.tables⟩
    obtain ⟨m, -, -, -, same⟩ := cut.recordsOf sep mem inside
    exact same

theorem reprotect_reprotected (sep : Separate q.mappings) (later : List Later) (page : ℕ) :
    Reprotected page q (q.reprotect later) := by
  induction later generalizing q with
  | nil => exact ⟨sep, rfl, rfl, fun _ _ _ => rfl, fun x mem => ⟨x, mem, .refl (sep.fits x mem)⟩⟩
  | cons l later ih =>
    have reading : l.prot ≠ .none := by
      unfold Later.prot
      split_ifs <;> simp
    have first := protect_reprotected sep l.grants l.pagenum.toNat l.pages.toNat_lt reading page
    have rest := ih first.separate
    refine ⟨rest.separate, rest.present.trans first.present, rest.pagePpn.trans first.pagePpn,
      fun x mem inside => ?_, fun x mem => ?_⟩
    · obtain ⟨m, mem', kin⟩ := rest.kin x mem
      exact (rest.records x mem inside).trans (first.records m mem' (kin.part.contains inside))
    · obtain ⟨m, mem', kin⟩ := rest.kin x mem
      obtain ⟨m', mem'', kin'⟩ := first.kin m mem'
      exact ⟨m', mem'', kin'.trans kin⟩

/-! ## Protecting one page -/

theorem protectLoop_mem (grants : Grants) (prot : Prot) (valid : prot ≠ .invalid)
    (mem : m ∈ ms) (met : m.isProtected pagenum pages) (t : PageTables) :
    (m.protectParts pagenum pages).2.setProtection prot ∈
        (protectLoop grants pagenum pages prot ms t).1 ∧
      ∀ y ∈ (m.protectParts pagenum pages).1,
        y ∈ (protectLoop grants pagenum pages prot ms t).2.1 := by
  induction ms generalizing t with
  | nil => cases mem
  | cons m' ms ih =>
    unfold protectLoop
    rcases mem_cons.mp mem with rfl | later
    · rw [if_pos met]
      dsimp only
      rw [if_neg valid]
      exact ⟨mem_cons_self, fun y part => mem_append_left _ part⟩
    · by_cases met' : m'.isProtected pagenum pages
      · rw [if_pos met']
        dsimp only
        rw [if_neg valid]
        obtain ⟨inside, parts⟩ := ih later (protectTables grants prot _ t)
        exact ⟨mem_cons_of_mem _ inside, fun y part => mem_append_right _ (parts y part)⟩
      · rw [if_neg met']
        obtain ⟨inside, parts⟩ := ih later t
        exact ⟨mem_cons_of_mem _ inside, parts⟩

def readOne (page : ℕ) : Later := ⟨.nothing, UInt32.ofNat page, 1, false⟩

theorem readOne_mem (sep : Separate q.mappings) (mem : m ∈ q.mappings) (inside : m.Contains page) :
    (m.protectParts page 1).2.setProtection .read ∈ (q.reprotect [readOne page]).mappings ∧
      ∀ y ∈ (m.protectParts page 1).1, y ∈ (q.reprotect [readOne page]).mappings := by
  have small : page + 1 < 2 ^ 32 := by
    have high := inside.2
    have below := (sep.fits m mem).below
    omega
  have number : (UInt32.ofNat page).toNat = page := by
    exact Nat.mod_eq_of_lt (by omega)
  have met := (isProtected_one (sep.fits m mem) small).mpr inside
  have called : q.reprotect [readOne page] = (q.protect .nothing page 1 .read).2 := by
    simp only [Process.reprotect, foldl_cons, foldl_nil, readOne, number]
    rfl
  obtain ⟨changed, parts⟩ := protectLoop_mem .nothing .read (by simp) mem met q.tables
  rw [called]
  unfold Process.protect
  rw [if_neg (by rw [covered_one sep mem inside]; omega)]
  exact ⟨mem_append_left _ changed, fun y part => mem_append_right _ (parts y part)⟩

/-- A page that is protected by itself can be read, and keeps `load`. -/
theorem readOne_readable (sep : Separate q.mappings) (mem : m ∈ q.mappings)
    (inside : m.Contains page) :
    ∃ x ∈ (q.reprotect [readOne page]).mappings, x.Contains page ∧ x.read ∧ x.load = m.load := by
  obtain ⟨first, load⟩ := splitBelow_inside page inside.1 inside.2
  obtain ⟨second, load'⟩ := splitAbove_inside first (Nat.lt_succ_self page)
  have listed := (readOne_mem sep mem inside).1
  rw [protectParts_one (sep.fits m mem) inside] at listed
  exact ⟨_, listed, second, rfl, load'.trans load⟩

/-- The pages behind the first one lose `load` when the first one is protected by itself. -/
theorem readOne_behind (sep : Separate q.mappings) (mem : m ∈ q.mappings)
    (inside : m.Contains page) (behind : m.pagenum < page) :
    ∃ x ∈ (q.reprotect [readOne m.pagenum]).mappings, x.Contains page ∧ x.read ∧ x.load = 0 := by
  have fits := sep.fits m mem
  have high := inside.2
  have below := fits.below
  have contains : m.Contains m.pagenum := ⟨le_rfl, by omega⟩
  have whole : m.splitBelow m.pagenum = ([], m) := if_neg (lt_irrefl _)
  have cut : m.pagenum + 1 < m.ending := by
    rw [ending_eq below]
    omega
  have lower : wrap32 (m.pagenum + (m.pagenum + 1 - m.pagenum)) = m.pagenum + 1 := by
    rw [Nat.add_sub_cancel_left, wrap32_eq (by omega)]
  have listed := (readOne_mem sep mem contains).2
  rw [protectParts_one fits contains, whole, nil_append] at listed
  unfold splitAbove at listed
  rw [if_pos cut] at listed
  dsimp only at listed
  rw [lower] at listed
  refine ⟨_, listed _ (mem_singleton_self _), ⟨?_, ?_⟩, rfl, rfl⟩
  · exact behind
  · dsimp only [create]
    omega

end

end JeoKernel.AddressSpace
