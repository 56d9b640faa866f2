import JeoKernel.Exec.AddressSpace

/-!
# Entries of page tables

A missing table reads as zeros, and a table that is allocated is cleared: where all tables are below
4 GiB, what `Pageentry` does is seen in the entry of its page alone.
-/

namespace JeoKernel.AddressSpace

open Loop PageTables

section

variable [TableMemory]

def PageTables.get (t : PageTables) (page : ℕ) : PageEntry := (t.pageentry page).getD .zero

variable {t t' t₁ t₂ : PageTables} {grants : Grants} {page lo hi i : ℕ} {func : PageEntry → PageEntry}

theorem get_of_userPage (user : userPage page) :
    t.get page = if t.leaf (page / 512) then t.entry page else .zero := by
  unfold PageTables.get pageentry
  split_ifs <;> simp_all

theorem get_of_not_userPage (outside : ¬userPage page) : t.get page = .zero := by
  simp [PageTables.get, pageentry, outside]

theorem get_congr (leaf : t'.leaf (page / 512) = t.leaf (page / 512))
    (entry : t'.entry page = t.entry page) : t'.get page = t.get page := by
  unfold PageTables.get pageentry
  rw [leaf, entry]

theorem mappedTable_eq (low : TableMemory.top ≤ 2 ^ 20) (page : ℕ) (n : Fin TableMemory.top) :
    mappedTable page n = n := by
  have small := n.isLt
  unfold mappedTable wrap32
  split_ifs
  · rfl
  · rw [Nat.mod_eq_of_lt (by omega), Nat.mul_div_cancel _ (by decide)]

theorem isMapped_eq (low : TableMemory.top ≤ 2 ^ 20) (t : PageTables) (page : ℕ) :
    t.isMapped page = t.leaf (page / 512) := by
  unfold isMapped leaf
  cases t.table (page / 512) with
  | none => rfl
  | some n => exact decide_eq_true (mappedTable_eq low page n)

theorem makeLeaf_get (low : TableMemory.top ≤ 2 ^ 20) (made : t.makeLeaf grants page = some t')
    (r : ℕ) : t'.get r = t.get r := by
  unfold makeLeaf at made
  split_ifs at made with outside present
  · rw [← Option.some.inj made]
  · obtain ⟨n, granted, rfl⟩ := Option.map_eq_some_iff.mp made
    by_cases same : r / 512 = page / 512
    · by_cases user : userPage r
      · rw [get_of_userPage user, get_of_userPage user]
        simp [same, present, mappedTable_eq low]
      · rw [get_of_not_userPage user, get_of_not_userPage user]
    · exact get_congr (by simp [leaf, same]) (if_neg same)

theorem makeLeaf_present (made : t.makeLeaf grants page = some t') :
    userPage page ∧ t'.leaf (page / 512) := by
  unfold makeLeaf at made
  split_ifs at made with outside present
  · cases made
    exact ⟨by simpa using outside, present⟩
  · obtain ⟨n, granted, rfl⟩ := Option.map_eq_some_iff.mp made
    exact ⟨by simpa using outside, by simp [leaf]⟩

theorem modify_get (low : TableMemory.top ≤ 2 ^ 20) (done : t.modify grants page func = some t')
    (r : ℕ) : t'.get r = if r = page then func (t.get r) else t.get r := by
  obtain ⟨made, leaf, rfl⟩ := Option.map_eq_some_iff.mp done
  obtain ⟨user, present⟩ := makeLeaf_present leaf
  rw [← makeLeaf_get low leaf r, isMapped_eq low, if_pos present]
  by_cases same : r = page
  · subst same
    rw [if_pos rfl, get_of_userPage user, get_of_userPage user]
    have present : (made.table (r / 512)).isSome := present
    simp [PageTables.leaf, present]
  · rw [if_neg same]
    exact get_congr rfl (Function.update_of_ne same ..)

theorem modify_none (failed : t.modify grants page func = none) : t.get page = .zero := by
  have leaf := Option.map_eq_none_iff.mp failed
  unfold makeLeaf at leaf
  split_ifs at leaf with outside present
  · exact get_of_not_userPage (by simpa using outside)
  · rw [get_of_userPage (by simpa using outside), if_neg present]

/-- Where all tables are below 4 GiB, the entries of the pages from `lo` to `i` are changed and no
others. -/
def ChangedUpTo (func : PageEntry → PageEntry) (lo i : ℕ) (t t' : PageTables) : Prop :=
  TableMemory.top ≤ 2 ^ 20 →
    ∀ r, t'.get r = if lo ≤ r ∧ r < i then func (t.get r) else t.get r

theorem changedUpTo_refl : ChangedUpTo func lo lo t t := fun _ r => by
  rw [if_neg (by omega)]

theorem ChangedUpTo.modify (h : ChangedUpTo func lo i t t₁) (le : lo ≤ i)
    (done : t₁.modify grants i func = some t₂) : ChangedUpTo func lo (i + 1) t t₂ := by
  intro small r
  rw [modify_get small done r, h small r]
  split_ifs <;> first | rfl | omega

theorem modifyRange_get (grants : Grants) (func : PageEntry → PageEntry) (le : lo ≤ hi)
    (bound : hi ≤ 2 ^ 32) :
    Post (ChangedUpTo func lo hi t) (fun t' => ∃ i, lo ≤ i ∧ i < hi ∧ ChangedUpTo func lo i t t')
      (modifyRange grants func lo hi t) := by
  apply forRange_post (I := fun i => ChangedUpTo func lo i t) le
  · intro i t₁ low high earlier
    have small : wrap32 i = i := Nat.mod_eq_of_lt (by omega)
    rw [small]
    split
    · next done => exact earlier.modify low done
    · exact ⟨i, low, high, earlier⟩
  · exact changedUpTo_refl

/-! ## Loops that stop at a failure -/

theorem modify_isSome_iff (t : PageTables) (grants : Grants) (page : ℕ)
    (func : PageEntry → PageEntry) :
    (t.modify grants page func).isSome ↔ userPage page ∧ (t.leaf (page / 512) ∨ grants page) := by
  unfold PageTables.modify makeLeaf
  split_ifs with outside present <;> simp_all

theorem modify_leaf (done : t.modify grants page func = some t') (k : ℕ) :
    t'.leaf k ↔ t.leaf k ∨ page / 512 = k := by
  obtain ⟨made, leaf, rfl⟩ := Option.map_eq_some_iff.mp done
  have same : (if made.isMapped page then
      ⟨made.table, Function.update made.entry page (func (made.entry page))⟩
      else made).leaf k = made.leaf k := by
    split_ifs <;> rfl
  rw [same]
  unfold makeLeaf at leaf
  split_ifs at leaf with outside present
  · cases leaf
    refine ⟨.inl, fun has => has.elim id ?_⟩
    rintro rfl
    exact present
  · obtain ⟨n, granted, rfl⟩ := Option.map_eq_some_iff.mp leaf
    by_cases same : page / 512 = k
    · simp [same, PageTables.leaf]
    · simp [same, PageTables.leaf, Function.update_of_ne (Ne.symm same)]

/-- `Pageentry` finds or makes the table of page `r`, in a loop that started with page `lo` and came
to page `r`. -/
def CanEnter (t : PageTables) (grants : Grants) (lo r : ℕ) : Prop :=
  userPage (wrap32 r) ∧ (t.leaf (wrap32 r / 512) ∨ grants (wrap32 r) ∨
    ∃ r', lo ≤ r' ∧ r' < r ∧ wrap32 r' / 512 = wrap32 r / 512)

/-- The loop that starts with page `lo` comes to page `page` and changes its entry. -/
def Entered (t : PageTables) (grants : Grants) (lo page : ℕ) : Prop :=
  ∀ r, lo ≤ r → r ≤ page → CanEnter t grants lo r

end

section

variable [LowTables] {t t' t₁ t₂ : PageTables} {grants : Grants} {page lo hi i : ℕ}
  {func : PageEntry → PageEntry}

structure EnteredUpTo (grants : Grants) (func : PageEntry → PageEntry) (lo i : ℕ)
    (t t' : PageTables) : Prop where
  entered : ∀ r, lo ≤ r → r < i → CanEnter t grants lo r
  leaf : ∀ k, t'.leaf k ↔ t.leaf k ∨ ∃ r, lo ≤ r ∧ r < i ∧ wrap32 r / 512 = k
  inside : ∀ r, lo ≤ r → r < i → t'.get (wrap32 r) = func (t.get (wrap32 r))
  outside : ∀ page, (∀ r, lo ≤ r → r < i → wrap32 r ≠ page) → t'.get page = t.get page

theorem enteredUpTo_refl : EnteredUpTo grants func lo lo t t :=
  ⟨fun r low high => by omega, fun k => ⟨.inl, fun has => has.elim id (by rintro ⟨r, _, _, _⟩; omega)⟩,
    fun r low high => by omega, fun _ _ => rfl⟩

theorem EnteredUpTo.canEnter_iff (h : EnteredUpTo grants func lo i t t') :
    CanEnter t grants lo i ↔ (t'.modify grants (wrap32 i) func).isSome := by
  rw [modify_isSome_iff, h.leaf, CanEnter, or_assoc]
  exact and_congr_right fun _ => or_congr_right or_comm

theorem EnteredUpTo.modify (h : EnteredUpTo grants func lo i t t₁)
    (again : ∀ e, func (func e) = func e) (le : lo ≤ i)
    (done : t₁.modify grants (wrap32 i) func = some t₂) :
    EnteredUpTo grants func lo (i + 1) t t₂ := by
  have here : CanEnter t grants lo i := h.canEnter_iff.mpr (done ▸ rfl)
  refine ⟨fun r low high => ?_, fun k => ?_, fun r low high => ?_, fun page other => ?_⟩
  · rcases Nat.lt_succ_iff_lt_or_eq.mp high with before | rfl
    · exact h.entered r low before
    · exact here
  · rw [modify_leaf done, h.leaf, or_assoc]
    refine or_congr_right ⟨?_, ?_⟩
    · rintro (⟨r, low, high, same⟩ | same)
      · exact ⟨r, low, by omega, same⟩
      · exact ⟨i, le, by omega, same⟩
    · rintro ⟨r, low, high, same⟩
      rcases Nat.lt_succ_iff_lt_or_eq.mp high with before | rfl
      · exact .inl ⟨r, low, before, same⟩
      · exact .inr same
  · rw [modify_get LowTables.low done]
    by_cases seen : ∃ q, lo ≤ q ∧ q < i ∧ wrap32 q = wrap32 r
    · obtain ⟨q, low', before, same⟩ := seen
      have entry := h.inside q low' before
      rw [same] at entry
      split_ifs
      · rw [entry, again]
      · exact entry
    · -- the loop has come to the page for the first time
      have last : r = i := by
        by_contra other
        exact seen ⟨r, low, by omega, rfl⟩
      rw [if_pos (by rw [last]), h.outside]
      exact fun q low' before same => seen ⟨q, low', before, same⟩
  · rw [modify_get LowTables.low done, if_neg (fun same => other i le (by omega) same.symm)]
    exact h.outside page fun r low high => other r low (by omega)

theorem modifyRange_entered (grants : Grants) (again : ∀ e, func (func e) = func e)
    (le : lo ≤ hi) (t : PageTables) :
    Post (EnteredUpTo grants func lo hi t)
      (fun t' => ∃ i, lo ≤ i ∧ i < hi ∧ ¬CanEnter t grants lo i ∧ EnteredUpTo grants func lo i t t')
      (modifyRange grants func lo hi t) := by
  apply forRange_post (I := fun i => EnteredUpTo grants func lo i t) le
  · intro i t₁ low high earlier
    split
    · next done => exact earlier.modify again low done
    · next failed =>
      refine ⟨i, low, high, ?_, earlier⟩
      rw [earlier.canEnter_iff, failed]
      exact Bool.false_ne_true
  · exact enteredUpTo_refl

section

variable (h : EnteredUpTo grants func lo i t t')

include h

theorem EnteredUpTo.entered_iff {q : ℕ} (stop : ¬CanEnter t grants lo i) (le : lo ≤ i) :
    Entered t grants lo q ↔ q < i := by
  constructor
  · intro reached
    by_contra behind
    exact stop (reached i le (by omega))
  · exact fun before r low high => h.entered r low (by omega)

/-- A loop that has failed leaves the entries of some pages alone exactly where those it came to were
already as it makes them. -/
theorem EnteredUpTo.same_iff (stop : ¬CanEnter t grants lo i) (le : lo ≤ i) (P : ℕ → Prop) :
    (∀ page, P page → t'.get page = t.get page) ↔
      ∀ q, lo ≤ q → Entered t grants lo q → P (wrap32 q) →
        func (t.get (wrap32 q)) = t.get (wrap32 q) := by
  constructor
  · intro same q low reached holds
    rw [← h.inside q low ((h.entered_iff stop le).mp reached)]
    exact same _ holds
  · intro fixed page holds
    by_cases seen : ∃ q, lo ≤ q ∧ q < i ∧ wrap32 q = page
    · obtain ⟨q, low, before, rfl⟩ := seen
      rw [h.inside q low before]
      exact fixed q low ((h.entered_iff stop le).mpr before) holds
    · exact h.outside page fun q low before same => seen ⟨q, low, before, same⟩

end

/-- What a loop that ignores failures has made of an entry. -/
def Modified (func : Option (PageEntry → PageEntry)) (e e' : PageEntry) : Prop :=
  (e' = e ∧ (func = none ∨ e = .zero)) ∨ ∃ f, func = some f ∧ e' = f e

theorem tryModify_get (t : PageTables) (grants : Grants) (page : ℕ)
    (func : Option (PageEntry → PageEntry)) (r : ℕ) :
    if r = page then Modified func (t.get r) ((t.tryModify grants page func).get r)
    else (t.tryModify grants page func).get r = t.get r := by
  unfold tryModify
  cases func with
  | none =>
    split_ifs
    · exact .inl ⟨rfl, .inl rfl⟩
    · rfl
  | some f =>
    dsimp only
    cases done : t.modify grants page f with
    | none =>
      split_ifs with same
      · exact .inl ⟨rfl, .inr (same ▸ modify_none done)⟩
      · rfl
    | some t₁ =>
      split_ifs with same
      · exact .inr ⟨f, rfl, (modify_get LowTables.low done r).trans (if_pos same)⟩
      · exact (modify_get LowTables.low done r).trans (if_neg same)

theorem tryModifyRange_get (t : PageTables) (grants : Grants)
    (func : ℕ → Option (PageEntry → PageEntry)) (lo : ℕ) (bound : hi ≤ 2 ^ 32) (r : ℕ) :
    if lo ≤ r ∧ r < hi then Modified (func r) (t.get r) ((tryModifyRange grants func lo hi t).get r)
    else (tryModifyRange grants func lo hi t).get r = t.get r := by
  unfold tryModifyRange
  induction n : hi - lo generalizing lo t with
  | zero =>
    rw [if_neg (by omega)]
    rfl
  | succ k ih =>
    rw [List.range'_succ, List.foldl_cons, show wrap32 lo = lo from Nat.mod_eq_of_lt (by omega)]
    have first := tryModify_get t grants lo (func lo) r
    have rest := ih (t.tryModify grants lo (func lo)) (lo + 1) (by omega)
    by_cases here : r = lo
    · rw [if_neg (by omega)] at rest
      rw [if_pos here] at first
      rw [if_pos (by omega), rest, here]
      exact here ▸ first
    · rw [if_neg here] at first
      rw [first] at rest
      simpa only [show (lo + 1 ≤ r ∧ r < hi) ↔ lo ≤ r ∧ r < hi by omega] using rest

end

end JeoKernel.AddressSpace
