import Mathlib.Algebra.Order.Ring.Int
import Mathlib.Data.List.Infix

/-!
# Comparing strings

`compare` goes through the characters that both strings have and returns the first difference, narrowed
to a `char` with a sign.  If there is none, the lengths decide, and the two overloads differ.
-/

namespace JeoKernel.StrCompare

open List

/-- `char_type diff = s1[i] - s2[i]` -/
def diff (x y : Int8) : ℤ := (x - y).toInt

/-- `char_traits::compare`. -/
def traitsCompare : List Int8 → List Int8 → ℕ → ℤ
  | x :: s1, y :: s2, length + 1 =>
    if diff x y ≠ 0 then diff x y else traitsCompare s1 s2 length
  | _, _, _ => 0

def compare (s str : List Int8) : ℤ :=
  let comp := if s.length > str.length then str.length else s.length
  let diff := traitsCompare s str comp
  if diff = 0 ∧ s.length ≠ str.length then if s.length > str.length then 1 else -1
  else diff

/-- The overload for a buffer: `larger` is set if the buffer is the longer one. -/
def compareBuffer (s str : List Int8) : ℤ :=
  let len := if str.length > s.length then s.length else str.length
  let diff := traitsCompare s str len
  if diff = 0 ∧ str.length ≠ s.length then if str.length > s.length then 1 else -1
  else diff

/-- What the comparisons of three strings have to say for one order. -/
structure OneOrder (a b d : List Int8) : Prop where
  eq_iff : compare a b = 0 ↔ a = b
  sign : (compare a b).sign = -(compare b a).sign
  trans : compare a b ≤ 0 → compare b d ≤ 0 → compare a d ≤ 0
  proper : a <+: b → a ≠ b → compare a b < 0
  buffer : (compareBuffer a b).sign = (compare a b).sign

/-! ## The first characters -/

variable {a b d : List Int8} {x y z : Int8}

theorem diff_eq_zero : diff x y = 0 ↔ x = y := by
  rw [diff, ← Int8.toInt_inj, Int8.toInt_sub]
  have := x.le_toInt
  have := x.toInt_lt
  have := y.le_toInt
  have := y.toInt_lt
  simp only [Int.bmod]
  omega

theorem diff_swap (x y : Int8) : diff y x = if diff x y = -128 then -128 else -diff x y := by
  rw [diff, diff, Int8.toInt_sub, Int8.toInt_sub]
  simp only [Int.bmod]
  omega

theorem compare_nil_nil : compare [] [] = 0 ∧ compareBuffer [] [] = 0 := ⟨rfl, rfl⟩

theorem compare_nil_cons (y : Int8) (b : List Int8) :
    compare [] (y :: b) = -1 ∧ compareBuffer [] (y :: b) = 1 := by
  simp [compare, compareBuffer, traitsCompare]

theorem compare_cons_nil (x : Int8) (a : List Int8) :
    compare (x :: a) [] = 1 ∧ compareBuffer (x :: a) [] = -1 := by
  simp [compare, compareBuffer, traitsCompare]

theorem compare_cons_self (x : Int8) (a b : List Int8) :
    compare (x :: a) (x :: b) = compare a b ∧
      compareBuffer (x :: a) (x :: b) = compareBuffer a b := by
  unfold compare compareBuffer
  simp only [length_cons, gt_iff_lt, Nat.add_lt_add_iff_right, ← apply_ite (· + 1)]
  simp [traitsCompare, diff_eq_zero]

theorem compare_cons_of_ne (other : x ≠ y) (a b : List Int8) :
    compare (x :: a) (y :: b) = diff x y ∧ compareBuffer (x :: a) (y :: b) = diff x y := by
  unfold compare compareBuffer
  simp only [length_cons, gt_iff_lt, Nat.add_lt_add_iff_right, ← apply_ite (· + 1)]
  simp [traitsCompare, diff_eq_zero, other]

/-! ## The laws -/

theorem compare_eq_zero : compare a b = 0 ↔ a = b := by
  induction a generalizing b with
  | nil => cases b <;> simp [compare_nil_nil, compare_nil_cons]
  | cons x a ih =>
    cases b with
    | nil => simp [compare_cons_nil]
    | cons y b =>
      by_cases same : x = y
      · subst same
        simp [compare_cons_self, ih]
      · simp [compare_cons_of_ne same, diff_eq_zero, same]

theorem compare_neg_of_proper (proper : a <+: b) (other : a ≠ b) : compare a b < 0 := by
  induction a generalizing b with
  | nil =>
    cases b with
    | nil => exact absurd rfl other
    | cons y b => simp [compare_nil_cons]
  | cons x a ih =>
    obtain ⟨b, rfl⟩ := proper
    rw [cons_append, (compare_cons_self ..).1]
    exact ih (prefix_append a b) (by simpa using other)

theorem buffer_iff : (compareBuffer a b).sign = (compare a b).sign ↔ (a <+: b ∨ b <+: a → a = b) := by
  induction a generalizing b with
  | nil => cases b <;> simp [compare_nil_nil, compare_nil_cons]
  | cons x a ih =>
    cases b with
    | nil => simp [compare_cons_nil]
    | cons y b =>
      by_cases same : x = y
      · subst same
        simp [compare_cons_self, ih]
      · simp [compare_cons_of_ne same, cons_prefix_cons, same, Ne.symm same]

theorem sign_iff : (compare a b).sign = -(compare b a).sign ↔
    ∀ i x y, a.take i = b.take i → a[i]? = some x → b[i]? = some y → diff x y ≠ -128 := by
  induction a generalizing b with
  | nil => cases b <;> simp [compare_nil_nil, compare_nil_cons, compare_cons_nil]
  | cons x a ih =>
    cases b with
    | nil => simp [compare_nil_cons, compare_cons_nil]
    | cons y b =>
      rw [← Nat.and_forall_add_one]
      by_cases same : x = y
      · subst same
        simp [compare_cons_self, ih, diff_eq_zero.mpr]
      · have swap : (diff x y).sign = -(diff y x).sign ↔ diff x y ≠ -128 := by
          rw [diff_swap x y]
          split_ifs with half
          · exact iff_of_false (by rw [half]; decide) (not_not.mpr half)
          · simp [half]
        simpa [compare_cons_of_ne same, compare_cons_of_ne (Ne.symm same), same] using swap

theorem trans_iff
    (swaps : ∀ i x y, a.take i = b.take i → a[i]? = some x → b[i]? = some y → diff x y ≠ -128) :
    (compare a b ≤ 0 → compare b d ≤ 0 → compare a d ≤ 0) ↔
      ∀ i x y z, a.take i = b.take i → b.take i = d.take i → a[i]? = some x → b[i]? = some y →
        d[i]? = some z → diff x y < 0 → diff y z < 0 → diff x z ≤ 0 := by
  induction a generalizing b d with
  | nil => cases d <;> simp [compare_nil_nil, compare_nil_cons]
  | cons x a ih =>
    cases b with
    | nil => simp [compare_cons_nil]
    | cons y b =>
      cases d with
      | nil => simp [compare_cons_nil]
      | cons z d =>
        have first := swaps 0 x y rfl rfl rfl
        have swap := diff_swap x y
        rw [← Nat.and_forall_add_one]
        by_cases same : x = y
        · subst same
          by_cases same' : x = z
          · subst same'
            have rest := ih (b := b) (d := d) fun i x' y' agree => swaps (i + 1) x' y' (by simp [agree])
            simp [compare_cons_self, rest, diff_eq_zero.mpr]
          · simp [compare_cons_of_ne same', same', diff_eq_zero.mpr]
        · have differ := diff_eq_zero.not.mpr same
          rw [(compare_cons_of_ne same a b).1]
          by_cases same' : x = z
          · -- The two differences have different signs.
            subst same'
            rw [if_neg first] at swap
            have apart : diff x y ≤ 0 → ¬0 ≤ diff x y := by omega
            have apart' : diff x y < 0 → ¬0 < diff x y := by omega
            simp +contextual [compare_cons_of_ne (Ne.symm same), same, swap, apart, apart']
          · rw [(compare_cons_of_ne same' a d).1]
            by_cases same'' : y = z
            · subst same''
              simpa [same, diff_eq_zero.mpr] using fun le _ => le
            · have differ' := diff_eq_zero.not.mpr same''
              simp only [le_iff_lt_or_eq]
              simp [compare_cons_of_ne same'', same, differ, differ']

theorem oneOrder_iff (a b d : List Int8) : OneOrder a b d ↔
    (∀ i x y, a.take i = b.take i → a[i]? = some x → b[i]? = some y → diff x y ≠ -128) ∧
    (∀ i x y z, a.take i = b.take i → b.take i = d.take i → a[i]? = some x → b[i]? = some y →
      d[i]? = some z → diff x y < 0 → diff y z < 0 → diff x z ≤ 0) ∧
    (a <+: b ∨ b <+: a → a = b) := by
  constructor
  · intro order
    have swaps := sign_iff.mp order.sign
    exact ⟨swaps, (trans_iff swaps).mp order.trans, buffer_iff.mp order.buffer⟩
  · rintro ⟨swaps, steps, alike⟩
    exact ⟨compare_eq_zero, sign_iff.mpr swaps, (trans_iff swaps).mpr steps, compare_neg_of_proper,
      buffer_iff.mpr alike⟩

/-- The characters 127 and 255 are each below the other; 0 is below 100, 100 below 200 and 200 below 0;
and a buffer that the string is the start of is the smaller one. -/
theorem not_oneOrder :
    ¬OneOrder [127] [-1] [] ∧ ¬OneOrder [0] [100] [-56] ∧ ¬OneOrder [97] [97, 98] [] := by
  refine ⟨fun order => ?_, fun order => ?_, fun order => ?_⟩
  · exact absurd order.sign (by decide)
  · exact absurd (order.trans (by decide) (by decide)) (by decide)
  · exact absurd order.buffer (by decide)

end JeoKernel.StrCompare
