import Mathlib.Algebra.Order.BigOperators.Group.List
import Mathlib.Algebra.Order.Ring.Nat

/-!
# Tallies over a list of parties

What a counter of a protocol stands for is a sum over the parties: each place in the code counts for
so many.  A step moves one party, so that it changes a tally by what the old and the new place count
for.
-/

namespace JeoKernel.Tally

open List

variable {α : Type*} {f g : α → ℕ} {l : List α} {i : ℕ} {a : α}

def tally (f : α → ℕ) (l : List α) : ℕ := (l.map f).sum

theorem tally_eraseIdx (at_i : l[i]? = some a) (f : α → ℕ) :
    tally f (l.eraseIdx i) + f a = tally f l := by
  obtain ⟨bound, rfl⟩ := List.getElem?_eq_some_iff.mp at_i
  have sum := ((getElem_cons_eraseIdx_perm bound).map f).sum_nat
  rw [map_cons, sum_cons] at sum
  unfold tally
  omega

theorem tally_set (at_i : l[i]? = some a) (f : α → ℕ) (b : α) :
    tally f (l.set i b) + f a = tally f l + f b := by
  have old := tally_eraseIdx at_i f
  have new := tally_eraseIdx (List.getElem?_set_self (a := b) (List.getElem?_eq_some_iff.mp at_i).1) f
  rw [eraseIdx_set_eq] at new
  omega

theorem tally_append (f : α → ℕ) (l l' : List α) : tally f (l ++ l') = tally f l + tally f l' := by
  simp [tally]

theorem le_tally (at_i : l[i]? = some a) (f : α → ℕ) : f a ≤ tally f l :=
  single_le_sum (fun _ _ => Nat.zero_le _) _
    (mem_map.mpr ⟨a, mem_of_getElem? at_i, rfl⟩)

theorem tally_mono (le : ∀ a, f a ≤ g a) (l : List α) : tally f l ≤ tally g l :=
  sum_le_sum fun a _ => le a

theorem tally_le_length (le : ∀ a, f a ≤ 1) (l : List α) : tally f l ≤ l.length := by
  refine (tally_mono (g := fun _ => 1) le l).trans ?_
  simp [tally]

theorem tally_add (f g : α → ℕ) (l : List α) :
    tally f l + tally g l = tally (fun a => f a + g a) l := by
  induction l with
  | nil => rfl
  | cons a l ih =>
    simp only [tally, map_cons, sum_cons] at ih ⊢
    omega

theorem tally_eq_zero (none : ∀ a ∈ l, f a = 0) : tally f l = 0 := by
  unfold tally
  rw [map_congr_left none]
  simp

theorem exists_of_tally_pos (pos : 0 < tally f l) : ∃ (i : ℕ) (a : α), l[i]? = some a ∧ 0 < f a := by
  by_contra none
  push Not at none
  refine absurd (tally_eq_zero fun a mem => ?_) pos.ne'
  obtain ⟨i, at_i⟩ := mem_iff_getElem?.mp mem
  exact Nat.le_zero.mp (none i a at_i)

theorem tally_le_one (le : ∀ a, f a ≤ 1)
    (unique : ∀ (i j : ℕ) (a b : α), l[i]? = some a → l[j]? = some b → 0 < f a → 0 < f b → i = j) :
    tally f l ≤ 1 := by
  induction l with
  | nil => exact Nat.zero_le 1
  | cons c l ih =>
    have rest := ih fun i j a b at_i at_j pos pos' =>
      Nat.succ.inj (unique (i + 1) (j + 1) a b (by simpa using at_i) (by simpa using at_j) pos pos')
    have first := le c
    have split : tally f (c :: l) = f c + tally f l := by simp [tally]
    by_cases none : tally f l = 0
    · omega
    · obtain ⟨i, a, at_i, pos⟩ := exists_of_tally_pos (Nat.pos_of_ne_zero none)
      have other : f c = 0 := by
        by_contra pos'
        have same := unique 0 (i + 1) c a rfl (by simpa using at_i) (Nat.pos_of_ne_zero pos') pos
        omega
      omega

end JeoKernel.Tally
