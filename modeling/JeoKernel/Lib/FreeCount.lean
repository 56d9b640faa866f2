import Mathlib.Data.Finset.Card
import JeoKernel.Lib.Tally

/-!
# Counters of clear bits

A pool is a list of groups, each with `n` bits and a 32-bit counter of its clear bits, and one counter
for all of them.  `FreeCount` says that the counters are right; it is kept when a clear bit is taken
and the counters go down, and when a set bit is put back and the counters go up.
-/

namespace JeoKernel

open List

/-- The number of clear bits below `n`. -/
def clearCount (n : ℕ) (bit : ℕ → Bool) : ℕ := ((Finset.range n).filter (bit · = false)).card

theorem clearCount_le (n : ℕ) (bit : ℕ → Bool) : clearCount n bit ≤ n :=
  (Finset.card_filter_le _ _).trans_eq (Finset.card_range n)

theorem clearCount_pos_iff {n : ℕ} {bit : ℕ → Bool} :
    0 < clearCount n bit ↔ ∃ b < n, bit b = false := by
  rw [clearCount, Finset.card_pos]
  constructor
  · rintro ⟨b, mem⟩
    obtain ⟨below, clear⟩ := Finset.mem_filter.mp mem
    exact ⟨b, Finset.mem_range.mp below, clear⟩
  · rintro ⟨b, below, clear⟩
    exact ⟨b, Finset.mem_filter.mpr ⟨Finset.mem_range.mpr below, clear⟩⟩

theorem clearCount_take {n b : ℕ} {bit bit' : ℕ → Bool} (below : b < n) (clear : bit b = false)
    (taken : ∀ j, bit' j = if b = j then true else bit j) :
    clearCount n bit = clearCount n bit' + 1 := by
  have mem : b ∈ (Finset.range n).filter (bit · = false) :=
    Finset.mem_filter.mpr ⟨Finset.mem_range.mpr below, clear⟩
  have rest : (Finset.range n).filter (bit' · = false) =
      ((Finset.range n).filter (bit · = false)).erase b := by
    ext j
    rw [Finset.mem_erase, Finset.mem_filter, Finset.mem_filter, taken]
    split_ifs with here
    · simp [here]
    · exact ⟨fun h => ⟨Ne.symm here, h⟩, fun h => h.2⟩
  rw [clearCount, clearCount, rest, Finset.card_erase_add_one mem]

namespace FreeCount

variable {γ : Type*} {groups : List γ}

theorem sum_map_set {i : ℕ} {g : γ} (g' : γ) (f : γ → ℕ) (at_i : groups[i]? = some g) :
    ((groups.set i g').map f).sum + f g = (groups.map f).sum + f g' :=
  Tally.tally_set at_i f g'

theorem le_sum_map {g : γ} (f : γ → ℕ) (mem : g ∈ groups) : f g ≤ (groups.map f).sum :=
  single_le_sum (by simp) _ (mem_map_of_mem mem)

theorem sum_map_le (n : ℕ) (bit : γ → ℕ → Bool) (groups : List γ) :
    (groups.map fun g => clearCount n (bit g)).sum ≤ groups.length * n := by
  induction groups with
  | nil => simp
  | cons g groups ih =>
    have := clearCount_le n (bit g)
    simp only [map_cons, sum_cons, length_cons, Nat.succ_mul]
    omega

end FreeCount

open FreeCount

/-- The counters of the groups and of the pool are right. -/
structure FreeCount {γ : Type*} (n : ℕ) (bit : γ → ℕ → Bool) (free : γ → UInt32) (total : UInt32)
    (groups : List γ) : Prop where
  free : ∀ g ∈ groups, (free g).toNat = clearCount n (bit g)
  total : total.toNat = (groups.map fun g => clearCount n (bit g)).sum

namespace FreeCount

variable {γ : Type*} {n i b : ℕ} {bit : γ → ℕ → Bool} {free : γ → UInt32} {total : UInt32}
  {groups : List γ} {g g' : γ}

theorem toNat_sub_one {x : UInt32} (pos : 0 < x.toNat) : (x - 1).toNat = x.toNat - 1 := by
  rw [UInt32.toNat_sub_of_le _ _ (by rw [UInt32.le_iff_toNat_le]; exact pos)]
  rfl

theorem toNat_add_one {x : UInt32} (small : x.toNat + 1 < 2 ^ 32) : (x + 1).toNat = x.toNat + 1 := by
  exact Nat.mod_eq_of_lt small

section

variable (h : FreeCount n bit free total groups)

include h

theorem replace {total' : UInt32} (at_i : groups[i]? = some g)
    (counter : (free g').toNat = clearCount n (bit g'))
    (sum : total'.toNat + clearCount n (bit g) = total.toNat + clearCount n (bit g')) :
    FreeCount n bit free total' (groups.set i g') := by
  constructor
  · intro g₁ mem₁
    rcases mem_or_eq_of_mem_set mem₁ with mem₁ | rfl
    · exact h.free g₁ mem₁
    · exact counter
  · have := h.total
    have := sum_map_set g' (fun g => clearCount n (bit g)) at_i
    omega

theorem take (at_i : groups[i]? = some g) (below : b < n) (clear : bit g b = false)
    (taken : ∀ j, bit g' j = if b = j then true else bit g j) (counter : free g' = free g - 1) :
    FreeCount n bit free (total - 1) (groups.set i g') := by
  have here := h.free g (mem_of_getElem? at_i)
  have one := clearCount_take below clear taken
  have le := le_sum_map (fun g => clearCount n (bit g)) (mem_of_getElem? at_i)
  have all := h.total
  refine h.replace at_i ?_ ?_
  · rw [counter, toNat_sub_one (by omega)]
    omega
  · rw [toNat_sub_one (by omega)]
    omega

theorem put (small : groups.length * n < 2 ^ 32) (at_i : groups[i]? = some g) (below : b < n)
    (set : bit g b = true) (cleared : ∀ j, bit g' j = if b = j then false else bit g j)
    (counter : free g' = free g + 1) : FreeCount n bit free (total + 1) (groups.set i g') := by
  have here := h.free g (mem_of_getElem? at_i)
  have one : clearCount n (bit g') = clearCount n (bit g) + 1 := by
    refine clearCount_take below (by rw [cleared, if_pos rfl]) fun j => ?_
    rw [cleared]
    split_ifs with here
    · rw [← here, set]
    · rfl
  have sum := sum_map_set g' (fun g => clearCount n (bit g)) at_i
  have le := le_sum_map (fun g => clearCount n (bit g)) (mem_of_getElem? at_i)
  have bound := sum_map_le n bit (groups.set i g')
  rw [length_set] at bound
  have all := h.total
  refine h.replace at_i ?_ ?_
  · rw [counter, toNat_add_one (by omega)]
    omega
  · rw [toNat_add_one (by omega)]
    omega

theorem set_same (at_i : groups[i]? = some g) (same : bit g' = bit g) (counter : free g' = free g) :
    FreeCount n bit free total (groups.set i g') := by
  refine h.replace at_i ?_ (by rw [same])
  rw [counter, same, h.free g (mem_of_getElem? at_i)]

theorem exists_free (some_free : total ≠ 0) : ∃ g ∈ groups, free g ≠ 0 := by
  by_contra none
  simp only [not_exists, not_and, not_not] at none
  have zero : (groups.map fun g => clearCount n (bit g)).sum = 0 := by
    rw [sum_eq_zero_iff]
    intro count listed
    obtain ⟨g, mem, rfl⟩ := mem_map.mp listed
    exact (h.free g mem).symm.trans (by rw [none g mem]; rfl)
  exact some_free (UInt32.toNat_inj.mp (h.total.trans zero))

theorem exists_clear (mem : g ∈ groups) (some_free : free g ≠ 0) : ∃ b < n, bit g b = false := by
  rw [← clearCount_pos_iff, ← h.free g mem]
  exact Nat.pos_of_ne_zero fun zero => some_free (UInt32.toNat_inj.mp zero)

end

end FreeCount

end JeoKernel
