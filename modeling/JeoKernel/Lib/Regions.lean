import Mathlib.Algebra.Order.BigOperators.Group.List
import Mathlib.Algebra.Ring.Nat
import Mathlib.Order.Interval.Finset.Nat

/-!
# Regions of cells that are handed out

An allocator has cells `0, 1, 2, …`; some are reserved from the start, and regions of the others are
held.  `Regions reserved used held` says that the held regions are disjoint and that the used cells
are exactly the reserved ones and those of the held regions.
-/

namespace JeoKernel

open List

/-- The cells from `start` on. -/
structure Region where
  start : ℕ
  length : ℕ
  deriving DecidableEq

instance : Membership ℕ Region := ⟨fun r x => r.start ≤ x ∧ x < r.start + r.length⟩

namespace Region

theorem mem_def {r : Region} {x : ℕ} : x ∈ r ↔ r.start ≤ x ∧ x < r.start + r.length := Iff.rfl

instance (r : Region) (x : ℕ) : Decidable (x ∈ r) := inferInstanceAs (Decidable (_ ∧ _))

def Apart (r r' : Region) : Prop := ∀ x ∈ r, x ∉ r'

theorem Apart.symm {r r' : Region} (h : r.Apart r') : r'.Apart r := fun x mem mem' => h x mem' mem

instance : Std.Symm Apart := ⟨fun _ _ => Apart.symm⟩

end Region

/-- The held regions, and the cells in use. -/
structure Regions (reserved used : ℕ → Prop) (held : List Region) : Prop where
  nonempty : ∀ r ∈ held, 0 < r.length
  apart : held.Pairwise Region.Apart
  unreserved : ∀ r ∈ held, ∀ x ∈ r, ¬reserved x
  used : ∀ x, used x ↔ reserved x ∨ ∃ r ∈ held, x ∈ r

namespace Regions

variable {reserved used used' : ℕ → Prop} {held held' : List Region} {r : Region}

theorem nil (reserved : ℕ → Prop) : Regions reserved reserved [] :=
  ⟨by simp, .nil, by simp, by simp⟩

theorem perm (h : Regions reserved used held) (same : held.Perm held') :
    Regions reserved used held' where
  nonempty r mem := h.nonempty r (same.mem_iff.mpr mem)
  apart := h.apart.perm same fun apart => apart.symm
  unreserved r mem := h.unreserved r (same.mem_iff.mpr mem)
  used x := by simp only [h.used, same.mem_iff]

theorem take (h : Regions reserved used held) (nonempty : 0 < r.length) (free : ∀ x ∈ r, ¬used x)
    (taken : ∀ x, used' x ↔ used x ∨ x ∈ r) : Regions reserved used' (r :: held) where
  nonempty := forall_mem_cons.mpr ⟨nonempty, h.nonempty⟩
  apart := by
    refine pairwise_cons.mpr ⟨fun r' mem x here there => ?_, h.apart⟩
    exact free x here ((h.used x).mpr (.inr ⟨r', mem, there⟩))
  unreserved := forall_mem_cons.mpr
    ⟨fun x mem always => free x mem ((h.used x).mpr (.inl always)), h.unreserved⟩
  used x := by
    rw [taken, h.used, exists_mem_cons_iff, or_assoc]
    exact or_congr_right or_comm

theorem put (h : Regions reserved used (r :: held)) (freed : ∀ x, used' x ↔ used x ∧ x ∉ r) :
    Regions reserved used' held where
  nonempty r' mem := h.nonempty r' (mem_cons_of_mem _ mem)
  apart := (pairwise_cons.mp h.apart).2
  unreserved r' mem := h.unreserved r' (mem_cons_of_mem _ mem)
  used x := by
    rw [freed, h.used, exists_mem_cons_iff]
    constructor
    · rintro ⟨always | here | other, outside⟩
      · exact .inl always
      · exact absurd here outside
      · exact .inr other
    · rintro (always | ⟨r', mem, there⟩)
      · exact ⟨.inl always, fun here => h.unreserved r mem_cons_self x here always⟩
      · exact ⟨.inr (.inr ⟨r', mem, there⟩),
          fun here => (pairwise_cons.mp h.apart).1 r' mem x here there⟩

theorem card_used [DecidablePred used] {n : ℕ} (h : Regions (fun _ => False) used held)
    (inside : ∀ r ∈ held, r.start + r.length ≤ n) :
    ((Finset.range n).filter used).card = (held.map Region.length).sum := by
  induction held generalizing used with
  | nil =>
    rw [Finset.filter_false_of_mem fun x _ used => by simpa using (h.used x).mp used]
    rfl
  | cons r held ih =>
    obtain ⟨fits, inside⟩ := forall_mem_cons.mp inside
    have others : Regions (fun _ => False) (fun x => used x ∧ x ∉ r) held := h.put fun _ => Iff.rfl
    have rest := ih others inside
    have split : (Finset.range n).filter used =
        (Finset.range n).filter (fun x => used x ∧ x ∉ r) ∪
          Finset.Ico r.start (r.start + r.length) := by
      ext x
      have here : x ∈ r → used x := fun mem => (h.used x).mpr (.inr ⟨r, mem_cons_self, mem⟩)
      simp only [Finset.mem_filter, Finset.mem_range, Finset.mem_union, Finset.mem_Ico,
        ← Region.mem_def]
      constructor
      · rintro ⟨lt, mem⟩
        by_cases inr : x ∈ r
        · exact .inr inr
        · exact .inl ⟨lt, mem, inr⟩
      · rintro (⟨lt, mem, -⟩ | mem)
        · exact ⟨lt, mem⟩
        · exact ⟨lt_of_lt_of_le mem.2 fits, here mem⟩
    have disjoint : Disjoint ((Finset.range n).filter fun x => used x ∧ x ∉ r)
        (Finset.Ico r.start (r.start + r.length)) := by
      refine Finset.disjoint_left.mpr fun x mem mem' => ?_
      exact (Finset.mem_filter.mp mem).2.2 (Finset.mem_Ico.mp mem')
    rw [split, Finset.card_union_of_disjoint disjoint, rest, Nat.card_Ico, map_cons, sum_cons]
    omega

end Regions

end JeoKernel
