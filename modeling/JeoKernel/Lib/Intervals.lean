import Mathlib.Algebra.Ring.Nat
import Mathlib.Order.Interval.Set.Basic

/-!
# Ordered lists of intervals

A list of half-open intervals as a set of numbers.  `Ordered` lists are strictly increasing and
disjoint; replacing a middle part of one by intervals that cover less, or that also cover a region
which lies in the gap, gives an ordered list again, and the set changes by exactly that region.
-/

namespace JeoKernel.Intervals

open List Set

structure Extent where
  start : ℕ
  ending : ℕ
  deriving DecidableEq

def Ordered (l : List Extent) : Prop :=
  (∀ r ∈ l, r.start < r.ending) ∧ l.Pairwise fun r r' => r.ending ≤ r'.start

def cover (l : List Extent) : Set ℕ := {x | ∃ r ∈ l, r.start ≤ x ∧ x < r.ending}

def Before (A B : Set ℕ) : Prop := ∀ x ∈ A, ∀ y ∈ B, x < y

variable {L R old new : List Extent} {region A B : Set ℕ}

theorem cover_append (L R : List Extent) : cover (L ++ R) = cover L ∪ cover R := by
  ext x
  simp only [cover, mem_append, mem_ofPred_eq, mem_union]
  constructor
  · rintro ⟨r, left | right, inside⟩
    · exact .inl ⟨r, left, inside⟩
    · exact .inr ⟨r, right, inside⟩
  · rintro (⟨r, mem, inside⟩ | ⟨r, mem, inside⟩)
    · exact ⟨r, .inl mem, inside⟩
    · exact ⟨r, .inr mem, inside⟩

@[simp] theorem mem_cover_nil (x : ℕ) : x ∈ cover [] ↔ False := by
  simp [cover]

@[simp] theorem mem_cover_cons (r : Extent) (l : List Extent) (x : ℕ) :
    x ∈ cover (r :: l) ↔ (r.start ≤ x ∧ x < r.ending) ∨ x ∈ cover l := by
  simp [cover]

theorem Before.mono {A' B' : Set ℕ} (h : Before A B) (left : A' ⊆ A) (right : B' ⊆ B) :
    Before A' B' :=
  fun x hx y hy => h x (left hx) y (right hy)

theorem Before.union_left {A' : Set ℕ} (h : Before A B) (h' : Before A' B) : Before (A ∪ A') B := by
  rintro x (left | right) y hy
  · exact h x left y hy
  · exact h' x right y hy

theorem Before.union_right {B' : Set ℕ} (h : Before A B) (h' : Before A B') :
    Before A (B ∪ B') := by
  rintro x hx y (left | right)
  · exact h x hx y left
  · exact h' x hx y right

theorem ordered_append :
    Ordered (L ++ R) ↔ Ordered L ∧ Ordered R ∧ Before (cover L) (cover R) := by
  simp only [Ordered, pairwise_append, forall_mem_append]
  constructor
  · rintro ⟨⟨leftNonempty, rightNonempty⟩, left, right, between⟩
    refine ⟨⟨leftNonempty, left⟩, ⟨rightNonempty, right⟩, ?_⟩
    rintro x ⟨r, mem, -, below⟩ y ⟨r', mem', above, -⟩
    have := between r mem r' mem'
    omega
  · rintro ⟨⟨leftNonempty, left⟩, ⟨rightNonempty, right⟩, between⟩
    refine ⟨⟨leftNonempty, rightNonempty⟩, left, right, fun r mem r' mem' => ?_⟩
    have nonempty := leftNonempty r mem
    have nonempty' := rightNonempty r' mem'
    have := between (r.ending - 1) ⟨r, mem, by omega, by omega⟩ r'.start
      ⟨r', mem', le_rfl, nonempty'⟩
    omega

theorem ordered_nil : Ordered [] := by simp [Ordered]

theorem ordered_singleton {r : Extent} (nonempty : r.start < r.ending) : Ordered [r] := by
  simpa [Ordered] using nonempty

theorem ordered_pair {r r' : Extent} (nonempty : r.start < r.ending) (le : r.ending ≤ r'.start)
    (nonempty' : r'.start < r'.ending) : Ordered [r, r'] := by
  simp [Ordered, nonempty, le, nonempty']

theorem Ordered.parts (h : Ordered (L ++ (old ++ R))) :
    Ordered L ∧ Ordered old ∧ Ordered R ∧ Before (cover L) (cover old) ∧
      Before (cover L) (cover R) ∧ Before (cover old) (cover R) := by
  obtain ⟨left, rest, before⟩ := ordered_append.mp h
  obtain ⟨middle, right, behind⟩ := ordered_append.mp rest
  rw [cover_append] at before
  exact ⟨left, middle, right, before.mono subset_rfl subset_union_left,
    before.mono subset_rfl subset_union_right, behind⟩

structure Took (l l' : List Extent) (region : Set ℕ) : Prop where
  inside : region ⊆ cover l
  ordered : Ordered l'
  cover_eq : cover l' = cover l \ region

structure Gave (l l' : List Extent) (region : Set ℕ) : Prop where
  ordered : Ordered l'
  cover_eq : cover l' = cover l ∪ region

theorem Took.splice (h : Ordered (L ++ (old ++ R))) (took : Took old new region) :
    Took (L ++ (old ++ R)) (L ++ (new ++ R)) region := by
  obtain ⟨left, -, right, before, between, behind⟩ := h.parts
  obtain ⟨inside, ordered, eq⟩ := took
  have less : cover new ⊆ cover old := eq ▸ sdiff_subset
  refine ⟨?_, ordered_append.mpr ⟨left, ordered_append.mpr
    ⟨ordered, right, behind.mono less subset_rfl⟩, ?_⟩, ?_⟩
  · simp only [cover_append]
    exact fun x mem => .inr (.inl (inside mem))
  · rw [cover_append]
    exact (before.mono subset_rfl less).union_right between
  · simp only [cover_append, eq]
    ext x
    have notLeft : x ∈ region → x ∉ cover L := fun taken mem => (before x mem x (inside taken)).false
    have notRight : x ∈ region → x ∉ cover R :=
      fun taken mem => (behind x (inside taken) x mem).false
    simp only [mem_union, mem_sdiff]
    tauto

theorem Gave.splice (h : Ordered (L ++ (old ++ R))) (gave : Gave old new region)
    (left : Before (cover L) region) (right : Before region (cover R)) :
    Gave (L ++ (old ++ R)) (L ++ (new ++ R)) region := by
  obtain ⟨orderedLeft, -, orderedRight, before, between, behind⟩ := h.parts
  obtain ⟨ordered, eq⟩ := gave
  refine ⟨ordered_append.mpr ⟨orderedLeft, ordered_append.mpr ⟨ordered, orderedRight, ?_⟩, ?_⟩, ?_⟩
  · rw [eq]
    exact behind.union_left right
  · rw [cover_append, eq]
    exact (before.union_right left).union_right between
  · simp only [cover_append, eq]
    ext x
    simp only [mem_union]
    tauto

/-- In order, with at least `g` numbers between two intervals. -/
def Spaced (g : ℕ) (l : List Extent) : Prop :=
  (∀ r ∈ l, r.start < r.ending) ∧ l.Pairwise fun r r' => r.ending + g ≤ r'.start

theorem Spaced.ordered {g : ℕ} {l : List Extent} (h : Spaced g l) : Ordered l :=
  ⟨h.1, h.2.imp fun le => (Nat.le_add_right _ g).trans le⟩

theorem Spaced.splice {g : ℕ} {r : Extent} (h : Spaced g (L ++ (old ++ R)))
    (nonempty : r.start < r.ending) (low : ∀ l ∈ L, l.ending + g ≤ r.start)
    (high : ∀ l ∈ R, r.ending + g ≤ l.start) : Spaced g (L ++ ([r] ++ R)) := by
  simp only [Spaced, forall_mem_append, forall_mem_singleton, pairwise_append, List.pairwise_singleton] at h ⊢
  obtain ⟨⟨left, -, right⟩, pairsLeft, ⟨-, pairsRight, -⟩, between⟩ := h
  refine ⟨⟨left, nonempty, right⟩, pairsLeft, ⟨trivial, pairsRight, fun _ => high _⟩, fun l mem => ?_⟩
  exact ⟨low l mem, (between l mem).2⟩

end JeoKernel.Intervals
