import Mathlib.Data.List.Range
import Mathlib.Data.Nat.ModEq
import JeoKernel.Lib.Ledger
import JeoKernel.Lib.Tally

/-!
# Ticket locks

A party takes the next ticket and enters when the current ticket is its own; the owner increments
the current ticket when it leaves.  Tickets are compared modulo `m`, and fewer than `m` of them are
outstanding.
-/

namespace JeoKernel.Tickets

open List Option Ledger Tally

variable {α : Type*}

/-- The tickets that are outstanding are those from the current to the next one, each with one party,
and the owner has the current one. -/
structure Ordered (ticket : α → Option ℕ) (Owner : α → Prop) (m : ℕ) (l : List α)
    (current next : ℕ) : Prop where
  le : current ≤ next
  few : next - current < m
  tickets : (l.flatMap fun a => (ticket a).toList).Perm (range' current (next - current))
  owns : ∀ (i : ℕ) (a : α), l[i]? = some a → Owner a → ticket a = some current

variable {ticket : α → Option ℕ} {Owner : α → Prop} {m : ℕ} {l : List α} {current next i j n : ℕ}
  {a b a' : α}

section

variable (h : Ordered ticket Owner m l current next) (at_i : l[i]? = some a)

include h at_i

theorem Ordered.bounds (has : ticket a = some n) : current ≤ n ∧ n < next := by
  have mem : n ∈ l.flatMap fun a => (ticket a).toList :=
    mem_flatMap.mpr ⟨a, mem_of_getElem? at_i, by simp [has]⟩
  have bounds := mem_range'_1.mp (h.tickets.subset mem)
  omega

/-- Tickets that are outstanding are told apart by their rest modulo `m`. -/
theorem Ordered.eq_current (has : ticket a = some n) (same : n % m = current % m) :
    n = current := by
  obtain ⟨low, high⟩ := h.bounds at_i has
  have few := h.few
  have divides : m ∣ n - current := (Nat.modEq_iff_dvd' low).mp same.symm
  have zero := Nat.eq_zero_of_dvd_of_lt divides (by omega)
  omega

theorem Ordered.unique (at_j : l[j]? = some b) (has : ticket a = some n)
    (has' : ticket b = some n) : i = j := by
  by_contra other
  obtain ⟨rest, all, -, others⟩ := flatMap_set_perm at_i fun a => (ticket a).toList
  have nodup : ((ticket a).toList ++ rest).Nodup :=
    all.nodup_iff.mp (h.tickets.nodup_iff.mpr (nodup_range' ..))
  have mem : n ∈ rest := others j b (Ne.symm other) at_j (by simp [has'])
  simp only [has, toList_some, cons_append, nil_append, nodup_cons] at nodup
  exact nodup.1 mem

theorem Ordered.owner_unique (at_j : l[j]? = some b) (owns : Owner a) (owns' : Owner b) : i = j :=
  h.unique at_i at_j (h.owns i a at_i owns) (h.owns j b at_j owns')

end

theorem ordered_new (pos : 0 < m) (none : ∀ a ∈ l, ticket a = none) (out : ∀ a ∈ l, ¬Owner a)
    (start : ℕ) : Ordered ticket Owner m l start start := by
  have empty : (l.flatMap fun a => (ticket a).toList) = [] :=
    flatMap_eq_nil_iff.mpr fun a mem => by rw [none a mem]; rfl
  exact ⟨le_rfl, by omega, by simp [empty], fun i a at_i owns =>
    absurd owns (out a (mem_of_getElem? at_i))⟩

section

variable (h : Ordered ticket Owner m l current next)

include h

theorem Ordered.move (at_i : l[i]? = some a) (same : ticket a' = ticket a)
    (owner : Owner a' → ticket a' = some current) :
    Ordered ticket Owner m (l.set i a') current next := by
  obtain ⟨rest, before, after, -⟩ := flatMap_set_perm at_i fun a => (ticket a).toList
  refine ⟨h.le, h.few, ?_, fun j b at_j owns => ?_⟩
  · have after := after a'
    rw [same] at after
    exact after.trans (before.symm.trans h.tickets)
  · rcases getElem?_set_cases at_j with ⟨rfl, rfl⟩ | ⟨-, at_j⟩
    · exact owner owns
    · exact h.owns j b at_j owns

theorem Ordered.take (at_i : l[i]? = some a) (none : ticket a = none)
    (few : next + 1 - current < m) (has : ticket a' = some next)
    (owner : Owner a' → next = current) :
    Ordered ticket Owner m (l.set i a') current (next + 1) := by
  obtain ⟨rest, before, after, -⟩ := flatMap_set_perm at_i fun a => (ticket a).toList
  have le := h.le
  refine ⟨by omega, few, ?_, fun j b at_j owns => ?_⟩
  · have after := after a'
    rw [has, toList_some, singleton_append] at after
    rw [none, toList_none, nil_append] at before
    have last : range' current (next + 1 - current) =
        range' current (next - current) ++ [next] := by
      rw [show next + 1 - current = next - current + 1 by omega, range'_1_concat,
        Nat.add_sub_of_le le]
    rw [last]
    exact after.trans (((before.symm.trans h.tickets).cons _).trans (perm_append_singleton ..).symm)
  · rcases getElem?_set_cases at_j with ⟨rfl, rfl⟩ | ⟨-, at_j⟩
    · exact has.trans (congrArg some (owner owns))
    · exact h.owns j b at_j owns

theorem Ordered.release (at_i : l[i]? = some a) (has : ticket a = some current)
    (none : ticket a' = none) (left : ¬Owner a') :
    Ordered ticket Owner m (l.set i a') (current + 1) next := by
  obtain ⟨rest, before, after, -⟩ := flatMap_set_perm at_i fun a => (ticket a).toList
  have bounds := h.bounds at_i has
  have few := h.few
  refine ⟨by omega, by omega, ?_, fun j b at_j owns => ?_⟩
  · have after := after a'
    rw [none, toList_none, nil_append] at after
    rw [has, toList_some, singleton_append] at before
    have first : range' current (next - current) =
        current :: range' (current + 1) (next - (current + 1)) := by
      rw [show next - current = next - (current + 1) + 1 by omega, range'_succ]
    have all := before.symm.trans h.tickets
    rw [first] at all
    exact after.trans all.cons_inv
  · rcases getElem?_set_cases at_j with ⟨rfl, rfl⟩ | ⟨other, at_j⟩
    · exact absurd owns left
    · exact absurd (h.unique at_j at_i (h.owns j b at_j owns) has) other

theorem Ordered.length_le : next - current ≤ l.length := by
  have count := h.tickets.length_eq
  rw [length_range'] at count
  rw [← count, length_flatMap]
  refine tally_le_length (f := fun a => (ticket a).toList.length) (fun a => ?_) l
  cases ticket a with
  | none => exact Nat.zero_le 1
  | some n => exact le_rfl

end

end JeoKernel.Tickets
