import Mathlib.Data.List.Nodup
import Mathlib.Data.List.Perm.Subperm
import Mathlib.Data.Set.Lattice
import Mathlib.Order.CompletePartialOrder

/-!
# Ledgers of resources

A resource of an allocator is owned by one holder, shared by any number of them, kept in a cache,
or none of this.  A ledger lists who holds what; it is sound if no resource is held in two ways and
every resource that is held is claimed from the allocator.  The lists are read up to order.
-/

namespace JeoKernel.Ledger

open List

variable {α β : Type*}

theorem perm_eraseIdx {l : List α} {i : ℕ} {a : α} (at_i : l[i]? = some a) :
    l.Perm (a :: l.eraseIdx i) := by
  obtain ⟨bound, rfl⟩ := List.getElem?_eq_some_iff.mp at_i
  exact (getElem_cons_eraseIdx_perm bound).symm

/-- A list of holders with one of them replaced: the holdings of the others are unchanged. -/
theorem flatMap_set_perm {l : List α} {i : ℕ} {a : α} (at_i : l[i]? = some a) (f : α → List β) :
    ∃ rest, (l.flatMap f).Perm (f a ++ rest) ∧ (∀ b, ((l.set i b).flatMap f).Perm (f b ++ rest)) ∧
      ∀ j c, j ≠ i → l[j]? = some c → f c ⊆ rest := by
  refine ⟨(l.eraseIdx i).flatMap f, (perm_eraseIdx at_i).flatMap_right f, fun b => ?_,
    fun j c other at_j x mem => ?_⟩
  · have bound := (List.getElem?_eq_some_iff.mp at_i).1
    have perm := (perm_eraseIdx (List.getElem?_set_self (a := b) bound)).flatMap_right f
    rwa [eraseIdx_set_eq] at perm
  · exact mem_flatMap.mpr ⟨c, mem_eraseIdx_iff_getElem?.mpr ⟨j, other, at_j⟩, mem⟩

/-- The holders after one of them was replaced: the new one, or another one in its old place. -/
theorem getElem?_set_cases {l : List α} {i j : ℕ} {b c : α} (at_j : (l.set i b)[j]? = some c) :
    (j = i ∧ c = b) ∨ (j ≠ i ∧ l[j]? = some c) := by
  rcases eq_or_ne i j with rfl | other
  · have bound : i < l.length := by
      simpa using (List.getElem?_eq_some_iff.mp at_j).1
    rw [List.getElem?_set_self bound] at at_j
    exact .inl ⟨rfl, (Option.some.inj at_j).symm⟩
  · rw [getElem?_set_ne other] at at_j
    exact .inr ⟨other.symm, at_j⟩

structure Book (α : Type*) where
  owned : List α
  shared : List α
  cached : Set α
  claimed : Set α

structure Sound (L : Book α) : Prop where
  nodup : L.owned.Nodup
  apart : ∀ n ∈ L.owned, n ∉ L.shared
  owned_claimed : ∀ n ∈ L.owned, n ∈ L.claimed
  shared_claimed : ∀ n ∈ L.shared, n ∈ L.claimed
  cached_claimed : ∀ n ∈ L.cached, n ∈ L.claimed
  owned_uncached : ∀ n ∈ L.owned, n ∉ L.cached
  shared_uncached : ∀ n ∈ L.shared, n ∉ L.cached

variable {owned owned' shared shared' : List α} {cached claimed : Set α} {n : α}

section

variable (h : Sound ⟨owned, shared, cached, claimed⟩)

include h

theorem Sound.mono (fewer : owned'.Subperm owned) (subset : shared' ⊆ shared) :
    Sound ⟨owned', shared', cached, claimed⟩ where
  nodup := by
    obtain ⟨l, same, sub⟩ := fewer
    exact same.nodup_iff.mp (h.nodup.sublist sub)
  apart n mem mem' := h.apart n (fewer.subset mem) (subset mem')
  owned_claimed n mem := h.owned_claimed n (fewer.subset mem)
  shared_claimed n mem := h.shared_claimed n (subset mem)
  cached_claimed := h.cached_claimed
  owned_uncached n mem := h.owned_uncached n (fewer.subset mem)
  shared_uncached n mem := h.shared_uncached n (subset mem)

theorem Sound.perm (same : owned.Perm owned') (same' : shared.Perm shared') :
    Sound ⟨owned', shared', cached, claimed⟩ :=
  h.mono same.symm.subperm same'.symm.subset

theorem Sound.claim : Sound ⟨owned, shared, cached, insert n claimed⟩ where
  __ := h
  owned_claimed k mem := Set.mem_insert_of_mem _ (h.owned_claimed k mem)
  shared_claimed k mem := Set.mem_insert_of_mem _ (h.shared_claimed k mem)
  cached_claimed k mem := Set.mem_insert_of_mem _ (h.cached_claimed k mem)

theorem Sound.take (free : n ∉ claimed) :
    Sound ⟨n :: owned, shared, cached, insert n claimed⟩ where
  __ := h.claim
  nodup := nodup_cons.mpr ⟨fun mem => free (h.owned_claimed n mem), h.nodup⟩
  apart := forall_mem_cons.mpr ⟨fun mem => free (h.shared_claimed n mem), h.apart⟩
  owned_claimed := forall_mem_cons.mpr ⟨Set.mem_insert _ _, h.claim.owned_claimed⟩
  owned_uncached := forall_mem_cons.mpr
    ⟨fun mem => free (h.cached_claimed n mem), h.owned_uncached⟩

theorem Sound.cache (free : n ∉ claimed) :
    Sound ⟨owned, shared, insert n cached, insert n claimed⟩ where
  __ := h.claim
  cached_claimed k mem := Set.insert_subset_insert h.cached_claimed mem
  owned_uncached k mem := by
    rintro (rfl | cached)
    · exact free (h.owned_claimed k mem)
    · exact h.owned_uncached k mem cached
  shared_uncached k mem := by
    rintro (rfl | cached)
    · exact free (h.shared_claimed k mem)
    · exact h.shared_uncached k mem cached

theorem Sound.free {gone : Set α} (unheld : ∀ n ∈ gone, n ∉ owned ∧ n ∉ shared ∧ n ∉ cached) :
    Sound ⟨owned, shared, cached, claimed \ gone⟩ where
  __ := h
  owned_claimed k mem := ⟨h.owned_claimed k mem, fun freed => (unheld k freed).1 mem⟩
  shared_claimed k mem := ⟨h.shared_claimed k mem, fun freed => (unheld k freed).2.1 mem⟩
  cached_claimed k mem := ⟨h.cached_claimed k mem, fun freed => (unheld k freed).2.2 mem⟩

end

theorem Sound.share {ns : List α} (h : Sound ⟨ns ++ owned, shared, cached, claimed⟩)
    (from_ns : shared' ⊆ ns ++ shared) : Sound ⟨owned, shared', cached, claimed⟩ := by
  have back : ∀ k ∈ shared', k ∈ ns ∨ k ∈ shared := fun k mem => mem_append.mp (from_ns mem)
  have mine : ∀ k ∈ owned, k ∈ ns ++ owned := fun k => mem_append_right ns
  have others : ∀ k ∈ ns, k ∈ ns ++ owned := fun k => mem_append_left owned
  obtain ⟨-, nodup, apart⟩ := nodup_append.mp h.nodup
  refine ⟨nodup, fun k mem mem' => ?_, fun k mem => h.owned_claimed k (mine k mem), fun k mem => ?_,
    h.cached_claimed, fun k mem => h.owned_uncached k (mine k mem), fun k mem => ?_⟩
  · rcases back k mem' with moved | old
    · exact apart k moved k mem rfl
    · exact h.apart k (mine k mem) old
  · exact (back k mem).elim (fun moved => h.owned_claimed k (others k moved)) (h.shared_claimed k)
  · exact (back k mem).elim (fun moved => h.owned_uncached k (others k moved)) (h.shared_uncached k)

end JeoKernel.Ledger
