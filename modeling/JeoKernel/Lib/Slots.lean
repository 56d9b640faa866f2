import JeoKernel.Lib.Faults

/-!
# Storage with objects

Raw storage is a list of slots; a slot is empty or holds an object.  Constructing over an object,
using or destroying an object that is not there, and releasing storage that still holds objects are
faults.
-/

namespace JeoKernel

open List

abbrev Slots (α : Type*) := List (Option α)

namespace Slots

variable {α : Type*}

def raw (n : ℕ) : Slots α := replicate n none

def obj (s : Slots α) (i : ℕ) : Option α := s[i]?.join

def construct (s : Slots α) (i : ℕ) (x : α) : Except Fault (Slots α) :=
  if s.length ≤ i then .error .outside
  else if (s.obj i).isSome then .error .occupied
  else .ok (s.set i (some x))

def read (s : Slots α) (i : ℕ) : Except Fault α :=
  if s.length ≤ i then .error .outside
  else
    match s.obj i with
    | none => .error .missing
    | some x => .ok x

/-- The object in slot `i` gets another value. -/
def assign (s : Slots α) (i : ℕ) (x : α) : Except Fault (Slots α) :=
  if s.length ≤ i then .error .outside
  else if (s.obj i).isSome then .ok (s.set i (some x))
  else .error .missing

def destroy (s : Slots α) (i : ℕ) : Except Fault (Slots α) :=
  if s.length ≤ i then .error .outside
  else if (s.obj i).isSome then .ok (s.set i none)
  else .error .missing

def release (s : Slots α) : Except Fault Unit :=
  if s.all Option.isNone then .ok () else .error .leak

def live (s : Slots α) : ℕ := s.countP Option.isSome

/-- The storage holds the objects `xs` from slot 0 on, and no others. -/
structure Holds (s : Slots α) (xs : List α) : Prop where
  fits : xs.length ≤ s.length
  obj : ∀ i, s.obj i = xs[i]?

variable {s : Slots α} {xs : List α} {i : ℕ} {x : α}

theorem obj_raw (n i : ℕ) : (raw n : Slots α).obj i = none := by
  rw [obj, raw, getElem?_replicate]
  split <;> rfl

section

variable (inside : i < s.length)

include inside

theorem obj_set (o : Option α) (j : ℕ) : obj (s.set i o) j = if j = i then o else s.obj j := by
  rw [obj, getElem?_set]
  split_ifs <;> first | rfl | omega

theorem construct_eq (empty : s.obj i = none) : s.construct i x = .ok (s.set i (some x)) := by
  rw [construct, if_neg (by omega), empty]
  rfl

theorem read_eq (here : s.obj i = some x) : s.read i = .ok x := by
  rw [read, if_neg (by omega), here]

theorem assign_eq {y : α} (here : s.obj i = some y) : s.assign i x = .ok (s.set i (some x)) := by
  rw [assign, if_neg (by omega), here]
  rfl

theorem destroy_eq (here : s.obj i = some x) : s.destroy i = .ok (s.set i none) := by
  rw [destroy, if_neg (by omega), here]
  rfl

end

namespace Holds

theorem raw (n : ℕ) : (raw n : Slots α).Holds [] :=
  ⟨Nat.zero_le _, fun i => by rw [obj_raw, getElem?_nil]⟩

theorem eq_append (h : s.Holds xs) :
    s = xs.map some ++ replicate (s.length - xs.length) none := by
  have fits := h.fits
  refine ext_getElem? fun i => ?_
  rw [getElem?_append, length_map, getElem?_map, getElem?_replicate]
  have here := h.obj i
  unfold Slots.obj at here
  by_cases inside : i < s.length
  · rw [getElem?_eq_getElem inside] at here ⊢
    simp only [Option.join_some] at here
    rw [here]
    split_ifs with filled room
    · rw [getElem?_eq_getElem filled]
      rfl
    · rw [getElem?_eq_none (by omega)]
    · omega
  · rw [getElem?_eq_none (by omega), if_neg (by omega), if_neg (by omega)]

theorem live_eq (h : s.Holds xs) : s.live = xs.length := by
  rw [live, h.eq_append, countP_append, countP_map, countP_replicate]
  simp

theorem release_eq (h : s.Holds []) : s.release = .ok () := by
  rw [release, if_pos]
  rw [h.eq_append]
  simp

theorem append (h : s.Holds xs) (room : xs.length < s.length) (x : α) :
    Holds (s.set xs.length (some x)) (xs ++ [x]) where
  fits := by rw [length_set, length_append, length_singleton]; omega
  obj i := by
    rw [obj_set room, h.obj]
    split_ifs with last
    · rw [last, getElem?_concat_length]
    · rw [getElem?_append]
      split_ifs with inside
      · rfl
      · rw [getElem?_eq_none (by omega), getElem?_eq_none (by simp; omega)]

theorem set (h : s.Holds xs) (inside : i < xs.length) (x : α) :
    Holds (List.set s i (some x)) (xs.set i x) where
  fits := by rw [length_set, length_set]; exact h.fits
  obj j := by
    rw [obj_set (inside.trans_le h.fits), h.obj, getElem?_set]
    split_ifs with same other
    · rfl
    · omega
    · omega
    · rfl

theorem construct_eq (h : s.Holds xs) (room : xs.length < s.length) :
    s.construct xs.length x = .ok (List.set s xs.length (some x)) :=
  Slots.construct_eq room (by rw [h.obj, getElem?_eq_none le_rfl])

theorem read_eq (h : s.Holds xs) (inside : i < xs.length) : s.read i = .ok xs[i] :=
  Slots.read_eq (inside.trans_le h.fits) (by rw [h.obj, getElem?_eq_getElem inside])

end Holds

end Slots

end JeoKernel
