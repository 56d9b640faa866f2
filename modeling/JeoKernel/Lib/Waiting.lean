import Mathlib.Data.List.Basic

/-!
# Waiting for an event

A party that has to wait registers a handler under the name of its key, marks itself blocked and
looks once more before it sleeps.  An event unblocks the party if one of its handlers has the name of
the event, and removes handlers.  `due k` says that the party with key `k` need not wait any longer,
`announced k` that the event for `k` is still to come.  `Party.Woken` says of one party that it does
not sleep with a key that is due unless its handler is there and the event will come; each step of the
protocol keeps it.
-/

namespace JeoKernel.Waiting

open List

variable {K W : Type*}

/-- Where a party stands that has registered its handler. -/
inductive Phase where
  | listening
  /-- It has marked itself blocked and looks once more. -/
  | blocking
  /-- It has seen that its key is due, and is still marked. -/
  | waking
  | waiting

structure Party (K W : Type*) where
  call : Option (Phase × K)
  blocked : Bool
  handlers : List W

/-- The steps of a party.  It sleeps only behind a look at its key, and leaves only awake. -/
inductive Step (name : K → W) (due : K → Prop) : Party K W → Party K W → Prop
  | outside {b b' : Bool} {hs hs'} : (b' → b) → Step name due ⟨none, b, hs⟩ ⟨none, b', hs'⟩
  | register {k b hs} : Step name due ⟨none, b, hs⟩ ⟨some (.listening, k), b, hs ++ [name k]⟩
  | look {k b hs} : Step name due ⟨some (.listening, k), b, hs⟩ ⟨some (.listening, k), b, hs⟩
  | pass {k b hs} : Step name due ⟨some (.listening, k), b, hs⟩ ⟨some (.waiting, k), b, hs⟩
  | block {k b hs} : Step name due ⟨some (.listening, k), b, hs⟩ ⟨some (.blocking, k), true, hs⟩
  | sleep {k b hs} : ¬due k →
      Step name due ⟨some (.blocking, k), b, hs⟩ ⟨some (.waiting, k), b, hs⟩
  | wake {k b hs} : Step name due ⟨some (.blocking, k), b, hs⟩ ⟨some (.waking, k), b, hs⟩
  | unblock {k b hs} : Step name due ⟨some (.waking, k), b, hs⟩ ⟨some (.waiting, k), false, hs⟩
  | spin {k hs} : Step name due ⟨some (.waiting, k), false, hs⟩ ⟨some (.waiting, k), false, hs⟩
  | leave {k hs hs'} : Step name due ⟨some (.waiting, k), false, hs⟩ ⟨none, false, hs'⟩

def Party.Woken (name : K → W) (due announced : K → Prop) (p : Party K W) : Prop :=
  match p.call with
  | none => p.blocked = false
  | some (.listening, k) => p.blocked = false ∧ (¬due k → name k ∈ p.handlers)
  | some (.blocking, k) => ¬due k → name k ∈ p.handlers
  | some (.waking, _) => True
  | some (.waiting, k) => p.blocked → name k ∈ p.handlers ∧ (due k → announced k)

variable {name : K → W} {due due' announced announced' : K → Prop} {p p' : Party K W}

theorem woken_of_outside (call : p.call = none) (awake : p.blocked = false) :
    p.Woken name due announced := by
  rw [Party.Woken, call]
  exact awake

namespace Party.Woken

section

variable (h : p.Woken name due announced)

include h

theorem awake (call : p.call = none) : p.blocked = false := by
  rwa [Party.Woken, call] at h

theorem asleep {k : K} (call : p.call = some (.waiting, k)) (blocked : p.blocked) :
    name k ∈ p.handlers ∧ (due k → announced k) := by
  rw [Party.Woken, call] at h
  exact h blocked

theorem step (taken : Step name due p p') : p'.Woken name due announced := by
  cases taken with
  | outside less => exact Bool.eq_false_iff.mpr fun blocked => by simp_all [Party.Woken]
  | register => exact ⟨h, fun _ => mem_append_right _ (mem_singleton_self _)⟩
  | look => exact h
  | pass => exact fun blocked => absurd (h.1.symm.trans blocked) Bool.false_ne_true
  | block => exact h.2
  | sleep early => exact fun _ => ⟨h early, fun reached => absurd reached early⟩
  | wake => exact trivial
  | unblock | spin => exact nofun
  | leave => exact rfl

/-- An event `e` removes no handler but its own, and that one only if the key is due. -/
theorem event {e : W} (call : p'.call = p.call)
    (awoken : p'.blocked → p.blocked ∧ e ∉ p.handlers)
    (kept : ∀ phase k, p.call = some (phase, k) → name k ∈ p.handlers → name k ≠ e ∨ ¬due k →
      name k ∈ p'.handlers)
    (still : ∀ k, due k → name k ≠ e → announced k → announced' k) :
    p'.Woken name due announced' := by
  have calm : p.blocked = false → p'.blocked = false := fun awake =>
    Bool.eq_false_iff.mpr fun blocked => by simp [awake] at awoken; simp [awoken] at blocked
  rw [Party.Woken] at h ⊢
  rw [call]
  match here : p.call with
  | none => exact calm (by simpa [here] using h)
  | some (.listening, k) =>
    rw [here] at h
    exact ⟨calm h.1, fun early => kept _ k here (h.2 early) (.inr early)⟩
  | some (.blocking, k) =>
    rw [here] at h
    exact fun early => kept _ k here (h early) (.inr early)
  | some (.waking, k) => exact trivial
  | some (.waiting, k) =>
    rw [here] at h
    intro blocked
    obtain ⟨before, unheard⟩ := awoken blocked
    obtain ⟨mem, coming⟩ := h before
    have other : name k ≠ e := fun same => unheard (same ▸ mem)
    exact ⟨kept _ k here mem (.inl other), fun reached => still k reached other (coming reached)⟩

/-- More keys become due, and their events are still to come. -/
theorem advance (later : ∀ phase k, p.call = some (phase, k) → ¬due' k → ¬due k)
    (next : ∀ phase k, p.call = some (phase, k) → due' k → (due k → announced k) → announced' k) :
    p.Woken name due' announced' := by
  rw [Party.Woken] at h ⊢
  match here : p.call with
  | none => simpa [here] using h
  | some (.listening, k) =>
    rw [here] at h
    exact ⟨h.1, fun early => h.2 (later _ k here early)⟩
  | some (.blocking, k) =>
    rw [here] at h
    exact fun early => h (later _ k here early)
  | some (.waking, k) => exact trivial
  | some (.waiting, k) =>
    rw [here] at h
    exact fun blocked => (h blocked).imp_right fun coming reached => next _ k here reached coming

theorem mono (more : ∀ k, announced k → announced' k) : p.Woken name due announced' :=
  h.advance (fun _ _ _ early => early) fun _ k _ reached coming => more k (coming reached)

end

end Party.Woken

end JeoKernel.Waiting
