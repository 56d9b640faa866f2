import Mathlib.Algebra.Ring.Nat
import Mathlib.Data.List.Range

/-!
# Counting loops that may be left early

`forRange lo hi body` is `for (i = lo; i < hi; i++)` over a state; a body that answers `.error e`
leaves the loop, and all loops around it, with the result `e`.
-/

namespace JeoKernel.Loop

variable {ε σ : Type*}

def forRange (lo hi : ℕ) (body : ℕ → σ → Except ε σ) (s : σ) : Except ε σ :=
  (List.range' lo (hi - lo)).foldlM (fun s i => body i s) s

/-- `P` holds if the computation goes on, `E` if it was left with a result. -/
def Post (P : σ → Prop) (E : ε → Prop) : Except ε σ → Prop
  | .ok s => P s
  | .error e => E e

theorem Post.mono {P Q : σ → Prop} {E : ε → Prop} {r : Except ε σ} (h : Post P E r)
    (weaker : ∀ s, P s → Q s) : Post Q E r := by
  cases r with
  | error e => exact h
  | ok s => exact weaker s h

theorem Post.bind {ε σ τ : Type} {P : σ → Prop} {Q : τ → Prop} {E : ε → Prop} {r : Except ε σ}
    {f : σ → Except ε τ} (h : Post P E r) (next : ∀ s, P s → Post Q E (f s)) :
    Post Q E (r >>= f) := by
  cases r with
  | error e => exact h
  | ok s => exact next s h

theorem forRange_post {I : ℕ → σ → Prop} {E : ε → Prop} {lo hi : ℕ} {body : ℕ → σ → Except ε σ}
    {s : σ} (le : lo ≤ hi)
    (turn : ∀ i s, lo ≤ i → i < hi → I i s → Post (I (i + 1)) E (body i s)) (start : I lo s) :
    Post (I hi) E (forRange lo hi body s) := by
  unfold forRange
  induction n : hi - lo generalizing lo s with
  | zero =>
    obtain rfl : lo = hi := by omega
    exact start
  | succ k ih =>
    rw [List.range'_succ, List.foldlM_cons]
    have here := turn lo s le_rfl (by omega) start
    cases first : body lo s with
    | error e => rw [first] at here; exact here
    | ok t =>
      rw [first] at here
      exact ih (by omega) (fun i s lower => turn i s (by omega)) here (by omega)

end JeoKernel.Loop
