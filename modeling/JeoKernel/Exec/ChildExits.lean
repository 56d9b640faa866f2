import Mathlib.Data.List.Perm.Basic
import Mathlib.Data.List.Zip
import JeoKernel.Lib.Machine

/-!
# Exit statuses of children

A process keeps two queues: results of children that nobody has waited for yet, and waiters that no
child has exited for yet.  `ChildExitNotification` takes a waiter from the queue under the lock and
calls it after the lock is released; `WaitForAnyChild` gets a result at once or queues the waiter.
-/

namespace JeoKernel.ChildExits

open List Machine

structure ChildResult where
  result : ℤ
  pid : ℤ
  deriving DecidableEq

section

variable (ω : Type)

structure State where
  childResults : List ChildResult
  childExitNotifications : List ω
  /-- Waiters that `ChildExitNotification` has taken and not called yet. -/
  notifying : List (ω × ChildResult)
  /-- What each waiter was called with or has got at once. -/
  delivered : List (ω × ChildResult)

inductive Action where
  | childExitNotification (child : ChildResult)
  /-- One of the waiters that were taken is called. -/
  | notify (k : ℕ)
  | waitForAnyChild (orAsync : ω)

end

variable {ω : Type}

def State.start : State ω := ⟨[], [], [], []⟩

def State.exec (s : State ω) : Action ω → Option (State ω)
  | .childExitNotification child =>
    match s.childExitNotifications with
    | [] => some { s with childResults := s.childResults ++ [child] }
    | notify :: rest =>
      some { s with
        childExitNotifications := rest
        notifying := s.notifying ++ [(notify, child)] }
  | .notify k =>
    match s.notifying[k]? with
    | some pair =>
      some { s with notifying := s.notifying.eraseIdx k, delivered := s.delivered ++ [pair] }
    | none => none
  | .waitForAnyChild orAsync =>
    match s.childResults with
    | [] => some { s with childExitNotifications := s.childExitNotifications ++ [orAsync] }
    | child :: rest =>
      some { s with childResults := rest, delivered := s.delivered ++ [(orAsync, child)] }

/-! ## The pairs of a run -/

def exits (as : List (Action ω)) : List ChildResult :=
  as.filterMap fun
    | .childExitNotification child => some child
    | _ => none

def waits (as : List (Action ω)) : List ω :=
  as.filterMap fun
    | .waitForAnyChild orAsync => some orAsync
    | _ => none

/-- Each queue has what the other side has not come to yet, and the waiters have got the children one
by one. -/
structure Paired (exited : List ChildResult) (waited : List ω) (s : State ω) : Prop where
  results : s.childResults = exited.drop waited.length
  notifications : s.childExitNotifications = waited.drop exited.length
  pairs : (s.delivered ++ s.notifying).Perm (waited.zip exited)

section

variable {α β : Type}

theorem zip_concat_of_le {xs : List α} {ys : List β} (le : xs.length ≤ ys.length) (y : β) :
    xs.zip (ys ++ [y]) = xs.zip ys := by
  induction xs generalizing ys with
  | nil => simp
  | cons x xs ih =>
    cases ys with
    | nil => simp at le
    | cons y' ys => simp [ih (by simpa using le)]

variable {xs rest : List α}

theorem lt_of_drop {n : ℕ} {x : α} (next : xs.drop n = x :: rest) : n < xs.length := by
  by_contra le
  rw [drop_eq_nil_of_le (by omega)] at next
  simp at next

theorem zip_concat_of_drop {ys : List β} {x : α} (next : xs.drop ys.length = x :: rest) (y : β) :
    xs.zip (ys ++ [y]) = xs.zip ys ++ [(x, y)] := by
  induction ys generalizing xs with
  | nil =>
    obtain rfl : xs = x :: rest := next
    simp
  | cons y' ys ih =>
    cases xs with
    | nil => simp at next
    | cons x' xs => simp [ih (by simpa using next)]

theorem zip_concat_left (xs : List α) (ys : List β) (x : α) :
    (xs ++ [x]).zip ys = (ys.zip (xs ++ [x])).map Prod.swap := by
  rw [zip_swap]

theorem drop_succ_of_drop {n : ℕ} {x : α} (next : xs.drop n = x :: rest) :
    xs.drop (n + 1) = rest := by
  rw [← drop_drop, next]
  rfl

end

variable {s t : State ω} {exited : List ChildResult} {waited : List ω}

section

variable (paired : Paired exited waited s)

include paired

theorem Paired.empty : s.childResults = [] ∨ s.childExitNotifications = [] := by
  rw [paired.results, paired.notifications]
  rcases Nat.le_total exited.length waited.length with le | le
  · exact .inl (drop_eq_nil_of_le le)
  · exact .inr (drop_eq_nil_of_le le)

theorem Paired.childExitNotification {child : ChildResult}
    (taken : s.exec (.childExitNotification child) = some t) :
    Paired (exited ++ [child]) waited t := by
  simp only [State.exec] at taken
  cases queue : s.childExitNotifications with
  | nil =>
    simp only [queue] at taken
    cases taken
    have le : waited.length ≤ exited.length := by
      have none := paired.notifications
      rw [queue] at none
      exact drop_eq_nil_iff.mp none.symm
    refine ⟨?_, ?_, ?_⟩
    · rw [paired.results, drop_append_of_le_length le]
    · rw [length_append, drop_eq_nil_of_le (by omega)]
    · rw [zip_concat_of_le le]
      exact paired.pairs
  | cons notify rest =>
    simp only [queue] at taken
    cases taken
    have next : waited.drop exited.length = notify :: rest := by
      rw [← paired.notifications, queue]
    have results : s.childResults = [] := paired.empty.resolve_right (by simp [queue])
    refine ⟨?_, ?_, ?_⟩
    · have lt := lt_of_drop next
      rw [results, drop_eq_nil_of_le (by rw [length_append]; exact lt)]
    · rw [length_append, length_singleton, drop_succ_of_drop next]
    · rw [zip_concat_of_drop next, ← List.append_assoc]
      exact paired.pairs.append_right _

theorem Paired.waitForAnyChild {orAsync : ω} (taken : s.exec (.waitForAnyChild orAsync) = some t) :
    Paired exited (waited ++ [orAsync]) t := by
  simp only [State.exec] at taken
  cases queue : s.childResults with
  | nil =>
    simp only [queue] at taken
    cases taken
    have le : exited.length ≤ waited.length := by
      have none := paired.results
      rw [queue] at none
      exact drop_eq_nil_iff.mp none.symm
    refine ⟨?_, ?_, ?_⟩
    · rw [length_append, drop_eq_nil_of_le (by omega)]
    · rw [paired.notifications, drop_append_of_le_length le]
    · rw [zip_concat_left, zip_concat_of_le le, zip_swap]
      exact paired.pairs
  | cons child rest =>
    simp only [queue] at taken
    cases taken
    have next : exited.drop waited.length = child :: rest := by rw [← paired.results, queue]
    have notifications : s.childExitNotifications = [] :=
      paired.empty.resolve_left (by simp [queue])
    refine ⟨?_, ?_, ?_⟩
    · rw [length_append, length_singleton, drop_succ_of_drop next]
    · have lt := lt_of_drop next
      rw [notifications, drop_eq_nil_of_le (by rw [length_append]; exact lt)]
    · rw [zip_concat_left, zip_concat_of_drop next, map_append, zip_swap]
      have moved : (s.delivered ++ [(orAsync, child)] ++ s.notifying).Perm
          (s.delivered ++ s.notifying ++ [(orAsync, child)]) := by
        rw [List.append_assoc, List.append_assoc]
        exact perm_append_comm.append_left _
      exact moved.trans (paired.pairs.append_right _)

theorem Paired.notify {k : ℕ} (taken : s.exec (.notify k) = some t) : Paired exited waited t := by
  simp only [State.exec] at taken
  cases at_k : s.notifying[k]? with
  | none => simp [at_k] at taken
  | some pair =>
    simp only [at_k] at taken
    cases taken
    refine ⟨paired.results, paired.notifications, List.Perm.trans ?_ paired.pairs⟩
    obtain ⟨below, rfl⟩ := List.getElem?_eq_some_iff.mp at_k
    rw [List.append_assoc]
    exact (List.getElem_cons_eraseIdx_perm below).append_left _

end

theorem Paired.run {as : List (Action ω)} (run : Run State.exec s as t)
    (paired : Paired exited waited s) : Paired (exited ++ exits as) (waited ++ waits as) t := by
  induction run generalizing exited waited with
  | nil s => simpa [exits, waits] using paired
  | @cons s u t a as _ taken rest ih =>
    cases a with
    | childExitNotification child =>
      simpa [exits, waits, List.append_assoc] using ih (paired.childExitNotification taken)
    | notify k => simpa [exits, waits] using ih (paired.notify taken)
    | waitForAnyChild orAsync =>
      simpa [exits, waits, List.append_assoc] using ih (paired.waitForAnyChild taken)

/-- In every run each queue has what is left over, one of them is empty, and the waiters get the
children one by one in the order of both, once those that were taken are called. -/
theorem paired_of_run {as : List (Action ω)} {t : State ω} (run : Run State.exec .start as t) :
    (t.childResults = [] ∨ t.childExitNotifications = []) ∧
      Paired (exits as) (waits as) t ∧
      t.delivered.length + t.notifying.length = min (exits as).length (waits as).length := by
  have paired : Paired (exits as) (waits as) t := by
    have first : Paired [] [] (.start : State ω) := ⟨rfl, rfl, .refl _⟩
    simpa using first.run run
  refine ⟨paired.empty, paired, ?_⟩
  rw [← length_append, paired.pairs.length_eq, length_zip, Nat.min_comm]

/-- Two children exit before the first waiter, and two waiters come before the third child. -/
theorem paired_two_waiters :
    ∃ t : State ℕ, Run State.exec .start
        [.childExitNotification ⟨0, 7⟩, .childExitNotification ⟨1, 8⟩, .waitForAnyChild 1,
          .waitForAnyChild 2, .waitForAnyChild 3, .waitForAnyChild 4,
          .childExitNotification ⟨2, 9⟩, .notify 0] t ∧
      t.delivered = [(1, ⟨0, 7⟩), (2, ⟨1, 8⟩), (3, ⟨2, 9⟩)] ∧
      t.delivered.length + t.notifying.length = min 3 4 := by
  exact RunWhen.exists_and (f := State.delivered) (by decide +kernel)
    fun t run delivered => ⟨delivered, (paired_of_run run).2.2⟩

end JeoKernel.ChildExits
