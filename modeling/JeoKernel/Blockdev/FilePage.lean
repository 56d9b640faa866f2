import Mathlib.Order.Basic
import JeoKernel.Lib.Machine

/-!
# The dirty length of a page of the file cache

`filepage_data::setDirty` and `filepage_data::getDirtyAndClear` on one page, called by any number of
CPUs.  Each `lock cmpxchg` is one step, and so is the read at the start of `getDirtyAndClear`.
-/

namespace JeoKernel.FilePage

open Machine Function

/-- Where a CPU is: in `setDirty(set)`, with the variables of its loop, or in
`getDirtyAndClear`, before its first read or with the value it expects.  `call` numbers the calls of
`setDirty`. -/
inductive Cpu where
  | idle
  | setting (call set expectdirty olddirty : ℕ)
  | reading
  | clearing (beforeClear : ℕ)
  deriving DecidableEq

/-- A call of `setDirty` that has started: its length, and the values that calls of
`getDirtyAndClear` have taken since then. -/
structure Call where
  len : ℕ
  taken : List ℕ
  deriving DecidableEq

structure Page where
  dirty : ℕ
  cpus : ℕ → Cpu
  calls : List Call

def Page.new : Page := ⟨0, fun _ => .idle, []⟩

inductive Action where
  | setDirty (cpu len : ℕ)
  | getDirtyAndClear (cpu : ℕ)
  | step (cpu : ℕ)

def Page.setTurn (s : Page) (cpu call set expectdirty olddirty : ℕ) : Page :=
  let expect := expectdirty
  let expectdirty := olddirty
  if expect > set then { s with cpus := update s.cpus cpu .idle }
  else
    { s with
      dirty := if s.dirty = expect then set else s.dirty
      cpus := update s.cpus cpu
        (if s.dirty ≠ expectdirty then .setting call set expectdirty s.dirty else .idle) }

def Page.clearTurn (s : Page) (cpu beforeClear : ℕ) : Page :=
  if s.dirty = beforeClear then
    { dirty := 0
      cpus := update s.cpus cpu .idle
      calls := s.calls.map fun c => { c with taken := c.taken ++ [beforeClear] } }
  else { s with cpus := update s.cpus cpu (.clearing s.dirty) }

def exec (s : Page) : Action → Option Page
  | .setDirty cpu len =>
    if s.cpus cpu = .idle then
      some { s with
        cpus := update s.cpus cpu (.setting s.calls.length len 0 0)
        calls := s.calls ++ [⟨len, []⟩] }
    else none
  | .getDirtyAndClear cpu =>
    if s.cpus cpu = .idle then some { s with cpus := update s.cpus cpu .reading } else none
  | .step cpu =>
    match s.cpus cpu with
    | .idle => none
    | .setting call set expectdirty olddirty =>
      some (s.setTurn cpu call set expectdirty olddirty)
    | .reading => some { s with cpus := update s.cpus cpu (.clearing s.dirty) }
    | .clearing beforeClear => some (s.clearTurn cpu beforeClear)

/-! ## No write is lost -/

/-- The length of the call is in a value that was taken, or still stored. -/
def Call.Covered (c : Call) (dirty : ℕ) : Prop := (∃ v ∈ c.taken, c.len ≤ v) ∨ c.len ≤ dirty

/-- When all calls have ended, every length is covered, and those of the calls that started after
the last value was taken are covered by the stored one. -/
def Page.Kept (s : Page) : Prop :=
  (∀ cpu, s.cpus cpu = .idle) → ∀ c ∈ s.calls, c.Covered s.dirty ∧ (c.taken = [] → c.len ≤ s.dirty)

/-- The next turn of `setDirty` fails to exchange and finds the value that was read before, so that
the loop ends, and the value is below the length. -/
def Cpu.misses (dirty : ℕ) : Cpu → Bool
  | .setting _ set expectdirty olddirty =>
    expectdirty ≤ set && dirty ≠ expectdirty && dirty = olddirty && dirty < set
  | _ => false

/-- No call of `setDirty` ends on a value below its length. -/
def SeesLength (s : Page) : Action → Prop
  | .step cpu => ¬(s.cpus cpu).misses s.dirty
  | _ => True

/-- A call that runs has a number, its length, and has seen no greater length that is not covered. -/
structure Runs (calls : List Call) (dirty call set expectdirty olddirty : ℕ) (c : Call) : Prop where
  listed : calls[call]? = some c
  len : c.len = set
  expect : set < expectdirty → c.Covered dirty
  old : set < olddirty → c.Covered dirty

structure Tracked (s : Page) : Prop where
  runs : ∀ cpu call set expectdirty olddirty, s.cpus cpu = .setting call set expectdirty olddirty →
    ∃ c, Runs s.calls s.dirty call set expectdirty olddirty c
  ends : ∀ call c, s.calls[call]? = some c → c.Covered s.dirty ∨
    ∃ cpu set expectdirty olddirty, s.cpus cpu = .setting call set expectdirty olddirty

variable {s t : Page} {c : Call} {cpu call set expectdirty olddirty dirty dirty' : ℕ}
  {calls : List Call}

theorem Call.Covered.mono (h : c.Covered dirty) (le : dirty ≤ dirty') : c.Covered dirty' :=
  h.imp_right fun covered => covered.trans le

theorem Call.Covered.take (h : c.Covered dirty) :
    Call.Covered { c with taken := c.taken ++ [dirty] } 0 := by
  refine .inl ?_
  rcases h with ⟨v, mem, le⟩ | le
  · exact ⟨v, List.mem_append_left _ mem, le⟩
  · exact ⟨dirty, List.mem_append_right _ (List.mem_singleton_self _), le⟩

theorem tracked_new : Tracked .new := ⟨nofun, nofun⟩

section

variable (h : Tracked s)

include h

theorem Tracked.start (idle : s.cpus cpu = .idle) (len : ℕ) :
    Tracked { s with
      cpus := update s.cpus cpu (.setting s.calls.length len 0 0)
      calls := s.calls ++ [⟨len, []⟩] } := by
  constructor
  · intro cpu' call set expectdirty olddirty here
    dsimp only at here ⊢
    by_cases same : cpu' = cpu
    · subst same
      rw [update_self] at here
      cases here
      exact ⟨⟨len, []⟩, by simp, rfl, by simp, by simp⟩
    · rw [update_of_ne same] at here
      obtain ⟨c, runs⟩ := h.runs _ _ _ _ _ here
      have bound := (List.getElem?_eq_some_iff.mp runs.listed).1
      exact ⟨c, by rw [List.getElem?_append_left bound, runs.listed], runs.len, runs.expect, runs.old⟩
  · intro call c listed
    dsimp only at listed ⊢
    by_cases bound : call < s.calls.length
    · rw [List.getElem?_append_left bound] at listed
      refine (h.ends call c listed).imp_right fun ⟨cpu', set, expectdirty, olddirty, here⟩ => ?_
      have other : cpu' ≠ cpu := by
        rintro rfl
        exact nomatch idle.symm.trans here
      exact ⟨cpu', set, expectdirty, olddirty, by rw [update_of_ne other, here]⟩
    · have last : call = s.calls.length := by
        have := (List.getElem?_eq_some_iff.mp listed).1
        simp only [List.length_append, List.length_singleton] at this
        omega
      exact .inr ⟨cpu, len, 0, 0, by rw [update_self, last]⟩

/-- A CPU that was in no call of `setDirty` may go on to another place outside of `setDirty`. -/
theorem Tracked.move {place : Cpu}
    (before : ∀ call set expectdirty olddirty, s.cpus cpu ≠ .setting call set expectdirty olddirty)
    (after : ∀ call set expectdirty olddirty, place ≠ .setting call set expectdirty olddirty) :
    Tracked { s with cpus := update s.cpus cpu place } := by
  constructor
  · intro cpu' call set expectdirty olddirty here
    dsimp only at here ⊢
    by_cases same : cpu' = cpu
    · subst same
      rw [update_self] at here
      exact absurd here (after _ _ _ _)
    · rw [update_of_ne same] at here
      exact h.runs _ _ _ _ _ here
  · intro call c listed
    refine (h.ends call c listed).imp_right fun ⟨cpu', set, expectdirty, olddirty, here⟩ => ?_
    have other : cpu' ≠ cpu := by
      rintro rfl
      exact before _ _ _ _ here
    exact ⟨cpu', set, expectdirty, olddirty, by
      dsimp only
      rw [update_of_ne other, here]⟩

theorem Tracked.grow (le : s.dirty ≤ dirty) : Tracked { s with dirty } := by
  constructor
  · intro cpu call set expectdirty olddirty here
    obtain ⟨c, runs⟩ := h.runs _ _ _ _ _ here
    exact ⟨c, runs.listed, runs.len, fun above => (runs.expect above).mono le,
      fun above => (runs.old above).mono le⟩
  · exact fun call c listed => (h.ends call c listed).imp_left (·.mono le)

section

variable (here : s.cpus cpu = .setting call set expectdirty olddirty)

include here

theorem Tracked.finish (covered : ∀ c, s.calls[call]? = some c → c.Covered s.dirty) :
    Tracked { s with cpus := update s.cpus cpu .idle } := by
  constructor
  · intro cpu' call set expectdirty olddirty there
    dsimp only at there ⊢
    by_cases same : cpu' = cpu
    · subst same
      rw [update_self] at there
      cases there
    · rw [update_of_ne same] at there
      exact h.runs _ _ _ _ _ there
  · intro call' c listed
    rcases h.ends call' c listed with done | ⟨cpu', set', expectdirty', olddirty', there⟩
    · exact .inl done
    · by_cases same : cpu' = cpu
      · subst same
        obtain ⟨rfl, -⟩ := Cpu.setting.inj (there.symm.trans here)
        exact .inl (covered c listed)
      · refine .inr ⟨cpu', set', expectdirty', olddirty', ?_⟩
        dsimp only
        rw [update_of_ne same, there]

theorem Tracked.again :
    Tracked { s with cpus := update s.cpus cpu (.setting call set olddirty s.dirty) } := by
  obtain ⟨c, runs⟩ := h.runs _ _ _ _ _ here
  constructor
  · intro cpu' call' set' expectdirty' olddirty' there
    dsimp only at there ⊢
    by_cases same : cpu' = cpu
    · subst same
      rw [update_self] at there
      cases there
      exact ⟨c, runs.listed, runs.len, runs.old, fun above => .inr (runs.len.le.trans above.le)⟩
    · rw [update_of_ne same] at there
      exact h.runs _ _ _ _ _ there
  · intro call' c' listed
    refine (h.ends call' c' listed).imp_right fun ⟨cpu', set', expectdirty', olddirty', there⟩ => ?_
    dsimp only
    by_cases same : cpu' = cpu
    · subst same
      obtain ⟨rfl, -⟩ := Cpu.setting.inj (there.symm.trans here)
      exact ⟨cpu', _, _, _, update_self ..⟩
    · exact ⟨cpu', set', expectdirty', olddirty', by rw [update_of_ne same, there]⟩

theorem Tracked.setTurn (sees : ¬(Cpu.setting call set expectdirty olddirty).misses s.dirty) :
    Tracked (s.setTurn cpu call set expectdirty olddirty) := by
  obtain ⟨c, runs⟩ := h.runs _ _ _ _ _ here
  have only : ∀ {Q : Call → Prop}, Q c → ∀ c', s.calls[call]? = some c' → Q c' :=
    fun holds c' listed => Option.some.inj (runs.listed.symm.trans listed) ▸ holds
  unfold Page.setTurn
  by_cases above : expectdirty > set
  · rw [if_pos above]
    exact h.finish here (only (runs.expect above))
  rw [if_neg above]
  by_cases found : s.dirty = expectdirty
  · -- the exchange is made; the loop may go on all the same
    have le : s.dirty ≤ set := by omega
    split_ifs
    · exact (h.again here).grow le
    · exact (h.grow le).finish here (only (.inr runs.len.le))
  · split_ifs with changed
    · exact h.again here
    · have covers : set ≤ s.dirty := by
        simp only [Cpu.misses, Bool.and_eq_true, decide_eq_true_eq] at sees
        omega
      exact h.finish here (only (.inr (runs.len.le.trans covers)))

end

theorem Tracked.clearTurn {beforeClear : ℕ} (here : s.cpus cpu = .clearing beforeClear) :
    Tracked (s.clearTurn cpu beforeClear) := by
  unfold Page.clearTurn
  split_ifs with found
  · subst found
    have moved : Tracked { s with cpus := update s.cpus cpu .idle } :=
      h.move (by simp [here]) (by simp)
    constructor
    · intro cpu' call set expectdirty olddirty there
      obtain ⟨c, runs⟩ := moved.runs _ _ _ _ _ there
      exact ⟨{ c with taken := c.taken ++ [s.dirty] }, by simp [show s.calls[call]? = _ from runs.listed],
        runs.len, fun above => (runs.expect above).take, fun above => (runs.old above).take⟩
    · intro call c listed
      rw [List.getElem?_map, Option.map_eq_some_iff] at listed
      obtain ⟨c, listed, rfl⟩ := listed
      exact (moved.ends call c listed).imp_left (·.take)
  · exact h.move (by simp [here]) (by simp)

end

theorem Tracked.step (s : Page) (a : Action) (t : Page) (h : Tracked s) (sees : SeesLength s a)
    (taken : exec s a = some t) : Tracked t := by
  revert sees taken
  fun_cases exec s a with rintro sees ⟨⟩
  | case1 cpu len idle => exact h.start idle len
  | case3 cpu idle => exact h.move (by simp [idle]) (by simp)
  | case6 cpu call set expectdirty olddirty place => exact h.setTurn place (place ▸ sees)
  | case7 cpu place => exact h.move (by simp [place]) (by simp)
  | case8 cpu beforeClear place => exact h.clearTurn place

/-- Where no call of `setDirty` ends on a value below its length, no length is lost. -/
theorem kept_of_seesLength {actions : List Action} (run : RunWhen SeesLength exec .new actions s) :
    s.Kept := by
  have tracked := run.invariant Tracked.step tracked_new
  intro idle c mem
  obtain ⟨call, listed⟩ := List.getElem?_of_mem mem
  have covered : c.Covered s.dirty := (tracked.ends call c listed).resolve_right
    fun ⟨cpu, _, _, _, runs⟩ => nomatch (idle cpu).symm.trans runs
  refine ⟨covered, fun none => covered.resolve_left ?_⟩
  simp [none]

/-- Two CPUs mark the page at the same time, a third takes the length, and the page is marked once
more. -/
theorem kept_two_writers : ∃ s, RunWhen SeesLength exec .new
      [.setDirty 0 200, .setDirty 1 100, .step 0, .getDirtyAndClear 2, .step 1, .step 2, .step 1,
        .step 2, .setDirty 1 50, .step 1] s ∧
    s.calls = [⟨200, [200]⟩, ⟨100, [200]⟩, ⟨50, []⟩] ∧ s.dirty = 50 ∧ s.Kept := by
  refine RunWhen.reaches (.cons trivial rfl (.cons trivial rfl (.cons nofun rfl (.cons trivial rfl
    (.cons nofun rfl (.cons nofun rfl (.cons nofun rfl (.cons nofun rfl (.cons trivial rfl
      (.cons nofun rfl (.nil _))))))))))) fun run => ?_
  exact ⟨by decide, by decide, kept_of_seesLength run⟩

/-- The second length is greater, but it is not stored. -/
theorem not_kept_longer : ∃ s, Run exec .new
      [.setDirty 0 100, .step 0, .setDirty 0 200, .step 0, .step 0] s ∧
    s.calls = [⟨100, []⟩, ⟨200, []⟩] ∧ s.dirty = 100 ∧ ¬s.Kept := by
  refine ⟨_, .of_foldlM rfl, by decide, by decide, fun kept => ?_⟩
  have lost := (kept (fun cpu => ?_) ⟨200, []⟩ (by decide)).2 rfl
  · exact absurd lost (by decide)
  · simp [Page.setTurn, Page.new]

end JeoKernel.FilePage
