import JeoKernel.Exec.Pselect

/-!
# Runs of `pselect6`

`Step` says once what a step can do.  Four invariants go through a run: what the subscriptions name
(`Named`), the one permission to answer (`tokens`), the descriptors that were notified (`Signalled`),
and, until the flag `wake` is taken, that every requested descriptor is still to be subscribed to or
has a subscription that a `SetReadyRead` will find (`Watching`).
-/

namespace JeoKernel.Pselect

open List Option Function Machine Tally State FdSet SelectImpl Stage Bool

variable {H : Type*}

/-! ## Steps -/

variable {i : ℕ}

section Steps

variable [DecidableEq H] (files : ℕ → Option H) (r : Request) (s : State H)

/-- The steps, with the descriptor that `NotifyRead` is called for. -/
inductive Step : Option ℕ → State H → Prop
  | leave (here : s.place = .walking []) : Step none { s with place := .returned, aborter := true }
  | absent {fd todo} (here : s.place = .walking (fd :: todo))
      (closed : files fd = none) : Step none { s with place := .walking todo }
  | lock {fd todo h} (here : s.place = .walking (fd :: todo)) (file : files fd = some h) : Step none
        { s with place := .subscribing fd h (if s.ready h then .notify else .keep) todo }
  | callNotify {fd todo h p}
      (here : s.place = .subscribing fd h .notify todo) (taken : s.sel.notifyRead fd = some p) :
      Step (some fd) { s with sel := p.2, place := .subscribing fd h (.after p.1) todo }
  | callSubmit {fd todo h} (here : s.place = .subscribing fd h .submit todo) :
      Step none { s with queue := s.queue ++ [.read], place := .subscribing fd h .keep todo }
  | callKeep {fd todo h} (here : s.place = .subscribing fd h .keep todo) : Step none
        { s with
          subs :=
            if s.sel.keepSubscription then update s.subs h (s.subs h ++ [fd]) else s.subs
          place := .walking todo }
  | setReadyRead (h : H) (ready : Bool) (free : s.locked h = false) :
      Step none
        { s with
          ready := update s.ready h ready
          seen := update s.seen h (s.seen h || ready)
          setters :=
            s.setters ++ [⟨h, if s.ready h ≠ ready ∧ ready then s.subs h else [], .notify, []⟩] }
  | setFinish {i h stage remove} (at_i : s.setters[i]? = some ⟨h, [], stage, remove⟩) : Step none
        { s with
          subs := update s.subs h ((s.subs h).filter fun fd => fd ∉ remove)
          setters := s.setters.eraseIdx i }
  | setNotify {i fd h todo remove p} (at_i : s.setters[i]? = some ⟨h, fd :: todo, .notify, remove⟩)
      (taken : s.sel.notifyRead fd = some p) : Step (some fd)
        { s with sel := p.2, setters := s.setters.set i ⟨h, fd :: todo, .after p.1, remove⟩ }
  | setSubmit {i fd h todo remove} (at_i : s.setters[i]? = some ⟨h, fd :: todo, .submit, remove⟩) :
      Step none
        { s with
          queue := s.queue ++ [.read]
          setters := s.setters.set i ⟨h, fd :: todo, .keep, remove⟩ }
  | setKeep {i fd h todo remove} (remove' : List ℕ)
      (at_i : s.setters[i]? = some ⟨h, fd :: todo, .keep, remove⟩) :
      Step none { s with setters := s.setters.set i ⟨h, todo, .notify, remove'⟩ }
  | abort (wake : s.sel.wake = true) :
      Step none { s with sel := { s.sel with wake := false }, intrs := s.intrs + 1 }
  | stay : Step none s
  | intr (pos : 0 < s.intrs) :
      Step none { s with intrs := s.intrs - 1, queue := s.queue ++ [.intr] }
  | answer {f queue} (first : s.queue = f :: queue) (held : s.held = true) :
      Step none { s with queue := queue, answers := s.answers ++ [s.reply r f], aborter := false }
  | lost {f queue} (first : s.queue = f :: queue)
      (gone : s.held = false) : Step none { s with queue := queue }

variable {files r s} {t : State H}

theorem callStep_step (taken : s.callStep files = some t) :
    Step files r s (s.notifies .call) t := by
  revert taken
  unfold notifies
  fun_cases callStep files s with (simp only [*]; first | rintro ⟨⟩ | intro taken)
  | case1 here => exact .leave here
  | case2 fd todo here file => exact .absent here file
  | case3 fd todo here h file => exact .lock here file
  | case4 fd h todo here =>
    obtain ⟨p, notified, rfl⟩ := map_eq_some_iff.mp taken
    exact .callNotify here notified
  | case5 fd h todo here => exact .callSubmit here
  | case6 fd h todo here => exact .callKeep here

theorem setterStep_step (taken : s.setterStep i = some t) :
    Step files r s (s.notifies (.setter i)) t := by
  revert taken
  unfold notifies
  fun_cases setterStep s i with (simp only [*]; first | rintro ⟨⟩ | intro taken)
  | case3 h stage remove at_i => exact .setFinish at_i
  | case4 h fd todo remove at_i =>
    obtain ⟨p, notified, rfl⟩ := map_eq_some_iff.mp taken
    exact .setNotify at_i notified
  | case5 h fd todo remove at_i => exact .setSubmit at_i
  | case6 h fd todo remove at_i => exact .setKeep _ at_i

theorem exec_step {a : Action H} (taken : s.exec files r a = some t) :
    Step files r s (s.notifies a) t := by
  revert taken
  fun_cases exec files r s a with first | rintro ⟨⟩ | intro taken
  | case1 => exact callStep_step taken
  | case2 h ready =>
    obtain ⟨free, ⟨⟩⟩ := ite_none_left_eq_some.mp taken
    exact .setReadyRead h ready (by simpa using free)
  | case3 i => exact setterStep_step taken
  | case4 here wake => exact .abort wake
  | case5 => exact .stay
  | case7 pos => exact .intr pos
  | case10 f queue first held => exact .answer first held
  | case11 f queue first gone => exact .lost first (by simpa using gone)

end Steps

/-! ## What the subscriptions name -/

variable {seen seen' : H → Bool} {fd : ℕ}

section Named

variable (files : ℕ → Option H) (r : Request)

structure Names (fd : ℕ) (h : H) : Prop where
  file : files fd = some h
  requested : r.Requested fd

inductive Place.Named (seen : H → Bool) : Place H → Prop
  | walking {todo} (ahead : ∀ fd ∈ todo, r.Requested fd) : Named seen (.walking todo)
  | subscribing {fd h stage todo} (here : Names files r fd h)
      (seen_h : stage = .notify → seen h = true) (ahead : ∀ fd ∈ todo, r.Requested fd) :
      Named seen (.subscribing fd h stage todo)
  | returned : Named seen .returned

structure Setter.Named (seen : H → Bool) (c : Setter H) : Prop where
  finished : c.todo = [] → c.stage = .notify
  names : ∀ fd ∈ c.todo, Names files r fd c.handler ∧ seen c.handler = true

structure State.Named (s : State H) : Prop where
  n : s.sel.n = r.n
  inpSel : 0 < r.n → r.inp.isSome → s.sel.inpSel.isSome
  inpSig : 0 < r.n → r.inp.isSome → s.sel.inpSig.isSome
  seen : ∀ h, s.ready h = true → s.seen h = true
  place : s.place.Named files r s.seen
  subs : ∀ h, ∀ fd ∈ s.subs h, Names files r fd h
  setters : ∀ c ∈ s.setters, c.Named files r s.seen

variable {files r} {s t : State H}

theorem Place.Named.mono {place : Place H} (more : ∀ h, seen h = true → seen' h = true)
    (named : place.Named files r seen) :
    place.Named files r seen' := by
  cases named with
  | walking ahead => exact .walking ahead
  | subscribing here seen_h ahead => exact .subscribing here (fun stage => more _ (seen_h stage)) ahead
  | returned => exact .returned

theorem Setter.Named.mono {c : Setter H} (more : ∀ h, seen h = true → seen' h = true)
    (named : c.Named files r seen) :
    c.Named files r seen' :=
  ⟨named.finished, fun fd mem => ⟨(named.names fd mem).1, more _ (named.names fd mem).2⟩⟩

theorem State.Named.start (plain : r.Plain) (ready : H → Bool) :
    (State.start r ready).Named files r where
  n := rfl
  inpSel pos given := by simp [State.start, select, pos, given]
  inpSig pos given := by simp [State.start, select, pos, given]
  seen _ ready_h := ready_h
  place := .walking fun _ mem => plain.mem_subscribeTo.mp mem
  subs _ _ mem := by simp [State.start] at mem
  setters _ mem := by simp [State.start] at mem

theorem State.Named.set (named : s.Named files r) {c : Setter H} (goes : c.Named files r s.seen) :
    ∀ d ∈ s.setters.set i c, d.Named files r s.seen := by
  intro d mem
  rcases mem_or_eq_of_mem_set mem with old | rfl
  · exact named.setters d old
  · exact goes

theorem State.Named.notified (named : s.Named files r) {p : Bool × SelectImpl}
    (notified : s.sel.Notified fd p) {place : Place H} (named_place : place.Named files r s.seen)
    {setters : List (Setter H)} (named_setters : ∀ c ∈ setters, c.Named files r s.seen) :
    State.Named files r { s with sel := p.2, place := place, setters := setters } where
  n := notified.n.trans named.n
  inpSel pos given := by
    rw [notified.inpSel]
    exact named.inpSel pos given
  inpSig pos given := by
    rw [notified.inpSig]
    exact named.inpSig pos given
  __ := named
  place := named_place
  setters := named_setters

theorem seen_setReadyRead [DecidableEq H] (s : State H) (h : H) (ready : Bool) :
    ∀ h', s.seen h' = true → update s.seen h (s.seen h || ready) h' = true := by
  intro h' seen
  by_cases same : h' = h
  · subst same
    simp [seen]
  · rwa [update_of_ne same]

theorem State.Named.step [DecidableEq H] (named : s.Named files r) {fd : Option ℕ}
    (step : Step files r s fd t) :
    t.Named files r := by
  have subs {h : H} {fds : List ℕ} (names : ∀ fd ∈ fds, Names files r fd h) :=
    (forall_update_iff s.subs fun h fds => ∀ fd ∈ fds, Names files r fd h).mpr
      ⟨names, fun h' _ => named.subs h'⟩
  cases step with
  | leave here => exact { named with place := .returned }
  | absent here closed =>
    obtain ⟨ahead⟩ := here ▸ named.place
    exact { named with place := .walking fun fd mem => ahead fd (mem_cons_of_mem _ mem) }
  | @lock fd todo h here file =>
    obtain ⟨ahead⟩ := here ▸ named.place
    refine { named with
      place := .subscribing ⟨file, ahead fd mem_cons_self⟩ (fun stage => ?_)
        fun fd mem => ahead fd (mem_cons_of_mem _ mem) }
    by_cases ready : s.ready h = true
    · exact named.seen h ready
    · simp [ready] at stage
  | callNotify here taken =>
    obtain _ | ⟨names, seen_h, ahead⟩ := here ▸ named.place
    exact named.notified (notified_of_notifyRead taken)
      (.subscribing names (fun _ => seen_h rfl) ahead) named.setters
  | callSubmit here =>
    obtain _ | ⟨names, _, ahead⟩ := here ▸ named.place
    exact { named with place := .subscribing names (by simp) ahead }
  | @callKeep fd todo h here =>
    obtain _ | ⟨names, _, ahead⟩ := here ▸ named.place
    refine { named with place := .walking ahead, subs := ?_ }
    dsimp only
    split_ifs
    · refine subs fun fd' mem => ?_
      rcases mem_append.mp mem with old | new
      · exact named.subs h fd' old
      · exact mem_singleton.mp new ▸ names
    · exact named.subs
  | setReadyRead h ready free =>
    have more := seen_setReadyRead s h ready
    refine { named with
      seen := fun h' ready' => ?_
      place := named.place.mono more
      setters := fun c mem => ?_ }
    · dsimp only at ready' ⊢
      by_cases same : h' = h
      · subst same
        rw [update_self] at ready' ⊢
        simp [ready']
      · rw [update_of_ne same] at ready' ⊢
        exact named.seen h' ready'
    · rcases mem_append.mp mem with old | new
      · exact (named.setters c old).mono more
      · obtain rfl := mem_singleton.mp new
        refine ⟨fun _ => rfl, fun fd mem => ?_⟩
        by_cases rises : s.ready h ≠ ready ∧ ready = true
        · rw [if_pos rises] at mem
          exact ⟨named.subs h fd mem, by simp [rises.2]⟩
        · simp [rises] at mem
  | @setFinish i h stage remove at_i =>
    exact { named with
      subs := subs fun fd mem => named.subs h fd (mem_of_mem_filter mem)
      setters := fun c mem => named.setters c (mem_of_mem_eraseIdx mem) }
  | setNotify at_i taken =>
    have setter := named.setters _ (mem_of_getElem? at_i)
    exact named.notified (notified_of_notifyRead taken) named.place
      (named.set ⟨by simp, setter.names⟩)
  | setSubmit at_i =>
    have setter := named.setters _ (mem_of_getElem? at_i)
    exact { named with setters := named.set ⟨by simp, setter.names⟩ }
  | setKeep remove' at_i =>
    have setter := named.setters _ (mem_of_getElem? at_i)
    exact { named with
      setters := named.set
        ⟨fun _ => rfl, fun fd mem => setter.names fd (mem_cons_of_mem _ mem)⟩ }
  | abort wake | intr pos | answer first held | lost first gone => exact { named with }
  | stay => exact named

end Named

/-! ## One answer -/

section Once

/-- A thread at `submitAsync` may queue an answer. -/
def Stage.token : Stage → ℕ
  | .submit => 1
  | _ => 0

def Place.token : Place H → ℕ
  | .subscribing _ _ stage _ => stage.token
  | _ => 0

/-- The flag, the threads that have taken it, and what has become of it. -/
def State.tokens (s : State H) : ℕ :=
  s.sel.wake.toNat + s.place.token + tally (fun c => c.stage.token) s.setters + s.intrs +
    s.queue.length + s.answers.length

structure State.Once (s : State H) : Prop where
  tokens : s.tokens = 1
  aborter : s.place = .returned → s.aborter = true ∨ s.answers ≠ []

variable {files : ℕ → Option H} {r : Request} {s t : State H}

theorem token_notify : notify.token = 0 := rfl

theorem token_submit : submit.token = 1 := rfl

theorem token_keep : keep.token = 0 := rfl

theorem token_after (wake : Bool) : (after wake).token = wake.toNat := by
  cases wake <;> rfl

theorem State.Once.start (r : Request) (ready : H → Bool) : (State.start r ready).Once where
  tokens := rfl
  aborter here := by simp [State.start] at here

theorem State.Once.held (once : s.Once) (queued : s.queue ≠ []) : s.held = true := by
  have pos : 0 < s.queue.length := length_pos_of_ne_nil queued
  have tokens := once.tokens
  unfold State.tokens at tokens
  cases here : s.place with
  | returned =>
    rcases once.aborter here with aborter | answered
    · simp [State.held, aborter]
    · have := length_pos_of_ne_nil answered
      omega
  | walking todo | subscribing fd h stage todo => simp [State.held, here]

theorem State.Once.step [DecidableEq H] (named : s.Named files r) (once : s.Once) {fd : Option ℕ}
    (step : Step files r s fd t) : t.Once := by
  have tokens := once.tokens
  unfold State.tokens at tokens
  cases step with
  | leave here =>
    rw [here] at tokens
    exact ⟨tokens, fun _ => .inl rfl⟩
  | absent here closed | callKeep here =>
    rw [here] at tokens
    exact ⟨tokens, by simp⟩
  | @lock fd todo h here file =>
    rw [here] at tokens
    refine ⟨?_, by simp⟩
    have none : (if s.ready h then notify else keep).token = 0 := by
      by_cases ready : s.ready h = true <;> simp [ready, token_notify, token_keep]
    simpa only [State.tokens, Place.token, none] using tokens
  | callNotify here taken =>
    have notified := notified_of_notifyRead taken
    refine ⟨?_, by simp⟩
    simp only [here, Place.token, token_notify] at tokens
    simp only [State.tokens, Place.token, token_after, notified.flag, notified.wake, toNat_false]
    omega
  | callSubmit here =>
    refine ⟨?_, by simp⟩
    simp only [here, Place.token, token_submit] at tokens
    simp only [State.tokens, Place.token, token_keep, length_append, length_singleton]
    omega
  | setReadyRead h ready free =>
    refine ⟨?_, once.aborter⟩
    simp only [State.tokens, tally_append]
    exact tokens
  | setFinish at_i =>
    refine ⟨?_, once.aborter⟩
    have finished := (named.setters _ (mem_of_getElem? at_i)).finished rfl
    have erased := tally_eraseIdx at_i fun c => c.stage.token
    rw [finished] at erased
    rw [token_notify] at erased
    simp only [State.tokens]
    omega
  | @setNotify i fd h todo remove p at_i taken =>
    have notified := notified_of_notifyRead taken
    refine ⟨?_, once.aborter⟩
    have moved := tally_set at_i (fun c => c.stage.token) ⟨h, fd :: todo, .after p.1, remove⟩
    simp only [token_after, token_notify] at moved
    simp only [State.tokens, notified.wake, toNat_false]
    rw [notified.flag] at moved ⊢
    omega
  | @setSubmit i fd h todo remove at_i =>
    refine ⟨?_, once.aborter⟩
    have moved := tally_set at_i (fun c => c.stage.token) ⟨h, fd :: todo, .keep, remove⟩
    simp only [token_submit, token_keep] at moved
    simp only [State.tokens, length_append, length_singleton]
    omega
  | @setKeep i fd h todo remove remove' at_i =>
    refine ⟨?_, once.aborter⟩
    have moved := tally_set at_i (fun c => c.stage.token) ⟨h, todo, .notify, remove'⟩
    simp only [token_keep, token_notify] at moved
    simp only [State.tokens]
    omega
  | abort wake =>
    refine ⟨?_, once.aborter⟩
    simp only [wake, toNat_true] at tokens
    simp only [State.tokens, toNat_false]
    omega
  | stay => exact once
  | intr pos =>
    refine ⟨?_, once.aborter⟩
    simp only [State.tokens, length_append, length_singleton]
    omega
  | answer first held =>
    refine ⟨?_, fun _ => .inr (by simp)⟩
    simp only [first, length_cons] at tokens
    simp only [State.tokens, length_append, length_singleton]
    omega
  | lost first gone =>
    have := once.held (by simp [first])
    simp [gone] at this

end Once

/-! ## The descriptors that were notified -/

variable {h : H}

section Signalled

variable (files : ℕ → Option H) (r : Request)

structure State.Signalled (s : State H) : Prop where
  sig : ∀ fd, s.sel.sig.isSet fd = true → ∃ h, Names files r fd h ∧ s.seen h = true
  counted : s.answers = [] → s.sel.sigN = s.sel.sig.count r.n
  truthful : ∀ a ∈ s.answers, 0 ≤ a.value → Truthful files r s.seen a

variable {files r} {s t : State H}

theorem Truthful.mono {a : Answer} (more : ∀ h, seen h = true → seen' h = true)
    (truthful : Truthful files r seen a) :
    Truthful files r seen' a where
  subset set given fd inside isSet := by
    obtain ⟨requested, h, file, seen_h⟩ := truthful.subset set given fd inside isSet
    exact ⟨requested, h, file, more h seen_h⟩
  count := truthful.count

theorem State.Signalled.start (ready : H → Bool) : (State.start r ready).Signalled files r := by
  have clear : ∀ fd, (State.start r ready).sel.sig.isSet fd = false := by
    simp only [State.start, SelectImpl.sig, select]
    by_cases pos : 0 < r.n
    · cases r.inp <;> simp [pos, isSet_zero]
    · simp [pos, isSet_zero]
  refine ⟨fun fd isSet => ?_, fun _ => ?_, fun a mem => ?_⟩
  · simp [clear fd] at isSet
  · rw [count_eq_zero clear]
    rfl
  · simp [State.start] at mem

theorem State.Signalled.reply (named : s.Named files r) (signalled : s.Signalled files r)
    (unanswered : s.answers = []) {f : Queued} (nonneg : 0 ≤ (s.reply r f).value) :
    Truthful files r s.seen (s.reply r f) := by
  cases f with
  | intr => simp [State.reply] at nonneg
  | read =>
    refine ⟨fun set given fd inside isSet => ?_, ?_⟩
    · simp only [State.reply, copyBack, named.n] at given
      obtain ⟨old, _, rfl⟩ := map_eq_some_iff.mp given
      rw [isSet_overwrite inside] at isSet
      obtain ⟨h, names, seen⟩ := signalled.sig fd isSet
      exact ⟨names.requested, h, names.file, seen⟩
    · have cleared : ∀ u : Option FdSet,
          (u.map (overwrite (sizeOfFdSet r.n) zero)).elim 0 (·.count r.n) = 0 := by
        intro u
        cases u with
        | none => rfl
        | some old => simp [count_overwrite, count_eq_zero isSet_zero]
      have read : (r.inp.map (overwrite (sizeOfFdSet r.n) s.sel.sig)).elim 0
          (·.count r.n) = s.sel.sig.count r.n := by
        cases given : r.inp with
        | some old => simp [count_overwrite]
        | none =>
          -- without a read set no descriptor is requested, so none was notified
          refine (count_eq_zero fun fd => ?_).symm
          rw [eq_false_iff]
          intro isSet
          obtain ⟨h, names, -⟩ := signalled.sig fd isSet
          obtain ⟨-, set, mem, -⟩ := names.requested
          simp [given] at mem
      simp only [State.reply, copyBack, Sets.count, named.n, cleared, read,
        signalled.counted unanswered, add_zero]

/-- `NotifyRead` of a descriptor that is named by the thread that calls it. -/
theorem State.Signalled.notified (named : s.Named files r) (signalled : s.Signalled files r)
    (names : Names files r fd h) (seen : s.seen h = true)
    (fresh : s.answers = [] → s.sel.sig.isSet fd = false) {p : Bool × SelectImpl}
    (notified : s.sel.Notified fd p) (place : Place H) (setters : List (Setter H)) :
    State.Signalled files r { s with sel := p.2, place := place, setters := setters } := by
  have below : fd < s.sel.n := by
    rw [named.n]
    exact names.requested.1
  refine ⟨fun fd' isSet => ?_, fun unanswered => ?_, signalled.truthful⟩
  · simp only [notified.sig below, isSet_set, or_eq_true, decide_eq_true_eq] at isSet
    rcases isSet with rfl | old
    · exact ⟨h, names, seen⟩
    · exact signalled.sig fd' old
  · simp only [notified.sig below, notified.sigN below]
    rw [count_set names.requested.1 (fresh unanswered), signalled.counted unanswered]

theorem State.Signalled.step [DecidableEq H] (named : s.Named files r) (once : s.Once)
    (signalled : s.Signalled files r) {fd : Option ℕ}
    (fresh : ∀ fd' ∈ fd, s.answers = [] → s.sel.sig.isSet fd' = false)
    (step : Step files r s fd t) : t.Signalled files r := by
  cases step with
  | leave here | absent here closed | lock here file | callSubmit here | callKeep here
  | setFinish at_i | setSubmit at_i | setKeep remove' at_i | abort wake | intr pos
  | lost first gone => exact { signalled with }
  | callNotify here taken =>
    obtain _ | ⟨names, seen_h, -⟩ := here ▸ named.place
    exact signalled.notified named names (seen_h rfl) (fresh _ rfl)
      (notified_of_notifyRead taken) _ _
  | setReadyRead h ready free =>
    have more := seen_setReadyRead s h ready
    refine ⟨fun fd isSet => ?_, signalled.counted, fun a mem nonneg =>
      (signalled.truthful a mem nonneg).mono more⟩
    obtain ⟨h', names, seen⟩ := signalled.sig fd isSet
    exact ⟨h', names, more h' seen⟩
  | setNotify at_i taken =>
    obtain ⟨names, seen⟩ :=
      (named.setters _ (mem_of_getElem? at_i)).names _ mem_cons_self
    exact signalled.notified named names seen (fresh _ rfl)
      (notified_of_notifyRead taken) _ _
  | stay => exact signalled
  | answer first held =>
    have unanswered : s.answers = [] := by
      have tokens := once.tokens
      simp only [State.tokens, first, length_cons] at tokens
      exact eq_nil_of_length_eq_zero (by omega)
    refine ⟨signalled.sig, fun empty => by simp at empty, fun a mem nonneg => ?_⟩
    rw [unanswered, nil_append] at mem
    obtain rfl := mem_singleton.mp mem
    exact signalled.reply named unanswered nonneg

end Signalled

/-! ## Until the flag is taken -/

section Watching

/-- A requested descriptor is still to be subscribed to, or its handler has a subscription; if the
handler is ready, a `SetReadyRead` is on its way to notify it. -/
inductive Covered (place : Place H) (ready : H → Bool) (subs : H → List ℕ)
    (setters : List (Setter H)) (fd : ℕ) (h : H) : Prop
  | ahead {todo} (here : place = .walking todo) (mem : fd ∈ todo)
  | later {fd' h' stage todo} (here : place = .subscribing fd' h' stage todo) (mem : fd ∈ todo)
  | inside {stage todo} (here : place = .subscribing fd h stage todo)
      (waits : stage = .keep → ready h = false)
  | subscribed (mem : fd ∈ subs h)
      (found : ready h = true → ∃ c ∈ setters, c.handler = h ∧ fd ∈ c.todo)

variable (files : ℕ → Option H) (r : Request)

structure State.Watching (s : State H) : Prop where
  inpSel : s.sel.inpSel = (SelectImpl.select r).inpSel
  setters : ∀ c ∈ s.setters, c.stage = .notify ∧ c.remove = []
  covered : ∀ fd h, Names files r fd h → Covered s.place s.ready s.subs s.setters fd h

variable {files r} {s t : State H}

theorem State.Watching.start (plain : r.Plain) (ready : H → Bool) :
    (State.start r ready).Watching files r where
  inpSel := rfl
  setters _ mem := by simp [State.start] at mem
  covered _ _ names := .ahead rfl (plain.mem_subscribeTo.mpr names.requested)

theorem State.Watching.lock (watching : s.Watching files r) {todo : List ℕ}
    (here : s.place = .walking (fd :: todo)) (file : files fd = some h) :
    State.Watching files r
      { s with place := .subscribing fd h (if s.ready h then .notify else .keep) todo } := by
  refine { watching with covered := fun fd' h' names => ?_ }
  cases watching.covered fd' h' names with
  | ahead place mem =>
    rw [here] at place
    obtain rfl := Place.walking.inj place
    rcases mem_cons.mp mem with rfl | later
    · obtain rfl : h = h' := some.inj (file.symm.trans names.file)
      refine .inside rfl fun keep => ?_
      by_cases ready : s.ready h = true
      · simp [ready] at keep
      · simpa using ready
    · exact .later rfl later
  | later place mem | inside place waits => simp [here] at place
  | subscribed mem found => exact .subscribed mem found

variable [DecidableEq H]

theorem State.Watching.keep (plain : r.Plain) (named : s.Named files r)
    (watching : s.Watching files r) {todo : List ℕ} (here : s.place = .subscribing fd h .keep todo) :
    State.Watching files r
      { s with
        subs :=
          if s.sel.keepSubscription then update s.subs h (s.subs h ++ [fd]) else s.subs
        place := .walking todo } := by
  obtain _ | ⟨current, -, -⟩ := here ▸ named.place
  have keeps := plain.keepSubscription current.requested named.n watching.inpSel
  have stays : ∀ h', ∀ fd' ∈ s.subs h', fd' ∈ update s.subs h (s.subs h ++ [fd]) h' :=
    (forall_update_iff s.subs fun h' fds => ∀ fd' ∈ s.subs h', fd' ∈ fds).mpr
      ⟨fun fd' => mem_append_left _, fun h' _ fd' => id⟩
  refine { watching with covered := fun fd' h' names => ?_ }
  rw [if_pos keeps]
  cases watching.covered fd' h' names with
  | ahead place mem => simp [here] at place
  | later place mem =>
    obtain ⟨-, -, -, rfl⟩ := Place.subscribing.inj (here.symm.trans place)
    exact .ahead rfl mem
  | inside place waits =>
    obtain ⟨rfl, rfl, rfl, -⟩ := Place.subscribing.inj (here.symm.trans place)
    refine .subscribed (by simp) fun ready => ?_
    simp [waits rfl] at ready
  | subscribed mem found => exact .subscribed (stays h' fd' mem) found

theorem State.Watching.setReadyRead (watching : s.Watching files r) {ready : Bool}
    (free : s.locked h = false) :
    State.Watching files r
      { s with
        ready := update s.ready h ready
        seen := update s.seen h (s.seen h || ready)
        setters :=
          s.setters ++ [⟨h, if s.ready h ≠ ready ∧ ready then s.subs h else [], .notify, []⟩] } := by
  refine { watching with setters := fun c mem => ?_, covered := fun fd h' names => ?_ }
  · rcases mem_append.mp mem with old | new
    · exact watching.setters c old
    · obtain rfl := mem_singleton.mp new
      exact ⟨rfl, rfl⟩
  · dsimp only
    cases watching.covered fd h' names with
    | ahead place mem => exact .ahead place mem
    | later place mem => exact .later place mem
    | inside place waits =>
      have other : h' ≠ h := by
        rintro rfl
        simp [locked, place] at free
      refine .inside place fun keep => ?_
      rw [update_of_ne other]
      exact waits keep
    | subscribed mem found =>
      refine .subscribed mem fun now => ?_
      by_cases before : s.ready h' = true
      · obtain ⟨c, old, same⟩ := found before
        exact ⟨c, mem_append_left _ old, same⟩
      · obtain rfl : h' = h := by
          by_contra other
          rw [update_of_ne other] at now
          exact before now
        rw [update_self] at now
        refine ⟨_, mem_append_right _ mem_cons_self, rfl, ?_⟩
        simpa [now, before] using mem

theorem State.Watching.finish (watching : s.Watching files r) {stage : Stage} {remove : List ℕ}
    (at_i : s.setters[i]? = some ⟨h, [], stage, remove⟩) :
    State.Watching files r
      { s with
        subs := update s.subs h ((s.subs h).filter fun fd => fd ∉ remove)
        setters := s.setters.eraseIdx i } := by
  have none : remove = [] := (watching.setters _ (mem_of_getElem? at_i)).2
  have same : update s.subs h ((s.subs h).filter fun fd => fd ∉ remove) = s.subs := by
    simp [none]
  refine { watching with
    setters := fun c mem => watching.setters c (mem_of_mem_eraseIdx mem)
    covered := fun fd h' names => ?_ }
  rw [same]
  cases watching.covered fd h' names with
  | ahead place mem => exact .ahead place mem
  | later place mem => exact .later place mem
  | inside place waits => exact .inside place waits
  | subscribed mem found =>
    refine .subscribed mem fun ready => ?_
    obtain ⟨c, old, handler, todo⟩ := found ready
    obtain ⟨j, at_j⟩ := mem_iff_getElem?.mp old
    refine ⟨c, mem_eraseIdx_iff_getElem?.mpr ⟨j, ?_, at_j⟩, handler, todo⟩
    -- the setter that finishes has nothing left to notify
    rintro rfl
    obtain rfl := some.inj (at_i.symm.trans at_j)
    simp at todo

theorem State.Watching.step (plain : r.Plain) (named : s.Named files r) (once : s.Once)
    (watching : s.sel.wake = true → s.Watching files r) {fd : Option ℕ}
    (step : Step files r s fd t) (wake : t.sel.wake = true) : t.Watching files r := by
  cases step with
  | leave here =>
    refine { watching wake with covered := fun fd h names => ?_ }
    cases (watching wake).covered fd h names with
    | ahead place mem =>
      rw [here] at place
      obtain rfl := Place.walking.inj place
      simp at mem
    | later place mem | inside place waits => simp [here] at place
    | subscribed mem found => exact .subscribed mem found
  | absent here closed =>
    refine { watching wake with covered := fun fd h names => ?_ }
    cases (watching wake).covered fd h names with
    | ahead place mem =>
      rw [here] at place
      obtain rfl := Place.walking.inj place
      rcases mem_cons.mp mem with rfl | later
      · simp [names.file] at closed
      · exact .ahead rfl later
    | later place mem | inside place waits => simp [here] at place
    | subscribed mem found => exact .subscribed mem found
  | lock here file => exact (watching wake).lock here file
  | callNotify here taken | setNotify at_i taken =>
    simp [(notified_of_notifyRead taken).wake] at wake
  | callSubmit here =>
    have tokens := once.tokens
    have raised : s.sel.wake = true := wake
    simp only [State.tokens, here, Place.token, token_submit, raised, toNat_true]
      at tokens
    omega
  | callKeep here => exact (watching wake).keep plain named here
  | setReadyRead h ready free => exact (watching wake).setReadyRead free
  | setFinish at_i => exact (watching wake).finish at_i
  | setSubmit at_i | setKeep remove' at_i =>
    simpa using ((watching wake).setters _ (mem_of_getElem? at_i)).1
  | abort _ => simp at wake
  | stay => exact watching wake
  | intr pos | answer first held | lost first gone => exact { watching wake with }

end Watching

/-! ## Runs -/

section Runs

variable (files : ℕ → Option H) (r : Request)

instance [DecidableEq H] (s : State H) (a : Action H) : Decidable (s.Fresh a) :=
  inferInstanceAs (Decidable (∀ fd ∈ s.notifies a, s.answers = [] → s.sel.sig.isSet fd = false))

structure State.Inv (s : State H) : Prop where
  named : s.Named files r
  once : s.Once
  signalled : s.Signalled files r
  watching : s.sel.wake = true → s.Watching files r

variable {files r} {s t : State H}

theorem State.Inv.requested [DecidableEq H] (inv : s.Inv files r) {a : Action H}
    (notifies : fd ∈ s.notifies a) : r.Requested fd := by
  cases a with
  | call =>
    cases here : s.place with
    | subscribing fd' h stage todo =>
      cases stage with
      | notify =>
        obtain rfl : fd' = fd := by simpa [State.notifies, here] using notifies
        obtain _ | ⟨names, -, -⟩ := here ▸ inv.named.place
        exact names.requested
      | submit | keep => simp [State.notifies, here] at notifies
    | walking todo | returned => simp [State.notifies, here] at notifies
  | setter i =>
    cases at_i : s.setters[i]? with
    | none => simp [State.notifies, at_i] at notifies
    | some c =>
      have setter := inv.named.setters c (mem_of_getElem? at_i)
      obtain ⟨h, todo, stage, remove⟩ := c
      cases todo with
      | nil => simp [State.notifies, at_i] at notifies
      | cons fd' todo =>
        cases stage with
        | notify =>
          obtain rfl : fd' = fd := by simpa [State.notifies, at_i] using notifies
          exact (setter.names fd' mem_cons_self).1.requested
        | submit | keep => simp [State.notifies, at_i] at notifies
  | setReadyRead h ready | abort | intr | answer => simp [State.notifies] at notifies

theorem State.Inv.sound [DecidableEq H] (inv : s.Inv files r) : s.Sound files r where
  once := by
    have tokens := inv.once.tokens
    unfold State.tokens at tokens
    omega
  truthful := inv.signalled.truthful
  answered := by
    intro quiet fd h requested file ready
    by_cases wake : s.sel.wake = true
    · cases (inv.watching wake).covered fd h ⟨file, requested⟩ with
      | ahead place mem | later place mem | inside place waits => simp [quiet.returned] at place
      | subscribed mem found =>
        obtain ⟨c, listed, -⟩ := found ready
        simp [quiet.setters] at listed
    · have tokens := inv.once.tokens
      by_cases queued : s.queue = []
      · left
        rintro answered
        simp [State.tokens, wake, quiet.returned, quiet.setters, quiet.intrs, queued, answered,
          Place.token, tally] at tokens
      · exact .inr ⟨queued, inv.once.held queued⟩
  safe := by
    intro a fd notifies
    obtain ⟨below, set, given, -⟩ := inv.requested notifies
    have inp : r.inp.isSome := isSome_of_mem given
    exact notifyRead_ne_none (inv.named.inpSel (by omega) inp)
      (inv.named.inpSig (by omega) inp)

theorem State.sound_of_plain [DecidableEq H] (plain : r.Plain) {ready : H → Bool}
    {as : List (Action H)}
    (run : RunWhen State.Fresh (State.exec files r) (State.start r ready) as t) :
    t.Sound files r := by
  have start : (start r ready).Inv files r :=
    ⟨.start plain ready, .start r ready, .start ready, fun _ => .start plain ready⟩
  refine (run.invariant (fun s a t inv fresh taken => ?_) start : t.Inv files r).sound
  have step := exec_step taken
  exact ⟨inv.named.step step, inv.once.step inv.named step,
    inv.signalled.step inv.named inv.once fresh step,
    State.Watching.step plain inv.named inv.once inv.watching step⟩

/-- A request to read from the descriptors. -/
def reading (fds : List ℕ) (n : ℕ) (int : n < 2 ^ 31) : Request :=
  ⟨⟨some (fds.foldl FdSet.set FdSet.zero), none, none⟩, n, int⟩

theorem plain_reading {fds : List ℕ} {n : ℕ} {int : n < 2 ^ 31} (low : ∀ fd ∈ fds, fd < 32) :
    (reading fds n int).Plain := by
  refine ⟨fun set given => ?_, by simp [reading], by simp [reading]⟩
  cases given
  exact low_foldl_set low n

/-- The descriptors 3 and 5 are asked for, and 5 becomes ready. -/
theorem sound_one_ready :
    ∃ t : State ℕ,
      RunWhen State.Fresh (State.exec some (reading [3, 5] 8 (by decide)))
        (State.start (reading [3, 5] 8 (by decide)) fun _ => false)
        [.call, .call, .call, .call, .call, .setReadyRead 5 true, .setter 0, .setter 0, .setter 0,
          .setter 0, .answer] t ∧
      t.answers.map Answer.value = [1] ∧
      t.Sound some (reading [3, 5] 8 (by decide)) := by
  refine RunWhen.exists_and (f := fun t => t.answers.map Answer.value) (by decide +kernel)
    fun t run value => ⟨value, sound_of_plain (plain_reading (by decide)) run⟩

def readAndWrite : Request :=
  ⟨⟨some ([3].foldl FdSet.set FdSet.zero), some ([5].foldl FdSet.set FdSet.zero), none⟩, 8, by decide⟩

/-- Descriptor 40 alone is not subscribed to, and the call waits although it is ready.  Descriptor 5 of
the write set is written back in the read set.  Descriptor 3 is counted twice when it becomes ready
again before the answer. -/
theorem not_sound_pselect :
    (∃ t : State ℕ,
      Run (State.exec some (reading [40] 64 (by decide)))
        (.start (reading [40] 64 (by decide)) fun _ => true) [.call] t ∧
      ¬t.Sound some (reading [40] 64 (by decide))) ∧
    (∃ t : State ℕ,
      Run (State.exec some readAndWrite) (.start readAndWrite fun h => h = 5)
        [.call, .call, .call, .call, .call, .answer] t ∧ ¬t.Sound some readAndWrite) ∧
    ∃ t : State ℕ,
      Run (State.exec some (reading [3, 5] 8 (by decide)))
        (.start (reading [3, 5] 8 (by decide)) fun h => h = 3)
        [.call, .call, .call, .call, .setReadyRead 3 false, .setReadyRead 3 true, .setter 1, .answer]
        t ∧
      ¬t.Sound some (reading [3, 5] 8 (by decide)) := by
  refine ⟨?_, ?_, ?_⟩
  · have listed : (reading [40] 64 (by decide)).subscribeTo = zero := by
      have none : ([40].foldl set zero).forEach 64 = [] := by decide +kernel
      simp only [reading, Request.subscribeTo, listed, elim_some, elim_none, none, foldl_nil]
    have walked : zero.forEach 64 = [] := by decide +kernel
    refine ⟨{ start (reading [40] 64 (by decide)) (fun _ => true) with
      place := .returned, aborter := true }, .cons trivial ?_ (.nil _), fun sound => ?_⟩
    · simp only [exec, callStep, start, listed]
      simp only [reading, walked]
    · have waits := sound.answered ⟨rfl, rfl, rfl⟩ 40 40
        ⟨by decide, _, rfl, by decide +kernel⟩ rfl rfl
      simp [start] at waits
  · refine RunWhen.exists_and (f := fun t => t.answers.map fun a => (a.value, a.sets.inp.any (·.isSet 5)))
      (v := [(1, true)]) (by decide +kernel) fun t _ data sound => ?_
    obtain ⟨a, answers, pair⟩ := map_eq_singleton_iff.mp data
    obtain ⟨value, stray⟩ := Prod.mk.inj pair
    obtain ⟨set, given, isSet⟩ := (Option.any_eq_true ..).mp stray
    have truthful := sound.truthful a (by simp [answers]) (by omega)
    obtain ⟨⟨-, read, inp, requested⟩, -⟩ := truthful.subset set given 5 (by decide) isSet
    cases inp
    exact absurd requested (by decide +kernel)
  · refine RunWhen.exists_and (f := fun t => t.answers.map fun a => (a.value, a.sets.count 8))
      (v := [(2, 1)]) (by decide +kernel) fun t _ data sound => ?_
    obtain ⟨a, answers, pair⟩ := map_eq_singleton_iff.mp data
    obtain ⟨value, count⟩ := Prod.mk.inj pair
    have truthful := (sound.truthful a (by simp [answers]) (by omega)).count
    rw [value, show (reading [3, 5] 8 (by decide)).n = 8 from rfl, count] at truthful
    cases truthful

/-- Also where a descriptor is notified twice, the call is answered at most once, a queued answer finds
the call, and no requested descriptor is missed until the flag is taken. -/
theorem State.answeredOnce_of_run [DecidableEq H] (plain : r.Plain) {ready : H → Bool}
    {as : List (Action H)} (run : Run (State.exec files r) (State.start r ready) as t) :
    t.answers.length ≤ 1 ∧ (t.queue ≠ [] → t.held = true) ∧
      (t.sel.wake = true → t.Watching files r) := by
  obtain ⟨-, once, watching⟩ := run.invariant
    (I := fun s => s.Named files r ∧ s.Once ∧ (s.sel.wake = true → s.Watching files r))
    (fun s a t ⟨named, once, watching⟩ _ taken =>
      ⟨named.step (exec_step taken), once.step named (exec_step taken),
        State.Watching.step plain named once watching (exec_step taken)⟩)
    ⟨.start plain ready, .start r ready, fun _ => .start plain ready⟩
  have tokens := once.tokens
  unfold State.tokens at tokens
  exact ⟨by omega, once.held, watching⟩

/-- Descriptor 3 becomes ready twice before the answer, and is counted twice. -/
theorem answeredOnce_twice_ready :
    ∃ t : State ℕ,
      Run (State.exec some (reading [3] 8 (by decide)))
        (.start (reading [3] 8 (by decide)) fun _ => false)
        [.call, .call, .call, .setReadyRead 3 true, .setReadyRead 3 false, .setReadyRead 3 true,
          .setter 0, .setter 2, .setter 0, .answer] t ∧
      t.answers.map Answer.value = [2] ∧ t.answers.length ≤ 1 := by
  refine RunWhen.exists_and (f := fun t => t.answers.map Answer.value) (by decide +kernel)
    fun t run value => ⟨value, (State.answeredOnce_of_run (plain_reading (by decide)) run).1⟩

end Runs

end JeoKernel.Pselect
