import Lima.Sched.Retire

/-!
# Every step keeps the bookkeeping

Dispatching, killing and freeing a job, and from these and the other steps the
invariant of all runs.
-/

namespace Lima

namespace Dev

/-- What `drm_sched` has made sure of when it hands a job to `run_job`. -/
structure Ready (d : Dev) (t : TaskId) : Prop where
  state : (d.task t).state = .queued ∨ (d.task t).state = .pending
  unfinished : (d.task t).finished = false
  detached : ∀ f, (d.fence f).cb ≠ some t
  idle : d.inFlight (d.task t).pipe = false

/-- The pipe leaves the timeout, if it was in one. -/
def leaveTimeout (d : Dev) (p : PipeId) (next : Option (TaskId × TimedoutPc)) : Dev :=
  d.modPipe p fun x => { x with timedout := next }

/-! ## The kinds of steps -/

/-- The job that a timeout runs again, with the error its karma has earned it. -/
def cancelled (u : TaskId) (cancel : Bool) (d : Dev) : Dev :=
  d.modTask u fun task =>
    { task with finishedError := if cancel then some .ecanceled else task.finishedError }

theorem timedoutResubmit_cases {d d' : Dev} {p : PipeId} {t u : TaskId} {cancel : Bool} {env : RunEnv}
    (hd : d.timedoutResubmit p t u cancel env = .ok d') :
    ∃ d₁, (GaveUp env u (cancelled u cancel d) d₁ ∨ Started env u (cancelled u cancel d) d₁) ∧
      d' = d₁.leaveTimeout p (some (t, .resubmitted)) := by
  obtain ⟨d₁, hrun, hd⟩ := Outcome.bind_eq_ok hd
  exact ⟨d₁, dispatch_cases hrun, (Outcome.ok.inj hd).symm⟩

/-- A step is one of a user, or one of the scheduler and the hardware. -/
theorem devStep_cases {d d' : Dev} {cfg : DevConfig} {e : DevEvent} (hd : devStep cfg d e = some d') :
    userStep cfg d e = some d' ∨ schedStep cfg d e = some d' := by
  unfold devStep at hd
  cases hu : userStep cfg d e with
  | none =>
      rw [hu] at hd
      exact .inr hd
  | some d₁ =>
      rw [hu] at hd
      exact .inl hd

/-- The GP reports the end of its lists and no error. -/
def GpEnds (e : DevEvent) : Prop :=
  ∃ st active, e = .gpIrq st active ∧ st.error = false ∧ st.done active = true

/-- What a step has been. The steps of users and the quiet ones are not told apart;
the others are the calls that start or retire a job. -/
inductive Move : DevEvent → Dev → Dev → Prop
  | user {e : DevEvent} {d d' : Dev} : d.UserMove d' → d'.TasksWf → Move e d d'
  | quiet {e : DevEvent} {d d' : Dev} : d.Quiet d' → Move e d d'
  | completes {e : DevEvent} {p : PipeId} {t : TaskId} {d d₁ d' : Dev} :
      (p = .gp → GpEnds e) → Completes p t d d₁ d' → Move e d d'
  | runJob {t : TaskId} {env : RunEnv} {d d' : Dev} : d.CanRun t →
      d.dispatch env t = .ok d' → Move (.runJob t env) d d'
  | killJob {t : TaskId} {d : Dev} : (d.task t).state = .queued →
      Move (.killJob t) d (d.killJob t)
  | freeJob {t : TaskId} {fuel : ℕ} {d d' : Dev} : d.CanFree t →
      limaSchedFreeJob fuel d t = .ok d' → Move (.freeJob t fuel) d d'
  | clear {p : PipeId} {t : TaskId} {d d' : Dev} :
      (d.pipe p).timedout = some (t, .reset) → d.timedoutClear p t = .ok d' →
      Move (.timedoutClear p) d d'
  | resubmit {p : PipeId} {t u : TaskId} {cancel : Bool} {env : RunEnv} {d d' : Dev} :
      (d.pipe p).timedout = some (t, .cleared) → d.Unfinished p u →
      d.timedoutResubmit p t u cancel env = .ok d' →
      Move (.timedoutResubmit p u cancel env) d d'
  | release {p : PipeId} {resetOk : Bool} {task : Option TaskId} {d d' : Dev} :
      (d.pipe p).fini = .checked task → d.finiRelease p resetOk task = .ok d' →
      Move (.finiRelease p resetOk) d d'

/-- The moves of the scheduler and the hardware. -/
inductive SchedMove : DevEvent → Dev → Dev → Prop
  | quiet {e : DevEvent} {d d' : Dev} : d.Quiet d' → SchedMove e d d'
  | completes {e : DevEvent} {p : PipeId} {t : TaskId} {d d₁ d' : Dev} :
      (p = .gp → GpEnds e) → Completes p t d d₁ d' → SchedMove e d d'
  | runJob {t : TaskId} {env : RunEnv} {d d' : Dev} : d.CanRun t →
      d.dispatch env t = .ok d' → SchedMove (.runJob t env) d d'
  | killJob {t : TaskId} {d : Dev} : (d.task t).state = .queued →
      SchedMove (.killJob t) d (d.killJob t)
  | freeJob {t : TaskId} {fuel : ℕ} {d d' : Dev} : d.CanFree t →
      limaSchedFreeJob fuel d t = .ok d' → SchedMove (.freeJob t fuel) d d'
  | clear {p : PipeId} {t : TaskId} {d d' : Dev} :
      (d.pipe p).timedout = some (t, .reset) → d.timedoutClear p t = .ok d' →
      SchedMove (.timedoutClear p) d d'
  | resubmit {p : PipeId} {t u : TaskId} {cancel : Bool} {env : RunEnv} {d d' : Dev} :
      (d.pipe p).timedout = some (t, .cleared) → d.Unfinished p u →
      d.timedoutResubmit p t u cancel env = .ok d' →
      SchedMove (.timedoutResubmit p u cancel env) d d'
  | release {p : PipeId} {resetOk : Bool} {task : Option TaskId} {d d' : Dev} :
      (d.pipe p).fini = .checked task → d.finiRelease p resetOk task = .ok d' →
      SchedMove (.finiRelease p resetOk) d d'

theorem SchedMove.move {e : DevEvent} {d d' : Dev} (m : SchedMove e d d') : Move e d d' := by
  cases m with
  | quiet q => exact .quiet q
  | completes hp c => exact .completes hp c
  | runJob hr hd => exact .runJob hr hd
  | killJob ht => exact .killJob ht
  | freeJob hf hd => exact .freeJob hf hd
  | clear ht hd => exact .clear ht hd
  | resubmit ht hu hd => exact .resubmit ht hu hd
  | release hc hd => exact .release hc hd

theorem schedStep_move {d d' : Dev} {cfg : DevConfig} {e : DevEvent}
    (hs : schedStep cfg d e = some d') : SchedMove e d d' := by
  cases e with
  | runJob t env =>
      obtain ⟨hr, hd⟩ := guarded_eq_some hs
      exact .runJob hr hd
  | killJob t =>
      obtain ⟨ht, hd⟩ := guarded_eq_some hs
      obtain rfl := Outcome.ok.inj hd
      exact .killJob ht
  | freeJob t fuel =>
      obtain ⟨hf, hd⟩ := guarded_eq_some hs
      exact .freeJob hf hd
  | gpIrq st active =>
      obtain ⟨⟨hrun, -⟩, hd⟩ := guarded_eq_some hs
      rcases gpIrq_quiet hrun hd with hq | ⟨⟨herr, hdone⟩, t, hc⟩
      · exact .quiet hq
      · exact .completes (fun _ => ⟨st, active, rfl, herr, hdone⟩) hc
  | ppIrq error last =>
      obtain ⟨⟨hrun, hirq⟩, hd⟩ := guarded_eq_some hs
      rcases ppIrq_quiet hrun hirq hd with hq | ⟨t, hc⟩
      · exact .quiet hq
      · exact .completes (p := .pp) nofun hc
  | mmuIrq p =>
      obtain ⟨-, hd⟩ := guarded_eq_some hs
      exact .quiet (mmuIrq_quiet hd)
  | recoverBegin p =>
      obtain ⟨w, -, hs⟩ := Option.bind_eq_some_iff.mp hs
      obtain ⟨-, hd⟩ := guarded_eq_some hs
      exact .quiet (recoverBegin_quiet hd)
  | recoverEnd p env fuel =>
      obtain ⟨r, -, hs⟩ := Option.bind_eq_some_iff.mp hs
      obtain ⟨-, hd⟩ := guarded_eq_some hs
      exact .quiet (recoverEnd_quiet hd)
  | timedoutBegin p t =>
      obtain ⟨-, hd⟩ := guarded_eq_some hs
      obtain rfl := Outcome.ok.inj hd
      exact .quiet (timedoutBegin_quiet d p t)
  | timedoutReset p resetOk faulted =>
      obtain ⟨⟨t, pc⟩, ht, hs⟩ := Option.bind_eq_some_iff.mp hs
      obtain ⟨rfl, hd⟩ := guarded_eq_some hs
      obtain rfl := Outcome.ok.inj hd
      exact .quiet (timedoutReset_quiet resetOk faulted ht)
  | timedoutClear p =>
      obtain ⟨⟨t, pc⟩, ht, hs⟩ := Option.bind_eq_some_iff.mp hs
      obtain ⟨rfl, hd⟩ := guarded_eq_some hs
      exact .clear ht hd
  | timedoutResubmit p u cancel env =>
      obtain ⟨⟨t, pc⟩, ht, hs⟩ := Option.bind_eq_some_iff.mp hs
      obtain ⟨⟨rfl, hu⟩, hd⟩ := guarded_eq_some hs
      exact .resubmit ht hu hd
  | timedoutEnd p =>
      obtain ⟨x, -, hs⟩ := Option.bind_eq_some_iff.mp hs
      obtain ⟨-, hd⟩ := guarded_eq_some hs
      obtain rfl := Outcome.ok.inj hd
      exact .quiet (timedoutEnd_quiet d p)
  | finiCheck p =>
      obtain ⟨-, hd⟩ := guarded_eq_some hs
      exact .quiet (finiCheck_quiet hd)
  | finiRelease p resetOk =>
      simp only [schedStep] at hs
      split at hs
      · rename_i task htask
        obtain ⟨-, hd⟩ := guarded_eq_some hs
        exact .release htask hd
      · cases hs
  | finiStop p =>
      obtain ⟨⟨hrel, -⟩, hd⟩ := guarded_eq_some hs
      obtain rfl := Outcome.ok.inj hd
      exact .quiet (finiStop_quiet hrel)
  | _ => cases hs

theorem devStep_move {d d' : Dev} (hw : d.TasksWf) {cfg : DevConfig} {e : DevEvent}
    (hd : devStep cfg d e = some d') : Move e d d' := by
  rcases devStep_cases hd with hu | hs
  · obtain ⟨hm, hw'⟩ := userStep_move hw hu
    exact .user hm hw'
  · exact (schedStep_move hs).move

end Dev

namespace SchedWf

open Dev

variable {d d' : Dev} {p : PipeId} {t : TaskId}

/-! ## A job that is not in flight -/

/-- The pushed job `t`, which is not in flight and attached to no fence, becomes `x`. Pipes
leave their timeouts at most, and new fences are attached to no job. -/
structure JobMoves (t : TaskId) (x : Task) (d d' : Dev) : Prop where
  task : d'.task = Function.update d.task t x
  pipeOf : x.pipe = (d.task t).pipe
  fenceOf : x.fence = (d.task t).fence
  before : ¬ (d.task t).state.PreRun
  after : x.state = .pending ∨ x.state = .killed ∨ x.state = .freed
  pointed : (d.task t).state = .pending ∨ (d.task t).state = .freed →
    x.state = .pending ∨ x.state = .freed
  detached : ∀ f, (d.fence f).cb ≠ some t
  idle : ∀ p, (d.pipe p).currentTask = some t → d.inFlight p = false
  numTasks : d'.numTasks = d.numTasks
  submit : d'.submit = d.submit
  pipe : ∀ p, d'.pipe p = { d.pipe p with timedout := (d'.pipe p).timedout }
  timedout : ∀ p u pc, (d'.pipe p).timedout = some (u, pc) →
    pc = .resubmitted ∨ (d.pipe p).timedout = some (u, pc)
  numFences : d.numFences ≤ d'.numFences
  signaled : ∀ f, f < d.numFences → (d'.fence f).signaled = (d.fence f).signaled
  cb : ∀ f, (d'.fence f).cb = none ∨
    (d'.fence f).cb = (d.fence f).cb ∧ (d'.fence f).signaled = (d.fence f).signaled

theorem jobMoves (h : SchedWf d) {x : Task} (m : JobMoves t x d d') : SchedWf d' := by
  have hself : d'.task t = x := by simp [m.task]
  have hne : ∀ u, u ≠ t → d'.task u = d.task u := fun u hu => by simp [m.task, hu]
  have hfence : ∀ u, (d'.task u).fence = (d.task u).fence := by
    intro u
    by_cases hu : u = t
    · subst hu
      rw [hself, m.fenceOf]
    · rw [hne u hu]
  have hpipeOf : ∀ u, (d'.task u).pipe = (d.task u).pipe := by
    intro u
    by_cases hu : u = t
    · subst hu
      rw [hself, m.pipeOf]
    · rw [hne u hu]
  have hcur : ∀ q, (d'.pipe q).currentTask = (d.pipe q).currentTask := fun q => by rw [m.pipe q]
  have hfl : ∀ q, d'.inFlight q = d.inFlight q := fun q =>
    inFlight_congr (hcur q) (fun u _ => hfence u)
      fun u f _ hf => m.signaled f (h.fenceLt u f hf)
  have hcb : ∀ f u, (d'.fence f).cb = some u → u ≠ t ∧ (d.fence f).cb = some u ∧
      (d'.fence f).signaled = (d.fence f).signaled := by
    intro f u hf
    rcases m.cb f with hnone | ⟨heq, hs⟩
    · rw [hnone] at hf
      cases hf
    · rw [heq] at hf
      refine ⟨?_, hf, hs⟩
      rintro rfl
      exact m.detached f hf
  have hheld : ∀ q, (d'.pipe q).Held → (d.pipe q).Held := by
    rintro q ⟨u, pc, hu, hpc⟩
    exact ⟨u, pc, (m.timedout q u pc hu).resolve_left hpc, hpc⟩
  -- a task of which a pipe keeps a pointer is pending or freed, and so is what it becomes
  have hptr : ∀ q u, (d.task u).pipe = q ∧
      ((d.task u).state = .pending ∨ (d.task u).state = .freed) →
      (d'.task u).pipe = q ∧ ((d'.task u).state = .pending ∨ (d'.task u).state = .freed) := by
    rintro q u ⟨hq, hold⟩
    refine ⟨(hpipeOf u).trans hq, ?_⟩
    by_cases hu : u = t
    · subst hu
      rw [hself]
      exact m.pointed hold
    · rw [hne u hu]
      exact hold
  refine ⟨⟨fun u hu => ?_, fun u sm hsm => ?_⟩, fun q u hq => ?_, fun q u hq => ?_,
    fun u f hf => ?_, fun u w f hu hw => ?_, fun f u hf => ?_, fun q u hq hf => ?_,
    fun u hu => ?_, fun q u hu => ?_, fun q hh f u hf => ?_, fun q hr hq => ?_, fun he => ?_⟩
  · rw [m.numTasks] at hu
    have hold := h.tasks.fresh u hu
    have hut : u ≠ t := by
      rintro rfl
      exact m.before (.inl hold.1)
    rw [hne u hut, m.submit]
    exact hold
  · rw [m.submit] at hsm
    have hold := h.tasks.submit u sm hsm
    have hut : u ≠ t := by
      rintro rfl
      exact m.before (.inr hold)
    rw [hne u hut]
    exact hold
  · rw [hcur] at hq
    exact hptr q u (h.current q u hq)
  · rw [m.pipe q] at hq
    exact hptr q u (h.checked q u hq)
  · exact (h.fenceLt u f (hfence u ▸ hf)).trans_le m.numFences
  · exact h.fenceInj u w f (hfence u ▸ hu) (hfence w ▸ hw)
  · obtain ⟨hut, hold, hs⟩ := hcb f u hf
    rw [hne u hut, hs]
    exact h.cb f u hold
  · rw [hfl] at hf
    rw [hcur] at hq
    have hut : u ≠ t := by
      rintro rfl
      rw [m.idle q hq] at hf
      cases hf
    rw [hne u hut]
    exact h.running q u hq hf
  · have hut : u ≠ t := by
      rintro rfl
      rw [hself] at hu
      rcases m.after with hst | hst | hst <;> rw [hst] at hu <;> simp [TaskState.PreRun] at hu
    rw [hne u hut] at hu ⊢
    exact h.unrun u hu
  · rw [hcur]
    exact h.cleared q u ((m.timedout q u _ hu).resolve_left (by decide))
  · obtain ⟨-, hold, -⟩ := hcb f u hf
    rw [hpipeOf]
    exact h.held q (hheld q hh) f u hold
  · rw [m.pipe q] at hr
    rw [hcur] at hq
    rw [hfl]
    exact h.busy q hr hq
  · rw [m.pipe .pp] at he ⊢
    exact h.ppCount he

/-- A job that is not pending, or finished, is not in flight and attached to no fence. -/
theorem retired (h : SchedWf d) (ht : (d.task t).state ≠ .pending ∨ (d.task t).finished = true) :
    (∀ f, (d.fence f).cb ≠ some t) ∧
      ∀ p, (d.pipe p).currentTask = some t → d.inFlight p = false := by
  have hnot : ¬ ((d.task t).state = .pending ∧ (d.task t).finished = false) := by
    rintro ⟨hst, hfin⟩
    rcases ht with ht | ht
    · exact ht hst
    · rw [hfin] at ht
      cases ht
  refine ⟨fun f hcb => hnot (h.cb f t hcb).2.2, fun p hc => ?_⟩
  rw [← Bool.not_eq_true]
  exact fun hf => hnot (h.running p t hc hf)

/-! ## Dispatch -/

/-- A queued job may be run when the pipe has no unfinished one. -/
theorem ready_of_canRun (h : SchedWf d) (hr : d.CanRun t) : d.Ready t := by
  obtain ⟨hst, -, -, hidle⟩ := hr
  refine ⟨.inl hst, (h.unrun t (.inr hst)).finished, fun f hcb => ?_, ?_⟩
  · rw [(h.cb f t hcb).2.2.1] at hst
    cases hst
  · rw [← Bool.not_eq_true]
    intro hf
    obtain ⟨u, f, hu, -⟩ := inFlight_iff.mp hf
    have hrun := h.running _ u hu hf
    refine hidle u ?_ ⟨hrun.1, hrun.2, (h.current _ u hu).1⟩
    by_contra hlt
    rw [(h.tasks.fresh u (not_lt.mp hlt)).1] at hrun
    cases hrun.1

/-- An unfinished job may be run again once the timeout has cleared its pipe. -/
theorem ready_of_cleared (h : SchedWf d) {u : TaskId}
    (ht : (d.pipe p).timedout = some (u, .cleared)) (hu : d.Unfinished p t) :
    d.Ready t := by
  obtain ⟨hst, hfin, rfl⟩ := hu
  refine ⟨.inr hst, hfin, fun f hcb => ?_, inFlight_of_none (h.cleared _ u ht)⟩
  exact h.held _ ⟨u, .cleared, ht, by simp⟩ f t hcb rfl

theorem gaveUp (h : SchedWf d) (hr : d.Ready t) {env : RunEnv} (hg : GaveUp env t d d')
    {next : Option (TaskId × TimedoutPc)} (hto : ∀ u pc, next = some (u, pc) → pc = .resubmitted) :
    SchedWf (d'.leaveTimeout (d.task t).pipe next) := by
  have hpipe : d'.pipe = d.pipe := by rw [hg.rest]
  refine h.jobMoves (t := t) ⟨hg.task, rfl, rfl, ?_, .inl rfl, fun _ => .inl rfl, hr.detached,
    fun p hp => ?_, by rw [hg.rest]; rfl, by rw [hg.rest]; rfl, fun p => ?_, fun p u pc hu => ?_,
    hg.numFences, fun f hf => congrArg Fence.signaled (hg.fence f hf), fun f => ?_⟩
  · rcases hr.state with hst | hst <;> rw [hst] <;> simp [TaskState.PreRun]
  · obtain rfl := (h.current p t hp).1
    exact hr.idle
  · rw [leaveTimeout, modPipe_pipe, hpipe]
    split <;> rfl
  · rw [leaveTimeout, modPipe_pipe, hpipe] at hu
    split at hu
    · exact .inl (hto u pc hu)
    · exact .inr hu
  · rcases lt_or_ge f d.numFences with hlt | hge
    · have hsame : d'.fence f = d.fence f := hg.fence f hlt
      exact .inr ⟨congrArg Fence.cb hsame, congrArg Fence.signaled hsame⟩
    · exact (hg.cb f hge).imp id fun heq => ⟨congrArg Fence.cb heq, congrArg Fence.signaled heq⟩

/-- Starting a job makes it the one in flight on its pipe. -/
theorem started (h : SchedWf d) (hr : d.Ready t) {env : RunEnv} (hg : Started env t d d')
    {next : Option (TaskId × TimedoutPc)}
    (hnext : ∀ u pc, next = some (u, pc) → pc = .resubmitted) :
    SchedWf (d'.leaveTimeout (d.task t).pipe next) := by
  obtain ⟨x, hx, htask⟩ := hg.task
  obtain ⟨v, s, -, -, -, -, hsw⟩ := hg.refs
  have hself : d'.task t = x := by simp [htask]
  have hne : ∀ u, u ≠ t → d'.task u = d.task u := fun u hu => by simp [htask, hu]
  have hnew : (d'.fence d.numFences).signaled = false ∧
      (d'.fence d.numFences).cb = some t := by simp [hg.fence]
  have hfence : ∀ f, f ≠ d.numFences → d'.fence f = d.fence f :=
    fun f hf => by simp [hg.fence, hf]
  have hold : ∀ u f, (d.task u).fence = some f → f ≠ d.numFences :=
    fun u f hf => (h.fenceLt u f hf).ne
  -- the pipe of the job, and the other one
  have hpipe : ∀ q, q ≠ (d.task t).pipe →
      (d'.leaveTimeout (d.task t).pipe next).pipe q = d.pipe q := by
    intro q hq
    rw [leaveTimeout, modPipe_pipe_ne d' hq]
    exact hg.pipe q hq
  have hcur : ((d'.leaveTimeout (d.task t).pipe next).pipe (d.task t).pipe).currentTask =
      some t := by
    rw [leaveTimeout, modPipe_pipe_self]
    exact hsw.currentTask
  have hst : (d.task t).state ≠ .unallocated ∧ (d.task t).state ≠ .allocated ∧
      (d.task t).state ≠ .inited := by
    rcases hr.state with hst | hst <;> rw [hst] <;> simp
  have hcurrent : ∀ q u, ((d'.leaveTimeout (d.task t).pipe next).pipe q).currentTask = some u →
      q = (d.task t).pipe ∧ u = t ∨ u ≠ t ∧ q ≠ (d.task t).pipe ∧
        (d.pipe q).currentTask = some u := by
    intro q u hu
    by_cases hq : q = (d.task t).pipe
    · subst hq
      rw [hcur] at hu
      exact .inl ⟨rfl, (Option.some.inj hu).symm⟩
    · rw [hpipe q hq] at hu
      refine .inr ⟨?_, hq, hu⟩
      rintro rfl
      exact hq (h.current q u hu).1.symm
  have hfl : ∀ q, q ≠ (d.task t).pipe →
      (d'.leaveTimeout (d.task t).pipe next).inFlight q = d.inFlight q := by
    intro q hq
    refine inFlight_congr (by rw [hpipe q hq]) (fun u hu => ?_) fun u f _ hf => ?_
    · have hut : u ≠ t := by
        rintro rfl
        exact hq (h.current q u hu).1.symm
      exact congrArg Task.fence (hne u hut)
    · exact congrArg Fence.signaled (hfence f (hold u f hf))
  have hnowFl : (d'.leaveTimeout (d.task t).pipe next).inFlight (d.task t).pipe = true := by
    refine inFlight_iff.mpr ⟨t, d.numFences, hcur, ?_, hnew.1⟩
    change (d'.task t).fence = _
    rw [hself, hx.fence]
  have hxpipe : x.pipe = (d.task t).pipe := hx.pipe
  have hxstate : x.state = .pending := hx.state
  have hxfin : x.finished = false := hx.finished.trans hr.unfinished
  have hcb : ∀ f u, (d'.fence f).cb = some u → f = d.numFences ∧ u = t ∨
      f ≠ d.numFences ∧ u ≠ t ∧ (d.fence f).cb = some u := by
    intro f u hf
    by_cases hnum : f = d.numFences
    · subst hnum
      rw [hnew.2] at hf
      exact .inl ⟨rfl, (Option.some.inj hf).symm⟩
    · rw [hfence f hnum] at hf
      refine .inr ⟨hnum, ?_, hf⟩
      rintro rfl
      exact hr.detached f hf
  refine ⟨⟨fun u hu => ?_, fun u sm hsm => ?_⟩, fun q u hq => ?_, fun q u hq => ?_,
    fun u f hf => ?_, fun u w f hu hw => ?_, fun f u hf => ?_, fun q u hq hf => ?_,
    fun u hu => ?_, fun q u hu => ?_, fun q hh f u hf => ?_, fun q hr' hq => ?_, fun he => ?_⟩
  · have hu' : d.numTasks ≤ u := by
      rw [hg.rest] at hu
      exact hu
    have hfresh := h.tasks.fresh u hu'
    have hut : u ≠ t := by
      rintro rfl
      exact hst.1 hfresh.1
    have hsub : d'.submit = d.submit := by rw [hg.rest]
    exact ⟨(congrArg Task.state (hne u hut)).trans hfresh.1, (congrFun hsub u).trans hfresh.2⟩
  · have hsub : d.submit u = some sm := by
      rw [hg.rest] at hsm
      exact hsm
    have hold := h.tasks.submit u sm hsub
    have hut : u ≠ t := by
      rintro rfl
      rcases hold with hold | hold
      · exact hst.2.1 hold
      · exact hst.2.2 hold
    change (d'.task u).state = _ ∨ (d'.task u).state = _
    rw [hne u hut]
    exact hold
  · change (d'.task u).pipe = q ∧ ((d'.task u).state = _ ∨ (d'.task u).state = _)
    obtain ⟨rfl, rfl⟩ | ⟨hut, -, hq⟩ := hcurrent q u hq
    · rw [hself]
      exact ⟨hxpipe, .inl hxstate⟩
    · rw [hne u hut]
      exact h.current q u hq
  · change (d'.task u).pipe = q ∧ ((d'.task u).state = _ ∨ (d'.task u).state = _)
    have hq' : (d.pipe q).fini = .checked (some u) := by
      by_cases hqt : q = (d.task t).pipe
      · subst hqt
        rw [leaveTimeout, modPipe_pipe_self] at hq
        rw [← hq]
        exact hsw.fini.symm
      · rwa [hpipe q hqt] at hq
    by_cases hut : u = t
    · subst hut
      rw [hself]
      exact ⟨hxpipe.trans (h.checked q u hq').1, .inl hxstate⟩
    · rw [hne u hut]
      exact h.checked q u hq'
  · change f < d'.numFences
    change (d'.task u).fence = some f at hf
    rw [hg.numFences]
    by_cases hut : u = t
    · subst hut
      rw [hself, hx.fence] at hf
      obtain rfl := Option.some.inj hf
      exact Nat.lt_succ_self _
    · rw [hne u hut] at hf
      exact Nat.lt_succ_of_lt (h.fenceLt u f hf)
  · change (d'.task u).fence = some f at hu
    change (d'.task w).fence = some f at hw
    by_cases hut : u = t
    · subst hut
      by_cases hwt : w = u
      · exact hwt.symm
      · rw [hself, hx.fence] at hu
        rw [hne w hwt] at hw
        exact absurd (Option.some.inj hu).symm (hold w f hw)
    · by_cases hwt : w = t
      · subst hwt
        rw [hself, hx.fence] at hw
        rw [hne u hut] at hu
        exact absurd (Option.some.inj hw).symm (hold u f hu)
      · rw [hne u hut] at hu
        rw [hne w hwt] at hw
        exact h.fenceInj u w f hu hw
  · change (d'.task u).fence = _ ∧ (d'.fence f).signaled = _ ∧ (d'.task u).state = _ ∧
      (d'.task u).finished = _
    obtain ⟨rfl, rfl⟩ | ⟨hnum, hut, hf⟩ := hcb f u hf
    · rw [hself]
      exact ⟨hx.fence, hnew.1, hxstate, hxfin⟩
    · rw [hne u hut, hfence f hnum]
      exact h.cb f u hf
  · change (d'.task u).state = _ ∧ (d'.task u).finished = _
    obtain ⟨rfl, rfl⟩ | ⟨hut, hqt, hq⟩ := hcurrent q u hq
    · rw [hself]
      exact ⟨hxstate, hxfin⟩
    · rw [hfl q hqt] at hf
      rw [hne u hut]
      exact h.running q u hq hf
  · change (d'.task u).state.PreRun ∨ (d'.task u).state = _ at hu
    change (d'.task u).Unrun
    have hut : u ≠ t := by
      rintro rfl
      rw [hself, hxstate] at hu
      simp [TaskState.PreRun] at hu
    rw [hne u hut] at hu ⊢
    exact h.unrun u hu
  · by_cases hqt : q = (d.task t).pipe
    · subst hqt
      rw [leaveTimeout, modPipe_pipe_self] at hu
      cases hnext u _ hu
    · rw [hpipe q hqt] at hu ⊢
      exact h.cleared q u hu
  · have hqt : q ≠ (d.task t).pipe := by
      rintro rfl
      obtain ⟨w, pc, hw, hpc⟩ := hh
      rw [leaveTimeout, modPipe_pipe_self] at hw
      exact hpc (hnext w pc hw)
    rw [hpipe q hqt] at hh
    change (d'.task u).pipe ≠ q
    obtain ⟨rfl, rfl⟩ | ⟨hnum, hut, hf⟩ := hcb f u hf
    · rw [hself, hxpipe]
      exact hqt.symm
    · rw [hne u hut]
      exact h.held q hh f u hf
  · by_cases hqt : q = (d.task t).pipe
    · subst hqt
      exact hnowFl
    · rw [hfl q hqt]
      rw [hpipe q hqt] at hr' hq
      exact h.busy q hr' hq
  · by_cases hpp : .pp = (d.task t).pipe
    · rw [← hpp, leaveTimeout, modPipe_pipe_self]
      exact (hg.ppCount hpp.symm).ge
    · rw [hpipe .pp hpp] at he ⊢
      exact h.ppCount he

/-! ## The end of a job -/

theorem killJob (h : SchedWf d) (ht : (d.task t).state = .queued) :
    SchedWf (d.killJob t) := by
  have htask : (d.killJob t).task = Function.update d.task t { d.task t with
      state := .killed
      finished := true
      finishedError := some .esrch } := by simp [Dev.killJob, jobDone, Dev.modTask]
  have hpending : (d.task t).state ≠ .pending := by simp [ht]
  obtain ⟨hdetached, hidle⟩ := h.retired (.inl hpending)
  refine h.jobMoves ⟨htask, rfl, rfl, by simp [ht, TaskState.PreRun], .inr (.inl rfl),
    by simp [ht], hdetached, hidle, rfl, rfl, fun _ => rfl, fun _ _ _ => .inr, le_rfl,
    fun _ _ => rfl, fun _ => .inr ⟨rfl, rfl⟩⟩

theorem freeJob (h : SchedWf d) (hf : d.CanFree t) {fuel : ℕ}
    (hd : limaSchedFreeJob fuel d t = .ok d') : SchedWf d' := by
  obtain ⟨-, s₁, s, gemRef, -, -, rfl⟩ := limaSchedFreeJob_cases hd
  obtain ⟨fence, hput⟩ := d.fencePut_fence (d.task t).fence
  have hfence := fun f => d.fencePut_same (d.task t).fence f
  have hpre : ¬ (d.task t).state.PreRun := by
    rcases hf.1 with hst | hst <;> rw [hst] <;> simp [TaskState.PreRun]
  obtain ⟨hdetached, hidle⟩ := h.retired (.inr hf.2.1)
  rw [hput] at hfence ⊢
  exact h.jobMoves ⟨rfl, rfl, rfl, hpre, .inr (.inr rfl), fun _ => .inr rfl, hdetached, hidle,
    rfl, rfl, fun _ => rfl, fun _ _ _ => .inr, le_rfl, fun f _ => (hfence f).1,
    fun f => .inr ⟨(hfence f).2.2, (hfence f).1⟩⟩

/-! ## All steps -/

/-- A dispatch that has given up or has started its job. -/
theorem dispatched (h : SchedWf d) (hr : d.Ready t) {env : RunEnv}
    (hd : GaveUp env t d d' ∨ Started env t d d') {next : Option (TaskId × TimedoutPc)}
    (hnext : ∀ u pc, next = some (u, pc) → pc = .resubmitted) :
    SchedWf (d'.leaveTimeout (d.task t).pipe next) := by
  rcases hd with hd | hd
  · exact h.gaveUp hr hd hnext
  · exact h.started hr hd hnext

theorem runJob (h : SchedWf d) (hr : d.CanRun t) {env : RunEnv}
    (hd : d.dispatch env t = .ok d') : SchedWf d' := by
  have hcases := dispatch_cases hd
  have htimeout : (d'.pipe (d.task t).pipe).timedout = none := by
    rcases hcases with hg | hg
    · rw [hg.rest]
      exact hr.2.1
    · obtain ⟨v, s, -, -, -, -, hsw⟩ := hg.refs
      exact hsw.timedout.trans hr.2.1
  have hleave : d'.leaveTimeout (d.task t).pipe none = d' := by
    simp [leaveTimeout, modPipe, ← htimeout]
  have hnext : ∀ w pc, (none : Option (TaskId × TimedoutPc)) = some (w, pc) →
      pc = .resubmitted := by simp
  rw [← hleave]
  exact h.dispatched (h.ready_of_canRun hr) hcases hnext

theorem timedoutResubmit (h : SchedWf d) {u : TaskId} {cancel : Bool} {env : RunEnv}
    (ht : (d.pipe p).timedout = some (t, .cleared)) (hu : d.Unfinished p u)
    (hd : d.timedoutResubmit p t u cancel env = .ok d') : SchedWf d' := by
  obtain ⟨d₁, hcases, rfl⟩ := timedoutResubmit_cases hd
  have h₁ : SchedWf (cancelled u cancel d) := h.modTask (.inl hu.1) fun _ => rfl
  have hu₁ : (cancelled u cancel d).Unfinished p u := by
    simpa [Unfinished, cancelled] using hu
  have hp : ((cancelled u cancel d).task u).pipe = p := hu₁.2.2
  have hnext : ∀ w pc, some (t, TimedoutPc.resubmitted) = some (w, pc) →
      pc = .resubmitted := by simp
  have hres := h₁.dispatched (h₁.ready_of_cleared ht hu₁) hcases hnext
  rwa [hp] at hres

/-- **Every step keeps the bookkeeping.** -/
theorem step (h : SchedWf d) {cfg : DevConfig} {e : DevEvent}
    (hd : devStep cfg d e = some d') : SchedWf d' := by
  cases devStep_move h.tasks hd with
  | user m hw => exact h.user m hw
  | quiet q => exact h.quiet q
  | completes _ c => exact h.completes c
  | runJob hr hd => exact h.runJob hr hd
  | killJob ht => exact h.killJob ht
  | freeJob hf hd => exact h.freeJob hf hd
  | clear ht hd => exact h.timedoutClear ht hd
  | resubmit ht hu hd => exact h.timedoutResubmit ht hu hd
  | release hc hd => exact h.finiRelease hc hd

/-- The bookkeeping is consistent in every state of every run. -/
theorem of_reachable {cfg : DevConfig} (h : (devLts cfg).Reachable d) : SchedWf d :=
  h.invariant (fun _ ⟨s, hs, _⟩ => hs ▸ boot s) fun _ _ _ _ hi hstep => hi.step hstep

end SchedWf

end Lima
