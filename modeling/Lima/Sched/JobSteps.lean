import Lima.Sched.Dispatch

/-!
# What a step does to a job

The scheduler takes a job from its queue, kills it there or frees it; nothing else moves a
job that is pushed, and none is unfinished again. A job is armed in `lima_sched_task_init`
and by no other step.
-/

namespace Lima

/-- A job moves on in a step: it is dispatched, killed or freed. -/
inductive JobMovesOn (e : DevEvent) (d d' : Dev) (t : TaskId) : Prop
  | run {env : RunEnv} : e = .runJob t env → d.CanRun t → (d'.task t).state = .pending →
      JobMovesOn e d d' t
  | kill : e = .killJob t → (d.task t).state = .queued → (d'.task t).state = .killed →
      (d'.task t).finished = true → JobMovesOn e d d' t
  | free : (d.task t).state ≠ .queued → (d.task t).finished = true →
      (d'.task t).state = .freed → JobMovesOn e d d' t

/-- What a step of the scheduler or the hardware leaves of a job. -/
structure JobKept (e : DevEvent) (d d' : Dev) (t : TaskId) : Prop where
  pipe : (d'.task t).pipe = (d.task t).pipe
  ctx : (d'.task t).ctx = (d.task t).ctx
  bos : (d'.task t).bos = (d.task t).bos
  finished : (d.task t).finished = true → (d'.task t).finished = true
  state : (d'.task t).state = (d.task t).state ∨ JobMovesOn e d d' t

namespace JobKept

open Dev

variable {d d₁ d' : Dev} {e : DevEvent} {t : TaskId}

theorem same (h : d'.task t = d.task t) : JobKept e d d' t :=
  ⟨by rw [h], by rw [h], by rw [h], by rw [h]; exact id, .inl (by rw [h])⟩

/-- What changes neither the pipe, the context nor the state comes after the step. -/
theorem trans (h : JobKept e d d₁ t) (hpipe : (d'.task t).pipe = (d₁.task t).pipe)
    (hctx : (d'.task t).ctx = (d₁.task t).ctx) (hbos : (d'.task t).bos = (d₁.task t).bos)
    (hfin : (d₁.task t).finished = true → (d'.task t).finished = true)
    (hst : (d'.task t).state = (d₁.task t).state) : JobKept e d d' t := by
  refine ⟨hpipe.trans h.pipe, hctx.trans h.ctx, hbos.trans h.bos,
    fun hf => hfin (h.finished hf), ?_⟩
  rcases h.state with hs | hm
  · exact .inl (hst.trans hs)
  · refine .inr ?_
    cases hm with
    | run he hr hp => exact .run he hr (hst.trans hp)
    | kill he hq hk hf => exact .kill he hq (hst.trans hk) (hfin hf)
    | free hq hf hs => exact .free hq hf (hst.trans hs)

theorem task_eq (h : JobKept e d d₁ t) (heq : d'.task t = d₁.task t) : JobKept e d d' t :=
  h.trans (by rw [heq]) (by rw [heq]) (by rw [heq]) (by rw [heq]; exact id) (by rw [heq])

theorem sameButHeap (h : (d.task t).SameButHeap (d'.task t)) : JobKept e d d' t :=
  ⟨h.pipe, by rw [h], by rw [h], fun hf => h.finished.trans hf, .inl h.state⟩

theorem fenceSignal (h : JobKept e d d₁ t) (fo : Option FenceId) :
    JobKept e d (d₁.fenceSignal fo) t := by
  have hsame := d₁.fenceSignal_task fo t
  refine h.trans (by rw [hsame]) (by rw [hsame]) (by rw [hsame]) (fun hf => ?_) (by rw [hsame])
  obtain heq | ⟨f, task, -, -, heq, ⟨-, rfl⟩ | ⟨u, -, rfl⟩⟩ := d₁.fenceSignal_cases fo
  · rwa [heq]
  · rwa [heq]
  · rw [heq]
    by_cases htu : t = u
    · subst htu
      simp
    · simpa [htu] using hf

/-- A dispatch moves one job to `pending`. -/
theorem dispatched {u : TaskId} {env : RunEnv}
    (hcase : GaveUp env u d d' ∨ Started env u d d')
    (hst : t = u → (d'.task u).state = .pending →
      (d.task u).state = .pending ∨ JobMovesOn e d d' u) : JobKept e d d' t := by
  obtain ⟨x, htask, hpipe, hctx, hbos, hfin, hstate⟩ : ∃ x,
      d'.task = Function.update d.task u x ∧ x.pipe = (d.task u).pipe ∧
        x.ctx = (d.task u).ctx ∧ x.bos = (d.task u).bos ∧
          ((d.task u).finished = true → x.finished = true) ∧ x.state = .pending := by
    rcases hcase with hg | hs
    · exact ⟨_, hg.task, rfl, rfl, rfl, fun _ => rfl, rfl⟩
    · obtain ⟨x, hx, htask⟩ := hs.task
      exact ⟨x, htask, hx.pipe, by rw [hx], by rw [hx], fun hf => hx.finished.trans hf, hx.state⟩
  by_cases htu : t = u
  · subst htu
    have hself : d'.task t = x := by simp [htask]
    rw [hself] at hst
    refine ⟨by rw [hself, hpipe], by rw [hself, hctx], by rw [hself, hbos],
      by rw [hself]; exact hfin, ?_⟩
    rw [hself, hstate]
    exact (hst rfl hstate).imp_left Eq.symm
  · exact same (by simp [htask, htu])

/-- **A step of the scheduler or the hardware keeps every job**, which moves on when the
scheduler says so. -/
theorem sched {cfg : DevConfig} (hd : schedStep cfg d e = some d') : JobKept e d d' t := by
  cases schedStep_move hd with
  | quiet q => exact sameButHeap (q.task t)
  | @completes e p u _ d₁ _ _ c =>
      have hdone : JobKept e d (d₁.modTask u fun task => { task with hwDone := true }) t := by
        refine (sameButHeap (c.quiet.task t)).trans ?_ ?_ ?_ ?_ ?_ <;> rw [modTask_task] <;>
          split <;>
            first
              | rfl
              | exact id
      rw [c.eq]
      exact (hdone.fenceSignal (d₁.task u).fence).task_eq rfl
  | runJob hr hd =>
      refine dispatched (dispatch_cases hd) fun htu hp => ?_
      subst htu
      exact .inr (.run rfl hr hp)
  | @killJob u _ hq =>
      by_cases htu : t = u
      · subst htu
        refine ⟨?_, ?_, ?_, fun _ => ?_, .inr (.kill rfl hq ?_ ?_)⟩ <;>
          simp [Dev.killJob, jobDone, Dev.modTask]
      · exact same (by simp [Dev.killJob, jobDone, Dev.modTask, htu])
  | @freeJob u fuel _ _ hf hd =>
      obtain ⟨-, s₁, s, gemRef, -, -, rfl⟩ := limaSchedFreeJob_cases hd
      by_cases htu : t = u
      · subst htu
        have hq : (d.task t).state ≠ .queued := by
          rcases hf.1 with hst | hst <;> rw [hst] <;> simp
        exact ⟨by simp, by simp, by simp, by simp, .inr (.free hq hf.2.1 (by simp))⟩
      · exact same (by simp [htu])
  | clear _ hd =>
      obtain ⟨s, -, rfl⟩ := timedoutClear_cases hd
      exact same rfl
  | @resubmit p v u cancel env _ _ _ hu hd =>
      obtain ⟨d₁, hcase, rfl⟩ := timedoutResubmit_cases hd
      have hsame : ∀ w, (cancelled u cancel d).task w = { d.task w with
          finishedError := ((cancelled u cancel d).task w).finishedError } := by
        intro w
        rw [cancelled, modTask_task]
        split <;> rfl
      have hd₁ : JobKept (.timedoutResubmit p u cancel env) (cancelled u cancel d) d₁ t :=
        dispatched hcase fun _ _ => .inl (by rw [hsame]; exact hu.1)
      obtain ⟨hpipe, hctx, hbos, hfin, hstate⟩ := hd₁
      rw [hsame t] at hpipe hctx hbos hfin hstate
      refine ⟨hpipe, hctx, hbos, hfin, ?_⟩
      rcases hstate with hs | hm
      · exact .inl hs
      · cases hm with
        | run he => cases he
        | kill he => cases he
        | free hq hf hs =>
            rw [hsame t] at hq hf
            exact .inr (.free hq hf hs)
  | @release p resetOk task _ _ _ hd =>
      obtain ⟨-, -, rfl⟩ | ⟨s, x, -, -, -, d₁, hd₁, hd⟩ := finiRelease_cases hd
      · exact same rfl
      have h₁ : JobKept (.finiRelease p resetOk) d d₁ t := same (by rw [hd₁])
      obtain ⟨-, rfl⟩ | ⟨u, -, -, rfl⟩ := hd
      · exact h₁
      · exact (h₁.task_eq (by rw [fenceSetError_task])).fenceSignal _

/-- **A step keeps every pushed job**, which moves on when the scheduler says so. -/
theorem step {cfg : DevConfig} (hw : d.TasksWf) (hpre : ¬ (d.task t).state.PreRun)
    (hd : devStep cfg d e = some d') : JobKept e d d' t := by
  rcases devStep_cases hd with hu | hs
  · obtain ⟨m, -⟩ := userStep_move hw hu
    exact same ((m.task t).resolve_right fun h => hpre h.1)
  · exact sched hs

theorem pushed (h : JobKept e d d' t) (hpre : ¬ (d.task t).state.PreRun) :
    ¬ (d'.task t).state.PreRun := by
  rcases h.state with hs | hm
  · rwa [hs]
  · cases hm with
    | run _ _ hs | kill _ _ hs | free _ _ hs =>
        rw [hs]
        simp [TaskState.PreRun]

theorem inited (h : JobKept e d d' t) (hst : (d'.task t).state = .inited) :
    (d.task t).state = .inited := by
  rcases h.state with hs | hm
  · rwa [← hs]
  · cases hm with
    | run _ _ hs | kill _ _ hs | free _ _ hs =>
        rw [hs] at hst
        cases hst

end JobKept

/-! ## Arming a job -/

namespace Dev

variable {cfg : DevConfig} {d d' : Dev} {e : DevEvent} {t : TaskId}

/-- The `drm_sched_entity` of the task's context and pipe. -/
def entity (d : Dev) (t : TaskId) : Option CtxId × PipeId := ((d.task t).ctx, (d.task t).pipe)

theorem submitQueue_task (d : Dev) (t : TaskId) (sm : Submit) : (d.submitQueue t sm).task =
    Function.update d.task t { d.task t with state := .queued } := by
  rw [submitQueue, gemPuts_eq]
  rfl

/-- What a step of a user makes of a task. -/
inductive UserTaskStep (e : DevEvent) (d d' : Dev) (t : TaskId) : Prop
  | same : d'.task t = d.task t → UserTaskStep e d d' t
  | idle : (d'.task t).state = .allocated ∨ (d'.task t).state = .freed → UserTaskStep e d d' t
  | armed {c : CtxId} {kmemdupOk : Bool} {jobInit : Option Errno} :
      e = .submitInit t c kmemdupOk jobInit → (d'.task t).state = .inited →
      d'.entity t = (some c, (d.task t).pipe) → UserTaskStep e d d' t
  | queued : e = .submitQueue t → (d'.task t).state = .queued → UserTaskStep e d d' t

/-- A job is armed in `lima_sched_task_init` and queued in
`lima_sched_context_queue_task` only. -/
theorem userStep_task (h : userStep cfg d e = some d') : UserTaskStep e d d' t := by
  cases userStep_call h with
  | fileOpen _ =>
      unfold limaDrmDriverOpen
      split <;> exact .same rfl
  | fileClose _ _ _ _ h =>
      obtain ⟨d₁, hput, h⟩ := Outcome.bind_eq_ok h
      obtain ⟨s, -, rfl⟩ := vmPut_cases hput
      obtain rfl := Outcome.ok.inj h
      exact .same rfl
  | handleOpen _ _ _ h =>
      obtain ⟨⟨s, _ | _⟩, -, h⟩ := Outcome.bind_eq_ok h <;>
        obtain rfl := Outcome.ok.inj h <;>
          exact .same rfl
  | handleClose _ _ h =>
      obtain ⟨r, -, h⟩ := Outcome.bind_eq_ok h
      obtain rfl := Outcome.ok.inj h
      exact .same rfl
  | submitBegin _ _ _ _ =>
      by_cases ht : t = d.numTasks
      · subst ht
        exact .idle (.inl (by
          simp [submitBegin, setSubmit, setFrame, zallocTask, modTask, Task.zeroed]))
      · exact .same (by simp [submitBegin, setSubmit, setFrame, zallocTask, modTask, ht])
  | submitAdd _ _ _ _ h =>
      obtain ⟨⟨d₁, r⟩, hadd, h⟩ := Outcome.bind_eq_ok h
      obtain ⟨s, gemRef, rfl⟩ := submitAdd_frame hadd
      cases r <;> obtain rfl := Outcome.ok.inj h <;> exact .same rfl
  | submitLockFail _ _ _ _ => exact .same rfl
  | @submitInit u sm file c kmemdupOk jobInit _ hsm _ _ _ _ h =>
      obtain ⟨⟨d₁, r⟩, hinit, h⟩ := Outcome.bind_eq_ok h
      obtain ⟨hr, gemRef, rfl⟩ | ⟨rfl, gemRef, s, -, rfl⟩ := limaSchedTaskInit_cases hinit
      · obtain ⟨e, rfl⟩ := Option.isSome_iff_exists.mp hr
        obtain rfl := Outcome.ok.inj h
        exact .same rfl
      · obtain rfl := Outcome.ok.inj h
        by_cases htu : t = u
        · subst htu
          exact .armed rfl (by simp [Task.init]) (by simp [entity, Task.init])
        · exact .same (by simp [htu])
  | @submitDepsFail u sm _ _ _ _ h =>
      obtain ⟨d₁, hfini, h⟩ := Outcome.bind_eq_ok h
      obtain ⟨s, gemRef, -, rfl⟩ := limaSchedTaskFini_cases hfini
      obtain rfl := Outcome.ok.inj h
      by_cases htu : t = u
      · subst htu
        exact .idle (.inl (by simp [setSubmit]))
      · exact .same (by simp [setSubmit, htu])
  | @submitQueue u sm _ _ _ =>
      by_cases htu : t = u
      · subst htu
        exact .queued rfl (by simp [submitQueue_task])
      · exact .same (by simp [submitQueue_task, htu])
  | submitUndo _ _ _ _ h =>
      obtain ⟨d₁, hundo, h⟩ := Outcome.bind_eq_ok h
      obtain ⟨r, -, hd₁⟩ := Outcome.bind_eq_ok hundo
      obtain rfl := Outcome.ok.inj hd₁
      obtain rfl := Outcome.ok.inj h
      exact .same rfl
  | @submitEnd u _ _ _ _ _ h =>
      obtain ⟨d₁, hfree, h⟩ := Outcome.bind_eq_ok h
      obtain ⟨-, rfl⟩ := kmemCacheFree_cases hfree
      obtain rfl := Outcome.ok.inj h
      by_cases htu : t = u
      · subst htu
        exact .idle (.inr (by simp [setSubmit]))
      · exact .same (by simp [setSubmit, modTask, htu])

end Dev

end Lima
