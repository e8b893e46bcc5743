import Lima.Sched.InFlight

/-!
# What a finished job reports

A job finishes through its fence, with the error that carries, or because `run_job`
returned `NULL`, with the error its finished fence has already. A dispatch that fails
for lack of memory or power returns `NULL` without setting one.
-/

namespace Lima

open Dev

/-- A `run_job` that does not dispatch the job has an error to report. -/
def FailuresReported (d : Dev) : DevEvent → Prop
  | .runJob t env => (d.task t).finishedError.isSome = true ∨
      (env.fenceOk && env.pmOk) = true
  | .timedoutResubmit _ u cancel env => cancel = true ∨
      (d.task u).finishedError.isSome = true ∨ (env.fenceOk && env.pmOk) = true
  | _ => True

instance (d : Dev) : (e : DevEvent) → Decidable (FailuresReported d e)
  | .runJob .. => inferInstanceAs (Decidable (_ ∨ _))
  | .timedoutResubmit .. => inferInstanceAs (Decidable (_ ∨ _ ∨ _))
  | .fileOpen .. | .fileClose .. | .handleOpen .. | .handleClose .. | .submitBegin ..
  | .submitAdd .. | .submitLockFail .. | .submitInit .. | .submitDepsFail .. | .submitQueue ..
  | .submitUndo .. | .submitEnd .. | .killJob .. | .freeJob .. | .gpIrq .. | .ppIrq ..
  | .mmuIrq .. | .recoverBegin .. | .recoverEnd .. | .timedoutBegin .. | .timedoutReset ..
  | .timedoutClear .. | .timedoutEnd .. | .finiCheck .. | .finiRelease .. | .finiStop .. =>
      instDecidableTrue

/-- A job reported without an error is done by the hardware, and one that could not be
dispatched is reported with an error. -/
def Task.Truthful (x : Task) : Prop :=
  x.finished = true → x.finishedError = none → x.hwDone = true ∧ x.undispatched = false

section Step

variable {d d' : Dev} {p : PipeId} {t : TaskId}

theorem Task.SameButHeap.truthful {x x' : Task} (h : x.SameButHeap x')
    (hx : x.Truthful) : x'.Truthful := by
  unfold Task.Truthful at *
  rw [h.finished, h.finishedError, h.hwDone, h.undispatched]
  exact hx

/-- No job has been refused a dispatch. -/
def Dispatched (d : Dev) : Prop := ∀ t, (d.task t).undispatched = false

/-- The reports of all jobs. -/
structure Reports (d : Dev) : Prop where
  truthful : ∀ t, (d.task t).Truthful
  dispatched : Dispatched d

/-- A `run_job` that returns has left the reports true if a failure is reported. -/
theorem Reports.dispatch (h : Reports d) {env : RunEnv}
    (hok : (d.task t).finishedError.isSome = true ∨ (env.fenceOk && env.pmOk) = true)
    (hfin : (d.task t).finished = false)
    (hd : GaveUp env t d d' ∨ Started env t d d') : Reports d' := by
  rcases hd with hg | hg
  · -- the job is finished with the error it carries
    have hsome : (d.task t).finishedError.isSome = true := by
      rcases hg.reason with hr | hr
      · exact hr
      · rcases hok with hok | hok
        · exact hok
        · rw [hr] at hok
          cases hok
    have hnone : (d.task t).finishedError.isNone = false := by
      cases hfe : (d.task t).finishedError with
      | none =>
          rw [hfe] at hsome
          cases hsome
      | some e => rfl
    constructor
    · intro u
      rw [hg.task]
      by_cases hu : u = t
      · subst hu
        rw [Function.update_self]
        intro _ hno
        change (d.task u).finishedError = none at hno
        rw [hno] at hsome
        cases hsome
      · rw [Function.update_of_ne hu]
        exact h.truthful u
    · intro u
      rw [hg.task]
      by_cases hu : u = t
      · subst hu
        simp [hnone, h.dispatched u]
      · rw [Function.update_of_ne hu]
        exact h.dispatched u
  · obtain ⟨x, hx, htask⟩ := hg.task
    constructor
    · intro u
      rw [htask]
      by_cases hu : u = t
      · subst hu
        rw [Function.update_self]
        intro hf
        rw [hx.finished] at hf
        exact absurd (hf.symm.trans hfin) (by simp)
      · rw [Function.update_of_ne hu]
        exact h.truthful u
    · intro u
      rw [htask]
      by_cases hu : u = t
      · subst hu
        rw [Function.update_self, hx.undispatched]
        exact h.dispatched u
      · rw [Function.update_of_ne hu]
        exact h.dispatched u

/-- Completing the current task of a pipe reports it truly. -/
theorem Reports.complete (hw : SchedWf d) (h : Reports d)
    (hc : (d.pipe p).currentTask = some t) : Reports (d.complete t) := by
  have hw' := hw.modTask (g := fun task => { task with hwDone := true })
    (hw.current p t hc).2 fun _ => rfl
  have hfence : ((d.modTask t fun task => { task with hwDone := true }).task t).fence =
      (d.task t).fence := by simp
  have hother : ∀ u, u ≠ t → (d.complete t).task u = d.task u := by
    intro u hu
    have hsame := hw'.fenceSignal_other hu
    rw [hfence, modTask_task_ne d hu] at hsame
    exact hsame
  have hself : ((d.complete t).task t).hwDone = true ∧
      ((d.complete t).task t).undispatched = false := by
    change (((d.modTask t fun task => { task with hwDone := true }).fenceSignal
      (d.task t).fence).task t).hwDone = true ∧ (((d.modTask t fun task =>
        { task with hwDone := true }).fenceSignal (d.task t).fence).task t).undispatched = false
    rw [fenceSignal_task]
    simpa using h.dispatched t
  constructor
  · intro u
    by_cases hu : u = t
    · subst hu
      exact fun _ _ => hself
    · rw [hother u hu]
      exact h.truthful u
  · intro u
    by_cases hu : u = t
    · subst hu
      exact hself.2
    · rw [hother u hu]
      exact h.dispatched u

/-- A fence signalled with an error reports the error. -/
theorem Reports.fenceSignal (h : Reports d) {fo : Option FenceId}
    (herr : ∀ f, fo = some f → (d.fence f).error.isSome = true) :
    Reports (d.fenceSignal fo) := by
  obtain heq | ⟨f, task, rfl, -, heq, htask⟩ := d.fenceSignal_cases fo
  · rw [heq]
    exact h
  have htasks : (d.fenceSignal (some f)).task = task := congrArg Dev.task heq
  obtain ⟨-, rfl⟩ | ⟨u, -, rfl⟩ := htask
  · exact ⟨fun v => htasks ▸ h.truthful v, fun v => htasks ▸ h.dispatched v⟩
  · obtain ⟨e, he⟩ := Option.isSome_iff_exists.mp (herr f rfl)
    constructor
    · intro v
      rw [htasks]
      by_cases hv : v = u
      · subst hv
        rw [Function.update_self]
        intro _ hno
        simp [he] at hno
      · rw [Function.update_of_ne hv]
        exact h.truthful v
    · intro v
      rw [htasks]
      by_cases hv : v = u
      · subst hv
        rw [Function.update_self]
        exact h.dispatched v
      · rw [Function.update_of_ne hv]
        exact h.dispatched v

/-- **The step lemma.** -/
theorem Reports.step (hw : SchedWf d) (h : Reports d) {cfg : DevConfig} {e : DevEvent}
    (hok : FailuresReported d e) (hd : devStep cfg d e = some d') : Reports d' := by
  cases devStep_move hw.tasks hd with
  | user m =>
      have hcase : ∀ u, d'.task u = d.task u ∨ (d'.task u).Unrun := by
        intro u
        rcases m.task u with hsame | ⟨hpre, -, hun⟩
        · exact .inl hsame
        · exact .inr (hun (hw.unrun u (.inl hpre)))
      constructor
      · intro u
        rcases hcase u with hsame | hun
        · rw [hsame]
          exact h.truthful u
        · intro hf
          rw [hun.finished] at hf
          cases hf
      · intro u
        rcases hcase u with hsame | hun
        · rw [hsame]
          exact h.dispatched u
        · exact hun.undispatched
  | quiet q =>
      exact ⟨fun u => (q.task u).truthful (h.truthful u),
        fun u => (q.task u).undispatched.trans (h.dispatched u)⟩
  | completes _ c =>
      have h₁ : Reports _ := ⟨fun u => (c.quiet.task u).truthful (h.truthful u),
        fun u => (c.quiet.task u).undispatched.trans (h.dispatched u)⟩
      rw [c.eq]
      exact h₁.complete (hw.quiet c.quiet) ((c.quiet.pipe _).currentTask.trans c.current)
  | runJob hr hrun =>
      exact h.dispatch hok (hw.ready_of_canRun hr).unfinished (dispatch_cases hrun)
  | @killJob t _ ht =>
      constructor
      · intro u
        by_cases hu : u = t
        · subst hu
          intro _ hno
          simp [Dev.killJob, jobDone] at hno
        · simpa [Dev.killJob, jobDone, Dev.modTask, hu] using h.truthful u
      · intro u
        by_cases hu : u = t
        · subst hu
          simpa [Dev.killJob, jobDone] using h.dispatched u
        · simpa [Dev.killJob, jobDone, Dev.modTask, hu] using h.dispatched u
  | @freeJob t fuel _ _ hf hfree =>
      obtain ⟨-, s₁, s, gemRef, -, -, rfl⟩ := limaSchedFreeJob_cases hfree
      constructor
      · intro u
        by_cases hu : u = t
        · subst hu
          simpa [Task.Truthful] using h.truthful u
        · simpa [hu] using h.truthful u
      · intro u
        by_cases hu : u = t
        · subst hu
          simpa using h.dispatched u
        · simpa [hu] using h.dispatched u
  | clear ht hclear =>
      obtain ⟨s, -, rfl⟩ := timedoutClear_cases hclear
      exact ⟨h.truthful, h.dispatched⟩
  | @resubmit p t u cancel env _ _ ht hu hres =>
      obtain ⟨d₁, hcases, rfl⟩ := timedoutResubmit_cases hres
      have h₁ : Reports (cancelled u cancel d) := by
        constructor
        · intro v
          by_cases hv : v = u
          · subst hv
            intro hf
            have hfin : (d.task v).finished = true := by simpa [cancelled] using hf
            rw [hu.2.1] at hfin
            cases hfin
          · simpa [cancelled, modTask_task_ne d hv] using h.truthful v
        · intro v
          by_cases hv : v = u
          · subst hv
            simpa [cancelled] using h.dispatched v
          · simpa [cancelled, modTask_task_ne d hv] using h.dispatched v
      have hfin : ((cancelled u cancel d).task u).finished = false := by
        simpa [cancelled] using hu.2.1
      have hreport : ((cancelled u cancel d).task u).finishedError.isSome = true ∨
          (env.fenceOk && env.pmOk) = true := by
        rcases hok with rfl | hok | hok
        · left
          simp [cancelled]
        · left
          cases cancel <;> simp [cancelled, hok]
        · exact .inr hok
      have hd₁ := h₁.dispatch hreport hfin hcases
      exact ⟨hd₁.truthful, hd₁.dispatched⟩
  | @release p resetOk task _ _ hc hrel =>
      obtain ⟨-, -, rfl⟩ | ⟨s, x, -, -, -, d₁, rfl, ⟨-, rfl⟩ | ⟨t, -, -, rfl⟩⟩ :=
        finiRelease_cases hrel
      · exact ⟨h.truthful, h.dispatched⟩
      · exact ⟨h.truthful, h.dispatched⟩
      · obtain ⟨fence, heq, -, -, herr⟩ := Dev.fenceSetError_frame { d with
          sys := s
          vmReleased := addRelease s (d.pipe p).currentVm d.vmReleased
          pipe := Function.update d.pipe p x } .enodev (d.task t).fence
        have h₁ : Reports ({ d with
            sys := s
            vmReleased := addRelease s (d.pipe p).currentVm d.vmReleased
            pipe := Function.update d.pipe p x }.fenceSetError .enodev
              (d.task t).fence) := by
          rw [heq]
          exact ⟨h.truthful, h.dispatched⟩
        refine h₁.fenceSignal fun f hf => ?_
        rw [heq, herr f hf]
        rfl

/-- The exception is needed: a `run_job` that fails for lack of a fence or of power
reports its job as done. -/
theorem dispatch_untruthful {env : RunEnv} (hnone : (d.task t).finishedError = none)
    (hno : (env.fenceOk && env.pmOk) = false) (hd : d.dispatch env t = .ok d') :
    (d'.task t).finished = true ∧ (d'.task t).finishedError = none ∧
      (d'.task t).undispatched = true := by
  rcases dispatch_cases hd with hg | hg
  · simp [hg.task, hnone, hno]
  · rw [hg.envOk.1, hg.envOk.2] at hno
    cases hno

end Step

/-- **What jobs report.** In a run in which every failing `run_job` has an error to
report, a job is reported without an error only if the hardware has completed it, and
a job that could not be dispatched is reported with one. -/
theorem jobs_truthful (cfg : DevConfig) {d : Dev}
    (h : (devLts cfg).Via FailuresReported d) (t : TaskId)
    (hf : (d.task t).finished = true) :
    ((d.task t).finishedError = none → (d.task t).hwDone = true) ∧
      ((d.task t).undispatched = true → (d.task t).finishedError ≠ none) := by
  have hr : Reports d := by
    refine h.invariant (fun d hd => ?_) fun d e d' hd hi hok hstep =>
      hi.step (SchedWf.of_reachable hd.reachable) hok hstep
    obtain ⟨s, rfl, -⟩ := hd
    exact ⟨fun _ => nofun, fun _ => rfl⟩
  refine ⟨fun hno => (hr.truthful t hf hno).1, fun hu => ?_⟩
  rw [hr.dispatched t] at hu
  cases hu

theorem jobs_truthful_oneJob : ∃ d : Dev, (d.task 0).finishedError = none ∧
    (d.task 0).hwDone = true := by
  have hrun : ((Lts.exec
      (fun d e => if FailuresReported d e then devStep mali400Dev d e else none)
      (.boot (.fresh onePageBo)) (openOne ++ submitOne 0 .gp gpFrame ++
        [.runJob 0 allOk, gpEnd])).map fun d =>
          ((d.task 0).finished, (d.task 0).finishedError)) = some (true, none) := rfl
  obtain ⟨d, hd, hobs⟩ := Option.map_eq_some_iff.mp hrun
  obtain ⟨hf, hno⟩ := Prod.mk.inj hobs
  refine ⟨d, hno, (jobs_truthful mali400Dev (Lts.Via.exec (fun d e d' hstep => ?_)
    (.init (onePage_init _)) hd) 0 hf).1 hno⟩
  split at hstep
  · exact ⟨‹_›, hstep⟩
  · cases hstep

/-- A job whose fence cannot be allocated is reported as done. -/
theorem jobs_untruthful : ∃ d, (devLts mali400Dev).Reachable d ∧
    ((d.task 0).finished, (d.task 0).finishedError, (d.task 0).hwDone,
      (d.task 0).undispatched) = (true, none, false, true) := by
  have hrun : ((Lts.exec (devStep mali400Dev) (.boot (.fresh onePageBo))
      (openOne ++ submitOne 0 .gp gpFrame ++ [.runJob 0 ⟨false, true, true⟩])).map fun d =>
        ((d.task 0).finished, (d.task 0).finishedError, (d.task 0).hwDone,
          (d.task 0).undispatched)) = some (true, none, false, true) := rfl
  obtain ⟨d, hd, hobs⟩ := Option.map_eq_some_iff.mp hrun
  exact ⟨d, Lts.Reachable.exec (fun _ _ _ h => h) (.init (onePage_init _)) hd, hobs⟩

end Lima
