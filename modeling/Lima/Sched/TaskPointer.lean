import Lima.Sched.Dispatch
import Lima.Vm.Unmap

/-!
# The pointer to the current task

`lima_sched_pipe_task_done` leaves `current_task` where it is, so it points to a
freed task from the moment `drm_sched` frees the finished job until the next dispatch,
or a timeout, or the teardown. Between these the pointer is good.
-/

namespace Lima

open Dev

/-- A condition for both pipes can be checked. -/
instance PipeId.decidableForall {P : PipeId → Prop} [∀ p, Decidable (P p)] :
    Decidable (∀ p, P p) :=
  decidable_of_iff (P .gp ∧ P .pp)
    ⟨fun ⟨hg, hp⟩ p => PipeId.casesOn p hg hp, fun h => ⟨h .gp, h .pp⟩⟩

/-- No job is freed while a pipe's `current_task` points to it. -/
def FreesUnpointed (d : Dev) : DevEvent → Prop
  | .freeJob t _ => ∀ p, (d.pipe p).currentTask ≠ some t
  | _ => True

instance (d : Dev) : (e : DevEvent) → Decidable (FreesUnpointed d e)
  | .freeJob .. => PipeId.decidableForall
  | .fileOpen .. | .fileClose .. | .handleOpen .. | .handleClose .. | .submitBegin ..
  | .submitAdd .. | .submitLockFail .. | .submitInit .. | .submitDepsFail .. | .submitQueue ..
  | .submitUndo .. | .submitEnd .. | .runJob .. | .killJob .. | .gpIrq .. | .ppIrq ..
  | .mmuIrq .. | .recoverBegin .. | .recoverEnd .. | .timedoutBegin .. | .timedoutReset ..
  | .timedoutClear .. | .timedoutResubmit .. | .timedoutEnd .. | .finiCheck .. | .finiRelease ..
  | .finiStop .. =>
      instDecidableTrue

/-- No pipe points to a freed task. -/
def PointersLive (d : Dev) : Prop :=
  ∀ p t, (d.pipe p).currentTask = some t → (d.task t).state ≠ .freed

section Step

variable {d d' : Dev} {p : PipeId} {t u : TaskId}

theorem PointersLive.dispatched (h : PointersLive d) (hr : d.Ready t) {env : RunEnv}
    (hd : GaveUp env t d d' ∨ Started env t d d') : PointersLive d' := by
  have hself : (d'.task t).state = .pending := by
    rcases hd with hg | hg
    · simp [hg.task]
    · obtain ⟨x, hx, htask⟩ := hg.task
      rw [htask, Function.update_self]
      exact hx.state
  have hother : ∀ v, v ≠ t → d'.task v = d.task v := by
    intro v hv
    rcases hd with hg | hg
    · simp [hg.task, hv]
    · obtain ⟨x, -, htask⟩ := hg.task
      simp [htask, hv]
  have hcur : ∀ q v, (d'.pipe q).currentTask = some v →
      v = t ∨ (d.pipe q).currentTask = some v := by
    intro q v hv
    rcases hd with hg | hg
    · rw [hg.rest] at hv
      exact .inr hv
    · by_cases hq : q = (d.task t).pipe
      · subst hq
        obtain ⟨w, s, -, -, -, -, hsw⟩ := hg.refs
        rw [hsw.currentTask] at hv
        exact .inl (Option.some.inj hv).symm
      · rw [hg.pipe q hq] at hv
        exact .inr hv
  intro q v hv
  by_cases hvt : v = t
  · subst hvt
    simp [hself]
  · rw [hother v hvt]
    rcases hcur q v hv with rfl | hold
    · exact absurd rfl hvt
    · exact h q v hold

/-- **The step lemma.** Only a job that a pipe points to, freed, makes the pointer
dangle. -/
theorem PointersLive.step (hw : SchedWf d) (h : PointersLive d) {cfg : DevConfig}
    {e : DevEvent} (hok : FreesUnpointed d e) (hd : devStep cfg d e = some d') :
    PointersLive d' := by
  cases devStep_move hw.tasks hd with
  | user m =>
      intro q v hv
      rw [m.pipe] at hv
      rcases m.task v with hsame | ⟨hpre, -⟩
      · rw [hsame]
        exact h q v hv
      · exact absurd hv ((hw.idle_of_preRun hpre).1 q)
  | quiet q =>
      intro r v hv
      rw [(q.pipe r).currentTask] at hv
      rw [(q.task v).state]
      exact h r v hv
  | @completes _ p t _ d₁ _ _ c =>
      intro r v hv
      rw [c.eq, Dev.complete] at hv ⊢
      have hst : (((d₁.modTask t fun task => { task with hwDone := true }).fenceSignal
          (d₁.task t).fence).task v).state = (d.task v).state := by
        rw [fenceSignal_task, ← (c.quiet.task v).state]
        by_cases hvt : v = t
        · subst hvt
          simp
        · simp [modTask_task_ne d₁ hvt]
      have hpipe : (d₁.pipe r).currentTask = some v := by
        simpa [addPm] using hv
      change (((d₁.modTask t fun task => { task with hwDone := true }).fenceSignal
          (d₁.task t).fence).task v).state ≠ _
      rw [hst]
      exact h r v ((c.quiet.pipe r).currentTask.symm.trans hpipe)
  | runJob hr hrun => exact h.dispatched (hw.ready_of_canRun hr) (dispatch_cases hrun)
  | @killJob t _ ht =>
      intro q v hv
      by_cases hvt : v = t
      · subst hvt
        simp [Dev.killJob, jobDone]
      · simpa [Dev.killJob, jobDone, modTask, hvt] using h q v hv
  | @freeJob t fuel _ _ hf hfree =>
      obtain ⟨-, s₁, s, gemRef, -, -, rfl⟩ := limaSchedFreeJob_cases hfree
      obtain ⟨fence, hput⟩ := d.fencePut_fence (d.task t).fence
      intro q v hv
      rw [hput] at hv
      have hvt : v ≠ t := by
        rintro rfl
        exact hok q hv
      simpa [hvt] using h q v hv
  | @clear p t _ _ ht hclear =>
      obtain ⟨s, -, rfl⟩ := timedoutClear_cases hclear
      intro q v hv
      by_cases hq : q = p
      · subst hq
        simp at hv
      · rw [modPipe_pipe_ne _ hq] at hv
        exact h q v hv
  | @resubmit p t u cancel env _ _ ht hu hres =>
      obtain ⟨d₁, hcases, rfl⟩ := timedoutResubmit_cases hres
      have hw₁ : SchedWf (cancelled u cancel d) := hw.modTask (.inl hu.1) fun _ => rfl
      have hu₁ : (cancelled u cancel d).Unfinished p u := by
        simpa [Unfinished, cancelled] using hu
      have h₁ : PointersLive (cancelled u cancel d) := by
        intro q v hv
        have hst : ((cancelled u cancel d).task v).state = (d.task v).state := by
          rw [cancelled, modTask_task]
          split <;> rfl
        rw [hst]
        exact h q v hv
      have hd₁ := h₁.dispatched (hw₁.ready_of_cleared ht hu₁) hcases
      intro q v hv
      refine hd₁ q v ?_
      rw [leaveTimeout, modPipe_pipe] at hv
      split at hv <;> exact hv
  | @release p resetOk task _ _ hc hrel =>
      obtain ⟨-, hnone, rfl⟩ | ⟨s, x, -, hx, -, d₁, rfl, hd⟩ := finiRelease_cases hrel
      · intro q v hv
        rw [modPipe_pipe] at hv
        split at hv <;> exact h q v hv
      · have hcur : ∀ q v, (Function.update d.pipe p x q).currentTask = some v →
            (d.pipe q).currentTask = some v := by
          intro q v hv
          by_cases hq : q = p
          · subst hq
            rw [Function.update_self, hx.currentTask] at hv
            cases hv
          · rwa [Function.update_of_ne hq] at hv
        obtain ⟨-, rfl⟩ | ⟨t, -, -, rfl⟩ := hd
        · exact fun q v hv => h q v (hcur q v hv)
        · intro q v hv
          obtain ⟨fence, heq, -⟩ := Dev.fenceSetError_frame { d with
            sys := s
            vmReleased := addRelease s (d.pipe p).currentVm d.vmReleased
            pipe := Function.update d.pipe p x } .enodev (d.task t).fence
          rw [fenceSignal_pipe, heq] at hv
          rw [fenceSignal_task, heq]
          exact h q v (hcur q v hv)

/-- The exception is needed: a job freed under the pointer leaves it dangling. -/
theorem freeJob_dangles {fuel : ℕ} (hc : (d.pipe p).currentTask = some t)
    (h : limaSchedFreeJob fuel d t = .ok d') : ¬ PointersLive d' := by
  obtain ⟨-, s₁, s, gemRef, -, -, rfl⟩ := limaSchedFreeJob_cases h
  obtain ⟨fence, hput⟩ := d.fencePut_fence (d.task t).fence
  intro hl
  refine hl p t ?_ (by simp)
  rw [hput]
  exact hc

end Step

/-- **The pointer is good between dispatch and reaping.** In a run in which no job is
freed while it is the current task of its pipe, `current_task` is `NULL` or a task
that is not freed, and `pipe_task_in_flight` reads no freed task. -/
theorem currentTask_live (cfg : DevConfig) {d : Dev}
    (h : (devLts cfg).Via FreesUnpointed d) (p : PipeId) :
    (∀ t, (d.pipe p).currentTask = some t → (d.task t).state ≠ .freed) ∧
      ∃ b, d.pipeTaskInFlight cfg.fakeWedge p = .ok b := by
  have hlive : PointersLive d := by
    refine h.invariant (fun d hd => ?_) fun d e d' hd hi hok hstep =>
      hi.step (SchedWf.of_reachable hd.reachable) hok hstep
    obtain ⟨s, rfl, -⟩ := hd
    exact nofun
  refine ⟨hlive p, ?_⟩
  unfold pipeTaskInFlight
  cases hc : (d.pipe p).currentTask with
  | none => exact ⟨false, rfl⟩
  | some t =>
      have hread : d.readTask t = .ok (d.task t) := if_neg (hlive p t hc)
      simp only [hread, Outcome.bind_ok]
      split <;> exact ⟨_, rfl⟩

/-! ## A job on a Mali-400 -/

def mali400Dev : DevConfig := ⟨⟨.mali400, 0, 8⟩, ⟨false, 2, fun _ => 24⟩, false⟩

/-- A GP frame that starts both units. -/
def gpFrame : Frame := ⟨0x1000, 0x2000, 0x3000, 0x4000, 0, 0, 0, 0⟩

def allOk : RunEnv := ⟨true, true, true⟩

/-- A file is opened and gets a handle to object 0, mapped at 64 KiB. -/
def openOne : List DevEvent :=
  [.fileOpen 0 true (some 0x48000000) fun _ => none,
    .handleOpen 0 1 0 ⟨true, some 0x10000, fun k => some (0x50000000 + 0x8000 * k)⟩ 0]

/-- The file submits a job with its one object. -/
def submitOne (t : TaskId) (p : PipeId) (frame : Frame) : List DevEvent :=
  [.submitBegin 0 p frame [1], .submitAdd t, .submitInit t 0 true none, .submitQueue t]

/-- The GP reports the end of both units. -/
def gpEnd : DevEvent := .gpIrq ⟨true, true, false, false⟩ false

theorem onePage_init (cfg : DevConfig) : (devLts cfg).init (.boot (.fresh onePageBo)) :=
  ⟨_, rfl, fun _ => rfl, nofun⟩

/-- A first job is freed after a second one has been dispatched. -/
theorem currentTask_live_twoJobs : ∃ d : Dev, (d.task 0).state = .freed ∧
    ∀ t, (d.pipe .gp).currentTask = some t → (d.task t).state ≠ .freed := by
  have hrun : ((Lts.exec
      (fun d e => if FreesUnpointed d e then devStep mali400Dev d e else none)
      (.boot (.fresh onePageBo)) (openOne ++ submitOne 0 .gp gpFrame ++ [.runJob 0 allOk,
        gpEnd] ++ submitOne 1 .gp gpFrame ++ [.runJob 1 allOk, .freeJob 0 0])).map
        fun d => (d.task 0).state) = some .freed := rfl
  obtain ⟨d, hd, hfreed⟩ := Option.map_eq_some_iff.mp hrun
  refine ⟨d, hfreed, (currentTask_live mali400Dev (Lts.Via.exec (fun d e d' hstep => ?_)
    (.init (onePage_init _)) hd) .gp).1⟩
  split at hstep
  · exact ⟨‹_›, hstep⟩
  · cases hstep

/-- One job that ends normally and is reaped leaves the pointer dangling, and a
teardown then reads the fence of the freed task. -/
theorem currentTask_dangles : ∃ d, (devLts mali400Dev).Reachable d ∧
    (∃ t, (d.pipe .gp).currentTask = some t ∧ (d.task t).state = .freed) ∧
    d.pipeTaskInFlight mali400Dev.fakeWedge .gp = .oops := by
  have hrun : ((Lts.exec (devStep mali400Dev) (.boot (.fresh onePageBo))
      (openOne ++ submitOne 0 .gp gpFrame ++ [.runJob 0 allOk, gpEnd, .freeJob 0 0])).map
        fun d => ((d.pipe .gp).currentTask, (d.task 0).state)) =
      some (some 0, .freed) := rfl
  obtain ⟨d, hd, hobs⟩ := Option.map_eq_some_iff.mp hrun
  obtain ⟨hc, hfreed⟩ := Prod.mk.inj hobs
  refine ⟨d, Lts.Reachable.exec (fun _ _ _ h => h) (.init (onePage_init _)) hd,
    ⟨0, hc, hfreed⟩, ?_⟩
  simp [pipeTaskInFlight, hc, readTask, hfreed, Outcome.bind]

end Lima
