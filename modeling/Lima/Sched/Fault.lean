import Lima.Sched.Recovery

/-!
# Faults of the GP's address space

`lima_sched_pipe_mmu_error` records a fault in `pipe->error` alone. The next interrupt
of the GP that reports the end of its lists overwrites it, and a task that could be
recovered is recovered. Where neither happens the fault lasts until the timeout, or the
teardown, retires the task.
-/

namespace Lima

open Dev

/-! ## The fault as a history variable -/

/-- The task that was current at the last GP MMU interrupt, until it is retired. -/
def faultedTask (faulted : Option TaskId) (d : Dev) : DevEvent → Option TaskId
  | .mmuIrq .gp => (d.pipe .gp).currentTask
  | .timedoutClear .gp => none
  | .finiRelease .gp _ => none
  | _ => faulted

def faultLts (cfg : DevConfig) : Lts (Dev × Option TaskId) DevEvent :=
  (devLts cfg).record none faultedTask

/-- No MMU interrupt queues recovery work, and the GP does not report the end of its
lists for a task that has faulted. -/
def FaultKept (x : Dev × Option TaskId) : DevEvent → Prop
  | .mmuIrq .gp => ¬ FaultSchedules x.1
  | .gpIrq st active => x.2 = none ∨ st.error = true ∨ st.done active = false
  | _ => True

instance (x : Dev × Option TaskId) : (e : DevEvent) → Decidable (FaultKept x e)
  | .mmuIrq .gp => inferInstanceAs (Decidable (¬ FaultSchedules x.1))
  | .gpIrq .. => inferInstanceAs (Decidable (_ ∨ _ ∨ _))
  | .mmuIrq .pp => instDecidableTrue
  | .fileOpen .. | .fileClose .. | .handleOpen .. | .handleClose .. | .submitBegin ..
  | .submitAdd .. | .submitLockFail .. | .submitInit .. | .submitDepsFail .. | .submitQueue ..
  | .submitUndo .. | .submitEnd .. | .runJob .. | .killJob .. | .freeJob .. | .ppIrq ..
  | .recoverBegin .. | .recoverEnd .. | .timedoutBegin .. | .timedoutReset ..
  | .timedoutClear .. | .timedoutResubmit .. | .timedoutEnd .. | .finiCheck .. | .finiRelease ..
  | .finiStop .. =>
      instDecidableTrue

/-! ## What queues recovery work -/

/-- The GP pipe has the same recovery work. -/
def SameWork (d d' : Dev) : Prop :=
  (d'.pipe .gp).recoverQueued = (d.pipe .gp).recoverQueued ∧
    (d'.pipe .gp).recoverRunning = (d.pipe .gp).recoverRunning

section Work

variable {d d' : Dev} {p : PipeId} {t : TaskId}

theorem SameWork.refl (d : Dev) : SameWork d d := ⟨rfl, rfl⟩

theorem SameWork.of_pipe (h : d'.pipe = d.pipe) : SameWork d d' := by
  rw [SameWork, h]
  exact ⟨rfl, rfl⟩

theorem SameWork.trans {d₁ : Dev} (h : SameWork d d₁) (h' : SameWork d₁ d') :
    SameWork d d' :=
  ⟨h'.1.trans h.1, h'.2.trans h.2⟩

theorem SameWork.modPipe {g : Pipe → Pipe}
    (hg : ∀ x, (g x).recoverQueued = x.recoverQueued ∧
      (g x).recoverRunning = x.recoverRunning) : SameWork d (d.modPipe p g) := by
  rw [SameWork, modPipe_pipe]
  split
  · exact hg _
  · exact ⟨rfl, rfl⟩

theorem SameWork.recoveryFor (h : SameWork d d') {w : RecoverWork}
    (hw : RecoveryFor d' w) : RecoveryFor d w := by
  rcases hw with hq | hr
  · exact .queued (h.1 ▸ hq)
  · exact .running (h.2 ▸ hr)

/-- The work after a `schedule_work`. -/
theorem recoveryFor_scheduleRecover {w₁ w : RecoverWork}
    (hw : RecoveryFor (d.scheduleRecover p w₁) w) :
    RecoveryFor d w ∨ p = .gp ∧ (d.pipe .gp).recoverQueued = none ∧ w = w₁ := by
  cases p with
  | pp =>
      have hpipe : (d.scheduleRecover .pp w₁).pipe .gp = d.pipe .gp :=
        modPipe_pipe_ne d (by simp) _
      exact .inl (SameWork.recoveryFor (by rw [SameWork, hpipe]; exact ⟨rfl, rfl⟩) hw)
  | gp =>
      cases hq : (d.pipe .gp).recoverQueued with
      | some w₂ =>
          rw [scheduleRecover_queued hq] at hw
          exact .inl hw
      | none =>
          rcases hw with hq' | hr
          · refine .inr ⟨rfl, rfl, ?_⟩
            simpa [Dev.scheduleRecover, hq, eq_comm] using hq'
          · exact .inl (.running (by simpa [Dev.scheduleRecover] using hr))

theorem SameWork.dispatched {env : RunEnv} (h : GaveUp env t d d' ∨ Started env t d d') :
    SameWork d d' := by
  rcases h with hg | hg
  · exact .of_pipe (by rw [hg.rest])
  · obtain ⟨v, s, -, -, -, -, hsw⟩ := hg.refs
    by_cases hp : .gp = (d.task t).pipe
    · rw [SameWork, hp]
      exact ⟨hsw.recoverQueued, hsw.recoverRunning⟩
    · rw [SameWork, hg.pipe .gp hp]
      exact ⟨rfl, rfl⟩

theorem complete_pipe (d : Dev) (t : TaskId) : (d.complete t).pipe = d.pipe := by
  simp [Dev.complete, Dev.addPm]

theorem SameWork.finiRelease {resetOk : Bool} {task : Option TaskId}
    (h : d.finiRelease p resetOk task = .ok d') : SameWork d d' := by
  have hletGo : ∀ {x : Pipe}, Pipe.LetGo (d.pipe p) x →
      ∀ e : Dev, e.pipe = Function.update d.pipe p x → SameWork d e := by
    intro x hx e he
    rw [SameWork, he]
    by_cases hp : .gp = p
    · subst hp
      simpa using ⟨hx.recoverQueued, hx.recoverRunning⟩
    · simp [hp]
  obtain ⟨-, -, rfl⟩ | ⟨s, x, -, hx, -, d₁, rfl, ⟨-, rfl⟩ | ⟨t, -, -, rfl⟩⟩ :=
    finiRelease_cases h
  · exact .modPipe fun _ => ⟨rfl, rfl⟩
  · exact hletGo hx _ rfl
  · exact hletGo hx _ (by rw [fenceSignal_pipe, fenceSetError_pipe])

/-- New recovery work is queued for an exhausted heap, or by an MMU interrupt. -/
theorem recoveryFor_of_step {cfg : DevConfig} {e : DevEvent}
    (ht : d.TasksWf) (hd : devStep cfg d e = some d') {w : RecoverWork}
    (hw : RecoveryFor d' w) :
    RecoveryFor d w ∨ w.oom = true ∨ e = .mmuIrq .gp ∧ FaultSchedules d := by
  have hsame : SameWork d d' → RecoveryFor d w ∨ w.oom = true ∨ e = .mmuIrq .gp ∧
      FaultSchedules d := fun h => .inl (h.recoveryFor hw)
  rcases devStep_cases hd with hu | hs
  · obtain ⟨m, -⟩ := userStep_move ht hu
    exact hsame (.of_pipe m.pipe)
  cases e with
  | runJob t env =>
      obtain ⟨-, hd⟩ := guarded_eq_some hs
      exact hsame (.dispatched (dispatch_cases hd))
  | killJob t =>
      obtain ⟨-, hd⟩ := guarded_eq_some hs
      obtain rfl := Outcome.ok.inj hd
      exact hsame (.refl _)
  | freeJob t fuel =>
      obtain ⟨-, hd⟩ := guarded_eq_some hs
      obtain ⟨-, s₁, s, gemRef, -, -, rfl⟩ := limaSchedFreeJob_cases hd
      obtain ⟨fence, hput⟩ := d.fencePut_fence (d.task t).fence
      exact hsame (.of_pipe (by rw [hput]))
  | gpIrq st active =>
      obtain ⟨-, hd⟩ := guarded_eq_some hs
      obtain rfl | ⟨-, d₁, hd₁, rfl⟩ | ⟨-, t, -, -, rfl⟩ | ⟨-, rfl⟩ | ⟨-, -, t, -, -, rfl⟩ :=
        gpIrq_cases hd
      · exact hsame (.refl _)
      · have h₁ : SameWork d d₁ := by
          obtain rfl | ⟨t, -, rfl⟩ := hd₁
          · exact .refl _
          · exact .of_pipe rfl
        exact hsame (h₁.trans (.modPipe fun _ => ⟨rfl, rfl⟩))
      · rcases recoveryFor_scheduleRecover hw with hold | ⟨-, -, rfl⟩
        · have hmask : SameWork d (d.modPipe .gp Pipe.masked) := .modPipe fun _ => ⟨rfl, rfl⟩
          exact .inl (hmask.recoveryFor hold)
        · exact .inr (.inl rfl)
      · exact hsame (.modPipe fun _ => ⟨rfl, rfl⟩)
      · have hended : SameWork d (d.modPipe .gp Pipe.ended) := .modPipe fun x => by
          unfold Pipe.ended limaGpSoftResetAsync
          split <;> exact ⟨rfl, rfl⟩
        exact hsame (hended.trans (.of_pipe (complete_pipe _ t)))
  | ppIrq error last =>
      obtain ⟨-, hd⟩ := guarded_eq_some hs
      have hcount : SameWork d (d.modPipe .pp fun x => x.counted error last) :=
        .modPipe fun _ => ⟨rfl, rfl⟩
      obtain rfl | ⟨t, rfl⟩ | ⟨-, -, t, -, -, rfl⟩ := ppIrq_cases hd
      · exact hsame hcount
      · rcases recoveryFor_scheduleRecover hw with hold | ⟨hp, -⟩
        · exact .inl (hcount.recoveryFor hold)
        · cases hp
      · exact hsame (hcount.trans (.of_pipe (complete_pipe _ t)))
  | mmuIrq p =>
      obtain ⟨-, hd⟩ := guarded_eq_some hs
      obtain ⟨g, hg, hcase⟩ := mmuIrq_cases hd
      have hset : SameWork d (d.modPipe p g) := .modPipe fun x => by
        rw [hg]
        exact ⟨rfl, rfl⟩
      obtain rfl | ⟨t, hc, hrec, rfl⟩ := hcase
      · exact hsame hset
      · rcases recoveryFor_scheduleRecover hw with hold | ⟨rfl, hq, rfl⟩
        · exact .inl (hset.recoveryFor hold)
        · refine .inr (.inr ⟨rfl, hset.1.symm.trans hq, ?_⟩)
          rw [hc]
          simpa using hrec
  | recoverBegin p =>
      obtain ⟨w₁, hq, hs⟩ := Option.bind_eq_some_iff.mp hs
      obtain ⟨-, hd⟩ := guarded_eq_some hs
      obtain ⟨rfl, t, -, rfl⟩ := recoverBegin_cases hd
      rcases hw with hq' | hr
      · simp at hq'
      · obtain ⟨rfl, -⟩ : w₁ = w ∧ t = _ := by simpa using hr
        exact .inl (.queued hq)
  | recoverEnd p env fuel =>
      obtain ⟨r, hr, hs⟩ := Option.bind_eq_some_iff.mp hs
      obtain ⟨-, hd⟩ := guarded_eq_some hs
      obtain ⟨⟨d₁, e⟩, hres, hd⟩ := Outcome.bind_eq_ok hd
      obtain rfl := Outcome.ok.inj hd
      have hpipe := RecoverWf.recoverResume_pipe hres
      have hold : RecoveryFor d₁ w := by
        rcases hw with hq | hr'
        · refine .queued ?_
          rw [modPipe_pipe] at hq
          split at hq <;> exact hq
        · rw [modPipe_pipe] at hr'
          split at hr'
          · cases hr'
          · exact .running hr'
      exact .inl (SameWork.recoveryFor ⟨hpipe.1, hpipe.2.1⟩ hold)
  | timedoutBegin p t =>
      obtain ⟨-, hd⟩ := guarded_eq_some hs
      obtain rfl := Outcome.ok.inj hd
      exact hsame (.modPipe (d := d.drmSchedStop p) fun _ => ⟨rfl, rfl⟩)
  | timedoutReset p resetOk faulted =>
      obtain ⟨x, -, hs⟩ := Option.bind_eq_some_iff.mp hs
      obtain ⟨-, hd⟩ := guarded_eq_some hs
      obtain rfl := Outcome.ok.inj hd
      exact hsame (.modPipe (pipeTaskError_recover resetOk p))
  | timedoutClear p =>
      obtain ⟨x, -, hs⟩ := Option.bind_eq_some_iff.mp hs
      obtain ⟨-, hd⟩ := guarded_eq_some hs
      obtain ⟨s, -, rfl⟩ := timedoutClear_cases hd
      refine hsame ?_
      rw [SameWork, modPipe_pipe]
      split <;> exact ⟨rfl, rfl⟩
  | timedoutResubmit p u cancel env =>
      obtain ⟨x, -, hs⟩ := Option.bind_eq_some_iff.mp hs
      obtain ⟨-, hd⟩ := guarded_eq_some hs
      obtain ⟨d₁, hcases, rfl⟩ := timedoutResubmit_cases hd
      have hcancel : SameWork d (cancelled u cancel d) := .of_pipe rfl
      exact hsame ((hcancel.trans (.dispatched hcases)).trans (.modPipe fun _ => ⟨rfl, rfl⟩))
  | timedoutEnd p =>
      obtain ⟨x, -, hs⟩ := Option.bind_eq_some_iff.mp hs
      obtain ⟨-, hd⟩ := guarded_eq_some hs
      obtain rfl := Outcome.ok.inj hd
      exact hsame (.modPipe fun _ => ⟨rfl, rfl⟩)
  | finiCheck p =>
      obtain ⟨-, hd⟩ := guarded_eq_some hs
      obtain ⟨task, -, rfl⟩ := finiCheck_cases hd
      exact hsame (.modPipe fun _ => ⟨rfl, rfl⟩)
  | finiRelease p resetOk =>
      simp only [schedStep] at hs
      split at hs
      · obtain ⟨-, hd⟩ := guarded_eq_some hs
        exact hsame (.finiRelease hd)
      · cases hs
  | finiStop p =>
      obtain ⟨-, hd⟩ := guarded_eq_some hs
      obtain rfl := Outcome.ok.inj hd
      exact hsame (.modPipe (d := d.drmSchedStop p) fun _ => ⟨rfl, rfl⟩)
  | _ => cases hs

end Work

/-! ## Until the task is retired -/

section Kept

variable {d d' : Dev} {p : PipeId}

/-- A pipe keeps the task it has in flight until the timeout clears the pipe, the
teardown releases it, or an interrupt completes the task. -/
theorem SchedWf.keeps_inFlight (h : SchedWf d) (hfl : d.inFlight p = true)
    {cfg : DevConfig} {e : DevEvent} (hd : devStep cfg d e = some d') :
    ((d'.pipe p).currentTask = (d.pipe p).currentTask ∧ d'.inFlight p = true) ∨
      e = .timedoutClear p ∨ (∃ resetOk, e = .finiRelease p resetOk) ∨
      (p = .gp → GpEnds e) := by
  have hpipe : d'.pipe p = d.pipe p → d'.inFlight p = d.inFlight p →
      (d'.pipe p).currentTask = (d.pipe p).currentTask ∧ d'.inFlight p = true := by
    intro h₁ h₂
    rw [h₁, h₂]
    exact ⟨rfl, hfl⟩
  cases devStep_move h.tasks hd with
  | user m => exact .inl (hpipe (congrFun m.pipe p) (h.user_inFlight m p))
  | quiet q => exact .inl ⟨(q.pipe p).currentTask, (q.inFlight p).trans hfl⟩
  | @completes _ q t _ d₁ _ hends c =>
      by_cases hp : p = q
      · subst hp
        exact .inr (.inr (.inr hends))
      · obtain ⟨-, -, ho, -⟩ := h.completes_inFlight c
        refine .inl ⟨?_, (ho p hp).trans hfl⟩
        rw [c.eq, complete_pipe]
        exact (c.quiet.pipe p).currentTask
  | @runJob t env _ _ hr hrun =>
      have hidle := (h.ready_of_canRun hr).idle
      have hp : p ≠ (d.task t).pipe := by
        rintro rfl
        rw [hidle] at hfl
        cases hfl
      rcases dispatch_cases hrun with hg | hg
      · exact .inl (hpipe (by rw [hg.rest]) (h.gaveUp_inFlight hg p))
      · exact .inl (hpipe (hg.pipe p hp) ((h.started_inFlight hg).2 p hp))
  | killJob ht => exact .inl (hpipe rfl (SchedWf.killJob_inFlight d _ p))
  | @freeJob t fuel _ _ hf hfree =>
      have hfl' := SchedWf.freeJob_inFlight hfree p
      obtain ⟨-, s₁, s, gemRef, -, -, rfl⟩ := limaSchedFreeJob_cases hfree
      obtain ⟨fence, hput⟩ := d.fencePut_fence (d.task t).fence
      exact .inl (hpipe (by rw [hput]) hfl')
  | @clear q t _ _ ht hclear =>
      by_cases hp : p = q
      · subst hp
        exact .inr (.inl rfl)
      · obtain ⟨-, ho, -⟩ := SchedWf.clear_inFlight hclear
        obtain ⟨s, -, rfl⟩ := timedoutClear_cases hclear
        exact .inl (hpipe (modPipe_pipe_ne _ hp _) (ho p hp))
  | @resubmit q t u cancel env _ _ ht hu hres =>
      have hp : p ≠ q := by
        rintro rfl
        rw [inFlight_of_none (h.cleared p t ht)] at hfl
        cases hfl
      obtain ⟨d₁, hcases, rfl⟩ := timedoutResubmit_cases hres
      have h₁ : SchedWf (cancelled u cancel d) := h.modTask (.inl hu.1) fun _ => rfl
      have hq : ((cancelled u cancel d).task u).pipe = q := by
        simpa [cancelled] using hu.2.2
      have hfl₁ := SchedWf.cancelled_inFlight u cancel d p
      have hleave : (d₁.leaveTimeout q (some (t, .resubmitted))).pipe p = d₁.pipe p :=
        modPipe_pipe_ne _ hp _
      rcases hcases with hg | hg
      · refine .inl (hpipe (hleave.trans ?_) ?_)
        · rw [hg.rest]
          rfl
        · rw [SchedWf.leaveTimeout_inFlight, h₁.gaveUp_inFlight hg, hfl₁]
      · have hne : p ≠ ((cancelled u cancel d).task u).pipe := by
          rwa [hq]
        refine .inl (hpipe (hleave.trans (hg.pipe p hne)) ?_)
        rw [SchedWf.leaveTimeout_inFlight, (h₁.started_inFlight hg).2 p hne, hfl₁]
  | @release q resetOk task _ _ hc hrel =>
      by_cases hp : p = q
      · subst hp
        exact .inr (.inr (.inl ⟨resetOk, rfl⟩))
      · obtain ⟨-, ho, -⟩ := h.release_inFlight hc hrel
        refine .inl (hpipe ?_ (ho p hp))
        obtain ⟨-, -, rfl⟩ | ⟨s, x, -, -, -, d₁, rfl, ⟨-, rfl⟩ | ⟨t, -, -, rfl⟩⟩ :=
          finiRelease_cases hrel
        · exact modPipe_pipe_ne _ hp _
        · simp [hp]
        · rw [fenceSignal_pipe, fenceSetError_pipe]
          simp [hp]

end Kept

/-- The recovery work is for exhausted heaps, and a task that has faulted is still in
flight. -/
structure FaultWf (x : Dev × Option TaskId) : Prop where
  work : ∀ w, RecoveryFor x.1 w → w.oom = true
  faulted : ∀ t, x.2 = some t →
    (x.1.pipe .gp).currentTask = some t ∧ x.1.inFlight .gp = true

/-- **The step lemma.** -/
theorem FaultWf.step {x x' : Dev × Option TaskId} (hw : SchedWf x.1) (h : FaultWf x)
    {cfg : DevConfig} {e : DevEvent} (hok : FaultKept x e)
    (hx : (faultLts cfg).step x e x') : FaultWf x' := by
  obtain ⟨d, fault⟩ := x
  obtain ⟨d', fault'⟩ := x'
  obtain ⟨hd, rfl⟩ : devStep cfg d e = some d' ∧ fault' = faultedTask fault d e := hx
  refine ⟨fun w hwork => ?_, fun t ht => ?_⟩
  · rcases recoveryFor_of_step hw.tasks hd hwork with hold | hoom | ⟨rfl, hsched⟩
    · exact h.work w hold
    · exact hoom
    · exact absurd hsched hok
  -- a fault comes from a started unit, so its task is in flight
  have hin : (d.pipe .gp).currentTask = some t ∧ d.inFlight .gp = true ∨
      fault = some t := by
    unfold faultedTask at ht
    split at ht
    · rcases devStep_cases hd with hu | hs
      · cases hu
      · obtain ⟨hrun, -⟩ := guarded_eq_some hs
        exact .inl ⟨ht, hw.busy .gp hrun (by simp [show (d.pipe .gp).currentTask = _ from ht])⟩
    · cases ht
    · cases ht
    · exact .inr ht
  have hold : (d.pipe .gp).currentTask = some t ∧ d.inFlight .gp = true := by
    rcases hin with hin | hin
    · exact hin
    · exact h.faulted t hin
  rcases hw.keeps_inFlight hold.2 hd with ⟨hc, hfl⟩ | rfl | ⟨resetOk, rfl⟩ | hends
  · exact ⟨hc.trans hold.1, hfl⟩
  · cases ht
  · cases ht
  · obtain ⟨st, active, rfl, herr, hdone⟩ := hends rfl
    have hf : fault = some t := ht
    rcases hok with hok | hok | hok
    · cases hf.symm.trans hok
    · rw [herr] at hok
      cases hok
    · rw [hdone] at hok
      cases hok

/-! ## Main result -/

/-- The GP MMU reports a page fault. -/
def gpFault : DevEvent := .mmuIrq .gp

end Lima
