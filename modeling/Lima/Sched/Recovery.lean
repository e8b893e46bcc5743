import Lima.Sched.JobOutcome

/-!
# Recovery of an exhausted heap

The recovery work carries no task: it works on whatever `current_task` is when it runs.
That is the task it was queued for as long as neither the timeout nor the teardown lets
go of the pipe before the work is done; and it is queued for an exhausted heap only, if
no MMU interrupt comes for a task that could be recovered.
-/

namespace Lima

open Dev

/-! ## The work and its task -/

/-- Recovery work of the GP pipe, queued, or under way for the task it has read. -/
inductive RecoveryFor (d : Dev) (w : RecoverWork) : Prop
  | queued : (d.pipe .gp).recoverQueued = some w → RecoveryFor d w
  | running {t : TaskId} : (d.pipe .gp).recoverRunning = some (w, t) → RecoveryFor d w

def NoRecovery (d : Dev) : Prop :=
  (d.pipe .gp).recoverQueued = none ∧ (d.pipe .gp).recoverRunning = none

instance (d : Dev) : Decidable (NoRecovery d) := inferInstanceAs (Decidable (_ ∧ _))

/-- An MMU interrupt of the GP queues recovery work, though no heap is exhausted. -/
def FaultSchedules (d : Dev) : Prop :=
  (d.pipe .gp).recoverQueued = none ∧
    ((d.pipe .gp).currentTask.map fun t => (d.task t).recoverable) = some true

instance (d : Dev) : Decidable (FaultSchedules d) := inferInstanceAs (Decidable (_ ∧ _))

/-- The pipe is not let go of under recovery work, and no MMU interrupt queues any. -/
def RecoverySafe (d : Dev) : DevEvent → Prop
  | .timedoutClear .gp => NoRecovery d
  | .finiRelease .gp _ => NoRecovery d
  | .mmuIrq .gp => ¬ FaultSchedules d
  | _ => True

instance (d : Dev) : (e : DevEvent) → Decidable (RecoverySafe d e)
  | .timedoutClear .gp => inferInstanceAs (Decidable (NoRecovery d))
  | .finiRelease .gp _ => inferInstanceAs (Decidable (NoRecovery d))
  | .mmuIrq .gp => inferInstanceAs (Decidable (¬ FaultSchedules d))
  | .timedoutClear .pp => instDecidableTrue
  | .finiRelease .pp _ => instDecidableTrue
  | .mmuIrq .pp => instDecidableTrue
  | .fileOpen .. | .fileClose .. | .handleOpen .. | .handleClose .. | .submitBegin ..
  | .submitAdd .. | .submitLockFail .. | .submitInit .. | .submitDepsFail .. | .submitQueue ..
  | .submitUndo .. | .submitEnd .. | .runJob .. | .killJob .. | .freeJob .. | .gpIrq ..
  | .ppIrq .. | .recoverBegin .. | .recoverEnd .. | .timedoutBegin .. | .timedoutReset ..
  | .timedoutResubmit .. | .timedoutEnd .. | .finiCheck .. | .finiStop .. =>
      instDecidableTrue

/-- The work is for the current task: it can be recovered and is not retired, its heap
was exhausted, and the GP raises no interrupt before the work has resumed it. -/
structure WorksOn (d : Dev) (w : RecoverWork) : Prop where
  oom : w.oom = true
  current : (d.pipe .gp).currentTask = some w.task
  recoverable : (d.task w.task).recoverable = true
  inFlight : d.inFlight .gp = true
  masked : (d.pipe .gp).intMask = false ∨ (d.pipe .gp).running = 0

structure RecoverWf (d : Dev) : Prop where
  queued : ∀ w, (d.pipe .gp).recoverQueued = some w → WorksOn d w ∧
    (d.pipe .gp).recoverRunning = none
  running : ∀ w t, (d.pipe .gp).recoverRunning = some (w, t) → WorksOn d w ∧ t = w.task
  pp : (d.pipe .pp).recoverRunning = none

/-- The step leaves the work, its task and the interrupt mask alone. -/
structure RecoverFrame (d d' : Dev) : Prop where
  queued : (d'.pipe .gp).recoverQueued = (d.pipe .gp).recoverQueued
  running : (d'.pipe .gp).recoverRunning = (d.pipe .gp).recoverRunning
  pp : (d'.pipe .pp).recoverRunning = (d.pipe .pp).recoverRunning
  current : (d'.pipe .gp).currentTask = (d.pipe .gp).currentTask
  recoverable : ∀ t, (d.pipe .gp).currentTask = some t → (d.task t).state = .pending →
    (d'.task t).recoverable = (d.task t).recoverable
  inFlight : d'.inFlight .gp = d.inFlight .gp
  masked : (d.pipe .gp).intMask = false ∨ (d.pipe .gp).running = 0 →
    (d'.pipe .gp).intMask = false ∨ (d'.pipe .gp).running = 0

namespace RecoverWf

variable {d d' : Dev} {p : PipeId} {t : TaskId}

theorem frame (hw : SchedWf d) (h : RecoverWf d) (f : RecoverFrame d d') : RecoverWf d' := by
  have hon : ∀ w, WorksOn d w → WorksOn d' w := by
    intro w hon
    refine ⟨hon.oom, f.current.trans hon.current, ?_, f.inFlight.trans hon.inFlight,
      f.masked hon.masked⟩
    rw [f.recoverable _ hon.current (hw.running .gp _ hon.current hon.inFlight).1]
    exact hon.recoverable
  refine ⟨fun w hq => ?_, fun w t hr => ?_, f.pp.trans h.pp⟩
  · rw [f.queued] at hq
    rw [f.running]
    exact ⟨hon w (h.queued w hq).1, (h.queued w hq).2⟩
  · rw [f.running] at hr
    exact ⟨hon w (h.running w t hr).1, (h.running w t hr).2⟩

/-- Nothing to show where there is no work. -/
theorem of_none (hn : NoRecovery d) (hpp : (d.pipe .pp).recoverRunning = none) :
    RecoverWf d where
  queued w hq := by
    rw [hn.1] at hq
    cases hq
  running w t hr := by
    rw [hn.2] at hr
    cases hr
  pp := hpp

/-- Work keeps the task in flight. -/
theorem none_of_idle (h : RecoverWf d) (hi : d.inFlight .gp = false) : NoRecovery d := by
  constructor
  · cases hq : (d.pipe .gp).recoverQueued with
    | none => rfl
    | some w =>
        have hon := (h.queued w hq).1.inFlight
        rw [hi] at hon
        cases hon
  · cases hr : (d.pipe .gp).recoverRunning with
    | none => rfl
    | some x =>
        have hon := (h.running x.1 x.2 hr).1.inFlight
        rw [hi] at hon
        cases hon

/-- A GP that can raise an interrupt has no work to wait for. -/
theorem none_of_unmasked (h : RecoverWf d) (hrun : 0 < (d.pipe .gp).running)
    (hmask : (d.pipe .gp).intMask = true) : NoRecovery d := by
  have hno : ∀ w, ¬ WorksOn d w := by
    intro w hon
    rcases hon.masked with hm | hr
    · rw [hmask] at hm
      cases hm
    · omega
  constructor
  · cases hq : (d.pipe .gp).recoverQueued with
    | none => rfl
    | some w => exact absurd (h.queued w hq).1 (hno w)
  · cases hr : (d.pipe .gp).recoverRunning with
    | none => rfl
    | some x => exact absurd (h.running x.1 x.2 hr).1 (hno x.1)

end RecoverWf

/-! ## Steps -/

namespace RecoverFrame

variable {d d' : Dev} {t : TaskId}

/-- A quiet step that leaves the GP pipe's work, mask and tasks alone. -/
theorem of_quiet (q : d.Quiet d')
    (hq : (d'.pipe .gp).recoverQueued = (d.pipe .gp).recoverQueued)
    (hr : (d'.pipe .gp).recoverRunning = (d.pipe .gp).recoverRunning)
    (hpp : (d'.pipe .pp).recoverRunning = (d.pipe .pp).recoverRunning)
    (hrec : ∀ t, (d'.task t).recoverable = (d.task t).recoverable)
    (hm : (d'.pipe .gp).intMask = (d.pipe .gp).intMask ∨ (d'.pipe .gp).intMask = false ∨
      (d'.pipe .gp).running = 0) : RecoverFrame d d' where
  queued := hq
  running := hr
  pp := hpp
  current := (q.pipe .gp).currentTask
  recoverable t _ _ := hrec t
  inFlight := q.inFlight .gp
  masked hold := by
    rcases hm with hm | hm | hm
    · rw [hm]
      rcases hold with hold | hold
      · exact .inl hold
      · have hle := (q.pipe .gp).running
        exact .inr (by omega)
    · exact .inl hm
    · exact .inr hm

/-- A step on the PP pipe. -/
theorem of_pp (hgp : d'.pipe .gp = d.pipe .gp)
    (hpp : (d'.pipe .pp).recoverRunning = (d.pipe .pp).recoverRunning)
    (hrec : ∀ t, (d.pipe .gp).currentTask = some t →
      (d'.task t).recoverable = (d.task t).recoverable)
    (hfl : d'.inFlight .gp = d.inFlight .gp) : RecoverFrame d d' where
  queued := by rw [hgp]
  running := by rw [hgp]
  pp := hpp
  current := by rw [hgp]
  recoverable t ht _ := hrec t ht
  inFlight := hfl
  masked := by
    rw [hgp]
    exact fun hold => hold

theorem modPp (g : Pipe → Pipe)
    (hr : (g (d.pipe .pp)).recoverRunning = (d.pipe .pp).recoverRunning) :
    RecoverFrame d (d.modPipe .pp g) := by
  have hgp : (d.modPipe .pp g).pipe .gp = d.pipe .gp := modPipe_pipe_ne d (by simp) g
  exact of_pp hgp (by simpa using hr) (fun _ _ => rfl)
    (inFlight_congr (by rw [hgp]) (fun _ _ => rfl) fun _ _ _ _ => rfl)

end RecoverFrame

namespace RecoverWf

variable {d d' : Dev} {p : PipeId} {t : TaskId}

theorem dispatched (hw : SchedWf d) (h : RecoverWf d) (hr : d.Ready t) {env : RunEnv}
    (hd : GaveUp env t d d' ∨ Started env t d d') : RecoverWf d' := by
  have hpp : (d'.pipe .pp).recoverRunning = none := by
    refine Eq.trans ?_ h.pp
    rcases hd with hg | hg
    · rw [hg.rest]
    · by_cases hp : .pp = (d.task t).pipe
      · obtain ⟨v, s, -, -, -, -, hsw⟩ := hg.refs
        rw [hp]
        exact hsw.recoverRunning
      · rw [hg.pipe .pp hp]
  rcases hd with hg | hg
  · have hpipe : d'.pipe = d.pipe := by rw [hg.rest]
    refine frame hw h ⟨by rw [hpipe], by rw [hpipe], by rw [hpipe], by rw [hpipe],
      fun u _ _ => ?_, hw.gaveUp_inFlight hg .gp, by rw [hpipe]; exact fun hold => hold⟩
    rw [hg.task]
    by_cases hu : u = t
    · subst hu
      simp
    · simp [hu]
  · by_cases hp : .gp = (d.task t).pipe
    · -- the pipe was idle, so there was no work
      have hn := h.none_of_idle (hp ▸ hr.idle)
      obtain ⟨v, s, -, -, -, -, hsw⟩ := hg.refs
      refine of_none ⟨?_, ?_⟩ hpp
      · rw [hp]
        exact hsw.recoverQueued.trans (hp ▸ hn.1)
      · rw [hp]
        exact hsw.recoverRunning.trans (hp ▸ hn.2)
    · obtain ⟨x, -, htask⟩ := hg.task
      refine frame hw h (.of_pp (hg.pipe .gp hp) (hpp.trans h.pp.symm) (fun u hu => ?_)
        ((hw.started_inFlight hg).2 .gp hp))
      have hut : u ≠ t := by
        rintro rfl
        exact hp (hw.current .gp u hu).1.symm
      simp [htask, hut]

theorem complete_recoverable (d : Dev) (t u : TaskId) :
    ((d.complete t).task u).recoverable = (d.task u).recoverable := by
  change (((d.modTask t fun task => { task with hwDone := true }).fenceSignal
    (d.task t).fence).task u).recoverable = _
  rw [fenceSignal_task, modTask_task]
  split <;> rfl

theorem gpIrq (hw : SchedWf d) (h : RecoverWf d) {st : GpIntStat} {active : Bool}
    (hrun : 0 < (d.pipe .gp).running) (hmask : (d.pipe .gp).intMask = true)
    (hd : (gpReport d st active).limaGpIrqHandler st active = .ok d') : RecoverWf d' := by
  have hn := h.none_of_unmasked hrun hmask
  have hpp : ∀ g, ((d.modPipe .gp g).pipe .pp).recoverRunning = none := by
    intro g
    rw [modPipe_pipe_ne d (by simp)]
    exact h.pp
  obtain rfl | ⟨-, d₁, hd₁, rfl⟩ | ⟨-, t, hc, hrec, rfl⟩ | ⟨-, rfl⟩ |
    ⟨-, -, t, hc, -, rfl⟩ := gpIrq_cases hd
  · exact h
  · obtain rfl | ⟨t, -, rfl⟩ := hd₁
    · exact of_none (by simpa [NoRecovery, Pipe.masked] using hn) (hpp _)
    · exact of_none (by simpa [NoRecovery, Pipe.masked] using hn) (hpp _)
  · -- the heap is exhausted: the work is queued for the task whose unit stopped
    have hfl : ((d.modPipe .gp Pipe.masked).scheduleRecover .gp ⟨t, true⟩).inFlight .gp =
        true := by
      have hq : d.Quiet ((d.modPipe .gp Pipe.masked).scheduleRecover .gp ⟨t, true⟩) :=
        Quiet.trans (.modGp (Pipe.masked_quiet _) fun hh => hh) (.scheduleRecover ..)
      rw [hq.inFlight]
      exact hw.busy .gp hrun (by simp [hc])
    have hnew : ((d.modPipe .gp Pipe.masked).scheduleRecover .gp ⟨t, true⟩).pipe .gp =
        { (d.pipe .gp).masked with recoverQueued := some ⟨t, true⟩ } := by
      simp [Dev.scheduleRecover, Pipe.masked, hn.1]
    refine ⟨fun w hq => ?_, fun w u hr => ?_, ?_⟩
    · rw [hnew] at hq
      obtain rfl := Option.some.inj hq
      refine ⟨⟨rfl, ?_, hrec, hfl, .inl ?_⟩, ?_⟩
      · rw [hnew]
        exact hc
      · rw [hnew]
        rfl
      · rw [hnew]
        exact hn.2
    · rw [hnew] at hr
      rw [show ({ (d.pipe .gp).masked with
        recoverQueued := some ⟨t, true⟩ } : Pipe).recoverRunning = none from hn.2] at hr
      cases hr
    · rw [Dev.scheduleRecover, modPipe_pipe_ne _ (by simp)]
      exact hpp _
  · exact of_none (by simpa [NoRecovery] using hn) (hpp _)
  · have hpipe : ∀ e : Dev, (e.complete t).pipe = e.pipe := fun e => by
      simp [Dev.complete, Dev.addPm]
    refine of_none ?_ ?_
    · have hended : ((d.pipe .gp).ended).recoverQueued = (d.pipe .gp).recoverQueued ∧
          ((d.pipe .gp).ended).recoverRunning = (d.pipe .gp).recoverRunning := by
        unfold Pipe.ended limaGpSoftResetAsync
        split <;> exact ⟨rfl, rfl⟩
      rw [NoRecovery, hpipe, modPipe_pipe_self, hended.1, hended.2]
      exact hn
    · rw [hpipe]
      exact hpp _

theorem recoverBegin (h : RecoverWf d) {w : RecoverWork}
    (hq : (d.pipe p).recoverQueued = some w) (hd : d.recoverBegin p w = .ok d') :
    RecoverWf d' := by
  have hfl := (recoverBegin_quiet hd).inFlight .gp
  obtain ⟨rfl, t, hc, rfl⟩ := recoverBegin_cases hd
  obtain ⟨hon, -⟩ := h.queued w hq
  obtain rfl : t = w.task := Option.some.inj (hc.symm.trans hon.current)
  refine ⟨fun w' hq' => ?_, fun w' t' hr => ?_, ?_⟩
  · simp at hq'
  · obtain ⟨rfl, rfl⟩ : w = w' ∧ w.task = t' := by simpa using hr
    refine ⟨⟨hon.oom, by simpa using hc, hon.recoverable, hfl.trans hon.inFlight, ?_⟩, rfl⟩
    simpa using hon.masked
  · rw [modPipe_pipe_ne d (by simp)]
    exact h.pp

/-- The recovery itself queues no work. -/
theorem recoverResume_pipe {initNrPages : ℕ} {env : HeapEnv} {fuel : ℕ} {e : Option Errno}
    (h : d.recoverResume initNrPages env fuel t = .ok (d', e)) :
    (d'.pipe .gp).recoverQueued = (d.pipe .gp).recoverQueued ∧
      (d'.pipe .gp).recoverRunning = (d.pipe .gp).recoverRunning ∧
      d'.pipe .pp = d.pipe .pp := by
  obtain ⟨x, hx, h⟩ := Outcome.bind_eq_ok h
  obtain ⟨-, rfl⟩ := readTask_cases hx
  split at h
  · cases h
  · obtain ⟨⟨s, e'⟩, -, h⟩ := Outcome.bind_eq_ok h
    cases e' with
    | some e' =>
        obtain ⟨rfl, -⟩ := Prod.mk.inj (Outcome.ok.inj h)
        exact ⟨rfl, rfl, rfl⟩
    | none =>
        obtain ⟨rfl, -⟩ := Prod.mk.inj (Outcome.ok.inj h)
        refine ⟨by simp [setSys], by simp [setSys], ?_⟩
        rw [modPipe_pipe_ne _ (by simp)]
        rfl

theorem recoverEnd (h : RecoverWf d) {initNrPages : ℕ} {env : HeapEnv} {fuel : ℕ}
    {r : RecoverWork × TaskId} (hr : (d.pipe p).recoverRunning = some r)
    (hd : d.recoverEnd initNrPages env fuel p r.2 = .ok d') : RecoverWf d' := by
  cases p with
  | pp =>
      rw [h.pp] at hr
      cases hr
  | gp =>
      obtain ⟨⟨d₁, e⟩, hres, hd⟩ := Outcome.bind_eq_ok hd
      obtain rfl := Outcome.ok.inj hd
      -- the work under way was the only one
      have hqueue : (d.pipe .gp).recoverQueued = none := by
        cases hq : (d.pipe .gp).recoverQueued with
        | none => rfl
        | some w =>
            rw [(h.queued w hq).2] at hr
            cases hr
      have hpipe := recoverResume_pipe hres
      refine of_none ⟨?_, ?_⟩ ?_
      · rw [modPipe_pipe_self]
        exact hpipe.1.trans hqueue
      · rw [modPipe_pipe_self]
      · rw [modPipe_pipe_ne _ (by simp), hpipe.2.2]
        exact h.pp

/-- The stages of a timeout and of a teardown that keep the pipe's task. -/
theorem stage (hw : SchedWf d) (h : RecoverWf d) {e : Dev} {g : Pipe → Pipe}
    (hpipe : e.pipe = d.pipe) (htask : e.task = d.task) (q : d.Quiet (e.modPipe p g))
    (hg : ∀ x, (g x).recoverQueued = x.recoverQueued ∧
      (g x).recoverRunning = x.recoverRunning)
    (hm : ∀ x : Pipe, p = .gp → (g x).intMask = x.intMask ∨ (g x).intMask = false ∨
      (g x).running = 0) : RecoverWf (e.modPipe p g) := by
  have hsame : ∀ r, ((e.modPipe p g).pipe r).recoverQueued = (d.pipe r).recoverQueued ∧
      ((e.modPipe p g).pipe r).recoverRunning = (d.pipe r).recoverRunning := by
    intro r
    rw [modPipe_pipe, hpipe]
    split
    · exact hg _
    · exact ⟨rfl, rfl⟩
  refine frame hw h (.of_quiet q (hsame .gp).1 (hsame .gp).2 (hsame .pp).2
    (fun t => congrArg (fun x => (x t).recoverable) htask) ?_)
  rw [modPipe_pipe, hpipe]
  split
  · rename_i hp
    exact hm _ hp.symm
  · exact .inl rfl

theorem mmuIrq (hw : SchedWf d) (h : RecoverWf d) (hok : RecoverySafe d (.mmuIrq p))
    (hd : d.limaSchedPipeMmuError p = .ok d') : RecoverWf d' := by
  have hq := mmuIrq_quiet hd
  obtain ⟨g, hg, hcase⟩ := mmuIrq_cases hd
  have hg' : ∀ x, (g x).recoverQueued = x.recoverQueued ∧
      (g x).recoverRunning = x.recoverRunning := fun x => by
    rw [hg]
    exact ⟨rfl, rfl⟩
  obtain rfl | ⟨t, hc, hrec, rfl⟩ := hcase
  · refine h.stage hw rfl rfl hq hg' fun x _ => ?_
    rw [hg]
    exact .inl rfl
  · cases p with
    | gp =>
        -- the work queued already is for the current task
        cases hwork : (d.pipe .gp).recoverQueued with
        | none =>
            refine absurd ⟨hwork, ?_⟩ hok
            rw [hc]
            simpa using hrec
        | some w =>
            have hqueued : ((d.modPipe .gp g).pipe .gp).recoverQueued = some w := by
              rw [modPipe_pipe_self, (hg' _).1, hwork]
            rw [scheduleRecover_queued hqueued] at hq ⊢
            refine h.stage hw rfl rfl hq hg' fun x _ => ?_
            rw [hg]
            exact .inl rfl
    | pp =>
        have htwo : (d.modPipe .pp g).scheduleRecover .pp ⟨t, false⟩ =
            d.modPipe .pp fun x => { g x with
              recoverQueued := (g x).recoverQueued.or (some ⟨t, false⟩) } := by
          simp [Dev.scheduleRecover, modPipe]
        rw [htwo]
        exact frame hw h (.modPp _ (hg' _).2)

theorem ppIrq (hw : SchedWf d) (h : RecoverWf d) {error last : Bool}
    (hrun : 0 < (d.pipe .pp).running) (hirq : error = true ∨ last = true)
    (hd : (ppReport d last).limaPpIrqHandler error = .ok d') : RecoverWf d' := by
  obtain rfl | ⟨t, rfl⟩ | ⟨hzero, herr, t, hc, hlive, rfl⟩ := ppIrq_cases hd
  · exact frame hw h (.modPp _ rfl)
  · have htwo : (d.modPipe .pp fun x => x.counted error last).scheduleRecover .pp ⟨t, false⟩ =
        d.modPipe .pp fun x => { x.counted error last with
          recoverQueued := x.recoverQueued.or (some ⟨t, false⟩) } := by
      simp [Dev.scheduleRecover, modPipe, Pipe.counted]
    rw [htwo]
    exact frame hw h (.modPp _ rfl)
  · rcases ppIrq_quiet hrun hirq hd with hq | ⟨u, c⟩
    · -- completion is not quiet
      have hpm := hq.pm
      simp [Dev.complete, addPm] at hpm
    · have hpipe : ((d.modPipe .pp fun x => x.counted error last).complete t).pipe =
          (d.modPipe .pp fun x => x.counted error last).pipe := by
        simp [Dev.complete, Dev.addPm]
      refine frame hw h (.of_pp ?_ ?_ (fun v _ => ?_)
        ((hw.completes_inFlight c).2.2.1 .gp (by simp)))
      · rw [hpipe, modPipe_pipe_ne d (by simp)]
      · rw [hpipe, modPipe_pipe_self]
        rfl
      · exact complete_recoverable _ t v

theorem resubmit (hw : SchedWf d) (h : RecoverWf d) {u : TaskId} {cancel : Bool}
    {env : RunEnv} (ht : (d.pipe p).timedout = some (t, .cleared)) (hu : d.Unfinished p u)
    (hd : d.timedoutResubmit p t u cancel env = .ok d') : RecoverWf d' := by
  have hw' := hw.timedoutResubmit ht hu hd
  obtain ⟨d₁, hcases, rfl⟩ := timedoutResubmit_cases hd
  have hw₁ : SchedWf (cancelled u cancel d) := hw.modTask (.inl hu.1) fun _ => rfl
  have hu₁ : (cancelled u cancel d).Unfinished p u := by
    simpa [Unfinished, cancelled] using hu
  have h₁ : RecoverWf (cancelled u cancel d) := by
    refine frame hw h ⟨rfl, rfl, rfl, rfl, fun v _ _ => ?_,
      SchedWf.cancelled_inFlight u cancel d .gp, fun hold => hold⟩
    rw [cancelled, modTask_task]
    split <;> rfl
  have hd₁ := h₁.dispatched hw₁ (hw₁.ready_of_cleared ht hu₁) hcases
  have hsame : ∀ r, ((d₁.leaveTimeout p (some (t, .resubmitted))).pipe r).recoverQueued =
      (d₁.pipe r).recoverQueued ∧
      ((d₁.leaveTimeout p (some (t, .resubmitted))).pipe r).recoverRunning =
      (d₁.pipe r).recoverRunning ∧
      ((d₁.leaveTimeout p (some (t, .resubmitted))).pipe r).currentTask =
      (d₁.pipe r).currentTask ∧
      ((d₁.leaveTimeout p (some (t, .resubmitted))).pipe r).intMask = (d₁.pipe r).intMask ∧
      ((d₁.leaveTimeout p (some (t, .resubmitted))).pipe r).running =
      (d₁.pipe r).running := by
    intro r
    rw [leaveTimeout, modPipe_pipe]
    split <;> exact ⟨rfl, rfl, rfl, rfl, rfl⟩
  have hon : ∀ w, WorksOn d₁ w → WorksOn (d₁.leaveTimeout p (some (t, .resubmitted))) w := by
    intro w hon
    obtain ⟨-, -, hc, hm, hr⟩ := hsame .gp
    refine ⟨hon.oom, hc.trans hon.current, hon.recoverable, ?_, ?_⟩
    · rw [SchedWf.leaveTimeout_inFlight]
      exact hon.inFlight
    · rw [hm, hr]
      exact hon.masked
  refine ⟨fun w hq => ?_, fun w v hr => ?_, ?_⟩
  · rw [(hsame .gp).1] at hq
    rw [(hsame .gp).2.1]
    exact ⟨hon w (hd₁.queued w hq).1, (hd₁.queued w hq).2⟩
  · rw [(hsame .gp).2.1] at hr
    exact ⟨hon w (hd₁.running w v hr).1, (hd₁.running w v hr).2⟩
  · rw [(hsame .pp).2.1]
    exact hd₁.pp

theorem clear (hw : SchedWf d) (h : RecoverWf d) (hok : RecoverySafe d (.timedoutClear p))
    (hd : d.timedoutClear p t = .ok d') : RecoverWf d' := by
  have hfl := (SchedWf.clear_inFlight hd).2.1
  obtain ⟨s, -, rfl⟩ := timedoutClear_cases hd
  cases p with
  | gp =>
      have hn : NoRecovery d := hok
      refine of_none (by simpa [NoRecovery] using hn) ?_
      rw [modPipe_pipe_ne _ (by simp)]
      exact h.pp
  | pp =>
      refine frame hw h (.of_pp ?_ (by simp) (fun _ _ => rfl) (hfl .gp (by simp)))
      rw [modPipe_pipe_ne _ (by simp)]

theorem finiRelease (hw : SchedWf d) (h : RecoverWf d) {resetOk : Bool}
    {task : Option TaskId} (hok : RecoverySafe d (.finiRelease p resetOk))
    (hc : (d.pipe p).fini = .checked task) (hd : d.finiRelease p resetOk task = .ok d') :
    RecoverWf d' := by
  have hfl := (hw.release_inFlight hc hd).2.1
  have hpipe : ∃ x, d'.pipe = Function.update d.pipe p x ∧
      x.recoverQueued = (d.pipe p).recoverQueued ∧
      x.recoverRunning = (d.pipe p).recoverRunning := by
    obtain ⟨-, -, rfl⟩ | ⟨s, x, -, hlet, -, d₁, rfl, ⟨-, rfl⟩ | ⟨t, -, -, rfl⟩⟩ :=
      finiRelease_cases hd
    · exact ⟨_, rfl, rfl, rfl⟩
    · exact ⟨x, rfl, hlet.recoverQueued, hlet.recoverRunning⟩
    · refine ⟨x, ?_, hlet.recoverQueued, hlet.recoverRunning⟩
      rw [fenceSignal_pipe, fenceSetError_pipe]
  have htask : ∀ u, (d'.task u).recoverable = (d.task u).recoverable := by
    intro u
    obtain ⟨-, -, rfl⟩ | ⟨s, x, -, -, -, d₁, rfl, ⟨-, rfl⟩ | ⟨t, -, -, rfl⟩⟩ :=
      finiRelease_cases hd
    · rfl
    · rfl
    · rw [fenceSignal_task, fenceSetError_task]
  obtain ⟨x, hx, hq, hr⟩ := hpipe
  cases p with
  | gp =>
      have hn : NoRecovery d := hok
      refine of_none ?_ ?_
      · rw [NoRecovery, hx, Function.update_self, hq, hr]
        exact hn
      · rw [hx, Function.update_of_ne (by simp)]
        exact h.pp
  | pp =>
      refine frame hw h (.of_pp ?_ ?_ (fun u _ => htask u) (hfl .gp (by simp)))
      · rw [hx, Function.update_of_ne (by simp)]
      · rw [hx, Function.update_self, hr]

/-- **The step lemma.** -/
theorem step (hw : SchedWf d) (h : RecoverWf d) {cfg : DevConfig} {e : DevEvent}
    (hok : RecoverySafe d e) (hd : devStep cfg d e = some d') : RecoverWf d' := by
  rcases devStep_cases hd with hu | hs
  · obtain ⟨m, -⟩ := userStep_move hw.tasks hu
    exact frame hw h ⟨by rw [m.pipe], by rw [m.pipe], by rw [m.pipe], by rw [m.pipe],
      fun u hc _ => congrArg Task.recoverable (hw.user_current m hc), hw.user_inFlight m .gp,
      by rw [m.pipe]; exact fun hold => hold⟩
  cases e with
  | runJob t env =>
      obtain ⟨hr, hd⟩ := guarded_eq_some hs
      exact h.dispatched hw (hw.ready_of_canRun hr) (dispatch_cases hd)
  | killJob t =>
      obtain ⟨ht, hd⟩ := guarded_eq_some hs
      obtain rfl := Outcome.ok.inj hd
      refine frame hw h ⟨rfl, rfl, rfl, rfl, fun u _ _ => ?_,
        SchedWf.killJob_inFlight d t .gp, fun hold => hold⟩
      by_cases hu : u = t
      · subst hu
        simp [Dev.killJob, jobDone]
      · simp [Dev.killJob, jobDone, Dev.modTask, hu]
  | freeJob t fuel =>
      obtain ⟨hf, hd⟩ := guarded_eq_some hs
      have hfl := SchedWf.freeJob_inFlight hd .gp
      obtain ⟨-, s₁, s, gemRef, -, -, rfl⟩ := limaSchedFreeJob_cases hd
      obtain ⟨fence, hput⟩ := d.fencePut_fence (d.task t).fence
      refine frame hw h ⟨by rw [hput], by rw [hput], by rw [hput], by rw [hput],
        fun u _ _ => ?_, hfl, by rw [hput]; exact fun hold => hold⟩
      by_cases hu : u = t
      · subst hu
        simp
      · simp [hu]
  | gpIrq st active =>
      obtain ⟨⟨hrun, hmask⟩, hd⟩ := guarded_eq_some hs
      exact h.gpIrq hw hrun hmask hd
  | ppIrq error last =>
      obtain ⟨⟨hrun, hirq⟩, hd⟩ := guarded_eq_some hs
      exact h.ppIrq hw hrun hirq hd
  | mmuIrq p =>
      obtain ⟨-, hd⟩ := guarded_eq_some hs
      exact h.mmuIrq hw hok hd
  | recoverBegin p =>
      obtain ⟨w, hq, hs⟩ := Option.bind_eq_some_iff.mp hs
      obtain ⟨-, hd⟩ := guarded_eq_some hs
      cases p with
      | gp => exact h.recoverBegin hq hd
      | pp => cases (recoverBegin_cases hd).1
  | recoverEnd p env fuel =>
      obtain ⟨r, hr, hs⟩ := Option.bind_eq_some_iff.mp hs
      obtain ⟨-, hd⟩ := guarded_eq_some hs
      exact h.recoverEnd hr hd
  | timedoutBegin p t =>
      obtain ⟨-, hd⟩ := guarded_eq_some hs
      obtain rfl := Outcome.ok.inj hd
      exact h.stage hw rfl rfl (timedoutBegin_quiet d p t) (fun _ => ⟨rfl, rfl⟩)
        fun _ _ => .inl rfl
  | timedoutReset p resetOk faulted =>
      obtain ⟨⟨t, pc⟩, ht, hs⟩ := Option.bind_eq_some_iff.mp hs
      obtain ⟨rfl, hd⟩ := guarded_eq_some hs
      obtain rfl := Outcome.ok.inj hd
      refine h.stage hw rfl rfl (timedoutReset_quiet resetOk faulted ht) (fun x => ?_)
        fun x hp => ?_
      · exact pipeTaskError_recover resetOk p x
      · subst hp
        simp only [pipeTaskError, limaGpHardReset]
        split
        · exact .inr (.inr rfl)
        · exact .inr (.inl rfl)
  | timedoutClear p =>
      obtain ⟨⟨t, pc⟩, ht, hs⟩ := Option.bind_eq_some_iff.mp hs
      obtain ⟨-, hd⟩ := guarded_eq_some hs
      exact h.clear hw hok hd
  | timedoutResubmit p u cancel env =>
      obtain ⟨⟨t, pc⟩, ht, hs⟩ := Option.bind_eq_some_iff.mp hs
      obtain ⟨⟨rfl, hu⟩, hd⟩ := guarded_eq_some hs
      exact h.resubmit hw ht hu hd
  | timedoutEnd p =>
      obtain ⟨x, -, hs⟩ := Option.bind_eq_some_iff.mp hs
      obtain ⟨-, hd⟩ := guarded_eq_some hs
      obtain rfl := Outcome.ok.inj hd
      exact h.stage hw rfl rfl (timedoutEnd_quiet d p) (fun _ => ⟨rfl, rfl⟩)
        fun _ _ => .inl rfl
  | finiCheck p =>
      obtain ⟨-, hd⟩ := guarded_eq_some hs
      have hq := finiCheck_quiet hd
      obtain ⟨task, -, rfl⟩ := finiCheck_cases hd
      exact h.stage hw rfl rfl hq (fun _ => ⟨rfl, rfl⟩) fun _ _ => .inl rfl
  | finiRelease p resetOk =>
      simp only [schedStep] at hs
      split at hs
      · rename_i task htask
        obtain ⟨-, hd⟩ := guarded_eq_some hs
        exact h.finiRelease hw hok htask hd
      · cases hs
  | finiStop p =>
      obtain ⟨⟨hrel, -⟩, hd⟩ := guarded_eq_some hs
      obtain rfl := Outcome.ok.inj hd
      exact h.stage hw rfl rfl (finiStop_quiet hrel) (fun _ => ⟨rfl, rfl⟩) fun _ _ => .inl rfl
  | _ => cases hs

theorem of_via {cfg : DevConfig} (h : (devLts cfg).Via RecoverySafe d) : RecoverWf d := by
  refine h.invariant (fun d hd => ?_) fun d e d' hd hi hok hstep =>
    hi.step (SchedWf.of_reachable hd.reachable) hok hstep
  obtain ⟨s, rfl, -⟩ := hd
  exact of_none ⟨rfl, rfl⟩ rfl

end RecoverWf

/-! ## Main result -/

/-! ## A job with a heap -/

/-- A heap of 16 pages, the first 8 of which are there. -/
def heapBo : Bo where
  size := 0x10000
  isHeap := true
  heapSize := 0x8000
  filp := true
  pageDma := fun i => 0x40000000 + 4096 * i
  sgt := some ((List.range 8).map fun i => 0x40000000 + 4096 * i)
  pages := some fun i => i < 8
  wires := fun i => if i < 8 then 1 else 0
  pagesUseCount := 1
  va := []

theorem heapBo_init (cfg : DevConfig) : (devLts cfg).init (.boot (.fresh heapBo)) :=
  ⟨_, rfl, fun _ => rfl, nofun⟩

/-- A GP frame whose heap is at 64 KiB, where `openOne` maps object 0. -/
def heapFrame : Frame := { gpFrame with
  plbuAllocStart := 0x10000
  plbuAllocEnd := 0x20000 }

/-- The GP reports an exhausted heap. -/
def gpOutOfMem : DevEvent := .gpIrq ⟨false, false, true, false⟩ true

/-- A job with a heap is submitted, run, and exhausts it. -/
def exhaustOne : List DevEvent :=
  openOne ++ submitOne 0 .gp heapFrame ++ [.runJob 0 allOk, gpOutOfMem]

end Lima
