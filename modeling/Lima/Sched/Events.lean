import Lima.Sched.Effects

/-!
# What an interrupt, a timeout and a teardown have done

An interrupt completes the pipe's task or is quiet; so are the steps of the
recovery, and the stages of a timeout and of a teardown that only reset hardware
or detach jobs. What is left retires a job: the lemmas say how.
-/

namespace Lima

/-! ## Completion -/

/-- The GP's part of the pipe after an interrupt with an error bit. -/
def Pipe.masked (x : Pipe) : Pipe :=
  { x with
    intMask := false
    error := true }

/-- The GP's part of the pipe after its last interrupt for a task. -/
def Pipe.ended (x : Pipe) : Pipe :=
  limaGpSoftResetAsync { x with
    running := 0
    error := false }

/-- The PP's part of the pipe after the interrupt of a core. -/
def Pipe.counted (x : Pipe) (error last : Bool) : Pipe :=
  { x with
    running := if last then x.running - 1 else x.running
    error := x.error || error
    task := x.task - 1 }

theorem limaGpSoftResetAsync_quiet (x : Pipe) : x.Quiet (limaGpSoftResetAsync x) := by
  unfold limaGpSoftResetAsync
  split
  · exact .refl x
  · exact .same rfl rfl rfl rfl rfl le_rfl

@[simp] theorem limaGpSoftResetAsync_timedout (x : Pipe) :
    (limaGpSoftResetAsync x).timedout = x.timedout := by
  unfold limaGpSoftResetAsync
  split <;> rfl

@[simp] theorem limaGpSoftResetAsync_running (x : Pipe) :
    (limaGpSoftResetAsync x).running = x.running := by
  unfold limaGpSoftResetAsync
  split <;> rfl

namespace Dev

variable {d d' : Dev}

/-- The success branch of `lima_sched_pipe_task_done` for task `t`. -/
def complete (d : Dev) (t : TaskId) : Dev :=
  ((d.modTask t fun task => { task with hwDone := true }).fenceSignal
    (d.task t).fence).addPm (-1)

theorem clearRecoverable_cases {t : Option TaskId} (h : d.clearRecoverable t = .ok d') :
    t = none ∧ d' = d ∨ ∃ u, t = some u ∧
      d' = d.modTask u fun task => { task with recoverable := false } := by
  cases t with
  | none => exact .inl ⟨rfl, (Outcome.ok.inj h).symm⟩
  | some u =>
      obtain ⟨x, -, hd⟩ := Outcome.bind_eq_ok h
      exact .inr ⟨u, rfl, (Outcome.ok.inj hd).symm⟩

/-- A completed `lima_sched_pipe_task_done` has left everything alone, queued the
recovery work, or completed the current task. -/
theorem limaSchedPipeTaskDone_cases {oom : Bool} {p : PipeId}
    (h : d.limaSchedPipeTaskDone oom p = .ok d') :
    ((d.pipe p).error = true ∧ d' = d) ∨
    ((d.pipe p).error = true ∧ ∃ t, (d.pipe p).currentTask = some t ∧
      (d.task t).recoverable = true ∧ d' = d.scheduleRecover p ⟨t, oom⟩) ∨
    (d.pipe p).error = false ∧ ∃ t, (d.pipe p).currentTask = some t ∧
      (d.task t).state ≠ .freed ∧ d' = (d.modPipe p (pipeTaskFini p)).complete t := by
  unfold limaSchedPipeTaskDone at h
  split at h
  · rename_i herr
    split at h
    · exact .inl ⟨herr, (Outcome.ok.inj h).symm⟩
    · rename_i t ht
      obtain ⟨x, hx, hd⟩ := Outcome.bind_eq_ok h
      obtain ⟨-, rfl⟩ := readTask_cases hx
      by_cases hrec : (d.task t).recoverable = true
      · rw [if_pos hrec] at hd
        exact .inr (.inl ⟨herr, t, ht, hrec, (Outcome.ok.inj hd).symm⟩)
      · rw [if_neg hrec] at hd
        exact .inl ⟨herr, (Outcome.ok.inj hd).symm⟩
  · rename_i herr
    split at h
    · cases h
    · rename_i t ht
      obtain ⟨x, hx, hd⟩ := Outcome.bind_eq_ok h
      obtain ⟨hlive, rfl⟩ := readTask_cases hx
      exact .inr (.inr ⟨by simpa using herr, t, ht, hlive, (Outcome.ok.inj hd).symm⟩)

/-- **GP interrupts.** -/
theorem gpIrq_cases {st : GpIntStat} {active : Bool}
    (h : (gpReport d st active).limaGpIrqHandler st active = .ok d') :
    d' = d ∨
    (st.error = true ∧ ∃ d₁, (d₁ = d ∨ ∃ t, (d.pipe .gp).currentTask = some t ∧
      d₁ = d.modTask t fun task => { task with recoverable := false }) ∧
      d' = d₁.modPipe .gp Pipe.masked) ∨
    (st.error = true ∧ ∃ t, (d.pipe .gp).currentTask = some t ∧
      (d.task t).recoverable = true ∧
      d' = (d.modPipe .gp Pipe.masked).scheduleRecover .gp ⟨t, true⟩) ∨
    (st.error = false ∧ d' = d.modPipe .gp fun x => { x with error := false }) ∨
    st.error = false ∧ st.done active = true ∧ ∃ t, (d.pipe .gp).currentTask = some t ∧
      (d.task t).state ≠ .freed ∧ d' = (d.modPipe .gp Pipe.ended).complete t := by
  unfold limaGpIrqHandler at h
  by_cases hzero : st.nonzero = false
  · have hreport : gpReport d st active = d := by
      have hdone : st.done active = false := by
        simp only [GpIntStat.nonzero, Bool.or_eq_false_iff] at hzero
        simp [GpIntStat.done, hzero]
      simp [gpReport, hdone]
    rw [hreport, hzero] at h
    exact .inl (Outcome.ok.inj h).symm
  rw [Bool.not_eq_false] at hzero
  cases herr : st.error with
  | true =>
      have hreport : gpReport d st active = d := by simp [gpReport, herr]
      simp only [hzero, herr, hreport, Bool.not_true, Bool.false_eq_true, if_false,
        if_true] at h
      obtain ⟨d₁, hclear, hd⟩ := Outcome.bind_eq_ok h
      have hmask : ((d₁.modPipe .gp fun x => { x with
          intMask := false
          error := true }).pipe .gp).error = true := by simp
      by_cases hoom : st.outOfMemOnly = true
      · rw [if_pos hoom] at hclear
        obtain rfl := Outcome.ok.inj hclear
        rw [hoom] at hd
        obtain ⟨-, rfl⟩ | ⟨-, t, ht, hrec, rfl⟩ | ⟨hno, -⟩ := limaSchedPipeTaskDone_cases hd
        · exact .inr (.inl ⟨rfl, d, .inl rfl, rfl⟩)
        · exact .inr (.inr (.inl ⟨rfl, t, by simpa using ht, hrec, rfl⟩))
        · rw [hmask] at hno
          cases hno
      · rw [if_neg hoom] at hclear
        obtain ⟨hnone, rfl⟩ | ⟨u, hu, rfl⟩ := clearRecoverable_cases hclear
        · obtain ⟨-, rfl⟩ | ⟨-, t, ht, hrec, rfl⟩ | ⟨hno, -⟩ :=
            limaSchedPipeTaskDone_cases hd
          · exact .inr (.inl ⟨rfl, d₁, .inl rfl, rfl⟩)
          · rw [modPipe_pipe_self, hnone] at ht
            cases ht
          · rw [hmask] at hno
            cases hno
        · obtain ⟨-, rfl⟩ | ⟨-, t, ht, hrec, rfl⟩ | ⟨hno, -⟩ :=
            limaSchedPipeTaskDone_cases hd
          · exact .inr (.inl ⟨rfl, _, .inr ⟨u, hu, rfl⟩, rfl⟩)
          · -- the task just made unrecoverable is the current one
            rw [modPipe_pipe_self] at ht
            obtain rfl : t = u := Option.some.inj (ht.symm.trans hu)
            simp at hrec
          · rw [hmask] at hno
            cases hno
  | false =>
      simp only [hzero, herr, Bool.not_true, Bool.false_eq_true, if_false] at h
      cases hdone : st.done active with
      | true =>
          have hreport : gpReport d st active =
              d.modPipe .gp fun x => { x with running := 0 } := by simp [gpReport, herr, hdone]
          rw [hdone, hreport, if_pos rfl] at h
          obtain ⟨hyes, -⟩ | ⟨hyes, -⟩ | ⟨-, t, ht, hlive, rfl⟩ :=
            limaSchedPipeTaskDone_cases h
          · simp at hyes
          · simp at hyes
          · refine .inr (.inr (.inr (.inr ⟨rfl, rfl, t, by simpa using ht, hlive, ?_⟩)))
            have hpipe : ((d.modPipe .gp fun x => { x with running := 0 }).modPipe .gp
                fun x => { x with error := false }).modPipe .gp (pipeTaskFini .gp) =
                d.modPipe .gp Pipe.ended := by
              simp [modPipe, Pipe.ended, pipeTaskFini]
            rw [hpipe]
      | false =>
          have hreport : gpReport d st active = d := by simp [gpReport, herr, hdone]
          rw [hdone, hreport] at h
          exact .inr (.inr (.inr (.inl ⟨rfl, (Outcome.ok.inj h).symm⟩)))

/-- **PP interrupts.** -/
theorem ppIrq_cases {error last : Bool}
    (h : (ppReport d last).limaPpIrqHandler error = .ok d') :
    d' = d.modPipe .pp (fun x => x.counted error last) ∨
    (∃ t, d' = (d.modPipe .pp fun x => x.counted error last).scheduleRecover .pp
      ⟨t, false⟩) ∨
    (((d.pipe .pp).counted error last).task = 0 ∧
      ((d.pipe .pp).counted error last).error = false ∧
      ∃ t, (d.pipe .pp).currentTask = some t ∧ (d.task t).state ≠ .freed ∧
        d' = (d.modPipe .pp fun x => x.counted error last).complete t) := by
  have hpre : (((ppReport d last).modPipe .pp fun x =>
      { x with error := x.error || error }).modPipe .pp fun x =>
        { x with task := x.task - 1 }) = d.modPipe .pp fun x => x.counted error last := by
    unfold ppReport
    split <;> simp [modPipe, Pipe.counted, *]
  unfold limaPpIrqHandler decAndTestDone at h
  simp only [hpre] at h
  split at h
  · rename_i hzero
    obtain ⟨-, rfl⟩ | ⟨-, t, -, -, rfl⟩ | ⟨herr, t, ht, hlive, rfl⟩ :=
      limaSchedPipeTaskDone_cases h
    · exact .inl rfl
    · exact .inr (.inl ⟨t, rfl⟩)
    · rw [modPipe_pipe_self] at hzero herr ht
      refine .inr (.inr ⟨hzero, herr, t, ht, hlive, ?_⟩)
      have hfini : ∀ d : Dev, d.modPipe .pp (pipeTaskFini .pp) = d := by
        intro d
        simp [modPipe, pipeTaskFini]
      rw [hfini]
  · exact .inl (Outcome.ok.inj h).symm

/-- **MMU interrupts.** -/
theorem mmuIrq_cases {p : PipeId} (h : d.limaSchedPipeMmuError p = .ok d') :
    ∃ g : Pipe → Pipe, (∀ x, g x = { x with
        error := true
        task := (g x).task }) ∧
      (d' = d.modPipe p g ∨ ∃ t, (d.pipe p).currentTask = some t ∧
        (d.task t).recoverable = true ∧
        d' = (d.modPipe p g).scheduleRecover p ⟨t, false⟩) := by
  unfold limaSchedPipeMmuError at h
  cases p with
  | gp =>
      refine ⟨fun x => { x with error := true }, fun _ => rfl, ?_⟩
      obtain ⟨-, rfl⟩ | ⟨-, t, ht, hrec, rfl⟩ | ⟨hno, -⟩ := limaSchedPipeTaskDone_cases h
      · exact .inl rfl
      · exact .inr ⟨t, by simpa using ht, hrec, rfl⟩
      · simp at hno
  | pp =>
      have hpre : ((d.modPipe .pp fun x => { x with error := true }).modPipe .pp
          fun x => { x with task := x.task - 1 }) = d.modPipe .pp fun x =>
            { x with
              error := true
              task := x.task - 1 } := by simp [modPipe]
      refine ⟨fun x => { x with
        error := true
        task := x.task - 1 }, fun _ => rfl, ?_⟩
      simp only [decAndTestDone, hpre] at h
      split at h
      · obtain ⟨-, rfl⟩ | ⟨-, t, ht, hrec, rfl⟩ | ⟨hno, -⟩ := limaSchedPipeTaskDone_cases h
        · exact .inl rfl
        · exact .inr ⟨t, by simpa using ht, hrec, rfl⟩
        · simp at hno
      · exact .inl (Outcome.ok.inj h).symm

/-! ## Quiet steps -/

/-- `schedule_work` of work that is queued already does nothing. -/
theorem scheduleRecover_queued {p : PipeId} {w : RecoverWork}
    (h : (d.pipe p).recoverQueued = some w) (w' : RecoverWork) :
    d.scheduleRecover p w' = d := by
  have hsame : { d.pipe p with
      recoverQueued := (d.pipe p).recoverQueued.or (some w') } = d.pipe p := by
    rw [h, Option.some_or, ← h]
  rw [Dev.scheduleRecover, modPipe, hsame, Function.update_eq_self]

theorem Quiet.scheduleRecover (d : Dev) (p : PipeId) (w : RecoverWork) :
    d.Quiet (d.scheduleRecover p w) :=
  .modPipe (.same rfl rfl rfl rfl rfl le_rfl)
    (fun _ he => ⟨he, fun hle => hle⟩) .inl

/-- A change of the GP pipe, whose unit count is not kept. -/
theorem Quiet.modGp {g : Pipe → Pipe} (h : (d.pipe .gp).Quiet (g (d.pipe .gp)))
    (hheld : (g (d.pipe .gp)).Held → (d.pipe .gp).Held) :
    d.Quiet (d.modPipe .gp g) :=
  .modPipe h nofun fun hh => .inl (hheld hh)

theorem Pipe.masked_quiet (x : Pipe) : x.Quiet x.masked :=
  .same rfl rfl rfl rfl rfl le_rfl

theorem Pipe.ended_quiet (x : Pipe) : x.Quiet x.ended := by
  have h := limaGpSoftResetAsync_quiet { x with
    running := 0
    error := false }
  refine ⟨h.currentTask, h.currentVm, h.mmuDte, ?_, h.cleared, h.done, h.checked⟩
  rw [Pipe.ended, limaGpSoftResetAsync_running]
  exact Nat.zero_le _

theorem Pipe.ended_held {x : Pipe} (h : x.ended.Held) : x.Held := by
  unfold Pipe.Held at *
  simpa [Pipe.ended] using h

/-- The interrupt of pipe `p` has completed its current task, `d₁` being the device
before `lima_sched_pipe_task_done` did so. -/
structure Completes (p : PipeId) (t : TaskId) (d d₁ d' : Dev) : Prop where
  quiet : d.Quiet d₁
  current : (d.pipe p).currentTask = some t
  live : (d.task t).state ≠ .freed
  running : 0 < (d.pipe p).running
  gpEnded : p = .gp → (d₁.pipe .gp).running = 0
  ppEnded : p = .pp → (d₁.pipe .pp).task = 0 ∧ (d₁.pipe .pp).error = false
  eq : d' = d₁.complete t

theorem gpIrq_quiet {st : GpIntStat} {active : Bool} (hrun : 0 < (d.pipe .gp).running)
    (h : (gpReport d st active).limaGpIrqHandler st active = .ok d') :
    d.Quiet d' ∨ (st.error = false ∧ st.done active = true) ∧
      ∃ t, Completes .gp t d (d.modPipe .gp Pipe.ended) d' := by
  obtain rfl | ⟨-, d₁, hd₁, rfl⟩ | ⟨-, t, -, -, rfl⟩ | ⟨-, rfl⟩ |
    ⟨herr, hdone, t, ht, hlive, rfl⟩ := gpIrq_cases h
  · exact .inl (.refl _)
  · have hmask : d₁.Quiet (d₁.modPipe .gp Pipe.masked) :=
      .modGp (Pipe.masked_quiet _) fun hh => hh
    obtain rfl | ⟨t, -, rfl⟩ := hd₁
    · exact .inl hmask
    · have hclear : d.Quiet (d.modTask t fun task => { task with recoverable := false }) :=
        .modTask rfl
      exact .inl (hclear.trans hmask)
  · exact .inl (Quiet.trans (.modGp (Pipe.masked_quiet _) fun hh => hh) (.scheduleRecover ..))
  · exact .inl (.modGp (.same rfl rfl rfl rfl rfl le_rfl)
      fun hh => hh)
  · refine .inr ⟨⟨herr, hdone⟩, t, ?_, ht, hlive, hrun, fun _ => ?_, nofun, rfl⟩
    · exact .modGp (Pipe.ended_quiet _) Pipe.ended_held
    · simp [Pipe.ended]

theorem counted_quiet {error last : Bool} (hrun : 0 < (d.pipe .pp).running)
    (hirq : error = true ∨ last = true) :
    d.Quiet (d.modPipe .pp fun x => x.counted error last) := by
  refine .modPipe (.same rfl rfl rfl rfl rfl ?_) (fun _ he => ?_) .inl
  · simp only [Pipe.counted]
    split <;> omega
  · obtain ⟨he, herr⟩ : (d.pipe .pp).error = false ∧ error = false := by
      simpa [Pipe.counted] using he
    have hlast : last = true := by simpa [herr] using hirq
    refine ⟨he, fun hle => ?_⟩
    simp only [Pipe.counted, hlast, if_true]
    omega

theorem ppIrq_quiet {error last : Bool} (hrun : 0 < (d.pipe .pp).running)
    (hirq : error = true ∨ last = true)
    (h : (ppReport d last).limaPpIrqHandler error = .ok d') :
    d.Quiet d' ∨ ∃ t, Completes .pp t d
      (d.modPipe .pp fun x => x.counted error last) d' := by
  obtain rfl | ⟨t, rfl⟩ | ⟨hzero, herr, t, ht, hlive, rfl⟩ := ppIrq_cases h
  · exact .inl (counted_quiet hrun hirq)
  · exact .inl ((counted_quiet hrun hirq).trans (.scheduleRecover ..))
  · refine .inr ⟨t, counted_quiet hrun hirq, ht, hlive, hrun, nofun, fun _ => ?_, rfl⟩
    rw [modPipe_pipe_self]
    exact ⟨hzero, herr⟩

theorem mmuIrq_quiet {p : PipeId} (h : d.limaSchedPipeMmuError p = .ok d') :
    d.Quiet d' := by
  obtain ⟨g, hg, hd⟩ := mmuIrq_cases h
  have hpre : d.Quiet (d.modPipe p g) := by
    refine .modPipe ?_ (fun _ he => ?_) fun hh => .inl ?_
    · rw [hg]
      exact .same rfl rfl rfl rfl rfl le_rfl
    · rw [hg] at he
      cases he
    · rw [hg] at hh
      exact hh
  obtain rfl | ⟨t, -, -, rfl⟩ := hd
  · exact hpre
  · exact hpre.trans (.scheduleRecover ..)

theorem recoverBegin_cases {p : PipeId} {w : RecoverWork}
    (h : d.recoverBegin p w = .ok d') :
    p = .gp ∧ ∃ t, (d.pipe .gp).currentTask = some t ∧
      d' = d.modPipe .gp fun x => { x with
        recoverQueued := none
        recoverRunning := some (w, t) } := by
  obtain ⟨t, hread, hd⟩ := Outcome.bind_eq_ok h
  obtain rfl := Outcome.ok.inj hd
  cases p with
  | pp => cases hread
  | gp =>
      simp only [recoverRead, modPipe_pipe_self] at hread
      split at hread
      · cases hread
      · rename_i u hu
        obtain ⟨x, -, hx⟩ := Outcome.bind_eq_ok hread
        obtain rfl := Outcome.ok.inj hx
        exact ⟨rfl, u, hu, by simp [modPipe]⟩

theorem recoverBegin_quiet {p : PipeId} {w : RecoverWork}
    (h : d.recoverBegin p w = .ok d') : d.Quiet d' := by
  obtain ⟨-, t, -, rfl⟩ := recoverBegin_cases h
  exact .modGp (.same rfl rfl rfl rfl rfl le_rfl) fun hh => hh

/-- The second half of the recovery leaves the bookkeeping of the GP pipe alone. -/
theorem recoverResume_quiet {initNrPages : ℕ} {env : HeapEnv} {fuel : ℕ} {t : TaskId}
    {r : Option Errno} (h : d.recoverResume initNrPages env fuel t = .ok (d', r)) :
    d.Quiet d' := by
  obtain ⟨x, hx, h⟩ := Outcome.bind_eq_ok h
  obtain ⟨-, rfl⟩ := readTask_cases hx
  split at h
  · cases h
  · rename_i b hb
    obtain ⟨⟨s, r'⟩, hgrow, h⟩ := Outcome.bind_eq_ok h
    have hs : d.sys.SameCounts s := by
      split at hgrow
      · exact limaHeapAlloc_counts hgrow
      · obtain ⟨rfl, -⟩ := Prod.mk.inj (Outcome.ok.inj hgrow)
        exact .refl _
    cases r' with
    | some e =>
        obtain ⟨rfl, -⟩ := Prod.mk.inj (Outcome.ok.inj h)
        exact .setSys hs
    | none =>
        obtain ⟨rfl, -⟩ := Prod.mk.inj (Outcome.ok.inj h)
        have hframe : ∀ stop, (d.setSys s).Quiet ((d.setSys s).modTask t fun x =>
            { x with frame := { x.frame with plbuAllocEnd := stop } }) :=
          fun stop => .modTask rfl
        refine (Quiet.setSys hs).trans ((hframe _).trans (.modGp ?_ fun hh => hh))
        exact .same rfl rfl rfl rfl rfl le_rfl

theorem recoverEnd_quiet {initNrPages : ℕ} {env : HeapEnv} {fuel : ℕ} {p : PipeId}
    {t : TaskId} (h : d.recoverEnd initNrPages env fuel p t = .ok d') : d.Quiet d' := by
  obtain ⟨⟨d₁, r⟩, hres, hd⟩ := Outcome.bind_eq_ok h
  obtain rfl := Outcome.ok.inj hd
  refine (recoverResume_quiet hres).trans (.modPipe ?_ (fun _ he => ⟨he, fun hle => hle⟩) .inl)
  exact .same rfl rfl rfl rfl rfl le_rfl

theorem timedoutBegin_quiet (d : Dev) (p : PipeId) (t : TaskId) :
    d.Quiet (d.timedoutBegin p t) := by
  refine (Quiet.drmSchedStop p).trans (.modPipe ⟨rfl, rfl, fun _ => .inr rfl, le_rfl,
    fun _ h => ?_, fun h => h, fun _ h => .inl h⟩ (fun _ he => ⟨he, fun hle => hle⟩) fun _ => .inr ?_)
  · cases h
  · exact fun f u hcb => @drmSchedStop_cb d p f u hcb

theorem pipeTaskError_quiet (resetOk : Bool) (p : PipeId) (x : Pipe) :
    x.Quiet (pipeTaskError resetOk p x) ∧ (pipeTaskError resetOk p x).timedout = x.timedout := by
  cases p with
  | gp =>
      simp only [pipeTaskError, limaGpHardReset]
      split
      · exact ⟨.same rfl rfl rfl rfl rfl (Nat.zero_le _), rfl⟩
      · exact ⟨.same rfl rfl rfl rfl rfl le_rfl, rfl⟩
  | pp =>
      exact ⟨.same rfl rfl rfl rfl rfl (Nat.zero_le _), rfl⟩

theorem pipeTaskError_recover (resetOk : Bool) (p : PipeId) (x : Pipe) :
    (pipeTaskError resetOk p x).recoverQueued = x.recoverQueued ∧
      (pipeTaskError resetOk p x).recoverRunning = x.recoverRunning := by
  cases p with
  | gp =>
      simp only [pipeTaskError, limaGpHardReset]
      split <;> exact ⟨rfl, rfl⟩
  | pp => exact ⟨rfl, rfl⟩

theorem timedoutReset_quiet {p : PipeId} {t : TaskId} (resetOk : Bool)
    (faulted : ℕ → Bool) (h : (d.pipe p).timedout = some (t, .stopped)) :
    d.Quiet (d.timedoutReset p t resetOk faulted) := by
  have hreset := (pipeTaskError_quiet resetOk p (d.pipe p)).1
  refine .modPipe ⟨hreset.currentTask, hreset.currentVm, fun i => ?_, hreset.running,
    fun _ hc => ?_, hreset.done, hreset.checked⟩ (fun hp => ?_) fun _ => .inl ⟨t, .stopped, h, by simp⟩
  · by_cases hf : faulted i = true
    · exact .inl (if_pos hf)
    · exact .inr (if_neg hf)
  · cases hc
  · subst hp
    intro he
    refine ⟨he, fun hle => ?_⟩
    simp only [pipeTaskError, limaPpHardReset]
    omega

theorem timedoutEnd_quiet (d : Dev) (p : PipeId) : d.Quiet (d.timedoutEnd p) := by
  refine .modPipe ⟨rfl, rfl, fun _ => .inr rfl, le_rfl, fun _ h => ?_, fun h => h, fun _ h => .inl h⟩
    (fun _ he => ⟨he, fun hle => hle⟩) fun hh => ?_
  · cases h
  · obtain ⟨t, pc, ht, -⟩ := hh
    cases ht

theorem finiCheck_cases {fakeWedge : Bool} {p : PipeId}
    (h : d.finiCheck fakeWedge p = .ok d') :
    ∃ task, (task = none ∨ task = (d.pipe p).currentTask) ∧
      d' = d.modPipe p fun x => { x with fini := .checked task } := by
  obtain ⟨b, -, hd⟩ := Outcome.bind_eq_ok h
  refine ⟨if b then (d.pipe p).currentTask else none, ?_, (Outcome.ok.inj hd).symm⟩
  cases b
  · exact .inl rfl
  · exact .inr rfl

theorem finiCheck_quiet {fakeWedge : Bool} {p : PipeId}
    (h : d.finiCheck fakeWedge p = .ok d') : d.Quiet d' := by
  obtain ⟨task, htask, rfl⟩ := finiCheck_cases h
  refine .modPipe ⟨rfl, rfl, fun _ => .inr rfl, le_rfl, fun _ h => h, fun hd => ?_,
    fun t ht => ?_⟩ (fun _ he => ⟨he, fun hle => hle⟩) .inl
  · rcases hd with hd | hd <;> cases hd
  · obtain rfl : task = some t := FiniPc.checked.inj ht
    rcases htask with hnone | hcur
    · cases hnone
    · exact .inr hcur.symm

theorem finiStop_quiet {p : PipeId} (h : (d.pipe p).fini = .released) :
    d.Quiet (d.finiStop p) :=
  (Quiet.drmSchedStop p).trans (.modPipe ⟨rfl, rfl, fun _ => .inr rfl, le_rfl,
    fun _ h => h, fun _ => .inl h, nofun⟩ (fun _ he => ⟨he, fun hle => hle⟩) .inl)

/-! ## Signalling a fence -/

/-- A `dma_fence_signal` of an unsignalled fence finishes the job attached to it. -/
theorem fenceSignal_cases (d : Dev) (fo : Option FenceId) :
    d.fenceSignal fo = d ∨ ∃ f task, fo = some f ∧ (d.fence f).signaled = false ∧
      d.fenceSignal fo = { d with
        fence := Function.update d.fence f { d.fence f with
          signaled := true
          cb := none }
        task := task } ∧
      ((d.fence f).cb = none ∧ task = d.task ∨ ∃ t, (d.fence f).cb = some t ∧
        task = Function.update d.task t { d.task t with
          finished := true
          finishedError := (d.fence f).error.or (d.task t).finishedError }) := by
  cases fo with
  | none => exact .inl rfl
  | some f =>
      by_cases hs : (d.fence f).signaled = true
      · exact .inl (by simp [fenceSignal, hs])
      · right
        rw [Bool.not_eq_true] at hs
        cases hcb : (d.fence f).cb with
        | none => exact ⟨f, _, rfl, hs, by simp [fenceSignal, hs, hcb, modFence], .inl ⟨hcb, rfl⟩⟩
        | some t =>
            refine ⟨f, _, rfl, hs, ?_, .inr ⟨t, hcb, rfl⟩⟩
            simp [fenceSignal, hs, hcb, modFence, jobDone, modTask]

/-- Signalling a fence changes no task but in its finished fence. -/
theorem fenceSignal_task (d : Dev) (fo : Option FenceId) (t : TaskId) :
    (d.fenceSignal fo).task t = { d.task t with
      finished := ((d.fenceSignal fo).task t).finished
      finishedError := ((d.fenceSignal fo).task t).finishedError } := by
  obtain h | ⟨f, task, -, -, h, ⟨-, rfl⟩ | ⟨u, -, rfl⟩⟩ := d.fenceSignal_cases fo
  · rw [h]
  · rw [h]
  · rw [h]
    by_cases ht : t = u
    · subst ht
      simp
    · simp [ht]

@[simp] theorem fenceSignal_pipe (d : Dev) (fo : Option FenceId) :
    (d.fenceSignal fo).pipe = d.pipe := by
  obtain h | ⟨f, task, -, -, h, -⟩ := d.fenceSignal_cases fo <;> rw [h]

@[simp] theorem fenceSignal_pm (d : Dev) (fo : Option FenceId) :
    (d.fenceSignal fo).pm = d.pm := by
  obtain h | ⟨f, task, -, -, h, -⟩ := d.fenceSignal_cases fo <;> rw [h]

theorem fenceSignal_signaled (d : Dev) (fo : Option FenceId) (g : FenceId) :
    ((d.fenceSignal fo).fence g).signaled = ((d.fence g).signaled || fo == some g) := by
  obtain h | ⟨f, task, rfl, hs, h, -⟩ := d.fenceSignal_cases fo
  · rw [h]
    cases fo with
    | none => simp
    | some f =>
        by_cases hs : (d.fence f).signaled = true
        · by_cases hg : f = g
          · subst hg
            simp [hs]
          · simp [hg]
        · -- an unsignalled fence does not stay so
          have := congrArg (fun x : Dev => (x.fence f).signaled) h
          rw [Bool.not_eq_true] at hs
          cases hcb : (d.fence f).cb <;>
            simp [fenceSignal, hs, hcb, modFence, jobDone] at this
  · rw [h]
    by_cases hg : g = f
    · subst hg
      simp
    · simp [hg, Ne.symm hg]

@[simp] theorem fenceSignal_sys (d : Dev) (fo : Option FenceId) :
    (d.fenceSignal fo).sys = d.sys := by
  obtain h | ⟨f, task, -, -, h, -⟩ := d.fenceSignal_cases fo <;> rw [h]

@[simp] theorem fenceSignal_vmReleased (d : Dev) (fo : Option FenceId) :
    (d.fenceSignal fo).vmReleased = d.vmReleased := by
  obtain h | ⟨f, task, -, -, h, -⟩ := d.fenceSignal_cases fo <;> rw [h]

/-- `dma_fence_set_error` changes the errors of fences only. -/
theorem fenceSetError_frame (d : Dev) (e : Errno) (fo : Option FenceId) :
    ∃ fence, d.fenceSetError e fo = { d with fence := fence } ∧
      (∀ f, (fence f).signaled = (d.fence f).signaled) ∧
      (∀ f, (fence f).cb = (d.fence f).cb) ∧
      ∀ f, fo = some f → (fence f).error = some e := by
  cases fo with
  | none => exact ⟨d.fence, rfl, fun _ => rfl, fun _ => rfl, nofun⟩
  | some g =>
      refine ⟨_, rfl, fun f => ?_, fun f => ?_, fun f hf => ?_⟩
      · by_cases hf : f = g
        · subst hf
          simp
        · simp [hf]
      · by_cases hf : f = g
        · subst hf
          simp
        · simp [hf]
      · obtain rfl := Option.some.inj hf
        simp

@[simp] theorem fenceSetError_pipe (d : Dev) (e : Errno) (fo : Option FenceId) :
    (d.fenceSetError e fo).pipe = d.pipe := by
  cases fo <;> rfl

@[simp] theorem fenceSetError_task (d : Dev) (e : Errno) (fo : Option FenceId) :
    (d.fenceSetError e fo).task = d.task := by
  cases fo <;> rfl

/-! ## Retiring a job without an interrupt -/

theorem timedoutClear_cases {p : PipeId} {t : TaskId} (h : d.timedoutClear p t = .ok d') :
    ∃ s, limaVmPut d.sys (d.pipe p).currentVm = .ok s ∧
      d' = { d with
        sys := s
        vmReleased := addRelease s (d.pipe p).currentVm d.vmReleased
        pm := d.pm - 1 }.modPipe p fun x => { x with
          currentVm := none
          currentTask := none
          timedout := some (t, .cleared) } := by
  obtain ⟨d₁, hclear, hd⟩ := Outcome.bind_eq_ok h
  obtain ⟨s, hs, rfl⟩ := clearPipe_cases hclear
  refine ⟨s, hs, ?_⟩
  obtain rfl := Outcome.ok.inj hd
  simp [modPipe, addPm, sub_eq_add_neg]

/-- `dma_fence_signal` does not read what a pipe and the address spaces are. -/
theorem fenceSignal_swap (d : Dev) (fo : Option FenceId) (s : Sys) (pipe : PipeId → Pipe)
    (released : List VmId) :
    { d.fenceSignal fo with
      sys := s
      pipe := pipe
      vmReleased := released } = { d with
      sys := s
      pipe := pipe
      vmReleased := released }.fenceSignal fo := by
  cases fo with
  | none => rfl
  | some f =>
      by_cases hs : (d.fence f).signaled = true
      · simp [fenceSignal, hs]
      · cases hcb : (d.fence f).cb <;> simp [fenceSignal, hs, hcb, modFence, jobDone, modTask]

/-- A failed fence, and a pipe that lets go of its task. -/
theorem clearPipe_failed {p : PipeId} {e : Errno} {fo : Option FenceId} {fini : FiniPc}
    (h : ((d.fenceSetError e fo).fenceSignal fo).clearPipe p = .ok d') :
    ∃ s, limaVmPut d.sys (d.pipe p).currentVm = .ok s ∧
      (d'.modPipe p fun x => { x with fini := fini }) = ({ d with
        sys := s
        pipe := Function.update d.pipe p { d.pipe p with
          currentVm := none
          currentTask := none
          fini := fini }
        vmReleased := addRelease s (d.pipe p).currentVm d.vmReleased }.fenceSetError e
          fo).fenceSignal fo := by
  obtain ⟨fence, hfence, -⟩ := d.fenceSetError_frame e fo
  obtain ⟨s, hs, rfl⟩ := clearPipe_cases h
  rw [fenceSignal_sys, fenceSignal_pipe, hfence] at hs
  refine ⟨s, hs, ?_⟩
  simp only [modPipe, fenceSignal_pipe, fenceSignal_sys, fenceSignal_vmReleased,
    Function.update_self, Function.update_idem, fenceSignal_swap]
  cases fo <;> rfl

/-- The pipe after `lima_sched_pipe_fini` has let go of its task. -/
structure Pipe.LetGo (x x' : Pipe) : Prop where
  currentTask : x'.currentTask = none
  currentVm : x'.currentVm = none
  mmuDte : x'.mmuDte = x.mmuDte
  timedout : x'.timedout = x.timedout
  error : x'.error = false → x.error = false ∧ x'.running = x.running ∧ x'.task = x.task
  recoverQueued : x'.recoverQueued = x.recoverQueued
  recoverRunning : x'.recoverRunning = x.recoverRunning

/-- A completed release has only marked an idle pipe, or let go of its task, which it
has failed with `-ENODEV` in the forced branch. -/
theorem finiRelease_cases {p : PipeId} {resetOk : Bool} {task : Option TaskId}
    (h : d.finiRelease p resetOk task = .ok d') :
    (task = none ∧ (d.pipe p).currentTask = none ∧
      d' = d.modPipe p fun x => { x with fini := .released }) ∨
    ∃ s x, limaVmPut d.sys (d.pipe p).currentVm = .ok s ∧ Pipe.LetGo (d.pipe p) x ∧
      x.fini = .released ∧ ∃ d₁, d₁ = { d with
        sys := s
        vmReleased := addRelease s (d.pipe p).currentVm d.vmReleased
        pipe := Function.update d.pipe p x } ∧
      (task = none ∧ d' = d₁ ∨ ∃ t, task = some t ∧ (d.task t).state ≠ .freed ∧
        d' = (d₁.fenceSetError .enodev (d.task t).fence).fenceSignal (d.task t).fence) := by
  cases task with
  | some t =>
      right
      obtain ⟨x, hx, h⟩ := Outcome.bind_eq_ok h
      obtain ⟨hlive, rfl⟩ := readTask_cases hx
      obtain ⟨d₂, hclear, hd⟩ := Outcome.bind_eq_ok h
      obtain rfl := Outcome.ok.inj hd
      have herror := pipeTaskError_quiet resetOk p (d.pipe p)
      obtain ⟨s, hs, hd⟩ := clearPipe_failed hclear
      rw [modPipe_pipe_self] at hs
      refine ⟨s, { pipeTaskError resetOk p (d.pipe p) with
        error := true
        currentVm := none
        currentTask := none
        fini := .released }, ?_, ⟨rfl, rfl, ?_, herror.2, nofun, ?_, ?_⟩, rfl, _,
        rfl, .inr ⟨t, rfl, hlive, ?_⟩⟩
      · rw [← herror.1.currentVm]
        exact hs
      · cases p
        · simp only [pipeTaskError, limaGpHardReset]
          split <;> rfl
        · rfl
      · exact (pipeTaskError_recover resetOk p _).1
      · exact (pipeTaskError_recover resetOk p _).2
      · rw [hd]
        simp only [modPipe, Function.update_self, Function.update_idem,
          herror.1.currentVm]
  | none =>
      obtain ⟨d₂, hclear, hd⟩ := Outcome.bind_eq_ok h
      obtain rfl := Outcome.ok.inj hd
      split at hclear
      · obtain ⟨s, hs, rfl⟩ := clearPipe_cases hclear
        refine .inr ⟨s, { d.pipe p with
          currentVm := none
          currentTask := none
          fini := .released }, hs, ⟨rfl, rfl, rfl, rfl, fun he => ⟨he, rfl, rfl⟩, rfl, rfl⟩,
          rfl, _, rfl, .inl ⟨rfl, ?_⟩⟩
        simp [modPipe]
      · rename_i hnone
        obtain rfl := Outcome.ok.inj hclear
        exact .inl ⟨rfl, by simpa using hnone, rfl⟩

end Dev

end Lima
