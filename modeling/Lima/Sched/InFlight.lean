import Lima.Sched.TaskPointer

/-!
# Tasks in flight, and the power references

What each step does to the tasks in flight and to the balance of `lima_pm_busy` and
`lima_pm_idle`. Dispatch and completion move both together. The timeout puts a
reference whether or not the task it clears was still in flight; the forced teardown
retires a task and puts none.
-/

namespace Lima

open Dev

/-- The pipes other than `p` are as before. -/
def OthersInFlight (p : PipeId) (d d' : Dev) : Prop :=
  ∀ q, q ≠ p → d'.inFlight q = d.inFlight q

/-- What a step has done to the tasks in flight and to the power references. -/
inductive PmMove : DevEvent → Dev → Dev → Prop
  | same {e : DevEvent} {d d' : Dev} : (∀ p, d'.inFlight p = d.inFlight p) →
      d'.pm = d.pm → PmMove e d d'
  | completed {e : DevEvent} {p : PipeId} {d d' : Dev} : d.inFlight p = true →
      d'.inFlight p = false → OthersInFlight p d d' → d'.pm = d.pm - 1 → PmMove e d d'
  | started {e : DevEvent} {t : TaskId} {env : RunEnv} {p : PipeId} {d d' : Dev} :
      (e = .runJob t env ∧ p = (d.task t).pipe ∨
        ∃ cancel, e = .timedoutResubmit p t cancel env) →
      d.inFlight p = false → d'.inFlight p = true → OthersInFlight p d d' →
      d'.pm = d.pm + 1 → PmMove e d d'
  | cleared {p : PipeId} {d d' : Dev} : d'.inFlight p = false → OthersInFlight p d d' →
      d'.pm = d.pm - 1 → PmMove (.timedoutClear p) d d'
  | released {p : PipeId} {resetOk : Bool} {d d' : Dev} : d'.inFlight p = false →
      OthersInFlight p d d' → d'.pm = d.pm → PmMove (.finiRelease p resetOk) d d'

namespace SchedWf

variable {d d' : Dev} {p : PipeId} {t : TaskId}

/-! ## One effect at a time -/

theorem complete_inFlight (h : SchedWf d) (hc : (d.pipe p).currentTask = some t) :
    (d.complete t).inFlight p = false ∧ OthersInFlight p d (d.complete t) := by
  have hsame : ∀ v, ((d.complete t).task v).fence = (d.task v).fence := by
    intro v
    change (((d.modTask t fun task => { task with hwDone := true }).fenceSignal
      (d.task t).fence).task v).fence = _
    rw [fenceSignal_task, modTask_task]
    split <;> rfl
  have hpipe : (d.complete t).pipe = d.pipe := by simp [Dev.complete, Dev.addPm]
  have hsig : ∀ g, ((d.complete t).fence g).signaled =
      ((d.fence g).signaled || (d.task t).fence == some g) := fun g =>
    fenceSignal_signaled (d.modTask t fun task => { task with hwDone := true }) _ g
  constructor
  · rw [← Bool.not_eq_true, inFlight_iff]
    rintro ⟨u, f, hu, hf, hs⟩
    rw [hpipe] at hu
    obtain rfl := Option.some.inj (hc.symm.trans hu)
    rw [hsame] at hf
    rw [hsig, hf] at hs
    simp at hs
  · intro q hq
    refine inFlight_congr (by rw [hpipe]) (fun u _ => hsame u) fun u f hu hf => ?_
    rw [hsig]
    have hne : (d.task t).fence ≠ some f := by
      intro ht
      obtain rfl := h.fenceInj u t f hf ht
      exact hq ((h.current q u hu).1.symm.trans (h.current p u hc).1)
    simp [hne]

theorem completes_inFlight (h : SchedWf d) {d₁ : Dev} (c : Completes p t d d₁ d') :
    d.inFlight p = true ∧ d'.inFlight p = false ∧ OthersInFlight p d d' ∧
      d'.pm = d.pm - 1 := by
  have h₁ := h.quiet c.quiet
  have hcur := (c.quiet.pipe p).currentTask.trans c.current
  obtain ⟨hp, hq⟩ := h₁.complete_inFlight hcur
  refine ⟨h.busy p c.running (by simp [c.current]), ?_, fun q hne => ?_, ?_⟩
  · rw [c.eq]
    exact hp
  · rw [c.eq, hq q hne]
    exact c.quiet.inFlight q
  · rw [c.eq, ← c.quiet.pm]
    simp [Dev.complete, Dev.addPm, sub_eq_add_neg]

theorem gaveUp_inFlight (h : SchedWf d) {env : RunEnv} (hg : GaveUp env t d d')
    (p : PipeId) : d'.inFlight p = d.inFlight p := by
  have htask : ∀ u, (d'.task u).fence = (d.task u).fence := by
    intro u
    rw [hg.task]
    by_cases hu : u = t
    · subst hu
      simp
    · simp [hu]
  have hpipe : d'.pipe = d.pipe := by rw [hg.rest]
  exact inFlight_congr (by rw [hpipe]) (fun u _ => htask u)
    fun u f _ hf => congrArg Fence.signaled (hg.fence f (h.fenceLt u f hf))

theorem started_inFlight (h : SchedWf d) {env : RunEnv} (hg : Started env t d d') :
    d'.inFlight (d.task t).pipe = true ∧ OthersInFlight (d.task t).pipe d d' := by
  obtain ⟨x, hx, htask⟩ := hg.task
  obtain ⟨v, s, -, -, -, -, hsw⟩ := hg.refs
  constructor
  · refine inFlight_iff.mpr ⟨t, d.numFences, hsw.currentTask, ?_, ?_⟩
    · simp [htask, hx.fence]
    · simp [hg.fence]
  · intro q hq
    refine inFlight_congr (by rw [hg.pipe q hq]) (fun u hu => ?_) fun u f _ hf => ?_
    · have hut : u ≠ t := by
        rintro rfl
        exact hq (h.current q u hu).1.symm
      simp [htask, hut]
    · simp [hg.fence, (h.fenceLt u f hf).ne]

/-- A pipe's stage of a timeout does not matter. -/
theorem leaveTimeout_inFlight (d : Dev) (q : PipeId)
    (next : Option (TaskId × TimedoutPc)) (p : PipeId) :
    (d.leaveTimeout q next).inFlight p = d.inFlight p := by
  refine inFlight_congr ?_ (fun _ _ => rfl) fun _ _ _ _ => rfl
  rw [leaveTimeout, modPipe_pipe]
  split <;> rfl

theorem cancelled_inFlight (u : TaskId) (cancel : Bool) (d : Dev) (p : PipeId) :
    (cancelled u cancel d).inFlight p = d.inFlight p := by
  refine inFlight_congr rfl (fun v _ => ?_) fun _ _ _ _ => rfl
  rw [cancelled, modTask_task]
  split <;> rfl

theorem release_inFlight (h : SchedWf d) {resetOk : Bool} {task : Option TaskId}
    (hc : (d.pipe p).fini = .checked task) (hd : d.finiRelease p resetOk task = .ok d') :
    d'.inFlight p = false ∧ OthersInFlight p d d' ∧ d'.pm = d.pm := by
  obtain ⟨-, hnone, rfl⟩ | ⟨s, x, -, hx, -, d₁, rfl, hd⟩ := finiRelease_cases hd
  · refine ⟨inFlight_of_none ?_, fun q hq => ?_, rfl⟩
    · simpa using hnone
    · exact inFlight_congr (by rw [modPipe_pipe_ne d hq]) (fun _ _ => rfl) fun _ _ _ _ => rfl
  · obtain ⟨-, rfl⟩ | ⟨t, rfl, -, rfl⟩ := hd
    · refine ⟨inFlight_of_none ?_, fun q hq => ?_, rfl⟩
      · simpa using hx.currentTask
      · exact inFlight_congr (by simp [hq]) (fun _ _ => rfl) fun _ _ _ _ => rfl
    · obtain ⟨fence, heq, hs, -⟩ := Dev.fenceSetError_frame { d with
        sys := s
        vmReleased := addRelease s (d.pipe p).currentVm d.vmReleased
        pipe := Function.update d.pipe p x } .enodev (d.task t).fence
      refine ⟨inFlight_of_none ?_, fun q hq => ?_, ?_⟩
      · rw [fenceSignal_pipe, heq]
        simpa using hx.currentTask
      · refine inFlight_congr ?_ (fun u _ => ?_) fun u f hu hf => ?_
        · rw [fenceSignal_pipe, heq]
          simp [hq]
        · rw [fenceSignal_task, heq]
        · rw [fenceSignal_signaled, heq, hs]
          have hne : (d.task t).fence ≠ some f := by
            intro ht
            obtain rfl := h.fenceInj u t f hf ht
            exact hq ((h.current q u hu).1.symm.trans (h.checked p u hc).1)
          simp [hne]
      · rw [fenceSignal_pm, heq]

theorem killJob_inFlight (d : Dev) (t : TaskId) (p : PipeId) :
    (d.killJob t).inFlight p = d.inFlight p := by
  refine inFlight_congr rfl (fun u _ => ?_) fun _ _ _ _ => rfl
  by_cases hu : u = t
  · subst hu
    simp [Dev.killJob, jobDone]
  · simp [Dev.killJob, jobDone, Dev.modTask, hu]

theorem freeJob_inFlight {fuel : ℕ} (h : limaSchedFreeJob fuel d t = .ok d') (p : PipeId) :
    d'.inFlight p = d.inFlight p := by
  obtain ⟨-, s₁, s, gemRef, -, -, rfl⟩ := limaSchedFreeJob_cases h
  obtain ⟨fence, hput⟩ := d.fencePut_fence (d.task t).fence
  refine inFlight_congr ?_ (fun u _ => ?_) fun u f _ _ => ?_
  · rw [hput]
  · by_cases hu : u = t
    · subst hu
      simp
    · simp [hu]
  · exact (d.fencePut_same (d.task t).fence f).1

theorem clear_inFlight {s : TaskId} (hd : d.timedoutClear p s = .ok d') :
    d'.inFlight p = false ∧ OthersInFlight p d d' ∧ d'.pm = d.pm - 1 := by
  obtain ⟨s, -, rfl⟩ := timedoutClear_cases hd
  refine ⟨inFlight_of_none (by simp), fun q hq => ?_, rfl⟩
  exact inFlight_congr (by rw [modPipe_pipe_ne _ hq]) (fun _ _ => rfl) fun _ _ _ _ => rfl

/-! ## All steps -/

/-- **The step lemma of the power references.** -/
theorem pmMove (h : SchedWf d) {cfg : DevConfig} {e : DevEvent}
    (hd : devStep cfg d e = some d') : PmMove e d d' := by
  cases devStep_move h.tasks hd with
  | user m => exact .same (h.user_inFlight m) m.pm
  | quiet q => exact .same q.inFlight q.pm
  | completes _ c =>
      obtain ⟨hp, hp', hq, hpm⟩ := h.completes_inFlight c
      exact .completed hp hp' hq hpm
  | @runJob t env _ _ hr hrun =>
      rcases dispatch_cases hrun with hg | hg
      · refine .same (h.gaveUp_inFlight hg) ?_
        rw [hg.rest]
      · obtain ⟨hp, hq⟩ := h.started_inFlight hg
        exact .started (.inl ⟨rfl, rfl⟩) (h.ready_of_canRun hr).idle hp hq hg.pm
  | @killJob t _ ht => exact .same (killJob_inFlight d t) rfl
  | @freeJob t fuel _ _ hf hfree =>
      refine .same (freeJob_inFlight hfree) ?_
      obtain ⟨-, s₁, s, gemRef, -, -, rfl⟩ := limaSchedFreeJob_cases hfree
      obtain ⟨fence, hput⟩ := d.fencePut_fence (d.task t).fence
      rw [hput]
  | clear ht hclear =>
      obtain ⟨hp, hq, hpm⟩ := clear_inFlight hclear
      exact .cleared hp hq hpm
  | @resubmit p t u cancel env _ _ ht hu hres =>
      obtain ⟨d₁, hcases, rfl⟩ := timedoutResubmit_cases hres
      have h₁ : SchedWf (cancelled u cancel d) := h.modTask (.inl hu.1) fun _ => rfl
      have hu₁ : (cancelled u cancel d).Unfinished p u := by
        simpa [Unfinished, cancelled] using hu
      have hp : ((cancelled u cancel d).task u).pipe = p := hu₁.2.2
      have hfl := cancelled_inFlight u cancel d
      rcases hcases with hg | hg
      · refine .same (fun q => ?_) ?_
        · rw [leaveTimeout_inFlight, h₁.gaveUp_inFlight hg, hfl]
        · change d₁.pm = d.pm
          rw [hg.rest]
          rfl
      · obtain ⟨hflp, hq⟩ := h₁.started_inFlight hg
        rw [hp] at hflp hq
        refine .started (.inr ⟨cancel, rfl⟩) ?_ ?_ (fun q hne => ?_) hg.pm
        · exact inFlight_of_none (h.cleared p t ht)
        · rw [leaveTimeout_inFlight]
          exact hflp
        · rw [leaveTimeout_inFlight, hq q hne, hfl]
  | release hc hrel =>
      obtain ⟨hp, hq, hpm⟩ := h.release_inFlight hc hrel
      exact .released hp hq hpm

end SchedWf

/-! ## The balance -/

/-- The tasks in flight, at most one for each pipe. -/
def Dev.numInFlight (d : Dev) : ℤ := (d.inFlight .gp).toInt + (d.inFlight .pp).toInt

instance (x : Pipe) : Decidable x.Done := inferInstanceAs (Decidable (_ ∨ _))

/-- `lima_pm_idle` is called for a task in flight, and a pipe lets go of none. -/
def RetiresInFlight (d : Dev) : DevEvent → Prop
  | .timedoutClear p => d.inFlight p = true
  | .finiRelease p _ => d.inFlight p = false
  | _ => True

/-- Besides, no job is dispatched on a pipe that has been released. -/
def RetiresOnce (d : Dev) (e : DevEvent) : Prop :=
  RetiresInFlight d e ∧
    match e with
    | .runJob t _ => ¬ (d.pipe (d.task t).pipe).Done
    | .timedoutResubmit p _ _ _ => ¬ (d.pipe p).Done
    | _ => True

instance (d : Dev) : (e : DevEvent) → Decidable (RetiresOnce d e)
  | .timedoutClear p => inferInstanceAs (Decidable (d.inFlight p = true ∧ True))
  | .finiRelease p _ => inferInstanceAs (Decidable (d.inFlight p = false ∧ True))
  | .runJob t _ => inferInstanceAs (Decidable (True ∧ ¬ (d.pipe (d.task t).pipe).Done))
  | .timedoutResubmit p .. => inferInstanceAs (Decidable (True ∧ ¬ (d.pipe p).Done))
  | .fileOpen .. | .fileClose .. | .handleOpen .. | .handleClose .. | .submitBegin ..
  | .submitAdd .. | .submitLockFail .. | .submitInit .. | .submitDepsFail .. | .submitQueue ..
  | .submitUndo .. | .submitEnd .. | .killJob .. | .freeJob .. | .gpIrq .. | .ppIrq ..
  | .mmuIrq .. | .recoverBegin .. | .recoverEnd .. | .timedoutBegin .. | .timedoutReset ..
  | .timedoutEnd .. | .finiCheck .. | .finiStop .. =>
      inferInstanceAs (Decidable (True ∧ True))

section Balance

variable {d d' : Dev} {p : PipeId}

theorem Dev.numInFlight_congr (h : ∀ p, d'.inFlight p = d.inFlight p) :
    d'.numInFlight = d.numInFlight := by
  simp [numInFlight, h]

/-- Where one pipe changes, the number changes with it. -/
theorem OthersInFlight.num (h : OthersInFlight p d d') :
    d'.numInFlight - (d'.inFlight p).toInt = d.numInFlight - (d.inFlight p).toInt := by
  unfold numInFlight
  cases p with
  | gp =>
      rw [h .pp (by simp)]
      ring
  | pp =>
      rw [h .gp (by simp)]
      ring

/-- A step keeps the balance when the timeout clears a task in flight and the
teardown none. -/
theorem SchedWf.balanced (h : SchedWf d) (hb : d.pm = d.numInFlight) {cfg : DevConfig}
    {e : DevEvent} (hok : RetiresInFlight d e) (hd : devStep cfg d e = some d') :
    d'.pm = d'.numInFlight := by
  cases h.pmMove hd with
  | same hfl hpm => rw [hpm, hb, numInFlight_congr hfl]
  | completed hp hp' hq hpm =>
      have hnum := hq.num
      simp only [hp, hp', Bool.toInt_true, Bool.toInt_false] at hnum
      omega
  | started he hp hp' hq hpm =>
      have hnum := hq.num
      simp only [hp, hp', Bool.toInt_true, Bool.toInt_false] at hnum
      omega
  | cleared hp hq hpm =>
      have hnum := hq.num
      have hfl : d.inFlight _ = true := hok
      simp only [hp, hfl, Bool.toInt_true, Bool.toInt_false] at hnum
      omega
  | released hp hq hpm =>
      have hnum := hq.num
      have hfl : d.inFlight _ = false := hok
      simp only [hp, hfl, Bool.toInt_false] at hnum
      omega

/-- Any other step loses it. -/
theorem SchedWf.unbalanced (h : SchedWf d) (hb : d.pm = d.numInFlight) {cfg : DevConfig}
    {e : DevEvent} (hno : ¬ RetiresInFlight d e) (hd : devStep cfg d e = some d') :
    d'.pm ≠ d'.numInFlight := by
  rcases devStep_cases hd with hu | hs
  · cases e with
    | timedoutClear p => cases hu
    | finiRelease p resetOk => cases hu
    | _ => exact absurd trivial hno
  cases e with
  | timedoutClear p =>
      obtain ⟨⟨t, pc⟩, -, hs⟩ := Option.bind_eq_some_iff.mp hs
      obtain ⟨-, hd⟩ := guarded_eq_some hs
      obtain ⟨hp, hq, hpm⟩ := clear_inFlight hd
      have hfl : d.inFlight p = false := by simpa [RetiresInFlight] using hno
      have hnum := hq.num
      simp only [hp, hfl, Bool.toInt_false] at hnum
      omega
  | finiRelease p resetOk =>
      simp only [schedStep] at hs
      split at hs
      · rename_i task htask
        obtain ⟨-, hd⟩ := guarded_eq_some hs
        obtain ⟨hp, hq, hpm⟩ := h.release_inFlight htask hd
        have hfl : d.inFlight p = true := by simpa [RetiresInFlight] using hno
        have hnum := hq.num
        simp only [hp, hfl, Bool.toInt_true, Bool.toInt_false] at hnum
        omega
      · cases hs
  | _ => exact absurd trivial hno

/-- Only a release makes a pipe done. -/
theorem SchedWf.done_of_step (h : SchedWf d) {cfg : DevConfig} {e : DevEvent}
    (hd : devStep cfg d e = some d') (hdone : (d'.pipe p).Done) :
    (d.pipe p).Done ∨ ∃ resetOk, e = .finiRelease p resetOk := by
  have hfini : ∀ {x y : Pipe}, y.fini = x.fini → y.Done → x.Done := by
    intro x y hxy hy
    unfold Pipe.Done at *
    rwa [hxy] at hy
  have hstarted : ∀ {d d' : Dev} {env : RunEnv} {t : TaskId},
      GaveUp env t d d' ∨ Started env t d d' → (d'.pipe p).fini = (d.pipe p).fini := by
    rintro d d' env t (hg | hg)
    · rw [hg.rest]
    · by_cases hp : p = (d.task t).pipe
      · subst hp
        obtain ⟨v, s, -, -, -, -, hsw⟩ := hg.refs
        exact hsw.fini
      · rw [hg.pipe p hp]
  cases devStep_move h.tasks hd with
  | user m => exact .inl (by rwa [m.pipe] at hdone)
  | quiet q => exact .inl ((q.pipe p).done hdone)
  | @completes _ _ t _ d₁ _ _ c =>
      have hpipe : (d₁.complete t).pipe = d₁.pipe := by simp [Dev.complete, Dev.addPm]
      rw [c.eq, hpipe] at hdone
      exact .inl ((c.quiet.pipe p).done hdone)
  | runJob hr hrun => exact .inl (hfini (hstarted (dispatch_cases hrun)) hdone)
  | killJob ht => exact .inl hdone
  | @freeJob t fuel _ _ hf hfree =>
      obtain ⟨-, s₁, s, gemRef, -, -, rfl⟩ := limaSchedFreeJob_cases hfree
      obtain ⟨fence, hput⟩ := d.fencePut_fence (d.task t).fence
      rw [hput] at hdone
      exact .inl hdone
  | clear ht hclear =>
      obtain ⟨s, -, rfl⟩ := timedoutClear_cases hclear
      refine .inl (hfini ?_ hdone)
      rw [modPipe_pipe]
      split <;> rfl
  | resubmit ht hu hres =>
      obtain ⟨d₁, hcases, rfl⟩ := timedoutResubmit_cases hres
      have hsame := hstarted hcases
      refine .inl (hfini ?_ hdone)
      rw [leaveTimeout, modPipe_pipe]
      split <;> exact hsame
  | @release q resetOk task _ _ hc hrel =>
      by_cases hp : p = q
      · subst hp
        exact .inr ⟨resetOk, rfl⟩
      left
      obtain ⟨-, -, rfl⟩ | ⟨s, x, -, -, -, d₁, rfl, ⟨-, rfl⟩ | ⟨t, -, -, rfl⟩⟩ :=
        finiRelease_cases hrel
      · rwa [modPipe_pipe_ne d hp] at hdone
      · simpa [hp] using hdone
      · obtain ⟨fence, heq, -⟩ := Dev.fenceSetError_frame { d with
          sys := s
          vmReleased := addRelease s (d.pipe q).currentVm d.vmReleased
          pipe := Function.update d.pipe q x } .enodev (d.task t).fence
        rw [fenceSignal_pipe, heq] at hdone
        simpa [hp] using hdone

end Balance

/-- The power references are those of the tasks in flight, of which a pipe that is
done has none. -/
structure PmBalanced (d : Dev) : Prop where
  balance : d.pm = d.numInFlight
  done : ∀ p, (d.pipe p).Done → d.inFlight p = false

theorem PmBalanced.step {d d' : Dev} (hw : SchedWf d) (h : PmBalanced d)
    {cfg : DevConfig} {e : DevEvent} (hok : RetiresOnce d e)
    (hd : devStep cfg d e = some d') : PmBalanced d' := by
  refine ⟨hw.balanced h.balance hok.1 hd, fun p hdone => ?_⟩
  have hold : d.inFlight p = false ∨ ∃ resetOk, e = .finiRelease p resetOk := by
    rcases hw.done_of_step hd hdone with hold | hrel
    · exact .inl (h.done p hold)
    · exact .inr hrel
  cases hw.pmMove hd with
  | same hfl =>
      rcases hold with hold | ⟨resetOk, rfl⟩
      · rw [hfl]
        exact hold
      · rw [hfl]
        exact hok.1
  | @completed _ q _ _ hq hq' ho =>
      by_cases hp : p = q
      · subst hp
        exact hq'
      · rw [ho p hp]
        rcases hold with hold | ⟨resetOk, rfl⟩
        · exact hold
        · exact hok.1
  | @started _ t env q _ _ he hq hq' ho =>
      by_cases hp : p = q
      · subst hp
        -- a job was dispatched on a pipe that is done
        rcases hw.done_of_step hd hdone with hdone | ⟨resetOk, rfl⟩
        · rcases he with ⟨rfl, rfl⟩ | ⟨cancel, rfl⟩
          · exact absurd hdone hok.2
          · exact absurd hdone hok.2
        · rcases he with ⟨he, -⟩ | ⟨cancel, he⟩ <;> cases he
      · rw [ho p hp]
        rcases hold with hold | ⟨resetOk, rfl⟩
        · exact hold
        · exact hok.1
  | @cleared q _ _ hq ho =>
      by_cases hp : p = q
      · subst hp
        exact hq
      · rw [ho p hp]
        rcases hold with hold | ⟨resetOk, hrel⟩
        · exact hold
        · cases hrel
  | @released q resetOk _ _ hq ho =>
      by_cases hp : p = q
      · subst hp
        exact hq
      · rw [ho p hp]
        rcases hold with hold | ⟨resetOk, hrel⟩
        · exact hold
        · cases hrel
          exact absurd rfl hp

end Lima
