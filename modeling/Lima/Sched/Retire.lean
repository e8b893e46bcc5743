import Lima.Sched.Wf

/-!
# Starting and retiring a job keeps the bookkeeping

The steps that are not quiet: a fence is signalled, a pipe lets go of its task, a job
is dispatched, killed or freed. Each keeps `SchedWf`; together with the quiet steps
they are all of `schedStep`.
-/

namespace Lima

namespace SchedWf

open Dev

variable {d d' : Dev} {p : PipeId}

/-! ## Signalling a fence -/

/-- A fence may be signalled once no unit works on its task. -/
theorem fenceSignal (h : SchedWf d) (fo : Option FenceId)
    (hidle : ∀ p t f, (d.pipe p).currentTask = some t → (d.task t).fence = some f →
      fo = some f → (d.pipe p).running = 0) : SchedWf (d.fenceSignal fo) := by
  obtain heq | ⟨f, task, rfl, hs, heq, htask⟩ := d.fenceSignal_cases fo
  · rw [heq]
    exact h
  -- of a task, only whether it is finished can change
  have hsame : ∀ t, task t = { d.task t with
      finished := (task t).finished
      finishedError := (task t).finishedError } := by
    intro t
    have ht := d.fenceSignal_task (some f) t
    rwa [heq] at ht
  have hfence : ∀ t, (task t).fence = (d.task t).fence := fun t => by rw [hsame t]
  have hstate : ∀ t, (task t).state = (d.task t).state := fun t => by rw [hsame t]
  have hpipe : ∀ t, (task t).pipe = (d.task t).pipe := fun t => by rw [hsame t]
  have hother : ∀ t, (d.task t).fence ≠ some f → task t = d.task t := by
    intro t ht
    obtain ⟨-, rfl⟩ | ⟨u, hu, rfl⟩ := htask
    · rfl
    · have hne : t ≠ u := by
        rintro rfl
        exact ht (h.cb f t hu).1
      exact Function.update_of_ne hne _ _
  have htasks : (d.fenceSignal (some f)).task = task := congrArg Dev.task heq
  have hcb : ∀ g t, ((d.fenceSignal (some f)).fence g).cb = some t →
      g ≠ f ∧ (d.fence g).cb = some t := by
    intro g t hg
    rw [heq] at hg
    by_cases hgf : g = f
    · subst hgf
      simp at hg
    · exact ⟨hgf, by simpa [hgf] using hg⟩
  have hfl : ∀ p, (d.fenceSignal (some f)).inFlight p = true → d.inFlight p = true ∧
      ∀ t, (d.pipe p).currentTask = some t → (d.task t).fence ≠ some f := by
    intro p hp
    obtain ⟨t, g, hc, hg, hsig⟩ := inFlight_iff.mp hp
    rw [fenceSignal_pipe] at hc
    rw [fenceSignal_signaled, Bool.or_eq_false_iff] at hsig
    rw [heq, hfence] at hg
    refine ⟨inFlight_iff.mpr ⟨t, g, hc, hg, hsig.1⟩, fun u hu hf => ?_⟩
    obtain rfl : t = u := Option.some.inj (hc.symm.trans hu)
    obtain rfl : g = f := Option.some.inj (hg.symm.trans hf)
    simp at hsig
  refine ⟨⟨fun t ht => ?_, fun t sm hsm => ?_⟩, fun p t hc => ?_, fun p t hc => ?_, fun t g hg => ?_,
    fun t u g ht hu => ?_, fun g t hg => ?_, fun p t hc hf => ?_, fun t ht => ?_,
    fun p t ht => ?_, fun p hh g t hg => ?_, fun p hr hc => ?_, fun he => ?_⟩
  · rw [heq] at ht ⊢
    rw [hstate]
    exact h.tasks.fresh t ht
  · rw [heq] at hsm ⊢
    rw [hstate]
    exact h.tasks.submit t sm hsm
  · rw [fenceSignal_pipe] at hc
    rw [heq, hpipe, hstate]
    exact h.current p t hc
  · rw [fenceSignal_pipe] at hc
    rw [heq, hpipe, hstate]
    exact h.checked p t hc
  · rw [heq] at hg ⊢
    rw [hfence] at hg
    exact h.fenceLt t g hg
  · rw [heq] at ht hu
    rw [hfence] at ht hu
    exact h.fenceInj t u g ht hu
  · obtain ⟨hgf, hg⟩ := hcb g t hg
    obtain ⟨h₁, h₂, h₃, h₄⟩ := h.cb g t hg
    have hne : (d.task t).fence ≠ some f := by
      rw [h₁]
      exact fun hh => hgf (Option.some.inj hh)
    rw [htasks, hother t hne]
    refine ⟨h₁, ?_, h₃, h₄⟩
    rw [fenceSignal_signaled, h₂]
    simpa using Ne.symm hgf
  · rw [fenceSignal_pipe] at hc
    obtain ⟨hf, hne⟩ := hfl p hf
    rw [htasks, hother t (hne t hc)]
    exact h.running p t hc hf
  · rw [htasks, hstate] at ht
    have hun := h.unrun t ht
    rw [htasks, hother t (by rw [hun.fence]; simp)]
    exact hun
  · rw [fenceSignal_pipe] at ht ⊢
    exact h.cleared p t ht
  · rw [fenceSignal_pipe] at hh
    rw [heq, hpipe]
    exact h.held p hh g t (hcb g t hg).2
  · rw [fenceSignal_pipe] at hr hc
    obtain ⟨t, g, ht, hg, hsig⟩ := inFlight_iff.mp (h.busy p hr hc)
    refine inFlight_iff.mpr ⟨t, g, by rwa [fenceSignal_pipe], by rw [heq, hfence, hg], ?_⟩
    rw [fenceSignal_signaled, hsig, Bool.false_or, beq_eq_false_iff_ne]
    intro hfg
    rw [hidle p t g ht hg hfg] at hr
    exact absurd hr (Nat.lt_irrefl 0)
  · rw [fenceSignal_pipe] at he ⊢
    exact h.ppCount he

/-- The fence of a task has no other task's callback. -/
theorem fenceSignal_other (h : SchedWf d) {t v : TaskId} (hv : v ≠ t) :
    (d.fenceSignal (d.task t).fence).task v = d.task v := by
  obtain heq | ⟨f, task, hf, -, heq, ⟨-, rfl⟩ | ⟨u, hu, rfl⟩⟩ :=
    d.fenceSignal_cases (d.task t).fence
  · rw [heq]
  · rw [heq]
  · rw [heq]
    obtain rfl := h.fenceInj u t f (h.cb f u hu).1 hf
    exact Function.update_of_ne hv _ _

/-- Recording something about a task that has been pushed: that the hardware is done
with it, or the error it will finish with. -/
theorem modTask (h : SchedWf d) {t : TaskId} {g : Task → Task}
    (ht : (d.task t).state = .pending ∨ (d.task t).state = .freed)
    (hg : ∀ x, g x = { x with
      hwDone := (g x).hwDone
      finishedError := (g x).finishedError }) : SchedWf (d.modTask t g) := by
  have hsame : ∀ u, (d.modTask t g).task u = { d.task u with
      hwDone := ((d.modTask t g).task u).hwDone
      finishedError := ((d.modTask t g).task u).finishedError } := by
    intro u
    rw [modTask_task]
    split
    · exact hg _
    · rfl
  have hfence : ∀ u, ((d.modTask t g).task u).fence = (d.task u).fence :=
    fun u => by rw [hsame u]
  have hstate : ∀ u, ((d.modTask t g).task u).state = (d.task u).state :=
    fun u => by rw [hsame u]
  have hpipe : ∀ u, ((d.modTask t g).task u).pipe = (d.task u).pipe :=
    fun u => by rw [hsame u]
  have hfin : ∀ u, ((d.modTask t g).task u).finished = (d.task u).finished :=
    fun u => by rw [hsame u]
  have hfl : ∀ p, (d.modTask t g).inFlight p = d.inFlight p := fun p =>
    inFlight_congr rfl (fun u _ => hfence u) fun _ _ _ _ => rfl
  refine ⟨⟨fun u hu => ?_, fun u sm hsm => ?_⟩, fun p u hc => ?_, fun p u hc => ?_, fun u f hf => ?_,
    fun u w f hu hw => ?_, fun f u hcb => ?_, fun p u hc hf => ?_, fun u hu => ?_,
    fun p u hu => h.cleared p u hu, fun p hh f u hcb => ?_, fun p hr hc => ?_,
    fun he => h.ppCount he⟩
  · rw [hstate]
    exact h.tasks.fresh u hu
  · rw [hstate]
    exact h.tasks.submit u sm hsm
  · rw [hpipe, hstate]
    exact h.current p u hc
  · rw [hpipe, hstate]
    exact h.checked p u hc
  · rw [hfence] at hf
    exact h.fenceLt u f hf
  · rw [hfence] at hu hw
    exact h.fenceInj u w f hu hw
  · rw [hfence, hstate, hfin]
    exact h.cb f u hcb
  · rw [hfl] at hf
    rw [hstate, hfin]
    exact h.running p u hc hf
  · have hne : u ≠ t := by
      rintro rfl
      rw [hstate] at hu
      rcases ht with ht | ht <;> rw [ht] at hu <;> simp [TaskState.PreRun] at hu
    rw [modTask_task_ne d hne] at hu ⊢
    exact h.unrun u hu
  · rw [hpipe]
    exact h.held p hh f u hcb
  · rw [hfl]
    exact h.busy p hr hc

theorem addPm (h : SchedWf d) (n : ℤ) : SchedWf (d.addPm n) :=
  ⟨⟨h.tasks.fresh, h.tasks.submit⟩, h.current, h.checked, h.fenceLt, h.fenceInj, h.cb, h.running,
    h.unrun, h.cleared, h.held, h.busy, h.ppCount⟩

/-- Completing the current task of a pipe whose unit has ended. -/
theorem complete (h : SchedWf d) {t : TaskId} (hc : (d.pipe p).currentTask = some t)
    (hr : (d.pipe p).running = 0) : SchedWf (d.complete t) := by
  have hdone := h.modTask (g := fun task => { task with hwDone := true })
    (h.current p t hc).2 fun _ => rfl
  have hsig : SchedWf ((d.modTask t fun task => { task with hwDone := true }).fenceSignal
      (d.task t).fence) := by
    refine hdone.fenceSignal _ fun q u f hu hf ht => ?_
    obtain rfl : u = t := by
      refine h.fenceInj u t f ?_ ht
      rw [modTask_task] at hf
      split at hf <;> exact hf
    obtain rfl : q = p := (h.current q u hu).1.symm.trans (h.current p u hc).1
    exact hr
  exact hsig.addPm (-1)

/-- An interrupt that completes the task of its pipe. -/
theorem completes (h : SchedWf d) {t : TaskId} {d₁ : Dev}
    (hc : Completes p t d d₁ d') : SchedWf d' := by
  have h₁ := h.quiet hc.quiet
  rw [hc.eq]
  refine h₁.complete ((hc.quiet.pipe p).currentTask.trans hc.current) ?_
  cases p with
  | gp => exact hc.gpEnded rfl
  | pp =>
      obtain ⟨hzero, herr⟩ := hc.ppEnded rfl
      have hle := h₁.ppCount herr
      rw [hzero] at hle
      omega

/-! ## Letting go of the pipe's task -/

theorem letGo (h : SchedWf d) {x : Pipe} (hpipe : d'.pipe = Function.update d.pipe p x)
    (hcur : x.currentTask = none) (hheld : x.Held → (d.pipe p).Held)
    (hfini : ∀ t, x.fini = .checked (some t) → (d.pipe p).fini = .checked (some t))
    (herr : x.error = false → (d.pipe p).error = false ∧
      x.running = (d.pipe p).running ∧ x.task = (d.pipe p).task)
    (htask : d'.task = d.task) (hnt : d'.numTasks = d.numTasks)
    (hfence : d'.fence = d.fence) (hnf : d'.numFences = d.numFences)
    (hsub : d'.submit = d.submit) : SchedWf d' := by
  have hcase : ∀ q, q = p ∧ d'.pipe q = x ∨ q ≠ p ∧ d'.pipe q = d.pipe q := by
    intro q
    by_cases hq : q = p
    · subst hq
      exact .inl ⟨rfl, by simp [hpipe]⟩
    · exact .inr ⟨hq, by simp [hpipe, hq]⟩
  have hc : ∀ q t, (d'.pipe q).currentTask = some t → d'.pipe q = d.pipe q := by
    intro q t hq
    rcases hcase q with ⟨-, heq⟩ | ⟨-, heq⟩
    · rw [heq, hcur] at hq
      cases hq
    · exact heq
  have hfl : ∀ q, d'.pipe q = d.pipe q → d'.inFlight q = d.inFlight q := by
    intro q hq
    refine inFlight_congr (by rw [hq]) (fun t _ => by rw [htask]) fun t f _ _ => by rw [hfence]
  refine ⟨⟨fun t ht => ?_, fun t sm hsm => ?_⟩, fun q t hq => ?_, fun q t hq => ?_,
    fun t f hf => ?_, fun t u f ht hu => ?_, fun f t hcb => ?_, fun q t hq hf => ?_,
    fun t ht => ?_, fun q t ht => ?_, fun q hh f t hcb => ?_, fun q hr hq => ?_, fun he => ?_⟩
  · rw [hnt] at ht
    rw [htask, hsub]
    exact h.tasks.fresh t ht
  · rw [hsub] at hsm
    rw [htask]
    exact h.tasks.submit t sm hsm
  · have heq := hc q t hq
    rw [heq] at hq
    rw [htask]
    exact h.current q t hq
  · rw [htask]
    rcases hcase q with ⟨rfl, heq⟩ | ⟨-, heq⟩
    · rw [heq] at hq
      exact h.checked q t (hfini t hq)
    · rw [heq] at hq
      exact h.checked q t hq
  · rw [htask] at hf
    rw [hnf]
    exact h.fenceLt t f hf
  · rw [htask] at ht hu
    exact h.fenceInj t u f ht hu
  · rw [hfence] at hcb ⊢
    rw [htask]
    exact h.cb f t hcb
  · have heq := hc q t hq
    rw [hfl q heq] at hf
    rw [heq] at hq
    rw [htask]
    exact h.running q t hq hf
  · rw [htask] at ht ⊢
    exact h.unrun t ht
  · rcases hcase q with ⟨-, heq⟩ | ⟨-, heq⟩
    · rw [heq]
      exact hcur
    · rw [heq] at ht ⊢
      exact h.cleared q t ht
  · rw [hfence] at hcb
    rw [htask]
    rcases hcase q with ⟨rfl, heq⟩ | ⟨-, heq⟩
    · rw [heq] at hh
      exact h.held q (hheld hh) f t hcb
    · rw [heq] at hh
      exact h.held q hh f t hcb
  · rcases hcase q with ⟨-, heq⟩ | ⟨-, heq⟩
    · rw [heq] at hq
      exact absurd hcur hq
    · rw [hfl q heq]
      rw [heq] at hr hq
      exact h.busy q hr hq
  · rcases hcase .pp with ⟨rfl, heq⟩ | ⟨-, heq⟩
    · rw [heq] at he ⊢
      obtain ⟨he, hr, ht⟩ := herr he
      rw [hr, ht]
      exact h.ppCount he
    · rw [heq] at he ⊢
      exact h.ppCount he

theorem timedoutClear (h : SchedWf d) {t : TaskId}
    (ht : (d.pipe p).timedout = some (t, .reset))
    (hd : d.timedoutClear p t = .ok d') : SchedWf d' := by
  obtain ⟨s, -, rfl⟩ := timedoutClear_cases hd
  refine h.letGo rfl rfl (fun _ => ⟨t, .reset, ht, by simp⟩) (fun _ hf => hf)
    (fun he => ⟨he, rfl, rfl⟩) rfl rfl rfl rfl rfl

/-- Setting an error keeps the bookkeeping. -/
theorem fenceSetError (h : SchedWf d) (e : Errno) (fo : Option FenceId) :
    SchedWf (d.fenceSetError e fo) := by
  obtain ⟨fence, heq, hs, hcb, -⟩ := d.fenceSetError_frame e fo
  have hfl : ∀ q, (d.fenceSetError e fo).inFlight q = d.inFlight q := by
    intro q
    rw [heq]
    exact inFlight_congr rfl (fun _ _ => rfl) fun _ f _ _ => hs f
  refine ⟨?_, ?_, ?_, ?_, ?_, fun f t hf => ?_, fun q t hq hf => ?_, ?_, ?_,
    fun q hh f t hf => ?_, fun q hr hq => ?_, ?_⟩
  · rw [heq]
    exact ⟨h.tasks.fresh, h.tasks.submit⟩
  · rw [heq]
    exact h.current
  · rw [heq]
    exact h.checked
  · rw [heq]
    exact h.fenceLt
  · rw [heq]
    exact h.fenceInj
  · rw [heq] at hf ⊢
    simp only [hs, hcb] at hf ⊢
    exact h.cb f t hf
  · rw [hfl] at hf
    rw [heq] at hq ⊢
    exact h.running q t hq hf
  · rw [heq]
    exact h.unrun
  · rw [heq]
    exact h.cleared
  · rw [heq] at hh hf ⊢
    simp only [hcb] at hf
    exact h.held q hh f t hf
  · rw [hfl]
    rw [heq] at hr hq
    exact h.busy q hr hq
  · rw [heq]
    exact h.ppCount

theorem finiRelease (h : SchedWf d) {resetOk : Bool} {task : Option TaskId}
    (hc : (d.pipe p).fini = .checked task) (hd : d.finiRelease p resetOk task = .ok d') :
    SchedWf d' := by
  obtain ⟨-, hnone, rfl⟩ | ⟨s, x, -, hx, hfini, d₁, rfl, hd⟩ := finiRelease_cases hd
  · refine h.letGo rfl hnone (fun hh => hh) nofun (fun he => ⟨he, rfl, rfl⟩)
      rfl rfl rfl rfl rfl
  · have hgo : SchedWf { d with
        sys := s
        vmReleased := addRelease s (d.pipe p).currentVm d.vmReleased
        pipe := Function.update d.pipe p x } := by
      refine h.letGo rfl hx.currentTask (fun hh => ?_) (fun t hf => ?_) hx.error
        rfl rfl rfl rfl rfl
      · unfold Pipe.Held at *
        rwa [hx.timedout] at hh
      · rw [hfini] at hf
        cases hf
    obtain ⟨-, rfl⟩ | ⟨t, rfl, -, rfl⟩ := hd
    · exact hgo
    · refine (hgo.fenceSetError .enodev _).fenceSignal _ fun q u f hq hf ht => ?_
      -- the failed task was on the pipe that has let go
      obtain ⟨fence, heq, -⟩ := Dev.fenceSetError_frame { d with
        sys := s
        vmReleased := addRelease s (d.pipe p).currentVm d.vmReleased
        pipe := Function.update d.pipe p x } .enodev (d.task t).fence
      rw [heq] at hq hf
      obtain rfl := h.fenceInj u t f hf ht
      have hne : q ≠ p := by
        rintro rfl
        simp only [Function.update_self, hx.currentTask] at hq
        cases hq
      simp only [Function.update_of_ne hne] at hq
      exact absurd ((h.current q u hq).1.symm.trans (h.checked p u hc).1) hne

end SchedWf

end Lima
