import Lima.Sched.GemBalance

/-!
# What a job may rely on

A job holds its address space and the mappings of its objects from the moment it is pushed
until it is freed, and the pipe that works on it has its MMUs set to that address space. So
whatever users do meanwhile (close handles, close the file, submit more), a unit that runs
sees the objects of its job.
-/

namespace Lima

open RefCount

/-! ## Tasks -/

namespace Dev

/-- **The steps of users** change at most one task, whose heap they do not set; one that
then holds an address space has got it, or held it before. -/
theorem user_task {d d' : Dev} {cfg : DevConfig} {e : DevEvent}
    (hd : userStep cfg d e = some d') : ∃ t x, d'.task = Function.update d.task t x ∧
      (x.heap = none ∨ x.heap = (d.task t).heap) ∧ (x.state.holding = true →
        x.vm.isSome = true ∨ (d.task t).state.holding = true ∧ x.vm = (d.task t).vm) := by
  have hsame : ∀ {d' : Dev}, d'.task = d.task → ∃ t x, d'.task = Function.update d.task t x ∧
      (x.heap = none ∨ x.heap = (d.task t).heap) ∧ (x.state.holding = true →
        x.vm.isSome = true ∨ (d.task t).state.holding = true ∧ x.vm = (d.task t).vm) :=
    fun h => ⟨0, d.task 0, by rw [h, Function.update_eq_self], .inr rfl,
      fun hold => .inr ⟨hold, rfl⟩⟩
  cases userStep_call hd with
  | fileOpen _ =>
      unfold limaDrmDriverOpen
      split <;> exact hsame rfl
  | fileClose _ _ _ _ hd =>
      obtain ⟨d₁, hput, hd⟩ := Outcome.bind_eq_ok hd
      obtain ⟨s, -, rfl⟩ := vmPut_cases hput
      obtain rfl := Outcome.ok.inj hd
      exact hsame rfl
  | handleOpen _ _ _ hd =>
      obtain ⟨⟨s, r⟩, -, hd⟩ := Outcome.bind_eq_ok hd
      cases r <;> obtain rfl := Outcome.ok.inj hd <;> exact hsame rfl
  | handleClose _ _ hd =>
      obtain ⟨⟨s, touched⟩, -, hd⟩ := Outcome.bind_eq_ok hd
      obtain rfl := Outcome.ok.inj hd
      exact hsame rfl
  | @submitBegin f file p frame handles _ _ _ _ =>
      refine ⟨d.numTasks, { Task.zeroed p .allocated with frame := frame }, ?_, .inl rfl,
        by simp [TaskState.holding, TaskState.pushed, Task.zeroed]⟩
      simp [Dev.submitBegin, setSubmit, setFrame, zallocTask, modTask]
  | submitAdd _ _ _ _ hd =>
      obtain ⟨⟨d₁, r⟩, hadd, hd⟩ := Outcome.bind_eq_ok hd
      obtain ⟨s, gemRef, rfl⟩ := submitAdd_frame hadd
      cases r <;> obtain rfl := Outcome.ok.inj hd <;> exact hsame rfl
  | submitLockFail _ _ _ _ => exact hsame rfl
  | submitInit _ _ _ _ _ hd =>
      obtain ⟨⟨d₁, r⟩, hinit, hd⟩ := Outcome.bind_eq_ok hd
      obtain ⟨hr, gemRef, rfl⟩ | ⟨rfl, gemRef, s, -, rfl⟩ := limaSchedTaskInit_cases hinit
      · obtain ⟨err, rfl⟩ := Option.isSome_iff_exists.mp hr
        obtain rfl := Outcome.ok.inj hd
        exact hsame rfl
      · obtain rfl := Outcome.ok.inj hd
        exact ⟨_, _, rfl, .inr rfl, fun _ => .inl rfl⟩
  | submitDepsFail _ _ _ hd =>
      obtain ⟨d₁, hfini, hd⟩ := Outcome.bind_eq_ok hd
      obtain ⟨s, gemRef, -, rfl⟩ := limaSchedTaskFini_cases hfini
      obtain rfl := Outcome.ok.inj hd
      exact ⟨_, _, rfl, .inr rfl, by simp [TaskState.holding, TaskState.pushed]⟩
  | submitQueue _ _ hst =>
      rw [Dev.submitQueue, gemPuts_eq]
      exact ⟨_, _, rfl, .inr rfl, fun _ => .inr ⟨by rw [hst]; rfl, rfl⟩⟩
  | submitUndo _ _ _ _ hd =>
      obtain ⟨d₁, hundo, hd⟩ := Outcome.bind_eq_ok hd
      obtain ⟨⟨s, touched⟩, -, hundo⟩ := Outcome.bind_eq_ok hundo
      obtain rfl := Outcome.ok.inj hundo
      obtain rfl := Outcome.ok.inj hd
      exact hsame rfl
  | submitEnd _ _ _ hd =>
      obtain ⟨d₁, hfree, hd⟩ := Outcome.bind_eq_ok hd
      obtain ⟨-, rfl⟩ := kmemCacheFree_cases hfree
      obtain rfl := Outcome.ok.inj hd
      exact ⟨_, _, rfl, .inr rfl, by simp [TaskState.holding, TaskState.pushed]⟩

end Dev

/-- A task that holds an address space knows which, and the pipe that was handed a task last
has its address space. -/
structure JobBooks (d : Dev) : Prop where
  vm : ∀ t, (d.task t).state.holding = true → (d.task t).vm.isSome = true
  current : ∀ p t, (d.pipe p).currentTask = some t → (d.pipe p).currentVm = (d.task t).vm

namespace JobBooks

open Dev

variable {d d' : Dev} {cfg : DevConfig} {e : DevEvent}

theorem boot (s : Sys) : JobBooks (.boot s) where
  vm t h := by simp [Dev.boot, Task.zeroed, TaskState.holding, TaskState.pushed] at h
  current := nofun

/-! ## Steps -/

/-- One task has changed. -/
theorem vm_update (h : JobBooks d) {t : TaskId} {x : Task}
    (htask : d'.task = Function.update d.task t x)
    (hx : x.state.holding = true → x.vm.isSome = true) :
    ∀ u, (d'.task u).state.holding = true → (d'.task u).vm.isSome = true := by
  intro u hu
  rw [htask] at hu ⊢
  by_cases hut : u = t
  · subst hut
    rw [Function.update_self] at hu ⊢
    exact hx hu
  · rw [Function.update_of_ne hut] at hu ⊢
    exact h.vm u hu

theorem user_vm (h : JobBooks d) (hd : userStep cfg d e = some d') :
    ∀ u, (d'.task u).state.holding = true → (d'.task u).vm.isSome = true := by
  obtain ⟨t, x, htask, -, hx⟩ := user_task hd
  refine h.vm_update htask fun hhold => ?_
  rcases hx hhold with hsome | ⟨hold, hsame⟩
  · exact hsome
  · rw [hsame]
    exact h.vm t hold

theorem sched_vm (h : JobBooks d) (hd : schedStep cfg d e = some d') :
    (∀ u, (d'.task u).state.holding = true → (d'.task u).vm.isSome = true) ∧
      ∀ u, (d'.task u).vm = (d.task u).vm := by
  obtain ⟨t, fuel, -, -, hfree⟩ | hframe := schedStep_frame hd
  · obtain ⟨-, s₁, s, gemRef, -, -, rfl⟩ := limaSchedFreeJob_cases hfree
    refine ⟨h.vm_update rfl (by simp [TaskState.holding, TaskState.pushed]), fun u => ?_⟩
    by_cases hu : u = t
    · subst hu
      simp
    · simp [hu]
  · refine ⟨fun u hu => ?_, fun u => (hframe.keeps.task u).2.1⟩
    obtain ⟨hst, hvm, -⟩ := hframe.keeps.task u
    rw [hvm]
    refine h.vm u ?_
    rcases hst with hst | ⟨hp, -⟩
    · rwa [hst] at hu
    · rw [TaskState.holding, hp]
      rfl

/-- A pipe keeps its task and address space, switches to those of a task, or lets go. -/
theorem sched_current (h : JobBooks d) (hd : schedStep cfg d e = some d') :
    ∀ p t, (d'.pipe p).currentTask = some t → (d'.pipe p).currentVm = (d.task t).vm := by
  have hsame : ∀ {p t}, (d'.pipe p).currentTask = (d.pipe p).currentTask →
      (d'.pipe p).currentVm = (d.pipe p).currentVm → (d'.pipe p).currentTask = some t →
      (d'.pipe p).currentVm = (d.task t).vm := by
    intro p t ht hv hc
    rw [hv]
    exact h.current p t (ht ▸ hc)
  have hgone : ∀ {p q t}, (d'.pipe p).currentTask = none → (q ≠ p → d'.pipe q = d.pipe q) →
      (d'.pipe q).currentTask = some t → (d'.pipe q).currentVm = (d.task t).vm := by
    intro p q t hnone hother hc
    by_cases hq : q = p
    · subst hq
      rw [hnone] at hc
      cases hc
    · exact hsame (by rw [hother hq]) (by rw [hother hq]) hc
  have hdispatched : ∀ {d₀ d₁ : Dev} {t : TaskId} {env : RunEnv},
      (∀ u, (d₀.task u).vm = (d.task u).vm) → d₀.pipe = d.pipe →
      GaveUp env t d₀ d₁ ∨ Started env t d₀ d₁ → ∀ p u, (d₁.pipe p).currentTask = some u →
        (d₁.pipe p).currentVm = (d.task u).vm := by
    intro d₀ d₁ t env hvm hpipe hcase p u hc
    rcases hcase with hg | hs
    · have hp : d₁.pipe = d.pipe := by rw [hg.rest, ← hpipe]
      rw [hp] at hc ⊢
      exact h.current p u hc
    · obtain ⟨v, s, hv, -, -, -, hcontrol⟩ := hs.refs
      by_cases hp : p = (d₀.task t).pipe
      · subst hp
        obtain rfl : t = u := Option.some.inj (hcontrol.currentTask.symm.trans hc)
        rw [← hvm, hv]
        exact hcontrol.currentVm
      · rw [hs.pipe p hp, hpipe] at hc ⊢
        exact h.current p u hc
  cases schedStep_move hd with
  | quiet q => exact fun p t hc => hsame (q.pipe p).currentTask (q.pipe p).currentVm hc
  | @completes _ _ _ _ d₁ _ _ c =>
      have hpipe : d'.pipe = d₁.pipe := by simp [c.eq, Dev.complete, addPm]
      intro q u hc
      refine hsame ?_ ?_ hc <;> rw [hpipe]
      · exact (c.quiet.pipe q).currentTask
      · exact (c.quiet.pipe q).currentVm
  | runJob _ hd => exact hdispatched (fun _ => rfl) rfl (dispatch_cases hd)
  | killJob _ => exact fun p t hc => hsame rfl rfl hc
  | freeJob _ hd =>
      obtain ⟨-, s₁, s, gemRef, -, -, rfl⟩ := limaSchedFreeJob_cases hd
      obtain ⟨fence, hfence⟩ := d.fencePut_fence (d.task _).fence
      rw [hfence]
      exact fun p t hc => h.current p t hc
  | clear _ hd =>
      obtain ⟨s, -, rfl⟩ := timedoutClear_cases hd
      exact fun q t hc => hgone (by simp) (fun hq => modPipe_pipe_ne _ hq _) hc
  | @resubmit p t u cancel env _ _ _ _ hd =>
      obtain ⟨d₁, hcase, rfl⟩ := timedoutResubmit_cases hd
      intro q w hc
      have hvm : ∀ x, ((cancelled u cancel d).task x).vm = (d.task x).vm := by
        intro x
        rw [cancelled, modTask_task]
        split <;> rfl
      have hd₁ := hdispatched hvm rfl hcase q w
      rw [leaveTimeout, modPipe_pipe] at hc ⊢
      split at hc
      · rename_i hq
        rw [if_pos hq]
        exact hd₁ hc
      · rename_i hq
        rw [if_neg hq]
        exact hd₁ hc
  | @release p resetOk task _ _ _ hd =>
      obtain ⟨-, hnone, rfl⟩ | ⟨s, x, -, hx, -, d₁, hd₁, hd⟩ := finiRelease_cases hd
      · exact fun q t hc => hgone (p := p) (by simp [hnone]) (fun hq => modPipe_pipe_ne _ hq _) hc
      have hpipe : d'.pipe = Function.update d.pipe p x := by
        obtain ⟨-, rfl⟩ | ⟨t, -, -, rfl⟩ := hd <;> simp [hd₁]
      exact fun q t hc => hgone (p := p) (by simp [hpipe, hx.currentTask])
        (fun hq => by simp [hpipe, hq]) hc

/-- **Every step keeps the books of the jobs.** -/
theorem step (h : JobBooks d) (hw : SchedWf d) (hd : devStep cfg d e = some d') :
    JobBooks d' := by
  rcases devStep_cases hd with hu | hs
  · obtain ⟨hmove, -⟩ := userStep_move hw.tasks hu
    refine ⟨h.user_vm hu, fun p t hc => ?_⟩
    rw [hmove.pipe] at hc ⊢
    rw [hw.user_current hmove hc]
    exact h.current p t hc
  · obtain ⟨hvm, hsame⟩ := h.sched_vm hs
    refine ⟨hvm, fun p t hc => ?_⟩
    rw [hsame t]
    exact h.sched_current hs p t hc

theorem of_reachable (h : (devLts cfg).Reachable d) : JobBooks d := by
  refine h.invariant (I := JobBooks) (fun d hd => ?_) fun d e d' hr hi hd =>
    hi.step (SchedWf.of_reachable hr) hd
  obtain ⟨s, rfl, -⟩ := hd
  exact boot s

end JobBooks

/-! ## Main results -/

/-- What a task relies on in address space `v`: that it is there, and that each object of the
task is there and mapped in it. -/
def Dev.Backed (d : Dev) (t : TaskId) (v : VmId) : Prop :=
  Alive d.sys.vmRefs v ∧
    ∀ b ∈ (d.task t).bos, 0 < d.gemRef b ∧ limaVmBoFind v (d.sys.bo b).va ≠ none

/-- **A job keeps its memory** from the moment it is pushed until it is freed, whatever
happens to the handles and the file it was submitted with. -/
theorem unfreed_job_backed (cfg : DevConfig) {d : Dev} (h : (devLts cfg).Reachable d)
    {t : TaskId} (hp : (d.task t).state.pushed = true) :
    ∃ v, (d.task t).vm = some v ∧ d.Backed t v := by
  have hb := VmBalance.of_reachable h
  have hw := (SchedWf.of_reachable h).tasks
  obtain ⟨files, kept, hgem⟩ := GemBalance.of_reachable h
  have hlt : t < d.numTasks := hw.lt_of_pushed hp
  have hnosub : d.submit t = none := hw.submit_of_pushed hp
  have hheld : (d.task t).state.holding = true := by rw [TaskState.holding, hp]; rfl
  obtain ⟨v, hv⟩ := Option.isSome_iff_exists.mp ((JobBooks.of_reachable h).vm t hheld)
  have hheldVm : d.heldVm t = some v := by rw [Dev.heldVm, if_pos hheld, hv]
  obtain ⟨f, hf⟩ := hb.held t v hheldVm
  obtain ⟨file, hfile, rfl⟩ := Option.map_eq_some_iff.mp hf
  refine ⟨file.vm, hv, ?_, fun b hmem => ?_⟩
  · refine (hb.refs f file hfile).live ?_
    have hpos : 0 < holders (Finset.range d.numTasks) d.heldVm file.vm :=
      holders_pos.mpr ⟨t, Finset.mem_range.mpr hlt, hheldVm⟩
    unfold Dev.vmUsers
    omega
  · have hcount : 0 < (d.task t).bos.count b := List.count_pos_iff.mpr hmem
    have hentries : d.entries file.vm b t = (d.task t).bos.count b := by
      simp [Dev.entries, hnosub, hp, hv]
    have hle : d.entries file.vm b t ≤ ∑ u ∈ Finset.range d.numTasks, d.entries file.vm b u :=
      Finset.single_le_sum (fun _ _ => Nat.zero_le _) (Finset.mem_range.mpr hlt)
    have hmaps : 0 < d.mapUsers file b := by
      unfold Dev.mapUsers
      omega
    refine ⟨hgem.referenced hw hfile hmaps, ?_⟩
    rw [← hb.listed.mapRefs_pos, hb.maps f file hfile b]
    exact hmaps

/-- A job runs whose handle and file are closed. -/
def closedUnderJob : List DevEvent :=
  openOne ++ submitOne 0 .gp gpFrame ++ [.runJob 0 allOk, .handleClose 0 1 0 4, .fileClose 0]

theorem closedUnderJob_exec : ∃ d, (devLts mali400Dev).Reachable d ∧
    ((d.file 0).map fun file => (file.isOpen, file.handles)) = some (false, []) ∧
      (d.task 0).state = .pending ∧ (d.task 0).bos = [0] ∧
        (d.pipe .gp).running = 1 ∧ (d.pipe .gp).currentTask = some 0 := by
  have hrun : ((Lts.exec (devStep mali400Dev) (.boot (.fresh onePageBo)) closedUnderJob).map
      fun d => (((d.file 0).map fun file => (file.isOpen, file.handles)), (d.task 0).state,
        (d.task 0).bos, (d.pipe .gp).running, (d.pipe .gp).currentTask)) =
          some (some (false, []), .pending, [0], 1, some 0) := rfl
  obtain ⟨d, hd, hobs⟩ := Option.map_eq_some_iff.mp hrun
  simp only [Prod.mk.injEq] at hobs
  exact ⟨d, .exec (fun _ _ _ h => h) (.init (onePage_init _)) hd, hobs⟩

theorem unfreed_job_backed_closed : ∃ (d : Dev) (v : VmId),
    ((d.file 0).map fun file => (file.isOpen, file.handles)) = some (false, []) ∧
      (d.task 0).vm = some v ∧ 0 < d.gemRef 0 ∧ limaVmBoFind v (d.sys.bo 0).va ≠ none := by
  obtain ⟨d, hreach, hfile, hst, hbos, -, -⟩ := closedUnderJob_exec
  obtain ⟨v, hv, hbacked⟩ := unfreed_job_backed mali400Dev hreach (t := 0) (by rw [hst]; rfl)
  exact ⟨d, v, hfile, hv, hbacked.2 0 (by rw [hbos]; simp)⟩

end Lima
