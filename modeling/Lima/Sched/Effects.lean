import Lima.Sched.Runs

/-!
# What a completed scheduler call has done

One inversion lemma for each call of the scheduler part, naming what it changes.
The rest of the device is the same; where the call is a case distinction, the lemma
is a disjunction.
-/

namespace Lima

namespace Dev

variable {d d' : Dev}

/-! ## References and pointers -/

theorem vmPut_cases {v : Option VmId} (h : d.vmPut v = .ok d') :
    ∃ s, limaVmPut d.sys v = .ok s ∧ d' = { d with
      sys := s
      vmReleased := addRelease s v d.vmReleased } := by
  obtain ⟨s, hs, hd⟩ := Outcome.bind_eq_ok h
  exact ⟨s, hs, (Outcome.ok.inj hd).symm⟩

theorem vmGet_cases {v : Option VmId} (h : d.vmGet v = .ok d') :
    ∃ w s, v = some w ∧ limaVmGet d.sys w = .ok s ∧ d' = d.setSys s := by
  cases v with
  | none => cases h
  | some w =>
      obtain ⟨s, hs, hd⟩ := Outcome.bind_eq_ok h
      exact ⟨w, s, rfl, hs, (Outcome.ok.inj hd).symm⟩

theorem readTask_cases {t : TaskId} {x : Task} (h : d.readTask t = .ok x) :
    (d.task t).state ≠ .freed ∧ x = d.task t := by
  unfold readTask at h
  split at h
  · cases h
  · rename_i hne
    exact ⟨hne, (Outcome.ok.inj h).symm⟩

theorem clearPipe_cases {p : PipeId} (h : d.clearPipe p = .ok d') :
    ∃ s, limaVmPut d.sys (d.pipe p).currentVm = .ok s ∧
      d' = { d with
        sys := s
        vmReleased := addRelease s (d.pipe p).currentVm d.vmReleased }.modPipe p
          fun x => { x with
            currentVm := none
            currentTask := none } := by
  obtain ⟨d₁, hput, hd⟩ := Outcome.bind_eq_ok h
  obtain ⟨s, hs, rfl⟩ := vmPut_cases hput
  exact ⟨s, hs, (Outcome.ok.inj hd).symm⟩

/-! ## Dispatch -/

end Dev

/-- The patched task differs in its frame, its heap and `recoverable`. -/
def Task.SameButHeap (x x' : Task) : Prop :=
  x' = { x with
    frame := x'.frame
    recoverable := x'.recoverable
    heap := x'.heap }

theorem patchHeap_same {s : Sys} {v : VmId} : ∀ {bs : List BoId} {x x' : Task},
    patchHeap s v bs x = .ok x' → x.SameButHeap x'
  | [], x, x', h => by
      obtain rfl := Outcome.ok.inj h
      rfl
  | b :: bs, x, x', h => by
      rw [patchHeap] at h
      split at h
      · obtain ⟨va, -, hva⟩ := Outcome.bind_eq_ok h
        split at hva
        · obtain rfl := Outcome.ok.inj hva
          rfl
        · exact patchHeap_same hva
      · exact patchHeap_same h

/-- A `run_job` that has returned `NULL`: nothing is dispatched, and the job is
finished with the error it carries, if any. -/
structure GaveUp (env : RunEnv) (t : TaskId) (d d' : Dev) : Prop where
  reason : (d.task t).finishedError.isSome = true ∨
    (env.fenceOk && env.pmOk) = false
  task : d'.task = Function.update d.task t { d.task t with
    state := .pending
    finished := true
    undispatched := (d.task t).undispatched ||
      ((d.task t).finishedError.isNone && !(env.fenceOk && env.pmOk)) }
  fence : ∀ f, f < d.numFences → d'.fence f = d.fence f
  cb : ∀ f, d.numFences ≤ f → (d'.fence f).cb = none ∨ d'.fence f = d.fence f
  dropped : ∀ f, d.numFences ≤ f → f < d'.numFences → (d'.fence f).driverRefs = 0
  numFences : d.numFences ≤ d'.numFences
  rest : d' = { d with
    task := d'.task
    fence := d'.fence
    numFences := d'.numFences }

/-- Nothing but the hardware's side of the pipe has changed. -/
structure Pipe.SameControl (x x' : Pipe) : Prop where
  currentTask : x'.currentTask = x.currentTask
  currentVm : x'.currentVm = x.currentVm
  mmuDte : x'.mmuDte = x.mmuDte
  error : x'.error = x.error
  recoverQueued : x'.recoverQueued = x.recoverQueued
  recoverRunning : x'.recoverRunning = x.recoverRunning
  timedout : x'.timedout = x.timedout
  fini : x'.fini = x.fini

/-- The pipe after the switch to `t` and its address space `v`. -/
def Pipe.switch (x : Pipe) (t : TaskId) (v : VmId) : Pipe :=
  { x with
    currentTask := some t
    currentVm := some v
    mmuDte := fun _ => some v
    error := false }

/-- A `run_job` that has handed its task to the hardware. -/
structure Started (env : RunEnv) (t : TaskId) (d d' : Dev) : Prop where
  noError : (d.task t).finishedError = none
  envOk : env.fenceOk = true ∧ env.pmOk = true
  refs : ∃ v s, (d.task t).vm = some v ∧
    limaVmPut d.sys (d.pipe (d.task t).pipe).currentVm = .ok s ∧
    limaVmGet s v = .ok d'.sys ∧
    d'.vmReleased =
      Dev.addRelease s (d.pipe (d.task t).pipe).currentVm d.vmReleased ∧
    ((d.pipe (d.task t).pipe).switch t v).SameControl (d'.pipe (d.task t).pipe)
  pipe : ∀ q, q ≠ (d.task t).pipe → d'.pipe q = d.pipe q
  ppCount : (d.task t).pipe = .pp → (d'.pipe .pp).task = (d'.pipe .pp).running
  task : ∃ x, { d.task t with
      state := .pending
      fence := some d.numFences }.SameButHeap x ∧
    d'.task = Function.update d.task t x
  fence : d'.fence = Function.update d.fence d.numFences ⟨false, none, some t, 1⟩
  numFences : d'.numFences = d.numFences + 1
  pm : d'.pm = d.pm + 1
  rest : d' = { d with
    task := d'.task
    fence := d'.fence
    numFences := d'.numFences
    pm := d'.pm
    pipe := d'.pipe
    sys := d'.sys
    vmReleased := d'.vmReleased }

namespace Dev

variable {d d' : Dev}

theorem pipeTaskRun_cases {resetOk : Bool} {t : TaskId} {v : VmId} {p : PipeId}
    (h : d.pipeTaskRun resetOk t v p = .ok d') :
    ∃ x y, (d.task t).SameButHeap x ∧ (d.pipe p).SameControl y ∧
      (p = .pp → y.task = y.running) ∧ d' = { d with
        task := Function.update d.task t x
        pipe := Function.update d.pipe p y } := by
  cases p with
  | gp =>
      obtain ⟨x, hx, hd⟩ := Outcome.bind_eq_ok h
      obtain rfl := Outcome.ok.inj hd
      refine ⟨x, _, patchHeap_same hx, ?_, nofun, rfl⟩
      simp only [limaGpSoftResetAsyncWait]
      split <;> exact ⟨rfl, rfl, rfl, rfl, rfl, rfl, rfl, rfl⟩
  | pp =>
      obtain rfl := Outcome.ok.inj h
      refine ⟨d.task t, { d.pipe .pp with
        task := (d.task t).frame.numPp
        running := (d.task t).frame.numPp }, rfl, ⟨rfl, rfl, rfl, rfl, rfl, rfl, rfl, rfl⟩,
        fun _ => rfl, ?_⟩
      rw [Function.update_eq_self]
      rfl

theorem startJob_cases {resetOk : Bool} {t : TaskId} {f : FenceId}
    (h : d.startJob resetOk t f = .ok d') :
    ∃ v s s' x y, (d.task t).vm = some v ∧
      limaVmPut d.sys (d.pipe (d.task t).pipe).currentVm = .ok s ∧
      limaVmGet s v = .ok s' ∧ { d.task t with fence := some f }.SameButHeap x ∧
      ((d.pipe (d.task t).pipe).switch t v).SameControl y ∧
      ((d.task t).pipe = .pp → y.task = y.running) ∧ d' = { d.fenceGet f with
        sys := s'
        vmReleased := addRelease s (d.pipe (d.task t).pipe).currentVm d.vmReleased
        task := Function.update d.task t x
        pipe := Function.update d.pipe (d.task t).pipe y } := by
  unfold startJob at h
  obtain ⟨d₁, hput, h⟩ := Outcome.bind_eq_ok h
  obtain ⟨d₂, hget, h⟩ := Outcome.bind_eq_ok h
  obtain ⟨s, hs, rfl⟩ := vmPut_cases hput
  obtain ⟨v, s', hv, hs', rfl⟩ := vmGet_cases hget
  have hv' : (d.task t).vm = some v := by
    simpa [fenceGet, modPipe, modTask, modFence] using hv
  have hput' : limaVmPut d.sys (d.pipe (d.task t).pipe).currentVm = .ok s := by
    simpa [fenceGet, modPipe, modTask, modFence] using hs
  have hrun := h
  simp only [setSys, modPipe, modTask, fenceGet, modFence, Function.update_self, hv'] at hrun
  obtain ⟨x, y, hx, hy, hpp, rfl⟩ := pipeTaskRun_cases hrun
  simp only [Function.update_self] at hx hy
  rw [← hv'] at hx
  refine ⟨v, s, s', x, y, hv', hput', hs', hx, ?_, hpp, ?_⟩
  · exact ⟨hy.1, hy.2, hy.3, hy.4, hy.5, hy.6, hy.7, hy.8⟩
  · simp [fenceGet, modFence]

theorem limaFenceCreate_cases {allocOk : Bool} {f : FenceId}
    (h : d.limaFenceCreate allocOk = some (d', f)) :
    allocOk = true ∧ f = d.numFences ∧ d' = { d with
      fence := Function.update d.fence d.numFences .fresh
      numFences := d.numFences + 1 } := by
  unfold limaFenceCreate at h
  split at h
  · rename_i hok
    obtain ⟨rfl, rfl⟩ := Prod.mk.inj (Option.some.inj h)
    exact ⟨hok, rfl, rfl⟩
  · cases h

theorem limaSchedRunJob_cases {env : RunEnv} {t : TaskId} {r : Option FenceId}
    (h : d.limaSchedRunJob env t = .ok (d', r)) :
    (r = none ∧ ((d.task t).finishedError.isSome = true ∨
        (env.fenceOk && env.pmOk) = false) ∧
      ∃ fence n, (∀ f, f < d.numFences → fence f = d.fence f) ∧
        (∀ f, d.numFences ≤ f → (fence f).cb = none ∨ fence f = d.fence f) ∧
        (∀ f, d.numFences ≤ f → f < n → (fence f).driverRefs = 0) ∧
        d.numFences ≤ n ∧ d' = { d with
          fence := fence
          numFences := n }) ∨
    r = some d.numFences ∧ (d.task t).finishedError = none ∧
      (env.fenceOk = true ∧ env.pmOk = true) ∧
      ∃ v s s' x y, (d.task t).vm = some v ∧
        limaVmPut d.sys (d.pipe (d.task t).pipe).currentVm = .ok s ∧
        limaVmGet s v = .ok s' ∧
        { d.task t with fence := some d.numFences }.SameButHeap x ∧
        ((d.pipe (d.task t).pipe).switch t v).SameControl y ∧
        ((d.task t).pipe = .pp → y.task = y.running) ∧ d' = { d with
          sys := s'
          vmReleased := addRelease s (d.pipe (d.task t).pipe).currentVm d.vmReleased
          task := Function.update d.task t x
          pipe := Function.update d.pipe (d.task t).pipe y
          fence := Function.update d.fence d.numFences ⟨false, none, none, 2⟩
          numFences := d.numFences + 1
          pm := d.pm + 1 } := by
  unfold limaSchedRunJob at h
  split at h
  · rename_i herr
    obtain ⟨rfl, rfl⟩ := Prod.mk.inj (Outcome.ok.inj h)
    exact .inl ⟨rfl, .inl herr, d.fence, d.numFences, fun _ _ => rfl, fun _ _ => .inr rfl,
      fun f hf hlt => absurd hlt (not_lt.mpr hf), le_rfl, rfl⟩
  rename_i herr
  split at h
  · rename_i hcreate
    obtain ⟨rfl, rfl⟩ := Prod.mk.inj (Outcome.ok.inj h)
    have hfence : env.fenceOk = false := by simpa [limaFenceCreate] using hcreate
    exact .inl ⟨rfl, .inr (by simp [hfence]), d.fence, d.numFences, fun _ _ => rfl,
      fun _ _ => .inr rfl, fun f hf hlt => absurd hlt (not_lt.mpr hf), le_rfl, rfl⟩
  rename_i d₂ f hcreate
  obtain ⟨hfence, rfl, rfl⟩ := limaFenceCreate_cases hcreate
  split at h
  · rename_i hpm
    obtain ⟨rfl, rfl⟩ := Prod.mk.inj (Outcome.ok.inj h)
    refine .inl ⟨rfl, .inr (by simp_all), _, _, fun f hf => ?_, fun f hf => ?_,
      fun f hf hlt => ?_, Nat.le_succ _, rfl⟩
    · simp [hf.ne]
    · by_cases hnew : f = d.numFences
      · subst hnew
        simp [Fence.fresh]
      · simp [hnew]
    · obtain rfl : f = d.numFences := Nat.le_antisymm (Nat.lt_succ_iff.mp hlt) hf
      simp [Fence.fresh]
  · rename_i hpm
    obtain ⟨d₃, hstart, hres⟩ := Outcome.bind_eq_ok h
    obtain ⟨rfl, rfl⟩ := Prod.mk.inj (Outcome.ok.inj hres)
    obtain ⟨v, s, s', x, y, hv, hput, hget, hx, hy, hpp, rfl⟩ := startJob_cases hstart
    refine .inr ⟨rfl, by simpa using herr, ⟨hfence, by simpa using hpm⟩, v, s, s', x, y,
      hv, hput, hget, hx, hy, hpp, ?_⟩
    simp [fenceGet, modFence, addPm, Fence.fresh]

/-- A fence just created is attached to its job. -/
theorem jobReturned_attach {t : TaskId} {f : FenceId}
    (h : d.fence f = ⟨false, none, none, 2⟩) :
    d.jobReturned t (some f) = { d with
      fence := Function.update d.fence f ⟨false, none, some t, 1⟩ } := by
  simp [jobReturned, fencePut, modFence, h]

/-- A job that is run gives up, or is started. -/
theorem dispatch_cases {env : RunEnv} {t : TaskId} (h : d.dispatch env t = .ok d') :
    GaveUp env t d d' ∨ Started env t d d' := by
  obtain ⟨⟨d₁, r⟩, hrun, hd⟩ := Outcome.bind_eq_ok h
  obtain rfl := Outcome.ok.inj hd
  have htask : (d.markPending env t).task t = { d.task t with
      state := .pending
      undispatched := (d.task t).undispatched ||
        ((d.task t).finishedError.isNone && !(env.fenceOk && env.pmOk)) } := by
    simp [markPending]
  obtain ⟨rfl, hreason, fence, n, hlt, hge, hput, hn, rfl⟩ | ⟨rfl, herr, henv, v, s, s', x, y, hv,
    hput, hget, hx, hy, hpp, rfl⟩ := limaSchedRunJob_cases hrun
  · left
    rw [htask] at hreason
    refine ⟨hreason, ?_, hlt, hge, hput, hn, rfl⟩
    simp [jobReturned, jobDone, markPending, modTask]
  · right
    rw [htask] at herr hv hput hx hy hpp
    dsimp only
    rw [jobReturned_attach (by simp), Function.update_idem]
    refine ⟨herr, henv, ⟨v, s, hv, hput, hget, ?_, ?_⟩, fun q hq => ?_, fun hp => ?_,
      ⟨x, ?_, ?_⟩, rfl, rfl, rfl, ?_⟩
    · rw [htask]
      rfl
    · simp only [htask, Function.update_self]
      exact hy
    · rw [htask]
      exact Function.update_of_ne hq _ _
    · rw [htask]
      simpa [hp] using hpp hp
    · have hundispatched : ((d.task t).undispatched ||
          ((d.task t).finishedError.isNone && !(env.fenceOk && env.pmOk))) =
          (d.task t).undispatched := by simp [henv]
      rw [hundispatched] at hx
      exact hx
    · simp [markPending, modTask]
    · rfl

end Dev

/-! ## Growing a heap -/

/-- The reference counts of address spaces and the lists of mappings are the
same. -/
structure Sys.SameCounts (s s' : Sys) : Prop where
  refs : ∀ v, (s'.vm v).map Vm.refcount = (s.vm v).map Vm.refcount
  va : ∀ b, (s'.bo b).va = (s.bo b).va
  numVms : s'.numVms = s.numVms

theorem Sys.SameCounts.refl (s : Sys) : s.SameCounts s :=
  ⟨fun _ => rfl, fun _ => rfl, rfl⟩

theorem limaHeapAlloc_counts {initNrPages : ℕ} {env : HeapEnv} {fuel : ℕ}
    {s s' : Sys} {b : BoId} {vm : Option VmId} {r : Option Errno}
    (h : limaHeapAlloc initNrPages env fuel s b vm = .ok (s', r)) :
    s.SameCounts s' := by
  have hbo : ∀ {s₁ : Sys} {bo : Bo}, s.SameCounts s₁ → bo.va = (s.bo b).va →
      s.SameCounts (s₁.setBo b bo) := by
    intro s₁ bo hs hva
    refine ⟨hs.refs, fun c => ?_, hs.numVms⟩
    by_cases hc : c = b
    · subst hc
      simpa using hva
    · simpa [hc] using hs.va c
  obtain ⟨e, -, rfl, -⟩ | ⟨-, bo, hread, hcase⟩ := limaHeapAlloc_cases h
  · exact .refl _
  have hva : bo.va = (s.bo b).va := by rw [hread.same]
  obtain ⟨e, -, rfl | rfl⟩ | ⟨-, -, rfl⟩ | ⟨v, s₁, -, hmap, hres⟩ := hcase
  · exact hbo (.refl s) hva
  · exact hbo (.refl s) hva
  · exact hbo (.refl s) hva
  · have hwt : s.SameCounts (s.setBo b (bo.withTable ((s.bo b).grownSize initNrPages))) :=
      hbo (.refl s) hva
    have hs₁ : s.SameCounts s₁ := by
      refine ⟨fun w => ?_, fun c => ?_, (limaVmMapBo_movesOne hmap).1⟩
      · exact (limaVmMapBo_movesOne hmap).refs w
      · obtain ⟨-, -, rfl⟩ | ⟨x, vm, pas, vm', offset, -, -, -, ⟨-, -, rfl⟩ |
          ⟨e, vm'', -, -, -, rfl⟩⟩ := limaVmMapBo_cases hmap
        · exact hwt.va c
        · exact hwt.va c
        · exact hwt.va c
    obtain ⟨-, rfl⟩ | ⟨-, rfl⟩ := hres
    · exact hbo hs₁ hva
    · exact hbo hs₁ hva

/-! ## Steps that neither start nor retire a job -/

/-- The pipe is released or gone. -/
def Pipe.Done (x : Pipe) : Prop := x.fini = .released ∨ x.fini = .stopped

/-- The scheduler of the pipe is stopped for a timeout. -/
def Pipe.Held (x : Pipe) : Prop :=
  ∃ t pc, x.timedout = some (t, pc) ∧ pc ≠ .resubmitted

structure Pipe.Quiet (x x' : Pipe) : Prop where
  currentTask : x'.currentTask = x.currentTask
  currentVm : x'.currentVm = x.currentVm
  mmuDte : ∀ i, x'.mmuDte i = none ∨ x'.mmuDte i = x.mmuDte i
  running : x'.running ≤ x.running
  cleared : ∀ t, x'.timedout = some (t, .cleared) → x.timedout = some (t, .cleared)
  done : x'.Done → x.Done
  checked : ∀ t, x'.fini = .checked (some t) →
    x.fini = .checked (some t) ∨ x.currentTask = some t

/-- A step that keeps what the pipes run and what the tasks and fences have come
to. -/
structure Dev.Quiet (d d' : Dev) : Prop where
  task : ∀ t, (d.task t).SameButHeap (d'.task t)
  numTasks : d'.numTasks = d.numTasks
  signaled : ∀ f, (d'.fence f).signaled = (d.fence f).signaled
  error : ∀ f, (d'.fence f).error = (d.fence f).error
  cb : ∀ f, (d'.fence f).cb = none ∨ (d'.fence f).cb = (d.fence f).cb
  driverRefs : ∀ f, (d'.fence f).driverRefs = (d.fence f).driverRefs
  numFences : d'.numFences = d.numFences
  pm : d'.pm = d.pm
  pipe : ∀ p, (d.pipe p).Quiet (d'.pipe p)
  ppCount : (d'.pipe .pp).error = false → (d.pipe .pp).error = false ∧
    ((d.pipe .pp).running ≤ (d.pipe .pp).task →
      (d'.pipe .pp).running ≤ (d'.pipe .pp).task)
  held : ∀ p, (d'.pipe p).Held → (d.pipe p).Held ∨
    ∀ f t, (d'.fence f).cb = some t → (d'.task t).pipe ≠ p
  file : d'.file = d.file
  submit : d'.submit = d.submit
  vmReleased : d'.vmReleased = d.vmReleased
  sys : d.sys.SameCounts d'.sys

/-- A change that leaves the pipe's task, address space and stages alone. -/
theorem Pipe.Quiet.same {x x' : Pipe} (hc : x'.currentTask = x.currentTask)
    (hv : x'.currentVm = x.currentVm) (hm : x'.mmuDte = x.mmuDte)
    (ht : x'.timedout = x.timedout) (hf : x'.fini = x.fini) (hr : x'.running ≤ x.running) :
    x.Quiet x' where
  currentTask := hc
  currentVm := hv
  mmuDte i := .inr (congrFun hm i)
  running := hr
  cleared _ h := ht ▸ h
  done h := by
    unfold Pipe.Done at *
    rwa [hf] at h
  checked _ h := .inl (hf ▸ h)

theorem Pipe.Quiet.refl (x : Pipe) : x.Quiet x := .same rfl rfl rfl rfl rfl le_rfl

theorem Task.SameButHeap.refl (x : Task) : x.SameButHeap x := rfl

namespace Dev

variable {d d' : Dev}

/-- A step that changes one pipe. -/
theorem Quiet.modPipe {p : PipeId} {g : Pipe → Pipe} (h : (d.pipe p).Quiet (g (d.pipe p)))
    (hpp : p = .pp → (g (d.pipe .pp)).error = false → (d.pipe .pp).error = false ∧
      ((d.pipe .pp).running ≤ (d.pipe .pp).task →
        (g (d.pipe .pp)).running ≤ (g (d.pipe .pp)).task))
    (hheld : (g (d.pipe p)).Held → (d.pipe p).Held ∨
      ∀ f t, (d.fence f).cb = some t → (d.task t).pipe ≠ p) :
    d.Quiet (d.modPipe p g) where
  task _ := rfl
  numTasks := rfl
  signaled _ := rfl
  error _ := rfl
  cb _ := .inr rfl
  driverRefs _ := rfl
  numFences := rfl
  pm := rfl
  pipe q := by
    by_cases hq : q = p
    · subst hq
      simpa using h
    · rw [modPipe_pipe_ne d hq]
      exact .refl _
  ppCount := by
    by_cases hp : p = .pp
    · subst hp
      simpa using hpp rfl
    · rw [modPipe_pipe_ne d (Ne.symm hp)]
      exact fun he => ⟨he, fun hle => hle⟩
  held q := by
    by_cases hq : q = p
    · subst hq
      simpa using hheld
    · rw [modPipe_pipe_ne d hq]
      exact .inl
  file := rfl
  submit := rfl
  vmReleased := rfl
  sys := .refl _

/-- A step that changes the frame or `recoverable` of one task. -/
theorem Quiet.modTask {t : TaskId} {g : Task → Task}
    (h : (d.task t).SameButHeap (g (d.task t))) : d.Quiet (d.modTask t g) where
  task u := by
    by_cases hu : u = t
    · subst hu
      simpa using h
    · rw [modTask_task_ne d hu]
      exact .refl _
  numTasks := rfl
  signaled _ := rfl
  error _ := rfl
  cb _ := .inr rfl
  driverRefs _ := rfl
  numFences := rfl
  pm := rfl
  pipe _ := .refl _
  ppCount he := ⟨he, fun hle => hle⟩
  held _ := .inl
  file := rfl
  submit := rfl
  vmReleased := rfl
  sys := .refl _

theorem Quiet.setSys {s : Sys} (h : d.sys.SameCounts s) : d.Quiet (d.setSys s) where
  task _ := rfl
  numTasks := rfl
  signaled _ := rfl
  error _ := rfl
  cb _ := .inr rfl
  driverRefs _ := rfl
  numFences := rfl
  pm := rfl
  pipe _ := .refl _
  ppCount he := ⟨he, fun hle => hle⟩
  held _ := .inl
  file := rfl
  submit := rfl
  vmReleased := rfl
  sys := h

theorem Quiet.refl (d : Dev) : d.Quiet d := .setSys (.refl _)

/-- Detaching the jobs of a pipe. -/
theorem Quiet.drmSchedStop (p : PipeId) : d.Quiet (d.drmSchedStop p) := by
  have hfence : ∀ f, (d.drmSchedStop p).fence f = d.fence f ∨
      (d.drmSchedStop p).fence f = { d.fence f with cb := none } := by
    intro f
    simp only [Dev.drmSchedStop]
    split
    · exact .inl rfl
    · split
      · exact .inr rfl
      · exact .inl rfl
  refine ⟨fun _ => rfl, rfl, fun f => ?_, fun f => ?_, fun f => ?_, fun f => ?_, rfl, rfl,
    fun _ => .refl _, fun he => ⟨he, fun hle => hle⟩, fun _ => .inl, rfl, rfl, rfl, .refl _⟩
  all_goals rcases hfence f with h | h <;> simp [h]

theorem drmSchedStop_cb (p : PipeId) {f : FenceId} {t : TaskId}
    (h : ((d.drmSchedStop p).fence f).cb = some t) : (d.task t).pipe ≠ p := by
  intro hp
  simp only [drmSchedStop] at h
  split at h
  · rename_i hcb
    rw [hcb] at h
    cases h
  · rename_i u hcb
    split at h
    · cases h
    · rename_i hu
      rw [hcb] at h
      obtain rfl := Option.some.inj h
      exact hu hp

theorem Quiet.trans {d₁ d₂ d₃ : Dev} (h : d₁.Quiet d₂) (h' : d₂.Quiet d₃) :
    d₁.Quiet d₃ where
  task t := by
    have h₁ := h.task t
    have h₂ := h'.task t
    unfold Task.SameButHeap at *
    rw [h₂, h₁]
  numTasks := h'.numTasks.trans h.numTasks
  signaled f := (h'.signaled f).trans (h.signaled f)
  error f := (h'.error f).trans (h.error f)
  cb f := by
    rcases h'.cb f with h₂ | h₂
    · exact .inl h₂
    · rw [h₂]
      exact h.cb f
  driverRefs f := (h'.driverRefs f).trans (h.driverRefs f)
  numFences := h'.numFences.trans h.numFences
  pm := h'.pm.trans h.pm
  pipe p :=
    { currentTask := (h'.pipe p).currentTask.trans (h.pipe p).currentTask
      currentVm := (h'.pipe p).currentVm.trans (h.pipe p).currentVm
      mmuDte := fun i => by
        rcases (h'.pipe p).mmuDte i with h₂ | h₂
        · exact .inl h₂
        · rw [h₂]
          exact (h.pipe p).mmuDte i
      running := (h'.pipe p).running.trans (h.pipe p).running
      cleared := fun t hc => (h.pipe p).cleared t ((h'.pipe p).cleared t hc)
      done := fun hd => (h.pipe p).done ((h'.pipe p).done hd)
      checked := fun t ht => by
        rcases (h'.pipe p).checked t ht with h₂ | h₂
        · exact (h.pipe p).checked t h₂
        · exact .inr ((h.pipe p).currentTask.symm.trans h₂) }
  ppCount he := by
    obtain ⟨he₂, hle₂⟩ := h'.ppCount he
    obtain ⟨he₁, hle₁⟩ := h.ppCount he₂
    exact ⟨he₁, fun hle => hle₂ (hle₁ hle)⟩
  held p hh := by
    rcases h'.held p hh with h₂ | h₂
    · rcases h.held p h₂ with h₁ | h₁
      · exact .inl h₁
      · refine .inr fun f t hcb => ?_
        have hpipe : (d₃.task t).pipe = (d₂.task t).pipe := by rw [h'.task t]
        rw [hpipe]
        rcases h'.cb f with hnone | hsame
        · rw [hnone] at hcb
          cases hcb
        · exact h₁ f t (hsame ▸ hcb)
    · exact .inr h₂
  file := h'.file.trans h.file
  submit := h'.submit.trans h.submit
  vmReleased := h'.vmReleased.trans h.vmReleased
  sys :=
    { refs := fun v => (h'.sys.refs v).trans (h.sys.refs v)
      va := fun b => (h'.sys.va b).trans (h.sys.va b)
      numVms := h'.sys.numVms.trans h.sys.numVms }

end Dev

end Lima
