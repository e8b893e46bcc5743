import Lima.Sched.VmBalance
import Lima.Sched.HeapRecover

/-!
# What the scheduler does to objects

Jobs, interrupts and the teardown of a pipe leave the GEM references alone until a job is
freed. Of the address spaces they put and get references and grow heaps; the heap that is
grown is one a dispatch has found to have a size.
-/

namespace Lima

namespace Dev

variable {d d₁ d' : Dev}

/-! ## The heap of a task -/

/-- The buffer objects are the same, and a task that has a heap had it or has found it to
have a size. -/
structure HeapFrom (d d' : Dev) : Prop where
  bo : d'.sys.bo = d.sys.bo
  heap : ∀ u b, (d'.task u).heap = some b →
    (d.task u).heap = some b ∨ (d.sys.bo b).heapSize ≠ 0

namespace HeapFrom

theorem trans (h : HeapFrom d d₁) (h' : HeapFrom d₁ d') : HeapFrom d d' := by
  refine ⟨h'.bo.trans h.bo, fun u b hb => ?_⟩
  rcases h'.heap u b hb with hold | hsize
  · exact h.heap u b hold
  · rw [h.bo] at hsize
    exact .inr hsize

theorem of_task (hbo : d'.sys.bo = d.sys.bo) (h : ∀ u, (d'.task u).heap = (d.task u).heap) :
    HeapFrom d d' :=
  ⟨hbo, fun u b hb => .inl (h u ▸ hb)⟩

theorem modTask {t : TaskId} {g : Task → Task} (hg : (g (d.task t)).heap = (d.task t).heap) :
    HeapFrom d (d.modTask t g) := by
  refine of_task rfl fun u => ?_
  rw [modTask_task]
  split
  · rename_i hu
    rw [hu, hg]
  · rfl

theorem vmPut {v : Option VmId} (h : d.vmPut v = .ok d') : HeapFrom d d' := by
  obtain ⟨s, hs, rfl⟩ := vmPut_cases h
  exact of_task (limaVmPut_frame hs).1 fun _ => rfl

theorem vmGet {v : Option VmId} (h : d.vmGet v = .ok d') : HeapFrom d d' := by
  obtain ⟨w, s, -, hs, rfl⟩ := vmGet_cases h
  exact of_task (limaVmGet_frame hs).1 fun _ => rfl

theorem pipeTaskRun {resetOk : Bool} {t : TaskId} {v : VmId} {p : PipeId}
    (h : d.pipeTaskRun resetOk t v p = .ok d') : HeapFrom d d' := by
  cases p with
  | pp =>
      obtain rfl := Outcome.ok.inj h
      exact of_task rfl fun _ => rfl
  | gp =>
      obtain ⟨x, hpatch, hd⟩ := Outcome.bind_eq_ok h
      obtain rfl := Outcome.ok.inj hd
      refine ⟨rfl, fun u b hb => ?_⟩
      by_cases hu : u = t
      · subst hu
        have hx : x.heap = some b := by simpa using hb
        obtain rfl | ⟨c, -, y, -, hsize, -, rfl⟩ := patchHeap_spec hpatch
        · exact .inl hx
        · obtain rfl := Option.some.inj hx
          exact .inr hsize
      · exact .inl (by simpa [Dev.modTask, hu] using hb)

theorem startJob {resetOk : Bool} {t : TaskId} {f : FenceId}
    (h : d.startJob resetOk t f = .ok d') : HeapFrom d d' := by
  unfold Dev.startJob at h
  obtain ⟨d₁, hput, h⟩ := Outcome.bind_eq_ok h
  obtain ⟨d₂, hget, h⟩ := Outcome.bind_eq_ok h
  have hfence : HeapFrom d (d.modTask t fun task => { task with fence := some f }) :=
    modTask rfl
  have hcurrent := (vmPut hput).trans (vmGet hget)
  have hstart : HeapFrom d d₂ := hfence.trans ⟨hcurrent.bo, hcurrent.heap⟩
  split at h
  · cases h
  · have hrun := pipeTaskRun h
    exact hstart.trans ⟨hrun.bo, hrun.heap⟩

theorem jobDone (d : Dev) (t : TaskId) (err : Option Errno) : HeapFrom d (d.jobDone t err) := by
  unfold Dev.jobDone
  exact modTask rfl

theorem jobReturned (d : Dev) (t : TaskId) (r : Option FenceId) :
    HeapFrom d (d.jobReturned t r) := by
  cases r with
  | none => exact jobDone d t none
  | some f =>
      obtain ⟨fence, hput⟩ := d.fencePut_fence (some f)
      simp only [Dev.jobReturned, hput]
      split
      · have hdone := jobDone { d with fence := fence } t (fence f).error
        exact ⟨hdone.bo, hdone.heap⟩
      · exact of_task rfl fun _ => rfl

/-- **Dispatch** finds the heap of a task among its objects, by its size. -/
theorem dispatch {env : RunEnv} {t : TaskId} (h : d.dispatch env t = .ok d') :
    HeapFrom d d' := by
  obtain ⟨⟨d₁, r⟩, hrun, hd⟩ := Outcome.bind_eq_ok h
  obtain rfl := Outcome.ok.inj hd
  have hpending : HeapFrom d (d.markPending env t) := modTask rfl
  refine (hpending.trans ?_).trans (jobReturned d₁ t r)
  unfold limaSchedRunJob at hrun
  split at hrun
  · obtain ⟨rfl, -⟩ := Prod.mk.inj (Outcome.ok.inj hrun)
    exact of_task rfl fun _ => rfl
  split at hrun
  · obtain ⟨rfl, -⟩ := Prod.mk.inj (Outcome.ok.inj hrun)
    exact of_task rfl fun _ => rfl
  rename_i d₂ f hcreate
  obtain ⟨-, rfl, rfl⟩ := limaFenceCreate_cases hcreate
  split at hrun
  · obtain ⟨rfl, -⟩ := Prod.mk.inj (Outcome.ok.inj hrun)
    exact of_task rfl fun _ => rfl
  · obtain ⟨d₃, hstart, hres⟩ := Outcome.bind_eq_ok hrun
    obtain ⟨rfl, -⟩ := Prod.mk.inj (Outcome.ok.inj hres)
    have hjob := startJob hstart
    exact ⟨hjob.bo, hjob.heap⟩

end HeapFrom

/-! ## The address spaces -/

/-- How a step other than freeing a job moves the address spaces: not at all, by a put and
a get for a pipe, or by growing the heap of the task a recovery works on. -/
inductive SchedSys (cfg : DevConfig) (e : DevEvent) (d d' : Dev) : Prop
  | same : d'.sys = d.sys → SchedSys cfg e d d'
  | puts {p : PipeId} : limaVmPut d.sys (d.pipe p).currentVm = .ok d'.sys →
      SchedSys cfg e d d'
  | switches {p : PipeId} {t : TaskId} {v : VmId} {s : Sys} :
      (d.task t).state.pushed = true → (d.task t).vm = some v →
      limaVmPut d.sys (d.pipe p).currentVm = .ok s → limaVmGet s v = .ok d'.sys →
      SchedSys cfg e d d'
  | grows {p : PipeId} {env : HeapEnv} {fuel : ℕ} {w : RecoverWork} {t : TaskId} {b : BoId}
      {r : Option Errno} : e = .recoverEnd p env fuel →
      (d.pipe p).recoverRunning = some (w, t) → (d.task t).heap = some b →
      limaHeapAlloc cfg.vm.initNrPages env fuel d.sys b (d.task t).vm = .ok (d'.sys, r) →
      SchedSys cfg e d d'

/-- A step of the scheduler and the hardware that frees no job. -/
structure SchedFrame (cfg : DevConfig) (e : DevEvent) (d d' : Dev) : Prop where
  gem : d'.gemRef = d.gemRef
  keeps : d.KeepsRefs d'
  heap : ∀ u b, (d'.task u).heap = some b →
    (d.task u).heap = some b ∨ (d.sys.bo b).heapSize ≠ 0
  sys : SchedSys cfg e d d'

namespace SchedFrame

variable {cfg : DevConfig} {e : DevEvent}

/-- One task has changed, but neither its heap nor what it holds. -/
theorem of_update {t : TaskId} {x : Task} (htask : d'.task = Function.update d.task t x)
    (hx : (d.task t).KeepsRefs x) (hheap : x.heap = (d.task t).heap)
    (hgem : d'.gemRef = d.gemRef)
    (hrest : d'.file = d.file ∧ d'.submit = d.submit ∧ d'.numTasks = d.numTasks)
    (hsys : SchedSys cfg e d d') : SchedFrame cfg e d d' where
  gem := hgem
  keeps := VmBalance.keeps_task htask hx hrest.1 hrest.2.1 hrest.2.2
  heap u b hb := by
    rw [htask] at hb
    by_cases hu : u = t
    · subst hu
      rw [Function.update_self, hheap] at hb
      exact .inl hb
    · rw [Function.update_of_ne hu] at hb
      exact .inl hb
  sys := hsys

/-- The tasks are as they were. -/
theorem of_eq (htask : d'.task = d.task) (hgem : d'.gemRef = d.gemRef)
    (hrest : d'.file = d.file ∧ d'.submit = d.submit ∧ d'.numTasks = d.numTasks)
    (hsys : SchedSys cfg e d d') : SchedFrame cfg e d d' := by
  refine of_update (t := 0) (x := d.task 0) ?_ ⟨.inl rfl, rfl, rfl⟩ rfl hgem hrest hsys
  rw [htask, Function.update_eq_self]

theorem modPipe (d : Dev) (p : PipeId) (g : Pipe → Pipe) :
    SchedFrame cfg e d (d.modPipe p g) :=
  of_eq rfl rfl ⟨rfl, rfl, rfl⟩ (.same rfl)

theorem fenceSignal (hd : SchedFrame cfg e d d₁) (fo : Option FenceId) :
    SchedFrame cfg e d (d₁.fenceSignal fo) where
  gem := by
    rw [← hd.gem]
    obtain heq | ⟨f, task, -, -, heq, -⟩ := d₁.fenceSignal_cases fo <;> rw [heq]
  keeps := hd.keeps.trans (VmBalance.keeps_fenceSignal d₁ fo)
  heap u b hb := by
    rw [fenceSignal_task] at hb
    exact hd.heap u b hb
  sys := by
    have hsys := fenceSignal_sys d₁ fo
    cases hd.sys with
    | same h => exact .same (hsys.trans h)
    | puts h => exact .puts (hsys ▸ h)
    | switches hst hv hput hget => exact .switches hst hv hput (hsys ▸ hget)
    | grows he hr hb h => exact .grows he hr hb (hsys ▸ h)

theorem complete (d : Dev) (p : PipeId) (g : Pipe → Pipe) (t : TaskId) :
    SchedFrame cfg e d ((d.modPipe p g).complete t) := by
  have hdone : SchedFrame cfg e d
      ((d.modPipe p g).modTask t fun task => { task with hwDone := true }) :=
    of_update rfl ⟨.inl rfl, rfl, rfl⟩ rfl rfl ⟨rfl, rfl, rfl⟩ (.same rfl)
  have h := hdone.fenceSignal ((d.modPipe p g).task t).fence
  refine ⟨h.gem, ⟨h.keeps.file, h.keeps.submit, h.keeps.numTasks, h.keeps.task⟩, h.heap,
    .same ?_⟩
  simp [Dev.complete, addPm]

theorem dispatched {t : TaskId} {env : RunEnv} (hst : (d.task t).state.pushed = true)
    (hd : d.dispatch env t = .ok d') : SchedFrame cfg e d d' := by
  have hheap := (HeapFrom.dispatch hd).heap
  rcases dispatch_cases hd with hg | hs
  · have hk : d.KeepsRefs d' := VmBalance.keeps_task hg.task ⟨.inr ⟨hst, rfl⟩, rfl, rfl⟩
      (by rw [hg.rest]) (by rw [hg.rest]) (by rw [hg.rest])
    exact ⟨by rw [hg.rest], hk, hheap, .same (by rw [hg.rest])⟩
  · obtain ⟨v, s, hv, hput, hget, -, -⟩ := hs.refs
    obtain ⟨x, hx, htask⟩ := hs.task
    have hk : d.KeepsRefs d' :=
      VmBalance.keeps_task htask ⟨.inr ⟨hst, by rw [hx.state]; rfl⟩, hx.vm, hx.bos⟩
        (by rw [hs.rest]) (by rw [hs.rest]) (by rw [hs.rest])
    exact ⟨by rw [hs.rest], hk, hheap, .switches hst hv hput hget⟩

theorem gpIrq {st : GpIntStat} {active : Bool}
    (h : (gpReport d st active).limaGpIrqHandler st active = .ok d') :
    SchedFrame cfg e d d' := by
  obtain rfl | ⟨-, d₁, hd₁, rfl⟩ | ⟨-, t, -, -, rfl⟩ | ⟨-, rfl⟩ | ⟨-, -, t, -, -, rfl⟩ :=
    gpIrq_cases h
  · exact of_eq rfl rfl ⟨rfl, rfl, rfl⟩ (.same rfl)
  · obtain rfl | ⟨t, -, rfl⟩ := hd₁
    · exact modPipe _ _ _
    · exact of_update (t := t) rfl ⟨.inl rfl, rfl, rfl⟩ rfl rfl ⟨rfl, rfl, rfl⟩ (.same rfl)
  · exact of_eq rfl rfl ⟨rfl, rfl, rfl⟩ (.same rfl)
  · exact modPipe _ _ _
  · exact complete _ _ _ t

theorem ppIrq {error last : Bool} (h : (ppReport d last).limaPpIrqHandler error = .ok d') :
    SchedFrame cfg e d d' := by
  obtain rfl | ⟨t, rfl⟩ | ⟨-, -, t, -, -, rfl⟩ := ppIrq_cases h
  · exact modPipe _ _ _
  · exact of_eq rfl rfl ⟨rfl, rfl, rfl⟩ (.same rfl)
  · exact complete _ _ _ t

theorem mmuIrq {p : PipeId} (h : d.limaSchedPipeMmuError p = .ok d') :
    SchedFrame cfg e d d' := by
  obtain ⟨g, -, rfl | ⟨t, -, -, rfl⟩⟩ := mmuIrq_cases h
  · exact modPipe _ _ _
  · exact of_eq rfl rfl ⟨rfl, rfl, rfl⟩ (.same rfl)

/-- **Recovery** grows the heap of the task it has read, or nothing. -/
theorem recoverEnd {p : PipeId} {env : HeapEnv} {fuel : ℕ} {w : RecoverWork} {t : TaskId}
    (he : e = .recoverEnd p env fuel) (hr : (d.pipe p).recoverRunning = some (w, t))
    (h : d.recoverEnd cfg.vm.initNrPages env fuel p t = .ok d') : SchedFrame cfg e d d' := by
  obtain ⟨⟨d₁, r⟩, hres, hd⟩ := Outcome.bind_eq_ok h
  obtain rfl := Outcome.ok.inj hd
  obtain ⟨b, s, hb, hgrow, hend⟩ := recoverResume_cases hres
  have hsys : d.sys = s ∨ limaHeapAlloc cfg.vm.initNrPages env fuel d.sys b (d.task t).vm =
      .ok (s, r) := by
    obtain ⟨-, hgrow⟩ | ⟨-, rfl, -⟩ := hgrow
    · exact .inr hgrow
    · exact .inl rfl
  have hgrows : ∀ d' : Dev, d'.sys = s → SchedSys cfg e d d' := by
    rintro d' rfl
    rcases hsys with hsame | hgrow
    · exact .same hsame.symm
    · exact .grows he hr hb hgrow
  obtain ⟨-, rfl⟩ | ⟨-, rfl⟩ := hend
  · exact of_eq rfl rfl ⟨rfl, rfl, rfl⟩ (hgrows _ rfl)
  · exact of_update (t := t) rfl ⟨.inl rfl, rfl, rfl⟩ rfl rfl ⟨rfl, rfl, rfl⟩ (hgrows _ rfl)

theorem timedoutResubmit {p : PipeId} {t u : TaskId} {cancel : Bool} {env : RunEnv}
    (hu : d.Unfinished p u) (h : d.timedoutResubmit p t u cancel env = .ok d') :
    SchedFrame cfg e d d' := by
  obtain ⟨d₁, hrun, hd⟩ := Outcome.bind_eq_ok h
  obtain rfl := Outcome.ok.inj hd
  have hst : ((cancelled u cancel d).task u).state.pushed = true := by
    simp [cancelled, hu.1, TaskState.pushed]
  have hsame : ∀ w, (cancelled u cancel d).task w = { d.task w with
      finishedError := ((cancelled u cancel d).task w).finishedError } := by
    intro w
    rw [cancelled, modTask_task]
    split <;> rfl
  have hcancel : SchedFrame cfg e d (cancelled u cancel d) :=
    of_update rfl ⟨.inl rfl, rfl, rfl⟩ rfl rfl ⟨rfl, rfl, rfl⟩ (.same rfl)
  have hd₁ : SchedFrame cfg e (cancelled u cancel d) d₁ := dispatched hst hrun
  have hk := hcancel.keeps.trans hd₁.keeps
  refine ⟨hd₁.gem, ⟨hk.file, hk.submit, hk.numTasks, hk.task⟩, fun w b hb => ?_, ?_⟩
  · refine (hd₁.heap w b hb).imp_left fun hold => ?_
    rwa [hsame] at hold
  · cases hd₁.sys with
    | same h => exact .same h
    | puts h => exact .puts h
    | switches hpushed hv hput hget =>
        rw [hsame] at hpushed hv
        exact .switches hpushed hv hput hget
    | grows he hr hb hgrow =>
        rw [hsame] at hb hgrow
        exact .grows he hr hb hgrow

theorem finiRelease {p : PipeId} {resetOk : Bool} {task : Option TaskId}
    (h : d.finiRelease p resetOk task = .ok d') : SchedFrame cfg e d d' := by
  obtain ⟨-, -, rfl⟩ | ⟨s, x, hput, -, -, d₁, hd₁, hd⟩ := finiRelease_cases h
  · exact modPipe _ _ _
  have hclear : SchedFrame cfg e d d₁ := by
    rw [hd₁]
    exact of_eq rfl rfl ⟨rfl, rfl, rfl⟩ (.puts hput)
  obtain ⟨-, rfl⟩ | ⟨t, -, -, rfl⟩ := hd
  · exact hclear
  · obtain ⟨fence, heq, -⟩ := d₁.fenceSetError_frame .enodev (d.task t).fence
    have herror : SchedFrame cfg e d (d₁.fenceSetError .enodev (d.task t).fence) := by
      rw [heq, hd₁]
      exact of_eq rfl rfl ⟨rfl, rfl, rfl⟩ (.puts hput)
    exact herror.fenceSignal _

end SchedFrame

/-- **A step of the scheduler** frees a job, or is one that `SchedFrame` describes. -/
theorem schedStep_frame {cfg : DevConfig} {e : DevEvent} (h : schedStep cfg d e = some d') :
    (∃ t fuel, e = .freeJob t fuel ∧ d.CanFree t ∧ limaSchedFreeJob fuel d t = .ok d') ∨
      SchedFrame cfg e d d' := by
  cases e with
  | freeJob t fuel =>
      obtain ⟨hf, hd⟩ := guarded_eq_some h
      exact .inl ⟨t, fuel, rfl, hf, hd⟩
  | runJob t env =>
      obtain ⟨hr, hd⟩ := guarded_eq_some h
      refine .inr (.dispatched ?_ hd)
      rw [hr.1]
      rfl
  | killJob t =>
      obtain ⟨ht, hd⟩ := guarded_eq_some h
      obtain rfl := Outcome.ok.inj hd
      refine .inr (.of_update (t := t) (x := (d.killJob t).task t) ?_ ?_ ?_ rfl ⟨rfl, rfl, rfl⟩
        (.same rfl))
      · simp [Dev.killJob, jobDone, modTask]
      · refine ⟨.inr ⟨by rw [ht]; rfl, ?_⟩, ?_, ?_⟩ <;>
          simp [Dev.killJob, jobDone, modTask, TaskState.pushed]
      · simp [Dev.killJob, jobDone, modTask]
  | gpIrq st active => exact .inr (.gpIrq (guarded_eq_some h).2)
  | ppIrq error last => exact .inr (.ppIrq (guarded_eq_some h).2)
  | mmuIrq p => exact .inr (.mmuIrq (guarded_eq_some h).2)
  | recoverBegin p =>
      obtain ⟨w, -, h⟩ := Option.bind_eq_some_iff.mp h
      obtain ⟨-, t, -, rfl⟩ := recoverBegin_cases (guarded_eq_some h).2
      exact .inr (.modPipe _ _ _)
  | recoverEnd p env fuel =>
      obtain ⟨⟨w, t⟩, hr, h⟩ := Option.bind_eq_some_iff.mp h
      exact .inr (.recoverEnd rfl hr (guarded_eq_some h).2)
  | timedoutBegin p t =>
      obtain ⟨-, hd⟩ := guarded_eq_some h
      obtain rfl := Outcome.ok.inj hd
      exact .inr (.of_eq rfl rfl ⟨rfl, rfl, rfl⟩ (.same rfl))
  | timedoutReset p resetOk faulted =>
      obtain ⟨x, -, h⟩ := Option.bind_eq_some_iff.mp h
      obtain ⟨-, hd⟩ := guarded_eq_some h
      obtain rfl := Outcome.ok.inj hd
      exact .inr (.modPipe _ _ _)
  | timedoutClear p =>
      obtain ⟨x, -, h⟩ := Option.bind_eq_some_iff.mp h
      obtain ⟨s, hput, rfl⟩ := timedoutClear_cases (guarded_eq_some h).2
      exact .inr (.of_eq rfl rfl ⟨rfl, rfl, rfl⟩ (.puts hput))
  | timedoutResubmit p u cancel env =>
      obtain ⟨x, -, h⟩ := Option.bind_eq_some_iff.mp h
      obtain ⟨⟨-, hu⟩, hd⟩ := guarded_eq_some h
      exact .inr (.timedoutResubmit hu hd)
  | timedoutEnd p =>
      obtain ⟨x, -, h⟩ := Option.bind_eq_some_iff.mp h
      obtain ⟨-, hd⟩ := guarded_eq_some h
      obtain rfl := Outcome.ok.inj hd
      exact .inr (.modPipe _ _ _)
  | finiCheck p =>
      obtain ⟨task, -, rfl⟩ := finiCheck_cases (guarded_eq_some h).2
      exact .inr (.modPipe _ _ _)
  | finiRelease p resetOk =>
      simp only [schedStep] at h
      split at h
      · exact .inr (.finiRelease (guarded_eq_some h).2)
      · cases h
  | finiStop p =>
      obtain ⟨-, hd⟩ := guarded_eq_some h
      obtain rfl := Outcome.ok.inj hd
      exact .inr (.of_eq rfl rfl ⟨rfl, rfl, rfl⟩ (.same rfl))
  | _ => cases h

end Dev

end Lima
