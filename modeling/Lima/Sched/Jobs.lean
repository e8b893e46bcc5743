import Lima.Sched.State

/-!
# Running, completing, timing out and freeing jobs

The functions of `lima_sched.c` and the callbacks of the two pipes they reach in
`lima_gp.c` and `lima_pp.c`. What `drm_sched` does with a job around these calls
(finish it, detach it from its hardware fence) is modelled where it is reached.
A longer function is cut where another context can run in between.
-/

namespace Lima

namespace Dev

/-! ## References -/

/-- `lima_vm_get`. -/
def vmGet (d : Dev) : Option VmId → Outcome Dev
  | none => .oops
  | some v => (limaVmGet d.sys v).bind fun s => .ok (d.setSys s)

/-- The releases after a `lima_vm_put` of `v` that has left the address spaces
`s`. -/
def addRelease (s : Sys) (v : Option VmId) (released : List VmId) : List VmId :=
  match v with
  | none => released
  | some v => if (s.vm v).isNone then v :: released else released

/-- `lima_vm_put`, recording the release if it was the last reference. -/
def vmPut (d : Dev) (v : Option VmId) : Outcome Dev :=
  (limaVmPut d.sys v).bind fun s =>
    .ok { d with
      sys := s
      vmReleased := addRelease s v d.vmReleased }

/-- `drm_gem_object_get`. -/
def gemGet (d : Dev) (b : BoId) : Dev :=
  { d with gemRef := Function.update d.gemRef b (d.gemRef b + 1) }

/-- `drm_gem_object_put`. -/
def gemPut (d : Dev) (b : BoId) : Dev :=
  { d with gemRef := Function.update d.gemRef b (d.gemRef b - 1) }

/-- Follow a task pointer. -/
def readTask (d : Dev) (t : TaskId) : Outcome Task :=
  if (d.task t).state = .freed then .oops else .ok (d.task t)

/-- `kmem_cache_free` of a task. -/
def kmemCacheFree (d : Dev) (t : TaskId) : Outcome Dev :=
  (d.readTask t).bind fun _ =>
    .ok (d.modTask t fun task => { task with state := .freed })

/-! ## Fences -/

/-- `lima_fence_create`. -/
def limaFenceCreate (d : Dev) (allocOk : Bool) : Option (Dev × FenceId) :=
  if allocOk then
    some ({ d with
      fence := Function.update d.fence d.numFences .fresh
      numFences := d.numFences + 1 }, d.numFences)
  else none

/-- `dma_fence_get` by the driver. -/
def fenceGet (d : Dev) (f : FenceId) : Dev :=
  d.modFence f fun x => { x with driverRefs := x.driverRefs + 1 }

/-- `dma_fence_put` by the driver, and the passing on of a reference. -/
def fencePut (d : Dev) : Option FenceId → Dev
  | none => d
  | some f => d.modFence f fun x => { x with driverRefs := x.driverRefs - 1 }

/-- `drm_sched_job_done`: the finished fence is signalled with the error given,
or the one it carries already. -/
def jobDone (d : Dev) (t : TaskId) (err : Option Errno) : Dev :=
  d.modTask t fun task =>
    { task with
      finished := true
      finishedError := err.or task.finishedError }

/-- `dma_fence_signal`, which runs the callback of the job attached to it. -/
def fenceSignal (d : Dev) : Option FenceId → Dev
  | none => d
  | some f =>
      if (d.fence f).signaled then d
      else
        let d' := d.modFence f fun x => { x with signaled := true, cb := none }
        match (d.fence f).cb with
        | none => d'
        | some t => d'.jobDone t (d.fence f).error

/-- `dma_fence_set_error`. -/
def fenceSetError (d : Dev) (e : Errno) : Option FenceId → Dev
  | none => d
  | some f => d.modFence f fun x => { x with error := some e }

end Dev

/-! ## Callbacks of the pipes -/

/-- `lima_gp_soft_reset_async`. -/
def limaGpSoftResetAsync (x : Pipe) : Pipe :=
  if x.asyncReset then x
  else { x with
    intMask := false
    asyncReset := true }

/-- `lima_gp_soft_reset_async_wait`. -/
def limaGpSoftResetAsyncWait (resetOk : Bool) (x : Pipe) : Pipe :=
  if x.asyncReset && resetOk then
    { x with
      intMask := true
      asyncReset := false }
  else x

/-- `lima_gp_hard_reset`. A reset unit raises no interrupt any more; one that
does not respond keeps its interrupts masked. -/
def limaGpHardReset (resetOk : Bool) (x : Pipe) : Pipe :=
  if resetOk then
    { x with
      intMask := true
      running := 0 }
  else { x with intMask := false }

/-- `lima_pp_hard_reset` of all cores; a core that does not respond keeps its
interrupts masked, so either way none is left that can raise one. -/
def limaPpHardReset (x : Pipe) : Pipe := { x with running := 0 }

/-- `pipe->task_fini`. -/
def pipeTaskFini : PipeId → Pipe → Pipe
  | .gp, x => limaGpSoftResetAsync x
  | .pp, x => x

/-- `pipe->task_error`. -/
def pipeTaskError (resetOk : Bool) : PipeId → Pipe → Pipe
  | .gp, x => limaGpHardReset resetOk x
  | .pp, x => limaPpHardReset x

/-- The loop of `lima_gp_task_run` that looks for the heap the frame allocates
from and patches the end of its window. -/
def patchHeap (s : Sys) (v : VmId) : List BoId → Task → Outcome Task
  | [], task => .ok task
  | b :: bs, task =>
      if (s.bo b).heapSize ≠ 0 then
        (limaVmGetVa s v b).bind fun va =>
          if va = task.frame.plbuAllocStart then
            .ok { task with
              frame := { task.frame with
                plbuAllocEnd := u32 (task.frame.plbuAllocStart + (s.bo b).heapSize) }
              recoverable := true
              heap := some b }
          else patchHeap s v bs task
      else patchHeap s v bs task

/-- Whether `lima_gp_task_run` starts a unit. -/
def Frame.startsGp (f : Frame) : Bool :=
  f.vsclStart ≠ f.vsclEnd || f.plbuclStart ≠ f.plbuclEnd

namespace Dev

/-- `lima_gp_task_run`. -/
def limaGpTaskRun (d : Dev) (resetOk : Bool) (t : TaskId) (v : VmId) : Outcome Dev :=
  (patchHeap d.sys v (d.task t).bos (d.task t)).bind fun task =>
    .ok ((d.modTask t fun _ => task).modPipe .gp fun x =>
      { limaGpSoftResetAsyncWait resetOk x with
        plbuAllocStart := task.frame.plbuAllocStart
        plbuAllocEnd := task.frame.plbuAllocEnd
        running := if task.frame.startsGp then 1 else 0 })

/-- `lima_pp_task_run`. -/
def limaPpTaskRun (d : Dev) (t : TaskId) : Dev :=
  d.modPipe .pp fun x =>
    { x with
      task := (d.task t).frame.numPp
      running := (d.task t).frame.numPp }

/-- `pipe->task_run`. -/
def pipeTaskRun (d : Dev) (resetOk : Bool) (t : TaskId) (v : VmId) :
    PipeId → Outcome Dev
  | .gp => d.limaGpTaskRun resetOk t v
  | .pp => .ok (d.limaPpTaskRun t)

/-! ## Dispatch -/

end Dev

/-- What a `lima_sched_run_job` meets: whether the fence can be allocated, the
device powered up, and a soft reset under way ends in time. -/
structure RunEnv where
  fenceOk : Bool
  pmOk : Bool
  resetOk : Bool

namespace Dev

/-- The part of `lima_sched_run_job` after `lima_pm_busy`, fence `f` being
created. -/
def startJob (d : Dev) (resetOk : Bool) (t : TaskId) (f : FenceId) : Outcome Dev :=
  let p := (d.task t).pipe
  let d := (d.modTask t fun task => { task with fence := some f }).fenceGet f
  let d := d.modPipe p fun x => { x with currentTask := some t }
  (d.vmPut (d.pipe p).currentVm).bind fun d =>
    (d.vmGet (d.task t).vm).bind fun d =>
      match (d.task t).vm with
      | none => .oops
      | some v =>
          let d := d.modPipe p fun x =>
            { x with
              currentVm := some v
              mmuDte := fun _ => some v
              error := false }
          d.pipeTaskRun resetOk t v p

/-- `lima_sched_run_job`: the fence it returns, or `NULL`. -/
def limaSchedRunJob (d : Dev) (env : RunEnv) (t : TaskId) :
    Outcome (Dev × Option FenceId) :=
  if (d.task t).finishedError.isSome then .ok (d, none)
  else
    match d.limaFenceCreate env.fenceOk with
    | none => .ok (d, none)
    | some (d, f) =>
        if !env.pmOk then .ok (d.fencePut (some f), none)
        else
          ((d.addPm 1).startJob env.resetOk t f).bind fun d => .ok (d, some f)

/-- What `drm_sched` does with the result of `run_job`: a job without a fence is
done, a returned fence is attached and its reference consumed. -/
def jobReturned (d : Dev) (t : TaskId) : Option FenceId → Dev
  | none => d.jobDone t none
  | some f =>
      let d := d.fencePut (some f)
      if (d.fence f).signaled then d.jobDone t (d.fence f).error
      else d.modFence f fun x => { x with cb := some t }

/-- A job handed to `run_job` is pending; recorded is whether it will not be
dispatched. -/
def markPending (d : Dev) (env : RunEnv) (t : TaskId) : Dev :=
  d.modTask t fun task =>
    { task with
      state := .pending
      undispatched := task.undispatched ||
        (task.finishedError.isNone && !(env.fenceOk && env.pmOk)) }

/-- A job is run: `run_job` is called and its result taken. -/
def dispatch (d : Dev) (env : RunEnv) (t : TaskId) : Outcome Dev :=
  ((d.markPending env t).limaSchedRunJob env t).bind fun r =>
    .ok (r.1.jobReturned t r.2)

/-! ## Completion -/

/-- `schedule_work` of the recovery work. -/
def scheduleRecover (d : Dev) (p : PipeId) (w : RecoverWork) : Dev :=
  d.modPipe p fun x => { x with recoverQueued := x.recoverQueued.or (some w) }

/-- `lima_sched_pipe_task_done`; `oom` records that the interrupt reported
nothing but an exhausted heap. `drm_sched_fault` only brings the timeout
forward. -/
def limaSchedPipeTaskDone (d : Dev) (oom : Bool) (p : PipeId) : Outcome Dev :=
  if (d.pipe p).error then
    match (d.pipe p).currentTask with
    | none => .ok d
    | some t =>
        (d.readTask t).bind fun task =>
          .ok (if task.recoverable then d.scheduleRecover p ⟨t, oom⟩ else d)
  else
    match (d.pipe p).currentTask with
    | none => .oops
    | some t =>
        (d.readTask t).bind fun task =>
          let d := d.modPipe p (pipeTaskFini p)
          let d := d.modTask t fun task => { task with hwDone := true }
          .ok ((d.fenceSignal task.fence).addPm (-1))

end Dev

/-- The bits of the GP's `INT_STAT` the handler distinguishes. -/
structure GpIntStat where
  vsEnd : Bool
  plbuEnd : Bool
  plbuOutOfMem : Bool
  otherError : Bool
deriving DecidableEq, Repr

namespace GpIntStat

def nonzero (st : GpIntStat) : Bool :=
  st.vsEnd || st.plbuEnd || st.plbuOutOfMem || st.otherError

def error (st : GpIntStat) : Bool := st.plbuOutOfMem || st.otherError

/-- The only error is an exhausted heap. -/
def outOfMemOnly (st : GpIntStat) : Bool := st.plbuOutOfMem && !st.otherError

/-- The handler's `done` when there is no error. -/
def done (st : GpIntStat) (active : Bool) : Bool :=
  (st.vsEnd || st.plbuEnd) && !active

end GpIntStat

namespace Dev

/-- `task->recoverable = false` for the current task, if any. -/
def clearRecoverable (d : Dev) : Option TaskId → Outcome Dev
  | none => .ok d
  | some t =>
      (d.readTask t).bind fun _ =>
        .ok (d.modTask t fun task => { task with recoverable := false })

/-- `lima_gp_irq_handler`, having read `INT_STAT` and, in `active`, whether a
unit was active. -/
def limaGpIrqHandler (d : Dev) (st : GpIntStat) (active : Bool) : Outcome Dev :=
  if !st.nonzero then .ok d
  else if st.error then
    (if st.outOfMemOnly then .ok d
      else d.clearRecoverable (d.pipe .gp).currentTask).bind fun d =>
        (d.modPipe .gp fun x =>
          { x with
            intMask := false
            error := true }).limaSchedPipeTaskDone st.outOfMemOnly .gp
  else
    let d := d.modPipe .gp fun x => { x with error := false }
    if st.done active then d.limaSchedPipeTaskDone false .gp else .ok d

/-- `atomic_dec_and_test(&pipe->task)` and what follows when it is zero. -/
def decAndTestDone (d : Dev) (p : PipeId) : Outcome Dev :=
  let d := d.modPipe p fun x => { x with task := x.task - 1 }
  if (d.pipe p).task = 0 then d.limaSchedPipeTaskDone false p else .ok d

/-- `lima_pp_irq_handler` of one core, `error` telling whether `INT_STATUS` has
an error bit. The broadcast handler does the same for each core it finds
finished. -/
def limaPpIrqHandler (d : Dev) (error : Bool) : Outcome Dev :=
  (d.modPipe .pp fun x => { x with error := x.error || error }).decAndTestDone .pp

/-- `lima_sched_pipe_mmu_error` and the pipe's `task_mmu_error`. -/
def limaSchedPipeMmuError (d : Dev) (p : PipeId) : Outcome Dev :=
  let d := d.modPipe p fun x => { x with error := true }
  match p with
  | .gp => d.limaSchedPipeTaskDone false .gp
  | .pp => d.decAndTestDone .pp

/-! ## Recovery of an exhausted heap -/

/-- The first half of `lima_gp_task_recover`: the current task is read and its
frame looked at. The PP pipe has no `task_recover`. -/
def recoverRead (d : Dev) : PipeId → Outcome TaskId
  | .pp => .oops
  | .gp =>
      match (d.pipe .gp).currentTask with
      | none => .oops
      | some t => (d.readTask t).bind fun _ => .ok t

/-- The second half of `lima_gp_task_recover`, for the task it has read: the heap
is grown if its window was all of it, and the PLBU resumed. -/
def recoverResume (initNrPages : ℕ) (d : Dev) (env : HeapEnv) (fuel : ℕ)
    (t : TaskId) : Outcome (Dev × Option Errno) :=
  (d.readTask t).bind fun task =>
    match task.heap with
    | none => .oops
    | some b =>
        let failSize :=
          u32 (task.frame.plbuAllocEnd + 2 ^ 32 - task.frame.plbuAllocStart)
        (if failSize = (d.sys.bo b).heapSize then
            limaHeapAlloc initNrPages env fuel d.sys b task.vm
          else .ok (d.sys, none)).bind fun r =>
            match r with
            | (s, some e) => .ok (d.setSys s, some e)
            | (s, none) =>
                let stop := u32 (task.frame.plbuAllocStart + (s.bo b).heapSize)
                let d := (d.setSys s).modTask t fun x =>
                  { x with frame := { x.frame with plbuAllocEnd := stop } }
                .ok (d.modPipe .gp fun x =>
                  { x with
                    intMask := true
                    plbuAllocStart := task.frame.plbuAllocEnd
                    plbuAllocEnd := stop }, none)

/-- `lima_sched_recover_work`, up to the call that can sleep. -/
def recoverBegin (d : Dev) (p : PipeId) (w : RecoverWork) : Outcome Dev :=
  let d := d.modPipe p fun x => { x with recoverQueued := none }
  (d.recoverRead p).bind fun t =>
    .ok (d.modPipe p fun x => { x with recoverRunning := some (w, t) })

/-- The rest of `lima_sched_recover_work`, whose `drm_sched_fault` only brings the
timeout forward. -/
def recoverEnd (initNrPages : ℕ) (d : Dev) (env : HeapEnv) (fuel : ℕ) (p : PipeId)
    (t : TaskId) : Outcome Dev :=
  (d.recoverResume initNrPages env fuel t).bind fun r =>
    .ok (r.1.modPipe p fun x => { x with recoverRunning := none })

/-! ## Timeout -/

/-- `drm_sched_stop`: the unfinished jobs of the pipe are detached from their
hardware fences. -/
def drmSchedStop (d : Dev) (p : PipeId) : Dev :=
  { d with
    fence := fun f =>
      match (d.fence f).cb with
      | none => d.fence f
      | some t =>
          if (d.task t).pipe = p then { d.fence f with cb := none } else d.fence f }

/-- `lima_sched_timedout_job`, up to the stopped scheduler. -/
def timedoutBegin (d : Dev) (p : PipeId) (t : TaskId) : Dev :=
  (d.drmSchedStop p).modPipe p fun x => { x with timedout := some (t, .stopped) }

/-- `pipe->task_error`, and `lima_mmu_page_fault_resume` of the MMUs, `faulted`
being those with an active page fault. -/
def timedoutReset (d : Dev) (p : PipeId) (t : TaskId) (resetOk : Bool)
    (faulted : ℕ → Bool) : Dev :=
  d.modPipe p fun x =>
    { pipeTaskError resetOk p x with
      mmuDte := fun i => if faulted i then none else x.mmuDte i
      timedout := some (t, .reset) }

/-- The pipe lets go of its task and address space. -/
def clearPipe (d : Dev) (p : PipeId) : Outcome Dev :=
  (d.vmPut (d.pipe p).currentVm).bind fun d =>
    .ok (d.modPipe p fun x =>
      { x with
        currentVm := none
        currentTask := none })

/-- The part of `lima_sched_timedout_job` from `lima_vm_put` to `lima_pm_idle`. -/
def timedoutClear (d : Dev) (p : PipeId) (t : TaskId) : Outcome Dev :=
  (d.clearPipe p).bind fun d =>
    .ok ((d.addPm (-1)).modPipe p fun x => { x with timedout := some (t, .cleared) })

/-- `drm_sched_resubmit_jobs` for the unfinished job `u`; `cancel` tells whether
its karma has passed the hang limit. -/
def timedoutResubmit (d : Dev) (p : PipeId) (t u : TaskId) (cancel : Bool)
    (env : RunEnv) : Outcome Dev :=
  let d := d.modTask u fun task =>
    { task with
      finishedError := if cancel then some .ecanceled else task.finishedError }
  (d.dispatch env u).bind fun d =>
    .ok (d.modPipe p fun x => { x with timedout := some (t, .resubmitted) })

/-- `drm_sched_start`. -/
def timedoutEnd (d : Dev) (p : PipeId) : Dev :=
  d.modPipe p fun x => { x with timedout := none }

/-! ## The end of a job -/

/-- The loop of `lima_vm_bo_del` calls over a task's objects. -/
def delBos (fuel : ℕ) (v : Option VmId) : List BoId → Dev → Outcome Dev
  | [], d => .ok d
  | b :: bs, d =>
      match v with
      | none => .oops
      | some v =>
          (limaVmBoDel fuel d.sys v b).bind fun r =>
            delBos fuel (some v) bs (d.setSys r.1)

/-- The loop of `drm_gem_object_put` calls over a task's objects. -/
def gemPuts : List BoId → Dev → Dev
  | [], d => d
  | b :: bs, d => gemPuts bs (d.gemPut b)

/-- `lima_sched_task_fini`. -/
def limaSchedTaskFini (d : Dev) (t : TaskId) : Outcome Dev :=
  ((gemPuts (d.task t).bos d).vmPut (d.task t).vm).bind fun d =>
    .ok (d.modTask t fun task => { task with state := .allocated })

/-- `lima_sched_free_job`. -/
def limaSchedFreeJob (fuel : ℕ) (d : Dev) (t : TaskId) : Outcome Dev :=
  (d.readTask t).bind fun task =>
    (delBos fuel task.vm task.bos (d.fencePut task.fence)).bind fun d =>
      (d.limaSchedTaskFini t).bind fun d => d.kmemCacheFree t

/-! ## Teardown -/

/-- `pipe_task_in_flight`. -/
def pipeTaskInFlight (fakeWedge : Bool) (d : Dev) (p : PipeId) : Outcome Bool :=
  match (d.pipe p).currentTask with
  | none => .ok false
  | some t =>
      (d.readTask t).bind fun task =>
        match task.fence with
        | none => .ok false
        | some f => .ok (fakeWedge || !(d.fence f).signaled)

/-- `lima_sched_pipe_fini`, up to the task it finds in flight after its wait. -/
def finiCheck (fakeWedge : Bool) (d : Dev) (p : PipeId) : Outcome Dev :=
  (d.pipeTaskInFlight fakeWedge p).bind fun b =>
    .ok (d.modPipe p fun x =>
      { x with fini := .checked (if b then x.currentTask else none) })

/-- The forced or the clean release of the pipe. -/
def finiRelease (d : Dev) (p : PipeId) (resetOk : Bool) : Option TaskId → Outcome Dev
  | some t =>
      let d := d.modPipe p fun x => { pipeTaskError resetOk p x with error := true }
      (d.readTask t).bind fun task =>
        ((((d.fenceSetError .enodev task.fence).fenceSignal task.fence).clearPipe p).bind
          fun d => .ok (d.modPipe p fun x => { x with fini := .released }))
  | none =>
      (if (d.pipe p).currentTask.isSome then d.clearPipe p else .ok d).bind fun d =>
        .ok (d.modPipe p fun x => { x with fini := .released })

/-- `drm_sched_stop` and `drm_sched_fini`. -/
def finiStop (d : Dev) (p : PipeId) : Dev :=
  (d.drmSchedStop p).modPipe p fun x => { x with fini := .stopped }

/-- `drm_sched_entity_destroy` kills a queued job. -/
def killJob (d : Dev) (t : TaskId) : Dev :=
  (d.modTask t fun task => { task with state := .killed }).jobDone t (some .esrch)

end Dev

end Lima
