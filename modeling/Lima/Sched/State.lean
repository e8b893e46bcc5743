import Lima.Vm.Sys

/-!
# The device: pipes, tasks, fences, files

The state of a running device. Objects the driver points to are names: a task,
a fence and an address space are numbered in the order of their creation, and a
task returned to its slab stays recorded as freed, so that a later use of the
pointer is visible. What the code does not store and a statement needs is kept
beside it and marked as such.
-/

namespace Lima

abbrev TaskId := ℕ
abbrev FenceId := ℕ
abbrev FileId := ℕ
abbrev CtxId := ℕ
abbrev SyncId := ℕ

/-- `enum lima_pipe_id`. -/
inductive PipeId where
  | gp | pp
deriving DecidableEq, Repr

/-- The words of a `drm_lima_gp_frame` or a PP frame that the driver reads. -/
structure Frame where
  vsclStart : ℕ
  vsclEnd : ℕ
  plbuclStart : ℕ
  plbuclEnd : ℕ
  plbuAllocStart : ℕ
  plbuAllocEnd : ℕ
  numPp : ℕ
  pad : ℕ
deriving DecidableEq

/-- Where a task is: in the slab, in the submit ioctl before and after
`lima_sched_task_init`, in its entity's queue, handed to `run_job`, killed with
its entity, back in the slab. -/
inductive TaskState where
  | unallocated | allocated | inited | queued | pending | killed | freed
deriving DecidableEq, Repr

/-- `struct lima_sched_task` with the part of its `drm_sched_job` that matters:
the finished fence. -/
structure Task where
  pipe : PipeId
  state : TaskState
  ctx : Option CtxId
  vm : Option VmId
  bos : List BoId
  frame : Frame
  recoverable : Bool
  heap : Option BoId
  fence : Option FenceId
  /-- `base.s_fence->finished`: signalled, and its error. -/
  finished : Bool
  finishedError : Option Errno
  /-- Not stored: `lima_sched_pipe_task_done` took its success branch for the
  task. -/
  hwDone : Bool
  /-- Not stored: `lima_sched_run_job` failed to dispatch the task. -/
  undispatched : Bool
deriving DecidableEq

def Frame.zeroed : Frame := ⟨0, 0, 0, 0, 0, 0, 0, 0⟩

/-- A task of `pipe`, fresh from `kmem_cache_zalloc`. -/
def Task.zeroed (pipe : PipeId) (state : TaskState) : Task where
  pipe := pipe
  state := state
  ctx := none
  vm := none
  bos := []
  frame := .zeroed
  recoverable := false
  heap := none
  fence := none
  finished := false
  finishedError := none
  hwDone := false
  undispatched := false

/-- A `lima_fence`; `cb` is the job whose completion callback is on its list,
`driverRefs` counts the references the driver took and has neither dropped nor
passed on. -/
structure Fence where
  signaled : Bool
  error : Option Errno
  cb : Option TaskId
  driverRefs : ℕ
deriving DecidableEq

def Fence.fresh : Fence := ⟨false, none, none, 1⟩

/-- How far `lima_sched_timedout_job` has come: the scheduler is stopped, the
hardware is reset, the pipe is cleared, the unfinished job has been run again. -/
inductive TimedoutPc where
  | stopped | reset | cleared | resubmitted
deriving DecidableEq, Repr

/-- How far `lima_sched_pipe_fini` has come; after its last look at
`pipe_task_in_flight` it holds the task it found. -/
inductive FiniPc where
  | idle
  | checked (task : Option TaskId)
  | released
  | stopped
deriving DecidableEq, Repr

/-- A queued `recover_work`. The work item itself carries nothing; recorded is
the task that was current when it was queued, and whether an out-of-memory
interrupt of the GP queued it. -/
structure RecoverWork where
  task : TaskId
  oom : Bool
deriving DecidableEq, Repr

/-- `struct lima_sched_pipe`, the registers the driver sets for it, and the
asynchronous calls under way on it. -/
structure Pipe where
  currentTask : Option TaskId
  currentVm : Option VmId
  error : Bool
  task : ℤ
  /-- `LIMA_MMU_DTE_ADDR` of each MMU; `none` is `empty_vm`. -/
  mmuDte : ℕ → Option VmId
  /-- The GP's `INT_MASK` is `LIMA_GP_IRQ_MASK_USED`, not 0. -/
  intMask : Bool
  asyncReset : Bool
  plbuAllocStart : ℕ
  plbuAllocEnd : ℕ
  /-- Not stored: the started units that can still raise an interrupt. -/
  running : ℕ
  recoverQueued : Option RecoverWork
  /-- The work under way, with the `current_task` it has read. -/
  recoverRunning : Option (RecoverWork × TaskId)
  timedout : Option (TaskId × TimedoutPc)
  fini : FiniPc

/-- A pipe after `lima_sched_pipe_init`. -/
def Pipe.fresh : Pipe where
  currentTask := none
  currentVm := none
  error := false
  task := 0
  mmuDte := fun _ => none
  intMask := true
  asyncReset := false
  plbuAllocStart := 0
  plbuAllocEnd := 0
  running := 0
  recoverQueued := none
  recoverRunning := none
  timedout := none
  fini := .idle

/-- A `drm_file` with its `lima_drm_priv`, its handle table, its contexts and its
sync objects. -/
structure DrmFile where
  vm : VmId
  isOpen : Bool
  handles : List (ℕ × BoId)
  ctxs : List (ℕ × CtxId)
  syncs : List (ℕ × SyncId)
deriving DecidableEq

/-- A `lima_gem_submit` under way: the handles it has not looked up yet and the
objects in `lbos` it has not released. -/
structure Submit where
  file : FileId
  handles : List ℕ
  lbos : List BoId
  failed : Bool
deriving DecidableEq

/-- The device. -/
structure Dev where
  sys : Sys
  pipe : PipeId → Pipe
  task : TaskId → Task
  numTasks : ℕ
  fence : FenceId → Fence
  numFences : ℕ
  /-- Successful `lima_pm_busy` calls less `lima_pm_idle` calls. -/
  pm : ℤ
  file : FileId → Option DrmFile
  submit : TaskId → Option Submit
  gemRef : BoId → ℕ
  ctxRef : CtxId → ℕ
  syncRef : SyncId → ℕ
  /-- The address spaces `lima_vm_release` has run for. -/
  vmReleased : List VmId

namespace Dev

/-- A probed device with the address spaces and objects `s`, its pipes idle and no
file open. -/
def boot (s : Sys) : Dev where
  sys := s
  pipe := fun _ => .fresh
  task := fun _ => .zeroed .gp .unallocated
  numTasks := 0
  fence := fun _ => .fresh
  numFences := 0
  pm := 0
  file := fun _ => none
  submit := fun _ => none
  gemRef := fun _ => 0
  ctxRef := fun _ => 0
  syncRef := fun _ => 0
  vmReleased := []

/-! ## Updates -/

def modPipe (d : Dev) (p : PipeId) (g : Pipe → Pipe) : Dev :=
  { d with pipe := Function.update d.pipe p (g (d.pipe p)) }

def modTask (d : Dev) (t : TaskId) (g : Task → Task) : Dev :=
  { d with task := Function.update d.task t (g (d.task t)) }

def modFence (d : Dev) (f : FenceId) (g : Fence → Fence) : Dev :=
  { d with fence := Function.update d.fence f (g (d.fence f)) }

def setSys (d : Dev) (s : Sys) : Dev := { d with sys := s }

def addPm (d : Dev) (n : ℤ) : Dev := { d with pm := d.pm + n }

section Projections

variable (d : Dev)

theorem modPipe_pipe (p : PipeId) (g : Pipe → Pipe) (q : PipeId) :
    (d.modPipe p g).pipe q = if q = p then g (d.pipe q) else d.pipe q := by
  unfold modPipe
  by_cases h : q = p
  · subst h
    simp
  · simp [h]

@[simp] theorem modPipe_pipe_self (p : PipeId) (g : Pipe → Pipe) :
    (d.modPipe p g).pipe p = g (d.pipe p) := by simp [modPipe]
theorem modPipe_pipe_ne {p q : PipeId} (h : q ≠ p) (g : Pipe → Pipe) :
    (d.modPipe p g).pipe q = d.pipe q := by simp [modPipe, h]
@[simp] theorem modPipe_sys (p : PipeId) (g : Pipe → Pipe) :
    (d.modPipe p g).sys = d.sys := rfl
@[simp] theorem modPipe_task (p : PipeId) (g : Pipe → Pipe) :
    (d.modPipe p g).task = d.task := rfl
@[simp] theorem modPipe_numTasks (p : PipeId) (g : Pipe → Pipe) :
    (d.modPipe p g).numTasks = d.numTasks := rfl
@[simp] theorem modPipe_fence (p : PipeId) (g : Pipe → Pipe) :
    (d.modPipe p g).fence = d.fence := rfl
@[simp] theorem modPipe_numFences (p : PipeId) (g : Pipe → Pipe) :
    (d.modPipe p g).numFences = d.numFences := rfl
@[simp] theorem modPipe_pm (p : PipeId) (g : Pipe → Pipe) :
    (d.modPipe p g).pm = d.pm := rfl

theorem modTask_task (t : TaskId) (g : Task → Task) (u : TaskId) :
    (d.modTask t g).task u = if u = t then g (d.task u) else d.task u := by
  unfold modTask
  by_cases h : u = t
  · subst h
    simp
  · simp [h]

@[simp] theorem modTask_task_self (t : TaskId) (g : Task → Task) :
    (d.modTask t g).task t = g (d.task t) := by simp [modTask]
theorem modTask_task_ne {t u : TaskId} (h : u ≠ t) (g : Task → Task) :
    (d.modTask t g).task u = d.task u := by simp [modTask, h]
@[simp] theorem modTask_sys (t : TaskId) (g : Task → Task) :
    (d.modTask t g).sys = d.sys := rfl
@[simp] theorem modTask_pipe (t : TaskId) (g : Task → Task) :
    (d.modTask t g).pipe = d.pipe := rfl
@[simp] theorem modTask_fence (t : TaskId) (g : Task → Task) :
    (d.modTask t g).fence = d.fence := rfl
@[simp] theorem modTask_numFences (t : TaskId) (g : Task → Task) :
    (d.modTask t g).numFences = d.numFences := rfl
@[simp] theorem modTask_pm (t : TaskId) (g : Task → Task) :
    (d.modTask t g).pm = d.pm := rfl

theorem modFence_fence (f : FenceId) (g : Fence → Fence) (f' : FenceId) :
    (d.modFence f g).fence f' =
      if f' = f then g (d.fence f') else d.fence f' := by
  unfold modFence
  by_cases h : f' = f
  · subst h
    simp
  · simp [h]

@[simp] theorem modFence_sys (f : FenceId) (g : Fence → Fence) :
    (d.modFence f g).sys = d.sys := rfl
@[simp] theorem modFence_pipe (f : FenceId) (g : Fence → Fence) :
    (d.modFence f g).pipe = d.pipe := rfl
@[simp] theorem modFence_task (f : FenceId) (g : Fence → Fence) :
    (d.modFence f g).task = d.task := rfl
@[simp] theorem modFence_numFences (f : FenceId) (g : Fence → Fence) :
    (d.modFence f g).numFences = d.numFences := rfl
@[simp] theorem modFence_pm (f : FenceId) (g : Fence → Fence) :
    (d.modFence f g).pm = d.pm := rfl

end Projections

end Dev

end Lima
