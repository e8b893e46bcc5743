import Lima.Sched.Jobs

/-!
# Submitting a job

`lima_ioctl_gem_submit` and what it calls: `lima_gem_submit`, `lima_sched_task_init`
and the two task validators. Every step that can fail does so as the environment
says, and the labels of the C function's error paths are functions here.
-/

namespace Lima

/-- The constants the submit ioctl reads: whether the PP pipe is a broadcast one,
its number of cores, the frame size of each pipe. -/
structure SubmitConfig where
  bcast : Bool
  numProcessor : ℕ
  frameSize : PipeId → ℕ

/-- `struct drm_lima_gem_submit`; `handles` are those of its object list. -/
structure SubmitArgs where
  pipe : ℕ
  handles : List ℕ
  flags : ℕ
  frameSize : ℕ
  frame : Frame
  ctx : ℕ
  inSync : List ℕ
  outSync : ℕ

/-- What a submit meets: the outcome of each call that can fail. -/
structure SubmitEnv where
  kvcallocOk : Bool
  copyBosOk : Bool
  zallocOk : Bool
  copyFrameOk : Bool
  lock : Option Errno
  kmemdupOk : Bool
  jobInit : Option Errno
  /-- `drm_sched_job_add_syncobj_dependency` of each `in_sync`. -/
  syncobjDep : ℕ → Option Errno
  /-- `dma_resv_reserve_fences` of each object. -/
  reserveFences : ℕ → Option Errno
  /-- `drm_sched_job_add_implicit_dependencies` of each object. -/
  implicitDeps : ℕ → Option Errno

/-- `args->pipe`, checked against `lima_pipe_num`. -/
def pipeOfArg : ℕ → Option PipeId
  | 0 => some .gp
  | 1 => some .pp
  | _ => none

/-- `LIMA_SUBMIT_FLAG_EXPLICIT_FENCE`. -/
def limaSubmitFlagExplicitFence : ℕ := 1

/-- `lima_gp_task_validate`. -/
def limaGpTaskValidate (f : Frame) : Option Errno :=
  if f.vsclEnd < f.vsclStart ∨ f.plbuclEnd < f.plbuclStart ∨
      f.plbuAllocEnd < f.plbuAllocStart then some .einval
  else if f.vsclStart = f.vsclEnd ∧ f.plbuclStart = f.plbuclEnd then some .einval
  else none

/-- `lima_pp_task_validate`. -/
def limaPpTaskValidate (cfg : SubmitConfig) (f : Frame) : Option Errno :=
  if cfg.bcast = true ∧ f.pad ≠ 0 then some .einval
  else if f.numPp = 0 ∨ cfg.numProcessor < f.numPp then some .einval
  else none

/-- `pipe->task_validate`. -/
def pipeTaskValidate (cfg : SubmitConfig) (f : Frame) : PipeId → Option Errno
  | .gp => limaGpTaskValidate f
  | .pp => limaPpTaskValidate cfg f

/-- A handle table lookup. -/
def lookupId {α : Type} (id : ℕ) (table : List (ℕ × α)) : Option α :=
  (table.find? fun e => e.1 == id).map Prod.snd

namespace Dev

/-! ## Taking references -/

/-- `drm_gem_object_lookup`. -/
def gemLookup (d : Dev) (f : FileId) (h : ℕ) : Option (Dev × BoId) :=
  ((d.file f).bind fun file => lookupId h file.handles).map fun b => (d.gemGet b, b)

/-- `kref_get` of a context. -/
def ctxRefGet (d : Dev) (c : CtxId) : Dev :=
  { d with ctxRef := Function.update d.ctxRef c (d.ctxRef c + 1) }

/-- `lima_ctx_get`. -/
def limaCtxGet (d : Dev) (file : DrmFile) (id : ℕ) : Option (Dev × CtxId) :=
  (lookupId id file.ctxs).map fun c => (d.ctxRefGet c, c)

/-- `lima_ctx_put`. -/
def limaCtxPut (d : Dev) (c : CtxId) : Dev :=
  { d with ctxRef := Function.update d.ctxRef c (d.ctxRef c - 1) }

/-- `drm_syncobj_find` of `out_sync`, where one is given. -/
def findOutSync (d : Dev) (file : DrmFile) (id : ℕ) : Option (Dev × Option SyncId) :=
  if id = 0 then some (d, none)
  else
    (lookupId id file.syncs).map fun x =>
      ({ d with syncRef := Function.update d.syncRef x (d.syncRef x + 1) }, some x)

/-- `drm_syncobj_put`. -/
def syncobjPut (d : Dev) : Option SyncId → Dev
  | none => d
  | some x => { d with syncRef := Function.update d.syncRef x (d.syncRef x - 1) }

/-- One step of the lookup loop of `lima_gem_submit`: the object of a handle, with
a reference to it and one to its mapping in the file's address space. A
`lima_vm_bo_add` that may not create allocates nothing. -/
def submitAdd (d : Dev) (f : FileId) (v : VmId) (h : ℕ) :
    Outcome (Dev × Except Errno BoId) :=
  match d.gemLookup f h with
  | none => .ok (d, .error .enoent)
  | some (d, b) =>
      (limaVmBoAdd ⟨false, none, fun _ => none⟩ 0 d.sys v b false).bind fun r =>
        match r with
        | (s, none) => .ok (d.setSys s, .ok b)
        | (s, some e) => .ok ((d.setSys s).gemPut b, .error e)

/-- The lookup loop of `lima_gem_submit`, `lbos` being the objects found so far. -/
def submitAdds (f : FileId) (v : VmId) :
    List ℕ → List BoId → Dev → Outcome (Dev × List BoId × Option Errno)
  | [], lbos, d => .ok (d, lbos, none)
  | h :: hs, lbos, d =>
      (d.submitAdd f v h).bind fun r =>
        match r with
        | (d, .error e) => .ok (d, lbos, some e)
        | (d, .ok b) => submitAdds f v hs (lbos ++ [b]) d

/-- One step of the loop at `err_out0`. -/
def submitUndo (fuel : ℕ) (d : Dev) (v : VmId) (b : BoId) : Outcome Dev :=
  (limaVmBoDel fuel d.sys v b).bind fun r => .ok ((d.setSys r.1).gemPut b)

/-- The loop at `err_out0`, which ends at the first object not set. -/
def submitUndos (fuel : ℕ) (v : VmId) : List BoId → Dev → Outcome Dev
  | [], d => .ok d
  | b :: bs, d => (d.submitUndo fuel v b).bind fun d => submitUndos fuel v bs d

/-- The loop of `drm_gem_object_get` calls over a task's objects. -/
def gemGets : List BoId → Dev → Dev
  | [], d => d
  | b :: bs, d => gemGets bs (d.gemGet b)

/-- `lima_sched_task_init`. -/
def limaSchedTaskInit (d : Dev) (kmemdupOk : Bool) (jobInit : Option Errno)
    (t : TaskId) (c : CtxId) (bos : List BoId) (v : VmId) :
    Outcome (Dev × Option Errno) :=
  if !kmemdupOk then .ok (d, some .enomem)
  else
    let d := gemGets bos d
    match jobInit with
    | some e => .ok (d, some e)
    | none =>
        (d.vmGet (some v)).bind fun d =>
          .ok (d.modTask t fun task =>
            { task with
              state := .inited
              ctx := some c
              vm := some v
              bos := bos }, none)

/-- `lima_sched_context_queue_task`. -/
def limaSchedContextQueueTask (d : Dev) (t : TaskId) : Dev :=
  d.modTask t fun task => { task with state := .queued }

/-! ## The ioctl -/

end Dev

/-- `lima_gem_add_deps`. -/
def limaGemAddDeps (env : SubmitEnv) (inSync : List ℕ) : Option Errno :=
  inSync.zipIdx.findSome? fun x => if x.1 ≠ 0 then env.syncobjDep x.2 else none

/-- `lima_gem_sync_bo` of the object at index `i`. -/
def limaGemSyncBo (env : SubmitEnv) (explicit : Bool) (i : ℕ) : Option Errno :=
  match env.reserveFences i with
  | some e => some e
  | none => if explicit then none else env.implicitDeps i

/-- The dependencies and fence slots of a submit of `n` objects. -/
def submitDeps (env : SubmitEnv) (a : SubmitArgs) (n : ℕ) : Option Errno :=
  (limaGemAddDeps env a.inSync).or
    ((List.range n).findSome?
      (limaGemSyncBo env (a.flags == limaSubmitFlagExplicitFence)))

namespace Dev

/-- `lima_gem_submit` from `err_out0` on. -/
def submitErrOut0 (fuel : ℕ) (v : VmId) (lbos : List BoId) (outSync : Option SyncId)
    (e : Errno) (d : Dev) : Outcome (Dev × Option Errno) :=
  (submitUndos fuel v lbos d).bind fun d => .ok (d.syncobjPut outSync, some e)

/-- `lima_gem_submit` once all objects are found and locked. -/
def submitLocked (fuel : ℕ) (env : SubmitEnv) (a : SubmitArgs) (t : TaskId) (c : CtxId)
    (v : VmId) (lbos : List BoId) (outSync : Option SyncId) (d : Dev) :
    Outcome (Dev × Option Errno) :=
  (d.limaSchedTaskInit env.kmemdupOk env.jobInit t c lbos v).bind fun r =>
    match r with
    | (d, some e) => submitErrOut0 fuel v lbos outSync e d
    | (d, none) =>
        match submitDeps env a lbos.length with
        | some e =>
            (d.limaSchedTaskFini t).bind fun d => submitErrOut0 fuel v lbos outSync e d
        | none =>
            .ok ((gemPuts lbos (d.limaSchedContextQueueTask t)).syncobjPut outSync, none)

/-- `lima_gem_submit`. -/
def limaGemSubmit (fuel : ℕ) (env : SubmitEnv) (d : Dev) (f : FileId) (file : DrmFile)
    (a : SubmitArgs) (t : TaskId) (c : CtxId) : Outcome (Dev × Option Errno) :=
  match d.findOutSync file a.outSync with
  | none => .ok (d, some .enoent)
  | some (d, outSync) =>
      (submitAdds f file.vm a.handles [] d).bind fun r =>
        match r with
        | (d, lbos, some e) => submitErrOut0 fuel file.vm lbos outSync e d
        | (d, lbos, none) =>
            match env.lock with
            | some e => submitErrOut0 fuel file.vm lbos outSync e d
            | none => submitLocked fuel env a t c file.vm lbos outSync d

/-- `kmem_cache_zalloc` of a task, taking the next name. -/
def zallocTask (d : Dev) (p : PipeId) : Dev :=
  { d with
    task := Function.update d.task d.numTasks (.zeroed p .allocated)
    numTasks := d.numTasks + 1 }

/-- The copied frame. -/
def setFrame (d : Dev) (t : TaskId) (frame : Frame) : Dev :=
  d.modTask t fun task => { task with frame := frame }

/-- `lima_ioctl_gem_submit` from `out1` on, after a failure. -/
def submitOut1 (d : Dev) (t : TaskId) (e : Errno) : Outcome (Dev × Option Errno) :=
  (d.kmemCacheFree t).bind fun d => .ok (d, some e)

/-- `lima_ioctl_gem_submit` once its task is allocated. -/
def submitTask (cfg : SubmitConfig) (fuel : ℕ) (env : SubmitEnv) (d : Dev) (f : FileId)
    (file : DrmFile) (a : SubmitArgs) (p : PipeId) (t : TaskId) :
    Outcome (Dev × Option Errno) :=
  if !env.copyFrameOk then d.submitOut1 t .efault
  else
    let d := d.setFrame t a.frame
    match pipeTaskValidate cfg a.frame p with
    | some e => d.submitOut1 t e
    | none =>
        match d.limaCtxGet file a.ctx with
        | none => d.submitOut1 t .enoent
        | some (d, c) =>
            (d.limaGemSubmit fuel env f file a t c).bind fun r =>
              match r with
              | (d, none) => .ok (d.limaCtxPut c, none)
              | (d, some e) => (d.limaCtxPut c).submitOut1 t e

/-- `lima_ioctl_gem_submit`. -/
def limaIoctlGemSubmit (cfg : SubmitConfig) (fuel : ℕ) (env : SubmitEnv) (d : Dev)
    (f : FileId) (file : DrmFile) (a : SubmitArgs) : Outcome (Dev × Option Errno) :=
  match pipeOfArg a.pipe with
  | none => .ok (d, some .einval)
  | some p =>
      if a.handles = [] then .ok (d, some .einval)
      else if limaSubmitFlagExplicitFence < a.flags then .ok (d, some .einval)
      else if a.frameSize ≠ cfg.frameSize p then .ok (d, some .einval)
      else if !env.kvcallocOk then .ok (d, some .enomem)
      else if !env.copyBosOk then .ok (d, some .efault)
      else if !env.zallocOk then .ok (d, some .enomem)
      else submitTask cfg fuel env (d.zallocTask p) f file a p d.numTasks

end Dev

end Lima
