import Lima.Sched.Submit
import Lima.Vm.Runs

/-!
# Runs of the device

The transition system of a running device: files open, handles come and go,
submits proceed step by step, `drm_sched` runs, times out and frees jobs, units
raise interrupts, the recovery work executes, the pipes are torn down. The contexts
interleave freely. The guards are what `drm_sched`, the DRM core and the hardware
promise: one unfinished job on a pipe at a time, none started under a stopped
scheduler, a job freed once and only when it is finished, interrupts only from a
started unit.
-/

namespace Lima

/-- The constants of a run. -/
structure DevConfig where
  vm : VmConfig
  submit : SubmitConfig
  /-- The `lima_fake_wedge` tunable. -/
  fakeWedge : Bool

inductive DevEvent where
  | fileOpen (f : FileId) (kzallocOk : Bool) (pdAlloc : Option ℕ)
      (dmaAlloc : ℕ → Option ℕ)
  | fileClose (f : FileId)
  | handleOpen (f : FileId) (h : ℕ) (b : BoId) (env : BoAddEnv) (fuel : ℕ)
  | handleClose (f : FileId) (h : ℕ) (b : BoId) (fuel : ℕ)
  | submitBegin (f : FileId) (p : PipeId) (frame : Frame) (handles : List ℕ)
  | submitAdd (t : TaskId)
  | submitLockFail (t : TaskId)
  | submitInit (t : TaskId) (c : CtxId) (kmemdupOk : Bool) (jobInit : Option Errno)
  | submitDepsFail (t : TaskId)
  | submitQueue (t : TaskId)
  | submitUndo (t : TaskId) (fuel : ℕ)
  | submitEnd (t : TaskId)
  | runJob (t : TaskId) (env : RunEnv)
  | killJob (t : TaskId)
  | freeJob (t : TaskId) (fuel : ℕ)
  | gpIrq (st : GpIntStat) (active : Bool)
  | ppIrq (error last : Bool)
  | mmuIrq (p : PipeId)
  | recoverBegin (p : PipeId)
  | recoverEnd (p : PipeId) (env : HeapEnv) (fuel : ℕ)
  | timedoutBegin (p : PipeId) (t : TaskId)
  | timedoutReset (p : PipeId) (resetOk : Bool) (faulted : ℕ → Bool)
  | timedoutClear (p : PipeId)
  | timedoutResubmit (p : PipeId) (u : TaskId) (cancel : Bool) (env : RunEnv)
  | timedoutEnd (p : PipeId)
  | finiCheck (p : PipeId)
  | finiRelease (p : PipeId) (resetOk : Bool)
  | finiStop (p : PipeId)

namespace Dev

/-! ## Files and handles -/

/-- `lima_drm_driver_open`. -/
def limaDrmDriverOpen (cfg : VmConfig) (d : Dev) (f : FileId) (kzallocOk : Bool)
    (pdAlloc : Option ℕ) (dmaAlloc : ℕ → Option ℕ) : Dev :=
  match limaVmCreate (cfg.dev false) kzallocOk pdAlloc dmaAlloc d.sys with
  | (s, none) => d.setSys s
  | (s, some v) =>
      { d.setSys s with
        file := Function.update d.file f (some ⟨v, true, [], [], []⟩) }

/-- `lima_drm_driver_postclose`. -/
def limaDrmDriverPostclose (d : Dev) (f : FileId) (file : DrmFile) : Outcome Dev :=
  (d.vmPut (some file.vm)).bind fun d =>
    .ok { d with
      file := Function.update d.file f (some { file with isOpen := false }) }

/-- A handle is created: `lima_gem_object_open`, and the handle if it succeeds. -/
def limaGemObjectOpen (d : Dev) (f : FileId) (file : DrmFile) (h : ℕ) (b : BoId)
    (env : BoAddEnv) (fuel : ℕ) : Outcome Dev :=
  (limaVmBoAdd env fuel d.sys file.vm b true).bind fun r =>
    match r with
    | (s, some _) => .ok (d.setSys s)
    | (s, none) =>
        .ok { (d.setSys s).gemGet b with
          file := Function.update d.file f
            (some { file with handles := (h, b) :: file.handles }) }

/-- A handle is closed, with `lima_gem_object_close`. -/
def limaGemObjectClose (d : Dev) (f : FileId) (file : DrmFile) (h : ℕ) (b : BoId)
    (fuel : ℕ) : Outcome Dev :=
  (limaVmBoDel fuel d.sys file.vm b).bind fun r =>
    .ok { (d.setSys r.1).gemPut b with
      file := Function.update d.file f
        (some { file with handles := file.handles.erase (h, b) }) }

/-! ## A submit, step by step -/

def setSubmit (d : Dev) (t : TaskId) (sm : Option Submit) : Dev :=
  { d with submit := Function.update d.submit t sm }

/-- The ioctl has allocated its task and validated the frame. -/
def submitBegin (d : Dev) (f : FileId) (p : PipeId) (frame : Frame)
    (handles : List ℕ) : Dev :=
  ((d.zallocTask p).setFrame d.numTasks frame).setSubmit d.numTasks
    (some ⟨f, handles, [], false⟩)

/-- The next handle is looked up. -/
def submitNext (d : Dev) (t : TaskId) (sm : Submit) (v : VmId) (h : ℕ)
    (hs : List ℕ) : Outcome Dev :=
  (d.submitAdd sm.file v h).bind fun r =>
    match r with
    | (d, .error _) => .ok (d.setSubmit t (some { sm with failed := true }))
    | (d, .ok b) =>
        .ok (d.setSubmit t (some { sm with
          handles := hs
          lbos := sm.lbos ++ [b] }))

/-- `lima_sched_task_init`. -/
def submitInit (d : Dev) (t : TaskId) (sm : Submit) (v : VmId) (c : CtxId)
    (kmemdupOk : Bool) (jobInit : Option Errno) : Outcome Dev :=
  (d.limaSchedTaskInit kmemdupOk jobInit t c sm.lbos v).bind fun r =>
    match r with
    | (d, some _) => .ok (d.setSubmit t (some { sm with failed := true }))
    | (d, none) => .ok d

/-- A dependency or a fence slot could not be added. -/
def submitDepsFail (d : Dev) (t : TaskId) (sm : Submit) : Outcome Dev :=
  (d.limaSchedTaskFini t).bind fun d =>
    .ok (d.setSubmit t (some { sm with failed := true }))

/-- The job is pushed, and the references of the lookups are dropped. -/
def submitQueue (d : Dev) (t : TaskId) (sm : Submit) : Dev :=
  (gemPuts sm.lbos (d.limaSchedContextQueueTask t)).setSubmit t none

/-- One object of a failed submit is released. -/
def submitUndoNext (d : Dev) (t : TaskId) (sm : Submit) (v : VmId) (b : BoId)
    (bs : List BoId) (fuel : ℕ) : Outcome Dev :=
  (d.submitUndo fuel v b).bind fun d =>
    .ok (d.setSubmit t (some { sm with lbos := bs }))

/-- A failed submit frees its task. -/
def submitEnd (d : Dev) (t : TaskId) : Outcome Dev :=
  (d.kmemCacheFree t).bind fun d => .ok (d.setSubmit t none)

/-! ## Guards -/

/-- A job of the pipe has been handed to `run_job` and is not finished. -/
def Unfinished (d : Dev) (p : PipeId) (u : TaskId) : Prop :=
  (d.task u).state = .pending ∧ (d.task u).finished = false ∧ (d.task u).pipe = p

instance (d : Dev) (p : PipeId) (u : TaskId) : Decidable (d.Unfinished p u) :=
  inferInstanceAs (Decidable (_ ∧ _ ∧ _))

/-- The pipe has no unfinished job. -/
def PipeIdle (d : Dev) (p : PipeId) : Prop := ∀ u < d.numTasks, ¬ d.Unfinished p u

instance (d : Dev) (p : PipeId) : Decidable (d.PipeIdle p) :=
  inferInstanceAs (Decidable (∀ u < d.numTasks, _))

/-- No submit of the file is under way. -/
def NoSubmit (d : Dev) (f : FileId) : Prop :=
  ∀ t < d.numTasks, (d.submit t).map Submit.file ≠ some f

instance (d : Dev) (f : FileId) : Decidable (d.NoSubmit f) :=
  inferInstanceAs (Decidable (∀ t < d.numTasks, _))

/-- What `drm_sched` waits for before it runs a queued job. -/
def CanRun (d : Dev) (t : TaskId) : Prop :=
  (d.task t).state = .queued ∧ (d.pipe (d.task t).pipe).timedout = none ∧
    (d.pipe (d.task t).pipe).fini ≠ .stopped ∧ d.PipeIdle (d.task t).pipe

instance (d : Dev) (t : TaskId) : Decidable (d.CanRun t) :=
  inferInstanceAs (Decidable (_ ∧ _ ∧ _ ∧ _))

/-- What `drm_sched` waits for before it frees a job: that it is finished, and not
the one it is timing out. -/
def CanFree (d : Dev) (t : TaskId) : Prop :=
  ((d.task t).state = .pending ∨ (d.task t).state = .killed) ∧
    (d.task t).finished = true ∧
    (d.pipe (d.task t).pipe).timedout.map Prod.fst ≠ some t

instance (d : Dev) (t : TaskId) : Decidable (d.CanFree t) :=
  inferInstanceAs (Decidable ((_ ∨ _) ∧ _ ∧ _))

end Dev

/-! ## The transition system -/

/-- A call made when `c` holds, if it returns. -/
def guarded (c : Prop) [Decidable c] (o : Outcome Dev) : Option Dev :=
  if c then o.toOption else none

theorem guarded_eq_some {c : Prop} [Decidable c] {o : Outcome Dev} {d : Dev}
    (h : guarded c o = some d) : c ∧ o = .ok d := by
  unfold guarded at h
  split at h
  · rename_i hc
    cases o with
    | ok d' =>
        obtain rfl := Option.some.inj h
        exact ⟨hc, rfl⟩
    | oops => cases h
    | hang => cases h
  · cases h

open Dev

/-- The steps of files, handles and submits. -/
def userStep (cfg : DevConfig) (d : Dev) : DevEvent → Option Dev
  | .fileOpen f kzallocOk pdAlloc dmaAlloc =>
      guarded (d.file f = none)
        (.ok (d.limaDrmDriverOpen cfg.vm f kzallocOk pdAlloc dmaAlloc))
  | .fileClose f =>
      (d.file f).bind fun file =>
        guarded (file.isOpen = true ∧ file.handles = [] ∧ d.NoSubmit f)
          (d.limaDrmDriverPostclose f file)
  | .handleOpen f h b env fuel =>
      (d.file f).bind fun file =>
        guarded (file.isOpen = true ∧ (lookupId h file.handles) = none)
          (d.limaGemObjectOpen f file h b env fuel)
  | .handleClose f h b fuel =>
      (d.file f).bind fun file =>
        guarded ((h, b) ∈ file.handles) (d.limaGemObjectClose f file h b fuel)
  | .submitBegin f p frame handles =>
      (d.file f).bind fun file =>
        guarded (file.isOpen = true ∧ handles ≠ [] ∧
            pipeTaskValidate cfg.submit frame p = none)
          (.ok (d.submitBegin f p frame handles))
  | .submitAdd t =>
      (d.submit t).bind fun sm =>
        (d.file sm.file).bind fun file =>
          match sm.handles with
          | [] => none
          | h :: hs =>
              guarded (sm.failed = false) (d.submitNext t sm file.vm h hs)
  | .submitLockFail t =>
      (d.submit t).bind fun sm =>
        guarded (sm.failed = false ∧ sm.handles = [] ∧ (d.task t).state = .allocated)
          (.ok (d.setSubmit t (some { sm with failed := true })))
  | .submitInit t c kmemdupOk jobInit =>
      (d.submit t).bind fun sm =>
        (d.file sm.file).bind fun file =>
          guarded (sm.failed = false ∧ sm.handles = [] ∧ (d.task t).state = .allocated)
            (d.submitInit t sm file.vm c kmemdupOk jobInit)
  | .submitDepsFail t =>
      (d.submit t).bind fun sm =>
        guarded (sm.failed = false ∧ (d.task t).state = .inited) (d.submitDepsFail t sm)
  | .submitQueue t =>
      (d.submit t).bind fun sm =>
        guarded (sm.failed = false ∧ (d.task t).state = .inited)
          (.ok (d.submitQueue t sm))
  | .submitUndo t fuel =>
      (d.submit t).bind fun sm =>
        (d.file sm.file).bind fun file =>
          match sm.lbos with
          | [] => none
          | b :: bs =>
              guarded (sm.failed = true) (d.submitUndoNext t sm file.vm b bs fuel)
  | .submitEnd t =>
      (d.submit t).bind fun sm =>
        guarded (sm.failed = true ∧ sm.lbos = []) (d.submitEnd t)
  | _ => none

/-- The hardware's side of a GP interrupt: an error-free completion is the unit's
last interrupt. -/
def gpReport (d : Dev) (st : GpIntStat) (active : Bool) : Dev :=
  if !st.error && st.done active then d.modPipe .gp fun x => { x with running := 0 }
  else d

/-- The hardware's side of a PP interrupt. -/
def ppReport (d : Dev) (last : Bool) : Dev :=
  if last then d.modPipe .pp fun x => { x with running := x.running - 1 } else d

/-- The steps of jobs, interrupts and the pipes. -/
def schedStep (cfg : DevConfig) (d : Dev) : DevEvent → Option Dev
  | .runJob t env => guarded (d.CanRun t) (d.dispatch env t)
  | .killJob t => guarded ((d.task t).state = .queued) (.ok (d.killJob t))
  | .freeJob t fuel => guarded (d.CanFree t) (limaSchedFreeJob fuel d t)
  | .gpIrq st active =>
      guarded (0 < (d.pipe .gp).running ∧ (d.pipe .gp).intMask = true)
        ((gpReport d st active).limaGpIrqHandler st active)
  | .ppIrq error last =>
      guarded (0 < (d.pipe .pp).running ∧ (error = true ∨ last = true))
        ((ppReport d last).limaPpIrqHandler error)
  | .mmuIrq p => guarded (0 < (d.pipe p).running) (d.limaSchedPipeMmuError p)
  | .recoverBegin p =>
      (d.pipe p).recoverQueued.bind fun w =>
        guarded ((d.pipe p).recoverRunning = none) (d.recoverBegin p w)
  | .recoverEnd p env fuel =>
      (d.pipe p).recoverRunning.bind fun r =>
        guarded True (recoverEnd cfg.vm.initNrPages d env fuel p r.2)
  | .timedoutBegin p t =>
      guarded ((d.pipe p).timedout = none ∧ (d.pipe p).fini ≠ .stopped ∧
        (d.task t).state = .pending ∧ (d.task t).pipe = p) (.ok (d.timedoutBegin p t))
  | .timedoutReset p resetOk faulted =>
      (d.pipe p).timedout.bind fun x =>
        guarded (x.2 = .stopped) (.ok (d.timedoutReset p x.1 resetOk faulted))
  | .timedoutClear p =>
      (d.pipe p).timedout.bind fun x =>
        guarded (x.2 = .reset) (d.timedoutClear p x.1)
  | .timedoutResubmit p u cancel env =>
      (d.pipe p).timedout.bind fun x =>
        guarded (x.2 = .cleared ∧ d.Unfinished p u)
          (d.timedoutResubmit p x.1 u cancel env)
  | .timedoutEnd p =>
      (d.pipe p).timedout.bind fun x =>
        guarded (x.2 = .resubmitted ∨ x.2 = .cleared ∧ d.PipeIdle p)
          (.ok (d.timedoutEnd p))
  | .finiCheck p =>
      guarded ((d.pipe p).fini = .idle) (d.finiCheck cfg.fakeWedge p)
  | .finiRelease p resetOk =>
      match (d.pipe p).fini with
      | .checked task => guarded True (d.finiRelease p resetOk task)
      | _ => none
  | .finiStop p =>
      guarded ((d.pipe p).fini = .released ∧ (d.pipe p).timedout = none)
        (.ok (d.finiStop p))
  | _ => none

def devStep (cfg : DevConfig) (d : Dev) (e : DevEvent) : Option Dev :=
  (userStep cfg d e).orElse fun _ => schedStep cfg d e

/-- Runs of a device from its probe on, `s` being the objects and the address
spaces it starts with. -/
def devLts (cfg : DevConfig) : Lts Dev DevEvent where
  init d := ∃ s : Sys, d = .boot s ∧ (∀ b, (s.bo b).va = []) ∧
    (∀ v vm, s.vm v = some vm → v < s.numVms)
  step d e d' := devStep cfg d e = some d'

end Lima
