import Lima.Sched.SubmitRefs
import Lima.Vm.Unmap

/-!
# A submit gives back what it takes

Where a GEM_SUBMIT call can end, as three kinds of result: it has failed with every
reference as before, it has failed in `drm_sched_job_init` and kept references to
its objects, or it has pushed a job that holds exactly what `lima_sched_free_job`
gives back. The call is balanced if and only if it does not end in the second way.
-/

namespace Lima

/-- The reference counts of `d'` are those of `d`: of every GEM object, every
mapping and address space, every context and sync object. -/
structure SameRefs (d d' : Dev) : Prop where
  sys : d'.sys = d.sys
  gem : d'.gemRef = d.gemRef
  ctx : d'.ctxRef = d.ctxRef
  sync : d'.syncRef = d.syncRef

theorem SameRefs.refl (d : Dev) : SameRefs d d := ⟨rfl, rfl, rfl, rfl⟩

/-- Nothing but the task `t` of the call may have changed beside the references,
and it is not freed yet. -/
structure OnlyTask (t : TaskId) (d d' : Dev) : Prop where
  numTasks : d'.numTasks = d.numTasks
  others : ∀ u, u ≠ t → d'.task u = d.task u
  notFreed : (d'.task t).state ≠ .freed

/-- The task is queued and holds its objects, their mappings and its address
space. -/
structure Pushed (t : TaskId) (v : VmId) (vm : Vm) (lbos : List BoId) (d d' : Dev) :
    Prop where
  live : d.sys.vm v = some vm ∧ 0 < vm.refcount
  mapped : ∀ b ∈ lbos, d.sys.Mapped v b
  sys : d'.sys = (d.sys.setVm v vm.getRef).hold v lbos
  gem : ∀ b, d'.gemRef b = d.gemRef b + lbos.count b
  ctx : d'.ctxRef = d.ctxRef
  sync : d'.syncRef = d.syncRef
  vm_eq : (d'.task t).vm = some v
  bos_eq : (d'.task t).bos = lbos
  state_eq : (d'.task t).state = .queued

/-- How a submit can end, `reached` telling whether it got to
`drm_sched_job_init`. -/
inductive SubmitEnds (env : SubmitEnv) (reached : Prop) (t : TaskId) (v : VmId)
    (d d' : Dev) : Option Errno → Prop
  | failed {e : Errno} : SameRefs d d' → ¬ (reached ∧ env.jobInit.isSome = true) →
      SubmitEnds env reached t v d d' (some e)
  | leaked {e : Errno} (lbos : List BoId) : reached → env.jobInit = some e →
      lbos ≠ [] → (∀ b, d'.gemRef b = d.gemRef b + lbos.count b) →
      SubmitEnds env reached t v d d' (some e)
  | pushed (vm : Vm) (lbos : List BoId) : env.jobInit = none →
      Pushed t v vm lbos d d' → SubmitEnds env reached t v d d' none

namespace Dev

variable {d : Dev} {f : FileId} {file : DrmFile} {env : SubmitEnv} {a : SubmitArgs}

/-! ## The locked part -/

theorem submitErrOut0_hold {v : VmId} (fuel : ℕ) (lbos : List BoId)
    (outSync : Option SyncId) (e : Errno) (hall : ∀ b ∈ lbos, d.sys.Mapped v b) :
    submitErrOut0 fuel v lbos outSync e (d.hold v lbos) =
      .ok (d.syncobjPut outSync, some e) := by
  rw [submitErrOut0, submitUndos_hold fuel lbos hall, Outcome.bind_ok]

/-- From the locked reservations on; `sync` are the sync object references the
final `drm_syncobj_put` goes back to. -/
theorem submitLocked_ends {v : VmId} {vm : Vm} {t : TaskId} {c : CtxId}
    {lbos : List BoId} {outSync : Option SyncId} {sync : SyncId → ℕ} (fuel : ℕ)
    (hlive : d.sys.vm v = some vm) (hpos : 0 < vm.refcount) (hne : lbos ≠ [])
    (hall : ∀ b ∈ lbos, d.sys.Mapped v b) (hstate : (d.task t).state ≠ .freed)
    (hput : ∀ e : Dev, e.syncRef = d.syncRef →
      e.syncobjPut outSync = { e with syncRef := sync }) :
    ∃ d' r, submitLocked fuel env a t c v lbos outSync (d.hold v lbos) = .ok (d', r) ∧
      SubmitEnds env (env.kmemdupOk = true) t v { d with syncRef := sync } d' r ∧
      OnlyTask t { d with syncRef := sync } d' := by
  unfold submitLocked
  cases hk : env.kmemdupOk with
  | false =>
      refine ⟨{ d with syncRef := sync }, some .enomem, ?_, ?_, ?_⟩
      · simp only [limaSchedTaskInit, Bool.not_false, if_true, Outcome.bind_ok]
        rw [submitErrOut0_hold fuel lbos outSync _ hall, hput d rfl]
      · exact .failed (.refl _) (by simp)
      · exact ⟨rfl, fun _ _ => rfl, hstate⟩
  | true =>
      cases hj : env.jobInit with
      | some e =>
          refine ⟨{ d with
            gemRef := fun b => d.gemRef b + lbos.count b
            syncRef := sync }, some e, ?_, ?_, ?_⟩
          · rw [limaSchedTaskInit_leak, Outcome.bind_ok]
            refine Eq.trans (submitErrOut0_hold fuel lbos outSync e hall) ?_
            exact congrArg (fun x => Outcome.ok (x, some e)) (hput _ rfl)
          · exact .leaked lbos rfl hj hne fun _ => rfl
          · exact ⟨rfl, fun _ _ => rfl, hstate⟩
      | none =>
          rw [limaSchedTaskInit_hold hlive, Outcome.bind_ok]
          simp only
          cases hdeps : submitDeps env a lbos.length with
          | some e =>
              refine ⟨{ d.modTask t (fun task =>
                { task.init c v lbos with state := .allocated }) with
                syncRef := sync }, some e, ?_, ?_, ?_⟩
              · simp only
                rw [limaSchedTaskFini_inited hlive hpos, Outcome.bind_ok]
                refine Eq.trans (submitErrOut0_hold fuel lbos outSync e hall) ?_
                exact congrArg (fun x => Outcome.ok (x, some e)) (hput _ rfl)
              · exact .failed ⟨rfl, rfl, rfl, rfl⟩ (by simp [hj])
              · refine ⟨rfl, fun u hu => ?_, ?_⟩
                · simp [modTask, hu]
                · simp [modTask, Task.init]
          | none =>
              have hsync := hput (gemPuts lbos (((d.inited t c v lbos vm).hold v
                lbos).limaSchedContextQueueTask t)) (by rw [gemPuts_eq]; rfl)
              rw [gemPuts_eq] at hsync
              refine ⟨_, none, rfl, .pushed vm lbos hj ?_, ?_⟩
              · rw [gemPuts_eq, hsync]
                refine ⟨⟨hlive, hpos⟩, hall, rfl, fun b => ?_, rfl, rfl, ?_, ?_, ?_⟩
                · simp [limaSchedContextQueueTask, inited, hold, modTask]
                · simp [limaSchedContextQueueTask, inited, hold, modTask, Task.init]
                · simp [limaSchedContextQueueTask, inited, hold, modTask, Task.init]
                · simp [limaSchedContextQueueTask, inited, hold, modTask, Task.init]
              · rw [gemPuts_eq, hsync]
                refine ⟨rfl, fun u hu => ?_, ?_⟩
                · simp [limaSchedContextQueueTask, inited, hold, modTask, hu]
                · simp [limaSchedContextQueueTask, inited, hold, modTask]

/-! ## The ioctl -/

theorem findOutSync_some {id : ℕ} {d₁ : Dev} {outSync : Option SyncId}
    (h : d.findOutSync file id = some (d₁, outSync)) :
    ∃ sync, d₁ = { d with syncRef := sync } ∧ ∀ e : Dev, e.syncRef = sync →
      e.syncobjPut outSync = { e with syncRef := d.syncRef } := by
  unfold findOutSync at h
  split at h
  · obtain ⟨rfl, rfl⟩ := Prod.mk.inj (Option.some.inj h)
    exact ⟨d.syncRef, rfl, fun e he => by rw [syncobjPut, ← he]⟩
  · obtain ⟨x, -, hx⟩ := Option.map_eq_some_iff.mp h
    obtain ⟨rfl, rfl⟩ := Prod.mk.inj hx
    refine ⟨_, rfl, fun e he => ?_⟩
    simp [syncobjPut, he]

theorem SubmitReady.of_eq {d' : Dev} (hr : d.SubmitReady f file)
    (hsys : d'.sys = d.sys) (hfile : d'.file = d.file) : d'.SubmitReady f file where
  entry := hfile ▸ hr.entry
  live := hsys ▸ hr.live
  referenced := hsys ▸ hr.referenced

theorem findOutSync_isSome {id : ℕ} :
    (d.findOutSync file id).isSome ↔ id = 0 ∨ (lookupId id file.syncs).isSome := by
  unfold findOutSync
  split
  · simp [*]
  · simp [*]

/-- The submit gets past the lookups and the locking of the reservations, and the
copy of its object list is allocated. -/
structure GemSubmitReaches (env : SubmitEnv) (a : SubmitArgs) (d : Dev)
    (file : DrmFile) : Prop where
  outSync : a.outSync = 0 ∨ (lookupId a.outSync file.syncs).isSome
  handles : ∀ h ∈ a.handles, (d.resolve file h).isSome
  lock : env.lock = none
  kmemdup : env.kmemdupOk = true

theorem limaGemSubmit_ends {t : TaskId} (env : SubmitEnv) (c : CtxId) (fuel : ℕ)
    (hr : d.SubmitReady f file) (hne : a.handles ≠ [])
    (hstate : (d.task t).state ≠ .freed) :
    ∃ d' r, d.limaGemSubmit fuel env f file a t c = .ok (d', r) ∧
      SubmitEnds env (GemSubmitReaches env a d file) t file.vm d d' r ∧
      OnlyTask t d d' := by
  unfold limaGemSubmit
  cases hout : d.findOutSync file a.outSync with
  | none =>
      refine ⟨d, some .enoent, rfl, .failed (.refl d) ?_, rfl, fun _ _ => rfl, hstate⟩
      rintro ⟨⟨hsync, -⟩, -⟩
      rw [← findOutSync_isSome, hout] at hsync
      cases hsync
  | some x =>
      obtain ⟨d₁, outSync⟩ := x
      obtain ⟨sync, rfl, hput⟩ := findOutSync_some hout
      have hr₁ : { d with syncRef := sync }.SubmitReady f file := hr.of_eq rfl rfl
      obtain ⟨lbos, r, hadds, hall, hiff, hlen⟩ := submitAdds_hold hr₁ a.handles [] nofun
      rw [hold_nil] at hadds
      simp only [hadds, Outcome.bind_ok]
      cases r with
      | some e =>
          refine ⟨d, some e, ?_, .failed (.refl d) ?_, rfl, fun _ _ => rfl, hstate⟩
          · refine Eq.trans (submitErrOut0_hold fuel lbos outSync e hall) ?_
            exact congrArg (fun x => Outcome.ok (x, some e)) (hput _ rfl)
          · rintro ⟨⟨-, hhandles, -⟩, -⟩
            cases hiff.mpr hhandles
      | none =>
          cases hlock : env.lock with
          | some e =>
              refine ⟨d, some e, ?_, .failed (.refl d) ?_, rfl, fun _ _ => rfl, hstate⟩
              · refine Eq.trans (submitErrOut0_hold fuel lbos outSync e hall) ?_
                exact congrArg (fun x => Outcome.ok (x, some e)) (hput _ rfl)
              · rintro ⟨⟨-, -, hl, -⟩, -⟩
                rw [hlock] at hl
                cases hl
          | none =>
              obtain ⟨vm, hvm, hpos⟩ := hr.live
              have hlbos : lbos ≠ [] := by
                rintro rfl
                have hz := hlen rfl
                simp only [List.length_nil, Nat.zero_add] at hz
                exact hne (List.length_eq_zero_iff.mp hz.symm)
              have hvm₁ : { d with syncRef := sync }.sys.vm file.vm = some vm := hvm
              obtain ⟨d', r, hrun, hends, honly⟩ :=
                submitLocked_ends fuel hvm₁ hpos hlbos hall hstate hput
              refine ⟨d', r, hrun, ?_, honly⟩
              have hsync := findOutSync_isSome.mp (Option.isSome_of_eq_some hout)
              cases hends with
              | failed hsame hnot =>
                  exact .failed hsame fun hreach => hnot ⟨hreach.1.kmemdup, hreach.2⟩
              | leaked lbos hk hj hlb hgem =>
                  exact .leaked lbos ⟨hsync, hiff.mp rfl, hlock, hk⟩ hj hlb hgem
              | pushed vm lbos hj hpushed => exact .pushed vm lbos hj hpushed

end Dev

/-- From the allocated task on, no step before `drm_sched_job_init` fails. -/
structure SubmitTaskReaches (cfg : SubmitConfig) (env : SubmitEnv) (a : SubmitArgs)
    (p : PipeId) (d : Dev) (file : DrmFile) : Prop where
  copyFrame : env.copyFrameOk = true
  validate : pipeTaskValidate cfg a.frame p = none
  ctx : (lookupId a.ctx file.ctxs).isSome
  submit : d.GemSubmitReaches env a file

/-- The call gets to `drm_sched_job_init`: no step before it fails. -/
structure ReachesJobInit (cfg : SubmitConfig) (env : SubmitEnv) (a : SubmitArgs)
    (d : Dev) (file : DrmFile) : Prop where
  task : ∃ p, pipeOfArg a.pipe = some p ∧ a.frameSize = cfg.frameSize p ∧
    SubmitTaskReaches cfg env a p d file
  handles : a.handles ≠ []
  flags : a.flags ≤ limaSubmitFlagExplicitFence
  kvcalloc : env.kvcallocOk = true
  copyBos : env.copyBosOk = true
  zalloc : env.zallocOk = true

/-- Either no task was allocated, or the one allocated is freed. -/
def TaskReturned (d d' : Dev) : Prop :=
  (d'.numTasks = d.numTasks ∧ d'.task = d.task) ∨
    d'.numTasks = d.numTasks + 1 ∧ (d'.task d.numTasks).state = .freed ∧
      ∀ u, u ≠ d.numTasks → d'.task u = d.task u

namespace Dev

variable {d : Dev} {f : FileId} {file : DrmFile} {env : SubmitEnv} {a : SubmitArgs}

/-- The task is freed on the way out, whatever happened to the references. -/
theorem submitOut1_ends {reached : Prop} {d' : Dev} {t : TaskId} {v : VmId} {e : Errno}
    (hstate : (d'.task t).state ≠ .freed)
    (hends : SubmitEnds env reached t v d d' (some e)) :
    ∃ d'', d'.submitOut1 t e = .ok (d'', some e) ∧
      SubmitEnds env reached t v d d'' (some e) ∧ d''.numTasks = d'.numTasks ∧
      (d''.task t).state = .freed ∧ ∀ u, u ≠ t → d''.task u = d'.task u := by
  refine ⟨d'.modTask t fun task => { task with state := .freed }, ?_, ?_, rfl, ?_, ?_⟩
  · simp [submitOut1, kmemCacheFree, readTask, hstate]
  · cases hends with
    | failed hsame hnot => exact .failed ⟨hsame.sys, hsame.gem, hsame.ctx, hsame.sync⟩ hnot
    | leaked lbos hr hj hne hgem => exact .leaked lbos hr hj hne hgem
  · simp
  · exact fun u hu => modTask_task_ne _ hu _

/-- `lima_ctx_put` takes back what `lima_ctx_get` took. -/
theorem ctxPut_ends {reached reached' : Prop} {d' : Dev} {t : TaskId} {v : VmId}
    {c : CtxId} {frame : Frame} {r : Option Errno} (hiff : reached ↔ reached')
    (h : SubmitEnds env reached t v ((d.setFrame t frame).ctxRefGet c) d' r) :
    SubmitEnds env reached' t v d (d'.limaCtxPut c) r := by
  have hback : ∀ ref, ref = ((d.setFrame t frame).ctxRefGet c).ctxRef →
      Function.update ref c (ref c - 1) = d.ctxRef := by
    rintro ref rfl
    simp [ctxRefGet, setFrame, modTask]
  cases h with
  | failed hsame hnot =>
      exact .failed ⟨hsame.sys, hsame.gem, hback _ hsame.ctx, hsame.sync⟩
        fun h => hnot ⟨hiff.mpr h.1, h.2⟩
  | leaked lbos hr hj hne hl => exact .leaked lbos (hiff.mp hr) hj hne hl
  | pushed vm lbos hj hp =>
      exact .pushed vm lbos hj ⟨hp.live, hp.mapped, hp.sys, hp.gem, hback _ hp.ctx,
        hp.sync, hp.vm_eq, hp.bos_eq, hp.state_eq⟩

theorem submitTask_ends (cfg : SubmitConfig) (fuel : ℕ) (env : SubmitEnv) (p : PipeId)
    {t : TaskId} (hr : d.SubmitReady f file) (hne : a.handles ≠ [])
    (hstate : (d.task t).state ≠ .freed) :
    ∃ d' r, submitTask cfg fuel env d f file a p t = .ok (d', r) ∧
      SubmitEnds env (SubmitTaskReaches cfg env a p d file) t file.vm d d' r ∧
      d'.numTasks = d.numTasks ∧ (∀ u, u ≠ t → d'.task u = d.task u) ∧
      (r ≠ none → (d'.task t).state = .freed) := by
  -- the paths that end at `out1`
  have hout1 : ∀ {d₁ : Dev} {e : Errno},
      SubmitEnds env (SubmitTaskReaches cfg env a p d file) t file.vm d d₁ (some e) →
      OnlyTask t d d₁ → ∃ d' r, d₁.submitOut1 t e = .ok (d', r) ∧
        SubmitEnds env (SubmitTaskReaches cfg env a p d file) t file.vm d d' r ∧
        d'.numTasks = d.numTasks ∧ (∀ u, u ≠ t → d'.task u = d.task u) ∧
        (r ≠ none → (d'.task t).state = .freed) := by
    intro d₁ e hends honly
    obtain ⟨d', hrun, hends', hnum, hfreed, hothers⟩ :=
      submitOut1_ends honly.notFreed hends
    exact ⟨d', _, hrun, hends', hnum.trans honly.numTasks,
      fun u hu => (hothers u hu).trans (honly.others u hu), fun _ => hfreed⟩
  unfold submitTask
  cases hcopy : env.copyFrameOk with
  | false =>
      refine hout1 (.failed (.refl d) fun h => ?_) ⟨rfl, fun _ _ => rfl, hstate⟩
      have hframe := h.1.copyFrame
      rw [hcopy] at hframe
      cases hframe
  | true =>
      have hsame : SameRefs d (d.setFrame t a.frame) := ⟨rfl, rfl, rfl, rfl⟩
      have honly : OnlyTask t d (d.setFrame t a.frame) :=
        ⟨rfl, fun u hu => modTask_task_ne _ hu _, by simpa [setFrame] using hstate⟩
      simp only [Bool.not_true, Bool.false_eq_true, if_false]
      cases hval : pipeTaskValidate cfg a.frame p with
      | some e =>
          refine hout1 (.failed hsame fun h => ?_) honly
          have hv := h.1.validate
          rw [hval] at hv
          cases hv
      | none =>
          cases hctx : lookupId a.ctx file.ctxs with
          | none =>
              simp only [limaCtxGet, hctx, Option.map_none]
              refine hout1 (.failed hsame fun h => ?_) honly
              have hc := h.1.ctx
              rw [hctx] at hc
              cases hc
          | some c =>
              simp only [limaCtxGet, hctx, Option.map_some]
              have hr₂ : ((d.setFrame t a.frame).ctxRefGet c).SubmitReady f file :=
                hr.of_eq rfl rfl
              obtain ⟨d', r, hrun, hends, hsub⟩ :=
                limaGemSubmit_ends env c fuel hr₂ hne honly.notFreed
              rw [hrun, Outcome.bind_ok]
              have hiff : ((d.setFrame t a.frame).ctxRefGet c).GemSubmitReaches env a file
                  ↔ SubmitTaskReaches cfg env a p d file :=
                ⟨fun h => ⟨hcopy, hval, by simp [hctx], ⟨h.1, h.2, h.3, h.4⟩⟩,
                  fun h => ⟨h.submit.1, h.submit.2, h.submit.3, h.submit.4⟩⟩
              have hends' := ctxPut_ends hiff hends
              have honly' : OnlyTask t d (d'.limaCtxPut c) :=
                ⟨hsub.numTasks, fun u hu => (hsub.others u hu).trans (honly.others u hu),
                  hsub.notFreed⟩
              cases r with
              | none =>
                  exact ⟨_, none, rfl, hends', honly'.numTasks, honly'.others, nofun⟩
              | some e => exact hout1 hends' honly'

theorem zalloc_ends {reached reached' : Prop} {d' : Dev} {t : TaskId} {v : VmId}
    {p : PipeId} {r : Option Errno} (hiff : reached ↔ reached')
    (h : SubmitEnds env reached t v (d.zallocTask p) d' r) :
    SubmitEnds env reached' t v d d' r := by
  cases h with
  | failed hsame hnot =>
      exact .failed ⟨hsame.sys, hsame.gem, hsame.ctx, hsame.sync⟩
        fun h => hnot ⟨hiff.mpr h.1, h.2⟩
  | leaked lbos hr hj hne hl => exact .leaked lbos (hiff.mp hr) hj hne hl
  | pushed vm lbos hj hp =>
      exact .pushed vm lbos hj ⟨hp.live, hp.mapped, hp.sys, hp.gem, hp.ctx, hp.sync,
        hp.vm_eq, hp.bos_eq, hp.state_eq⟩

/-- How the ioctl can end. -/
theorem limaIoctlGemSubmit_ends (cfg : SubmitConfig) (fuel : ℕ) (env : SubmitEnv)
    (a : SubmitArgs) (hr : d.SubmitReady f file) :
    ∃ d' r, limaIoctlGemSubmit cfg fuel env d f file a = .ok (d', r) ∧
      SubmitEnds env (ReachesJobInit cfg env a d file) d.numTasks file.vm d d' r ∧
      (r ≠ none → TaskReturned d d') := by
  -- the paths before a task is allocated
  have hearly : ∀ {e : Errno}, ¬ ReachesJobInit cfg env a d file →
      ∃ d' r, Outcome.ok (d, some e) = .ok (d', r) ∧
        SubmitEnds env (ReachesJobInit cfg env a d file) d.numTasks file.vm d d' r ∧
        (r ≠ none → TaskReturned d d') := fun hnot =>
    ⟨d, _, rfl, .failed (.refl d) fun h => hnot h.1, fun _ => .inl ⟨rfl, rfl⟩⟩
  unfold limaIoctlGemSubmit
  cases hpipe : pipeOfArg a.pipe with
  | none =>
      refine hearly fun h => ?_
      obtain ⟨p, hp, -⟩ := h.task
      rw [hpipe] at hp
      cases hp
  | some p =>
      simp only
      split
      · rename_i hempty
        exact hearly fun h => h.handles hempty
      rename_i hne
      split
      · rename_i hflags
        exact hearly fun h => absurd h.flags (by omega)
      rename_i hflags
      split
      · rename_i hsize
        refine hearly fun h => hsize ?_
        obtain ⟨q, hq, hframe, -⟩ := h.task
        rw [hpipe] at hq
        obtain rfl := Option.some.inj hq
        exact hframe
      rename_i hsize
      split
      · rename_i hkv
        exact hearly fun h => by simp [h.kvcalloc] at hkv
      rename_i hkv
      split
      · rename_i hcopy
        exact hearly fun h => by simp [h.copyBos] at hcopy
      rename_i hcopy
      split
      · rename_i hz
        exact hearly fun h => by simp [h.zalloc] at hz
      rename_i hz
      have hr₁ : (d.zallocTask p).SubmitReady f file := hr.of_eq rfl rfl
      have hstate : ((d.zallocTask p).task d.numTasks).state ≠ .freed := by
        simp [zallocTask, Task.zeroed]
      obtain ⟨d', r, hrun, hends, hnum, hothers, hfreed⟩ :=
        submitTask_ends cfg fuel env p hr₁ hne hstate
      have hiff : SubmitTaskReaches cfg env a p (d.zallocTask p) file ↔
          ReachesJobInit cfg env a d file := by
        constructor
        · rintro ⟨h₁, h₂, h₃, h₄⟩
          exact ⟨⟨p, hpipe, not_not.mp hsize, h₁, h₂, h₃, ⟨h₄.1, h₄.2, h₄.3, h₄.4⟩⟩, hne,
            by omega, by simpa using hkv, by simpa using hcopy, by simpa using hz⟩
        · intro h
          obtain ⟨q, hq, -, h₁, h₂, h₃, h₄⟩ := h.task
          rw [hpipe] at hq
          obtain rfl := Option.some.inj hq
          exact ⟨h₁, h₂, h₃, ⟨h₄.1, h₄.2, h₄.3, h₄.4⟩⟩
      refine ⟨d', r, hrun, zalloc_ends hiff hends, fun hr' => .inr ⟨hnum, hfreed hr', ?_⟩⟩
      intro u hu
      rw [hothers u hu]
      simp [zallocTask, hu]

end Dev

/-! ## Balance -/

/-- The job `d.numTasks` is queued, and its `lima_sched_free_job`, called when
nothing else has moved the references, brings them back to those of `d` and frees
the task. -/
def JobGivesBack (d d' : Dev) : Prop :=
  (d'.task d.numTasks).state = .queued ∧
    ∀ (e : Dev) (fuel : ℕ), SameRefs d' e →
      (e.task d.numTasks).vm = (d'.task d.numTasks).vm →
      (e.task d.numTasks).bos = (d'.task d.numTasks).bos →
      (e.task d.numTasks).state ≠ .freed →
      ∃ e', Dev.limaSchedFreeJob fuel e d.numTasks = .ok e' ∧ SameRefs d e' ∧
        (e'.task d.numTasks).state = .freed

/-- The call returns. If it fails, every reference is as before and the task it
allocated, if any, is freed; if it succeeds, the job gives back what it holds. -/
def SubmitBalanced (cfg : SubmitConfig) (fuel : ℕ) (env : SubmitEnv) (d : Dev)
    (f : FileId) (file : DrmFile) (a : SubmitArgs) : Prop :=
  ∃ d' r, d.limaIoctlGemSubmit cfg fuel env f file a = .ok (d', r) ∧
    (r ≠ none → SameRefs d d' ∧ TaskReturned d d') ∧ (r = none → JobGivesBack d d')

theorem Pushed.givesBack {d d' : Dev} {v : VmId} {vm : Vm} {lbos : List BoId}
    (h : Pushed d.numTasks v vm lbos d d') : JobGivesBack d d' := by
  refine ⟨h.state_eq, fun e fuel hsame hvm hbos hstate => ?_⟩
  obtain ⟨e', hrun, hsys, hgem, hctx, hsync, hfreed⟩ :=
    Dev.limaSchedFreeJob_held fuel h.live.1 h.live.2 h.mapped (hsame.sys.trans h.sys)
      (hvm.trans h.vm_eq) (hbos.trans h.bos_eq) hstate
  refine ⟨e', hrun, ⟨hsys, ?_, hctx.trans (hsame.ctx.trans h.ctx),
    hsync.trans (hsame.sync.trans h.sync)⟩, hfreed⟩
  funext b
  rw [hgem, hsame.gem, h.gem, Nat.add_sub_cancel]

/-- **Main result.** A submit is balanced if and only if `drm_sched_job_init` does
not fail in it: where it is reached and fails, the call returns its error and keeps
the GEM references `lima_sched_task_init` has taken. -/
theorem limaIoctlGemSubmit_balanced_iff (cfg : SubmitConfig) (fuel : ℕ)
    (env : SubmitEnv) {d : Dev} {f : FileId} {file : DrmFile} (a : SubmitArgs)
    (hr : d.SubmitReady f file) :
    SubmitBalanced cfg fuel env d f file a ↔
      ¬ (ReachesJobInit cfg env a d file ∧ env.jobInit.isSome = true) := by
  obtain ⟨d', r, hrun, hends, hreturned⟩ := d.limaIoctlGemSubmit_ends cfg fuel env a hr
  constructor
  · rintro ⟨d₁, r₁, hrun₁, hfail, -⟩ ⟨hreach, hjob⟩
    rw [hrun] at hrun₁
    obtain ⟨rfl, rfl⟩ := Prod.mk.inj (Outcome.ok.inj hrun₁)
    cases hends with
    | failed hsame hnot => exact hnot ⟨hreach, hjob⟩
    | leaked lbos hreach hj hne hl =>
        -- the first object has lost a reference
        obtain ⟨b, bs, rfl⟩ := List.exists_cons_of_ne_nil hne
        have hsame := congrFun (hfail (by simp)).1.gem b
        rw [hl b, List.count_cons_self] at hsame
        omega
    | pushed vm lbos hj hp => simp [hj] at hjob
  · intro hnot
    refine ⟨d', r, hrun, fun hr' => ⟨?_, hreturned hr'⟩, ?_⟩
    · cases hends with
      | failed hsame _ => exact hsame
      | leaked lbos hreach hj hne hl => exact absurd ⟨hreach, by simp [hj]⟩ hnot
      | pushed vm lbos hj hp => exact absurd rfl hr'
    · rintro rfl
      cases hends with
      | pushed vm lbos hj hp => exact hp.givesBack

/-! ## A device with one open file -/

/-- A file with one handle, to an object it has mapped, and one context. -/
def onePageFile : DrmFile where
  vm := 0
  isOpen := true
  handles := [(1, 0)]
  ctxs := [(0, 0)]
  syncs := []

def onePageDev : Dev :=
  { Dev.boot (onePageSys (limaDeviceInit .mali400 0) 0x10000) with
    file := fun f => if f = 0 then some onePageFile else none
    gemRef := fun b => if b = 0 then 1 else 0
    ctxRef := fun c => if c = 0 then 1 else 0 }

def mali400Submit : SubmitConfig where
  bcast := false
  numProcessor := 2
  frameSize := fun _ => 24

/-- A GP job on the object, both units started. -/
def onePageSubmit : SubmitArgs where
  pipe := 0
  handles := [1]
  flags := 0
  frameSize := 24
  frame := ⟨0x10000, 0x10100, 0x10200, 0x10300, 0, 0, 0, 0⟩
  ctx := 0
  inSync := [0, 0]
  outSync := 0

/-- Every step succeeds, but for `drm_sched_job_init` as given. -/
def submitEnvWith (jobInit : Option Errno) : SubmitEnv where
  kvcallocOk := true
  copyBosOk := true
  zallocOk := true
  copyFrameOk := true
  lock := none
  kmemdupOk := true
  jobInit := jobInit
  syncobjDep := fun _ => none
  reserveFences := fun _ => none
  implicitDeps := fun _ => none

theorem onePageDev_ready : onePageDev.SubmitReady 0 onePageFile where
  entry := rfl
  live := ⟨_, rfl, by decide⟩
  referenced := by
    intro b x hx
    have hbo : onePageDev.sys.bo b = if b = 0 then onePageBo.addVa (onePageVa 0x10000)
        else onePageBo := by
      by_cases hb : b = 0
      · subst hb
        rfl
      · rw [if_neg hb]
        exact Function.update_of_ne hb _ _
    rw [hbo] at hx
    split at hx
    · obtain rfl := Option.some.inj hx
      decide
    · cases hx

theorem limaIoctlGemSubmit_balanced_onePage :
    SubmitBalanced mali400Submit 0 (submitEnvWith none) onePageDev 0 onePageFile
      onePageSubmit :=
  (limaIoctlGemSubmit_balanced_iff _ _ _ _ onePageDev_ready).mpr (by simp [submitEnvWith])

/-- When `drm_sched_job_init` runs out of memory, the object of the failed call
stays referenced twice. -/
theorem limaIoctlGemSubmit_leaks : onePageDev.SubmitReady 0 onePageFile ∧
    ¬ SubmitBalanced mali400Submit 0 (submitEnvWith (some .enomem)) onePageDev 0
      onePageFile onePageSubmit := by
  refine ⟨onePageDev_ready, ?_⟩
  rintro ⟨d', r, hrun, hfail, -⟩
  have hres : ∀ x : Outcome (Dev × Option Errno), x = .ok (d', r) →
      x.toOption.map (fun y => (y.1.gemRef 0, y.2)) = some (d'.gemRef 0, r) := by
    rintro x rfl
    rfl
  have hval := hres _ hrun
  rw [show (onePageDev.limaIoctlGemSubmit mali400Submit 0 (submitEnvWith (some .enomem)) 0
    onePageFile onePageSubmit).toOption.map (fun y => (y.1.gemRef 0, y.2)) =
      some (2, some .enomem) from rfl] at hval
  obtain ⟨hgem, rfl⟩ := Prod.mk.inj (Option.some.inj hval)
  have hsame := congrFun (hfail (by simp)).1.gem 0
  rw [← hgem] at hsame
  cases hsame

end Lima
