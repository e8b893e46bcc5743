import Lima.Sched.Space
import Lima.Vm.Complete

/-!
# No step of a user or of the scheduler faults

What users and `drm_sched` ask of the driver completes, whatever the interleaving: no call of
theirs follows a pointer to an address space, a mapping or a task that is gone, none finds a
backing table missing, and every unmap ends. Interrupts, the recovery work and the teardown
of a pipe, which follow `current_task`, are not among these steps.
-/

namespace Lima

open RefCount

/-! ## Users keep alive what they use -/

theorem limaVmPut_returns {s : Sys} {a : Option VmId} (h : ∀ v, a = some v → Alive s.vmRefs v) :
    ∃ s', limaVmPut s a = .ok s' := by
  cases a with
  | none => exact ⟨s, rfl⟩
  | some v =>
      obtain ⟨n, -, hn⟩ := h v rfl
      obtain ⟨vm, hvm, -⟩ := Option.map_eq_some_iff.mp hn
      simp only [limaVmPut, hvm]
      split
      · exact ⟨_, rfl⟩
      · exact ⟨_, rfl⟩

theorem limaVmGet_returns {s : Sys} {v : VmId} (h : Alive s.vmRefs v) :
    ∃ s', limaVmGet s v = .ok s' := by
  obtain ⟨n, -, hn⟩ := h
  obtain ⟨vm, hvm, -⟩ := Option.map_eq_some_iff.mp hn
  exact ⟨_, by rw [limaVmGet, hvm]⟩

namespace VmBalance

variable {d : Dev} {f : FileId} {file : DrmFile} {t : TaskId} {v : VmId} {b : BoId}

theorem file_alive (h : VmBalance d) (hf : d.file f = some file) (hopen : file.isOpen = true) :
    Alive d.sys.vmRefs file.vm := by
  refine (h.refs f file hf).live ?_
  rw [Dev.vmUsers, hopen]
  simp only [Bool.toNat_true]
  omega

/-- What a task counts for among the users of its address space. -/
theorem held_users (hlt : t < d.numTasks) (hv : d.heldVm t = some v) :
    0 < holders (Finset.range d.numTasks) d.heldVm v :=
  holders_pos.mpr ⟨t, Finset.mem_range.mpr hlt, hv⟩

theorem current_users {p : PipeId} (hv : d.currentVms p = some v) :
    0 < holders {PipeId.gp, PipeId.pp} d.currentVms v :=
  holders_pos.mpr ⟨p, by cases p <;> simp, hv⟩

theorem held_alive (h : VmBalance d) (hlt : t < d.numTasks) (hv : d.heldVm t = some v) :
    Alive d.sys.vmRefs v := by
  obtain ⟨f, hf⟩ := h.held t v hv
  obtain ⟨file, hfile, rfl⟩ := Option.map_eq_some_iff.mp hf
  have hpos := held_users hlt hv
  refine (h.refs f file hfile).live ?_
  unfold Dev.vmUsers
  omega

theorem current_alive (h : VmBalance d) {p : PipeId} (hv : (d.pipe p).currentVm = some v) :
    Alive d.sys.vmRefs v := by
  obtain ⟨f, hf⟩ := h.current p v hv
  obtain ⟨file, hfile, rfl⟩ := Option.map_eq_some_iff.mp hf
  have hpos := current_users (d := d) (p := p) hv
  refine (h.refs f file hfile).live ?_
  unfold Dev.vmUsers
  omega

/-- A pipe that has the address space of a task is not its last user. -/
theorem held_not_last (h : VmBalance d) (hlt : t < d.numTasks) (hv : d.heldVm t = some v)
    {p : PipeId} (hc : (d.pipe p).currentVm = some v) : d.sys.vmRefs v ≠ some 1 := by
  intro hone
  obtain ⟨f, hf⟩ := h.held t v hv
  obtain ⟨file, hfile, rfl⟩ := Option.map_eq_some_iff.mp hf
  have hheld := held_users hlt hv
  have hcur := current_users (d := d) (p := p) hc
  have husers := ((h.refs f file hfile).eq_of_count hone).1
  unfold Dev.vmUsers at husers
  omega

theorem entries_le (h : VmBalance d) (hf : d.file f = some file) (hlt : t < d.numTasks) :
    d.entries file.vm b t ≤ d.sys.mapRefs file.vm b := by
  have hle : d.entries file.vm b t ≤ ∑ u ∈ Finset.range d.numTasks, d.entries file.vm b u :=
    Finset.single_le_sum (fun _ _ => Nat.zero_le _) (Finset.mem_range.mpr hlt)
  rw [h.maps f file hf b, Dev.mapUsers]
  omega

theorem handle_mapped (h : VmBalance d) (hf : d.file f = some file) {n : ℕ}
    (hmem : (n, b) ∈ file.handles) : limaVmBoFind file.vm (d.sys.bo b).va ≠ none := by
  have hcount : 0 < (file.handles.map Prod.snd).count b :=
    List.count_pos_iff.mpr (List.mem_map_of_mem hmem)
  rw [← h.listed.mapRefs_pos, h.maps f file hf b, Dev.mapUsers]
  omega

end VmBalance

/-! ## Runs -/

namespace Dev

/-- **What a run asks of its users**: that `drm_mm` and the allocator keep their promises, and
the callers theirs. -/
def Careful (cfg : DevConfig) (d : Dev) (e : DevEvent) : Prop :=
  d.Promised e ∧ ∀ c, d.vmCall e = some c → CallerPromise cfg.vm.initNrPages d.sys c

/-- A step that makes no call with an environment of its own asks nobody for anything. -/
theorem Careful.of_none {cfg : DevConfig} {d : Dev} {e : DevEvent} (h : d.vmCall e = none) :
    d.Careful cfg e := by
  constructor
  · intro c hc
    rw [h] at hc
    cases hc
  · intro c hc
    rw [h] at hc
    cases hc

end Dev

/-- The address spaces are in order, and what is mapped in them is mapped whole. -/
structure DevWhole (cfg : DevConfig) (d : Dev) : Prop extends DevSpaces cfg d where
  whole : MappedWhole d.sys

namespace DevWhole

open Dev

variable {d d' : Dev} {cfg : DevConfig} {e : DevEvent}

theorem step (h : DevWhole cfg d) (hcare : d.Careful cfg e) (hd : devStep cfg d e = some d')
    (hr : (devLts cfg).Reachable d') : DevWhole cfg d' where
  toDevSpaces := h.toDevSpaces.step hcare.1 hd hr
  whole := by
    refine h.whole.step h.sys (fun s c _ _ hm => ⟨h.promise hcare.1 hm, ?_⟩) (devStep_sysStep hd)
    rcases hm with hasks | ⟨rfl, hcall⟩
    · cases c with
      | boAdd env v b make =>
          obtain ⟨-, rfl⟩ := hasks
          intro start hins
          cases hins
      | boDel v b => trivial
      | create => exact hasks.elim
      | mapBo => exact hasks.elim
      | heapAlloc => exact hasks.elim
    · exact hcare.2 c hcall

theorem of_via (h : (spaceLts cfg).Via (Careful cfg) d) : DevWhole cfg d := by
  refine h.invariant (I := DevWhole cfg) (fun d hd => ?_) fun d e d' hr hi hcare hd =>
    hi.step hcare hd ((DevSpaces.reachable hr).step hd)
  have hspaces : DevSpaces cfg d := .of_via (.init hd)
  obtain ⟨s, rfl, -, hva⟩ := hd
  refine ⟨hspaces, .init fun v b => ?_⟩
  simp [Sys.node, Bo.nodeIn, Dev.boot, hva b, limaVmBoFind]

end DevWhole

/-! ## A job on a Mali-400 -/

/-- The one object is made, and its node lies at 64 KiB. -/
theorem openOneFresh_careful : ∃ d, (spaceLts mali400Dev).Via (Dev.Careful mali400Dev) d ∧
    Lts.exec (devStep mali400Dev) (.boot (.fresh onePageBo)) openOneFresh = some d := by
  obtain ⟨d₁, d₂, hfile, hd₁, hbo, hhandle, hd₂, hexec⟩ := openOneFresh_steps
  have hinit : (spaceLts mali400Dev).Via (Dev.Careful mali400Dev) (.boot (.fresh onePageBo)) :=
    .init onePageDev_init
  have hopen := hinit.step ⟨hfile, fun c hc => ?_⟩ hd₁
  · refine ⟨d₂, hopen.step ⟨hhandle, fun c hc => ?_⟩ hd₂, hexec⟩
    obtain ⟨file, -, rfl⟩ := Option.map_eq_some_iff.mp hc
    intro start hstart
    obtain rfl := Option.some.inj hstart
    rw [hbo]
    exact ⟨⟨fun hheap => (by cases hheap), fun _ => ⟨_, rfl, rfl⟩⟩, by decide⟩
  · obtain rfl := Option.some.inj hc
    trivial

theorem frugalStep_careful (d : Dev) (e : DevEvent) (d' : Dev)
    (h : frugalStep mali400Dev d e = some d') :
    d.Careful mali400Dev e ∧ (spaceLts mali400Dev).step d e d' := by
  obtain ⟨-, hstep⟩ := frugalStep_step d e d' h
  refine ⟨.of_none ?_, hstep⟩
  unfold frugalStep at h
  split at h
  · cases h
  · rename_i hno
    simpa using hno

/-- The job of the file has ended on the GP. -/
theorem jobEnded_careful : ∃ d, (spaceLts mali400Dev).Via (Dev.Careful mali400Dev) d ∧
    d.CanFree 0 ∧ d.NoSubmit 0 ∧ d.file 0 = some ⟨0, true, [(1, 0)], [], []⟩ := by
  obtain ⟨d₂, hvia, hd₂⟩ := openOneFresh_careful
  have hrun : ((Lts.exec (devStep mali400Dev) (.boot (.fresh onePageBo)) openOneFresh).bind
      fun d => (Lts.exec (frugalStep mali400Dev) d
        (submitOne 0 .gp gpFrame ++ [.runJob 0 allOk, gpEnd])).map fun d =>
          (decide (d.CanFree 0), decide (d.NoSubmit 0), d.file 0)) =
            some (true, true, some ⟨0, true, [(1, 0)], [], []⟩) := rfl
  rw [hd₂, Option.bind_some] at hrun
  obtain ⟨d, hd, hobs⟩ := Option.map_eq_some_iff.mp hrun
  simp only [Prod.mk.injEq, decide_eq_true_eq] at hobs
  exact ⟨d, .exec frugalStep_careful hvia hd, hobs⟩

/-! ## Calls that return -/

namespace Dev

variable {d : Dev} {cfg : DevConfig} {t : TaskId} {v : VmId} {fuel : ℕ}

theorem vmPut_returns {a : Option VmId} (h : ∀ v, a = some v → Alive d.sys.vmRefs v) :
    ∃ d', d.vmPut a = .ok d' := by
  obtain ⟨s, hs⟩ := limaVmPut_returns h
  exact ⟨_, by rw [vmPut, hs, Outcome.bind_ok]⟩

theorem clearPipe_returns (h : VmBalance d) (p : PipeId) : ∃ d', d.clearPipe p = .ok d' := by
  obtain ⟨d₁, hput⟩ := d.vmPut_returns fun v hv => h.current_alive (p := p) hv
  exact ⟨_, by rw [clearPipe, hput, Outcome.bind_ok]⟩

/-- **The unmaps of a list of objects** all return, as each occurrence counts for a mapping. -/
theorem delBos_returns (hfuel : EnoughFuel fuel) : ∀ {bs : List BoId} {d : Dev},
    SpacesOk cfg.vm d.sys → MappedWhole d.sys → d.sys.Listed →
      (∀ b, bs.count b ≤ d.sys.mapRefs v b) → ∃ d', delBos fuel (some v) bs d = .ok d'
  | [], d, _, _, _, _ => ⟨d, rfl⟩
  | b :: bs, d, hs, hw, hl, hcount => by
      have hself := hcount b
      rw [List.count_cons_self] at hself
      have hfind := hl.mapRefs_pos.mp (Nat.lt_of_lt_of_le (Nat.succ_pos _) hself)
      obtain ⟨s, touched, hdel⟩ := hw.boDel_returns hs.isolated hfuel hfind
      have hone := (limaVmBoDel_recounts hl hdel).2
      have hret : VmCall.Returns cfg.vm d.sys s (.boDel v b) := ⟨fuel, touched, hdel⟩
      have hpromise : VmPromise d.sys (.boDel v b) := VmCall.AsksNothing.promise (c := .boDel v b) trivial d.sys
      have hrest : ∀ c, bs.count c ≤ s.mapRefs v c := by
        intro c
        have hc := hcount c
        rw [hone.self c]
        by_cases hcb : c = b
        · subst hcb
          rw [if_pos rfl]
          omega
        · rw [if_neg hcb]
          rwa [List.count_cons_of_ne (Ne.symm hcb)] at hc
      obtain ⟨d', hd'⟩ := delBos_returns (d := d.setSys s) hfuel (hs.call hpromise hret)
        (hw.call hs.isolated hpromise.1 trivial hret) hone.listed hrest
      exact ⟨d', by rw [delBos, hdel, Outcome.bind_ok, hd']⟩

theorem patchHeap_returns {s : Sys} : ∀ {bs : List BoId} {task : Task},
    (∀ b ∈ bs, limaVmBoFind v (s.bo b).va ≠ none) → ∃ task', patchHeap s v bs task = .ok task'
  | [], task, _ => ⟨task, rfl⟩
  | b :: bs, task, h => by
      have hrest : ∃ task', patchHeap s v bs task = .ok task' :=
        patchHeap_returns fun c hc => h c (List.mem_cons_of_mem b hc)
      rw [patchHeap]
      split
      · obtain ⟨x, hx⟩ := Option.ne_none_iff_exists'.mp (h b List.mem_cons_self)
        rw [limaVmGetVa, hx, Outcome.bind_ok]
        split
        · exact ⟨_, rfl⟩
        · exact hrest
      · exact hrest

/-! ## Dispatch -/

/-- What `lima_sched_run_job` relies on: the address space of the task, which the put of the
pipe's does not end, and the mappings of its objects. -/
structure CanStart (d : Dev) (t : TaskId) (v : VmId) : Prop where
  vm : (d.task t).vm = some v
  alive : Alive d.sys.vmRefs v
  current : ∀ w, (d.pipe (d.task t).pipe).currentVm = some w → Alive d.sys.vmRefs w
  last : (d.pipe (d.task t).pipe).currentVm = some v → d.sys.vmRefs v ≠ some 1
  mapped : ∀ b ∈ (d.task t).bos, limaVmBoFind v (d.sys.bo b).va ≠ none

/-- A pushed task can be started in every reachable state. -/
theorem CanStart.of_reachable (h : (devLts cfg).Reachable d)
    (hp : (d.task t).state.pushed = true) : ∃ v, d.CanStart t v := by
  have hb := VmBalance.of_reachable h
  obtain ⟨v, hv, halive, hbos⟩ := unfreed_job_backed cfg h hp
  have hlt := (SchedWf.of_reachable h).tasks.lt_of_pushed hp
  have hheld : d.heldVm t = some v := by
    rw [heldVm, TaskState.holding, hp, Bool.true_or, if_pos rfl, hv]
  exact ⟨v, hv, halive, fun w hw => hb.current_alive hw, fun hc => hb.held_not_last hlt hheld hc,
    fun b hmem => (hbos b hmem).2⟩

/-- The same task in a device that differs in nothing it relies on. -/
theorem CanStart.congr {d' : Dev} (h : d.CanStart t v) (hsys : d'.sys = d.sys)
    (hvm : (d'.task t).vm = (d.task t).vm) (hbos : (d'.task t).bos = (d.task t).bos)
    (hpipe : (d'.pipe (d'.task t).pipe).currentVm = (d.pipe (d.task t).pipe).currentVm) :
    d'.CanStart t v where
  vm := hvm.trans h.vm
  alive := by
    rw [hsys]
    exact h.alive
  current w hw := by
    rw [hsys]
    exact h.current w (hpipe ▸ hw)
  last hc := by
    rw [hsys]
    exact h.last (hpipe ▸ hc)
  mapped b hb := by
    rw [hsys]
    exact h.mapped b (hbos ▸ hb)

theorem pipeTaskRun_returns (resetOk : Bool) {p : PipeId}
    (h : ∀ b ∈ (d.task t).bos, limaVmBoFind v (d.sys.bo b).va ≠ none) :
    ∃ d', d.pipeTaskRun resetOk t v p = .ok d' := by
  cases p with
  | gp =>
      obtain ⟨task, htask⟩ : ∃ task, patchHeap d.sys v (d.task t).bos (d.task t) = .ok task :=
        patchHeap_returns h
      exact ⟨_, by rw [pipeTaskRun, limaGpTaskRun, htask, Outcome.bind_ok]⟩
  | pp => exact ⟨_, rfl⟩

theorem startJob_returns (h : d.CanStart t v) (resetOk : Bool) (f : FenceId) :
    ∃ d', d.startJob resetOk t f = .ok d' := by
  obtain ⟨s, hs⟩ := limaVmPut_returns h.current
  have halive : Alive s.vmRefs v := (limaVmPut_drops d.vmReleased hs).live h.alive h.last
  obtain ⟨s', hs'⟩ := limaVmGet_returns halive
  have hbo : s'.bo = d.sys.bo := (limaVmGet_frame hs').1.trans (limaVmPut_frame hs).1
  unfold startJob
  simp only [vmPut, vmGet, setSys, modPipe, modTask, fenceGet, modFence, Function.update_self,
    h.vm, hs, hs', Outcome.bind_ok]
  refine pipeTaskRun_returns resetOk fun b hb => ?_
  simp only [Function.update_self] at hb
  simp only [hbo]
  exact h.mapped b hb

/-- **A dispatch** returns, whether it starts the job or gives up. -/
theorem dispatch_returns (h : d.CanStart t v) (env : RunEnv) :
    ∃ d', d.dispatch env t = .ok d' := by
  obtain ⟨r, hr⟩ : ∃ r, (d.markPending env t).limaSchedRunJob env t = .ok r := by
    unfold limaSchedRunJob
    split
    · exact ⟨_, rfl⟩
    split
    · exact ⟨_, rfl⟩
    rename_i d₁ f hcreate
    obtain ⟨-, -, rfl⟩ := limaFenceCreate_cases hcreate
    split
    · exact ⟨_, rfl⟩
    · obtain ⟨d₂, hd₂⟩ := startJob_returns
        (d := { d.markPending env t with
          fence := Function.update (d.markPending env t).fence (d.markPending env t).numFences .fresh
          numFences := (d.markPending env t).numFences + 1 }.addPm 1) (t := t) (v := v)
        (h.congr rfl (by simp [markPending, addPm]) (by simp [markPending, addPm])
          (by simp [markPending, addPm])) env.resetOk f
      exact ⟨_, by rw [hd₂, Outcome.bind_ok]⟩
  exact ⟨_, by rw [dispatch, hr, Outcome.bind_ok]⟩

/-! ## The end of a task -/

theorem limaSchedTaskFini_returns {x : Task} (hx : d.task t = x)
    (h : ∀ v, x.vm = some v → Alive d.sys.vmRefs v) : ∃ d', d.limaSchedTaskFini t = .ok d' := by
  subst hx
  have hsys : (gemPuts (d.task t).bos d).sys = d.sys := by rw [gemPuts_eq]
  obtain ⟨d₁, hput⟩ := (gemPuts (d.task t).bos d).vmPut_returns (a := (d.task t).vm) (by
    rw [hsys]
    exact h)
  exact ⟨_, by rw [limaSchedTaskFini, hput, Outcome.bind_ok]⟩

/-- **`lima_sched_free_job`** returns. -/
theorem limaSchedFreeJob_returns (hw : DevWhole cfg d) (h : (devLts cfg).Reachable d)
    (hp : (d.task t).state.pushed = true) (hfuel : EnoughFuel fuel) :
    ∃ d', limaSchedFreeJob fuel d t = .ok d' := by
  have hb := VmBalance.of_reachable h
  have hwf := (SchedWf.of_reachable h).tasks
  obtain ⟨v, hv, halive, -⟩ := unfreed_job_backed cfg h hp
  have hlt := hwf.lt_of_pushed hp
  obtain ⟨f, hf⟩ := hb.held t v (by
    rw [heldVm, TaskState.holding, hp, Bool.true_or, if_pos rfl, hv])
  obtain ⟨file, hfile, rfl⟩ := Option.map_eq_some_iff.mp hf
  -- each object of the task counts for a mapping
  have hcount : ∀ b, (d.task t).bos.count b ≤ d.sys.mapRefs file.vm b := by
    intro b
    have hentries : d.entries file.vm b t = (d.task t).bos.count b := by
      simp [entries, hwf.submit_of_pushed hp, hp, hv]
    rw [← hentries]
    exact hb.entries_le hfile hlt
  obtain ⟨fence, hfence⟩ := d.fencePut_fence (d.task t).fence
  obtain ⟨d₁, hdel⟩ := delBos_returns (d := { d with fence := fence }) hfuel hw.sys hw.whole
    hb.listed hcount
  obtain ⟨s, rfl⟩ := delBos_sys hdel
  have hrefs := (delBos_loses (d := { d with fence := fence }) hb.listed hdel).2.refs
  obtain ⟨d₂, hfini⟩ := limaSchedTaskFini_returns (d := { d with fence := fence }.setSys s) (t := t)
    rfl (fun w hw' => by
      obtain rfl : file.vm = w := Option.some.inj (hv.symm.trans hw')
      rwa [← hrefs])
  have hstate : (d.task t).state ≠ .freed := by
    intro hst
    rw [hst] at hp
    cases hp
  have hnot : (d₂.task t).state ≠ .freed := by
    obtain ⟨s', gemRef, -, rfl⟩ := limaSchedTaskFini_cases hfini
    simp
  refine ⟨d₂.modTask t fun task => { task with state := .freed }, ?_⟩
  simp only [limaSchedFreeJob, readTask, if_neg hstate, Outcome.bind_ok, hfence, hv, hdel, hfini,
    kmemCacheFree, if_neg hnot]

/-! ## What may be asked -/

/-- **The steps that users and `drm_sched` may ask for**, with what they have made sure of. A
handle is opened for an object that has an sg table; loops get fuel for an address space. -/
inductive Asked (cfg : DevConfig) (d : Dev) : DevEvent → Prop
  | fileOpen {f : FileId} {kzallocOk : Bool} {pdAlloc : Option ℕ} {dmaAlloc : ℕ → Option ℕ} :
      d.file f = none → Asked cfg d (.fileOpen f kzallocOk pdAlloc dmaAlloc)
  | fileClose {f : FileId} {file : DrmFile} : d.file f = some file → file.isOpen = true →
      file.handles = [] → d.NoSubmit f → Asked cfg d (.fileClose f)
  | handleOpen {f : FileId} {file : DrmFile} {n : ℕ} {b : BoId} {env : BoAddEnv} {fuel : ℕ} :
      d.file f = some file → file.isOpen = true → lookupId n file.handles = none →
      (d.sys.bo b).sgt ≠ none → EnoughFuel fuel → Asked cfg d (.handleOpen f n b env fuel)
  | handleClose {f : FileId} {file : DrmFile} {n : ℕ} {b : BoId} {fuel : ℕ} :
      d.file f = some file → (n, b) ∈ file.handles → EnoughFuel fuel →
      Asked cfg d (.handleClose f n b fuel)
  | submitBegin {f : FileId} {file : DrmFile} {p : PipeId} {frame : Frame} {handles : List ℕ} :
      d.file f = some file → file.isOpen = true → handles ≠ [] →
      pipeTaskValidate cfg.submit frame p = none → Asked cfg d (.submitBegin f p frame handles)
  | submitAdd {t : TaskId} {sm : Submit} {n : ℕ} {ns : List ℕ} : d.submit t = some sm →
      sm.handles = n :: ns → sm.failed = false → Asked cfg d (.submitAdd t)
  | submitLockFail {t : TaskId} {sm : Submit} : d.submit t = some sm → sm.failed = false →
      sm.handles = [] → (d.task t).state = .allocated → Asked cfg d (.submitLockFail t)
  | submitInit {t : TaskId} {sm : Submit} {c : CtxId} {kmemdupOk : Bool}
      {jobInit : Option Errno} : d.submit t = some sm → sm.failed = false → sm.handles = [] →
      (d.task t).state = .allocated → Asked cfg d (.submitInit t c kmemdupOk jobInit)
  | submitDepsFail {t : TaskId} {sm : Submit} : d.submit t = some sm → sm.failed = false →
      (d.task t).state = .inited → Asked cfg d (.submitDepsFail t)
  | submitQueue {t : TaskId} {sm : Submit} : d.submit t = some sm → sm.failed = false →
      (d.task t).state = .inited → Asked cfg d (.submitQueue t)
  | submitUndo {t : TaskId} {sm : Submit} {b : BoId} {bs : List BoId} {fuel : ℕ} :
      d.submit t = some sm → sm.lbos = b :: bs → sm.failed = true → EnoughFuel fuel →
      Asked cfg d (.submitUndo t fuel)
  | submitEnd {t : TaskId} {sm : Submit} : d.submit t = some sm → sm.failed = true →
      sm.lbos = [] → Asked cfg d (.submitEnd t)
  | runJob {t : TaskId} {env : RunEnv} : d.CanRun t → Asked cfg d (.runJob t env)
  | killJob {t : TaskId} : (d.task t).state = .queued → Asked cfg d (.killJob t)
  | freeJob {t : TaskId} {fuel : ℕ} : d.CanFree t → EnoughFuel fuel →
      Asked cfg d (.freeJob t fuel)
  | timedoutBegin {p : PipeId} {t : TaskId} : (d.pipe p).timedout = none →
      (d.pipe p).fini ≠ .stopped → (d.task t).state = .pending → (d.task t).pipe = p →
      Asked cfg d (.timedoutBegin p t)
  | timedoutReset {p : PipeId} {t : TaskId} {resetOk : Bool} {faulted : ℕ → Bool} :
      (d.pipe p).timedout = some (t, .stopped) → Asked cfg d (.timedoutReset p resetOk faulted)
  | timedoutClear {p : PipeId} {t : TaskId} : (d.pipe p).timedout = some (t, .reset) →
      Asked cfg d (.timedoutClear p)
  | timedoutResubmit {p : PipeId} {t u : TaskId} {cancel : Bool} {env : RunEnv} :
      (d.pipe p).timedout = some (t, .cleared) → d.Unfinished p u →
      Asked cfg d (.timedoutResubmit p u cancel env)
  | timedoutEnd {p : PipeId} {t : TaskId} {pc : TimedoutPc} :
      (d.pipe p).timedout = some (t, pc) → pc = .resubmitted ∨ pc = .cleared ∧ d.PipeIdle p →
      Asked cfg d (.timedoutEnd p)

end Dev

/-! ## They complete -/

section Returns

open Dev

variable {cfg : DevConfig} {d : Dev} {e : DevEvent} {t : TaskId} {sm : Submit} {fuel : ℕ}

theorem limaGemObjectOpen_returns (hw : DevWhole cfg d) (h : (devLts cfg).Reachable d)
    {f : FileId} {file : DrmFile} {n : ℕ} {b : BoId} {env : BoAddEnv}
    (hcare : d.Careful cfg (.handleOpen f n b env fuel)) (hf : d.file f = some file)
    (hopen : file.isOpen = true) (hsgt : (d.sys.bo b).sgt ≠ none) (hfuel : EnoughFuel fuel) :
    ∃ d', d.limaGemObjectOpen f file n b env fuel = .ok d' := by
  have hcall : d.vmCall (.handleOpen f n b env fuel) = some (.boAdd env file.vm b true) := by
    rw [vmCall, hf]
    rfl
  obtain ⟨k, -, hk⟩ := (VmBalance.of_reachable h).file_alive hf hopen
  have hvm : d.sys.vm file.vm ≠ none := by
    intro hnone
    rw [Sys.vmRefs, hnone] at hk
    cases hk
  obtain ⟨s, r, hadd⟩ := hw.sys.isolated.boAdd_returns hfuel (hcare.1 _ hcall).1 hvm hsgt
  rw [limaGemObjectOpen, hadd, Outcome.bind_ok]
  cases r with
  | none => exact ⟨_, rfl⟩
  | some e => exact ⟨_, rfl⟩

theorem limaGemObjectClose_returns (hw : DevWhole cfg d) (h : (devLts cfg).Reachable d)
    {f : FileId} {file : DrmFile} {n : ℕ} {b : BoId} (hf : d.file f = some file)
    (hmem : (n, b) ∈ file.handles) (hfuel : EnoughFuel fuel) :
    ∃ d', d.limaGemObjectClose f file n b fuel = .ok d' := by
  obtain ⟨s, touched, hdel⟩ := hw.whole.boDel_returns hw.sys.isolated hfuel
    ((VmBalance.of_reachable h).handle_mapped hf hmem)
  exact ⟨_, by rw [limaGemObjectClose, hdel, Outcome.bind_ok]⟩

/-- The lookup of a handle only counts a reference, or finds no mapping. -/
theorem submitNext_returns (t : TaskId) (sm : Submit) (v : VmId) (n : ℕ) (ns : List ℕ) :
    ∃ d', d.submitNext t sm v n ns = .ok d' := by
  obtain ⟨⟨d₁, r⟩, hadd⟩ : ∃ r, d.submitAdd sm.file v n = .ok r := by
    unfold submitAdd
    split
    · exact ⟨_, rfl⟩
    · rename_i d₁ b hlook
      unfold limaVmBoAdd
      simp only [Bool.not_false, if_true]
      split
      · exact ⟨_, rfl⟩
      · exact ⟨_, rfl⟩
  rw [submitNext, hadd, Outcome.bind_ok]
  cases r with
  | error e => exact ⟨_, rfl⟩
  | ok b => exact ⟨_, rfl⟩

theorem submitInit_returns {v : VmId} (halive : Alive d.sys.vmRefs v) (c : CtxId)
    (kmemdupOk : Bool) (jobInit : Option Errno) :
    ∃ d', d.submitInit t sm v c kmemdupOk jobInit = .ok d' := by
  obtain ⟨⟨d₁, r⟩, hinit⟩ : ∃ r, d.limaSchedTaskInit kmemdupOk jobInit t c sm.lbos v = .ok r := by
    unfold limaSchedTaskInit
    split
    · exact ⟨_, rfl⟩
    cases jobInit with
    | some e => exact ⟨_, rfl⟩
    | none =>
        have hsys : (gemGets sm.lbos d).sys = d.sys := by rw [gemGets_eq]
        obtain ⟨s, hs⟩ := limaVmGet_returns halive
        simp only [vmGet, hsys, hs, Outcome.bind_ok]
        exact ⟨_, rfl⟩
  rw [Dev.submitInit, hinit, Outcome.bind_ok]
  cases r with
  | none => exact ⟨_, rfl⟩
  | some e => exact ⟨_, rfl⟩

theorem submitUndoNext_returns (hw : DevWhole cfg d) (h : (devLts cfg).Reachable d)
    (hsm : d.submit t = some sm) {file : DrmFile} (hf : d.file sm.file = some file) {b : BoId}
    {bs : List BoId} (hlbos : sm.lbos = b :: bs) (hfuel : EnoughFuel fuel) :
    ∃ d', d.submitUndoNext t sm file.vm b bs fuel = .ok d' := by
  have hb := VmBalance.of_reachable h
  have hlt := VmBalance.lt_of_submit (SchedWf.of_reachable h).tasks hsm
  have hentries : d.entries file.vm b t = sm.lbos.count b := by
    simp [entries, hsm, fileVm, hf]
  have hpos : 0 < d.sys.mapRefs file.vm b := by
    have hle := hb.entries_le (b := b) hf hlt
    rw [hentries, hlbos, List.count_cons_self] at hle
    omega
  obtain ⟨s, touched, hdel⟩ :=
    hw.whole.boDel_returns hw.sys.isolated hfuel (hb.listed.mapRefs_pos.mp hpos)
  exact ⟨_, by rw [submitUndoNext, Dev.submitUndo, hdel, Outcome.bind_ok, Outcome.bind_ok]⟩

theorem submitEnd_returns (hw : d.TasksWf) (hsm : d.submit t = some sm) :
    ∃ d', d.submitEnd t = .ok d' := by
  have hstate : (d.task t).state ≠ .freed := by
    rcases hw.submit t sm hsm with hst | hst <;> simp [hst]
  exact ⟨_, by
    rw [submitEnd, kmemCacheFree, readTask, if_neg hstate, Outcome.bind_ok, Outcome.bind_ok]⟩

theorem submitDepsFail_returns (h : (devLts cfg).Reachable d) (hsm : d.submit t = some sm)
    (hst : (d.task t).state = .inited) : ∃ d', d.submitDepsFail t sm = .ok d' := by
  have hlt := VmBalance.lt_of_submit (SchedWf.of_reachable h).tasks hsm
  obtain ⟨d₁, hfini⟩ := d.limaSchedTaskFini_returns (t := t) rfl fun v hv =>
    (VmBalance.of_reachable h).held_alive hlt (by
      rw [heldVm, TaskState.holding, hst]
      exact hv)
  exact ⟨_, by rw [submitDepsFail, hfini, Outcome.bind_ok]⟩

theorem guarded_returns {c : Prop} [Decidable c] {o : Outcome Dev} (hc : c)
    (ho : ∃ d', o = .ok d') : ∃ d', guarded c o = some d' := by
  obtain ⟨d', rfl⟩ := ho
  exact ⟨d', if_pos hc⟩

theorem devStep_of_user (h : ∃ d', userStep cfg d e = some d') : ∃ d', devStep cfg d e = some d' := by
  obtain ⟨d', h⟩ := h
  exact ⟨d', by rw [devStep, h]; rfl⟩

theorem devStep_of_sched (hu : userStep cfg d e = none) (h : ∃ d', schedStep cfg d e = some d') :
    ∃ d', devStep cfg d e = some d' := by
  obtain ⟨d', h⟩ := h
  exact ⟨d', by rw [devStep, hu]; exact h⟩

end Returns

/-! ## The exit of a process -/

namespace Dev

/-- The end of a file: `drm_gem_release` closes its handles, then comes
`lima_drm_driver_postclose`. -/
def closeAll (f : FileId) (handles : List (ℕ × BoId)) (fuel : ℕ) : List DevEvent :=
  handles.map (fun x => .handleClose f x.1 x.2 fuel) ++ [.fileClose f]

section Exit

variable {cfg : DevConfig} {d d' : Dev} {f : FileId} {file : DrmFile} {fuel : ℕ}

theorem MovesFile.trans {d'' : Dev} {x x' x'' : DrmFile} (m : MovesFile f x x' d d')
    (m' : MovesFile f x' x'' d' d'') : MovesFile f x x'' d d'' where
  before := m.before
  after := m'.after
  vm := m'.vm.trans m.vm
  file g hg := (m'.file g hg).trans (m.file g hg)
  task := m'.task.trans m.task
  numTasks := m'.numTasks.trans m.numTasks
  submit := m'.submit.trans m.submit
  current := m'.current.trans m.current
  numVms := m'.numVms.trans m.numVms

theorem MovesFile.noSubmit {x x' : DrmFile} (m : MovesFile f x x' d d') (hno : d.NoSubmit f) :
    d'.NoSubmit f := by
  intro t ht
  rw [m.submit]
  exact hno t (m.numTasks ▸ ht)

theorem handleClose_moves {n : ℕ} {b : BoId} (hf : d.file f = some file)
    (hd : d.limaGemObjectClose f file n b fuel = .ok d') :
    MovesFile f file { file with handles := file.handles.erase (n, b) } d d' := by
  obtain ⟨⟨s, touched⟩, hdel, hd⟩ := Outcome.bind_eq_ok hd
  obtain rfl := Outcome.ok.inj hd
  have hret : VmCall.Returns ⟨.mali400, 0, 0⟩ d.sys s (.boDel file.vm b) := ⟨fuel, touched, hdel⟩
  exact ⟨hf, Function.update_self .., rfl, fun g hg => Function.update_of_ne hg .., rfl, rfl, rfl,
    rfl, (hret.refcount nofun).2⟩

theorem fileClose_moves (hf : d.file f = some file)
    (hd : d.limaDrmDriverPostclose f file = .ok d') :
    MovesFile f file { file with isOpen := false } d d' := by
  obtain ⟨d₁, hput, hd⟩ := Outcome.bind_eq_ok hd
  obtain ⟨s, hs, rfl⟩ := vmPut_cases hput
  obtain rfl := Outcome.ok.inj hd
  exact ⟨hf, Function.update_self .., rfl, fun g hg => Function.update_of_ne hg .., rfl, rfl, rfl,
    rfl, (limaVmPut_frame hs).2⟩

/-- What a pushed task has taken over from its submit is mapped for it. -/
theorem entries_pos (h : (devLts cfg).Reachable d) (hf : d.file f = some file)
    (hno : d.NoSubmit f) {b : BoId} {t : TaskId} : 0 < d.entries file.vm b t ↔
      (d.task t).state.pushed = true ∧ (d.task t).vm = some file.vm ∧ b ∈ (d.task t).bos := by
  have hb := VmBalance.of_reachable h
  have hwf := (SchedWf.of_reachable h).tasks
  cases hsm : d.submit t with
  | none =>
      simp only [entries, hsm]
      split
      · rename_i hheld
        rw [List.count_pos_iff]
        exact ⟨fun hmem => ⟨hheld.1, hheld.2, hmem⟩, fun hmem => hmem.2.2⟩
      · rename_i hheld
        exact ⟨fun hlt => absurd hlt (lt_irrefl 0), fun hmem => absurd ⟨hmem.1, hmem.2.1⟩ hheld⟩
  | some sm =>
      -- a submit under way belongs to another file
      have hother : d.fileVm sm.file ≠ some file.vm := by
        intro hv
        obtain ⟨x, hx, hxv⟩ := Option.map_eq_some_iff.mp hv
        have hfile := hb.fileInj _ _ x file hx hf hxv
        exact hno t (VmBalance.lt_of_submit hwf hsm) (by rw [hsm, Option.map_some, hfile])
      have hnot : (d.task t).state.pushed ≠ true := fun hp => by
        rw [hwf.submit_of_pushed hp] at hsm
        cases hsm
      simp [entries, hsm, hother, hnot]

end Exit

end Dev

section Exit

open Dev

end Exit

end Lima
