import Lima.Sched.VmBalance

/-!
# The page directories the MMUs are set to

`lima_sched_run_job` sets the MMUs of its pipe to the task's address space and keeps a
reference to it in `current_vm` until the next switch. A timeout and the teardown drop
that reference, and only an MMU with an active page fault is set back to `empty_vm`. So an
MMU can be left set to an address space that its pipe does not hold, and the last put of
that address space frees the page directory under it.
-/

namespace Lima

open RefCount

namespace Dev

variable (d : Dev)

/-- `run_job` hands the task to the hardware. -/
def starts (env : RunEnv) (t : TaskId) : Bool :=
  (d.task t).finishedError.isNone && env.fenceOk && env.pmOk

/-- The address space that the step puts. A pipe that is run again after a timeout has none
to put. -/
def drops : DevEvent → Option VmId
  | .fileClose f => d.fileVm f
  | .submitDepsFail t | .freeJob t _ => (d.task t).vm
  | .runJob t env =>
      if d.starts env t then (d.pipe (d.task t).pipe).currentVm else none
  | .timedoutClear p | .finiRelease p _ => (d.pipe p).currentVm
  | .fileOpen .. | .handleOpen .. | .handleClose .. | .submitBegin .. | .submitAdd .. |
    .submitLockFail .. | .submitInit .. | .submitQueue .. | .submitUndo .. | .submitEnd .. |
    .killJob .. | .gpIrq .. | .ppIrq .. | .mmuIrq .. | .recoverBegin .. | .recoverEnd .. |
    .timedoutBegin .. | .timedoutReset .. | .timedoutResubmit .. | .timedoutEnd .. |
    .finiCheck .. | .finiStop .. => none

/-- The step sets `current_vm` of the pipe to `NULL`. -/
def LetsGo : DevEvent → PipeId → Prop
  | .timedoutClear q, p | .finiRelease q _, p => p = q
  | _, _ => False

/-- After the step a pipe without `current_vm` has an MMU set to `v`. -/
def LeftSet (e : DevEvent) (v : VmId) : Prop :=
  ∃ p i, (d.pipe p).mmuDte i = some v ∧ ((d.pipe p).currentVm = none ∨ LetsGo e p)

/-- If the step puts the last reference to an address space, no pipe without `current_vm`
has an MMU set to it. -/
def ReleasesUnset (e : DevEvent) : Prop :=
  ∀ v, d.drops e = some v → (d.sys.vm v).map Vm.refcount = some 1 → ¬ d.LeftSet e v

/-- Every MMU is set to `empty_vm` or to an address space that is referenced. -/
def DtesLive : Prop :=
  ∀ p i v, (d.pipe p).mmuDte i = some v →
    ∃ n, 0 < n ∧ (d.sys.vm v).map Vm.refcount = some n

/-- A pipe without a task has no address space, and an MMU that is set is set to the
address space of a file, which is the pipe's while it has one. -/
structure MmuBooks : Prop where
  idle : ∀ p, (d.pipe p).currentTask = none → (d.pipe p).currentVm = none
  set : ∀ p i v, (d.pipe p).mmuDte i = some v →
    (d.pipe p).currentVm = none ∨ (d.pipe p).currentVm = some v
  named : ∀ p i v, (d.pipe p).mmuDte i = some v → d.Named v

end Dev

/-! ## What a step does to the MMUs and the references -/

/-- What a step can do to a pipe: leave its references alone, take away `current_vm`, or
switch to `v`. -/
inductive PipeStep (e : DevEvent) (d d' : Dev) (p : PipeId) : Prop
  | keeps : (d'.pipe p).currentTask = (d.pipe p).currentTask →
      (d'.pipe p).currentVm = (d.pipe p).currentVm →
      (∀ i, (d'.pipe p).mmuDte i = none ∨ (d'.pipe p).mmuDte i = (d.pipe p).mmuDte i) →
      (d.drops e ≠ none → (d'.pipe p).mmuDte = (d.pipe p).mmuDte) → PipeStep e d d' p
  | letsGo : Dev.LetsGo e p → (d'.pipe p).currentVm = none →
      (d'.pipe p).mmuDte = (d.pipe p).mmuDte → PipeStep e d d' p
  | switches (v : VmId) : ¬ Dev.LetsGo e p → d.Named v → (d'.pipe p).currentTask ≠ none →
      (d'.pipe p).currentVm = some v → (d'.pipe p).mmuDte = (fun _ => some v) →
      (d.drops e ≠ none → (d.pipe p).currentVm ≠ none) → PipeStep e d d' p

/-- What a step can do to the counts: leave those of the files' address spaces alone, or
put what it drops and perhaps get another. -/
structure MmuStep (e : DevEvent) (d d' : Dev) : Prop where
  named : ∀ v, d.Named v → d'.Named v
  refs : d.drops e = none ∧ (∀ v, d.Named v → d'.sys.vmRefs v = d.sys.vmRefs v) ∨
    ∃ b, d.MovesVm d' (d.drops e) b
  pipe : ∀ p, PipeStep e d d' p

namespace PipeStep

variable {d d₁ d' : Dev} {e : DevEvent} {p : PipeId}

theorem same (h : d'.pipe p = d.pipe p) : PipeStep e d d' p :=
  .keeps (by rw [h]) (by rw [h]) (fun i => .inr (by rw [h])) fun _ => by rw [h]

/-- What changes later is neither the references nor the MMUs. -/
theorem congr (h : PipeStep e d d₁ p) (ht : (d'.pipe p).currentTask = (d₁.pipe p).currentTask)
    (hv : (d'.pipe p).currentVm = (d₁.pipe p).currentVm)
    (hm : (d'.pipe p).mmuDte = (d₁.pipe p).mmuDte) : PipeStep e d d' p := by
  cases h with
  | keeps ht₁ hv₁ hm₁ hsame =>
      refine .keeps (ht.trans ht₁) (hv.trans hv₁) (fun i => ?_) fun hne => hm.trans (hsame hne)
      rw [hm]
      exact hm₁ i
  | letsGo hgo hv₁ hm₁ => exact .letsGo hgo (hv.trans hv₁) (hm.trans hm₁)
  | switches v hno hnamed ht₁ hv₁ hm₁ hpipe =>
      exact .switches v hno hnamed (ht ▸ ht₁) (hv.trans hv₁) (hm.trans hm₁) hpipe

end PipeStep

namespace MmuStep

open Dev

variable {d d' : Dev} {e : DevEvent} {cfg : DevConfig}

/-- The pipes are as they were. -/
theorem of_pipe (hnamed : ∀ v, d.Named v → d'.Named v)
    (hrefs : d.drops e = none ∧ (∀ v, d.Named v → d'.sys.vmRefs v = d.sys.vmRefs v) ∨
      ∃ b, d.MovesVm d' (d.drops e) b)
    (hpipe : d'.pipe = d.pipe) : MmuStep e d d' :=
  ⟨hnamed, hrefs, fun p => .same (by rw [hpipe])⟩

theorem named_of_file (h : d'.file = d.file) : ∀ v, d.Named v → d'.Named v := by
  intro v hv
  unfold Named fileVm at *
  rwa [h]

/-- A file that is replaced keeps its address space. -/
theorem named_of_update {f : FileId} {x x' : DrmFile} (hf : d.file f = some x)
    (h : d'.file = Function.update d.file f (some x')) (hvm : x'.vm = x.vm) :
    ∀ v, d.Named v → d'.Named v := by
  rintro v ⟨g, hg⟩
  refine ⟨g, ?_⟩
  unfold fileVm at *
  rw [h]
  by_cases hgf : g = f
  · subst hgf
    rw [hf] at hg
    rw [Function.update_self, ← hg]
    exact congrArg some hvm
  · rw [Function.update_of_ne hgf]
    exact hg

theorem user (hb : VmBalance d) (hd : userStep cfg d e = some d') : MmuStep e d d' := by
  cases userStep_call hd with
  | @fileOpen f _ _ _ hf =>
      unfold limaDrmDriverOpen
      split
      · rename_i s hcreate
        obtain ⟨-, rfl⟩ | ⟨-, -, hr, -⟩ := VmBalance.limaVmCreate_cases hcreate
        · exact of_pipe (fun _ hv => hv) (.inl ⟨rfl, fun _ _ => rfl⟩) rfl
        · cases hr
      · rename_i s v hcreate
        obtain ⟨hr, -⟩ | ⟨vm, -, hr, rfl⟩ := VmBalance.limaVmCreate_cases hcreate
        · cases hr
        obtain rfl := Option.some.inj hr
        refine of_pipe ?_ (.inl ⟨rfl, fun w hw => ?_⟩) rfl
        · rintro w ⟨g, hg⟩
          refine ⟨g, ?_⟩
          have hgf : g ≠ f := by
            rintro rfl
            rw [fileVm, hf] at hg
            cases hg
          unfold fileVm at *
          rw [← hg]
          exact congrArg _ (Function.update_of_ne hgf ..)
        · have hne : w ≠ d.sys.numVms := (hb.named_lt hw).ne
          simp [Sys.vmRefs, setSys, hne]
  | @fileClose f file _ hf _ _ _ hd =>
      obtain ⟨d₁, hput, hd⟩ := Outcome.bind_eq_ok hd
      obtain ⟨s, hs, rfl⟩ := vmPut_cases hput
      obtain rfl := Outcome.ok.inj hd
      refine of_pipe (named_of_update hf rfl rfl) (.inr ⟨none, ?_⟩) rfl
      have hdrops : d.drops (.fileClose f) = some file.vm := by simp [drops, fileVm, hf]
      rw [hdrops]
      exact .put hs rfl rfl
  | handleOpen hf _ _ hd =>
      obtain ⟨⟨s, r⟩, hadd, hd⟩ := Outcome.bind_eq_ok hd
      obtain ⟨-, ⟨hr, -, hrefs⟩ | ⟨rfl, hg⟩⟩ := VmBalance.boAdd_cases hb.listed hadd
      · obtain ⟨err, rfl⟩ := Option.isSome_iff_exists.mp hr
        obtain rfl := Outcome.ok.inj hd
        exact of_pipe (named_of_file rfl) (.inl ⟨rfl, fun v _ => congrFun hrefs v⟩) rfl
      · obtain rfl := Outcome.ok.inj hd
        exact of_pipe (named_of_update hf rfl rfl) (.inl ⟨rfl, fun v _ => congrFun hg.refs v⟩) rfl
  | handleClose hf _ hd =>
      obtain ⟨⟨s, touched⟩, hdel, hd⟩ := Outcome.bind_eq_ok hd
      obtain rfl := Outcome.ok.inj hd
      have hre := (limaVmBoDel_recounts hb.listed hdel).2
      exact of_pipe (named_of_update hf rfl rfl) (.inl ⟨rfl, fun v _ => hre.refcount v⟩) rfl
  | submitBegin _ _ _ _ =>
      exact of_pipe (named_of_file rfl) (.inl ⟨rfl, fun _ _ => rfl⟩) rfl
  | submitAdd _ _ _ _ hd =>
      obtain ⟨⟨d₁, r⟩, hadd, hd⟩ := Outcome.bind_eq_ok hd
      obtain ⟨s, gemRef, -, rfl, ⟨⟨err, rfl⟩, -, hrefs⟩ | ⟨b, rfl, hg⟩⟩ :=
        VmBalance.submitAdd_refs hb.listed hadd
      · obtain rfl := Outcome.ok.inj hd
        exact of_pipe (named_of_file rfl) (.inl ⟨rfl, fun v _ => congrFun hrefs v⟩) rfl
      · obtain rfl := Outcome.ok.inj hd
        exact of_pipe (named_of_file rfl) (.inl ⟨rfl, fun v _ => congrFun hg.refs v⟩) rfl
  | submitLockFail _ _ _ _ =>
      exact of_pipe (named_of_file rfl) (.inl ⟨rfl, fun _ _ => rfl⟩) rfl
  | @submitInit _ _ file _ _ _ _ _ _ _ _ _ hd =>
      obtain ⟨⟨d₁, r⟩, hinit, hd⟩ := Outcome.bind_eq_ok hd
      obtain ⟨hr, gemRef, rfl⟩ | ⟨rfl, gemRef, s, hget, rfl⟩ := limaSchedTaskInit_cases hinit
      · obtain ⟨err, rfl⟩ := Option.isSome_iff_exists.mp hr
        obtain rfl := Outcome.ok.inj hd
        exact of_pipe (named_of_file rfl) (.inl ⟨rfl, fun _ _ => rfl⟩) rfl
      · obtain rfl := Outcome.ok.inj hd
        exact of_pipe (named_of_file rfl) (.inr ⟨some file.vm, .get hget rfl⟩) rfl
  | submitDepsFail _ _ _ hd =>
      obtain ⟨d₁, hfini, hd⟩ := Outcome.bind_eq_ok hd
      obtain ⟨s, gemRef, hput, rfl⟩ := limaSchedTaskFini_cases hfini
      obtain rfl := Outcome.ok.inj hd
      exact of_pipe (named_of_file rfl) (.inr ⟨none, .put hput rfl rfl⟩) rfl
  | submitQueue _ _ _ =>
      rw [submitQueue, gemPuts_eq]
      exact of_pipe (named_of_file rfl) (.inl ⟨rfl, fun _ _ => rfl⟩) rfl
  | submitUndo _ _ _ _ hd =>
      obtain ⟨d₁, hundo, hd⟩ := Outcome.bind_eq_ok hd
      obtain ⟨⟨s, touched⟩, hdel, hundo⟩ := Outcome.bind_eq_ok hundo
      obtain rfl := Outcome.ok.inj hundo
      obtain rfl := Outcome.ok.inj hd
      have hre := (limaVmBoDel_recounts hb.listed hdel).2
      exact of_pipe (named_of_file rfl) (.inl ⟨rfl, fun v _ => hre.refcount v⟩) rfl
  | submitEnd _ _ _ hd =>
      obtain ⟨d₁, hfree, hd⟩ := Outcome.bind_eq_ok hd
      obtain ⟨-, rfl⟩ := kmemCacheFree_cases hfree
      obtain rfl := Outcome.ok.inj hd
      exact of_pipe (named_of_file rfl) (.inl ⟨rfl, fun _ _ => rfl⟩) rfl

/-! ## The scheduler's steps -/

/-- A quiet step writes `empty_vm` to an MMU at most. -/
theorem quiet (hdrops : d.drops e = none) (q : d.Quiet d') : MmuStep e d d' where
  named := named_of_file q.file
  refs := .inl ⟨hdrops, fun v _ => q.sys.refs v⟩
  pipe p := .keeps (q.pipe p).currentTask (q.pipe p).currentVm (q.pipe p).mmuDte
    fun hne => absurd hdrops hne

theorem completes {p : PipeId} {t : TaskId} {d₁ : Dev} (hdrops : d.drops e = none)
    (c : Completes p t d d₁ d') : MmuStep e d d' := by
  have q := quiet hdrops c.quiet
  have hpipe : d'.pipe = d₁.pipe := by simp [c.eq, Dev.complete, addPm]
  have hfile : d'.file = d₁.file := by
    rw [c.eq]
    exact (VmBalance.keeps_fenceSignal _ _).file
  have hsys : d'.sys = d₁.sys := by simp [c.eq, Dev.complete, addPm]
  refine ⟨fun v hv => named_of_file hfile v (q.named v hv), .inl ⟨hdrops, fun v _ => ?_⟩,
    fun r => ?_⟩
  · rw [hsys]
    exact c.quiet.sys.refs v
  · exact (q.pipe r).congr (by rw [hpipe]) (by rw [hpipe]) (by rw [hpipe])

/-- **Dispatch.** A started job switches the MMUs of its pipe to its address space, and
puts the one that the pipe held. -/
theorem dispatched (hb : VmBalance d) {t : TaskId} {env : RunEnv}
    (hst : (d.task t).state.pushed = true) (hcase : GaveUp env t d d' ∧ d.drops e = none ∨
      Started env t d d' ∧ d.drops e = (d.pipe (d.task t).pipe).currentVm)
    (hkeeps : ∀ p, ¬ Dev.LetsGo e p) : MmuStep e d d' := by
  rcases hcase with ⟨hg, hdrops⟩ | ⟨hs, hdrops⟩
  · exact of_pipe (named_of_file (by rw [hg.rest]))
      (.inl ⟨hdrops, fun v _ => by rw [hg.rest]⟩) (by rw [hg.rest])
  · obtain ⟨v, s, hv, hput, hget, hrel, hcontrol⟩ := hs.refs
    have hholding : (d.task t).state.holding = true := by rw [TaskState.holding, hst]; rfl
    have hheld : d.heldVm t = some v := (if_pos hholding).trans hv
    refine ⟨named_of_file (by rw [hs.rest]), .inr ⟨some v, s.vmRefs, ?_, limaVmGet_takes hget⟩,
      fun q => ?_⟩
    · rw [hdrops, hrel]
      exact limaVmPut_drops _ hput
    · by_cases hq : q = (d.task t).pipe
      · subst hq
        refine .switches v (hkeeps _) (hb.held t v hheld) ?_ hcontrol.currentVm hcontrol.mmuDte
          fun hne => hdrops ▸ hne
        rw [hcontrol.currentTask]
        exact Option.some_ne_none t
      · exact .same (hs.pipe q hq)

theorem timedoutResubmit (hb : VmBalance d) (hm : d.MmuBooks) (hw : SchedWf d) {p : PipeId}
    {t u : TaskId} {cancel : Bool} {env : RunEnv} (ht : (d.pipe p).timedout = some (t, .cleared))
    (hu : d.Unfinished p u) (hd : d.timedoutResubmit p t u cancel env = .ok d') :
    MmuStep (.timedoutResubmit p u cancel env) d d' := by
  obtain ⟨d₁, hcases, rfl⟩ := timedoutResubmit_cases hd
  have hvm : (d.pipe (d.task u).pipe).currentVm = none := by
    rw [hu.2.2]
    exact hm.idle p (hw.cleared p t ht)
  obtain ⟨hb₁, hst⟩ := hb.cancelled cancel hu
  have hpipe : ((cancelled u cancel d).task u).pipe = (d.task u).pipe := by simp [cancelled]
  have hcase : GaveUp env u (cancelled u cancel d) d₁ ∧
      (cancelled u cancel d).drops (.timedoutResubmit p u cancel env) = none ∨
      Started env u (cancelled u cancel d) d₁ ∧
      (cancelled u cancel d).drops (.timedoutResubmit p u cancel env) =
        ((cancelled u cancel d).pipe ((cancelled u cancel d).task u).pipe).currentVm := by
    refine hcases.imp (fun hg => ⟨hg, rfl⟩) fun hs => ⟨hs, ?_⟩
    rw [hpipe]
    exact hvm.symm
  have hstep := dispatched hb₁ hst hcase fun _ => id
  refine ⟨hstep.named, hstep.refs, fun q => ?_⟩
  have hq : PipeStep (.timedoutResubmit p u cancel env) d d₁ q := by
    cases hstep.pipe q with
    | keeps ht hv hm _ => exact .keeps ht hv hm fun hne => absurd rfl hne
    | letsGo hgo _ _ => exact hgo.elim
    | switches v hno hnamed ht hv hm _ =>
        exact .switches v hno hnamed ht hv hm fun hne => absurd rfl hne
  refine hq.congr ?_ ?_ ?_ <;>
    · rw [Dev.leaveTimeout, modPipe_pipe]
      split <;> simp [*]

theorem freeJob (hb : VmBalance d) {t : TaskId} {fuel : ℕ}
    (hd : limaSchedFreeJob fuel d t = .ok d') : MmuStep (.freeJob t fuel) d d' := by
  obtain ⟨-, s₁, s, gemRef, hdel, hput, rfl⟩ := limaSchedFreeJob_cases hd
  obtain ⟨fence, hfence⟩ := d.fencePut_fence (d.task t).fence
  rw [hfence] at hdel ⊢
  obtain ⟨-, -, hrefs, -⟩ := VmBalance.delBos_frees (d := { d with fence := fence }) hb.listed hdel
  have hdrops := limaVmPut_drops d.vmReleased hput
  rw [show s₁.vmRefs = d.sys.vmRefs from hrefs] at hdrops
  exact of_pipe (named_of_file rfl) (.inr ⟨none, s.vmRefs, hdrops, rfl⟩) rfl

/-- A pipe that lets go of its address space does not touch its MMUs. -/
theorem letGo {p : PipeId} {s : Sys} (hput : limaVmPut d.sys (d.pipe p).currentVm = .ok s)
    (hdrops : d.drops e = (d.pipe p).currentVm) (hgo : Dev.LetsGo e p) (hfile : d'.file = d.file)
    (hsys : d'.sys = s)
    (hrel : d'.vmReleased = addRelease s (d.pipe p).currentVm d.vmReleased)
    (hvm : (d'.pipe p).currentVm = none) (hdte : (d'.pipe p).mmuDte = (d.pipe p).mmuDte)
    (hpipe : ∀ q, q ≠ p → d'.pipe q = d.pipe q) : MmuStep e d d' := by
  refine ⟨named_of_file hfile, .inr ⟨none, ?_⟩, fun q => ?_⟩
  · rw [hdrops]
    exact .put hput (by rw [hsys]) hrel
  · by_cases hq : q = p
    · subst hq
      exact .letsGo hgo hvm hdte
    · exact .same (hpipe q hq)

theorem finiRelease (hm : d.MmuBooks) {p : PipeId} {resetOk : Bool} {task : Option TaskId}
    (hd : d.finiRelease p resetOk task = .ok d') : MmuStep (.finiRelease p resetOk) d d' := by
  obtain ⟨-, hnone, rfl⟩ | ⟨s, x, hput, hx, -, d₁, hd₁, hd⟩ := finiRelease_cases hd
  · have hvm := hm.idle p hnone
    refine ⟨fun _ hv => hv, .inl ⟨hvm, fun _ _ => rfl⟩, fun q => ?_⟩
    by_cases hq : q = p
    · subst hq
      exact .letsGo rfl (by simpa using hvm) (by simp)
    · exact .same (modPipe_pipe_ne _ hq _)
  have h₁ : MmuStep (.finiRelease p resetOk) d d₁ := by
    refine letGo hput rfl rfl (by rw [hd₁]) (by rw [hd₁]) (by rw [hd₁]) ?_ ?_ fun q hq => ?_
    · simp [hd₁, hx.currentVm]
    · simp [hd₁, hx.mmuDte]
    · simp [hd₁, hq]
  obtain ⟨-, rfl⟩ | ⟨t, -, -, rfl⟩ := hd
  · exact h₁
  · obtain ⟨fence, heq, -⟩ := d₁.fenceSetError_frame .enodev (d.task t).fence
    have hfile := (VmBalance.keeps_fenceSignal (d₁.fenceSetError .enodev (d.task t).fence)
      (d.task t).fence).file
    rw [heq] at hfile ⊢
    refine ⟨fun v hv => named_of_file hfile v (h₁.named v hv), ?_, fun q => ?_⟩
    · simpa [MovesVm] using h₁.refs
    · exact (h₁.pipe q).congr (by simp) (by simp) (by simp)

theorem sched (hb : VmBalance d) (hm : d.MmuBooks) (hw : SchedWf d)
    (hs : schedStep cfg d e = some d') : MmuStep e d d' := by
  cases e with
  | runJob t env =>
      obtain ⟨hr, hd⟩ := guarded_eq_some hs
      have hst : (d.task t).state.pushed = true := by
        rw [hr.1]
        rfl
      have hcase : GaveUp env t d d' ∧ d.drops (.runJob t env) = none ∨
          Started env t d d' ∧
            d.drops (.runJob t env) = (d.pipe (d.task t).pipe).currentVm := by
        refine (dispatch_cases hd).imp (fun hg => ⟨hg, if_neg ?_⟩) fun hs => ⟨hs, if_pos ?_⟩
        · rcases hg.reason with hr | hr
          · simp [starts, Option.isSome_iff_ne_none.mp hr]
          · simp [starts, Bool.and_assoc, hr]
        · simp [starts, hs.noError, hs.envOk]
      exact dispatched hb hst hcase fun _ => id
  | killJob t =>
      obtain ⟨-, hd⟩ := guarded_eq_some hs
      obtain rfl := Outcome.ok.inj hd
      exact of_pipe (named_of_file rfl) (.inl ⟨rfl, fun _ _ => rfl⟩) rfl
  | freeJob t fuel =>
      obtain ⟨-, hd⟩ := guarded_eq_some hs
      exact freeJob hb hd
  | timedoutClear p =>
      obtain ⟨⟨t, pc⟩, -, hs⟩ := Option.bind_eq_some_iff.mp hs
      obtain ⟨-, hd⟩ := guarded_eq_some hs
      obtain ⟨s, hput, rfl⟩ := timedoutClear_cases hd
      exact letGo hput rfl rfl rfl rfl rfl (by simp) (by simp) fun q hq => modPipe_pipe_ne _ hq _
  | timedoutResubmit p u cancel env =>
      obtain ⟨⟨t, pc⟩, ht, hs⟩ := Option.bind_eq_some_iff.mp hs
      obtain ⟨⟨rfl, hu⟩, hd⟩ := guarded_eq_some hs
      exact timedoutResubmit hb hm hw ht hu hd
  | finiRelease p resetOk =>
      simp only [schedStep] at hs
      split at hs
      · obtain ⟨-, hd⟩ := guarded_eq_some hs
        exact finiRelease hm hd
      · cases hs
  | fileClose | submitDepsFail => cases hs
  | _ =>
      cases schedStep_move hs with
      | quiet q => exact quiet rfl q
      | completes _ c => exact completes rfl c

end MmuStep

/-! ## The invariant -/

namespace Dev

variable {d d' : Dev} {e : DevEvent}

theorem mmuBooks_boot (s : Sys) : (Dev.boot s).MmuBooks := ⟨fun _ _ => rfl, nofun, nofun⟩

theorem MmuBooks.step (h : d.MmuBooks) (m : MmuStep e d d') : d'.MmuBooks where
  idle p hp := by
    cases m.pipe p with
    | keeps ht hv _ _ => exact hv.trans (h.idle p (ht.symm.trans hp))
    | letsGo _ hv _ => exact hv
    | switches v _ _ ht _ _ _ => exact absurd hp ht
  set p i v hv := by
    cases m.pipe p with
    | keeps _ hcur hdte _ =>
        rw [hcur]
        refine (hdte i).elim (fun hnone => ?_) fun hsame => h.set p i v (hsame.symm.trans hv)
        rw [hnone] at hv
        cases hv
    | letsGo _ hcur _ => exact .inl hcur
    | switches w _ _ _ hcur hdte _ =>
        rw [hdte] at hv
        exact .inr (hcur.trans hv)
  named p i v hv := by
    refine m.named v ?_
    cases m.pipe p with
    | keeps _ _ hdte _ =>
        refine (hdte i).elim (fun hnone => ?_) fun hsame => h.named p i v (hsame.symm.trans hv)
        rw [hnone] at hv
        cases hv
    | letsGo _ _ hdte => exact h.named p i v (hdte ▸ hv)
    | switches w _ hnamed _ _ hdte _ =>
        rw [hdte] at hv
        obtain rfl := Option.some.inj hv
        exact hnamed

/-- A pipe's address space is referenced by the pipe. -/
theorem live_of_current (hb : VmBalance d) {p : PipeId} {v : VmId}
    (hv : (d.pipe p).currentVm = some v) : Alive d.sys.vmRefs v := by
  obtain ⟨f, hf⟩ := hb.current p v hv
  obtain ⟨file, hfile, rfl⟩ := Option.map_eq_some_iff.mp hf
  have hmem : p ∈ ({PipeId.gp, PipeId.pp} : Finset PipeId) := by cases p <;> simp
  have hpos : 0 < holders {PipeId.gp, PipeId.pp} d.currentVms file.vm :=
    holders_pos.mpr ⟨p, hmem, hv⟩
  refine (hb.refs f file hfile).live ?_
  unfold vmUsers
  omega

end Dev

namespace MmuStep

open Dev

variable {d d' : Dev} {e : DevEvent}

/-- An MMU that is set after a step is set to the address space of its pipe, or was left set
to one before. -/
theorem dte (h : d.MmuBooks) (m : MmuStep e d d') {p : PipeId} {i : ℕ} {v : VmId}
    (hv : (d'.pipe p).mmuDte i = some v) :
    (d'.pipe p).currentVm = some v ∨ (d.pipe p).mmuDte i = some v ∧ d.LeftSet e v := by
  cases m.pipe p with
  | keeps _ hcur hdte _ =>
      have hold : (d.pipe p).mmuDte i = some v := by
        refine (hdte i).elim (fun hnone => ?_) fun hsame => hsame.symm.trans hv
        rw [hnone] at hv
        cases hv
      rw [hcur]
      refine (h.set p i v hold).elim (fun hnone => ?_) .inl
      exact .inr ⟨hold, p, i, hold, .inl hnone⟩
  | letsGo hgo _ hdte =>
      rw [hdte] at hv
      exact .inr ⟨hv, p, i, hv, .inr hgo⟩
  | switches w _ _ _ hcur hdte _ =>
      rw [hdte] at hv
      exact .inl (hcur.trans hv)

/-- A step that puts a reference leaves the MMUs set that it found or made so. -/
theorem leftSet_stays (m : MmuStep e d d') {v : VmId} (hdrops : d.drops e = some v)
    (h : d.LeftSet e v) : ∃ p i, (d'.pipe p).mmuDte i = some v := by
  obtain ⟨p, i, hv, hleft⟩ := h
  have hne : d.drops e ≠ none := by simp [hdrops]
  refine ⟨p, i, ?_⟩
  cases m.pipe p with
  | keeps _ _ _ hsame => exact (congrFun (hsame hne) i).trans hv
  | letsGo _ _ hdte => exact (congrFun hdte i).trans hv
  | switches w hno _ _ _ _ hcur =>
      exact hleft.elim (fun hnone => absurd hnone (hcur hne)) fun hgo => absurd hgo hno

/-- An address space that is referenced before a step is so after it, unless the step puts
the last reference. -/
theorem live (m : MmuStep e d d') {v : VmId} (hnamed : d.Named v)
    (hv : Alive d.sys.vmRefs v)
    (hlast : d.drops e = some v → (d.sys.vm v).map Vm.refcount ≠ some 1) :
    Alive d'.sys.vmRefs v := by
  obtain ⟨-, hrefs⟩ | ⟨b, count, hdrop, htake⟩ := m.refs
  · obtain ⟨n, hn, hcount⟩ := hv
    exact ⟨n, hn, (hrefs v hnamed).trans hcount⟩
  · exact htake.live (hdrop.live hv hlast)

end MmuStep

namespace Dev

variable {d d' : Dev} {e : DevEvent}

/-- **The step lemma.** After a step every MMU is set to a living address space exactly if
the step did not release one that an MMU is left set to. -/
theorem DtesLive.step (hb' : VmBalance d') (hm : d.MmuBooks) (h : d.DtesLive)
    (m : MmuStep e d d') : d'.DtesLive ↔ d.ReleasesUnset e := by
  constructor
  · rintro hlive v hdrops hone hleft
    obtain ⟨p, i, hv⟩ := m.leftSet_stays hdrops hleft
    obtain ⟨n, -, hn⟩ := hlive p i v hv
    have hdead : d'.sys.vmRefs v = none := by
      obtain ⟨hnone, -⟩ | ⟨b, count, hdrop, htake⟩ := m.refs
      · rw [hdrops] at hnone
        cases hnone
      · rw [hdrops] at hdrop
        exact htake.dead (hdrop.dead hone)
    rw [Sys.vmRefs, hn] at hdead
    cases hdead
  · intro hok p i v hv
    rcases m.dte hm hv with hcur | ⟨hold, hleft⟩
    · exact live_of_current hb' hcur
    · exact m.live (hm.named p i v hold) (h p i v hold)
        fun hdrops hone => hok v hdrops hone hleft

/-- Every step is one that `MmuStep` describes. -/
theorem mmuStep {cfg : DevConfig} (hw : SchedWf d) (hb : VmBalance d) (hm : d.MmuBooks)
    (hd : devStep cfg d e = some d') : MmuStep e d d' := by
  rcases devStep_cases hd with hu | hs
  · exact .user hb hu
  · exact .sched hb hm hw hs

theorem mmuBooks_of_reachable {cfg : DevConfig} (h : (devLts cfg).Reachable d) : d.MmuBooks := by
  refine h.invariant (fun d hd => ?_) fun d e d' hr hi hstep =>
    hi.step (mmuStep (SchedWf.of_reachable hr) (VmBalance.of_reachable hr) hi hstep)
  obtain ⟨s, rfl, -⟩ := hd
  exact mmuBooks_boot s

end Dev

/-! ## Main result -/

/-- **The page directory of every MMU.** In a run in which no step releases an address space
that an MMU is left set to, every MMU is at all times set to `empty_vm` or to an address
space that is referenced; and the first step that does release one leaves an MMU set to what
has been released. -/
theorem mmu_dte_live_iff (cfg : DevConfig) {d : Dev} (h : (devLts cfg).Via Dev.ReleasesUnset d) :
    d.DtesLive ∧ ∀ e d', devStep cfg d e = some d' → (d'.DtesLive ↔ d.ReleasesUnset e) := by
  have hstep : ∀ {d : Dev}, (devLts cfg).Reachable d → d.DtesLive → ∀ e d',
      devStep cfg d e = some d' → (d'.DtesLive ↔ d.ReleasesUnset e) := by
    intro d hr hlive e d' hd
    have hb := VmBalance.of_reachable hr
    have hm := Dev.mmuBooks_of_reachable hr
    have hb' : VmBalance d' := VmBalance.of_reachable (hr.step hd)
    exact hlive.step hb' hm (Dev.mmuStep (SchedWf.of_reachable hr) hb hm hd)
  have hlive : d.DtesLive := by
    refine h.invariant (fun d hd => ?_) fun d e d' hr hi hok hd =>
      (hstep hr.reachable hi e d' hd).mpr hok
    obtain ⟨s, rfl, -⟩ := hd
    exact nofun
  exact ⟨hlive, hstep h.reachable hlive⟩

/-- A timeout that finds no page fault gives up on a job, which is reaped. -/
def timeoutNoFault : List DevEvent :=
  [.timedoutBegin .gp 0, .timedoutReset .gp true fun _ => false, .timedoutClear .gp,
    .timedoutResubmit .gp 0 true allOk, .timedoutEnd .gp, .freeJob 0 0]

/-- While the file is open, its address space stays, to which the timeout has left the MMU
of the GP set. -/
theorem mmu_dte_live_iff_timeout : ∃ d : Dev, (d.pipe .gp).mmuDte 0 = some 0 ∧ d.DtesLive := by
  have hrun : ((Lts.exec
      (fun d e => if (d.drops e).all fun v => decide ((d.sys.vm v).map Vm.refcount ≠ some 1) then
        devStep mali400Dev d e else none)
      (.boot (.fresh onePageBo)) (openOne ++ submitOne 0 .gp gpFrame ++ [.runJob 0 allOk] ++
        timeoutNoFault)).map fun d => (d.pipe .gp).mmuDte 0) = some (some 0) := rfl
  obtain ⟨d, hd, hdte⟩ := Option.map_eq_some_iff.mp hrun
  refine ⟨d, hdte, (mmu_dte_live_iff mali400Dev (Lts.Via.exec (fun d e d' hstep => ?_)
    (.init (onePage_init _)) hd)).1⟩
  split at hstep
  · rename_i hmany
    refine ⟨fun v hdrops hone => ?_, hstep⟩
    rw [hdrops, Option.all_some, decide_eq_true_iff] at hmany
    exact absurd hone hmany
  · cases hstep

/-- The file closes its handle and itself, and the page directory in the MMU is freed. -/
theorem mmu_dte_released : ∃ d, (devLts mali400Dev).Reachable d ∧
    (d.pipe .gp).mmuDte 0 = some 0 ∧ (d.sys.vm 0).map Vm.refcount = none ∧
    0 ∈ d.vmReleased := by
  have hrun : ((Lts.exec (devStep mali400Dev) (.boot (.fresh onePageBo))
      (openOne ++ submitOne 0 .gp gpFrame ++ [.runJob 0 allOk] ++ timeoutNoFault ++
        [.handleClose 0 1 0 4, .fileClose 0])).map
        fun d => ((d.pipe .gp).mmuDte 0, (d.sys.vm 0).map Vm.refcount, d.vmReleased)) =
      some (some 0, none, [0]) := rfl
  obtain ⟨d, hd, hobs⟩ := Option.map_eq_some_iff.mp hrun
  obtain ⟨hdte, hobs⟩ := Prod.mk.inj hobs
  obtain ⟨hnone, hrel⟩ := Prod.mk.inj hobs
  exact ⟨d, Lts.Reachable.exec (fun _ _ _ h => h) (.init (onePage_init _)) hd, hdte, hnone,
    by simp [hrel]⟩

end Lima
