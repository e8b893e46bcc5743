import Lima.Sched.Events
import Lima.Sched.SubmitRefs

/-!
# What freeing a job and the steps of a user have done

A user's step, of a file, a handle or a submit, leaves the pipes and fences alone
and touches only tasks that have not been pushed yet.
-/

namespace Lima

namespace Dev

variable {d d' : Dev}

/-! ## Freeing a job -/

theorem delBos_sys {fuel : ℕ} {v : Option VmId} : ∀ {bs : List BoId} {d d' : Dev},
    delBos fuel v bs d = .ok d' → ∃ s, d' = d.setSys s
  | [], d, d', h => ⟨d.sys, (Outcome.ok.inj h).symm⟩
  | b :: bs, d, d', h => by
      cases v with
      | none => cases h
      | some v =>
          obtain ⟨r, -, h⟩ := Outcome.bind_eq_ok h
          obtain ⟨s, rfl⟩ := delBos_sys h
          exact ⟨s, rfl⟩

theorem limaSchedTaskFini_cases {t : TaskId} (h : d.limaSchedTaskFini t = .ok d') :
    ∃ s gemRef, limaVmPut d.sys (d.task t).vm = .ok s ∧ d' = { d with
      sys := s
      vmReleased := addRelease s (d.task t).vm d.vmReleased
      gemRef := gemRef
      task := Function.update d.task t { d.task t with state := .allocated } } := by
  obtain ⟨d₁, hput, hd⟩ := Outcome.bind_eq_ok h
  obtain rfl := Outcome.ok.inj hd
  rw [gemPuts_eq] at hput
  obtain ⟨s, hs, rfl⟩ := vmPut_cases hput
  exact ⟨s, _, hs, rfl⟩

theorem kmemCacheFree_cases {t : TaskId} (h : d.kmemCacheFree t = .ok d') :
    (d.task t).state ≠ .freed ∧
      d' = d.modTask t fun task => { task with state := .freed } := by
  obtain ⟨x, hx, hd⟩ := Outcome.bind_eq_ok h
  exact ⟨(readTask_cases hx).1, (Outcome.ok.inj hd).symm⟩

/-- A completed `lima_sched_free_job`. -/
theorem limaSchedFreeJob_cases {fuel : ℕ} {t : TaskId}
    (h : limaSchedFreeJob fuel d t = .ok d') :
    (d.task t).state ≠ .freed ∧ ∃ s₁ s gemRef,
      delBos fuel (d.task t).vm (d.task t).bos (d.fencePut (d.task t).fence) =
        .ok ((d.fencePut (d.task t).fence).setSys s₁) ∧
      limaVmPut s₁ (d.task t).vm = .ok s ∧ d' = { d.fencePut (d.task t).fence with
        sys := s
        vmReleased := addRelease s (d.task t).vm d.vmReleased
        gemRef := gemRef
        task := Function.update d.task t { d.task t with state := .freed } } := by
  obtain ⟨x, hx, h⟩ := Outcome.bind_eq_ok h
  obtain ⟨hlive, rfl⟩ := readTask_cases hx
  obtain ⟨d₁, hdel, h⟩ := Outcome.bind_eq_ok h
  obtain ⟨d₂, hfini, h⟩ := Outcome.bind_eq_ok h
  obtain ⟨s₁, rfl⟩ := delBos_sys hdel
  have hput : ∃ fence, d.fencePut (d.task t).fence = { d with fence := fence } :=
    fencePut_fence d _
  obtain ⟨fence, hfence⟩ := hput
  obtain ⟨s, gemRef, hs, rfl⟩ := limaSchedTaskFini_cases hfini
  obtain ⟨-, rfl⟩ := kmemCacheFree_cases h
  refine ⟨hlive, s₁, s, gemRef, hdel, ?_, ?_⟩
  · rw [hfence] at hs
    exact hs
  · rw [hfence]
    simp [modTask, setSys]

/-- Putting a fence changes the driver's references only. -/
theorem fencePut_same (d : Dev) (f : Option FenceId) (g : FenceId) :
    ((d.fencePut f).fence g).signaled = (d.fence g).signaled ∧
      ((d.fencePut f).fence g).error = (d.fence g).error ∧
      ((d.fencePut f).fence g).cb = (d.fence g).cb := by
  cases f with
  | none => exact ⟨rfl, rfl, rfl⟩
  | some f =>
      simp only [fencePut, modFence_fence]
      split <;> exact ⟨rfl, rfl, rfl⟩

end Dev

/-! ## The steps of a user -/

/-- A task before it is pushed. -/
def TaskState.PreRun (st : TaskState) : Prop :=
  st = .unallocated ∨ st = .allocated ∨ st = .inited

/-- Nothing has happened to the task's job yet. -/
structure Task.Unrun (x : Task) : Prop where
  fence : x.fence = none
  finished : x.finished = false
  finishedError : x.finishedError = none
  hwDone : x.hwDone = false
  undispatched : x.undispatched = false

/-- The names of tasks are used in order, and a submit under way has a task that is
not pushed. -/
structure Dev.TasksWf (d : Dev) : Prop where
  fresh : ∀ t, d.numTasks ≤ t → (d.task t).state = .unallocated ∧ d.submit t = none
  submit : ∀ t sm, d.submit t = some sm →
    (d.task t).state = .allocated ∨ (d.task t).state = .inited

/-- What happens to a task in a step of a user. -/
def Task.UserMove (x x' : Task) : Prop :=
  x' = x ∨ x.state.PreRun ∧ (x'.state = .allocated ∨ x'.state = .inited ∨
    x'.state = .queued ∨ x'.state = .freed) ∧ (x.Unrun → x'.Unrun)

structure Dev.UserMove (d d' : Dev) : Prop where
  pipe : d'.pipe = d.pipe
  fence : d'.fence = d.fence
  numFences : d'.numFences = d.numFences
  pm : d'.pm = d.pm
  task : ∀ t, (d.task t).UserMove (d'.task t)

namespace Dev

variable {d d' : Dev}

/-- A step that leaves the tasks and the submits alone. -/
theorem UserMove.frame (hw : d.TasksWf) (hpipe : d'.pipe = d.pipe)
    (hfence : d'.fence = d.fence) (hnf : d'.numFences = d.numFences)
    (hpm : d'.pm = d.pm) (htask : d'.task = d.task) (hnt : d'.numTasks = d.numTasks)
    (hsub : ∀ t, d'.submit t = d.submit t ∨ d'.submit t = none ∨
      (d.submit t).isSome = true) :
    d.UserMove d' ∧ d'.TasksWf := by
  refine ⟨⟨hpipe, hfence, hnf, hpm, fun t => .inl (congrFun htask t)⟩,
    fun t ht => ?_, fun t sm hsm => ?_⟩
  · rw [hnt] at ht
    obtain ⟨hst, hnone⟩ := hw.fresh t ht
    rw [htask]
    refine ⟨hst, ?_⟩
    rcases hsub t with h | h | h
    · rw [h, hnone]
    · exact h
    · rw [hnone] at h
      cases h
  · rw [htask]
    rcases hsub t with h | h | h
    · exact hw.submit t sm (h ▸ hsm)
    · rw [h] at hsm
      cases hsm
    · obtain ⟨sm', hsm'⟩ := Option.isSome_iff_exists.mp h
      exact hw.submit t sm' hsm'

/-- A step that leaves the tasks alone, and all submits but one under way. -/
theorem UserMove.frame_submit {t : TaskId} {sm : Submit} (hw : d.TasksWf)
    (hsm : d.submit t = some sm) (hpipe : d'.pipe = d.pipe) (hfence : d'.fence = d.fence)
    (hnf : d'.numFences = d.numFences) (hpm : d'.pm = d.pm) (htask : d'.task = d.task)
    (hnt : d'.numTasks = d.numTasks) (hsub : ∀ u, u ≠ t → d'.submit u = d.submit u) :
    d.UserMove d' ∧ d'.TasksWf := by
  refine UserMove.frame hw hpipe hfence hnf hpm htask hnt fun u => ?_
  by_cases hu : u = t
  · subst hu
    exact .inr (.inr (by rw [hsm]; rfl))
  · exact .inl (hsub u hu)

/-- A step that moves the task of a submit under way. -/
theorem UserMove.task_of {t : TaskId} {x : Task} (hw : d.TasksWf)
    (hsm : (d.submit t).isSome = true) (hpipe : d'.pipe = d.pipe)
    (hfence : d'.fence = d.fence) (hnf : d'.numFences = d.numFences)
    (hpm : d'.pm = d.pm) (htask : d'.task = Function.update d.task t x)
    (hnt : d'.numTasks = d.numTasks) (hsub : ∀ u, u ≠ t → d'.submit u = d.submit u)
    (hx : x.state = .allocated ∨ x.state = .inited ∨
      d'.submit t = none ∧ (x.state = .queued ∨ x.state = .freed))
    (hrun : (d.task t).Unrun → x.Unrun) :
    d.UserMove d' ∧ d'.TasksWf := by
  obtain ⟨sm, hsm⟩ := Option.isSome_iff_exists.mp hsm
  have hpre : (d.task t).state.PreRun := .inr (hw.submit t sm hsm)
  refine ⟨⟨hpipe, hfence, hnf, hpm, fun u => ?_⟩, fun u hu => ?_, fun u su hsu => ?_⟩
  · by_cases hut : u = t
    · subst hut
      rw [htask, Function.update_self]
      exact .inr ⟨hpre, by tauto, hrun⟩
    · rw [htask, Function.update_of_ne hut]
      exact .inl rfl
  · rw [hnt] at hu
    have hut : u ≠ t := by
      rintro rfl
      rw [(hw.fresh u hu).2] at hsm
      cases hsm
    rw [htask, Function.update_of_ne hut, hsub u hut]
    exact hw.fresh u hu
  · by_cases hut : u = t
    · subst hut
      rw [htask, Function.update_self]
      rcases hx with hx | hx | ⟨hnone, -⟩
      · exact .inl hx
      · exact .inr hx
      · rw [hnone] at hsu
        cases hsu
    · rw [htask, Function.update_of_ne hut]
      exact hw.submit u su (hsub u hut ▸ hsu)

@[simp] theorem setSubmit_submit (t : TaskId) (sm : Option Submit) (u : TaskId) :
    (d.setSubmit t sm).submit u = if u = t then sm else d.submit u := by
  by_cases h : u = t <;> simp [setSubmit, h]

/-- The next handle of a submit: the device differs in its address spaces and GEM
references. -/
theorem submitAdd_frame {f : FileId} {v : VmId} {h : ℕ} {r : Except Errno BoId}
    (hadd : d.submitAdd f v h = .ok (d', r)) :
    ∃ s gemRef, d' = { d with
      sys := s
      gemRef := gemRef } := by
  unfold submitAdd at hadd
  cases hlook : d.gemLookup f h with
  | none =>
      rw [hlook] at hadd
      obtain ⟨rfl, -⟩ := Prod.mk.inj (Outcome.ok.inj hadd)
      exact ⟨d.sys, d.gemRef, rfl⟩
  | some x =>
      obtain ⟨d₁, b⟩ := x
      rw [hlook] at hadd
      obtain ⟨⟨s, e⟩, -, hres⟩ := Outcome.bind_eq_ok hadd
      have hd₁ : d₁ = d.gemGet b := by
        unfold gemLookup at hlook
        obtain ⟨b', -, hb'⟩ := Option.map_eq_some_iff.mp hlook
        obtain ⟨rfl, rfl⟩ := Prod.mk.inj hb'
        rfl
      subst hd₁
      cases e with
      | none =>
          obtain ⟨rfl, -⟩ := Prod.mk.inj (Outcome.ok.inj hres)
          exact ⟨_, _, rfl⟩
      | some e =>
          obtain ⟨rfl, -⟩ := Prod.mk.inj (Outcome.ok.inj hres)
          exact ⟨_, _, rfl⟩

/-- A completed `lima_sched_task_init`. -/
theorem limaSchedTaskInit_cases {kmemdupOk : Bool} {jobInit : Option Errno} {t : TaskId}
    {c : CtxId} {bos : List BoId} {v : VmId} {r : Option Errno}
    (h : d.limaSchedTaskInit kmemdupOk jobInit t c bos v = .ok (d', r)) :
    (r.isSome = true ∧ ∃ gemRef, d' = { d with gemRef := gemRef }) ∨
    r = none ∧ ∃ gemRef s, limaVmGet d.sys v = .ok s ∧ d' = { d with
      gemRef := gemRef
      sys := s
      task := Function.update d.task t ((d.task t).init c v bos) } := by
  unfold limaSchedTaskInit at h
  split at h
  · obtain ⟨rfl, rfl⟩ := Prod.mk.inj (Outcome.ok.inj h)
    exact .inl ⟨rfl, d.gemRef, rfl⟩
  · simp only [gemGets_eq] at h
    cases jobInit with
    | some e =>
        obtain ⟨rfl, rfl⟩ := Prod.mk.inj (Outcome.ok.inj h)
        exact .inl ⟨rfl, _, rfl⟩
    | none =>
        obtain ⟨d₁, hget, h⟩ := Outcome.bind_eq_ok h
        obtain ⟨w, s, hw, hs, rfl⟩ := vmGet_cases hget
        obtain rfl := Option.some.inj hw
        obtain ⟨rfl, rfl⟩ := Prod.mk.inj (Outcome.ok.inj h)
        exact .inr ⟨rfl, _, s, hs, rfl⟩

/-- A call of a user, whose guard has held. -/
inductive UserCall (cfg : DevConfig) (d : Dev) : DevEvent → Dev → Prop
  | fileOpen {f : FileId} {kzallocOk : Bool} {pdAlloc : Option ℕ} {dmaAlloc : ℕ → Option ℕ} :
      d.file f = none → UserCall cfg d (.fileOpen f kzallocOk pdAlloc dmaAlloc)
        (d.limaDrmDriverOpen cfg.vm f kzallocOk pdAlloc dmaAlloc)
  | fileClose {f : FileId} {file : DrmFile} {d' : Dev} : d.file f = some file →
      file.isOpen = true → file.handles = [] → d.NoSubmit f →
      d.limaDrmDriverPostclose f file = .ok d' → UserCall cfg d (.fileClose f) d'
  | handleOpen {f : FileId} {file : DrmFile} {n : ℕ} {b : BoId} {env : BoAddEnv} {fuel : ℕ}
      {d' : Dev} : d.file f = some file → file.isOpen = true →
      lookupId n file.handles = none → d.limaGemObjectOpen f file n b env fuel = .ok d' →
      UserCall cfg d (.handleOpen f n b env fuel) d'
  | handleClose {f : FileId} {file : DrmFile} {n : ℕ} {b : BoId} {fuel : ℕ} {d' : Dev} :
      d.file f = some file → (n, b) ∈ file.handles →
      d.limaGemObjectClose f file n b fuel = .ok d' →
      UserCall cfg d (.handleClose f n b fuel) d'
  | submitBegin {f : FileId} {file : DrmFile} {p : PipeId} {frame : Frame} {handles : List ℕ} :
      d.file f = some file → file.isOpen = true → handles ≠ [] →
      pipeTaskValidate cfg.submit frame p = none →
      UserCall cfg d (.submitBegin f p frame handles) (d.submitBegin f p frame handles)
  | submitAdd {t : TaskId} {sm : Submit} {file : DrmFile} {n : ℕ} {ns : List ℕ} {d' : Dev} :
      d.submit t = some sm → d.file sm.file = some file → sm.handles = n :: ns →
      sm.failed = false → d.submitNext t sm file.vm n ns = .ok d' →
      UserCall cfg d (.submitAdd t) d'
  | submitLockFail {t : TaskId} {sm : Submit} : d.submit t = some sm → sm.failed = false →
      sm.handles = [] → (d.task t).state = .allocated →
      UserCall cfg d (.submitLockFail t) (d.setSubmit t (some { sm with failed := true }))
  | submitInit {t : TaskId} {sm : Submit} {file : DrmFile} {c : CtxId} {kmemdupOk : Bool}
      {jobInit : Option Errno} {d' : Dev} : d.submit t = some sm →
      d.file sm.file = some file → sm.failed = false → sm.handles = [] →
      (d.task t).state = .allocated →
      d.submitInit t sm file.vm c kmemdupOk jobInit = .ok d' →
      UserCall cfg d (.submitInit t c kmemdupOk jobInit) d'
  | submitDepsFail {t : TaskId} {sm : Submit} {d' : Dev} : d.submit t = some sm →
      sm.failed = false → (d.task t).state = .inited → d.submitDepsFail t sm = .ok d' →
      UserCall cfg d (.submitDepsFail t) d'
  | submitQueue {t : TaskId} {sm : Submit} : d.submit t = some sm → sm.failed = false →
      (d.task t).state = .inited → UserCall cfg d (.submitQueue t) (d.submitQueue t sm)
  | submitUndo {t : TaskId} {sm : Submit} {file : DrmFile} {b : BoId} {bs : List BoId}
      {fuel : ℕ} {d' : Dev} : d.submit t = some sm → d.file sm.file = some file →
      sm.lbos = b :: bs → sm.failed = true →
      d.submitUndoNext t sm file.vm b bs fuel = .ok d' →
      UserCall cfg d (.submitUndo t fuel) d'
  | submitEnd {t : TaskId} {sm : Submit} {d' : Dev} : d.submit t = some sm →
      sm.failed = true → sm.lbos = [] → d.submitEnd t = .ok d' →
      UserCall cfg d (.submitEnd t) d'

theorem userStep_call {cfg : DevConfig} {e : DevEvent} (h : userStep cfg d e = some d') :
    UserCall cfg d e d' := by
  cases e with
  | fileOpen f kz pd dma =>
      obtain ⟨hf, h⟩ := guarded_eq_some h
      obtain rfl := Outcome.ok.inj h
      exact .fileOpen hf
  | fileClose f =>
      obtain ⟨file, hf, h⟩ := Option.bind_eq_some_iff.mp h
      obtain ⟨⟨hopen, hempty, hno⟩, h⟩ := guarded_eq_some h
      exact .fileClose hf hopen hempty hno h
  | handleOpen f n b env fuel =>
      obtain ⟨file, hf, h⟩ := Option.bind_eq_some_iff.mp h
      obtain ⟨⟨hopen, hnew⟩, h⟩ := guarded_eq_some h
      exact .handleOpen hf hopen hnew h
  | handleClose f n b fuel =>
      obtain ⟨file, hf, h⟩ := Option.bind_eq_some_iff.mp h
      obtain ⟨hmem, h⟩ := guarded_eq_some h
      exact .handleClose hf hmem h
  | submitBegin f p frame handles =>
      obtain ⟨file, hf, h⟩ := Option.bind_eq_some_iff.mp h
      obtain ⟨⟨hopen, hne, hvalid⟩, h⟩ := guarded_eq_some h
      obtain rfl := Outcome.ok.inj h
      exact .submitBegin hf hopen hne hvalid
  | submitAdd t =>
      obtain ⟨sm, hsm, h⟩ := Option.bind_eq_some_iff.mp h
      obtain ⟨file, hf, h⟩ := Option.bind_eq_some_iff.mp h
      split at h
      · cases h
      · rename_i n ns hns
        obtain ⟨hfail, h⟩ := guarded_eq_some h
        exact .submitAdd hsm hf hns hfail h
  | submitLockFail t =>
      obtain ⟨sm, hsm, h⟩ := Option.bind_eq_some_iff.mp h
      obtain ⟨⟨hfail, hns, hst⟩, h⟩ := guarded_eq_some h
      obtain rfl := Outcome.ok.inj h
      exact .submitLockFail hsm hfail hns hst
  | submitInit t c kmemdupOk jobInit =>
      obtain ⟨sm, hsm, h⟩ := Option.bind_eq_some_iff.mp h
      obtain ⟨file, hf, h⟩ := Option.bind_eq_some_iff.mp h
      obtain ⟨⟨hfail, hns, hst⟩, h⟩ := guarded_eq_some h
      exact .submitInit hsm hf hfail hns hst h
  | submitDepsFail t =>
      obtain ⟨sm, hsm, h⟩ := Option.bind_eq_some_iff.mp h
      obtain ⟨⟨hfail, hst⟩, h⟩ := guarded_eq_some h
      exact .submitDepsFail hsm hfail hst h
  | submitQueue t =>
      obtain ⟨sm, hsm, h⟩ := Option.bind_eq_some_iff.mp h
      obtain ⟨⟨hfail, hst⟩, h⟩ := guarded_eq_some h
      obtain rfl := Outcome.ok.inj h
      exact .submitQueue hsm hfail hst
  | submitUndo t fuel =>
      obtain ⟨sm, hsm, h⟩ := Option.bind_eq_some_iff.mp h
      obtain ⟨file, hf, h⟩ := Option.bind_eq_some_iff.mp h
      split at h
      · cases h
      · rename_i b bs hbs
        obtain ⟨hfail, h⟩ := guarded_eq_some h
        exact .submitUndo hsm hf hbs hfail h
  | submitEnd t =>
      obtain ⟨sm, hsm, h⟩ := Option.bind_eq_some_iff.mp h
      obtain ⟨⟨hfail, hlbos⟩, h⟩ := guarded_eq_some h
      exact .submitEnd hsm hfail hlbos h
  | _ => cases h

/-- **The steps of users** leave the pipes and the fences alone, and move no task
but one that is not pushed yet. -/
theorem userStep_move {cfg : DevConfig} {e : DevEvent} (hw : d.TasksWf)
    (h : userStep cfg d e = some d') : d.UserMove d' ∧ d'.TasksWf := by
  cases userStep_call h with
  | fileOpen _ =>
      unfold limaDrmDriverOpen
      split <;> exact UserMove.frame hw rfl rfl rfl rfl rfl rfl fun _ => .inl rfl
  | fileClose _ _ _ _ h =>
      obtain ⟨d₁, hput, h⟩ := Outcome.bind_eq_ok h
      obtain ⟨s, -, rfl⟩ := vmPut_cases hput
      obtain rfl := Outcome.ok.inj h
      exact UserMove.frame hw rfl rfl rfl rfl rfl rfl fun _ => .inl rfl
  | handleOpen _ _ _ h =>
      obtain ⟨⟨s, r⟩, -, h⟩ := Outcome.bind_eq_ok h
      cases r with
      | some e =>
          obtain rfl := Outcome.ok.inj h
          exact UserMove.frame hw rfl rfl rfl rfl rfl rfl fun _ => .inl rfl
      | none =>
          obtain rfl := Outcome.ok.inj h
          exact UserMove.frame hw rfl rfl rfl rfl rfl rfl fun _ => .inl rfl
  | handleClose _ _ h =>
      obtain ⟨r, -, h⟩ := Outcome.bind_eq_ok h
      obtain rfl := Outcome.ok.inj h
      exact UserMove.frame hw rfl rfl rfl rfl rfl rfl fun _ => .inl rfl
  | submitBegin _ _ _ _ =>
      have hnew := hw.fresh d.numTasks le_rfl
      refine ⟨⟨rfl, rfl, rfl, rfl, fun t => ?_⟩, fun t ht => ?_, fun t sm hsm => ?_⟩
      · by_cases ht : t = d.numTasks
        · subst ht
          refine .inr ⟨.inl hnew.1, .inl ?_, fun _ => ?_⟩
          · simp [submitBegin, setSubmit, setFrame, zallocTask, modTask, Task.zeroed]
          · constructor <;>
              simp [submitBegin, setSubmit, setFrame, zallocTask, modTask, Task.zeroed]
        · exact .inl (by simp [submitBegin, setSubmit, setFrame, zallocTask, modTask, ht])
      · have hlt : d.numTasks + 1 ≤ t := ht
        have hne : t ≠ d.numTasks := by omega
        rw [submitBegin, setSubmit_submit, if_neg hne]
        refine ⟨?_, (hw.fresh t (by omega)).2⟩
        simpa [setSubmit, setFrame, zallocTask, modTask, hne] using
          (hw.fresh t (by omega)).1
      · by_cases ht : t = d.numTasks
        · subst ht
          left
          simp [submitBegin, setSubmit, setFrame, zallocTask, modTask, Task.zeroed]
        · have hold : d.submit t = some sm := by
            simpa [submitBegin, ht, setFrame, zallocTask, modTask] using hsm
          simpa [submitBegin, setSubmit, setFrame, zallocTask, modTask, ht] using
            hw.submit t sm hold
  | submitAdd hsm _ _ _ h =>
      obtain ⟨⟨d₁, r⟩, hadd, h⟩ := Outcome.bind_eq_ok h
      obtain ⟨s, gemRef, rfl⟩ := submitAdd_frame hadd
      cases r with
      | error e =>
          obtain rfl := Outcome.ok.inj h
          exact UserMove.frame_submit hw hsm rfl rfl rfl rfl rfl rfl
            fun u hu => by simp [hu]
      | ok b =>
          obtain rfl := Outcome.ok.inj h
          exact UserMove.frame_submit hw hsm rfl rfl rfl rfl rfl rfl
            fun u hu => by simp [hu]
  | submitLockFail hsm _ _ _ =>
      exact UserMove.frame_submit hw hsm rfl rfl rfl rfl rfl rfl
        fun u hu => by simp [hu]
  | submitInit hsm _ _ _ _ h =>
      obtain ⟨⟨d₁, r⟩, hinit, h⟩ := Outcome.bind_eq_ok h
      obtain ⟨hr, gemRef, rfl⟩ | ⟨rfl, gemRef, s, -, rfl⟩ := limaSchedTaskInit_cases hinit
      · obtain ⟨e, rfl⟩ := Option.isSome_iff_exists.mp hr
        obtain rfl := Outcome.ok.inj h
        exact UserMove.frame_submit hw hsm rfl rfl rfl rfl rfl rfl
          fun u hu => by simp [hu]
      · obtain rfl := Outcome.ok.inj h
        refine UserMove.task_of hw (by simp [hsm]) rfl rfl rfl rfl rfl rfl (fun _ _ => rfl)
          (.inr (.inl rfl)) fun hx => ?_
        exact ⟨hx.fence, hx.finished, hx.finishedError, hx.hwDone, hx.undispatched⟩
  | submitDepsFail hsm _ _ h =>
      obtain ⟨d₁, hfini, h⟩ := Outcome.bind_eq_ok h
      obtain ⟨s, gemRef, -, rfl⟩ := limaSchedTaskFini_cases hfini
      obtain rfl := Outcome.ok.inj h
      refine UserMove.task_of hw (by simp [hsm]) rfl rfl rfl rfl rfl rfl (fun u hu => ?_)
        (.inl rfl) fun hx => ?_
      · simp [hu]
      · exact ⟨hx.fence, hx.finished, hx.finishedError, hx.hwDone, hx.undispatched⟩
  | submitQueue hsm _ _ =>
      rw [submitQueue, gemPuts_eq]
      refine UserMove.task_of hw (by simp [hsm]) rfl rfl rfl rfl rfl rfl (fun u hu => ?_)
        (.inr (.inr ⟨?_, .inl rfl⟩)) fun hx => ?_
      · simp [hu, limaSchedContextQueueTask, modTask]
      · simp
      · exact ⟨hx.fence, hx.finished, hx.finishedError, hx.hwDone, hx.undispatched⟩
  | submitUndo hsm _ _ _ h =>
      obtain ⟨d₁, hundo, h⟩ := Outcome.bind_eq_ok h
      obtain ⟨r, -, hd₁⟩ := Outcome.bind_eq_ok hundo
      obtain rfl := Outcome.ok.inj hd₁
      obtain rfl := Outcome.ok.inj h
      exact UserMove.frame_submit hw hsm rfl rfl rfl rfl rfl rfl
        fun u hu => by simp [hu, gemPut, setSys]
  | submitEnd hsm _ _ h =>
      obtain ⟨d₁, hfree, h⟩ := Outcome.bind_eq_ok h
      obtain ⟨-, rfl⟩ := kmemCacheFree_cases hfree
      obtain rfl := Outcome.ok.inj h
      refine UserMove.task_of hw (by simp [hsm]) rfl rfl rfl rfl rfl rfl (fun u hu => ?_)
        (.inr (.inr ⟨?_, .inr rfl⟩)) fun hx => ?_
      · simp [hu, modTask]
      · simp
      · exact ⟨hx.fence, hx.finished, hx.finishedError, hx.hwDone, hx.undispatched⟩

end Dev

end Lima
