import Lima.Sched.Objects
import Lima.Sched.MmuSet

/-!
# The references to objects balance

An object is used by the handles to it, by the lookups of the submits under way, and by the
tasks it has been handed to, from `lima_sched_task_init` to `lima_sched_task_fini`. Its GEM
reference count never falls below the number of these users, and exceeds it only where
`drm_sched_job_init` has failed: that failure keeps the references it has just taken. So an
object that nobody references is mapped nowhere.
-/

namespace Lima

open RefCount

/-! ## Users -/

namespace Dev

variable (d : Dev)

/-- The handles of file `f` to `b`. -/
def handleRefs (b : BoId) (f : FileId) : ℕ :=
  (d.file f).elim 0 fun file => (file.handles.map Prod.snd).count b

/-- The lookups of `b` that the submit of `t` holds, and the task's own references. -/
def taskRefs (b : BoId) (t : TaskId) : ℕ :=
  ((d.submit t).elim 0 fun sm => sm.lbos.count b) +
    if (d.task t).state.holding then (d.task t).bos.count b else 0

/-- The users of `b`, `files` being the files there are. -/
def gemUsers (files : Finset FileId) (b : BoId) : ℕ :=
  ∑ f ∈ files, d.handleRefs b f + ∑ t ∈ Finset.range d.numTasks, d.taskRefs b t

/-- A `lima_sched_task_init` that has taken its references and fails. -/
def keepsObjects : DevEvent → Bool
  | .submitInit _ _ kmemdupOk jobInit => kmemdupOk && jobInit.isSome
  | _ => false

end Dev

/-- The count of each object is the number of its users and `kept` references of nobody. -/
structure GemBalance (files : Finset FileId) (kept : BoId → ℕ) (d : Dev) : Prop where
  mem : ∀ f, f ∈ files ↔ (d.file f).isSome = true
  refs : ∀ b, d.gemRef b = d.gemUsers files b + kept b

/-! ## What the calls do to the counts -/

namespace Dev

variable {d d' : Dev}

theorem gemGet_gemRef (d : Dev) (b c : BoId) :
    (d.gemGet b).gemRef c = d.gemRef c + [b].count c := by
  rw [gemGet, List.count_singleton]
  by_cases hc : c = b
  · subst hc
    simp
  · simp [hc, Ne.symm hc]

theorem gemPut_gemRef (d : Dev) (b c : BoId) :
    (d.gemPut b).gemRef c = d.gemRef c - [b].count c := by
  rw [gemPut, List.count_singleton]
  by_cases hc : c = b
  · subst hc
    simp
  · simp [hc, Ne.symm hc]

/-- The next handle of a submit takes one reference, or none. -/
theorem submitAdd_gemRef {f : FileId} {v : VmId} {n : ℕ} {r : Except Errno BoId}
    (h : d.submitAdd f v n = .ok (d', r)) (c : BoId) :
    (∀ e, r = .error e → d'.gemRef c = d.gemRef c) ∧
      ∀ b, r = .ok b → d'.gemRef c = d.gemRef c + [b].count c := by
  unfold Dev.submitAdd at h
  cases hlook : d.gemLookup f n with
  | none =>
      rw [hlook] at h
      obtain ⟨rfl, rfl⟩ := Prod.mk.inj (Outcome.ok.inj h)
      exact ⟨fun _ _ => rfl, by simp⟩
  | some x =>
      obtain ⟨d₁, b⟩ := x
      rw [hlook] at h
      obtain ⟨⟨s, e⟩, -, hres⟩ := Outcome.bind_eq_ok h
      obtain rfl : d₁ = d.gemGet b := by
        unfold gemLookup at hlook
        obtain ⟨b', -, hb'⟩ := Option.map_eq_some_iff.mp hlook
        obtain ⟨rfl, rfl⟩ := Prod.mk.inj hb'
        rfl
      cases e with
      | none =>
          obtain ⟨rfl, rfl⟩ := Prod.mk.inj (Outcome.ok.inj hres)
          refine ⟨by simp, fun b' hb' => ?_⟩
          obtain rfl := Except.ok.inj hb'
          exact gemGet_gemRef d b c
      | some e =>
          obtain ⟨rfl, rfl⟩ := Prod.mk.inj (Outcome.ok.inj hres)
          refine ⟨fun _ _ => ?_, by simp⟩
          rw [gemPut_gemRef]
          have hget : ((d.gemGet b).setSys s).gemRef c = d.gemRef c + [b].count c :=
            gemGet_gemRef d b c
          rw [hget, Nat.add_sub_cancel]

/-- `lima_sched_task_init` takes a reference for each object once its copy of the list is
made, whether it fails later or not. -/
theorem limaSchedTaskInit_gemRef {kmemdupOk : Bool} {jobInit : Option Errno} {t : TaskId}
    {c : CtxId} {bos : List BoId} {v : VmId} {r : Option Errno}
    (h : d.limaSchedTaskInit kmemdupOk jobInit t c bos v = .ok (d', r)) :
    (r = none → kmemdupOk = true) ∧
      (r.isSome = true → kmemdupOk = true → jobInit.isSome = true) ∧
      ∀ b, d'.gemRef b = d.gemRef b + if kmemdupOk then bos.count b else 0 := by
  unfold limaSchedTaskInit at h
  split at h
  · rename_i hno
    obtain ⟨rfl, rfl⟩ := Prod.mk.inj (Outcome.ok.inj h)
    have hfalse : kmemdupOk = false := by simpa using hno
    exact ⟨by simp, by simp [hfalse], fun b => by simp [hfalse]⟩
  · rename_i hyes
    have htrue : kmemdupOk = true := by simpa using hyes
    simp only [gemGets_eq] at h
    cases jobInit with
    | some e =>
        obtain ⟨rfl, rfl⟩ := Prod.mk.inj (Outcome.ok.inj h)
        exact ⟨by simp, by simp, fun b => by simp [htrue]⟩
    | none =>
        obtain ⟨d₁, hget, h⟩ := Outcome.bind_eq_ok h
        obtain ⟨w, s, -, -, rfl⟩ := vmGet_cases hget
        obtain ⟨rfl, rfl⟩ := Prod.mk.inj (Outcome.ok.inj h)
        exact ⟨fun _ => htrue, by simp, fun b => by simp [htrue, modTask, setSys]⟩

theorem limaSchedTaskFini_gemRef {t : TaskId} (h : d.limaSchedTaskFini t = .ok d') (b : BoId) :
    d'.gemRef b = d.gemRef b - (d.task t).bos.count b := by
  obtain ⟨d₁, hput, hd⟩ := Outcome.bind_eq_ok h
  obtain rfl := Outcome.ok.inj hd
  rw [gemPuts_eq] at hput
  obtain ⟨s, -, rfl⟩ := vmPut_cases hput
  rfl

theorem limaSchedFreeJob_gemRef {fuel : ℕ} {t : TaskId}
    (h : limaSchedFreeJob fuel d t = .ok d') (b : BoId) :
    d'.gemRef b = d.gemRef b - (d.task t).bos.count b := by
  obtain ⟨x, hx, hloop⟩ := Outcome.bind_eq_ok h
  obtain ⟨-, rfl⟩ := readTask_cases hx
  obtain ⟨d₁, hdel, hrest⟩ := Outcome.bind_eq_ok hloop
  obtain ⟨d₂, hfini, hfree⟩ := Outcome.bind_eq_ok hrest
  obtain ⟨s, rfl⟩ := delBos_sys hdel
  obtain ⟨fence, hfence⟩ := d.fencePut_fence (d.task t).fence
  have hgem := limaSchedTaskFini_gemRef hfini b
  obtain ⟨-, rfl⟩ := kmemCacheFree_cases hfree
  rw [hfence] at hgem
  exact hgem

end Dev

namespace Dev.TasksWf

variable {d : Dev}

/-- A pushed task has no submit any more. -/
theorem submit_of_pushed (h : d.TasksWf) {t : TaskId} (hp : (d.task t).state.pushed = true) :
    d.submit t = none := by
  refine Option.eq_none_iff_forall_ne_some.mpr fun sm hsm => ?_
  rcases h.submit t sm hsm with hst | hst <;> rw [hst] at hp <;> cases hp

theorem lt_of_pushed (h : d.TasksWf) {t : TaskId} (hp : (d.task t).state.pushed = true) :
    t < d.numTasks := by
  by_contra hlt
  rw [(h.fresh t (not_lt.mp hlt)).1] at hp
  cases hp

end Dev.TasksWf

namespace GemBalance

open Dev

variable {d d' : Dev} {files : Finset FileId} {kept : BoId → ℕ}

theorem boot (s : Sys) : GemBalance ∅ (fun _ => 0) (.boot s) where
  mem _ := ⟨fun h => absurd h (Finset.notMem_empty _), by simp [Dev.boot]⟩
  refs _ := by simp [gemUsers, Dev.boot]

/-! ## Kinds of steps -/

/-- A step of one task and its submit. -/
theorem task (h : GemBalance files kept d) {kept' : BoId → ℕ} {t : TaskId}
    (ht : t < d.numTasks) (hfile : d'.file = d.file) (hnt : d'.numTasks = d.numTasks)
    (hother : ∀ u, u ≠ t → d'.task u = d.task u ∧ d'.submit u = d.submit u)
    (hrefs : ∀ b, d'.gemRef b + d.taskRefs b t + kept b =
      d.gemRef b + d'.taskRefs b t + kept' b) : GemBalance files kept' d' where
  mem f := by
    rw [hfile]
    exact h.mem f
  refs b := by
    have hsum : ∑ u ∈ Finset.range d.numTasks, d'.taskRefs b u + d.taskRefs b t =
        ∑ u ∈ Finset.range d.numTasks, d.taskRefs b u + d'.taskRefs b t :=
      sum_change (Finset.mem_range.mpr ht) fun u hu => by
        rw [taskRefs, taskRefs, (hother u hu).1, (hother u hu).2]
    have hhandles : d'.handleRefs b = d.handleRefs b := by
      funext f
      rw [handleRefs, handleRefs, hfile]
    have hold := h.refs b
    have hnew := hrefs b
    unfold gemUsers at *
    rw [hhandles, hnt]
    omega

/-- A step of one file. -/
theorem file (h : GemBalance files kept d) {f : FileId} {x x' : DrmFile}
    (hx : d.file f = some x) (hx' : d'.file = Function.update d.file f (some x'))
    (hnt : d'.numTasks = d.numTasks) (htask : d'.task = d.task) (hsub : d'.submit = d.submit)
    (hrefs : ∀ b, d'.gemRef b + (x.handles.map Prod.snd).count b =
      d.gemRef b + (x'.handles.map Prod.snd).count b) : GemBalance files kept d' where
  mem g := by
    rw [hx']
    by_cases hg : g = f
    · subst hg
      rw [h.mem, hx, Function.update_self]
      rfl
    · rw [Function.update_of_ne hg]
      exact h.mem g
  refs b := by
    have hmem : f ∈ files := (h.mem f).mpr (by rw [hx]; rfl)
    have hself : d.handleRefs b f = (x.handles.map Prod.snd).count b ∧
        d'.handleRefs b f = (x'.handles.map Prod.snd).count b := by
      simp [handleRefs, hx, hx']
    have hsum : ∑ g ∈ files, d'.handleRefs b g + d.handleRefs b f =
        ∑ g ∈ files, d.handleRefs b g + d'.handleRefs b f :=
      sum_change hmem fun g hg => by
        rw [handleRefs, handleRefs, hx', Function.update_of_ne hg]
    have htasks : d'.taskRefs b = d.taskRefs b := by
      funext t
      rw [taskRefs, taskRefs, htask, hsub]
    have hold := h.refs b
    have hnew := hrefs b
    rw [hself.1, hself.2] at hsum
    unfold gemUsers at *
    rw [htasks, hnt]
    omega

/-- A step that changes no user and no count. -/
theorem keeps (h : GemBalance files kept d) (k : d.KeepsRefs d') (hgem : d'.gemRef = d.gemRef) :
    GemBalance files kept d' where
  mem f := by
    rw [k.file]
    exact h.mem f
  refs b := by
    have htasks : d'.taskRefs b = d.taskRefs b := by
      funext t
      obtain ⟨hst, -, hbos⟩ := k.task t
      unfold taskRefs
      rw [k.submit, hbos]
      rcases hst with hst | ⟨hp, hp'⟩
      · rw [hst]
      · simp [TaskState.holding, hp, hp']
    have hhandles : d'.handleRefs b = d.handleRefs b := by
      funext f
      rw [handleRefs, handleRefs, k.file]
    unfold gemUsers
    rw [hgem, htasks, hhandles, k.numTasks]
    exact h.refs b

/-- What a holder has is counted. -/
theorem taskRefs_le (h : GemBalance files kept d) {t : TaskId} (ht : t < d.numTasks)
    (b : BoId) : d.taskRefs b t ≤ d.gemRef b := by
  have hle : d.taskRefs b t ≤ ∑ u ∈ Finset.range d.numTasks, d.taskRefs b u :=
    Finset.single_le_sum (fun _ _ => Nat.zero_le _) (Finset.mem_range.mpr ht)
  rw [h.refs b, gemUsers]
  omega

theorem handleRefs_le (h : GemBalance files kept d) {f : FileId} {x : DrmFile}
    (hx : d.file f = some x) (b : BoId) :
    (x.handles.map Prod.snd).count b ≤ d.gemRef b := by
  have hmem : f ∈ files := (h.mem f).mpr (by rw [hx]; rfl)
  have hle : d.handleRefs b f ≤ ∑ g ∈ files, d.handleRefs b g :=
    Finset.single_le_sum (fun _ _ => Nat.zero_le _) hmem
  have hself : d.handleRefs b f = (x.handles.map Prod.snd).count b := by simp [handleRefs, hx]
  rw [h.refs b, gemUsers]
  omega

/-! ## The steps of a user -/

theorem fileOpen (h : GemBalance files kept d) {cfg : VmConfig} {f : FileId} {kz : Bool}
    {pd : Option ℕ} {dma : ℕ → Option ℕ} (hf : d.file f = none) :
    ∃ files', GemBalance files' kept (d.limaDrmDriverOpen cfg f kz pd dma) := by
  unfold limaDrmDriverOpen
  split
  · exact ⟨files, h.keeps ⟨rfl, rfl, rfl, fun _ => ⟨.inl rfl, rfl, rfl⟩⟩ rfl⟩
  · rename_i s v hcreate
    have hnot : f ∉ files := fun hmem => by
      have hsome := (h.mem f).mp hmem
      rw [hf] at hsome
      cases hsome
    refine ⟨insert f files, fun g => ?_, fun b => ?_⟩
    · by_cases hg : g = f
      · subst hg
        simp
      · simp [hg, h.mem g]
    · have hsame : ∀ g ∈ files, { d.setSys s with
          file := Function.update d.file f (some ⟨v, true, [], [], []⟩) }.handleRefs b g =
            d.handleRefs b g := by
        intro g hg
        have hne : g ≠ f := by
          rintro rfl
          exact hnot hg
        simp [handleRefs, hne]
      rw [gemUsers, Finset.sum_insert hnot, Finset.sum_congr rfl hsame]
      have hnew : { d.setSys s with
          file := Function.update d.file f (some ⟨v, true, [], [], []⟩) }.handleRefs b f = 0 := by
        simp [handleRefs]
      rw [hnew, zero_add]
      exact h.refs b

theorem fileClose (h : GemBalance files kept d) {f : FileId} {file : DrmFile}
    (hf : d.file f = some file) (hd : d.limaDrmDriverPostclose f file = .ok d') :
    GemBalance files kept d' := by
  obtain ⟨d₁, hput, hd⟩ := Outcome.bind_eq_ok hd
  obtain ⟨s, -, rfl⟩ := vmPut_cases hput
  obtain rfl := Outcome.ok.inj hd
  exact h.file hf rfl rfl rfl rfl fun _ => rfl

theorem handleOpen (h : GemBalance files kept d) {f : FileId} {file : DrmFile} {n : ℕ} {b : BoId}
    {env : BoAddEnv} {fuel : ℕ} (hf : d.file f = some file)
    (hd : d.limaGemObjectOpen f file n b env fuel = .ok d') : GemBalance files kept d' := by
  obtain ⟨⟨s, r⟩, -, hd⟩ := Outcome.bind_eq_ok hd
  cases r with
  | some e =>
      obtain rfl := Outcome.ok.inj hd
      exact h.keeps ⟨rfl, rfl, rfl, fun _ => ⟨.inl rfl, rfl, rfl⟩⟩ rfl
  | none =>
      obtain rfl := Outcome.ok.inj hd
      refine h.file hf rfl rfl rfl rfl fun c => ?_
      have hget : ((d.setSys s).gemGet b).gemRef c = d.gemRef c + [b].count c :=
        gemGet_gemRef (d.setSys s) b c
      have hcount : (((n, b) :: file.handles).map Prod.snd).count c =
          [b].count c + (file.handles.map Prod.snd).count c := by
        rw [List.map_cons, ← List.singleton_append, List.count_append]
      change ((d.setSys s).gemGet b).gemRef c + _ =
        d.gemRef c + (((n, b) :: file.handles).map Prod.snd).count c
      rw [hget, hcount, Nat.add_assoc]

theorem handleClose (h : GemBalance files kept d) {f : FileId} {file : DrmFile} {n : ℕ} {b : BoId}
    {fuel : ℕ} (hf : d.file f = some file) (hmem : (n, b) ∈ file.handles)
    (hd : d.limaGemObjectClose f file n b fuel = .ok d') : GemBalance files kept d' := by
  obtain ⟨⟨s, touched⟩, -, hd⟩ := Outcome.bind_eq_ok hd
  obtain rfl := Outcome.ok.inj hd
  refine h.file hf rfl rfl rfl rfl fun c => ?_
  have hput : ((d.setSys s).gemPut b).gemRef c = d.gemRef c - [b].count c :=
    gemPut_gemRef (d.setSys s) b c
  have hcount : (file.handles.map Prod.snd).count c =
      [b].count c + ((file.handles.erase (n, b)).map Prod.snd).count c := by
    rw [((List.perm_cons_erase hmem).map Prod.snd).count_eq c, List.map_cons,
      ← List.singleton_append, List.count_append]
  have hle := h.handleRefs_le hf c
  change ((d.setSys s).gemPut b).gemRef c + _ =
    d.gemRef c + ((file.handles.erase (n, b)).map Prod.snd).count c
  rw [hput]
  omega

theorem submitBegin (h : GemBalance files kept d) (f : FileId) (p : PipeId)
    (frame : Frame) (handles : List ℕ) : GemBalance files kept (d.submitBegin f p frame handles) where
  mem g := h.mem g
  refs b := by
    have hold : ∀ u ∈ Finset.range d.numTasks,
        (d.submitBegin f p frame handles).taskRefs b u = d.taskRefs b u := by
      intro u hu
      have hne : u ≠ d.numTasks := (Finset.mem_range.mp hu).ne
      simp [taskRefs, Dev.submitBegin, setSubmit, setFrame, zallocTask, modTask, hne]
    have hnew : (d.submitBegin f p frame handles).taskRefs b d.numTasks = 0 := by
      simp [taskRefs, Dev.submitBegin, setSubmit, setFrame, zallocTask, modTask, Task.zeroed,
        TaskState.holding, TaskState.pushed]
    have hnt : (d.submitBegin f p frame handles).numTasks = d.numTasks + 1 := rfl
    rw [gemUsers, hnt, Finset.sum_range_succ, hnew, Finset.sum_congr rfl hold]
    exact h.refs b

/-- A step that changes a submit under way, but not its task. -/
theorem submit (h : GemBalance files kept d) {kept' : BoId → ℕ} (hw : d.TasksWf) {t : TaskId}
    {sm sm' : Submit} (hsm : d.submit t = some sm) {s : Sys} {gemRef : BoId → ℕ}
    (hd' : d' = setSubmit { d with
      sys := s
      gemRef := gemRef } t (some sm'))
    (hrefs : ∀ b, gemRef b + sm.lbos.count b + kept b = d.gemRef b + sm'.lbos.count b + kept' b) :
    GemBalance files kept' d' := by
  refine h.task (VmBalance.lt_of_submit hw hsm) (by rw [hd']; rfl) (by rw [hd']; rfl)
    (fun u hu => ?_) fun b => ?_
  · rw [hd']
    simp [setSubmit, hu]
  · have hbefore : d.taskRefs b t = sm.lbos.count b +
        if (d.task t).state.holding then (d.task t).bos.count b else 0 := by
      rw [taskRefs, hsm]
      rfl
    have hafter : d'.taskRefs b t = sm'.lbos.count b +
        if (d.task t).state.holding then (d.task t).bos.count b else 0 := by
      rw [hd', taskRefs, setSubmit_submit, if_pos rfl]
      rfl
    have hgem : d'.gemRef b = gemRef b := by
      rw [hd']
      rfl
    have hnew := hrefs b
    rw [hbefore, hafter, hgem]
    omega

theorem submitNext (h : GemBalance files kept d) (hw : d.TasksWf) {t : TaskId} {sm : Submit}
    {v : VmId} {n : ℕ} {ns : List ℕ} (hsm : d.submit t = some sm)
    (hd : d.submitNext t sm v n ns = .ok d') : GemBalance files kept d' := by
  obtain ⟨⟨d₁, r⟩, hadd, hd⟩ := Outcome.bind_eq_ok hd
  have hgem := submitAdd_gemRef hadd
  obtain ⟨s, gemRef, rfl⟩ := submitAdd_frame hadd
  cases r with
  | error e =>
      obtain rfl := Outcome.ok.inj hd
      refine h.submit hw hsm rfl fun b => ?_
      have hsame : gemRef b = d.gemRef b := (hgem b).1 e rfl
      rw [hsame]
  | ok c =>
      obtain rfl := Outcome.ok.inj hd
      refine h.submit hw hsm rfl fun b => ?_
      have hone : gemRef b = d.gemRef b + [c].count b := (hgem b).2 c rfl
      rw [hone, List.count_append]
      omega

/-- A `lima_sched_task_init` that fails in `drm_sched_job_init` keeps its references. -/
theorem submitInit (h : GemBalance files kept d) (hw : d.TasksWf) {t : TaskId} {sm : Submit}
    {v : VmId} {c : CtxId} {kmemdupOk : Bool} {jobInit : Option Errno}
    (hsm : d.submit t = some sm) (hst : (d.task t).state = .allocated)
    (hd : d.submitInit t sm v c kmemdupOk jobInit = .ok d') :
    ∃ kept', GemBalance files kept' d' ∧
      (keepsObjects (.submitInit t c kmemdupOk jobInit) = false → kept' = kept) := by
  obtain ⟨⟨d₁, r⟩, hinit, hd⟩ := Outcome.bind_eq_ok hd
  obtain ⟨hyes, hleak, hgem⟩ := limaSchedTaskInit_gemRef hinit
  obtain ⟨hr, gemRef, rfl⟩ | ⟨rfl, gemRef, s, -, rfl⟩ := limaSchedTaskInit_cases hinit
  · obtain ⟨e, rfl⟩ := Option.isSome_iff_exists.mp hr
    obtain rfl := Outcome.ok.inj hd
    refine ⟨fun b => kept b + if kmemdupOk then sm.lbos.count b else 0,
      h.submit hw hsm rfl fun b => ?_, fun hno => ?_⟩
    · have htaken : gemRef b = d.gemRef b + if kmemdupOk then sm.lbos.count b else 0 := hgem b
      change _ = d.gemRef b + sm.lbos.count b + _
      rw [htaken]
      omega
    · funext b
      have hfalse : kmemdupOk ≠ true := fun hk => by simp [keepsObjects, hk, hleak rfl hk] at hno
      rw [if_neg hfalse, Nat.add_zero]
  · obtain rfl := Outcome.ok.inj hd
    refine ⟨kept, h.task (VmBalance.lt_of_submit hw hsm) rfl rfl (fun u hu => ?_) fun b => ?_,
      fun _ => rfl⟩
    · simp [hu]
    · have htaken : gemRef b = d.gemRef b + if kmemdupOk then sm.lbos.count b else 0 := hgem b
      rw [if_pos (hyes rfl)] at htaken
      simp only [taskRefs, hsm, hst, Function.update_self, htaken]
      simp [Task.init, TaskState.holding, TaskState.pushed]
      omega

theorem submitDepsFail (h : GemBalance files kept d) (hw : d.TasksWf) {t : TaskId} {sm : Submit}
    (hsm : d.submit t = some sm) (hst : (d.task t).state = .inited)
    (hd : d.submitDepsFail t sm = .ok d') : GemBalance files kept d' := by
  obtain ⟨d₁, hfini, hd⟩ := Outcome.bind_eq_ok hd
  have hgem := limaSchedTaskFini_gemRef hfini
  obtain ⟨s, gemRef, -, rfl⟩ := limaSchedTaskFini_cases hfini
  have hd' := (Outcome.ok.inj hd).symm
  have hlt := VmBalance.lt_of_submit hw hsm
  refine h.task hlt (by rw [hd']; rfl) (by rw [hd']; rfl) (fun u hu => ?_) fun b => ?_
  · rw [hd']
    simp [setSubmit, hu]
  · have hput : d'.gemRef b = d.gemRef b - (d.task t).bos.count b := by
      rw [hd']
      exact hgem b
    have hbefore : d.taskRefs b t = sm.lbos.count b + (d.task t).bos.count b := by
      simp [taskRefs, hsm, hst, TaskState.holding]
    have hafter : d'.taskRefs b t = sm.lbos.count b := by
      simp [taskRefs, hd', setSubmit, TaskState.holding, TaskState.pushed]
    have hle := h.taskRefs_le hlt b
    omega

theorem submitQueue (h : GemBalance files kept d) (hw : d.TasksWf) {t : TaskId} {sm : Submit}
    (hsm : d.submit t = some sm) (hst : (d.task t).state = .inited) :
    GemBalance files kept (d.submitQueue t sm) := by
  obtain ⟨d', hd'⟩ : ∃ d', d' = d.submitQueue t sm := ⟨_, rfl⟩
  rw [← hd']
  rw [Dev.submitQueue, gemPuts_eq] at hd'
  have hlt := VmBalance.lt_of_submit hw hsm
  refine h.task hlt (by rw [hd']; rfl) (by rw [hd']; rfl) (fun u hu => ?_) fun b => ?_
  · rw [hd']
    simp [setSubmit, limaSchedContextQueueTask, modTask, hu]
  · have hput : d'.gemRef b = d.gemRef b - sm.lbos.count b := by
      rw [hd']
      rfl
    have hbefore : d.taskRefs b t = sm.lbos.count b + (d.task t).bos.count b := by
      simp [taskRefs, hsm, hst, TaskState.holding]
    have hafter : d'.taskRefs b t = (d.task t).bos.count b := by
      simp [taskRefs, hd', setSubmit, limaSchedContextQueueTask, TaskState.holding,
        TaskState.pushed]
    have hle := h.taskRefs_le hlt b
    omega

theorem submitUndoNext (h : GemBalance files kept d) (hw : d.TasksWf) {t : TaskId} {sm : Submit}
    {v : VmId} {b : BoId} {bs : List BoId} {fuel : ℕ} (hsm : d.submit t = some sm)
    (hbs : sm.lbos = b :: bs) (hd : d.submitUndoNext t sm v b bs fuel = .ok d') :
    GemBalance files kept d' := by
  obtain ⟨d₁, hundo, hd⟩ := Outcome.bind_eq_ok hd
  obtain ⟨⟨s, touched⟩, -, hundo⟩ := Outcome.bind_eq_ok hundo
  obtain rfl := Outcome.ok.inj hundo
  obtain rfl := Outcome.ok.inj hd
  have hlt := VmBalance.lt_of_submit hw hsm
  refine h.submit hw hsm rfl fun c => ?_
  have hput : ((d.setSys s).gemPut b).gemRef c = d.gemRef c - [b].count c :=
    gemPut_gemRef (d.setSys s) b c
  have hcount : sm.lbos.count c = [b].count c + bs.count c := by
    rw [hbs, ← List.singleton_append, List.count_append]
  have hle : sm.lbos.count c ≤ d.gemRef c := by
    refine le_trans ?_ (h.taskRefs_le hlt c)
    simp [taskRefs, hsm]
  change ((d.setSys s).gemPut b).gemRef c + _ + _ = d.gemRef c + bs.count c + _
  rw [hput]
  omega

theorem submitEnd (h : GemBalance files kept d) (hw : d.TasksWf) (hb : VmBalance d) {t : TaskId}
    {sm : Submit} (hsm : d.submit t = some sm) (hfail : sm.failed = true) (hlbos : sm.lbos = [])
    (hd : d.submitEnd t = .ok d') : GemBalance files kept d' := by
  have hst : (d.task t).state = .allocated := by
    refine (hw.submit t sm hsm).resolve_right fun hi => ?_
    obtain ⟨_, -, -, hinit⟩ := hb.submit t sm hsm
    rw [(hinit hi).1] at hfail
    cases hfail
  obtain ⟨d₁, hfree, hd⟩ := Outcome.bind_eq_ok hd
  obtain ⟨-, rfl⟩ := kmemCacheFree_cases hfree
  obtain rfl := Outcome.ok.inj hd
  refine h.task (VmBalance.lt_of_submit hw hsm) rfl rfl (fun u hu => ?_) fun b => ?_
  · simp [setSubmit, modTask, hu]
  · have hbefore : d.taskRefs b t = 0 := by
      simp [taskRefs, hsm, hlbos, hst, TaskState.holding, TaskState.pushed]
    rw [hbefore]
    simp [taskRefs, setSubmit, modTask, TaskState.holding, TaskState.pushed]

/-- The steps of files, handles and submits, each with its references. -/
theorem user (h : GemBalance files kept d) (hw : d.TasksWf) (hb : VmBalance d)
    {cfg : DevConfig} {e : DevEvent} (hd : userStep cfg d e = some d') :
    ∃ files' kept', GemBalance files' kept' d' ∧ (keepsObjects e = false → kept' = kept) := by
  cases userStep_call hd with
  | fileOpen hf =>
      obtain ⟨files', h'⟩ := h.fileOpen hf
      exact ⟨files', kept, h', fun _ => rfl⟩
  | fileClose hf _ _ _ hd => exact ⟨files, kept, h.fileClose hf hd, fun _ => rfl⟩
  | handleOpen hf _ _ hd => exact ⟨files, kept, h.handleOpen hf hd, fun _ => rfl⟩
  | handleClose hf hmem hd => exact ⟨files, kept, h.handleClose hf hmem hd, fun _ => rfl⟩
  | submitBegin _ _ _ _ => exact ⟨files, kept, h.submitBegin .., fun _ => rfl⟩
  | submitAdd hsm _ _ _ hd => exact ⟨files, kept, h.submitNext hw hsm hd, fun _ => rfl⟩
  | submitLockFail hsm _ _ _ =>
      exact ⟨files, kept, h.submit hw hsm (s := d.sys) rfl fun _ => rfl, fun _ => rfl⟩
  | submitInit hsm _ _ _ hst hd =>
      obtain ⟨kept', h', hkept⟩ := h.submitInit hw hsm hst hd
      exact ⟨files, kept', h', hkept⟩
  | submitDepsFail hsm _ hst hd =>
      exact ⟨files, kept, h.submitDepsFail hw hsm hst hd, fun _ => rfl⟩
  | submitQueue hsm _ hst => exact ⟨files, kept, h.submitQueue hw hsm hst, fun _ => rfl⟩
  | submitUndo hsm _ hbs _ hd => exact ⟨files, kept, h.submitUndoNext hw hsm hbs hd, fun _ => rfl⟩
  | submitEnd hsm hfail hlbos hd =>
      exact ⟨files, kept, h.submitEnd hw hb hsm hfail hlbos hd, fun _ => rfl⟩

/-! ## Runs -/

theorem freeJob (h : GemBalance files kept d) (hw : d.TasksWf) {t : TaskId} {fuel : ℕ}
    (hf : d.CanFree t) (hd : limaSchedFreeJob fuel d t = .ok d') : GemBalance files kept d' := by
  have hpushed : (d.task t).state.pushed = true := by
    rcases hf.1 with hst | hst <;> rw [hst] <;> rfl
  have hnosub : d.submit t = none := hw.submit_of_pushed hpushed
  have hlt : t < d.numTasks := hw.lt_of_pushed hpushed
  have hput := limaSchedFreeJob_gemRef hd
  obtain ⟨-, s₁, s, gemRef, -, -, hd'⟩ := limaSchedFreeJob_cases hd
  obtain ⟨fence, hfence⟩ := d.fencePut_fence (d.task t).fence
  rw [hfence] at hd'
  refine h.task hlt (by rw [hd']) (by rw [hd']) (fun u hu => ?_) fun b => ?_
  · rw [hd']
    simp [hu]
  · have hbefore : d.taskRefs b t = (d.task t).bos.count b := by
      simp [taskRefs, hnosub, TaskState.holding, hpushed]
    have hafter : d'.taskRefs b t = 0 := by
      simp [taskRefs, hd', hnosub, TaskState.holding, TaskState.pushed]
    have hle := h.taskRefs_le hlt b
    rw [hput, hafter]
    omega

/-- **Every step keeps the balance**, up to the references that a failed
`drm_sched_job_init` keeps. -/
theorem step (h : GemBalance files kept d) (hw : d.TasksWf) (hb : VmBalance d)
    {cfg : DevConfig} {e : DevEvent} (hd : devStep cfg d e = some d') :
    ∃ files' kept', GemBalance files' kept' d' ∧ (keepsObjects e = false → kept' = kept) := by
  rcases devStep_cases hd with hu | hs
  · exact h.user hw hb hu
  · obtain ⟨t, fuel, rfl, hf, hfree⟩ | hframe := schedStep_frame hs
    · exact ⟨files, kept, h.freeJob hw hf hfree, fun _ => rfl⟩
    · exact ⟨files, kept, h.keeps hframe.keeps hframe.gem, fun _ => rfl⟩

theorem of_reachable {cfg : DevConfig} (h : (devLts cfg).Reachable d) :
    ∃ files kept, GemBalance files kept d := by
  refine h.invariant (I := fun d => ∃ files kept, GemBalance files kept d) (fun d hd => ?_)
    fun d e d' hr hi hstep => ?_
  · obtain ⟨s, rfl, -⟩ := hd
    exact ⟨∅, _, boot s⟩
  · obtain ⟨files, kept, hi⟩ := hi
    obtain ⟨files', kept', h', -⟩ :=
      hi.step (SchedWf.of_reachable hr).tasks (VmBalance.of_reachable hr) hstep
    exact ⟨files', kept', h'⟩

/-- While `drm_sched_job_init` does not fail, nobody else holds a reference. -/
theorem of_via {cfg : DevConfig} (h : (devLts cfg).Via (fun _ e => keepsObjects e = false) d) :
    ∃ files, GemBalance files (fun _ => 0) d := by
  refine h.invariant (I := fun d => ∃ files, GemBalance files (fun _ => 0) d) (fun d hd => ?_)
    fun d e d' hr hi hok hstep => ?_
  · obtain ⟨s, rfl, -⟩ := hd
    exact ⟨∅, boot s⟩
  · obtain ⟨files, hi⟩ := hi
    have hreach := hr.reachable
    obtain ⟨files', kept', h', hkept⟩ :=
      hi.step (SchedWf.of_reachable hreach).tasks (VmBalance.of_reachable hreach) hstep
    rw [hkept hok] at h'
    exact ⟨files', h'⟩

end GemBalance

/-! ## Where objects are mapped -/

namespace VmBalance

open Dev

variable {d d' : Dev} {cfg : DevConfig} {e : DevEvent} {v : VmId} {b : BoId}

/-- A mapping that a user's step makes is one in the address space of a file. -/
theorem user_maps (hb : VmBalance d) (hd : userStep cfg d e = some d')
    (hpos : 0 < d'.sys.mapRefs v b) : 0 < d.sys.mapRefs v b ∨ d.Named v := by
  have hgains : ∀ {s : Sys} {f : FileId} {file : DrmFile} {c : BoId}, d.file f = some file →
      d.sys.Gains s file.vm [c] → 0 < s.mapRefs v b → 0 < d.sys.mapRefs v b ∨ d.Named v := by
    intro s f file c hf hg hs
    rw [hg.mapRefs] at hs
    by_cases hv : v = file.vm
    · exact .inr ⟨f, by rw [fileVm, hf, hv]; rfl⟩
    · rw [if_neg hv] at hs
      exact .inl hs
  have hloses : ∀ {s : Sys} {w : VmId} {c : BoId},
      d.sys.Recounts s w c (d.sys.mapRefs w c - 1) → 0 < s.mapRefs v b →
        0 < d.sys.mapRefs v b := by
    intro s w c hre hs
    rw [hre.mapRefs] at hs
    split at hs
    · rename_i hwc
      rw [hwc.1, hwc.2]
      omega
    · exact hs
  cases userStep_call hd with
  | fileOpen _ =>
      unfold limaDrmDriverOpen at hpos
      split at hpos
      · rename_i s hcreate
        obtain ⟨-, rfl⟩ | ⟨-, -, hr, -⟩ := limaVmCreate_cases hcreate
        · exact .inl hpos
        · cases hr
      · rename_i s w hcreate
        obtain ⟨hr, -⟩ | ⟨vm, -, -, rfl⟩ := limaVmCreate_cases hcreate
        · cases hr
        · exact .inl hpos
  | fileClose _ _ _ _ hd =>
      obtain ⟨d₁, hput, hd⟩ := Outcome.bind_eq_ok hd
      obtain ⟨s, hs, rfl⟩ := vmPut_cases hput
      obtain rfl := Outcome.ok.inj hd
      have hsame := (Sys.SameMaps.of_bo (limaVmPut_frame hs)).mapRefs v b
      exact .inl (hsame ▸ hpos)
  | handleOpen hf _ _ hd =>
      obtain ⟨⟨s, r⟩, hadd, hd⟩ := Outcome.bind_eq_ok hd
      obtain ⟨-, ⟨hr, hs, -⟩ | ⟨rfl, hg⟩⟩ := boAdd_cases hb.listed hadd
      · obtain ⟨err, rfl⟩ := Option.isSome_iff_exists.mp hr
        obtain rfl := Outcome.ok.inj hd
        exact .inl (hs.mapRefs v b ▸ hpos)
      · obtain rfl := Outcome.ok.inj hd
        exact hgains hf hg hpos
  | handleClose _ _ hd =>
      obtain ⟨⟨s, touched⟩, hdel, hd⟩ := Outcome.bind_eq_ok hd
      obtain rfl := Outcome.ok.inj hd
      exact .inl (hloses (limaVmBoDel_recounts hb.listed hdel).2 hpos)
  | submitBegin _ _ _ _ => exact .inl hpos
  | submitAdd _ hf _ _ hd =>
      obtain ⟨⟨d₁, r⟩, hadd, hd⟩ := Outcome.bind_eq_ok hd
      obtain ⟨s, gemRef, -, rfl, ⟨⟨err, rfl⟩, hs, -⟩ | ⟨c, rfl, hg⟩⟩ :=
        submitAdd_refs hb.listed hadd
      · obtain rfl := Outcome.ok.inj hd
        exact .inl (hs.mapRefs v b ▸ hpos)
      · obtain rfl := Outcome.ok.inj hd
        exact hgains hf hg hpos
  | submitLockFail _ _ _ _ => exact .inl hpos
  | submitInit _ _ _ _ _ hd =>
      obtain ⟨⟨d₁, r⟩, hinit, hd⟩ := Outcome.bind_eq_ok hd
      obtain ⟨hr, gemRef, rfl⟩ | ⟨rfl, gemRef, s, hget, rfl⟩ := limaSchedTaskInit_cases hinit
      · obtain ⟨err, rfl⟩ := Option.isSome_iff_exists.mp hr
        obtain rfl := Outcome.ok.inj hd
        exact .inl hpos
      · obtain rfl := Outcome.ok.inj hd
        have hsame := (Sys.SameMaps.of_bo (limaVmGet_frame hget)).mapRefs v b
        exact .inl (hsame ▸ hpos)
  | submitDepsFail _ _ _ hd =>
      obtain ⟨d₁, hfini, hd⟩ := Outcome.bind_eq_ok hd
      obtain ⟨s, gemRef, hput, rfl⟩ := limaSchedTaskFini_cases hfini
      obtain rfl := Outcome.ok.inj hd
      have hsame := (Sys.SameMaps.of_bo (limaVmPut_frame hput)).mapRefs v b
      exact .inl (hsame ▸ hpos)
  | submitQueue _ _ _ =>
      rw [Dev.submitQueue, gemPuts_eq] at hpos
      exact .inl hpos
  | submitUndo _ _ _ _ hd =>
      obtain ⟨d₁, hundo, hd⟩ := Outcome.bind_eq_ok hd
      obtain ⟨⟨s, touched⟩, hdel, hundo⟩ := Outcome.bind_eq_ok hundo
      obtain rfl := Outcome.ok.inj hundo
      obtain rfl := Outcome.ok.inj hd
      exact .inl (hloses (limaVmBoDel_recounts hb.listed hdel).2 hpos)
  | submitEnd _ _ _ hd =>
      obtain ⟨d₁, hfree, hd⟩ := Outcome.bind_eq_ok hd
      obtain ⟨-, rfl⟩ := kmemCacheFree_cases hfree
      obtain rfl := Outcome.ok.inj hd
      exact .inl hpos

/-- The scheduler makes no mapping. -/
theorem sched_maps (hb : VmBalance d) (hd : schedStep cfg d e = some d')
    (hpos : 0 < d'.sys.mapRefs v b) : 0 < d.sys.mapRefs v b := by
  obtain ⟨t, fuel, -, -, hfree⟩ | hframe := schedStep_frame hd
  · obtain ⟨-, s₁, s, gemRef, hdel, hput, rfl⟩ := limaSchedFreeJob_cases hfree
    obtain ⟨fence, hfence⟩ := d.fencePut_fence (d.task t).fence
    rw [hfence] at hdel
    have hgone : ∀ w c, s₁.mapRefs w c + (if (d.task t).vm = some w then
        (d.task t).bos.count c else 0) = d.sys.mapRefs w c :=
      (delBos_frees (d := { d with fence := fence }) hb.listed hdel).2.2.2
    have hsame := (Sys.SameMaps.of_bo (limaVmPut_frame hput)).mapRefs v b
    have hstored := hgone v b
    change 0 < s.mapRefs v b at hpos
    omega
  · have hsame : d.sys.SameMaps d'.sys := by
      cases hframe.sys with
      | same h => exact .of_bo ⟨by rw [h], by rw [h]⟩
      | puts hput => exact .of_bo (limaVmPut_frame hput)
      | switches _ _ hput hget =>
          exact (Sys.SameMaps.of_bo (limaVmPut_frame hput)).trans (.of_bo (limaVmGet_frame hget))
      | grows _ _ _ hgrow => exact (limaHeapAlloc_counts hgrow).sameMaps
    rw [← hsame.mapRefs v b]
    exact hpos

/-- Objects are mapped in the address spaces of files only. -/
theorem named_of_mapped (h : (devLts cfg).Reachable d) :
    ∀ v b, 0 < d.sys.mapRefs v b → d.Named v := by
  refine h.invariant (I := fun d => ∀ v b, 0 < d.sys.mapRefs v b → d.Named v) (fun d hd => ?_)
    fun d e d' hr hi hd v b hpos => ?_
  · obtain ⟨s, rfl, hva, -⟩ := hd
    intro v b hpos
    simp [Sys.mapRefs, Bo.refs, Dev.boot, hva, limaVmBoFind] at hpos
  · have hb := VmBalance.of_reachable hr
    have hnamed := (mmuStep (SchedWf.of_reachable hr) hb (mmuBooks_of_reachable hr) hd).named
    rcases devStep_cases hd with hu | hs
    · rcases hb.user_maps hu hpos with hold | hv
      · exact hnamed v (hi v b hold)
      · exact hnamed v hv
    · exact hnamed v (hi v b (hb.sched_maps hs hpos))

end VmBalance

/-! ## Main results -/

/-- **References to objects.** In every reachable state an object has at least the GEM
references of its users: the handles of all files, the lookups of the submits under way, and
the tasks from `lima_sched_task_init` to `lima_sched_task_fini`. It has no other while no
`drm_sched_job_init` has failed. -/
theorem gem_refs_balanced (cfg : DevConfig) {d : Dev} (h : (devLts cfg).Reachable d) :
    ∃ files : Finset FileId, (∀ f, f ∈ files ↔ (d.file f).isSome = true) ∧
      (∀ b, d.gemUsers files b ≤ d.gemRef b) ∧
      ((devLts cfg).Via (fun _ e => Dev.keepsObjects e = false) d →
        ∀ b, d.gemRef b = d.gemUsers files b) := by
  obtain ⟨files, kept, hbal⟩ := GemBalance.of_reachable h
  refine ⟨files, hbal.mem, fun b => ?_, fun hvia b => ?_⟩
  · rw [hbal.refs b]
    exact Nat.le_add_right _ _
  · obtain ⟨files', hexact⟩ := GemBalance.of_via hvia
    obtain rfl : files' = files := by
      ext f
      rw [hbal.mem, hexact.mem]
    exact hexact.refs b

/-- A job on the GP: the object is used by the handle and by the task. -/
theorem gem_refs_balanced_inFlight : ∃ (d : Dev) (files : Finset FileId),
    d.gemRef 0 = 2 ∧ d.gemUsers files 0 = 2 := by
  have hrun : ((Lts.exec
      (fun d e => if Dev.keepsObjects e then none else devStep mali400Dev d e)
      (.boot (.fresh onePageBo)) (openOne ++ submitOne 0 .gp gpFrame ++ [.runJob 0 allOk])).map
        fun d => d.gemRef 0) = some 2 := rfl
  obtain ⟨d, hd, htwo⟩ := Option.map_eq_some_iff.mp hrun
  have hvia : (devLts mali400Dev).Via (fun _ e => Dev.keepsObjects e = false) d := by
    refine Lts.Via.exec (fun d e d' hstep => ?_) (.init (onePage_init _)) hd
    split at hstep
    · cases hstep
    · rename_i hno
      exact ⟨by simpa using hno, hstep⟩
  obtain ⟨files, -, -, hexact⟩ := gem_refs_balanced mali400Dev hvia.reachable
  exact ⟨d, files, htwo, by rw [← hexact hvia 0, htwo]⟩

/-- A user of a mapping is a user of the object. -/
theorem GemBalance.referenced {files : Finset FileId} {kept : BoId → ℕ} {d : Dev}
    (h : GemBalance files kept d) (hw : d.TasksWf) {f : FileId} {file : DrmFile}
    (hf : d.file f = some file) {b : BoId} (hpos : 0 < d.mapUsers file b) : 0 < d.gemRef b := by
  unfold Dev.mapUsers at hpos
  rcases Nat.eq_zero_or_pos ((file.handles.map Prod.snd).count b) with hno | hhandle
  · rw [hno, zero_add] at hpos
    obtain ⟨t, ht, htask⟩ := Finset.sum_pos_iff.mp hpos
    have hlt := Finset.mem_range.mp ht
    refine lt_of_lt_of_le ?_ (h.taskRefs_le hlt b)
    unfold Dev.entries at htask
    unfold Dev.taskRefs
    cases hsm : d.submit t with
    | some sm =>
        rw [hsm] at htask
        simp only at htask
        split at htask
        · exact Nat.add_pos_left htask _
        · cases htask
    | none =>
        rw [hsm] at htask
        simp only at htask
        split at htask
        · rename_i hheld
          have hholding : (d.task t).state.holding = true := by
            rw [TaskState.holding, hheld.1]
            rfl
          rw [if_pos hholding]
          exact Nat.add_pos_right _ htask
        · cases htask
  · exact hhandle.trans_le (h.handleRefs_le hf b)

/-- **An object that nobody references is mapped nowhere**, so `lima_gem_free_object` finds
no `lima_bo_va` left, and no page table names a freed object. -/
theorem unreferenced_unmapped (cfg : DevConfig) {d : Dev} (h : (devLts cfg).Reachable d)
    {b : BoId} (hno : d.gemRef b = 0) : (d.sys.bo b).va = [] := by
  obtain ⟨files, kept, hbal⟩ := GemBalance.of_reachable h
  have hb := VmBalance.of_reachable h
  refine List.eq_nil_iff_forall_not_mem.mpr fun x hx => ?_
  have hpos : 0 < d.sys.mapRefs x.vm b := by
    rw [hb.listed.mapRefs_pos, limaVmBoFind_of_mem (hb.listed b).nodup hx]
    exact Option.some_ne_none x
  obtain ⟨f, hf⟩ := VmBalance.named_of_mapped h x.vm b hpos
  obtain ⟨file, hfile, hvm⟩ := Option.map_eq_some_iff.mp hf
  rw [← hvm, hb.maps f file hfile b] at hpos
  have href := hbal.referenced (SchedWf.of_reachable h).tasks hfile hpos
  omega

/-- The handle is closed and its job is reaped: the object is no longer mapped. -/
theorem unreferenced_unmapped_reaped : ∃ d : Dev, d.gemRef 0 = 0 ∧ d.vmReleased = [] ∧
    (d.sys.bo 0).va = [] := by
  have hrun : ((Lts.exec (devStep mali400Dev) (.boot (.fresh onePageBo))
      (openOne ++ submitOne 0 .gp gpFrame ++ [.runJob 0 allOk, .handleClose 0 1 0 4, gpEnd,
        .freeJob 0 4])).map fun d => (d.gemRef 0, d.vmReleased)) = some (0, []) := rfl
  obtain ⟨d, hd, hobs⟩ := Option.map_eq_some_iff.mp hrun
  obtain ⟨hzero, hrel⟩ := Prod.mk.inj hobs
  have hreach : (devLts mali400Dev).Reachable d :=
    Lts.Reachable.exec (fun _ _ _ h => h) (.init (onePage_init _)) hd
  exact ⟨d, hzero, hrel, unreferenced_unmapped mali400Dev hreach hzero⟩

end Lima
