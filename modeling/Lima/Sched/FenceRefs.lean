import Lima.Sched.Fault

/-!
# The driver's references on a job's fences

Each dispatch creates a fence and keeps one reference on it in `task->fence`, which
`lima_sched_free_job` drops. The slot holds one fence: a job dispatched a second time
overwrites it, and the reference on the first fence is never dropped.
-/

namespace Lima

open Dev

/-! ## The fences of a job -/

/-- The job each fence was created for. -/
def fenceJob (job : FenceId → Option TaskId) (d : Dev) : DevEvent → FenceId → Option TaskId
  | .runJob t _ => Function.update job d.numFences (some t)
  | .timedoutResubmit _ u _ _ => Function.update job d.numFences (some u)
  | _ => job

def fenceLts (cfg : DevConfig) : Lts (Dev × (FenceId → Option TaskId)) DevEvent :=
  (devLts cfg).record (fun _ => none) fenceJob

/-- Running job `u` again creates a fence for it. -/
def Resubmits (d : Dev) (u : TaskId) (cancel : Bool) (env : RunEnv) : Prop :=
  cancel = false ∧ (d.task u).finishedError = none ∧ env.fenceOk = true ∧ env.pmOk = true

instance (d : Dev) (u : TaskId) (cancel : Bool) (env : RunEnv) :
    Decidable (Resubmits d u cancel env) :=
  inferInstanceAs (Decidable (_ ∧ _ ∧ _ ∧ _))

/-- No job that has a fence is dispatched again. -/
def DispatchesOnce (x : Dev × (FenceId → Option TaskId)) : DevEvent → Prop
  | .timedoutResubmit _ u cancel env => Resubmits x.1 u cancel env → (x.1.task u).fence = none
  | _ => True

instance (x : Dev × (FenceId → Option TaskId)) :
    (e : DevEvent) → Decidable (DispatchesOnce x e)
  | .timedoutResubmit _ u cancel env =>
      inferInstanceAs (Decidable (Resubmits x.1 u cancel env → _))
  | .fileOpen .. | .fileClose .. | .handleOpen .. | .handleClose .. | .submitBegin ..
  | .submitAdd .. | .submitLockFail .. | .submitInit .. | .submitDepsFail .. | .submitQueue ..
  | .submitUndo .. | .submitEnd .. | .runJob .. | .killJob .. | .freeJob .. | .gpIrq ..
  | .ppIrq .. | .mmuIrq .. | .recoverBegin .. | .recoverEnd .. | .timedoutBegin ..
  | .timedoutReset .. | .timedoutClear .. | .timedoutEnd .. | .finiCheck .. | .finiRelease ..
  | .finiStop .. =>
      instDecidableTrue

/-- The driver holds one reference on the fence of each job that is not freed, and none
on any other fence. -/
structure FenceRefs (d : Dev) (job : FenceId → Option TaskId) : Prop where
  job : ∀ t f, (d.task t).fence = some f → job f = some t
  held : ∀ t f, (d.task t).fence = some f → (d.task t).state ≠ .freed →
    (d.fence f).driverRefs = 1
  dropped : ∀ f, f < d.numFences →
    (∀ t, (d.task t).fence = some f → (d.task t).state = .freed) →
    (d.fence f).driverRefs = 0

/-! ## Steps that create and drop no reference -/

theorem fenceSignal_driverRefs (d : Dev) (fo : Option FenceId) (f : FenceId) :
    ((d.fenceSignal fo).fence f).driverRefs = (d.fence f).driverRefs := by
  obtain h | ⟨g, task, -, -, h, -⟩ := d.fenceSignal_cases fo
  · rw [h]
  · rw [h]
    by_cases hf : f = g
    · subst hf
      simp
    · simp [hf]

theorem fenceSetError_driverRefs (d : Dev) (e : Errno) (fo : Option FenceId) (f : FenceId) :
    ((d.fenceSetError e fo).fence f).driverRefs = (d.fence f).driverRefs := by
  cases fo with
  | none => rfl
  | some g =>
      simp only [fenceSetError, modFence_fence]
      split <;> rfl

@[simp] theorem fenceSignal_numFences (d : Dev) (fo : Option FenceId) :
    (d.fenceSignal fo).numFences = d.numFences := by
  obtain h | ⟨g, task, -, -, h, -⟩ := d.fenceSignal_cases fo <;> rw [h]

@[simp] theorem fenceSetError_numFences (d : Dev) (e : Errno) (fo : Option FenceId) :
    (d.fenceSetError e fo).numFences = d.numFences := by
  cases fo <;> rfl

namespace FenceRefs

variable {d d' : Dev} {job : FenceId → Option TaskId} {t u : TaskId} {p : PipeId}

/-- The jobs have the same fences and are freed or not as before. -/
theorem same (h : FenceRefs d job) (hfence : ∀ t, (d'.task t).fence = (d.task t).fence)
    (hstate : ∀ t f, (d.task t).fence = some f →
      ((d'.task t).state = .freed ↔ (d.task t).state = .freed))
    (hrefs : ∀ f, (d'.fence f).driverRefs = (d.fence f).driverRefs)
    (hnum : d'.numFences = d.numFences) : FenceRefs d' job where
  job t f hf := by
    rw [hfence] at hf
    exact h.job t f hf
  held t f hf hst := by
    rw [hfence] at hf
    rw [hrefs]
    refine h.held t f hf ?_
    intro hfreed
    exact hst ((hstate t f hf).mpr hfreed)
  dropped f hlt hall := by
    rw [hnum] at hlt
    rw [hrefs]
    refine h.dropped f hlt ?_
    intro t hf
    refine (hstate t f hf).mp (hall t ?_)
    rw [hfence]
    exact hf

theorem user (hw : SchedWf d) (h : FenceRefs d job) (m : d.UserMove d') :
    FenceRefs d' job := by
  have hnone : ∀ t, d'.task t ≠ d.task t → (d.task t).fence = none ∧ (d'.task t).fence = none := by
    intro t hne
    rcases m.task t with hsame | ⟨hpre, -, hunrun⟩
    · exact absurd hsame hne
    · have hold := hw.unrun t (.inl hpre)
      exact ⟨hold.fence, (hunrun hold).fence⟩
  refine h.same (fun t => ?_) (fun t f hf => ?_) (fun f => ?_) m.numFences
  · by_cases hsame : d'.task t = d.task t
    · rw [hsame]
    · obtain ⟨h₁, h₂⟩ := hnone t hsame
      rw [h₁, h₂]
  · by_cases hsame : d'.task t = d.task t
    · rw [hsame]
    · rw [(hnone t hsame).1] at hf
      cases hf
  · rw [m.fence]

theorem quiet (h : FenceRefs d job) (q : d.Quiet d') : FenceRefs d' job :=
  h.same (fun t => (q.task t).fence) (fun t _ _ => by rw [(q.task t).state]) q.driverRefs
    q.numFences

theorem complete (h : FenceRefs d job) (t : TaskId) : FenceRefs (d.complete t) job := by
  refine h.same (fun u => ?_) (fun u _ _ => ?_) (fun f => ?_) ?_
  · change (((d.modTask t fun task => { task with hwDone := true }).fenceSignal
      (d.task t).fence).task u).fence = _
    rw [fenceSignal_task, modTask_task]
    split <;> rfl
  · change (((d.modTask t fun task => { task with hwDone := true }).fenceSignal
      (d.task t).fence).task u).state = _ ↔ _
    rw [fenceSignal_task, modTask_task]
    split <;> rfl
  · exact fenceSignal_driverRefs (d.modTask t fun task => { task with hwDone := true }) _ f
  · exact fenceSignal_numFences (d.modTask t fun task => { task with hwDone := true }) _

/-- The name of a fence that does not exist yet can be given to any job. -/
theorem history (hw : SchedWf d) (h : FenceRefs d job) (e : DevEvent) :
    FenceRefs d (fenceJob job d e) := by
  refine ⟨fun t f hf => ?_, h.held, h.dropped⟩
  have hne := (hw.fenceLt t f hf).ne
  unfold fenceJob
  split
  · rw [Function.update_of_ne hne]
    exact h.job t f hf
  · rw [Function.update_of_ne hne]
    exact h.job t f hf
  · exact h.job t f hf

/-- A job that has no fence yet is run. -/
theorem dispatched (hw : SchedWf d) (h : FenceRefs d job) {env : RunEnv}
    (hfree : (d.task t).state ≠ .freed) (hjob : job d.numFences = some t)
    (hd : GaveUp env t d d' ∨ Started env t d d' ∧ (d.task t).fence = none) :
    FenceRefs d' job := by
  rcases hd with hg | ⟨hg, hnone⟩
  · have htask : ∀ u, (d'.task u).fence = (d.task u).fence ∧
        ((d'.task u).state = .freed ↔ (d.task u).state = .freed) := by
      intro u
      rw [hg.task]
      by_cases hu : u = t
      · subst hu
        simp [hfree]
      · simp [hu]
    constructor
    · intro u f hf
      rw [(htask u).1] at hf
      exact h.job u f hf
    · intro u f hf hst
      rw [(htask u).1] at hf
      rw [hg.fence f (hw.fenceLt u f hf)]
      exact h.held u f hf (fun hfreed => hst ((htask u).2.mpr hfreed))
    · intro f hlt hall
      by_cases hf : f < d.numFences
      · rw [hg.fence f hf]
        refine h.dropped f hf ?_
        intro u hu
        exact (htask u).2.mp (hall u ((htask u).1.trans hu))
      · exact hg.dropped f (not_lt.mp hf) hlt
  · obtain ⟨x, hx, htask⟩ := hg.task
    have hself : d'.task t = x := by simp [htask]
    have hne : ∀ u, u ≠ t → d'.task u = d.task u := fun u hu => by simp [htask, hu]
    have hold : ∀ f, f ≠ d.numFences → d'.fence f = d.fence f :=
      fun f hf => by simp [hg.fence, hf]
    have hnew : (d'.fence d.numFences).driverRefs = 1 := by simp [hg.fence]
    constructor
    · intro u f hf
      by_cases hu : u = t
      · subst hu
        rw [hself, hx.fence] at hf
        obtain rfl := Option.some.inj hf
        exact hjob
      · rw [hne u hu] at hf
        exact h.job u f hf
    · intro u f hf hst
      by_cases hu : u = t
      · subst hu
        rw [hself, hx.fence] at hf
        obtain rfl := Option.some.inj hf
        exact hnew
      · rw [hne u hu] at hf hst
        rw [hold f (hw.fenceLt u f hf).ne]
        exact h.held u f hf hst
    · intro f hlt hall
      have hnum : f ≠ d.numFences := by
        rintro rfl
        have hfreed := hall t (by rw [hself, hx.fence])
        rw [hself, hx.state] at hfreed
        cases hfreed
      rw [hold f hnum]
      refine h.dropped f ?_ ?_
      · rw [hg.numFences] at hlt
        omega
      · intro u hu
        have hut : u ≠ t := by
          rintro rfl
          rw [hnone] at hu
          cases hu
        rw [← hne u hut]
        exact hall u (by rw [hne u hut]; exact hu)

theorem killJob (h : FenceRefs d job) (ht : (d.task t).state = .queued) :
    FenceRefs (d.killJob t) job := by
  have htask : ∀ u, ((d.killJob t).task u).fence = (d.task u).fence ∧
      (((d.killJob t).task u).state = .freed ↔ (d.task u).state = .freed) := by
    intro u
    by_cases hu : u = t
    · subst hu
      simp [Dev.killJob, jobDone, ht]
    · simp [Dev.killJob, jobDone, Dev.modTask, hu]
  exact h.same (fun u => (htask u).1) (fun u _ _ => (htask u).2) (fun _ => rfl) rfl

theorem freeJob (hw : SchedWf d) (h : FenceRefs d job) (hf : d.CanFree t) {fuel : ℕ}
    (hd : limaSchedFreeJob fuel d t = .ok d') : FenceRefs d' job := by
  have hlive : (d.task t).state ≠ .freed := by
    intro hfreed
    rcases hf.1 with hst | hst <;> rw [hst] at hfreed <;> cases hfreed
  obtain ⟨-, s₁, s, gemRef, -, -, rfl⟩ := limaSchedFreeJob_cases hd
  have hfence : ∀ u, (Function.update d.task t { d.task t with state := .freed } u).fence =
      (d.task u).fence := by
    intro u
    by_cases hu : u = t
    · subst hu
      simp
    · simp [hu]
  have hnum : (d.fencePut (d.task t).fence).numFences = d.numFences := by
    cases (d.task t).fence <;> rfl
  have hput : ∀ f, ((d.fencePut (d.task t).fence).fence f).driverRefs =
      if (d.task t).fence = some f then (d.fence f).driverRefs - 1
      else (d.fence f).driverRefs := by
    intro f
    cases hg : (d.task t).fence with
    | none => simp [fencePut]
    | some g =>
        by_cases hfg : f = g
        · subst hfg
          simp [fencePut, modFence]
        · simp [fencePut, modFence, hfg, Ne.symm hfg]
  constructor
  · intro u f hu
    exact h.job u f ((hfence u).symm.trans hu)
  · intro u f hu hst
    have hu' : (d.task u).fence = some f := (hfence u).symm.trans hu
    have hut : u ≠ t := by
      rintro rfl
      simp at hst
    have hne : (d.task t).fence ≠ some f := fun ht => hut (hw.fenceInj u t f hu' ht)
    change ((d.fencePut (d.task t).fence).fence f).driverRefs = 1
    rw [hput, if_neg hne]
    refine h.held u f hu' ?_
    simpa [hut] using hst
  · intro f hlt hall
    change ((d.fencePut (d.task t).fence).fence f).driverRefs = 0
    rw [hput]
    by_cases ht : (d.task t).fence = some f
    · rw [if_pos ht, h.held t f ht hlive]
    · rw [if_neg ht]
      refine h.dropped f (hnum ▸ hlt) ?_
      intro u hu
      have hut : u ≠ t := by
        rintro rfl
        exact ht hu
      have hall' := hall u ((hfence u).trans hu)
      simpa [hut] using hall'

/-- **The step lemma.** -/
theorem step (hw : SchedWf d) (h : FenceRefs d job) {cfg : DevConfig} {e : DevEvent}
    (hok : DispatchesOnce (d, job) e) (hd : devStep cfg d e = some d') :
    FenceRefs d' (fenceJob job d e) := by
  have hh := h.history hw e
  cases devStep_move hw.tasks hd with
  | user m => exact hh.user hw m
  | quiet q => exact hh.quiet q
  | completes _ c =>
      rw [c.eq]
      exact (hh.quiet c.quiet).complete _
  | @runJob t env _ _ hr hrun =>
      have hnone := (hw.unrun t (.inr hr.1)).fence
      have hlive : (d.task t).state ≠ .freed := by
        rw [hr.1]
        decide
      have hcases : GaveUp env t d d' ∨ Started env t d d' ∧ (d.task t).fence = none :=
        (dispatch_cases hrun).imp_right fun hg => ⟨hg, hnone⟩
      exact hh.dispatched hw hlive (Function.update_self ..) hcases
  | killJob ht => exact hh.killJob ht
  | freeJob hf hfree => exact hh.freeJob hw hf hfree
  | clear ht hclear =>
      obtain ⟨s, -, rfl⟩ := timedoutClear_cases hclear
      exact hh.same (fun _ => rfl) (fun _ _ _ => .rfl) (fun _ => rfl) rfl
  | @resubmit p t u cancel env _ _ ht hu hres =>
      obtain ⟨d₁, hcases, rfl⟩ := timedoutResubmit_cases hres
      have hw₁ : SchedWf (cancelled u cancel d) := hw.modTask (.inl hu.1) fun _ => rfl
      have htask : ∀ v, ((cancelled u cancel d).task v).fence = (d.task v).fence ∧
          ((cancelled u cancel d).task v).state = (d.task v).state := by
        intro v
        rw [cancelled, modTask_task]
        split <;> exact ⟨rfl, rfl⟩
      have h₁ : FenceRefs (cancelled u cancel d) (fenceJob job d
          (.timedoutResubmit p u cancel env)) :=
        hh.same (fun v => (htask v).1) (fun v _ _ => by rw [(htask v).2]) (fun _ => rfl) rfl
      have hlive : ((cancelled u cancel d).task u).state ≠ .freed := by
        rw [(htask u).2, hu.1]
        decide
      have hd₁ : FenceRefs d₁ (fenceJob job d (.timedoutResubmit p u cancel env)) := by
        refine h₁.dispatched hw₁ hlive (Function.update_self ..) (hcases.imp_right ?_)
        intro hg
        refine ⟨hg, (htask u).1.trans (hok ?_)⟩
        have herr := hg.noError
        simp only [cancelled, modTask_task_self] at herr
        cases cancel with
        | true => cases herr
        | false => exact ⟨rfl, herr, hg.envOk⟩
      exact hd₁.same (fun _ => rfl) (fun _ _ _ => .rfl) (fun _ => rfl) rfl
  | release hc hrel =>
      obtain ⟨-, -, rfl⟩ | ⟨s, x, -, -, -, d₁, rfl, ⟨-, rfl⟩ | ⟨t, -, -, rfl⟩⟩ :=
        finiRelease_cases hrel
      · exact hh.same (fun _ => rfl) (fun _ _ _ => .rfl) (fun _ => rfl) rfl
      · exact hh.same (fun _ => rfl) (fun _ _ _ => .rfl) (fun _ => rfl) rfl
      · refine hh.same (fun u => ?_) (fun u _ _ => ?_) (fun f => ?_) ?_
        · rw [fenceSignal_task, fenceSetError_task]
        · rw [fenceSignal_task, fenceSetError_task]
        · rw [fenceSignal_driverRefs, fenceSetError_driverRefs]
        · rw [fenceSignal_numFences, fenceSetError_numFences]

end FenceRefs

/-! ## Main result -/

/-- **A freed job's fences.** In a run in which no job that has a fence is dispatched
again, the driver has dropped every reference it took on every fence it created for a
job once `lima_sched_free_job` has returned. -/
theorem fence_refs_dropped (cfg : DevConfig) {x : Dev × (FenceId → Option TaskId)}
    (h : (fenceLts cfg).Via DispatchesOnce x) {t : TaskId} {f : FenceId}
    (hfreed : (x.1.task t).state = .freed) (hf : f < x.1.numFences) (hjob : x.2 f = some t) :
    (x.1.fence f).driverRefs = 0 := by
  have hrefs : FenceRefs x.1 x.2 := by
    refine h.invariant (I := fun x => FenceRefs x.1 x.2) (fun x hx => ?_)
      fun x e x' hx hi hok hstep => ?_
    · obtain ⟨⟨s, hs, -⟩, -⟩ := hx
      rw [hs]
      exact ⟨nofun, nofun, nofun⟩
    · obtain ⟨hd, hjob⟩ := hstep
      rw [hjob]
      exact hi.step (SchedWf.of_reachable hx.of_record) hok hd
  refine hrefs.dropped f hf ?_
  intro u hu
  obtain rfl : t = u := Option.some.inj (hjob.symm.trans (hrefs.job u f hu))
  exact hfreed

/-- A job is dispatched once, completes and is freed. -/
theorem fence_refs_dropped_oneJob : ∃ x : Dev × (FenceId → Option TaskId),
    x.1.numFences = 1 ∧ x.2 0 = some 0 ∧ (x.1.fence 0).driverRefs = 0 := by
  have hrun : ((Lts.exec (fun x e => if DispatchesOnce x e then
      Lts.recordStep (devStep mali400Dev) fenceJob x e else none)
      (.boot (.fresh onePageBo), fun _ => none) (openOne ++ submitOne 0 .gp gpFrame ++
        [.runJob 0 allOk, gpEnd, .freeJob 0 0])).map fun x =>
          ((x.1.task 0).state, x.1.numFences, x.2 0)) = some (.freed, 1, some 0) := rfl
  obtain ⟨x, hx, hobs⟩ := Option.map_eq_some_iff.mp hrun
  obtain ⟨hfreed, hobs⟩ := Prod.mk.inj hobs
  obtain ⟨hnum, hjob⟩ := Prod.mk.inj hobs
  refine ⟨x, hnum, hjob, fence_refs_dropped mali400Dev (Lts.Via.exec (fun x e x' hstep => ?_)
    (.init ⟨onePage_init _, rfl⟩) hx) hfreed (hnum ▸ Nat.zero_lt_one) hjob⟩
  split at hstep
  · exact ⟨‹_›, Lts.recordStep_step (fun _ _ _ h => h) hstep⟩
  · cases hstep

/-- A job that hangs once and is run again within the hang limit: the reference on its
first fence outlives it. -/
theorem fence_leaked : ∃ x, (fenceLts mali400Dev).Reachable x ∧
    (x.1.task 0).state = .freed ∧ x.2 0 = some 0 ∧ (x.1.fence 0).driverRefs = 1 := by
  have hrun : ((Lts.exec (Lts.recordStep (devStep mali400Dev) fenceJob)
      (.boot (.fresh onePageBo), fun _ => none) (openOne ++ submitOne 0 .gp gpFrame ++
        [.runJob 0 allOk, .timedoutBegin .gp 0, .timedoutReset .gp true fun _ => false,
          .timedoutClear .gp, .timedoutResubmit .gp 0 false allOk, .timedoutEnd .gp, gpEnd,
          .freeJob 0 0])).map fun x =>
            ((x.1.task 0).state, x.2 0, (x.1.fence 0).driverRefs)) =
      some (.freed, some 0, 1) := rfl
  obtain ⟨x, hx, hobs⟩ := Option.map_eq_some_iff.mp hrun
  obtain ⟨hfreed, hobs⟩ := Prod.mk.inj hobs
  obtain ⟨hjob, hrefs⟩ := Prod.mk.inj hobs
  exact ⟨x, Lts.Reachable.exec (fun _ _ _ h => Lts.recordStep_step (fun _ _ _ h => h) h)
    (.init ⟨onePage_init _, rfl⟩) hx, hfreed, hjob, hrefs⟩

end Lima
