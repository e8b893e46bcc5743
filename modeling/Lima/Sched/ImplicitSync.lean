import Lima.Lib.ResvBook
import Lima.Sched.GemBalance
import Lima.Sched.JobSteps
import Lima.Sched.TaskPointer
import Lima.Wait

/-!
# Implicit synchronisation

`lima_gem_submit` makes a job wait for the fences its objects carry and leaves the job's own
fence on them. Between `lima_sched_task_init`, which arms the job, and its push the objects
of the job stay locked; the steps of everybody else interleave as in `Lima.Sched.Runs`. What
`dma_resv_add_fence` and `drm_sched_job_add_dependency` may drop, and that `drm_sched` takes
the jobs of an entity in order and none before its dependencies, is what these document.
-/

namespace Lima

/-! ## The uses of an object -/

/-- `enum dma_resv_usage`, as far as the driver names it. -/
inductive DmaResvUsage where
  | write | read
deriving DecidableEq, Repr

/-- Who asks for the fences of a usage gets those of the usages before it, too. -/
instance : LE DmaResvUsage := ⟨fun u v => u = .write ∨ v = .read⟩

instance : DecidableRel (α := DmaResvUsage) (· ≤ ·) :=
  fun u v => inferInstanceAs (Decidable (u = .write ∨ v = .read))

instance : Preorder DmaResvUsage where
  le_refl u := by cases u <;> decide
  le_trans u v w := by cases u <;> cases v <;> cases w <;> decide

/-- `dma_resv_usage_rw`. -/
def dmaResvUsageRw (write : Bool) : DmaResvUsage := if write then .read else .write

/-- The usage with which a submit leaves its fence on an object. -/
def submitUsage (write : Bool) : DmaResvUsage := if write then .write else .read

theorem submitUsage_eq_write {w : Bool} : submitUsage w = .write ↔ w = true := by
  cases w <;> decide

/-- Two uses of an object conflict if one of them writes. -/
theorem submitUsage_le_rw {wt wu : Bool} :
    submitUsage wt ≤ dmaResvUsageRw wu ↔ wt = true ∨ wu = true := by
  cases wt <;> cases wu <;> decide

/-! ## The model -/

abbrev SchedEntity := Option CtxId × PipeId
abbrev SyncBook := Resv.Book TaskId SchedEntity BoId DmaResvUsage
abbrev ResvImpl := Resv.Impl TaskId (Option SchedEntity) DmaResvUsage
abbrev SchedDeps := Resv.Deps TaskId (Option SchedEntity)

/-- A device with the fences on its objects. `seqno` is the number that
`drm_sched_job_arm` has given the finished fence of a task, `armed` how many it has given. -/
structure SyncDev where
  dev : Dev
  book : SyncBook
  seqno : TaskId → ℕ
  armed : ℕ

/-- What the rest of a submit meets: the outcomes of its calls, `LIMA_SUBMIT_BO_WRITE` of each
object, and whose fence each `in_sync` holds. -/
structure SyncEnv where
  calls : SubmitEnv
  args : SubmitArgs
  writes : List Bool
  syncFence : ℕ → Option TaskId

namespace SyncEnv

variable (env : SyncEnv)

/-- The fences that `lima_gem_add_deps` adds if it succeeds. -/
def inSyncFences : List TaskId :=
  env.args.inSync.zipIdx.filterMap fun x => if x.1 ≠ 0 then env.syncFence x.2 else none

def explicit : Bool := env.args.flags == limaSubmitFlagExplicitFence

/-- What `lima_gem_sync_bo` waits for on each object if it succeeds. -/
def awaits (uses : List (BoId × Bool)) : List (BoId × DmaResvUsage) :=
  if env.explicit then [] else uses.map fun x => (x.1, dmaResvUsageRw x.2)

end SyncEnv

/-- The fences `lima_gem_submit` leaves. -/
def submitLeaves (uses : List (BoId × Bool)) : List (BoId × DmaResvUsage) :=
  uses.map fun x => (x.1, submitUsage x.2)

theorem mem_submitLeaves {uses : List (BoId × Bool)} {b : BoId} {v : DmaResvUsage} :
    (b, v) ∈ submitLeaves uses ↔ ∃ w, (b, w) ∈ uses ∧ submitUsage w = v := by
  constructor
  · intro h
    obtain ⟨⟨b', w⟩, hw, heq⟩ := List.mem_map.mp h
    obtain ⟨rfl, rfl⟩ := Prod.mk.inj heq
    exact ⟨w, hw, rfl⟩
  · rintro ⟨w, hw, rfl⟩
    exact List.mem_map.mpr ⟨(b, w), hw, rfl⟩

theorem exists_use {uses : List (BoId × Bool)} {b : BoId} :
    b ∈ uses.map Prod.fst ↔ ∃ w, (b, w) ∈ uses := by
  simp

inductive SyncEvent where
  /-- A step of the device, other than the rest of a submit. -/
  | dev (e : DevEvent)
  /-- `lima_gem_submit` once its job is armed. -/
  | submit (t : TaskId) (env : SyncEnv)

namespace SyncDev

variable (s : SyncDev)

def Left (t : TaskId) : Prop := (s.dev.task t).state ≠ .queued

def done (t : TaskId) : Bool := (s.dev.task t).finished

/-- `drm_gem_lock_reservations`: no other submit has locked an object of the task. -/
def LocksFree (t : TaskId) : Prop :=
  ∀ sm ∈ s.dev.submit t, ∀ u < s.dev.numTasks, (s.dev.task u).state = .inited →
    ∀ b ∈ sm.lbos, b ∉ (s.dev.task u).bos

/-- `drm_sched` has come to the job: it is the first of its entity, and the dependencies that
are not of its entity are signalled. -/
def Runnable (t : TaskId) : Prop :=
  ∀ j ∈ s.book.job t, (∀ f ∈ j.deps, s.book.ctxOf f = some j.ctx ∨ s.done f = true) ∧
    ∀ u < s.dev.numTasks, ∀ i ∈ s.book.job u, i.ctx = j.ctx → i.place < j.place →
      (s.dev.task u).state ≠ .queued

/-- `drm_sched_entity_kill` has come to the job: those before it are done with, and its
dependencies are signalled. -/
def Killable (t : TaskId) : Prop :=
  ∀ j ∈ s.book.job t, (∀ f ∈ j.deps, s.done f = true) ∧
    ∀ u < s.dev.numTasks, ∀ i ∈ s.book.job u, i.ctx = j.ctx → i.place < j.place →
      s.done u = true

instance (t : TaskId) : Decidable (s.LocksFree t) := by
  unfold LocksFree
  infer_instance

instance (t : TaskId) : Decidable (s.Runnable t) := by
  unfold Runnable
  infer_instance

instance (t : TaskId) : Decidable (s.Killable t) := by
  unfold Killable
  infer_instance

/-- What the locks and the scheduler make a step of the device wait for. -/
def Permits : DevEvent → Prop
  | .submitDepsFail _ | .submitQueue _ => False
  | .submitInit t _ _ _ => s.LocksFree t
  | .runJob t _ => s.Runnable t
  | .killJob t => s.Killable t
  | _ => True

instance (e : DevEvent) : Decidable (s.Permits e) := by
  unfold Permits
  split <;> infer_instance

/-- The device has gone on to `d`; a `drm_sched_job_arm` of `t` takes the next number. -/
def moved (d : Dev) : DevEvent → SyncDev
  | .submitInit t _ _ _ =>
      if (d.task t).state = .inited then
        { s with
          dev := d
          seqno := Function.update s.seqno t s.armed
          armed := s.armed + 1 }
      else { s with dev := d }
  | _ => { s with dev := d }

/-- The fences are added, and the job is pushed. -/
def pushed (I : ResvImpl) (D : SchedDeps) (t : TaskId) (uses : List (BoId × Bool))
    (env : SyncEnv) (d : Dev) : SyncDev :=
  { s with
    dev := d
    book := s.book.push I (fun u => (d.task u).finished) t
      (s.book.newJob D (s.dev.entity t) (s.seqno t) (submitLeaves uses) (env.awaits uses)
        env.inSyncFences) }

/-- The fences the sync objects hold are those of pushed jobs, and every object has its
flags. -/
def Fits (env : SyncEnv) (lbos : List BoId) : Prop :=
  env.writes.length = lbos.length ∧ ∀ f ∈ env.inSyncFences, (s.book.job f).isSome = true

instance (env : SyncEnv) (lbos : List BoId) : Decidable (s.Fits env lbos) :=
  inferInstanceAs (Decidable (_ ∧ _))

end SyncDev

def syncStep (cfg : DevConfig) (I : ResvImpl) (D : SchedDeps) (s : SyncDev) :
    SyncEvent → Option SyncDev
  | .dev e =>
      if s.Permits e then (devStep cfg s.dev e).map fun d => s.moved d e
      else none
  | .submit t env =>
      (s.dev.submit t).bind fun sm =>
        if s.Fits env sm.lbos then
          match submitDeps env.calls env.args sm.lbos.length with
          | some _ => (devStep cfg s.dev (.submitDepsFail t)).map fun d => { s with dev := d }
          | none =>
              (devStep cfg s.dev (.submitQueue t)).map
                (s.pushed I D t (sm.lbos.zip env.writes) env)
        else none

/-- Runs of a device with the fences of its objects. -/
def syncLts (cfg : DevConfig) (I : ResvImpl) (D : SchedDeps) : Lts SyncDev SyncEvent where
  init s := (devLts cfg).init s.dev ∧ s.book = .empty ∧ s.armed = 0
  step s e s' := syncStep cfg I D s e = some s'

/-- Nobody submits to a context on two threads at once. -/
def SyncDev.OneByOne (s : SyncDev) : SyncEvent → Prop
  | .dev (.submitInit t c _ _) => ∀ u < s.dev.numTasks, (s.dev.task u).state = .inited →
      s.dev.entity u ≠ (some c, (s.dev.task t).pipe)
  | _ => True

instance (s : SyncDev) (e : SyncEvent) : Decidable (s.OneByOne e) := by
  unfold SyncDev.OneByOne
  split <;> infer_instance

/-- The steps of a device with fences are steps of the device. -/
theorem syncStep_dev {cfg : DevConfig} {I : ResvImpl} {D : SchedDeps} {s s' : SyncDev}
    {e : SyncEvent} (h : syncStep cfg I D s e = some s') :
    ∃ e', devStep cfg s.dev e' = some s'.dev := by
  cases e with
  | dev e =>
      rw [syncStep] at h
      split at h
      · obtain ⟨d, hd, rfl⟩ := Option.map_eq_some_iff.mp h
        refine ⟨e, hd.trans ?_⟩
        unfold SyncDev.moved
        split
        · split <;> rfl
        · rfl
      · cases h
  | submit t env =>
      obtain ⟨sm, -, h⟩ := Option.bind_eq_some_iff.mp h
      split at h
      · split at h
        · obtain ⟨d, hd, rfl⟩ := Option.map_eq_some_iff.mp h
          exact ⟨_, hd⟩
        · obtain ⟨d, hd, rfl⟩ := Option.map_eq_some_iff.mp h
          exact ⟨_, hd⟩
      · cases h

theorem syncLts_dev {cfg : DevConfig} {I : ResvImpl} {D : SchedDeps} {s : SyncDev}
    (h : (syncLts cfg I D).Reachable s) : (devLts cfg).Reachable s.dev := by
  induction h with
  | init h => exact .init h.1
  | step _ _ h ih =>
      obtain ⟨e, hd⟩ := syncStep_dev h
      exact ih.step hd

/-! ## The invariant -/

/-- The jobs in the book are those of the device's tasks. -/
structure SyncJobs (s : SyncDev) : Prop where
  ok : s.book.Ok s.Left s.done
  pushed : ∀ t j, s.book.job t = some j → ¬ (s.dev.task t).state.PreRun
  entity : ∀ t j, s.book.job t = some j → j.ctx = s.dev.entity t
  uses : ∀ t j, s.book.job t = some j → ∃ uses : List (BoId × Bool),
    uses.map Prod.fst = (s.dev.task t).bos ∧ j.leaves = submitLeaves uses ∧
      (j.awaits = [] ∨ j.awaits = uses.map fun x => (x.1, dmaResvUsageRw x.2))
  known : ∀ t, (s.dev.task t).state.pushed = true → (s.book.job t).isSome = true
  gone : ∀ t j, s.book.job t = some j → s.Left t →
    (s.dev.task t).state = .pending ∨ s.done t = true

/-- The jobs that are armed and not pushed: there is one for an entity, and its number comes
after those of the pushed ones. -/
structure SyncArmed (s : SyncDev) : Prop where
  lt : ∀ t, (s.dev.task t).state = .inited → s.seqno t < s.armed
  pushedLt : ∀ t j, s.book.job t = some j → j.seqno < s.armed
  behind : ∀ t u k, (s.dev.task t).state = .inited → s.book.job u = some k →
    k.ctx = s.dev.entity t → k.seqno < s.seqno t
  one : ∀ t u, (s.dev.task t).state = .inited → (s.dev.task u).state = .inited →
    s.dev.entity t = s.dev.entity u → t = u

namespace SyncJobs

open Dev

variable {cfg : DevConfig} {s : SyncDev} {d : Dev} {e : DevEvent}

theorem lt_numTasks (h : SyncJobs s) (hw : s.dev.TasksWf) {t : TaskId}
    {j : Resv.Job TaskId SchedEntity BoId DmaResvUsage} (hj : s.book.job t = some j) :
    t < s.dev.numTasks := by
  by_contra hge
  exact h.pushed t j hj (.inl (hw.fresh t (not_lt.mp hge)).1)

/-- A job that is handed to `run_job` is the first unfinished one of its entity. -/
theorem earlier_done (h : SyncJobs s) (hw : s.dev.TasksWf) {t u : TaskId}
    (hrun : s.Runnable t) (hcan : s.dev.CanRun t) (hlater : s.book.Later u t) :
    s.done u = true := by
  obtain ⟨i, j, hi, hj, hctx, hlt⟩ := hlater
  have hu := h.lt_numTasks hw hi
  have hleft := (hrun j hj).2 u hu i hi hctx hlt
  rcases h.gone u i hi hleft with hpend | hdone
  · by_contra hdone
    refine hcan.2.2.2 u hu ⟨hpend, Bool.eq_false_iff.mpr hdone, ?_⟩
    rw [h.entity u i hi, h.entity t j hj] at hctx
    exact congrArg Prod.snd hctx
  · exact hdone

/-- **The steps of the device keep the promises** of the objects and the queues. -/
theorem dev (h : SyncJobs s) (hw : SchedWf s.dev) (hw' : SchedWf d)
    (hd : devStep cfg s.dev e = some d) (hq : ∀ t, e ≠ .submitQueue t)
    (hrun : ∀ t env, e = .runJob t env → s.Runnable t)
    (hkill : ∀ t, e = .killJob t → s.Killable t) : SyncJobs { s with dev := d } := by
  have hkept : ∀ t j, s.book.job t = some j → JobKept e s.dev d t :=
    fun t j hj => .step hw.tasks (h.pushed t j hj) hd
  have hmoved : ∀ t j, s.book.job t = some j → (d.task t).state ≠ .queued →
      s.Left t ∨ JobMovesOn e s.dev d t := fun t j hj hne =>
    (hkept t j hj).state.imp_left fun hs hold => hne (hs.trans hold)
  constructor
  case ok =>
    refine h.ok.advance (fun t j hj => (hkept t j hj).finished) (fun t j hj hdone hst => ?_)
      fun t j hj hleft => ?_
    · have hunrun := (hw'.unrun t (.inr hst)).finished
      exact absurd (hunrun.symm.trans hdone) (by simp)
    · rcases hmoved t j hj hleft with hold | hm
      · exact .inl hold
      · cases hm with
        | @run env he hcan hp =>
            have hready := hrun t env he
            refine .inr ⟨fun u hlater => ?_, fun f hf => ?_⟩
            · obtain ⟨i, -, hi, -⟩ := id hlater
              exact (hkept u i hi).finished (h.earlier_done hw.tasks hready hcan hlater)
            · obtain ⟨i, hi, -⟩ := h.ok.depsOld t j hj f hf
              exact ((hready j hj).1 f hf).imp_right (hkept f i hi).finished
        | kill he hold hk hf =>
            have hready := hkill t he
            refine .inr ⟨fun u hlater => ?_, fun f hf => ?_⟩
            · obtain ⟨i, j', hi, hj', hctx, hlt⟩ := hlater
              obtain rfl := Option.some.inj (hj.symm.trans hj')
              exact (hkept u i hi).finished
                ((hready j hj).2 u (h.lt_numTasks hw.tasks hi) i hi hctx hlt)
            · obtain ⟨i, hi, -⟩ := h.ok.depsOld t j hj f hf
              exact .inr ((hkept f i hi).finished ((hready j hj).1 f hf))
        | free hne _ _ => exact .inl hne
  case pushed => exact fun t j hj => (hkept t j hj).pushed (h.pushed t j hj)
  case entity =>
    intro t j hj
    rw [h.entity t j hj, Dev.entity, Dev.entity, (hkept t j hj).ctx, (hkept t j hj).pipe]
  case uses =>
    intro t j hj
    rw [(hkept t j hj).bos]
    exact h.uses t j hj
  case known =>
    intro t hst
    refine h.known t ?_
    rcases devStep_cases hd with hu | hs
    · cases userStep_task (t := t) hu with
      | same hsame => rwa [← hsame]
      | idle hidle => rcases hidle with hs | hs <;> simp [hs, TaskState.pushed] at hst
      | armed _ hs _ => simp [hs, TaskState.pushed] at hst
      | queued he _ => exact absurd he (hq t)
    · rcases (JobKept.sched (t := t) hs).state with hsame | hm
      · rwa [← hsame]
      · cases hm with
        | run _ hcan _ => simp [hcan.1, TaskState.pushed]
        | kill _ hold _ _ => simp [hold, TaskState.pushed]
        | free _ _ hs => simp [hs, TaskState.pushed] at hst
  case gone =>
    intro t j hj hleft
    rcases (hkept t j hj).state with hsame | hm
    · have hold := h.gone t j hj fun hq => hleft (hsame.trans hq)
      exact hold.imp (fun hp => hsame.trans hp) (hkept t j hj).finished
    · cases hm with
      | run _ _ hp => exact .inl hp
      | kill _ _ _ hf => exact .inr hf
      | free _ hf _ => exact .inr ((hkept t j hj).finished hf)

end SyncJobs

/-- A task whose job is armed after a step was armed before, or the step armed it. -/
theorem devStep_inited {cfg : DevConfig} {d d' : Dev} {e : DevEvent} {t : TaskId}
    (hd : devStep cfg d e = some d') (hst : (d'.task t).state = .inited) :
    (d.task t).state = .inited ∧ d'.entity t = d.entity t ∨
      ∃ c k j, e = .submitInit t c k j ∧ d'.entity t = (some c, (d.task t).pipe) := by
  rcases Dev.devStep_cases hd with hu | hs
  · cases Dev.userStep_task (t := t) hu with
    | same hsame => exact .inl ⟨by rwa [← hsame], by rw [Dev.entity, Dev.entity, hsame]⟩
    | idle hidle =>
        rw [hst] at hidle
        rcases hidle with h | h <;> cases h
    | armed he _ hent => exact .inr ⟨_, _, _, he, hent⟩
    | queued _ hs =>
        rw [hst] at hs
        cases hs
  · have hkept : JobKept e d d' t := .sched hs
    exact .inl ⟨hkept.inited hst, by rw [Dev.entity, Dev.entity, hkept.ctx, hkept.pipe]⟩

theorem devStep_submitInit {cfg : DevConfig} {d d' : Dev} {t : TaskId} {c : CtxId}
    {kmemdupOk : Bool} {jobInit : Option Errno}
    (hd : devStep cfg d (.submitInit t c kmemdupOk jobInit) = some d') :
    (d.task t).state = .allocated := by
  rcases Dev.devStep_cases hd with hu | hs
  · cases Dev.userStep_call hu with
    | submitInit _ _ _ _ hst _ => exact hst
  · cases hs

namespace SyncArmed

variable {cfg : DevConfig} {s : SyncDev} {d : Dev} {e : DevEvent}

/-- A step that arms no job. -/
theorem keep (h : SyncArmed s) (hold : ∀ t, (d.task t).state = .inited →
    (s.dev.task t).state = .inited ∧ d.entity t = s.dev.entity t) :
    SyncArmed { s with dev := d } where
  lt t ht := h.lt t (hold t ht).1
  pushedLt := h.pushedLt
  behind t u k ht hk hctx := h.behind t u k (hold t ht).1 hk (hctx.trans (hold t ht).2)
  one t u ht hu hent := by
    obtain ⟨ht', htent⟩ := hold t ht
    obtain ⟨hu', huent⟩ := hold u hu
    exact h.one t u ht' hu' (htent.symm.trans (hent.trans huent))

/-- `lima_sched_task_init` of a task whose entity has no armed job. -/
theorem arm (h : SyncArmed s) {t : TaskId}
    (hold : ∀ u, u ≠ t → (d.task u).state = .inited →
      (s.dev.task u).state = .inited ∧ d.entity u = s.dev.entity u)
    (hone : ∀ u, (s.dev.task u).state = .inited → s.dev.entity u ≠ d.entity t) :
    SyncArmed { s with
      dev := d
      seqno := Function.update s.seqno t s.armed
      armed := s.armed + 1 } := by
  constructor
  case lt =>
    intro u hu
    change Function.update s.seqno t s.armed u < s.armed + 1
    by_cases hut : u = t
    · subst hut
      rw [Function.update_self]
      exact Nat.lt_succ_self _
    · rw [Function.update_of_ne hut]
      exact (h.lt u (hold u hut hu).1).trans (Nat.lt_succ_self _)
  case pushedLt => exact fun u j hj => (h.pushedLt u j hj).trans (Nat.lt_succ_self _)
  case behind =>
    intro u w k hu hk hctx
    change k.seqno < Function.update s.seqno t s.armed u
    by_cases hut : u = t
    · subst hut
      rw [Function.update_self]
      exact h.pushedLt w k hk
    · obtain ⟨hu', hent⟩ := hold u hut hu
      rw [Function.update_of_ne hut]
      exact h.behind u w k hu' hk (hctx.trans hent)
  case one =>
    intro u w hu hw hent
    by_cases hut : u = t
    · subst hut
      by_contra hne
      obtain ⟨hw', hwent⟩ := hold w (Ne.symm hne) hw
      exact hone w hw' (hwent.symm.trans hent.symm)
    · obtain ⟨hu', huent⟩ := hold u hut hu
      by_cases hwt : w = t
      · subst hwt
        exact absurd (huent.symm.trans hent) (hone u hu')
      · obtain ⟨hw', hwent⟩ := hold w hwt hw
        exact h.one u w hu' hw' (huent.symm.trans (hent.trans hwent))

theorem moved (h : SyncArmed s) (hw : s.dev.TasksWf) (hd : devStep cfg s.dev e = some d)
    (hok : s.OneByOne (.dev e)) : SyncArmed (s.moved d e) := by
  have hcases := fun t => devStep_inited (t := t) hd
  unfold SyncDev.moved
  split
  · rename_i t c kmemdupOk jobInit
    split
    · rename_i ht
      have hold : ∀ u, u ≠ t → (d.task u).state = .inited →
          (s.dev.task u).state = .inited ∧ d.entity u = s.dev.entity u := by
        intro u hut hu
        refine (hcases u hu).resolve_right ?_
        rintro ⟨c', k, j, he, -⟩
        cases he
        exact hut rfl
      refine h.arm hold fun u hu => ?_
      rcases hcases t ht with ⟨ht', -⟩ | ⟨c', k, j, he, hent⟩
      · rw [devStep_submitInit hd] at ht'
        cases ht'
      · cases he
        rw [hent]
        refine hok u ?_ hu
        by_contra hge
        rw [(hw.fresh u (not_lt.mp hge)).1] at hu
        cases hu
    · rename_i ht
      refine h.keep fun u hu => (hcases u hu).resolve_right ?_
      rintro ⟨c', k, j, he, -⟩
      cases he
      exact ht hu
  · rename_i hne
    refine h.keep fun u hu => (hcases u hu).resolve_right ?_
    rintro ⟨c, k, j, he, -⟩
    exact hne u c k j he

end SyncArmed

/-! ## Pushing a job -/

theorem devStep_submitQueue {cfg : DevConfig} {d d' : Dev} {t : TaskId}
    (hd : devStep cfg d (.submitQueue t) = some d') : (d.task t).state = .inited ∧
      d'.task = Function.update d.task t { d.task t with state := .queued } := by
  rcases Dev.devStep_cases hd with hu | hs
  · cases Dev.userStep_call hu with
    | submitQueue _ _ hst => exact ⟨hst, d.submitQueue_task t _⟩
  · cases hs

namespace SyncJobs

variable {cfg : DevConfig} {s : SyncDev} {d : Dev} {t : TaskId} {sm : Submit} {env : SyncEnv}
  {I : ResvImpl} {D : SchedDeps}

theorem not_pushed (h : SyncJobs s) (hst : (s.dev.task t).state = .inited) :
    s.book.job t = none := by
  cases hj : s.book.job t with
  | none => rfl
  | some j => exact absurd (.inr (.inr hst)) (h.pushed t j hj)

/-- **The push of a job keeps the promises**: the job of the entity that is armed is the
last one of the entity. -/
theorem push (h : SyncJobs s) (ha : SyncArmed s) (hw : SchedWf s.dev) (hb : VmBooks s.dev)
    (hsm : s.dev.submit t = some sm) (hfits : s.Fits env sm.lbos)
    (hd : devStep cfg s.dev (.submitQueue t) = some d) :
    SyncJobs (s.pushed I D t (sm.lbos.zip env.writes) env d) := by
  obtain ⟨hst, htask⟩ := devStep_submitQueue hd
  have hnew := h.not_pushed hst
  have hself : d.task t = { s.dev.task t with state := .queued } := by simp [htask]
  have hother : ∀ u, u ≠ t → d.task u = s.dev.task u := fun u hu => by simp [htask, hu]
  have hne : ∀ u j, s.book.job u = some j → u ≠ t := fun u j hj => Resv.Book.ne_of_job hnew hj
  have hjob : ∀ u j, (s.pushed I D t (sm.lbos.zip env.writes) env d).book.job u = some j →
      u = t ∧ j = s.book.newJob D (s.dev.entity t) (s.seqno t)
        (submitLeaves (sm.lbos.zip env.writes)) (env.awaits (sm.lbos.zip env.writes))
          env.inSyncFences ∨ u ≠ t ∧ s.book.job u = some j :=
    fun u j hj => Resv.Book.enter_job_cases hj
  have hent : ∀ u, d.entity u = s.dev.entity u := by
    intro u
    by_cases hu : u = t
    · subst hu
      rw [Dev.entity, Dev.entity, hself]
    · rw [Dev.entity, Dev.entity, hother u hu]
  constructor
  case ok =>
    have hok : s.book.Ok (fun u => (d.task u).state ≠ .queued) fun u => (d.task u).finished := by
      refine h.ok.advance (fun u j hj hdone => ?_) (fun u j hj hdone => ?_)
        fun u j hj hleft => ?_ <;> have hsame := hother u (hne u j hj)
      · rwa [hsame]
      · rw [hsame] at hdone ⊢
        exact h.ok.doneLeft u j hj hdone
      · rw [hsame] at hleft
        exact .inl hleft
    refine hok.push I hnew (fun hleft => hleft (by rw [hself])) ?_
      (fun u k hk hctx => ha.behind t u k hst hk hctx) hfits.2
    rw [hself]
    exact (hw.unrun t (.inl (.inr (.inr hst)))).finished
  case pushed =>
    intro u j hj
    change ¬ (d.task u).state.PreRun
    rcases hjob u j hj with ⟨rfl, -⟩ | ⟨hu, hold⟩
    · rw [hself]
      simp [TaskState.PreRun]
    · rw [hother u hu]
      exact h.pushed u j hold
  case entity =>
    intro u j hj
    refine Eq.trans ?_ (hent u).symm
    rcases hjob u j hj with ⟨rfl, rfl⟩ | ⟨-, hold⟩
    · rfl
    · exact h.entity u j hold
  case uses =>
    intro u j hj
    change ∃ uses : List (BoId × Bool), uses.map Prod.fst = (d.task u).bos ∧ _
    rcases hjob u j hj with ⟨rfl, rfl⟩ | ⟨hu, hold⟩
    · obtain ⟨file, -, -, hin⟩ := hb.submit u sm hsm
      refine ⟨sm.lbos.zip env.writes, ?_, rfl, ?_⟩
      · rw [hself, (hin hst).2.2.2, List.map_fst_zip]
        exact hfits.1.symm.le
      · change env.awaits _ = [] ∨ env.awaits _ = _
        unfold SyncEnv.awaits
        split
        · exact .inl rfl
        · exact .inr rfl
    · rw [hother u hu]
      exact h.uses u j hold
  case known =>
    intro u hu
    change (d.task u).state.pushed = true at hu
    by_cases hut : u = t
    · subst hut
      exact congrArg Option.isSome Resv.Book.enter_job_self
    · rw [hother u hut] at hu
      obtain ⟨j, hj⟩ := Option.isSome_iff_exists.mp (h.known u hu)
      exact congrArg Option.isSome (Resv.Book.enter_job hnew hj)
  case gone =>
    intro u j hj hleft
    change (d.task u).state ≠ .queued at hleft
    change (d.task u).state = .pending ∨ (d.task u).finished = true
    rcases hjob u j hj with ⟨rfl, -⟩ | ⟨hu, hold⟩
    · exact absurd (by rw [hself]) hleft
    · rw [hother u hu] at hleft ⊢
      exact h.gone u j hold hleft

end SyncJobs

/-- The number of a pushed job is that of the only armed job of its entity. -/
theorem SyncArmed.push {cfg : DevConfig} {s : SyncDev} {d : Dev} {t : TaskId}
    {uses : List (BoId × Bool)} {env : SyncEnv} {I : ResvImpl} {D : SchedDeps}
    (h : SyncArmed s) (hd : devStep cfg s.dev (.submitQueue t) = some d) :
    SyncArmed (s.pushed I D t uses env d) := by
  obtain ⟨hst, htask⟩ := devStep_submitQueue hd
  have hold : ∀ u, (d.task u).state = .inited →
      u ≠ t ∧ (s.dev.task u).state = .inited ∧ d.entity u = s.dev.entity u := by
    intro u hu
    by_cases hut : u = t
    · subst hut
      simp [htask] at hu
    · have hsame : d.task u = s.dev.task u := by simp [htask, hut]
      exact ⟨hut, by rwa [← hsame], by rw [Dev.entity, Dev.entity, hsame]⟩
  constructor
  case lt => exact fun u hu => h.lt u (hold u hu).2.1
  case pushedLt =>
    intro u j hj
    rcases Resv.Book.enter_job_cases hj with ⟨rfl, rfl⟩ | ⟨-, hj⟩
    · exact h.lt u hst
    · exact h.pushedLt u j hj
  case behind =>
    intro u w k hu hk hctx
    obtain ⟨hut, hu', hent⟩ := hold u hu
    rcases Resv.Book.enter_job_cases hk with ⟨rfl, rfl⟩ | ⟨-, hk⟩
    · exact absurd (h.one u w hu' hst (hent.symm.trans hctx.symm)) hut
    · exact h.behind u w k hu' hk (hctx.trans hent)
  case one =>
    intro u w hu hw hent
    obtain ⟨-, hu', huent⟩ := hold u hu
    obtain ⟨-, hw', hwent⟩ := hold w hw
    exact h.one u w hu' hw' (huent.symm.trans (hent.trans hwent))

/-! ## Runs -/

structure SyncWf (s : SyncDev) : Prop where
  jobs : SyncJobs s
  armed : SyncArmed s

namespace SyncWf

variable {cfg : DevConfig} {I : ResvImpl} {D : SchedDeps} {s s' : SyncDev} {e : SyncEvent}

theorem init (h : (syncLts cfg I D).init s) : SyncWf s := by
  obtain ⟨dev, book, seqno, armed⟩ := s
  obtain ⟨⟨sys, hboot, -⟩, hbook, -⟩ := h
  obtain rfl : dev = .boot sys := hboot
  obtain rfl : book = .empty := hbook
  have hnone : ∀ (t : TaskId) j, (Resv.Book.empty : SyncBook).job t ≠ some j :=
    fun _ _ h => by cases h
  refine ⟨⟨.empty, fun t j hj => absurd hj (hnone t j), fun t j hj => absurd hj (hnone t j),
    fun t j hj => absurd hj (hnone t j), fun t ht => ?_, fun t j hj => absurd hj (hnone t j)⟩,
    ⟨fun t ht => ?_, fun t j hj => absurd hj (hnone t j),
      fun t u k _ hk => absurd hk (hnone u k), fun t u ht => ?_⟩⟩
  · cases ht
  · cases ht
  · cases ht

theorem step (h : SyncWf s) (hr : (syncLts cfg I D).Reachable s) (hok : s.OneByOne e)
    (hd : syncStep cfg I D s e = some s') : SyncWf s' := by
  have hdev := syncLts_dev hr
  have hw := SchedWf.of_reachable hdev
  have hstep : ∀ {e d}, devStep cfg s.dev e = some d → SchedWf d :=
    fun hd => SchedWf.of_reachable (hdev.step hd)
  cases e with
  | dev e =>
      rw [syncStep] at hd
      split at hd
      · rename_i hperm
        obtain ⟨d, hd', rfl⟩ := Option.map_eq_some_iff.mp hd
        refine ⟨?_, h.armed.moved hw.tasks hd' hok⟩
        have hjobs : SyncJobs { s with dev := d } :=
          h.jobs.dev hw (hstep hd') hd' (fun t he => by rw [he] at hperm; exact hperm)
            (fun t env he => by rw [he] at hperm; exact hperm)
            (fun t he => by rw [he] at hperm; exact hperm)
        unfold SyncDev.moved
        split
        · split
          · exact ⟨hjobs.ok, hjobs.pushed, hjobs.entity, hjobs.uses, hjobs.known, hjobs.gone⟩
          · exact hjobs
        · exact hjobs
      · cases hd
  | submit t env =>
      obtain ⟨sm, hsm, hd⟩ := Option.bind_eq_some_iff.mp hd
      split at hd
      · rename_i hfits
        split at hd
        · obtain ⟨d, hd', rfl⟩ := Option.map_eq_some_iff.mp hd
          refine ⟨h.jobs.dev hw (hstep hd') hd' ?_ ?_ ?_, h.armed.keep fun u hu => ?_⟩
          · intro u he
            cases he
          · intro u env he
            cases he
          · intro u he
            cases he
          · refine (devStep_inited hd' hu).resolve_right ?_
            rintro ⟨c, k, j, he, -⟩
            cases he
        · obtain ⟨d, hd', rfl⟩ := Option.map_eq_some_iff.mp hd
          exact ⟨h.jobs.push h.armed hw (VmBalance.of_reachable hdev).toVmBooks hsm hfits hd',
            h.armed.push hd'⟩
      · cases hd

theorem of_via (h : (syncLts cfg I D).Via SyncDev.OneByOne s) : SyncWf s :=
  h.invariant (fun _ h => init h) fun _ _ _ hr hi hok hd => hi.step hr.reachable hok hd

end SyncWf

/-! ## Two jobs of a file -/

/-- Reservation objects that reuse the slots of signalled and superseded fences, and job
dependencies that keep the latest fence of a context. -/
def boundSlots : ResvImpl := Resv.slots ..

def latestDeps : SchedDeps := Resv.latest ..

def syncBoot : SyncDev := ⟨.boot (.fresh onePageBo), .empty, fun _ => 0, 0⟩

/-- A submit without sync objects; all its calls succeed. -/
def plainSubmit (writes : List Bool) : SyncEnv where
  calls := ⟨true, true, true, true, none, true, none, fun _ => none, fun _ => none, fun _ => none⟩
  args := ⟨0, [], 0, 24, gpFrame, 0, [0, 0], 0⟩
  writes := writes
  syncFence := fun _ => none

/-- The submit of a task up to `lima_sched_task_init`. -/
def armJob (t : TaskId) (p : PipeId) (frame : Frame) (handles : List ℕ) : List SyncEvent :=
  (DevEvent.submitBegin 0 p frame handles :: handles.map (fun _ => DevEvent.submitAdd t) ++
    [DevEvent.submitInit t 0 true none]).map .dev

/-- A PP job of one core. -/
def ppFrame : Frame := ⟨0, 0, 0, 0, 0, 0, 1, 0⟩

/-- A GP job writes the object that a PP job is going to read, and runs. -/
def writeThenRead : List SyncEvent :=
  openOne.map .dev ++ armJob 0 .gp gpFrame [1] ++ [.submit 0 (plainSubmit [true])] ++
    armJob 1 .pp ppFrame [1] ++ [.submit 1 (plainSubmit [false]), .dev (.runJob 0 allOk)]

def syncStepOneByOne (s : SyncDev) (e : SyncEvent) : Option SyncDev :=
  if s.OneByOne e then syncStep mali400Dev boundSlots latestDeps s e else none

theorem syncBoot_init {cfg : DevConfig} {I : ResvImpl} {D : SchedDeps} :
    (syncLts cfg I D).init syncBoot := ⟨onePage_init cfg, rfl, rfl⟩

theorem syncStepOneByOne_step (s : SyncDev) (e : SyncEvent) (s' : SyncDev)
    (h : syncStepOneByOne s e = some s') :
    s.OneByOne e ∧ (syncLts mali400Dev boundSlots latestDeps).step s e s' := by
  unfold syncStepOneByOne at h
  split at h
  · rename_i hok
    exact ⟨hok, h⟩
  · cases h

/-! ## Main results -/

section Results

variable (cfg : DevConfig) (I : ResvImpl) (D : SchedDeps) {s : SyncDev}

/-- **Conflicting jobs exclude each other.** Of two pushed jobs with a common object that one
of them writes, the later one stays queued until the earlier one is finished, unless it was
submitted with explicit fencing; in particular no two such jobs are ever on the pipes
together. -/
theorem conflicting_job_waits (h : (syncLts cfg I D).Via SyncDev.OneByOne s) {t u : TaskId}
    {j k : Resv.Job TaskId SchedEntity BoId DmaResvUsage} (ht : s.book.job t = some j)
    (hu : s.book.job u = some k) (hlt : j.place < k.place) (himplicit : k.awaits ≠ []) {b : BoId}
    (htb : b ∈ (s.dev.task t).bos) (hub : b ∈ (s.dev.task u).bos)
    (hwrite : (b, .write) ∈ j.leaves ∨ (b, .write) ∈ k.leaves) :
    (s.dev.task u).state = .queued ∨ (s.dev.task t).finished = true := by
  have hwf := (SyncWf.of_via h).jobs
  obtain ⟨usesT, hbosT, hleavesT, -⟩ := hwf.uses t j ht
  obtain ⟨usesU, hbosU, hleavesU, hawaitsU⟩ := hwf.uses u k hu
  have hawaits := hawaitsU.resolve_left himplicit
  obtain ⟨wt, wu, hwt, hwu, hconf⟩ : ∃ wt wu, (b, wt) ∈ usesT ∧ (b, wu) ∈ usesU ∧
      (wt = true ∨ wu = true) := by
    rcases hwrite with hw | hw
    · rw [hleavesT] at hw
      obtain ⟨wt, hwt, htrue⟩ := mem_submitLeaves.mp hw
      obtain ⟨wu, hwu⟩ := exists_use.mp (hbosU ▸ hub)
      exact ⟨wt, wu, hwt, hwu, .inl (submitUsage_eq_write.mp htrue)⟩
    · rw [hleavesU] at hw
      obtain ⟨wu, hwu, htrue⟩ := mem_submitLeaves.mp hw
      obtain ⟨wt, hwt⟩ := exists_use.mp (hbosT ▸ htb)
      exact ⟨wt, wu, hwt, hwu, .inr (submitUsage_eq_write.mp htrue)⟩
  by_contra hno
  obtain ⟨hleft, hdone⟩ := not_or.mp hno
  refine hdone (hwf.ok.exclusive ht hu hlt (b := b) (u := submitUsage wt)
    (w := dmaResvUsageRw wu) ?_ ?_ (submitUsage_le_rw.mpr hconf) hleft)
  · rw [hleavesT]
    exact mem_submitLeaves.mpr ⟨wt, hwt, rfl⟩
  · rw [hawaits]
    exact List.mem_map.mpr ⟨(b, wu), hwu, rfl⟩

theorem conflicting_job_waits_writeThenRead : ∃ s : SyncDev,
    (s.dev.task 1).state = .pending ∧ (s.dev.task 0).finished = true := by
  have hrun : (Lts.exec syncStepOneByOne syncBoot (writeThenRead ++
      [.dev gpEnd, .dev (.runJob 1 allOk)])).map (fun s => ((s.book.job 0).map
        fun j => (j.place, j.leaves), (s.book.job 1).map fun k => (k.place, k.awaits),
          (s.dev.task 0).bos, (s.dev.task 1).bos, (s.dev.task 1).state)) =
      some (some (0, [(0, .write)]), some (1, [(0, .write)]), [0], [0], .pending) := rfl
  obtain ⟨s, hs, hobs⟩ := Option.map_eq_some_iff.mp hrun
  simp only [Prod.mk.injEq] at hobs
  obtain ⟨h0, h1, hbos0, hbos1, hst⟩ := hobs
  obtain ⟨j, hj, hj'⟩ := Option.map_eq_some_iff.mp h0
  obtain ⟨k, hk, hk'⟩ := Option.map_eq_some_iff.mp h1
  obtain ⟨hjp, hjl⟩ := Prod.mk.inj hj'
  obtain ⟨hkp, hka⟩ := Prod.mk.inj hk'
  have hvia := Lts.Via.exec syncStepOneByOne_step (.init syncBoot_init) hs
  refine ⟨s, hst, (conflicting_job_waits (b := 0) mali400Dev boundSlots latestDeps hvia
    hj hk (by omega) (by simp [hka]) (by simp [hbos0]) (by simp [hbos1])
      (.inl (by simp [hjl]))).resolve_left ?_⟩
  rw [hst]
  simp

/-- Two submits of a context that overlap, their objects being different: the job that is
armed later is pushed first. A third job uses both objects. -/
def overlappingSubmits : List SyncEvent :=
  (openOne ++ [DevEvent.handleOpen 0 2 1
      ⟨true, some 0x20000, fun k => some (0x60000000 + 0x8000 * k)⟩ 0]).map .dev ++
    armJob 0 .gp gpFrame [1] ++ armJob 1 .gp gpFrame [2] ++
    [.submit 1 (plainSubmit [true]), .submit 0 (plainSubmit [true])] ++
    armJob 2 .pp ppFrame [1, 2] ++ [.submit 2 (plainSubmit [false, false]),
      .dev (.runJob 1 allOk), .dev gpEnd, .dev (.runJob 0 allOk), .dev (.runJob 2 allOk)]

/-- **Overlapping submits of a context race.** `lima_gem_submit` holds no lock over the arming
and the push of a job but those of its objects. When two submits of a context overlap, the
dependency on the fence with the greater number stands for both, though its job is first
in the queue; then a job starts to read an object while a job before it still writes it. -/
theorem overlapping_submits_race : ∃ s, (syncLts mali400Dev boundSlots latestDeps).Reachable s ∧
    s.dev.Unfinished .gp 0 ∧ s.dev.Unfinished .pp 2 ∧ ∃ j k, s.book.job 0 = some j ∧
      s.book.job 2 = some k ∧ j.place < k.place ∧ k.awaits ≠ [] ∧ (0, .write) ∈ j.leaves ∧
        0 ∈ (s.dev.task 2).bos := by
  have hrun : (Lts.exec (syncStep mali400Dev boundSlots latestDeps) syncBoot
      overlappingSubmits).map (fun s => (decide (s.dev.Unfinished .gp 0),
        decide (s.dev.Unfinished .pp 2), (s.book.job 0).map fun j => (j.place, j.leaves),
          (s.book.job 2).map fun k => (k.place, k.awaits), (s.dev.task 2).bos)) =
      some (true, true, some (1, [(0, .write)]), some (2, [(0, .write), (1, .write)]),
        [0, 1]) := rfl
  obtain ⟨s, hs, hobs⟩ := Option.map_eq_some_iff.mp hrun
  simp only [Prod.mk.injEq, decide_eq_true_eq] at hobs
  obtain ⟨hgp, hpp, h0, h2, hbos⟩ := hobs
  obtain ⟨j, hj, hj'⟩ := Option.map_eq_some_iff.mp h0
  obtain ⟨k, hk, hk'⟩ := Option.map_eq_some_iff.mp h2
  obtain ⟨hjp, hjl⟩ := Prod.mk.inj hj'
  obtain ⟨hkp, hka⟩ := Prod.mk.inj hk'
  exact ⟨s, .exec (fun _ _ _ h => h) (.init syncBoot_init) hs, hgp, hpp, j, k, hj, hk,
    by omega, by simp [hka], by simp [hjl], by simp [hbos]⟩

/-- `drm_gem_dma_resv_wait` when its last look at the fences of `b` is in the state `s`. -/
def SyncDev.resvWait (s : SyncDev) (b : BoId) : ResvWait where
  busy write _ := !(Resv.upTo (dmaResvUsageRw write) (s.book.resv b)).all s.done
  ret write _ :=
    if (Resv.upTo (dmaResvUsageRw write) (s.book.resv b)).all s.done then none else some .etime
  etime_iff write _ := by
    cases (Resv.upTo (dmaResvUsageRw write) (s.book.resv b)).all s.done <;> simp

/-- `lima_gem_wait` succeeds when `drm_gem_dma_resv_wait` does. -/
theorem limaGemWait_eq_none (c : JiffyConfig) (r : ResvWait) (now : ℤ) {op : ℕ} (ns : ℤ)
    (hop : op ≠ 0) : (limaGemWait c r now op ns).2 = none ↔
      r.ret (decide (op &&& limaGemWaitWrite ≠ 0)) (c.drmTimeoutAbsToJiffies ns now) = none := by
  rw [limaGemWait, if_neg hop]
  change (if r.ret _ _ = some .etime then _ else r.ret _ _) = none ↔ _
  split
  · rename_i hret
    rw [hret]
    simp
  · rfl

end Results

end Lima
