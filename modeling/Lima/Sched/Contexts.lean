import Lima.Sched.State
import Lima.Lib.Lts

/-!
# Contexts and the tasks submitted from them

A `lima_ctx` embeds the scheduler entities its tasks are queued on, and a task finds
its context through them. The references of a context are those of the handle table and
of the submits in progress; a task takes none.
-/

namespace Lima

/-- `struct lima_ctx`. With a count of `0` it is inside `lima_ctx_do_release`. -/
structure LimaCtx where
  refcnt : ℕ
  pname : String
  pid : ℕ
deriving DecidableEq

/-- An entry of the `handles` of the `lima_ctx_mgr` of a file. -/
structure CtxHandle where
  file : ℕ
  id : ℕ
  ctx : CtxId
deriving DecidableEq

/-- A `lima_ioctl_gem_submit` that has looked its context up, and whether it has pushed
its task. -/
structure CtxSubmit where
  ctx : CtxId
  pushed : Bool
deriving DecidableEq

inductive CtxTaskPhase where
  | queued | running | finished
deriving DecidableEq, Repr

/-- A task from the push to `lima_sched_free_job`: the context its entity is part of. -/
structure CtxTask where
  ctx : CtxId
  phase : CtxTaskPhase
deriving DecidableEq

/-- The contexts of all files; one that has been freed is absent. -/
structure CtxSys where
  ctx : CtxId → Option LimaCtx
  numCtxs : ℕ
  handles : List CtxHandle
  submits : List CtxSubmit
  task : ℕ → Option CtxTask
  numTasks : ℕ

/-- The outcome of each step of `lima_ctx_create`, and who calls it. -/
structure CtxCreateEnv where
  kzallocOk : Bool
  gpEntity : Option Errno
  ppEntity : Option Errno
  xaAlloc : Except Errno ℕ
  pname : String
  pid : ℕ

namespace CtxSys

variable (s : CtxSys)

def setCtx (c : CtxId) (x : LimaCtx) : CtxSys :=
  { s with ctx := Function.update s.ctx c (some x) }

def setTask (t : ℕ) (x : Option CtxTask) : CtxSys :=
  { s with task := Function.update s.task t x }

/-! ## The functions -/

/-- `lima_ctx_create`. -/
def limaCtxCreate (file : ℕ) (env : CtxCreateEnv) : CtxSys × Except Errno ℕ :=
  if !env.kzallocOk then (s, .error .enomem)
  else
    match env.gpEntity.or env.ppEntity with
    | some e => (s, .error e)
    | none =>
        match env.xaAlloc with
        | .error e => (s, .error e)
        | .ok id =>
            ({ s.setCtx s.numCtxs ⟨1, env.pname, env.pid⟩ with
              numCtxs := s.numCtxs + 1
              handles := ⟨file, id, s.numCtxs⟩ :: s.handles }, .ok id)

/-- `kref_put`, up to the call of `lima_ctx_do_release`. -/
def krefPut (c : CtxId) : Outcome CtxSys :=
  match s.ctx c with
  | none => .oops
  | some x =>
      if x.refcnt = 0 then .oops else .ok (s.setCtx c { x with refcnt := x.refcnt - 1 })

/-- What `xa_load` finds. -/
def lookup (file id : ℕ) : Option CtxHandle :=
  s.handles.find? fun h => h.file == file && h.id == id

/-- `lima_ctx_free`. -/
def limaCtxFree (file id : ℕ) : Outcome (CtxSys × Option Errno) :=
  match s.lookup file id with
  | none => .ok (s, some .einval)
  | some h =>
      ({ s with handles := s.handles.erase h }.krefPut h.ctx).bind fun s => .ok (s, none)

/-- `lima_ctx_get`. -/
def limaCtxGet (file id : ℕ) : Outcome (CtxSys × Option CtxId) :=
  match s.lookup file id with
  | none => .ok (s, none)
  | some h =>
      match s.ctx h.ctx with
      | none => .oops
      | some x => .ok (s.setCtx h.ctx { x with refcnt := x.refcnt + 1 }, some h.ctx)

/-- `lima_ctx_put`. -/
def limaCtxPut (c : CtxId) : Outcome CtxSys := s.krefPut c

/-- The loop of `lima_ctx_mgr_fini`. -/
def putAll : List CtxId → CtxSys → Outcome CtxSys
  | [], s => .ok s
  | c :: cs, s => (s.krefPut c).bind (putAll cs)

/-- `lima_ctx_mgr_fini`. -/
def limaCtxMgrFini (file : ℕ) : Outcome CtxSys :=
  (putAll ((s.handles.filter fun h => h.file = file).map CtxHandle.ctx) s).bind fun s =>
    .ok { s with handles := s.handles.filter fun h => h.file ≠ file }

/-- What `lima_sched_build_error_task_list` reads of the context of a task. -/
def limaSchedBuildErrorTaskList (x : CtxTask) : Outcome (String × ℕ) :=
  match s.ctx x.ctx with
  | none => .oops
  | some c => .ok (c.pname, c.pid)

/-- A task of context `c` is still in the queue of its entity. -/
def Queued (c : CtxId) : Prop := ∃ t, s.task t = some ⟨c, .queued⟩

end CtxSys

/-! ## Runs -/

inductive CtxEvent where
  | create (file : ℕ) (env : CtxCreateEnv)
  | free (file id : ℕ)
  | close (file : ℕ)
  /-- `lima_ctx_do_release` ends. -/
  | released (c : CtxId)
  | submitGet (file id : ℕ)
  | push (i : ℕ)
  | submitPut (i : ℕ)
  | dispatch (t : ℕ)
  /-- The scheduler kills a queued task of an entity that is being destroyed. -/
  | kill (t : ℕ)
  | timeout (t : ℕ)
  | finish (t : ℕ)
  | freeJob (t : ℕ)

/-- The transitions. `drm_sched_entity_destroy` returns when the queue of its entity is
empty, whatever the hardware is still running. -/
def ctxStep (s : CtxSys) (e : CtxEvent) (s' : CtxSys) : Prop :=
  match e with
  | .create file env => s' = (s.limaCtxCreate file env).1
  | .free file id => ∃ r, s.limaCtxFree file id = .ok (s', r)
  | .close file => s.limaCtxMgrFini file = .ok s'
  | .released c => ∃ x, s.ctx c = some x ∧ x.refcnt = 0 ∧ ¬ s.Queued c ∧
      s' = { s with ctx := Function.update s.ctx c none }
  | .submitGet file id => ∃ s₁ r, s.limaCtxGet file id = .ok (s₁, r) ∧
      s' = r.elim s₁ fun c => { s₁ with submits := ⟨c, false⟩ :: s₁.submits }
  | .push i => ∃ c, s.submits[i]? = some ⟨c, false⟩ ∧
      s' = { s.setTask s.numTasks (some ⟨c, .queued⟩) with
        numTasks := s.numTasks + 1
        submits := s.submits.set i ⟨c, true⟩ }
  | .submitPut i => ∃ x, s.submits[i]? = some x ∧
      { s with submits := s.submits.eraseIdx i }.limaCtxPut x.ctx = .ok s'
  | .dispatch t => ∃ c, s.task t = some ⟨c, .queued⟩ ∧ s' = s.setTask t (some ⟨c, .running⟩)
  | .kill t => ∃ c x, s.task t = some ⟨c, .queued⟩ ∧ s.ctx c = some x ∧ x.refcnt = 0 ∧
      s' = s.setTask t (some ⟨c, .finished⟩)
  | .timeout t => ∃ x r, s.task t = some x ∧ x.phase ≠ .queued ∧
      s.limaSchedBuildErrorTaskList x = .ok r ∧ s' = s
  | .finish t => ∃ c, s.task t = some ⟨c, .running⟩ ∧ s' = s.setTask t (some ⟨c, .finished⟩)
  | .freeJob t => ∃ c, s.task t = some ⟨c, .finished⟩ ∧ s' = s.setTask t none

def ctxEmpty : CtxSys := ⟨fun _ => none, 0, [], [], fun _ => none, 0⟩

def ctxLts : Lts CtxSys CtxEvent where
  init s := s = ctxEmpty
  step := ctxStep

namespace CtxSys

variable (s : CtxSys)

/-- The contexts that have a handle, and those that a submit has looked up, each as often
as it has. -/
def holders : List CtxId := s.handles.map CtxHandle.ctx ++ s.submits.map CtxSubmit.ctx

/-- The holders that a call leaves. -/
def remaining : CtxEvent → List CtxId
  | .free file id =>
      ((s.lookup file id).elim s.handles s.handles.erase).map CtxHandle.ctx ++
        s.submits.map CtxSubmit.ctx
  | .close file =>
      (s.handles.filter fun h => h.file ≠ file).map CtxHandle.ctx ++
        s.submits.map CtxSubmit.ctx
  | .submitPut i => s.handles.map CtxHandle.ctx ++ (s.submits.eraseIdx i).map CtxSubmit.ctx
  | _ => s.holders

end CtxSys

/-- A context loses its handle and its last submit only when its tasks have been freed. -/
def HeldInFlight (s : CtxSys) (e : CtxEvent) : Prop :=
  ∀ t x, s.task t = some x → x.ctx ∈ s.remaining e

/-! ## The invariant -/

/-- The references of a context are its handles and its submits. -/
structure CtxCounts (s : CtxSys) : Prop where
  refcnt : ∀ c, (s.ctx c).elim 0 LimaCtx.refcnt = s.holders.count c
  fresh : ∀ c, s.numCtxs ≤ c → s.ctx c = none

structure CtxWf (s : CtxSys) : Prop extends CtxCounts s where
  tasks : ∀ t x, s.task t = some x → x.ctx ∈ s.holders

/-- The context of every task in flight is alive. -/
def CtxSys.Held (s : CtxSys) : Prop :=
  ∀ t x, s.task t = some x → ∃ c, s.ctx x.ctx = some c ∧ 0 < c.refcnt

/-! ## Dropping references -/

/-- A reference has been dropped on each context of a list, and nothing else done. -/
structure Puts (cs : List CtxId) (s s' : CtxSys) : Prop where
  same : s' = { s with ctx := s'.ctx }
  refcnt : ∀ c, (s.ctx c).elim 0 LimaCtx.refcnt = (s'.ctx c).elim 0 LimaCtx.refcnt + cs.count c
  absent : ∀ c, s.ctx c = none → s'.ctx c = none

theorem CtxSys.krefPut_spec {s s' : CtxSys} {c : CtxId} (h : s.krefPut c = .ok s') :
    Puts [c] s s' := by
  unfold krefPut at h
  cases hx : s.ctx c with
  | none =>
      rw [hx] at h
      cases h
  | some x =>
      rw [hx] at h
      simp only at h
      split at h
      · cases h
      rename_i hpos
      obtain rfl := Outcome.ok.inj h
      refine ⟨rfl, fun d => ?_, fun d hd => ?_⟩
      · by_cases hdc : d = c
        · subst hdc
          simp [setCtx, hx]
          omega
        · have hne : c ≠ d := fun heq => hdc heq.symm
          simp [setCtx, hdc, hne]
      · have hdc : d ≠ c := by
          rintro rfl
          rw [hx] at hd
          cases hd
        simpa [setCtx, hdc] using hd

theorem Puts.trans {cs ds : List CtxId} {s₁ s₂ s₃ : CtxSys} (h : Puts cs s₁ s₂)
    (h' : Puts ds s₂ s₃) : Puts (cs ++ ds) s₁ s₃ := by
  refine ⟨?_, fun c => ?_, fun c hc => h'.absent c (h.absent c hc)⟩
  · rw [h'.same, h.same]
  · rw [h.refcnt c, h'.refcnt c, List.count_append]
    omega

theorem CtxSys.putAll_spec : ∀ {cs : List CtxId} {s s' : CtxSys},
    putAll cs s = .ok s' → Puts cs s s' := by
  intro cs
  induction cs with
  | nil =>
      intro s s' h
      obtain rfl := Outcome.ok.inj h
      exact ⟨rfl, fun c => by simp, fun c hc => hc⟩
  | cons c cs ih =>
      intro s s' h
      obtain ⟨s₁, hput, hrest⟩ := Outcome.bind_eq_ok h
      exact (krefPut_spec hput).trans (ih hrest)

namespace CtxCounts

variable {s s' : CtxSys}

theorem alive_iff (h : CtxCounts s) (c : CtxId) :
    (∃ x, s.ctx c = some x ∧ 0 < x.refcnt) ↔ c ∈ s.holders := by
  have hcount := h.refcnt c
  rw [← List.count_pos_iff, ← hcount]
  cases hx : s.ctx c with
  | none => simp
  | some x => simp

/-- Holders have let go, and their references have been dropped. -/
theorem puts (h : CtxCounts s) {r : CtxSys} {cs : List CtxId} (hctx : r.ctx = s.ctx)
    (hnum : r.numCtxs = s.numCtxs) (htask : r.task = s.task)
    (hholders : ∀ c, s.holders.count c = r.holders.count c + cs.count c)
    (hput : Puts cs r s') : CtxCounts s' ∧ s'.holders = r.holders ∧ s'.task = s.task := by
  have hsame := hput.same
  have hh : s'.holders = r.holders := by rw [hsame]; rfl
  refine ⟨⟨fun c => ?_, fun c hc => ?_⟩, hh, ?_⟩
  · have hafter := hput.refcnt c
    have hbefore := h.refcnt c
    have hcount := hholders c
    rw [hctx] at hafter
    rw [hh]
    omega
  · refine hput.absent c ?_
    rw [hctx]
    refine h.fresh c ?_
    rw [hsame] at hc
    exact hnum ▸ hc
  · rw [hsame]
    exact htask

theorem free (h : CtxCounts s) {file id : ℕ} {r : Option Errno}
    (hfree : s.limaCtxFree file id = .ok (s', r)) :
    CtxCounts s' ∧ s'.holders = s.remaining (.free file id) ∧ s'.task = s.task := by
  unfold CtxSys.limaCtxFree at hfree
  simp only [CtxSys.remaining]
  cases hfind : s.lookup file id with
  | none =>
      rw [hfind] at hfree
      obtain ⟨rfl, -⟩ := Prod.mk.inj (Outcome.ok.inj hfree)
      exact ⟨h, rfl, rfl⟩
  | some e =>
      rw [hfind] at hfree
      obtain ⟨s₁, hput, hres⟩ := Outcome.bind_eq_ok hfree
      obtain ⟨rfl, -⟩ := Prod.mk.inj (Outcome.ok.inj hres)
      have hmem : e ∈ s.handles := List.mem_of_find?_eq_some hfind
      refine h.puts (r := { s with handles := s.handles.erase e }) rfl rfl rfl (fun c => ?_)
        (CtxSys.krefPut_spec hput)
      have hperm := (List.perm_cons_erase hmem).map CtxHandle.ctx
      have hcount := hperm.count_eq c
      simp only [CtxSys.holders, List.count_append, hcount, List.map_cons, List.count_cons,
        List.count_nil]
      omega

theorem close (h : CtxCounts s) {file : ℕ} (hclose : s.limaCtxMgrFini file = .ok s') :
    CtxCounts s' ∧ s'.holders = s.remaining (.close file) ∧ s'.task = s.task := by
  obtain ⟨s₁, hput, hres⟩ := Outcome.bind_eq_ok hclose
  obtain rfl := Outcome.ok.inj hres
  have hputs := CtxSys.putAll_spec hput
  have hsame := hputs.same
  have hputs' : Puts ((s.handles.filter fun h => h.file = file).map CtxHandle.ctx)
      { s with handles := s.handles.filter fun h => h.file ≠ file }
      { s₁ with handles := s₁.handles.filter fun h => h.file ≠ file } := by
    refine ⟨?_, hputs.refcnt, hputs.absent⟩
    rw [hsame]
  refine h.puts (r := { s with handles := s.handles.filter fun h => h.file ≠ file })
    rfl rfl rfl (fun c => ?_) hputs'
  have hperm := (List.filter_append_perm (fun h => decide (h.file = file)) s.handles).map
    CtxHandle.ctx
  have hcount := hperm.count_eq c
  rw [List.map_append, List.count_append] at hcount
  simp only [CtxSys.holders, List.count_append, ← hcount, decide_not]
  omega

theorem submitPut (h : CtxCounts s) {i : ℕ} {x : CtxSubmit} (hi : s.submits[i]? = some x)
    (hput : { s with submits := s.submits.eraseIdx i }.limaCtxPut x.ctx = .ok s') :
    CtxCounts s' ∧ s'.holders = s.remaining (.submitPut i) ∧ s'.task = s.task := by
  obtain ⟨hlt, hget⟩ := List.getElem?_eq_some_iff.mp hi
  refine h.puts (r := { s with submits := s.submits.eraseIdx i }) rfl rfl rfl (fun c => ?_)
    (CtxSys.krefPut_spec hput)
  have hperm := (List.getElem_cons_eraseIdx_perm hlt).map CtxSubmit.ctx
  rw [hget] at hperm
  have hcount := hperm.count_eq c
  simp only [CtxSys.holders, List.count_append, ← hcount, List.map_cons, List.count_cons,
    List.count_nil]
  omega

/-- The step that drops a reference keeps the contexts of the tasks alive exactly if each
of them still has a holder. -/
theorem held_iff {e : CtxEvent}
    (hdrop : CtxCounts s' ∧ s'.holders = s.remaining e ∧ s'.task = s.task) :
    s'.Held ↔ HeldInFlight s e := by
  obtain ⟨h, hholders, htask⟩ := hdrop
  unfold CtxSys.Held HeldInFlight
  simp only [h.alive_iff, hholders, htask]

end CtxCounts

namespace CtxWf

variable {s s' : CtxSys}

theorem held (h : CtxWf s) : s.Held := fun t x hx => (h.alive_iff x.ctx).mpr (h.tasks t x hx)

/-- A reference has been dropped, and every task's context still has a holder. -/
theorem dropped {e : CtxEvent} (hok : HeldInFlight s e)
    (hdrop : CtxCounts s' ∧ s'.holders = s.remaining e ∧ s'.task = s.task) : CtxWf s' := by
  obtain ⟨hcounts, hholders, htask⟩ := hdrop
  refine ⟨hcounts, fun t x hx => ?_⟩
  rw [hholders]
  rw [htask] at hx
  exact hok t x hx

/-- A task moves on in its context, or is freed. -/
theorem setTask (h : CtxWf s) {t : ℕ} {x : Option CtxTask}
    (hx : ∀ y, x = some y → y.ctx ∈ s.holders) : CtxWf (s.setTask t x) := by
  refine ⟨⟨h.refcnt, h.fresh⟩, fun u y hu => ?_⟩
  by_cases hut : u = t
  · subst hut
    exact hx y (by simpa [CtxSys.setTask] using hu)
  · exact h.tasks u y (by simpa [CtxSys.setTask, hut] using hu)

theorem moveTask (h : CtxWf s) {t : ℕ} {c : CtxId} {p q : CtxTaskPhase}
    (ht : s.task t = some ⟨c, p⟩) : CtxWf (s.setTask t (some ⟨c, q⟩)) := by
  have hmem : c ∈ s.holders := h.tasks t _ ht
  refine h.setTask fun y hy => ?_
  obtain rfl := Option.some.inj hy
  exact hmem

theorem create (h : CtxWf s) (file : ℕ) (env : CtxCreateEnv) :
    CtxWf (s.limaCtxCreate file env).1 := by
  unfold CtxSys.limaCtxCreate
  split
  · exact h
  split
  · exact h
  split
  · exact h
  rename_i id hxa
  have hnone := h.fresh s.numCtxs le_rfl
  refine ⟨⟨fun c => ?_, fun c hc => ?_⟩, fun t x hx => ?_⟩
  · have hcount := h.refcnt c
    change ((Function.update s.ctx s.numCtxs (some ⟨1, env.pname, env.pid⟩)) c).elim 0
      LimaCtx.refcnt = (s.numCtxs :: s.holders).count c
    by_cases hc : c = s.numCtxs
    · subst hc
      rw [hnone, Option.elim_none] at hcount
      simp [← hcount]
    · have hne : s.numCtxs ≠ c := fun heq => hc heq.symm
      rw [Function.update_of_ne hc, hcount, List.count_cons_of_ne hne]
  · have hlt : s.numCtxs + 1 ≤ c := hc
    have hne : c ≠ s.numCtxs := (Nat.lt_of_succ_le hlt).ne'
    change Function.update s.ctx s.numCtxs _ c = none
    rw [Function.update_of_ne hne]
    exact h.fresh c (Nat.le_of_succ_le hlt)
  · exact List.mem_cons_of_mem _ (h.tasks t x hx)

theorem submitGet (h : CtxWf s) {file id : ℕ} {s₁ : CtxSys} {r : Option CtxId}
    (hget : s.limaCtxGet file id = .ok (s₁, r)) :
    CtxWf (r.elim s₁ fun c => { s₁ with submits := ⟨c, false⟩ :: s₁.submits }) := by
  unfold CtxSys.limaCtxGet at hget
  split at hget
  · obtain ⟨rfl, rfl⟩ := Prod.mk.inj (Outcome.ok.inj hget)
    exact h
  rename_i e hfind
  split at hget
  · cases hget
  rename_i x hx
  obtain ⟨rfl, rfl⟩ := Prod.mk.inj (Outcome.ok.inj hget)
  have hperm : ∀ c, (s.handles.map CtxHandle.ctx ++ e.ctx :: s.submits.map CtxSubmit.ctx).count
      c = s.holders.count c + if e.ctx = c then 1 else 0 := by
    intro c
    simp [CtxSys.holders, List.count_append, List.count_cons]
    omega
  refine ⟨⟨fun c => ?_, fun c hc => ?_⟩, fun t y hy => ?_⟩
  · have hcount := h.refcnt c
    change (Function.update s.ctx e.ctx (some _) c).elim 0 LimaCtx.refcnt =
      (s.handles.map CtxHandle.ctx ++ e.ctx :: s.submits.map CtxSubmit.ctx).count c
    rw [hperm c, ← hcount]
    by_cases hec : e.ctx = c
    · subst hec
      simp [hx]
    · have hce : c ≠ e.ctx := fun heq => hec heq.symm
      simp [hec, hce]
  · have hne : c ≠ e.ctx := by
      rintro rfl
      rw [h.fresh e.ctx hc] at hx
      cases hx
    change Function.update s.ctx e.ctx _ c = none
    rw [Function.update_of_ne hne]
    exact h.fresh c hc
  · have hmem := h.tasks t y hy
    change y.ctx ∈ s.handles.map CtxHandle.ctx ++ e.ctx :: s.submits.map CtxSubmit.ctx
    rcases List.mem_append.mp hmem with hl | hr
    · exact List.mem_append_left _ hl
    · exact List.mem_append_right _ (List.mem_cons_of_mem _ hr)

theorem push (h : CtxWf s) {i : ℕ} {c : CtxId} (hi : s.submits[i]? = some ⟨c, false⟩) :
    CtxWf { s.setTask s.numTasks (some ⟨c, .queued⟩) with
      numTasks := s.numTasks + 1
      submits := s.submits.set i ⟨c, true⟩ } := by
  have hmap : (s.submits.set i ⟨c, true⟩).map CtxSubmit.ctx = s.submits.map CtxSubmit.ctx := by
    rw [List.map_set]
    apply List.ext_getElem?
    intro j
    rw [List.getElem?_set]
    split
    · rename_i hij
      subst hij
      obtain ⟨hlt, hget⟩ := List.getElem?_eq_some_iff.mp hi
      simp [hget, hlt]
    · rfl
  have hmem : c ∈ s.holders := by
    refine List.mem_append_right _ (List.mem_map.mpr ⟨_, List.mem_of_getElem? hi, rfl⟩)
  have htask := h.setTask (t := s.numTasks) (x := some ⟨c, .queued⟩) (by
    intro y hy
    obtain rfl := Option.some.inj hy
    exact hmem)
  have hholders : ({ s.setTask s.numTasks (some ⟨c, .queued⟩) with
      numTasks := s.numTasks + 1
      submits := s.submits.set i ⟨c, true⟩ } : CtxSys).holders = s.holders := by
    change s.handles.map CtxHandle.ctx ++ (s.submits.set i ⟨c, true⟩).map CtxSubmit.ctx = _
    rw [hmap]
    rfl
  refine ⟨⟨fun d => ?_, htask.fresh⟩, fun t x hx => ?_⟩
  · rw [hholders]
    exact h.refcnt d
  · rw [hholders]
    exact htask.tasks t x hx

theorem step (h : CtxWf s) {e : CtxEvent} (hok : HeldInFlight s e) (hstep : ctxStep s e s') :
    CtxWf s' := by
  cases e with
  | create file env =>
      obtain rfl := hstep
      exact h.create file env
  | free file id =>
      obtain ⟨r, hfree⟩ := hstep
      exact .dropped hok (h.free hfree)
  | close file => exact .dropped hok (h.close hstep)
  | released c =>
      obtain ⟨x, hx, hzero, -, rfl⟩ := hstep
      refine ⟨⟨fun d => ?_, fun d hd => ?_⟩, h.tasks⟩
      · change (Function.update s.ctx c none d).elim 0 LimaCtx.refcnt = s.holders.count d
        rw [← h.refcnt d]
        by_cases hdc : d = c
        · subst hdc
          simp [hx, hzero]
        · rw [Function.update_of_ne hdc]
      · change Function.update s.ctx c none d = none
        by_cases hdc : d = c
        · subst hdc
          rw [Function.update_self]
        · rw [Function.update_of_ne hdc]
          exact h.fresh d hd
  | submitGet file id =>
      obtain ⟨s₁, r, hget, rfl⟩ := hstep
      exact h.submitGet hget
  | push i =>
      obtain ⟨c, hi, rfl⟩ := hstep
      exact h.push hi
  | submitPut i =>
      obtain ⟨x, hi, hput⟩ := hstep
      exact .dropped hok (h.submitPut hi hput)
  | dispatch t =>
      obtain ⟨c, ht, rfl⟩ := hstep
      exact h.moveTask ht
  | kill t =>
      obtain ⟨c, x, ht, -, -, rfl⟩ := hstep
      exact h.moveTask ht
  | timeout t =>
      obtain ⟨x, r, -, -, -, rfl⟩ := hstep
      exact h
  | finish t =>
      obtain ⟨c, ht, rfl⟩ := hstep
      exact h.moveTask ht
  | freeJob t =>
      obtain ⟨c, ht, rfl⟩ := hstep
      exact h.setTask nofun

theorem of_via (h : ctxLts.Via HeldInFlight s) : CtxWf s := by
  refine h.invariant (fun s hs => ?_) fun s e s' _ hi hok hstep => hi.step hok hstep
  obtain rfl : s = _ := hs
  exact ⟨⟨fun c => rfl, fun c _ => rfl⟩, nofun⟩

end CtxWf

/-! ## Main result -/

/-- **Main result.** As long as a context with a task in flight keeps a handle or a
submit, it is not released while one of its tasks is in flight, and its name can be read
when the task times out; a call that takes the last of them releases it all the same. -/
theorem ctx_outlives_tasks {s : CtxSys} (h : ctxLts.Via HeldInFlight s) :
    s.Held ∧
    (∀ t x, s.task t = some x → ∃ r, s.limaSchedBuildErrorTaskList x = .ok r) ∧
    ∀ e s', ctxStep s e s' → (s'.Held ↔ HeldInFlight s e) := by
  have hwf := CtxWf.of_via h
  refine ⟨hwf.held, fun t x hx => ?_, fun e s' hstep => ?_⟩
  · obtain ⟨c, hc, -⟩ := hwf.held t x hx
    unfold CtxSys.limaSchedBuildErrorTaskList
    rw [hc]
    exact ⟨_, rfl⟩
  · have hkeep : s.remaining e = s.holders → (s'.Held ↔ HeldInFlight s e) := by
      intro heq
      have hok : HeldInFlight s e := by
        unfold HeldInFlight
        rw [heq]
        exact hwf.tasks
      exact ⟨fun _ => hok, fun _ => (hwf.step hok hstep).held⟩
    cases e with
    | free file id =>
        obtain ⟨r, hfree⟩ := hstep
        exact CtxCounts.held_iff (hwf.free hfree)
    | close file => exact CtxCounts.held_iff (hwf.close hstep)
    | submitPut i =>
        obtain ⟨x, hi, hput⟩ := hstep
        exact CtxCounts.held_iff (hwf.submitPut hi hput)
    | _ => exact hkeep rfl

/-! ## One task -/

def ctxEnvOk : CtxCreateEnv := ⟨true, none, none, .ok 0, "app", 1⟩

/-- A context is created, a submit looks it up and pushes a task. -/
def oneTask : CtxSys where
  ctx := Function.update (Function.update (fun _ => none) 0 (some ⟨1, "app", 1⟩)) 0
    (some ⟨2, "app", 1⟩)
  numCtxs := 1
  handles := [⟨0, 0, 0⟩]
  submits := [⟨0, true⟩]
  task := Function.update (fun _ => none) 0 (some ⟨0, .queued⟩)
  numTasks := 1

theorem oneTask_via : ctxLts.Via HeldInFlight oneTask := by
  have v₀ : ctxLts.Via HeldInFlight ctxEmpty := .init rfl
  have v₁ := Lts.Via.step (a := CtxEvent.create 0 ctxEnvOk) v₀ nofun rfl
  have v₂ := Lts.Via.step (a := CtxEvent.submitGet 0 0) v₁ nofun ⟨_, _, rfl, rfl⟩
  exact Lts.Via.step (a := CtxEvent.push 0) v₂ nofun ⟨0, rfl, rfl⟩

theorem ctx_outlives_tasks_oneTask : oneTask.task 0 = some ⟨0, .queued⟩ ∧ oneTask.Held :=
  ⟨rfl, (ctx_outlives_tasks oneTask_via).1⟩

/-- The task is at the hardware when its context is freed: the timeout reads freed
memory. -/
theorem ctx_freed_in_flight : ∃ s, ctxLts.Reachable s ∧ s.task 0 = some ⟨0, .running⟩ ∧
    s.limaSchedBuildErrorTaskList ⟨0, .running⟩ = .oops := by
  have r₀ := oneTask_via.reachable
  have r₁ := r₀.step (a := CtxEvent.submitPut 0) ⟨_, rfl, rfl⟩
  have r₂ := r₁.step (a := CtxEvent.dispatch 0) ⟨0, rfl, rfl⟩
  have r₃ := r₂.step (a := CtxEvent.free 0 0) ⟨_, rfl⟩
  obtain ⟨s, r, hctx, htask⟩ : ∃ s, ctxLts.Reachable s ∧ s.ctx 0 = some ⟨0, "app", 1⟩ ∧
      s.task = Function.update oneTask.task 0 (some ⟨0, .running⟩) := ⟨_, r₃, rfl, rfl⟩
  have hqueue : ¬ s.Queued 0 := by
    rintro ⟨t, ht⟩
    rw [htask] at ht
    by_cases h : t = 0
    · subst h
      cases ht
    · simp [oneTask, h] at ht
  have r₄ := r.step (a := CtxEvent.released 0) ⟨_, hctx, rfl, hqueue, rfl⟩
  refine ⟨_, r₄, ?_, ?_⟩
  · change s.task 0 = _
    rw [htask]
    rfl
  · rfl

end Lima
