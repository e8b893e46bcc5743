import Lima.Sched.Moves

/-!
# What the scheduler keeps consistent

The invariant of all runs, whatever the interleaving: who the current task of a
pipe is, which fence belongs to which task, which callbacks are attached, and that a
running unit works on a task whose fence is not signalled. The claims about single
paths add their own condition to it.
-/

namespace Lima

namespace Task.SameButHeap

variable {x x' : Task} (h : x.SameButHeap x')

include h

theorem pipe : x'.pipe = x.pipe := by rw [h]
theorem state : x'.state = x.state := by rw [h]
theorem vm : x'.vm = x.vm := by rw [h]
theorem bos : x'.bos = x.bos := by rw [h]
theorem fence : x'.fence = x.fence := by rw [h]
theorem finished : x'.finished = x.finished := by rw [h]
theorem finishedError : x'.finishedError = x.finishedError := by rw [h]
theorem hwDone : x'.hwDone = x.hwDone := by rw [h]
theorem undispatched : x'.undispatched = x.undispatched := by rw [h]

end Task.SameButHeap

/-- The task the pipe was handed last is not retired: its fence is not signalled. -/
def Dev.inFlight (d : Dev) (p : PipeId) : Bool :=
  match (d.pipe p).currentTask with
  | none => false
  | some t =>
      match (d.task t).fence with
      | none => false
      | some f => !(d.fence f).signaled

/-- The bookkeeping of pipes, tasks and fences. -/
structure SchedWf (d : Dev) : Prop where
  tasks : d.TasksWf
  current : ∀ p t, (d.pipe p).currentTask = some t → (d.task t).pipe = p ∧
    ((d.task t).state = .pending ∨ (d.task t).state = .freed)
  checked : ∀ p t, (d.pipe p).fini = .checked (some t) → (d.task t).pipe = p ∧
    ((d.task t).state = .pending ∨ (d.task t).state = .freed)
  fenceLt : ∀ t f, (d.task t).fence = some f → f < d.numFences
  fenceInj : ∀ t u f, (d.task t).fence = some f → (d.task u).fence = some f → t = u
  cb : ∀ f t, (d.fence f).cb = some t → (d.task t).fence = some f ∧
    (d.fence f).signaled = false ∧ (d.task t).state = .pending ∧
    (d.task t).finished = false
  running : ∀ p t, (d.pipe p).currentTask = some t → d.inFlight p = true →
    (d.task t).state = .pending ∧ (d.task t).finished = false
  unrun : ∀ t, (d.task t).state.PreRun ∨ (d.task t).state = .queued → (d.task t).Unrun
  cleared : ∀ p t, (d.pipe p).timedout = some (t, .cleared) →
    (d.pipe p).currentTask = none
  held : ∀ p, (d.pipe p).Held → ∀ f t, (d.fence f).cb = some t → (d.task t).pipe ≠ p
  busy : ∀ p, 0 < (d.pipe p).running → (d.pipe p).currentTask ≠ none →
    d.inFlight p = true
  ppCount : (d.pipe .pp).error = false → (d.pipe .pp).running ≤ (d.pipe .pp).task

namespace Dev

variable {d d' : Dev} {p : PipeId}

theorem inFlight_iff : d.inFlight p = true ↔ ∃ t f, (d.pipe p).currentTask = some t ∧
    (d.task t).fence = some f ∧ (d.fence f).signaled = false := by
  unfold inFlight
  cases hc : (d.pipe p).currentTask with
  | none => simp
  | some t =>
      cases hf : (d.task t).fence with
      | none => simp [hf]
      | some f => simp [hf]

theorem inFlight_of_none (h : (d.pipe p).currentTask = none) : d.inFlight p = false := by
  simp [inFlight, h]

/-- Whether a task is in flight depends on the current task, its fence and that
fence. -/
theorem inFlight_congr (hc : (d'.pipe p).currentTask = (d.pipe p).currentTask)
    (hf : ∀ t, (d.pipe p).currentTask = some t → (d'.task t).fence = (d.task t).fence)
    (hs : ∀ t f, (d.pipe p).currentTask = some t → (d.task t).fence = some f →
      (d'.fence f).signaled = (d.fence f).signaled) :
    d'.inFlight p = d.inFlight p := by
  unfold inFlight
  rw [hc]
  cases hcur : (d.pipe p).currentTask with
  | none => rfl
  | some t =>
      simp only [hf t hcur]
      cases hfence : (d.task t).fence with
      | none => rfl
      | some f => simp only [hs t f hcur hfence]

theorem Quiet.inFlight (q : d.Quiet d') (p : PipeId) : d'.inFlight p = d.inFlight p :=
  inFlight_congr (q.pipe p).currentTask (fun t _ => (q.task t).fence)
    fun _ f _ _ => q.signaled f

end Dev

namespace SchedWf

open Dev

variable {d d' : Dev} {p : PipeId}

/-- The start of a run. -/
theorem boot (s : Sys) : SchedWf (.boot s) where
  tasks := ⟨fun _ _ => ⟨rfl, rfl⟩, nofun⟩
  current := nofun
  checked := nofun
  fenceLt := nofun
  fenceInj := nofun
  cb := nofun
  running := nofun
  unrun _ _ := ⟨rfl, rfl, rfl, rfl, rfl⟩
  cleared := nofun
  held _ h := by
    obtain ⟨t, pc, ht, -⟩ := h
    cases ht
  busy _ h := absurd h (Nat.lt_irrefl 0)
  ppCount _ := le_rfl

theorem quiet (h : SchedWf d) (q : d.Quiet d') : SchedWf d' where
  tasks :=
    { fresh := fun t ht => by
        rw [q.numTasks] at ht
        rw [(q.task t).state, q.submit]
        exact h.tasks.fresh t ht
      submit := fun t sm hsm => by
        rw [q.submit] at hsm
        rw [(q.task t).state]
        exact h.tasks.submit t sm hsm }
  current p t hc := by
    rw [(q.pipe p).currentTask] at hc
    rw [(q.task t).pipe, (q.task t).state]
    exact h.current p t hc
  checked p t hc := by
    rw [(q.task t).pipe, (q.task t).state]
    rcases (q.pipe p).checked t hc with hold | hnew
    · exact h.checked p t hold
    · exact h.current p t hnew
  fenceLt t f hf := by
    rw [(q.task t).fence] at hf
    rw [q.numFences]
    exact h.fenceLt t f hf
  fenceInj t u f ht hu := by
    rw [(q.task t).fence] at ht
    rw [(q.task u).fence] at hu
    exact h.fenceInj t u f ht hu
  cb f t hcb := by
    rw [(q.task t).fence, q.signaled, (q.task t).state, (q.task t).finished]
    rcases q.cb f with hnone | hsame
    · rw [hnone] at hcb
      cases hcb
    · exact h.cb f t (hsame ▸ hcb)
  running p t hc hfl := by
    rw [(q.pipe p).currentTask] at hc
    rw [q.inFlight] at hfl
    rw [(q.task t).state, (q.task t).finished]
    exact h.running p t hc hfl
  unrun t ht := by
    rw [(q.task t).state] at ht
    obtain ⟨h₁, h₂, h₃, h₄, h₅⟩ := h.unrun t ht
    exact ⟨(q.task t).fence.trans h₁, (q.task t).finished.trans h₂,
      (q.task t).finishedError.trans h₃, (q.task t).hwDone.trans h₄,
      (q.task t).undispatched.trans h₅⟩
  cleared p t ht := by
    rw [(q.pipe p).currentTask]
    exact h.cleared p t ((q.pipe p).cleared t ht)
  held p hh f t hcb := by
    rcases q.held p hh with hold | hnew
    · rw [(q.task t).pipe]
      rcases q.cb f with hnone | hsame
      · rw [hnone] at hcb
        cases hcb
      · exact h.held p hold f t (hsame ▸ hcb)
    · exact hnew f t hcb
  busy p hr hc := by
    rw [(q.pipe p).currentTask] at hc
    rw [q.inFlight]
    exact h.busy p (hr.trans_le (q.pipe p).running) hc
  ppCount he := by
    obtain ⟨he, hle⟩ := q.ppCount he
    exact hle (h.ppCount he)

/-- A task that is not pushed is on no pipe and attached to no fence. -/
theorem idle_of_preRun (h : SchedWf d) {t : TaskId} (ht : (d.task t).state.PreRun) :
    (∀ p, (d.pipe p).currentTask ≠ some t) ∧ ∀ f, (d.fence f).cb ≠ some t := by
  constructor
  · intro p hc
    rcases (h.current p t hc).2 with hst | hst <;>
      rcases ht with h' | h' | h' <;> rw [hst] at h' <;> cases h'
  · intro f hcb
    have hst := (h.cb f t hcb).2.2.1
    rcases ht with h' | h' | h' <;> rw [hst] at h' <;> cases h'

theorem user_current (h : SchedWf d) (m : d.UserMove d') {t : TaskId}
    (hc : (d.pipe p).currentTask = some t) : d'.task t = d.task t := by
  rcases m.task t with hsame | ⟨hpre, -⟩
  · exact hsame
  · exact absurd hc ((h.idle_of_preRun hpre).1 p)

theorem user_inFlight (h : SchedWf d) (m : d.UserMove d') (p : PipeId) :
    d'.inFlight p = d.inFlight p :=
  inFlight_congr (congrArg (fun x => (x p).currentTask) m.pipe)
    (fun _ hc => congrArg Task.fence (h.user_current m hc))
    fun _ f _ _ => congrArg (fun x => (x f).signaled) m.fence

/-- A user's step keeps the bookkeeping, since the tasks it moves are on no pipe. -/
theorem user (h : SchedWf d) (m : d.UserMove d') (hw : d'.TasksWf) : SchedWf d' := by
  have hcur : ∀ p t, (d.pipe p).currentTask = some t → d'.task t = d.task t :=
    fun p t hc => h.user_current m hc
  have hatt : ∀ f t, (d.fence f).cb = some t → d'.task t = d.task t := by
    intro f t hcb
    rcases m.task t with hsame | ⟨hpre, -⟩
    · exact hsame
    · exact absurd hcb ((h.idle_of_preRun hpre).2 f)
  have hrun : ∀ t f, (d'.task t).fence = some f → d'.task t = d.task t := by
    intro t f hf
    rcases m.task t with hsame | ⟨hpre, -, hun⟩
    · exact hsame
    · rw [(hun (h.unrun t (.inl hpre))).fence] at hf
      cases hf
  have hfl : ∀ p, d'.inFlight p = d.inFlight p := h.user_inFlight m
  refine ⟨hw, fun p t hc => ?_, fun p t hc => ?_, fun t f hf => ?_, fun t u f ht hu => ?_, fun f t hcb => ?_,
    fun p t hc hf => ?_, fun t ht => ?_, fun p t ht => ?_, fun p hh f t hcb => ?_,
    fun p hr hc => ?_, fun he => ?_⟩
  · rw [m.pipe] at hc
    rw [hcur p t hc]
    exact h.current p t hc
  · rw [m.pipe] at hc
    have hst := h.checked p t hc
    rcases m.task t with hsame | ⟨hpre, -⟩
    · rwa [hsame]
    · rcases hst.2 with hst | hst <;>
        rcases hpre with h' | h' | h' <;> rw [hst] at h' <;> cases h'
  · rw [hrun t f hf] at hf
    rw [m.numFences]
    exact h.fenceLt t f hf
  · rw [hrun t f ht] at ht
    rw [hrun u f hu] at hu
    exact h.fenceInj t u f ht hu
  · rw [m.fence] at hcb ⊢
    rw [hatt f t hcb]
    exact h.cb f t hcb
  · rw [m.pipe] at hc
    rw [hfl] at hf
    rw [hcur p t hc]
    exact h.running p t hc hf
  · rcases m.task t with hsame | ⟨hpre, -, hun⟩
    · rw [hsame] at ht ⊢
      exact h.unrun t ht
    · exact hun (h.unrun t (.inl hpre))
  · rw [m.pipe] at ht ⊢
    exact h.cleared p t ht
  · rw [m.pipe] at hh
    rw [m.fence] at hcb
    rw [hatt f t hcb]
    exact h.held p hh f t hcb
  · rw [m.pipe] at hr hc
    rw [hfl]
    exact h.busy p hr hc
  · rw [m.pipe] at he ⊢
    exact h.ppCount he

end SchedWf

end Lima
