import Lima.Device.PpIrq

/-!
# The broadcast interrupt and the dispatch of a task

On a Mali-450 one handler serves all PP cores. It takes a core for finished if the core has
an interrupt pending or is not rendering, and it looks at the cores of `pipe->current_task`
as soon as that is set. `lima_sched_run_job` sets it long before `lima_pp_task_run` writes
`START_RENDERING`, and the line is shared, so the handler may run at any time in between.
Every access of the handler and every step of the dispatch is a step here.
-/

namespace Lima

/-! ## The pipe -/

/-- The registers of a PP core: `RENDERING_ACTIVE` of `STATUS`, `INT_RAWSTAT`, and whether
`INT_MASK` lets interrupts through. -/
structure BcastCore where
  rendering : Bool
  raw : IrqBits
  unmasked : Bool

/-- `INT_STATUS`. -/
def BcastCore.intStatus (x : BcastCore) : IrqBits := if x.unmasked then x.raw else .none

/-- The next access of the handler: the loop's tests for core `i` of `n`, its reads of
`STATUS` and `INT_STATUS`, `lima_pp_handle_irq`, `pipe->done |= 1 << i`, the decrement of
`pipe->task`, the call of `lima_sched_pipe_task_done`. -/
inductive BcastPc where
  | idle
  | head (n i : ℕ)
  | status (n i : ℕ)
  | intStatus (n i : ℕ) (rendering : Bool)
  | handle (n i : ℕ) (state : IrqBits)
  | mark (n i : ℕ)
  | dec (n i : ℕ)
  | done (n i : ℕ)
deriving DecidableEq, Repr

/-- The next step of the dispatch, from `lima_sched_run_job`'s `pipe->error = false` on. The
flush of the L2 cache and the switch of the MMUs before it, and the writes of the frame
before the start, touch nothing the handler looks at. -/
inductive DispatchPc where
  | clearError
  | clearDone
  | setTask
  | wait (i : ℕ)
  | start
  | finished
deriving DecidableEq, Repr

/-- A PP pipe with a broadcast IP while `current_task` is a task on `numPp` cores.
`asyncReset` is the flag of the broadcast IP. `started` is not stored: the cores that
`START_RENDERING` has been written to for the task. -/
structure BcastRun where
  numPp : ℕ
  done : Finset ℕ
  task : ℤ
  error : Bool
  asyncReset : Bool
  core : ℕ → BcastCore
  pc : BcastPc
  dispatch : DispatchPc
  started : ℕ → Bool

namespace BcastRun

/-- `lima_sched_pipe_task_done`, as far as the cores see it: after a success `task_fini`
masks them, unless a reset is pending. -/
def taskDone (reach : ℕ → Bool) (s : BcastRun) : BcastRun :=
  if s.error || s.asyncReset then s
  else { s with
    asyncReset := true
    core := fun i =>
      if reach i then { s.core i with unmasked := false } else s.core i }

/-- `lima_pp_handle_irq` on core `i`. -/
def handleIrq (s : BcastRun) (i : ℕ) (state : IrqBits) : BcastRun :=
  { s with
    error := s.error || state.error
    core := Function.update s.core i { s.core i with
      unmasked := (s.core i).unmasked && !state.error
      raw := (s.core i).raw.clear state } }

/-- The next access of `lima_pp_bcast_irq_handler`, or its invocation. -/
def handler (reach : ℕ → Bool) (s : BcastRun) : BcastRun :=
  match s.pc with
  | .idle => { s with pc := .head s.numPp 0 }
  | .head n i =>
      if i < n then { s with pc := if i ∈ s.done then .head n (i + 1) else .status n i }
      else { s with pc := .idle }
  | .status n i => { s with pc := .intStatus n i (s.core i).rendering }
  | .intStatus n i rendering =>
      if (s.core i).intStatus.any then { s with pc := .handle n i (s.core i).intStatus }
      else { s with pc := if rendering then .head n (i + 1) else .mark n i }
  | .handle n i state => { s.handleIrq i state with pc := .mark n i }
  | .mark n i => { s with
      done := insert i s.done
      pc := .dec n i }
  | .dec n i => { s with
      task := s.task - 1
      pc := if s.task - 1 = 0 then .done n i else .head n (i + 1) }
  | .done n i => { s.taskDone reach with pc := .head n (i + 1) }

/-- The next step of the dispatch; `resetOk` says whether a poll for the end of a soft reset
ends in time. -/
def dispatchStep (reach : ℕ → Bool) (s : BcastRun) (resetOk : Bool) : Option BcastRun :=
  match s.dispatch with
  | .clearError => some { s with
      error := false
      dispatch := .clearDone }
  | .clearDone => some { s with
      done := ∅
      dispatch := .setTask }
  | .setTask => some { s with
      task := s.numPp
      dispatch := if s.asyncReset then .wait 0 else .start }
  | .wait i =>
      if i < s.numPp then
        some { s with
          core := if resetOk then Function.update s.core i { s.core i with
              raw := .none
              unmasked := true }
            else s.core
          dispatch := .wait (i + 1) }
      else some { s with
        asyncReset := false
        dispatch := .start }
  | .start => some { s with
      core := fun i =>
        if reach i then { s.core i with rendering := true } else s.core i
      started := reach
      dispatch := .finished }
  | .finished => none

end BcastRun

inductive BcastEvent where
  | dispatch (resetOk : Bool)
  | handler
  | finish (i : ℕ)
  | raise (i : ℕ) (stops : Bool)

/-- The next event: the dispatch or the handler goes on, a core ends its frame, a core
raises an error, with which it stops rendering or not. -/
def bcastStep (reach : ℕ → Bool) (s : BcastRun) : BcastEvent → Option BcastRun
  | .dispatch resetOk => s.dispatchStep reach resetOk
  | .handler => some (s.handler reach)
  | .finish i =>
      if (s.core i).rendering then
        some { s with core := Function.update s.core i { s.core i with
          rendering := false
          raw := { (s.core i).raw with eof := true } } }
      else none
  | .raise i stops =>
      if (s.core i).rendering then
        some { s with core := Function.update s.core i { s.core i with
          rendering := !stops
          raw := { (s.core i).raw with error := true } } }
      else none

/-- Runs of one task from the moment `current_task` is set, whatever the last one has left
behind; an earlier invocation of the handler may still be in its loop. `reach` are the cores
that a write through the broadcast IP reaches. -/
def bcastLts (reach : ℕ → Bool) : Lts BcastRun BcastEvent where
  init s := 0 < s.numPp ∧ s.dispatch = .clearError ∧ (∀ i, s.started i = false) ∧
    (s.pc = .idle ∨ ∃ n i, s.pc = .head n i)
  step s e s' := bcastStep reach s e = some s'

/-! ## What is promised -/

/-- A core when it is marked or counted. -/
structure Mark where
  core : ℕ
  started : Bool
  rendering : Bool

/-- The marks in `pipe->done` and the decrements of `pipe->task` so far, and for each call of
`lima_sched_pipe_task_done` whether `START_RENDERING` had been written. -/
structure BcastLog where
  marks : List Mark
  counts : List Mark
  dones : List Bool

def BcastRun.markOf (s : BcastRun) (i : ℕ) : Mark := ⟨i, s.started i, (s.core i).rendering⟩

/-- Record what the handler is about to do. -/
def logBcast (l : BcastLog) (s : BcastRun) : BcastEvent → BcastLog
  | .handler =>
      match s.pc with
      | .mark _ i => { l with marks := s.markOf i :: l.marks }
      | .dec _ i => { l with counts := s.markOf i :: l.counts }
      | .done _ _ => { l with dones := decide (s.dispatch = .finished) :: l.dones }
      | _ => l
  | _ => l

/-- The runs with that record. -/
def loggedLts (reach : ℕ → Bool) : Lts (BcastRun × BcastLog) BcastEvent :=
  (bcastLts reach).record ⟨[], [], []⟩ logBcast

/-- Started for the task, and no longer rendering. -/
def Mark.Right (m : Mark) : Prop := m.started = true ∧ m.rendering = false

/-- **Cores are marked and counted once, when they have been started and have stopped
rendering, and the task is not reported before the start.** -/
structure CountedRight (l : BcastLog) : Prop where
  marksOnce : (l.marks.map Mark.core).Nodup
  countsOnce : (l.counts.map Mark.core).Nodup
  marks : ∀ m ∈ l.marks, m.Right
  counts : ∀ m ∈ l.counts, m.Right
  dones : ∀ d ∈ l.dones, d = true

/-- The condition: the handler finds no bit of `pipe->done` clear whose core has not been
started for the task; and a core whose interrupt it reads has stopped rendering. -/
def HandlerInTime (s : BcastRun) : BcastEvent → Prop
  | .handler =>
      match s.pc with
      | .head n i => i < n → i ∉ s.done → s.started i = true
      | .intStatus _ i _ => (s.core i).intStatus.any = true → (s.core i).rendering = false
      | _ => True
  | _ => True

/-! ## The invariant -/

/-- What the handler knows of the core it is at. -/
def BcastRun.PcOk (s : BcastRun) (l : BcastLog) : Prop :=
  match s.pc with
  | .idle | .head _ _ => True
  | .status _ i => s.started i = true ∧ i ∉ s.done
  | .intStatus _ i rendering => s.started i = true ∧ i ∉ s.done ∧
      (rendering = false → (s.core i).rendering = false)
  | .handle _ i _ | .mark _ i =>
      s.started i = true ∧ i ∉ s.done ∧ (s.core i).rendering = false
  | .dec _ i => s.started i = true ∧ i ∈ s.done ∧ (s.core i).rendering = false ∧
      i ∉ l.counts.map Mark.core
  | .done _ i => s.started i = true

structure BcastInv (s : BcastRun) (l : BcastLog) : Prop extends CountedRight l where
  begun : ∀ i, s.started i = true → s.dispatch = .finished
  marked : ∀ m ∈ l.marks, m.core ∈ s.done
  counted : ∀ m ∈ l.counts, m.core ∈ s.done
  early : s.dispatch ≠ .finished → l.marks = [] ∧ l.counts = []
  pc : s.PcOk l

section Steps

variable {reach : ℕ → Bool} {s s' : BcastRun} {l : BcastLog}

theorem BcastInv.init (hinit : (bcastLts reach).init s) : BcastInv s ⟨[], [], []⟩ := by
  obtain ⟨-, -, hstarted, hpc⟩ := hinit
  refine ⟨⟨List.nodup_nil, List.nodup_nil, ?_, ?_, ?_⟩, fun i hi => ?_, ?_, ?_,
    fun _ => ⟨rfl, rfl⟩, ?_⟩
  · exact fun _ hm => absurd hm List.not_mem_nil
  · exact fun _ hm => absurd hm List.not_mem_nil
  · exact fun _ hd => absurd hd List.not_mem_nil
  · rw [hstarted i] at hi
    cases hi
  · exact fun _ hm => absurd hm List.not_mem_nil
  · exact fun _ hm => absurd hm List.not_mem_nil
  · rcases hpc with hpc | ⟨n, i, hpc⟩ <;> simp [BcastRun.PcOk, hpc]

/-- Core registers change, and no core starts rendering. -/
theorem BcastInv.hardware (h : BcastInv s l) {core : ℕ → BcastCore}
    (hcore : ∀ i, (s.core i).rendering = false → (core i).rendering = false) :
    BcastInv { s with core := core } l := by
  refine ⟨h.toCountedRight, h.begun, h.marked, h.counted, h.early, ?_⟩
  have hpc := h.pc
  unfold BcastRun.PcOk at hpc ⊢
  cases hat : s.pc with
  | idle | head n i => trivial
  | status n i | done n i =>
      rw [hat] at hpc
      exact hpc
  | intStatus n i rendering =>
      rw [hat] at hpc
      exact ⟨hpc.1, hpc.2.1, fun hr => hcore i (hpc.2.2 hr)⟩
  | handle n i state | mark n i =>
      rw [hat] at hpc
      exact ⟨hpc.1, hpc.2.1, hcore i hpc.2.2⟩
  | dec n i =>
      rw [hat] at hpc
      exact ⟨hpc.1, hpc.2.1, hcore i hpc.2.2.1, hpc.2.2.2⟩

/-- While the dispatch goes on, the handler is at no core. -/
theorem BcastInv.pc_early (h : BcastInv s l) (hearly : s.dispatch ≠ .finished) :
    s.pc = .idle ∨ ∃ n i, s.pc = .head n i := by
  have hpc := h.pc
  unfold BcastRun.PcOk at hpc
  cases hat : s.pc with
  | idle => exact .inl rfl
  | head n i => exact .inr ⟨n, i, rfl⟩
  | status n i | intStatus n i _ | handle n i _ | mark n i | dec n i =>
      rw [hat] at hpc
      exact absurd (h.begun i hpc.1) hearly
  | done n i =>
      rw [hat] at hpc
      exact absurd (h.begun i hpc) hearly

/-- A step of the dispatch: no core has been marked or counted yet. -/
theorem BcastInv.dispatch (h : BcastInv s l) (hearly : s.dispatch ≠ .finished)
    (hpc : s'.pc = s.pc) (hbegun : ∀ i, s'.started i = true → s'.dispatch = .finished) :
    BcastInv s' l := by
  obtain ⟨hmarks, hcounts⟩ := h.early hearly
  refine ⟨h.toCountedRight, hbegun, fun m hm => ?_, fun m hm => ?_, fun _ =>
    ⟨hmarks, hcounts⟩, ?_⟩
  · rw [hmarks] at hm
    cases hm
  · rw [hcounts] at hm
    cases hm
  · rcases h.pc_early hearly with hat | ⟨n, i, hat⟩ <;> simp [BcastRun.PcOk, hpc, hat]

/-- A step of the handler that marks and counts nothing. -/
theorem BcastInv.move (h : BcastInv s l) {pc : BcastPc}
    (hpc : { s with pc := pc }.PcOk l) : BcastInv { s with pc := pc } l :=
  ⟨h.toCountedRight, h.begun, h.marked, h.counted, h.early, hpc⟩

theorem BcastInv.handler (h : BcastInv s l) (hclean : HandlerInTime s .handler) :
    BcastInv (s.handler reach) (logBcast l s .handler) := by
  have hpc := h.pc
  unfold BcastRun.PcOk at hpc
  unfold HandlerInTime at hclean
  unfold BcastRun.handler logBcast
  cases hat : s.pc with
  | idle => exact h.move trivial
  | head n i =>
      rw [hat] at hclean
      dsimp only at hclean ⊢
      split
      · rename_i hlt
        refine h.move ?_
        split
        · trivial
        · rename_i hclear
          exact ⟨hclean hlt hclear, hclear⟩
      · exact h.move trivial
  | status n i =>
      rw [hat] at hpc
      exact h.move ⟨hpc.1, hpc.2, fun hr => hr⟩
  | intStatus n i rendering =>
      rw [hat] at hpc hclean
      dsimp only at hclean ⊢
      split
      · rename_i hany
        exact h.move ⟨hpc.1, hpc.2.1, hclean hany⟩
      · refine h.move ?_
        cases rendering with
        | true => trivial
        | false => exact ⟨hpc.1, hpc.2.1, hpc.2.2 rfl⟩
  | handle n i state =>
      rw [hat] at hpc
      refine ⟨h.toCountedRight, h.begun, h.marked, h.counted, h.early, hpc.1, hpc.2.1, ?_⟩
      simpa [BcastRun.handleIrq] using hpc.2.2
  | mark n i =>
      rw [hat] at hpc
      obtain ⟨hstarted, hclear, hstopped⟩ := hpc
      have hnew : ∀ m ∈ l.marks, m.core ≠ i := fun m hm heq => hclear (heq ▸ h.marked m hm)
      refine ⟨⟨?_, h.countsOnce, ?_, h.counts, h.dones⟩, h.begun, ?_, ?_, ?_, hstarted,
        Finset.mem_insert_self i s.done, hstopped, ?_⟩
      · refine List.nodup_cons.mpr ⟨fun hm => ?_, h.marksOnce⟩
        obtain ⟨m, hm, heq⟩ := List.mem_map.mp hm
        exact hnew m hm heq
      · intro m hm
        rcases List.mem_cons.mp hm with rfl | hm
        · exact ⟨hstarted, hstopped⟩
        · exact h.marks m hm
      · intro m hm
        rcases List.mem_cons.mp hm with rfl | hm
        · exact Finset.mem_insert_self i s.done
        · exact Finset.mem_insert_of_mem (h.marked m hm)
      · exact fun m hm => Finset.mem_insert_of_mem (h.counted m hm)
      · exact fun hearly => absurd (h.begun i hstarted) hearly
      · intro hm
        obtain ⟨m, hm, heq⟩ := List.mem_map.mp hm
        exact hclear (heq ▸ h.counted m hm)
  | dec n i =>
      rw [hat] at hpc
      obtain ⟨hstarted, hset, hstopped, hnew⟩ := hpc
      refine ⟨⟨h.marksOnce, ?_, h.marks, ?_, h.dones⟩, h.begun, h.marked, ?_, ?_, ?_⟩
      · exact List.nodup_cons.mpr ⟨hnew, h.countsOnce⟩
      · intro m hm
        rcases List.mem_cons.mp hm with rfl | hm
        · exact ⟨hstarted, hstopped⟩
        · exact h.counts m hm
      · intro m hm
        rcases List.mem_cons.mp hm with rfl | hm
        · exact hset
        · exact h.counted m hm
      · exact fun hearly => absurd (h.begun i hstarted) hearly
      · unfold BcastRun.PcOk
        by_cases hzero : s.task - 1 = 0
        · simp only [hzero, if_true]
          exact hstarted
        · simp only [hzero, if_false]
  | done n i =>
      rw [hat] at hpc
      have hfinished := h.begun i hpc
      -- `task_fini` changes masks only
      have hdone : (s.taskDone reach).done = s.done ∧ (s.taskDone reach).started = s.started ∧
          (s.taskDone reach).dispatch = s.dispatch := by
        unfold BcastRun.taskDone
        split <;> exact ⟨rfl, rfl, rfl⟩
      obtain ⟨hsame, hstarted, hdispatch⟩ := hdone
      refine ⟨⟨h.marksOnce, h.countsOnce, h.marks, h.counts, ?_⟩, fun _ _ => ?_, ?_, ?_, ?_,
        trivial⟩
      · intro d hd
        rcases List.mem_cons.mp hd with rfl | hd
        · exact decide_eq_true hfinished
        · exact h.dones d hd
      · exact hdispatch.trans hfinished
      · dsimp only
        rw [hsame]
        exact h.marked
      · dsimp only
        rw [hsame]
        exact h.counted
      · exact fun hearly => absurd (hdispatch.trans hfinished) hearly

/-- **Step lemma.** -/
theorem BcastInv.step {e : BcastEvent} (h : BcastInv s l) (hclean : HandlerInTime s e)
    (hstep : bcastStep reach s e = some s') : BcastInv s' (logBcast l s e) := by
  cases e with
  | handler =>
      obtain rfl := Option.some.inj hstep
      exact h.handler hclean
  | finish i =>
      simp only [bcastStep, Option.ite_none_right_eq_some, Option.some.injEq] at hstep
      obtain ⟨-, rfl⟩ := hstep
      refine h.hardware fun j hj => ?_
      by_cases hji : j = i
      · subst hji
        rw [Function.update_self]
      · rwa [Function.update_of_ne hji]
  | raise i stops =>
      simp only [bcastStep, Option.ite_none_right_eq_some, Option.some.injEq] at hstep
      obtain ⟨hrendering, rfl⟩ := hstep
      refine h.hardware fun j hj => ?_
      by_cases hji : j = i
      · subst hji
        rw [hj] at hrendering
        cases hrendering
      · rwa [Function.update_of_ne hji]
  | dispatch resetOk =>
      have hearly : s.dispatch ≠ .finished := by
        intro hfinished
        simp [bcastStep, BcastRun.dispatchStep, hfinished] at hstep
      have hnone : ∀ i, s.started i = true → False := fun i hi => hearly (h.begun i hi)
      simp only [bcastStep, BcastRun.dispatchStep] at hstep
      cases hat : s.dispatch with
      | finished => exact absurd hat hearly
      | clearError | clearDone | setTask =>
          rw [hat] at hstep
          obtain rfl := Option.some.inj hstep
          exact h.dispatch hearly rfl fun i hi => (hnone i hi).elim
      | wait i =>
          rw [hat] at hstep
          dsimp only at hstep
          split at hstep <;>
            (obtain rfl := Option.some.inj hstep
             exact h.dispatch hearly rfl fun j hj => (hnone j hj).elim)
      | start =>
          rw [hat] at hstep
          obtain rfl := Option.some.inj hstep
          exact h.dispatch hearly rfl fun _ _ => rfl

end Steps

/-- **Main result.** In every run whose steps meet the condition, each core is marked and
counted at most once, when it has been started for the task and has stopped rendering, and
`lima_sched_pipe_task_done` is not called before `START_RENDERING` has been written. -/
theorem bcast_counted_right {reach : ℕ → Bool} {x : BcastRun × BcastLog}
    (hx : (loggedLts reach).Via (fun x e => HandlerInTime x.1 e) x) : CountedRight x.2 := by
  have h : BcastInv x.1 x.2 := by
    refine hx.invariant (I := fun x => BcastInv x.1 x.2) ?_ ?_
    · rintro ⟨s, l⟩ ⟨hinit, rfl⟩
      exact .init hinit
    · rintro ⟨s, l⟩ e ⟨s', l'⟩ - hi hclean ⟨hstep, rfl⟩
      exact hi.step hclean hstep
  exact h.toCountedRight

/-! ## What goes wrong otherwise -/

/-- A core looked at before its start is marked three accesses later, if it is idle. -/
theorem handler_marks_unstarted {reach : ℕ → Bool} {s : BcastRun} {n i : ℕ}
    (hpc : s.pc = .head n i) (hlt : i < n) (hclear : i ∉ s.done)
    (hunstarted : s.started i = false) (hidle : (s.core i).rendering = false)
    (hquiet : (s.core i).intStatus.any = false) :
    ((BcastRun.handler reach)^[3] s).pc = .mark n i ∧
      ((BcastRun.handler reach)^[3] s).markOf i = ⟨i, false, false⟩ := by
  have hhead : s.handler reach = { s with pc := .status n i } := by
    simp only [BcastRun.handler, hpc, if_pos hlt, if_neg hclear]
  have hmark : (BcastRun.handler reach)^[3] s = { s with pc := .mark n i } := by
    rw [Function.iterate_succ_apply, Function.iterate_succ_apply, Function.iterate_succ_apply,
      Function.iterate_zero_apply, hhead]
    simp [BcastRun.handler, hidle, hquiet]
  rw [hmark]
  exact ⟨rfl, by simp [BcastRun.markOf, hunstarted, hidle]⟩

/-- A core that goes on rendering after the error whose interrupt is read is marked two
accesses later. -/
theorem handler_marks_rendering {reach : ℕ → Bool} {s : BcastRun} {n i : ℕ} {rendering : Bool}
    (hpc : s.pc = .intStatus n i rendering) (hany : (s.core i).intStatus.any = true)
    (hrendering : (s.core i).rendering = true) :
    ((BcastRun.handler reach)^[2] s).pc = .mark n i ∧
      (((BcastRun.handler reach)^[2] s).markOf i).rendering = true := by
  have hread : s.handler reach = { s with pc := .handle n i (s.core i).intStatus } := by
    simp only [BcastRun.handler, hpc, if_pos hany]
  have hmark : (BcastRun.handler reach)^[2] s =
      { s.handleIrq i (s.core i).intStatus with pc := .mark n i } := by
    rw [Function.iterate_succ_apply, Function.iterate_succ_apply, Function.iterate_zero_apply,
      hread]
    rfl
  rw [hmark]
  exact ⟨rfl, by simp [BcastRun.markOf, BcastRun.handleIrq, hrendering]⟩

/-! ## A task on one core -/

/-- The first task after probe, its cores idle and no interrupt pending. -/
def firstBcastTask : BcastRun where
  numPp := 1
  done := ∅
  task := 0
  error := false
  asyncReset := false
  core := fun _ => ⟨false, .none, true⟩
  pc := .idle
  dispatch := .clearError
  started := fun _ => false

theorem firstBcastTask_init : (loggedLts fun _ => true).init (firstBcastTask, ⟨[], [], []⟩) :=
  ⟨⟨Nat.one_pos, rfl, fun _ => rfl, .inl rfl⟩, rfl⟩

def bcastNext (x : BcastRun × BcastLog) (e : BcastEvent) : BcastRun × BcastLog :=
  ((bcastStep (fun _ => true) x.1 e).getD x.1, logBcast x.2 x.1 e)

theorem bcastNext_step {x : BcastRun × BcastLog} {e : BcastEvent}
    (h : (bcastStep (fun _ => true) x.1 e).isSome = true) :
    (loggedLts fun _ => true).step x e (bcastNext x e) :=
  Lts.record_step_getD (fun _ _ _ h => h) h

/-- The core is started and ends its frame. -/
def endedBcastTask : BcastRun × BcastLog :=
  [.dispatch true, .dispatch true, .dispatch true, .dispatch true, .finish 0].foldl bcastNext
    (firstBcastTask, ⟨[], [], []⟩)

theorem endedBcastTask_via :
    (loggedLts fun _ => true).Via (fun x e => HandlerInTime x.1 e) endedBcastTask := by
  have hrun : ∀ {x : BcastRun × BcastLog}, (loggedLts fun _ => true).Via
      (fun x e => HandlerInTime x.1 e) x →
      (bcastStep (fun _ => true) x.1 (.dispatch true)).isSome = true →
      (loggedLts fun _ => true).Via (fun x e => HandlerInTime x.1 e)
        (bcastNext x (.dispatch true)) := fun hx h =>
    hx.step (a := BcastEvent.dispatch true) trivial (bcastNext_step h)
  have hstarted := hrun (hrun (hrun (hrun (.init firstBcastTask_init) rfl) rfl) rfl) rfl
  exact hstarted.step (a := BcastEvent.finish 0) trivial (bcastNext_step rfl)

/-- Then the handler marks it. -/
theorem bcast_counted_right_ended : ∃ l : BcastLog, l.marks = [⟨0, true, false⟩] ∧
    CountedRight l := by
  have hhead := endedBcastTask_via.step (a := BcastEvent.handler) trivial (bcastNext_step rfl)
  have hstatus := hhead.step (a := BcastEvent.handler) (fun _ _ => rfl) (bcastNext_step rfl)
  have hint := hstatus.step (a := BcastEvent.handler) trivial (bcastNext_step rfl)
  have hhandle := hint.step (a := BcastEvent.handler) (fun _ => rfl) (bcastNext_step rfl)
  have hmark := hhandle.step (a := BcastEvent.handler) trivial (bcastNext_step rfl)
  have hdec := hmark.step (a := BcastEvent.handler) trivial (bcastNext_step rfl)
  exact ⟨_, rfl, bcast_counted_right hdec⟩

/-- An invocation that comes before `START_RENDERING` is written finds the core idle, takes it
for finished and reports the task. -/
theorem bcast_counts_unstarted : ∃ x : BcastRun × BcastLog,
    (loggedLts fun _ => true).Reachable x ∧ x.1.dispatch = .start ∧
    x.2.marks.map Mark.started = [false] ∧ x.2.dones = [false] ∧ ¬ CountedRight x.2 := by
  obtain ⟨x, hx, hdispatch, hmarks, hdones⟩ : ∃ x : BcastRun × BcastLog,
      Lts.exec (Lts.recordStep (bcastStep fun _ => true) logBcast)
        (firstBcastTask, ⟨[], [], []⟩)
        [.dispatch true, .dispatch true, .dispatch true, .handler, .handler, .handler,
          .handler, .handler, .handler, .handler] = some x ∧
      x.1.dispatch = .start ∧ x.2.marks.map Mark.started = [false] ∧ x.2.dones = [false] :=
    ⟨_, rfl, rfl, rfl, rfl⟩
  have hreach : (loggedLts fun _ => true).Reachable x :=
    Lts.Reachable.exec (fun _ _ _ h => Lts.recordStep_step (fun _ _ _ h => h) h)
      (.init firstBcastTask_init) hx
  refine ⟨x, hreach, hdispatch, hmarks, hdones, fun h => ?_⟩
  exact Bool.false_ne_true (h.dones false (by rw [hdones]; exact List.mem_singleton_self _))

end Lima
