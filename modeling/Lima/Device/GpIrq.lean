import Lima.Device.IrqMask

/-!
# The end of a GP task

`lima_gp_irq_handler` reads `INT_STAT`, reads `STATUS`, clears what it has seen in the
first, and reports the task done if a unit has ended and none is active. A unit can
finish between any two of these accesses. The task is reported exactly once, and not
too early, provided that it starts with its interrupts unmasked, no end bit left over,
and no soft reset pending, which would keep `task_fini` from masking the end bit of a
unit that finishes between the two reads.
-/

namespace Lima

/-- The units of the GP. A set of units stands for their end bits in an interrupt
register, or for their active bits in `STATUS`. -/
inductive GpUnit where
  | vs | plbu
deriving DecidableEq, Repr

instance : Fintype GpUnit := ⟨{.vs, .plbu}, fun u => by cases u <;> decide⟩

/-- `INT_STAT` with the end bits `st`, and no error. -/
def intStatOf (st : Finset GpUnit) : GpIntStat :=
  ⟨decide (.vs ∈ st), decide (.plbu ∈ st), false, false⟩

theorem intStatOf_nonzero : ∀ st, (intStatOf st).nonzero = decide (st ≠ ∅) := by decide

theorem intStatOf_done (st : Finset GpUnit) (active : Bool) :
    (intStatOf st).done active = (decide (st ≠ ∅) && !active) := by
  revert st active
  decide

/-! ## The GP and its handler -/

/-- Where the handler is: the access it has just made, with what it has read. The last
three lie in the `lima_gp_soft_reset_async` of `task_fini`, before its writes of
`INT_MASK`, `INT_CLEAR` and `CMD`. -/
inductive GpHandlerPc where
  | idle
  | statRead (state : Finset GpUnit)
  | statusRead (state : Finset GpUnit) (active : Bool)
  | cleared (done : Bool)
  | maskFini
  | clearFini
  | resetFini
deriving DecidableEq

/-- The GP during a task. `unmasked` says that `INT_MASK` is `LIMA_GP_IRQ_MASK_USED`,
not 0; `dones` counts the calls of `lima_sched_pipe_task_done`. -/
structure GpLine where
  raw : Finset GpUnit
  unmasked : Bool
  active : Finset GpUnit
  asyncReset : Bool
  pc : GpHandlerPc
  dones : ℕ
deriving DecidableEq

/-- `INT_STAT`. -/
def GpLine.intStat (s : GpLine) : Finset GpUnit := if s.unmasked then s.raw else ∅

/-- The next access of the handler, or the first one of an invocation. The line is
shared, so the handler may be invoked at any time. -/
def GpLine.handlerStep (s : GpLine) : GpLine :=
  match s.pc with
  | .idle => { s with pc := .statRead s.intStat }
  | .statRead state => { s with pc := .statusRead state (decide (s.active ≠ ∅)) }
  | .statusRead state active =>
      if !(intStatOf state).nonzero then { s with pc := .idle }
      else { s with
        raw := s.raw \ state
        pc := .cleared ((intStatOf state).done active) }
  | .cleared false => { s with pc := .idle }
  | .cleared true =>
      -- `task_fini` does nothing while a soft reset is pending
      { s with
        dones := s.dones + 1
        pc := if s.asyncReset then .idle else .maskFini }
  | .maskFini => { s with
      unmasked := false
      pc := .clearFini }
  | .clearFini => { s with pc := .resetFini }
  | .resetFini => { s with
      asyncReset := true
      pc := .idle }

inductive GpLineEvent where
  | finish (u : GpUnit)
  | handler

/-- The next event: an active unit finishes, or the handler goes on. -/
def gpLineStep (s : GpLine) : GpLineEvent → Option GpLine
  | .finish u =>
      if u ∈ s.active then
        some { s with
          active := s.active.erase u
          raw := insert u s.raw }
      else none
  | .handler => some s.handlerStep

/-- The start of a task: the units `lima_gp_task_run` starts, of which
`lima_gp_task_validate` requires one, the registers and the flag it finds, and whether
its wait for a pending soft reset ends in time. -/
structure GpStart where
  units : Finset GpUnit
  started : units ≠ ∅
  raw : Finset GpUnit
  unmasked : Bool
  asyncReset : Bool
  resetOk : Bool

/-- The GP when the start command has been written. A wait that succeeds clears all
interrupts and unmasks those in use. -/
def GpStart.line (g : GpStart) : GpLine where
  raw := if g.asyncReset && g.resetOk then ∅ else g.raw
  unmasked := (g.asyncReset && g.resetOk) || g.unmasked
  active := g.units
  asyncReset := g.asyncReset && !g.resetOk
  pc := .idle
  dones := 0

/-- The registers and the flag are those of the core. -/
theorem GpStart.line_core (g : GpStart) (used : Bool → ℕ)
    (hused : used true = limaGpIrqMaskUsed) :
    Core.limaGpSoftResetAsyncWait g.resetOk ⟨used g.unmasked, g.asyncReset, none⟩ =
      ⟨used g.line.unmasked, g.line.asyncReset, none⟩ := by
  unfold Core.limaGpSoftResetAsyncWait GpStart.line
  cases g.asyncReset <;> cases g.resetOk <;> simp [hused]

/-- The interleavings of one task. -/
def gpLineLts (g : GpStart) : Lts GpLine GpLineEvent where
  init s := s = g.line
  step s e s' := gpLineStep s e = some s'

/-! ## What is promised -/

/-- The handler's invocation under way will report the task, going on from here. -/
def GpLine.WillCall (s : GpLine) : Prop :=
  ∃ n, (∀ k < n, (GpLine.handlerStep^[k] s).pc ≠ .idle) ∧
    s.dones < (GpLine.handlerStep^[n] s).dones

/-- **The task is reported exactly once**: never twice, never while a unit is active,
and once no unit is, a report is on its way until it has been made. -/
structure GpLine.DoneOnce (s : GpLine) : Prop where
  once : s.dones ≤ 1
  after : s.dones ≠ 0 → s.active = ∅
  live : s.active = ∅ → s.dones = 0 → s.WillCall ∨ s.intStat ≠ ∅
  called : s.active = ∅ → ∃ n, (GpLine.handlerStep^[n] s).dones = 1

/-- The condition: the wait has ended in time; or the interrupts were unmasked, and
either no reset is pending and no started unit has left an end bit, or one unit is
started and no end bit is left at all. -/
def GpStart.Clean (g : GpStart) : Prop :=
  (g.asyncReset = true ∧ g.resetOk = true) ∨
    (g.unmasked = true ∧
      ((g.asyncReset = false ∧ Disjoint g.raw g.units) ∨ (g.raw = ∅ ∧ g.units.card = 1)))

/-! ## Before the report -/

/-- What the handler knows, `units` being the units started. -/
def GpLine.PcOk (units : Finset GpUnit) (s : GpLine) : Prop :=
  match s.pc with
  | .idle | .cleared false => s.active = ∅ → s.raw ≠ ∅
  | .statRead state => Disjoint state s.active ∧ (s.asyncReset = true → state ⊆ units) ∧
      (s.active = ∅ → state = ∅ → s.raw ≠ ∅)
  | .statusRead state active =>
      Disjoint state s.active ∧ (s.asyncReset = true → state ⊆ units) ∧
      (active = false → s.active = ∅) ∧ (s.active = ∅ → state = ∅ → s.raw ≠ ∅) ∧
      -- a unit that has finished since `STATUS` was read keeps its end bit
      (active = true → s.active = ∅ → s.raw \ state ≠ ∅)
  | .cleared true => s.active = ∅ ∧ (s.asyncReset = true → s.raw = ∅)
  | .maskFini | .clearFini | .resetFini => False

/-- The task has not been reported. -/
structure GpLine.Waiting (units : Finset GpUnit) (s : GpLine) : Prop where
  dones : s.dones = 0
  unmasked : s.unmasked = true
  unseen : Disjoint s.raw s.active
  lone : s.asyncReset = true → units.card = 1 ∧ s.raw ⊆ units ∧ s.active ⊆ units
  pc : s.PcOk units

/-- The task has been reported: no interrupt is left, or the handler is about to mask
what is left. -/
structure GpLine.Called (s : GpLine) : Prop where
  dones : s.dones = 1
  active : s.active = ∅
  pc : match s.pc with
    | .maskFini => True
    | .idle | .clearFini | .resetFini => s.intStat = ∅
    | .statRead state | .statusRead state _ => state = ∅ ∧ s.intStat = ∅
    | .cleared _ => False

namespace GpLine

variable {units : Finset GpUnit} {s : GpLine}

theorem Waiting.intStat (h : s.Waiting units) : s.intStat = s.raw := by
  rw [GpLine.intStat, if_pos h.unmasked]

/-- A unit finishes. -/
theorem Waiting.finish (h : s.Waiting units) {u : GpUnit} (hu : u ∈ s.active) :
    Waiting units { s with
      active := s.active.erase u
      raw := insert u s.raw } := by
  have hunseen : Disjoint (insert u s.raw) (s.active.erase u) := by
    rw [Finset.disjoint_insert_left]
    exact ⟨Finset.notMem_erase u s.active,
      Finset.disjoint_of_subset_right (Finset.erase_subset u s.active) h.unseen⟩
  have hraw : insert u s.raw ≠ ∅ := Finset.insert_ne_empty u s.raw
  have hactive : s.active ≠ ∅ := Finset.ne_empty_of_mem hu
  refine ⟨h.dones, h.unmasked, hunseen, fun ha => ?_, ?_⟩
  · obtain ⟨hcard, hsub, hact⟩ := h.lone ha
    exact ⟨hcard, Finset.insert_subset (hact hu) hsub,
      (Finset.erase_subset u s.active).trans hact⟩
  · have hpc := h.pc
    obtain ⟨raw, unmasked, active, asyncReset, pc, dones⟩ := s
    cases pc with
    | idle => exact fun _ => hraw
    | statRead state =>
        obtain ⟨hdis, hsub, -⟩ := hpc
        exact ⟨Finset.disjoint_of_subset_right (Finset.erase_subset u active) hdis, hsub,
          fun _ _ => hraw⟩
    | statusRead state act =>
        obtain ⟨hdis, hsub, hfalse, -, -⟩ := hpc
        refine ⟨Finset.disjoint_of_subset_right (Finset.erase_subset u active) hdis, hsub,
          fun hact => absurd (hfalse hact) hactive, fun _ _ => hraw, fun _ _ => ?_⟩
        have hmem : u ∈ insert u raw \ state :=
          Finset.mem_sdiff.mpr ⟨Finset.mem_insert_self u raw,
            fun hst => Finset.disjoint_left.mp hdis hst hu⟩
        exact Finset.ne_empty_of_mem hmem
    | cleared done =>
        cases done with
        | false => exact fun _ => hraw
        | true => exact absurd hpc.1 hactive
    | maskFini => exact hpc
    | clearFini => exact hpc
    | resetFini => exact hpc

/-- The handler goes on. -/
theorem Waiting.handlerStep (h : s.Waiting units) :
    s.handlerStep.Waiting units ∨ s.handlerStep.Called := by
  have hpc := h.pc
  have hstat := h.intStat
  obtain ⟨hdones, hunmasked, hunseen, hlone, -⟩ := h
  obtain ⟨raw, unmasked, active, asyncReset, pc, dones⟩ := s
  cases pc with
  | idle =>
      refine .inl ⟨hdones, hunmasked, hunseen, hlone, ?_⟩
      show Disjoint (GpLine.intStat _) active ∧ _ ∧ _
      rw [hstat]
      exact ⟨hunseen, fun ha => (hlone ha).2.1, fun hact _ => hpc hact⟩
  | statRead state =>
      obtain ⟨hdis, hsub, hleft⟩ := hpc
      refine .inl ⟨hdones, hunmasked, hunseen, hlone, hdis, hsub, fun hact => ?_, hleft,
        fun hact hnone => ?_⟩
      · show active = ∅
        simpa using hact
      · have hne : active ≠ ∅ := by simpa using hact
        exact absurd hnone hne
  | statusRead state act =>
      obtain ⟨hdis, hsub, hfalse, hleft, hkeep⟩ := hpc
      by_cases hstate : state = ∅
      · left
        have hstep : handlerStep ⟨raw, unmasked, active, asyncReset, .statusRead state act, dones⟩ =
            ⟨raw, unmasked, active, asyncReset, .idle, dones⟩ := by
          simp [GpLine.handlerStep, intStatOf_nonzero, hstate]
        rw [hstep]
        exact ⟨hdones, hunmasked, hunseen, hlone, fun hact => hleft hact hstate⟩
      · left
        have hstep : handlerStep ⟨raw, unmasked, active, asyncReset, .statusRead state act, dones⟩ =
            ⟨raw \ state, unmasked, active, asyncReset, .cleared !act, dones⟩ := by
          simp [GpLine.handlerStep, intStatOf_nonzero, intStatOf_done, hstate]
        rw [hstep]
        refine ⟨hdones, hunmasked, Finset.disjoint_of_subset_left Finset.sdiff_subset hunseen,
          fun ha => ?_, ?_⟩
        · obtain ⟨hcard, hraw, hact⟩ := hlone ha
          exact ⟨hcard, Finset.sdiff_subset.trans hraw, hact⟩
        · cases act with
          | true => exact fun hact => hkeep rfl hact
          | false =>
              refine ⟨hfalse rfl, fun ha => ?_⟩
              -- one unit is started: what was seen is all there is
              obtain ⟨hcard, hraw, -⟩ := hlone ha
              obtain ⟨u, hu⟩ := Finset.card_eq_one.mp hcard
              have hall : state = units :=
                Finset.eq_of_subset_of_card_le (hsub ha) (by
                  rw [hcard]
                  exact Finset.card_pos.mpr (Finset.nonempty_iff_ne_empty.mpr hstate))
              show raw \ state = ∅
              rw [hall, Finset.sdiff_eq_empty_iff_subset]
              exact hraw
  | cleared done =>
      cases done with
      | false => exact .inl ⟨hdones, hunmasked, hunseen, hlone, hpc⟩
      | true =>
          obtain ⟨hact, hraw⟩ := hpc
          refine .inr ⟨congrArg (· + 1) hdones, hact, ?_⟩
          cases asyncReset with
          | false => trivial
          | true => exact hstat.trans (hraw rfl)
  | maskFini => exact hpc.elim
  | clearFini => exact hpc.elim
  | resetFini => exact hpc.elim

/-! ## After it -/

theorem Called.handlerStep (h : s.Called) : s.handlerStep.Called := by
  have hpc := h.pc
  obtain ⟨hdones, hactive, -⟩ := h
  obtain ⟨raw, unmasked, active, asyncReset, pc, dones⟩ := s
  cases pc with
  | idle => exact ⟨hdones, hactive, hpc, hpc⟩
  | statRead state => exact ⟨hdones, hactive, hpc⟩
  | statusRead state act =>
      obtain ⟨rfl, hstat⟩ := hpc
      exact ⟨hdones, hactive, hstat⟩
  | cleared done => exact hpc.elim
  | maskFini => exact ⟨hdones, hactive, rfl⟩
  | clearFini => exact ⟨hdones, hactive, hpc⟩
  | resetFini => exact ⟨hdones, hactive, hpc⟩

/-! ## The report comes -/

/-- Some number of accesses later the task has been reported. -/
def Reports (s : GpLine) : Prop := ∃ n, (GpLine.handlerStep^[n] s).dones = 1

theorem Reports.of_step (h : s.handlerStep.Reports) : s.Reports := by
  obtain ⟨n, hn⟩ := h
  exact ⟨n + 1, hn⟩

theorem WillCall.of_step (hpc : s.pc ≠ .idle) (hdones : s.handlerStep.dones = s.dones)
    (h : s.handlerStep.WillCall) : s.WillCall := by
  obtain ⟨n, hbusy, hn⟩ := h
  refine ⟨n + 1, fun k hk => ?_, by rwa [Function.iterate_succ_apply, ← hdones]⟩
  cases k with
  | zero => exact hpc
  | succ k =>
      rw [Function.iterate_succ_apply]
      exact hbusy k (by omega)

/-- All units have finished, the task has not been reported, and the handler is at a
point from which it will do so. -/
theorem willCall_cleared (hpc : s.pc = .cleared true) (hdones : s.dones = 0) :
    s.WillCall ∧ s.Reports := by
  have hstep : s.handlerStep.dones = s.dones + 1 := by
    simp [GpLine.handlerStep, hpc]
  refine ⟨⟨1, fun k hk => ?_, ?_⟩, 1, hstep.trans (by rw [hdones])⟩
  · obtain rfl : k = 0 := by omega
    show s.pc ≠ .idle
    rw [hpc]
    intro hidle
    cases hidle
  · show s.dones < s.handlerStep.dones
    omega

theorem willCall_statusRead {state : Finset GpUnit} (hpc : s.pc = .statusRead state false)
    (hstate : state ≠ ∅) (hdones : s.dones = 0) : s.WillCall ∧ s.Reports := by
  have hstep : s.handlerStep = { s with
      raw := s.raw \ state
      pc := .cleared true } := by
    simp [GpLine.handlerStep, hpc, intStatOf_nonzero, intStatOf_done, hstate]
  have hnext : s.handlerStep.WillCall ∧ s.handlerStep.Reports := by
    rw [hstep]
    exact willCall_cleared rfl hdones
  refine ⟨hnext.1.of_step ?_ (by rw [hstep]), hnext.2.of_step⟩
  rw [hpc]
  intro hidle
  cases hidle

theorem willCall_statRead {state : Finset GpUnit} (hpc : s.pc = .statRead state)
    (hstate : state ≠ ∅) (hactive : s.active = ∅) (hdones : s.dones = 0) :
    s.WillCall ∧ s.Reports := by
  have hstep : s.handlerStep = { s with pc := .statusRead state false } := by
    simp [GpLine.handlerStep, hpc, hactive]
  have hnext : s.handlerStep.WillCall ∧ s.handlerStep.Reports := by
    rw [hstep]
    exact willCall_statusRead rfl hstate hdones
  refine ⟨hnext.1.of_step ?_ (by rw [hstep]), hnext.2.of_step⟩
  rw [hpc]
  intro hidle
  cases hidle

/-- A pending interrupt invokes the handler. -/
theorem reports_idle (hpc : s.pc = .idle) (hstat : s.intStat ≠ ∅) (hactive : s.active = ∅)
    (hdones : s.dones = 0) : s.Reports := by
  have hstep : s.handlerStep = { s with pc := .statRead s.intStat } := by
    simp [GpLine.handlerStep, hpc]
  apply Reports.of_step
  rw [hstep]
  exact (willCall_statRead (s := { s with pc := .statRead s.intStat }) rfl hstat hactive hdones).2

/-- **A task whose units have all finished is about to be reported.** -/
theorem Waiting.reports (h : s.Waiting units) (hactive : s.active = ∅) :
    (s.WillCall ∨ s.intStat ≠ ∅) ∧ s.Reports := by
  have hpc := h.pc
  have hstat := h.intStat
  have hidle : ∀ raw, raw ≠ ∅ → Reports { s with
      raw := raw
      pc := .idle } := by
    intro raw hraw
    refine reports_idle rfl ?_ hactive h.dones
    show (if s.unmasked = true then raw else ∅) ≠ ∅
    rwa [if_pos h.unmasked]
  unfold PcOk at hpc
  split at hpc
  · rename_i heq
    rw [hstat]
    exact ⟨.inr (hpc hactive), reports_idle heq (hstat ▸ hpc hactive) hactive h.dones⟩
  · rename_i heq
    rw [hstat]
    refine ⟨.inr (hpc hactive), .of_step ?_⟩
    have hstep : s.handlerStep = { s with pc := .idle } := by simp [GpLine.handlerStep, heq]
    rw [hstep]
    exact hidle s.raw (hpc hactive)
  · rename_i state heq
    by_cases hstate : state = ∅
    · have hraw := hpc.2.2 hactive hstate
      rw [hstat]
      refine ⟨.inr hraw, .of_step (.of_step ?_)⟩
      have hstep : s.handlerStep.handlerStep = { s with pc := .idle } := by
        simp [GpLine.handlerStep, heq, hstate, intStatOf_nonzero]
      rw [hstep]
      exact hidle s.raw hraw
    · exact (willCall_statRead heq hstate hactive h.dones).imp .inl id
  · rename_i state act heq
    obtain ⟨-, -, -, hleft, hkeep⟩ := hpc
    by_cases hstate : state = ∅
    · have hraw := hleft hactive hstate
      rw [hstat]
      refine ⟨.inr hraw, .of_step ?_⟩
      have hstep : s.handlerStep = { s with pc := .idle } := by
        simp [GpLine.handlerStep, heq, hstate, intStatOf_nonzero]
      rw [hstep]
      exact hidle s.raw hraw
    · cases act with
      | false => exact (willCall_statusRead heq hstate h.dones).imp .inl id
      | true =>
          have hraw := hkeep rfl hactive
          rw [hstat]
          refine ⟨.inr fun hnone => hraw (by rw [hnone, Finset.empty_sdiff]),
            .of_step (.of_step ?_)⟩
          have hstep : s.handlerStep.handlerStep = { s with
              raw := s.raw \ state
              pc := .idle } := by
            simp [GpLine.handlerStep, heq, hstate, intStatOf_nonzero, intStatOf_done]
          rw [hstep]
          exact hidle _ hraw
  · rename_i heq
    exact (willCall_cleared heq h.dones).imp .inl id
  · exact hpc.elim
  · exact hpc.elim
  · exact hpc.elim

end GpLine

/-! ## Runs -/

/-- **Step lemma.** -/
theorem gpLineStep_ok {units : Finset GpUnit} {s s' : GpLine} {e : GpLineEvent}
    (h : s.Waiting units ∨ s.Called) (hstep : gpLineStep s e = some s') :
    s'.Waiting units ∨ s'.Called := by
  cases e with
  | finish u =>
      simp only [gpLineStep, Option.ite_none_right_eq_some, Option.some.injEq] at hstep
      obtain ⟨hu, rfl⟩ := hstep
      rcases h with h | h
      · exact .inl (h.finish hu)
      · rw [h.active] at hu
        exact absurd hu (Finset.notMem_empty u)
  | handler =>
      obtain rfl := Option.some.inj hstep
      rcases h with h | h
      · exact h.handlerStep
      · exact .inr h.handlerStep

theorem GpStart.Clean.waiting {g : GpStart} (h : g.Clean) : g.line.Waiting g.units := by
  have hpc : ∀ raw unmasked asyncReset dones, GpLine.PcOk g.units
      ⟨raw, unmasked, g.units, asyncReset, .idle, dones⟩ :=
    fun _ _ _ _ hnone => absurd hnone g.started
  unfold GpStart.line
  rcases h with ⟨hasync, hok⟩ | ⟨hmask, ⟨hasync, hdis⟩ | ⟨hraw, hcard⟩⟩
  · simp only [hasync, hok, Bool.and_self, if_true, Bool.true_or, Bool.not_true, Bool.and_false]
    exact ⟨rfl, rfl, Finset.disjoint_empty_left _, fun ha => absurd ha Bool.false_ne_true, hpc _ _ _ _⟩
  · simp only [hasync, hmask, Bool.false_and, Bool.or_true]
    exact ⟨rfl, rfl, hdis, fun ha => absurd ha Bool.false_ne_true, hpc _ _ _ _⟩
  · simp only [hraw, hmask, Bool.or_true, ite_self]
    exact ⟨rfl, rfl, Finset.disjoint_empty_left _,
      fun _ => ⟨hcard, Finset.empty_subset _, subset_rfl⟩, hpc _ _ _ _⟩

/-- **Run lemma.** From a clean start every task is reported once. -/
theorem GpStart.Clean.doneOnce {g : GpStart} (h : g.Clean) {s : GpLine}
    (hs : (gpLineLts g).Reachable s) : s.DoneOnce := by
  have hinv : s.Waiting g.units ∨ s.Called := by
    refine Lts.Reachable.invariant (I := fun t => t.Waiting g.units ∨ t.Called)
      (fun t ht => ?_) (fun _ _ _ _ hi hstep => gpLineStep_ok hi hstep) hs
    obtain rfl : t = g.line := ht
    exact .inl h.waiting
  rcases hinv with hw | hc
  · exact ⟨hw.dones.le.trans (Nat.zero_le 1), fun hne => absurd hw.dones hne,
      fun hact _ => (hw.reports hact).1, fun hact => (hw.reports hact).2⟩
  · exact ⟨hc.dones.le, fun _ => hc.active, fun _ hz => absurd (hc.dones.symm.trans hz) (by decide),
      fun _ => ⟨0, hc.dones⟩⟩

/-! ## Starts that are not clean -/

/-- The started units finish, one after the other. -/
def finishAll (units : Finset GpUnit) : List GpLineEvent :=
  (if .vs ∈ units then [.finish .vs] else []) ++
    if .plbu ∈ units then [.finish .plbu] else []

def handlerAccesses (n : ℕ) : List GpLineEvent := List.replicate n .handler

/-- An end bit that `u` has left over is read; `u` finishes after `STATUS` has been
read, and its end bit is cleared with the old one. -/
def loseEnd (units : Finset GpUnit) (u : GpUnit) : List GpLineEvent :=
  finishAll (units.erase u) ++ handlerAccesses 2 ++ .finish u :: handlerAccesses 2

/-- What goes wrong, by what the start has found. -/
def badRun (g : GpStart) : List GpLineEvent :=
  if !g.unmasked then finishAll g.units
  else if .vs ∈ g.raw ∩ g.units then loseEnd g.units .vs
  else if .plbu ∈ g.raw ∩ g.units then loseEnd g.units .plbu
  -- a unit finishes between the two reads, and its end bit is not masked
  else if g.raw = ∅ then
    [.finish .vs, .handler, .finish .plbu] ++ handlerAccesses 7
  else .handler :: finishAll g.units ++ handlerAccesses 7

/-- Reported twice, or not at all and never going to be. -/
def GpLine.Bad (s : GpLine) : Prop :=
  1 < s.dones ∨ (s.pc = .idle ∧ s.active = ∅ ∧ s.dones = 0 ∧ s.intStat = ∅)

instance (s : GpLine) : Decidable s.Bad :=
  inferInstanceAs (Decidable (_ ∨ _))

theorem GpLine.Bad.not_doneOnce {s : GpLine} (h : s.Bad) : ¬ s.DoneOnce := by
  intro hs
  rcases h with htwice | ⟨hpc, hactive, hdones, hstat⟩
  · exact absurd hs.once (not_le.mpr htwice)
  · rcases hs.live hactive hdones with ⟨n, hbusy, hn⟩ | hpending
    · cases n with
      | zero => exact lt_irrefl _ hn
      | succ n => exact hbusy 0 (Nat.succ_pos n) hpc
    · exact hpending hstat

instance (g : GpStart) : Decidable g.Clean :=
  inferInstanceAs (Decidable (_ ∨ _))

/-- The bad run of a start ends in a bad state. -/
theorem badRun_bad : ∀ (units : Finset GpUnit) (hstarted : units ≠ ∅) (raw : Finset GpUnit)
    (unmasked asyncReset resetOk : Bool),
    let g : GpStart := ⟨units, hstarted, raw, unmasked, asyncReset, resetOk⟩
    ¬ g.Clean → ∃ s ∈ Lts.exec gpLineStep g.line (badRun g), s.Bad := by
  decide +kernel

/-- **A GP task is reported exactly once in all interleavings iff its start is clean.** -/
theorem gp_done_once_iff (g : GpStart) :
    (∀ s, (gpLineLts g).Reachable s → s.DoneOnce) ↔ g.Clean := by
  constructor
  · intro hall
    by_contra hclean
    obtain ⟨s, hs, hbad⟩ := badRun_bad g.units g.started g.raw g.unmasked g.asyncReset
      g.resetOk hclean
    have hreach : (gpLineLts g).Reachable s :=
      Lts.Reachable.exec (fun _ _ _ h => h) (.init rfl) hs
    exact hbad.not_doneOnce (hall s hreach)
  · intro hclean s hs
    exact hclean.doneOnce hs

/-- A start of both units after a hard reset that has left `async_reset` set. -/
def staleStart : GpStart := ⟨{.vs, .plbu}, by decide, ∅, true, true, false⟩

/-- The driver comes to such a start: a task starts masked after a slow reset, times
out, and is reset hard. The next one is reported twice. -/
theorem gp_done_twice :
    (∃ c, coresLts.Reachable c ∧ c.gpPhase = .idle ∧ c.gp.intMask = limaGpIrqMaskUsed ∧
      c.gp.asyncReset = true) ∧
    ∃ s, (gpLineLts staleStart).Reachable s ∧ s.dones = 2 := by
  constructor
  · obtain ⟨c, hc, hobs⟩ : ∃ c,
        Lts.exec coresStep probedCores [.gpRun true, .gpFini, .gpRun false, .gpError true] =
            some c ∧
          c.gpPhase = .idle ∧ c.gp.intMask = limaGpIrqMaskUsed ∧ c.gp.asyncReset = true :=
      ⟨_, rfl, rfl, rfl, rfl⟩
    have h0 : coresLts.Reachable probedCores := .init probedCores_init
    exact ⟨c, h0.exec (fun _ _ _ h => h) hc, hobs⟩
  · have hrun : ∃ s ∈ Lts.exec gpLineStep staleStart.line (badRun staleStart), s.dones = 2 := by
      decide +kernel
    obtain ⟨s, hs, hdones⟩ := hrun
    exact ⟨s, Lts.Reachable.exec (fun _ _ _ h => h) (.init rfl) hs, hdones⟩

end Lima
