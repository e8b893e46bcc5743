import Lima.Lib.Lts

/-!
# The end of a PP task

The cores of a PP task report to two handlers each, that of the core and that of its
MMU, which may run at the same time on different CPUs. `pipe->task` counts the reports
down, `pipe->error` is set apart from it, and the handler whose decrement reaches zero
calls `lima_sched_pipe_task_done`, which reads the flag. Every access of a handler to
something shared is one step here.
-/

namespace Lima

/-! ## Sources and handlers -/

/-- A core's own interrupt or that of its MMU. -/
inductive PpSource where
  | core (i : ℕ)
  | mmu (i : ℕ)
deriving DecidableEq, Repr

def PpSource.idx : PpSource → ℕ
  | .core i => i
  | .mmu i => i

/-- The bits of an interrupt register: end of frame, and any error. An MMU has only
errors, page faults and bus errors. -/
structure IrqBits where
  eof : Bool
  error : Bool
deriving DecidableEq, Repr

namespace IrqBits

def none : IrqBits := ⟨false, false⟩

def any (b : IrqBits) : Bool := b.eof || b.error

def join (b c : IrqBits) : IrqBits := ⟨b.eof || c.eof, b.error || c.error⟩

/-- A write of `state` to `INT_CLEAR`. -/
def clear (b state : IrqBits) : IrqBits := ⟨b.eof && !state.eof, b.error && !state.error⟩

end IrqBits

/-- An access of a handler: `pipe->error = true`, `INT_MASK = 0`, `INT_CLEAR = state`,
`atomic_dec_and_test(&pipe->task)`, `lima_sched_pipe_task_done`. -/
inductive IrqAct where
  | flag
  | mask
  | clear (state : IrqBits)
  | dec
  | done
deriving DecidableEq, Repr

/-- `lima_pp_irq_handler`, having read `state`. -/
def ppIrqHandler (state : IrqBits) : List IrqAct :=
  (if state.error then [.flag, .mask] else []) ++ [.clear state, .dec]

/-- `lima_mmu_irq_handler`, having read `state`, with `lima_sched_pipe_mmu_error` and
`lima_pp_task_mmu_error`. -/
def mmuIrqHandler (state : IrqBits) : List IrqAct := [.mask, .clear state, .flag, .dec]

def PpSource.handler : PpSource → IrqBits → List IrqAct
  | .core _ => ppIrqHandler
  | .mmu _ => mmuIrqHandler

theorem PpSource.done_notMem_handler (a : PpSource) (state : IrqBits) :
    .done ∉ a.handler state := by
  cases a with
  | core i =>
      cases herr : state.error <;> simp [PpSource.handler, ppIrqHandler, herr]
  | mmu i => simp [PpSource.handler, mmuIrqHandler]

/-- A source: its registers, and what its handler has still to do. `saw` collects what
its handler has read. -/
structure PpIrq where
  raw : IrqBits
  unmasked : Bool
  todo : List IrqAct
  saw : IrqBits

/-- The interrupt status a handler reads. -/
def PpIrq.status (x : PpIrq) : IrqBits := if x.unmasked then x.raw else .none

/-- No error of the source is pending or being handled. -/
def PpIrq.Quiet (x : PpIrq) : Prop := x.todo = [] ∧ x.raw.error = false

instance (x : PpIrq) : Decidable x.Quiet := inferInstanceAs (Decidable (_ ∧ _))

/-! ## A task -/

/-- A PP task under way. `counted` are the sources whose handler has decremented
`pipe->task`; `dones` are the calls of `lima_sched_pipe_task_done`, with the value of
`pipe->error` each has read. -/
structure PpRun where
  numPp : ℕ
  started : ℕ
  task : ℤ
  error : Bool
  ended : ℕ → Bool
  src : PpSource → PpIrq
  counted : Finset PpSource
  dones : List Bool

namespace PpRun

def set (s : PpRun) (a : PpSource) (x : PpIrq) : PpRun :=
  { s with src := Function.update s.src a x }

/-- The next access of a handler, or its invocation. The lines are shared, so it may
find nothing. -/
def handle (s : PpRun) (a : PpSource) : PpRun :=
  let x := s.src a
  match x.todo with
  | [] =>
      if x.status.any then
        s.set a { x with
          todo := a.handler x.status
          saw := x.saw.join x.status }
      else s
  | .flag :: k => { s.set a { x with todo := k } with error := true }
  | .mask :: k => s.set a { x with
      unmasked := false
      todo := k }
  | .clear state :: k => s.set a { x with
      raw := x.raw.clear state
      todo := k }
  | .dec :: k =>
      { s.set a { x with todo := if s.task - 1 = 0 then .done :: k else k } with
        task := s.task - 1
        counted := insert a s.counted }
  | .done :: k => { s.set a { x with todo := k } with dones := s.dones ++ [s.error] }

end PpRun

inductive PpEvent where
  | start
  | frameEnd (i : ℕ)
  | raise (a : PpSource)
  | handler (a : PpSource)

/-- The next event: `lima_pp_task_run` starts the next core, a core ends its frame, a
core or its MMU raises an error, a handler goes on. The end of a frame is the last
event of its core: the core's errors before it, if any, have been dealt with. -/
def ppStep (s : PpRun) : PpEvent → Option PpRun
  | .start => if s.started < s.numPp then some { s with started := s.started + 1 } else none
  | .frameEnd i =>
      if i < s.started ∧ s.ended i = false ∧ (s.src (.core i)).Quiet ∧
          (s.src (.mmu i)).Quiet then
        some { s.set (.core i) { s.src (.core i) with
            raw := { (s.src (.core i)).raw with eof := true } } with
          ended := Function.update s.ended i true }
      else none
  | .raise a =>
      if a.idx < s.started ∧ s.ended a.idx = false then
        some (s.set a { s.src a with raw := { (s.src a).raw with error := true } })
      else none
  | .handler a => some (s.handle a)

/-- Runs of one task, from `atomic_set(&pipe->task, frame->num_pp)` on, with
`pipe->error` cleared by `lima_sched_run_job`. -/
def ppLts : Lts PpRun PpEvent where
  init s := 0 < s.numPp ∧ s.started = 0 ∧ s.task = s.numPp ∧ s.error = false ∧
    (∀ i, s.ended i = false) ∧
    (∀ a, (s.src a).raw = .none ∧ (s.src a).todo = [] ∧ (s.src a).saw = .none) ∧
    s.counted = ∅ ∧ s.dones = []
  step s e s' := ppStep s e = some s'

namespace PpRun

/-! ## What is promised -/

/-- Core `i` has reported an error, by either handler. -/
def SawError (s : PpRun) (i : ℕ) : Prop :=
  (s.src (.core i)).saw.error = true ∨ (s.src (.mmu i)).saw.error = true

/-- Core `i` has reported something. -/
def Reported (s : PpRun) (i : ℕ) : Prop :=
  (s.src (.core i)).saw.any = true ∨ (s.src (.mmu i)).saw.any = true

/-- **The task is reported exactly once, on the right branch.** -/
structure CountedOnce (s : PpRun) : Prop where
  once : s.dones.length ≤ 1
  called : (∀ i < s.numPp, s.Reported i) → (∀ a, (s.src a).todo = []) → s.dones.length = 1
  success : false ∈ s.dones →
    (∀ i < s.numPp, (s.src (.core i)).saw.eof = true) ∧ ∀ i, ¬ s.SawError i
  failure : ∀ i, s.SawError i → ∀ e ∈ s.dones, e = true

/-! ## One source -/

/-- What a source is up to, given `pipe->error`, whether its core has ended its frame,
and whether it has been counted. -/
structure SrcOk (error ended : Bool) (x : PpIrq) (counted : Prop) : Prop where
  shape : x.todo = [] ∨ x.todo = [.done] ∨
    ∃ l, x.todo = l ++ [.dec] ∧ .dec ∉ l ∧ .done ∉ l
  fresh : .dec ∈ x.todo → ¬ counted ∧ x.saw.any = true
  settled : .dec ∉ x.todo → x.saw.any = true → counted
  seen : counted → x.saw.any = true
  flagged : x.saw.error = true → error = true ∨ .flag ∈ x.todo
  masked : x.saw.error = true → x.unmasked = false ∨ .mask ∈ x.todo
  cleared : x.saw.eof = true → x.saw.error = false →
    x.raw.eof = false ∨ .clear ⟨true, false⟩ ∈ x.todo
  eof : x.saw.eof = true ∨ x.raw.eof = true → ended = true
  quiet : ended = true → x.raw.error = false ∧ .flag ∉ x.todo

section Source

variable {error ended : Bool} {x : PpIrq} {counted : Prop}

/-- The error flag is never cleared. -/
theorem SrcOk.setError (h : SrcOk error ended x counted) : SrcOk true ended x counted :=
  { h with flagged := fun _ => .inl rfl }

/-- A counted source has nothing to do but to call `lima_sched_pipe_task_done`. -/
theorem SrcOk.todo_counted (h : SrcOk error ended x counted) (hc : counted) :
    x.todo = [] ∨ x.todo = [.done] := by
  rcases h.shape with h0 | h1 | ⟨l, hl, -, -⟩
  · exact .inl h0
  · exact .inr h1
  · have hdec : .dec ∈ x.todo := by simp [hl]
    exact absurd hc (h.fresh hdec).1

/-- A handler that still decrements does so last. -/
theorem SrcOk.tail_shape (h : SrcOk error ended x counted) {a : IrqAct} {k : List IrqAct}
    (htodo : x.todo = a :: k) (hdec : a ≠ .dec) (hdone : a ≠ .done) :
    ∃ l, k = l ++ [.dec] ∧ .dec ∉ l ∧ .done ∉ l := by
  rcases h.shape with h0 | h1 | ⟨l, hl, hl1, hl2⟩
  · rw [h0] at htodo
    cases htodo
  · rw [h1] at htodo
    cases htodo
    exact absurd rfl hdone
  · rw [hl] at htodo
    cases l with
    | nil =>
        cases htodo
        exact absurd rfl hdec
    | cons b l =>
        cases htodo
        exact ⟨l, rfl, fun hm => hl1 (List.mem_cons_of_mem _ hm),
          fun hm => hl2 (List.mem_cons_of_mem _ hm)⟩

/-- A handler about to decrement does nothing more. -/
theorem SrcOk.dec_tail (h : SrcOk error ended x counted) {k : List IrqAct}
    (htodo : x.todo = .dec :: k) : k = [] := by
  rcases h.shape with h0 | h1 | ⟨l, hl, hl1, -⟩
  · rw [h0] at htodo
    cases htodo
  · rw [h1] at htodo
    cases htodo
  · rw [hl] at htodo
    cases l with
    | nil =>
        cases htodo
        rfl
    | cons b l =>
        cases htodo
        exact absurd (List.mem_cons_self ..) hl1

theorem SrcOk.done_tail (h : SrcOk error ended x counted) {k : List IrqAct}
    (htodo : x.todo = .done :: k) : k = [] := by
  rcases h.shape with h0 | h1 | ⟨l, hl, -, hl2⟩
  · rw [h0] at htodo
    cases htodo
  · rw [h1] at htodo
    cases htodo
    rfl
  · rw [hl] at htodo
    cases l with
    | nil => cases htodo
    | cons b l =>
        cases htodo
        exact absurd (List.mem_cons_self ..) hl2

/-- An idle handler that finds something has found nothing before. -/
theorem SrcOk.invoked (h : SrcOk error ended x counted) (htodo : x.todo = [])
    (hany : x.status.any = true) :
    x.unmasked = true ∧ x.saw.any = false ∧ ¬ counted := by
  have hmask : x.unmasked = true := by
    by_contra hm
    simp [PpIrq.status, hm, IrqBits.none, IrqBits.any] at hany
  have hstatus : x.status = x.raw := if_pos hmask
  have hsaw : x.saw.any = false := by
    by_contra hsaw
    rw [Bool.not_eq_false] at hsaw
    cases herr : x.saw.error with
    | true =>
        rcases h.masked herr with hm | hm
        · rw [hmask] at hm
          cases hm
        · simp [htodo] at hm
    | false =>
        have heof : x.saw.eof = true := by simpa [IrqBits.any, herr] using hsaw
        rcases h.cleared heof herr with hraw | hm
        · have hrerr := (h.quiet (h.eof (.inl heof))).1
          rw [hstatus, IrqBits.any, hraw, hrerr] at hany
          cases hany
        · simp [htodo] at hm
  refine ⟨hmask, hsaw, fun hc => ?_⟩
  rw [h.seen hc] at hsaw
  cases hsaw

/-- The handler is invoked. -/
theorem SrcOk.invoke (h : SrcOk error ended x counted) (htodo : x.todo = [])
    (hany : x.status.any = true) (a : PpSource) (hmmu : ∀ i, a = .mmu i → x.raw.eof = false) :
    SrcOk error ended { x with
      todo := a.handler x.status
      saw := x.saw.join x.status } counted := by
  obtain ⟨hmask, hsaw, hnc⟩ := h.invoked htodo hany
  have hstatus : x.status = x.raw := if_pos hmask
  have hjoin : x.saw.join x.status = x.raw := by
    rw [hstatus]
    simp only [IrqBits.any, Bool.or_eq_false_iff] at hsaw
    simp [IrqBits.join, hsaw.1, hsaw.2]
  rw [hjoin, hstatus]
  rw [hstatus] at hany
  have hdec : IrqAct.dec ∈ a.handler x.raw := by
    cases a <;> simp [PpSource.handler, ppIrqHandler, mmuIrqHandler]
  have hflag : x.raw.error = true → IrqAct.flag ∈ a.handler x.raw := by
    intro herr
    cases a <;> simp [PpSource.handler, ppIrqHandler, mmuIrqHandler, herr]
  refine ⟨.inr (.inr ?_), fun _ => ⟨hnc, hany⟩, fun hnd => absurd hdec hnd,
    fun hc => absurd hc hnc, fun herr => .inr (hflag herr), fun herr => .inr ?_,
    fun heof herr => .inr ?_, fun heof => h.eof (.inr (heof.elim id id)), fun hend => ?_⟩
  · cases a with
    | core i =>
        refine ⟨(if x.raw.error then [.flag, .mask] else []) ++ [.clear x.raw], ?_, ?_, ?_⟩
        · simp [PpSource.handler, ppIrqHandler]
        · cases x.raw.error <;> simp
        · cases x.raw.error <;> simp
    | mmu i => exact ⟨[.mask, .clear x.raw, .flag], rfl, by simp, by simp⟩
  · have herr' : x.raw.error = true := herr
    cases a <;> simp [PpSource.handler, ppIrqHandler, mmuIrqHandler, herr']
  · have hraw : x.raw = ⟨true, false⟩ := by
      rw [← heof, ← herr]
    cases a <;> simp [PpSource.handler, ppIrqHandler, mmuIrqHandler, hraw]
  · have hquiet := (h.quiet hend).1
    refine ⟨hquiet, ?_⟩
    cases a with
    | core i => simp [PpSource.handler, ppIrqHandler, hquiet]
    | mmu i =>
        -- an MMU has nothing but errors to report
        rw [IrqBits.any, hmmu i rfl, hquiet] at hany
        cases hany

/-- `pipe->error = true`. -/
theorem SrcOk.flag (h : SrcOk error ended x counted) {k : List IrqAct}
    (htodo : x.todo = .flag :: k) : SrcOk true ended { x with todo := k } counted := by
  have hnc : .dec ∈ x.todo := by
    obtain ⟨l, hl, -, -⟩ := h.tail_shape htodo (by decide) (by decide)
    simp [htodo, hl]
  refine ⟨.inr (.inr (h.tail_shape htodo (by decide) (by decide))), fun _ => h.fresh hnc,
    fun hnd => ?_, h.seen, fun _ => .inl rfl, fun herr => ?_, fun heof herr => ?_, h.eof,
    fun hend => ?_⟩
  · have hnd' : .dec ∉ x.todo := by simpa [htodo] using hnd
    exact h.settled hnd'
  · simpa [htodo] using h.masked herr
  · simpa [htodo] using h.cleared heof herr
  · have hquiet := (h.quiet hend).2
    rw [htodo] at hquiet
    exact absurd (List.mem_cons_self ..) hquiet

/-- `INT_MASK = 0`. -/
theorem SrcOk.mask (h : SrcOk error ended x counted) {k : List IrqAct}
    (htodo : x.todo = .mask :: k) :
    SrcOk error ended { x with
      unmasked := false
      todo := k } counted := by
  refine ⟨.inr (.inr (h.tail_shape htodo (by decide) (by decide))), fun hd => ?_,
    fun hnd => ?_, h.seen, fun herr => ?_, fun _ => .inl rfl, fun heof herr => ?_, h.eof,
    fun hend => ?_⟩
  · have hd' : .dec ∈ x.todo := by simpa [htodo] using hd
    exact h.fresh hd'
  · have hnd' : .dec ∉ x.todo := by simpa [htodo] using hnd
    exact h.settled hnd'
  · simpa [htodo] using h.flagged herr
  · simpa [htodo] using h.cleared heof herr
  · simpa [htodo] using h.quiet hend

/-- `INT_CLEAR = state`. -/
theorem SrcOk.clear (h : SrcOk error ended x counted) {state : IrqBits} {k : List IrqAct}
    (htodo : x.todo = .clear state :: k) :
    SrcOk error ended { x with
      raw := x.raw.clear state
      todo := k } counted := by
  refine ⟨.inr (.inr (h.tail_shape htodo (by simp) (by simp))), fun hd => ?_,
    fun hnd => ?_, h.seen, fun herr => ?_, fun herr => ?_, fun heof herr => ?_,
    fun heof => ?_, fun hend => ?_⟩
  · have hd' : .dec ∈ x.todo := by simpa [htodo] using hd
    exact h.fresh hd'
  · have hnd' : .dec ∉ x.todo := by simpa [htodo] using hnd
    exact h.settled hnd'
  · simpa [htodo] using h.flagged herr
  · simpa [htodo] using h.masked herr
  · rcases h.cleared heof herr with hraw | hmem
    · exact .inl (by simp [IrqBits.clear, hraw])
    · rw [htodo, List.mem_cons] at hmem
      rcases hmem with heq | hmem
      · cases heq
        exact .inl (by simp [IrqBits.clear])
      · exact .inr hmem
  · refine h.eof (heof.imp_right fun hraw => ?_)
    simp only [IrqBits.clear, Bool.and_eq_true] at hraw
    exact hraw.1
  · obtain ⟨hraw, hflag⟩ := h.quiet hend
    exact ⟨by simp [IrqBits.clear, hraw], by simpa [htodo] using hflag⟩

/-- `atomic_dec_and_test(&pipe->task)`. -/
theorem SrcOk.dec (h : SrcOk error ended x counted) {k : List IrqAct}
    (htodo : x.todo = .dec :: k) {k' : List IrqAct} (hk' : k' = [] ∨ k' = [.done]) :
    SrcOk error ended { x with todo := k' } True := by
  have hk := h.dec_tail htodo
  rw [hk] at htodo
  have hnone : ∀ b ∈ k', b = .done := by
    rcases hk' with rfl | rfl <;> simp
  have hsaw := (h.fresh (by simp [htodo])).2
  refine ⟨hk'.imp_right .inl, fun hd => ?_, fun _ _ => trivial, fun _ => hsaw, fun herr => ?_,
    fun herr => ?_, fun heof herr => ?_, h.eof, fun hend => ⟨(h.quiet hend).1, fun hf => ?_⟩⟩
  · cases hnone _ hd
  · exact .inl (by simpa [htodo] using h.flagged herr)
  · exact .inl (by simpa [htodo] using h.masked herr)
  · exact .inl (by simpa [htodo] using h.cleared heof herr)
  · cases hnone _ hf

/-- `lima_sched_pipe_task_done` returns. -/
theorem SrcOk.done (h : SrcOk error ended x counted) {k : List IrqAct}
    (htodo : x.todo = .done :: k) : SrcOk error ended { x with todo := k } counted := by
  have hk := h.done_tail htodo
  rw [hk] at htodo ⊢
  refine ⟨.inl rfl, fun hd => ?_, fun _ => h.settled (by simp [htodo]), h.seen, fun herr => ?_,
    fun herr => ?_, fun heof herr => ?_, h.eof, fun hend => ⟨(h.quiet hend).1, by simp⟩⟩
  · cases hd
  · simpa [htodo] using h.flagged herr
  · simpa [htodo] using h.masked herr
  · simpa [htodo] using h.cleared heof herr

/-- The core, or its MMU, raises an error. -/
theorem SrcOk.raise (h : SrcOk error false x counted) :
    SrcOk error false { x with raw := { x.raw with error := true } } counted :=
  { h with quiet := fun hend => by cases hend }

/-- The core ends its frame; `eof` tells whether the source is the core itself. -/
theorem SrcOk.frameEnd (h : SrcOk error false x counted) (hquiet : x.Quiet) (eof : Bool) :
    SrcOk error true { x with raw := { x.raw with eof := eof } } counted := by
  have hsaw : x.saw.eof = false := by
    by_contra hs
    rw [Bool.not_eq_false] at hs
    cases h.eof (.inl hs)
  refine { h with cleared := fun heof => ?_, eof := fun _ => rfl, quiet := fun _ => ?_ }
  · rw [hsaw] at heof
    cases heof
  · refine ⟨hquiet.2, ?_⟩
    show .flag ∉ x.todo
    simp [hquiet.1]

end Source

/-! ## All sources -/

/-- Whether the call has been made, and by whom it is going to be. -/
def Calls (s : PpRun) : Prop :=
  (0 < s.task ∧ s.dones = [] ∧ ∀ a, .done ∉ (s.src a).todo) ∨
  (s.task ≤ 0 ∧ s.dones = [] ∧
    ∃ a, .done ∈ (s.src a).todo ∧ ∀ b, .done ∈ (s.src b).todo → b = a) ∨
  (s.task ≤ 0 ∧ s.dones.length = 1 ∧ ∀ a, .done ∉ (s.src a).todo)

/-- The invariant: `pipe->task` counts the sources that have not decremented it, and when
it reaches zero without an error, every core has ended its frame. -/
structure Ok (s : PpRun) : Prop where
  pos : 0 < s.numPp
  started_le : s.started ≤ s.numPp
  task : s.task = s.numPp - s.counted.card
  src : ∀ a, SrcOk s.error (s.ended a.idx) (s.src a) (a ∈ s.counted)
  unused : ∀ a, s.started ≤ a.idx →
    (s.src a).raw = .none ∧ (s.src a).todo = [] ∧ (s.src a).saw = .none
  running : ∀ i, s.started ≤ i → s.ended i = false
  mmu : ∀ i, (s.src (.mmu i)).raw.eof = false ∧ (s.src (.mmu i)).saw.eof = false
  calls : s.Calls
  all : s.task ≤ 0 → s.error = false →
    ∀ i < s.numPp, s.ended i = true ∧ (s.src (.core i)).saw.eof = true
  success : false ∈ s.dones → s.error = false

section Steps

variable {s s' : PpRun} {a : PpSource}

theorem Ok.used_of_todo (h : s.Ok) (ha : (s.src a).todo ≠ []) : a.idx < s.started := by
  by_contra hle
  exact ha (h.unused a (not_lt.mp hle)).2.1

theorem Ok.used_of_saw (h : s.Ok) (ha : (s.src a).saw.any = true) : a.idx < s.started := by
  by_contra hle
  rw [(h.unused a (not_lt.mp hle)).2.2] at ha
  cases ha

theorem Ok.task_of_dones (h : s.Ok) (hd : s.dones ≠ []) : s.task ≤ 0 := by
  rcases h.calls with ⟨-, hnil, -⟩ | ⟨ht, -, -⟩ | ⟨ht, -, -⟩
  · exact absurd hnil hd
  · exact ht
  · exact ht

/-- The initial state. -/
theorem Ok.init (h : ppLts.init s) : s.Ok := by
  obtain ⟨hpos, hstart, htask, herr, hended, hsrc, hcounted, hdones⟩ := h
  refine ⟨hpos, by omega, by simp [htask, hcounted], fun a => ?_, fun a _ => hsrc a,
    fun i _ => hended i, fun i => ?_, ?_, fun ht => ?_, fun hf => ?_⟩
  · obtain ⟨hraw, htodo, hsaw⟩ := hsrc a
    rw [herr, hended a.idx, hcounted]
    refine ⟨.inl htodo, fun hd => ?_, fun _ hs => ?_, fun hc => ?_, fun hs => ?_, fun hs => ?_,
      fun hs => ?_, fun hs => ?_, fun hend => ?_⟩
    · simp [htodo] at hd
    · rw [hsaw] at hs
      cases hs
    · simp at hc
    · rw [hsaw] at hs
      cases hs
    · rw [hsaw] at hs
      cases hs
    · rw [hsaw] at hs
      cases hs
    · rw [hsaw, hraw] at hs
      rcases hs with hs | hs <;> cases hs
    · cases hend
  · obtain ⟨hraw, -, hsaw⟩ := hsrc (.mmu i)
    rw [hraw, hsaw]
    exact ⟨rfl, rfl⟩
  · refine .inl ⟨by omega, hdones, fun a => ?_⟩
    rw [(hsrc a).2.1]
    simp
  · omega
  · simp [hdones] at hf

/-- A step that changes one source and perhaps sets the flag. -/
theorem Ok.update (h : s.Ok) {x : PpIrq} {e : Bool} (hx : SrcOk e (s.ended a.idx) x (a ∈ s.counted))
    (hused : a.idx < s.started) (he : e = s.error ∨ e = true) (hsucc : false ∈ s.dones → e = false)
    (hdone : .done ∈ x.todo ↔ .done ∈ (s.src a).todo)
    (hsaw : (s.src a).saw.eof = true → x.saw.eof = true)
    (hmmu : ∀ i, a = .mmu i → x.raw.eof = false ∧ x.saw.eof = false) :
    Ok { s.set a x with error := e } := by
  have hself : (s.set a x).src a = x := Function.update_self ..
  have hother : ∀ b ≠ a, (s.set a x).src b = s.src b := fun b hb => Function.update_of_ne hb ..
  have hdones : ∀ b, .done ∈ ((s.set a x).src b).todo ↔ .done ∈ (s.src b).todo := by
    intro b
    by_cases hb : b = a
    · rw [hb, hself]
      exact hdone
    · rw [hother b hb]
  refine ⟨h.pos, h.started_le, h.task, fun b => ?_, fun b hb => ?_, h.running, fun i => ?_, ?_,
    fun ht herr i hi => ?_, hsucc⟩
  · by_cases hb : b = a
    · subst hb
      show SrcOk e _ ((s.set b x).src b) _
      rw [hself]
      exact hx
    · show SrcOk e _ ((s.set a x).src b) _
      rw [hother b hb]
      rcases he with rfl | rfl
      · exact h.src b
      · exact (h.src b).setError
  · have hba : b ≠ a := by
      rintro rfl
      exact absurd hused (not_lt.mpr hb)
    show ((s.set a x).src b).raw = _ ∧ ((s.set a x).src b).todo = _ ∧ ((s.set a x).src b).saw = _
    rw [hother b hba]
    exact h.unused b hb
  · show ((s.set a x).src (.mmu i)).raw.eof = false ∧ ((s.set a x).src (.mmu i)).saw.eof = false
    by_cases hi : PpSource.mmu i = a
    · rw [hi, hself]
      exact hmmu i hi.symm
    · rw [hother _ hi]
      exact h.mmu i
  · rcases h.calls with ⟨ht, hnil, hnone⟩ | ⟨ht, hnil, b, hb, huniq⟩ | ⟨ht, hlen, hnone⟩
    · exact .inl ⟨ht, hnil, fun b hb => hnone b ((hdones b).mp hb)⟩
    · exact .inr (.inl ⟨ht, hnil, b, (hdones b).mpr hb, fun c hc => huniq c ((hdones c).mp hc)⟩)
    · exact .inr (.inr ⟨ht, hlen, fun b hb => hnone b ((hdones b).mp hb)⟩)
  · have herr' : s.error = false := by
      rcases he with rfl | rfl
      · exact herr
      · cases herr
    obtain ⟨hend, heof⟩ := h.all ht herr' i hi
    refine ⟨hend, ?_⟩
    show ((s.set a x).src (.core i)).saw.eof = true
    by_cases hi' : PpSource.core i = a
    · rw [hi', hself]
      exact hsaw (hi' ▸ heof)
    · rw [hother _ hi']
      exact heof

/-- Nobody is about to flag an error once the task has been reported as a success. -/
theorem Ok.no_flag (h : s.Ok) (ha : .flag ∈ (s.src a).todo) : false ∉ s.dones := by
  intro hf
  have ht := h.task_of_dones (List.ne_nil_of_mem hf)
  have hused := h.used_of_todo (List.ne_nil_of_mem ha)
  have hend := (h.all ht (h.success hf) a.idx (lt_of_lt_of_le hused h.started_le)).1
  exact ((h.src a).quiet hend).2 ha

/-- Every counted source has reported, and has no error left to flag. -/
theorem Ok.counted_error (h : s.Ok) (ha : a ∈ s.counted) (herr : (s.src a).saw.error = true) :
    s.error = true := by
  rcases (h.src a).flagged herr with he | hf
  · exact he
  · rcases (h.src a).todo_counted ha with h0 | h1
    · simp [h0] at hf
    · simp [h1] at hf

/-- **The last decrement.** If it meets no error, all cores have ended their frames. -/
theorem Ok.last_dec (h : s.Ok) (hdec : (s.src a).todo = [.dec]) (herr : s.error = false)
    (htask : s.task = 1) :
    ∀ i < s.numPp, s.ended i = true ∧ (s.src (.core i)).saw.eof = true := by
  have hnc : a ∉ s.counted := ((h.src a).fresh (by simp [hdec])).1
  have hcore : ∀ b ∈ insert a s.counted, ∃ i, b = .core i ∧ (s.src b).saw.eof = true ∧
      i < s.numPp := by
    intro b hb
    have hsaw : (s.src b).saw.any = true := by
      rcases Finset.mem_insert.mp hb with rfl | hb
      · exact ((h.src b).fresh (by simp [hdec])).2
      · exact (h.src b).seen hb
    have hnoerr : (s.src b).saw.error = false := by
      by_contra hne
      rw [Bool.not_eq_false] at hne
      have htrue : s.error = true := by
        rcases Finset.mem_insert.mp hb with rfl | hb
        · simpa [hdec] using (h.src b).flagged hne
        · exact h.counted_error hb hne
      rw [herr] at htrue
      cases htrue
    have heof : (s.src b).saw.eof = true := by simpa [IrqBits.any, hnoerr] using hsaw
    have hlt := lt_of_lt_of_le (h.used_of_saw hsaw) h.started_le
    cases b with
    | core i => exact ⟨i, rfl, heof, hlt⟩
    | mmu i =>
        rw [(h.mmu i).2] at heof
        cases heof
  have hcard : (insert a s.counted).card = s.numPp := by
    have ht := h.task
    rw [Finset.card_insert_of_notMem hnc]
    omega
  have hall : insert a s.counted = (Finset.range s.numPp).image .core := by
    refine Finset.eq_of_subset_of_card_le (fun b hb => ?_) ?_
    · obtain ⟨i, rfl, -, hi⟩ := hcore b hb
      exact Finset.mem_image_of_mem _ (Finset.mem_range.mpr hi)
    · rw [hcard]
      exact Finset.card_image_le.trans (Finset.card_range _).le
  intro i hi
  have hmem : PpSource.core i ∈ insert a s.counted := by
    rw [hall]
    exact Finset.mem_image_of_mem _ (Finset.mem_range.mpr hi)
  obtain ⟨-, -, heof, -⟩ := hcore _ hmem
  exact ⟨(h.src (.core i)).eof (.inl heof), heof⟩

/-- `atomic_dec_and_test(&pipe->task)`. -/
theorem Ok.dec (h : s.Ok) (htodo : (s.src a).todo = [.dec]) {x : PpIrq}
    (hx : x = { s.src a with todo := if s.task - 1 = 0 then [.done] else [] }) :
    Ok { s.set a x with
      task := s.task - 1
      counted := insert a s.counted } := by
  have hnc : a ∉ s.counted := ((h.src a).fresh (by simp [htodo])).1
  have hused := h.used_of_todo (by simp [htodo] : (s.src a).todo ≠ [])
  have hself : (s.set a x).src a = x := Function.update_self ..
  have hother : ∀ b ≠ a, (s.set a x).src b = s.src b := fun b hb => Function.update_of_ne hb ..
  have hsaw : x.saw = (s.src a).saw := by rw [hx]
  have hcore : ∀ i, ((s.set a x).src (.core i)).saw = (s.src (.core i)).saw := by
    intro i
    by_cases hi : PpSource.core i = a
    · rw [hi, hself, hsaw]
    · rw [hother _ hi]
  refine ⟨h.pos, h.started_le, ?_, fun b => ?_, fun b hb => ?_, h.running, fun i => ?_, ?_,
    fun ht herr i hi => ?_, h.success⟩
  · show s.task - 1 = _
    have ht := h.task
    simp only [PpRun.set, Finset.card_insert_of_notMem hnc]
    push_cast
    omega
  · by_cases hb : b = a
    · subst hb
      show SrcOk _ _ ((s.set b x).src b) (b ∈ insert b s.counted)
      rw [hself, hx]
      simp only [Finset.mem_insert_self]
      refine (h.src b).dec htodo ?_
      by_cases h0 : s.task - 1 = 0
      · exact .inr (if_pos h0)
      · exact .inl (if_neg h0)
    · show SrcOk _ _ ((s.set a x).src b) (b ∈ insert a s.counted)
      rw [hother b hb, Finset.mem_insert, or_iff_right hb]
      exact h.src b
  · have hba : b ≠ a := by
      rintro rfl
      exact absurd hused (not_lt.mpr hb)
    show ((s.set a x).src b).raw = _ ∧ ((s.set a x).src b).todo = _ ∧ ((s.set a x).src b).saw = _
    rw [hother b hba]
    exact h.unused b hb
  · show ((s.set a x).src (.mmu i)).raw.eof = false ∧ ((s.set a x).src (.mmu i)).saw.eof = false
    by_cases hi : PpSource.mmu i = a
    · have hmmu := h.mmu i
      rw [hi] at hmmu
      rw [hi, hself, hx]
      exact hmmu
    · rw [hother _ hi]
      exact h.mmu i
  · have hdone : ∀ b, .done ∈ ((s.set a x).src b).todo ↔
        .done ∈ (s.src b).todo ∨ (b = a ∧ s.task - 1 = 0) := by
      intro b
      by_cases hb : b = a
      · subst hb
        rw [hself, hx, htodo]
        by_cases h0 : s.task - 1 = 0 <;> simp [h0]
      · rw [hother b hb]
        simp [hb]
    rcases h.calls with ⟨ht, hnil, hnone⟩ | ⟨ht, hnil, b, hb, huniq⟩ | ⟨ht, hlen, hnone⟩
    · by_cases h0 : s.task - 1 = 0
      · refine .inr (.inl ⟨h0.le, hnil, a, (hdone a).mpr (.inr ⟨rfl, h0⟩), fun c hc => ?_⟩)
        exact ((hdone c).mp hc).elim (fun hc => absurd hc (hnone c)) And.left
      · refine .inl ⟨?_, hnil, fun c hc => ?_⟩
        · show 0 < s.task - 1
          omega
        · exact ((hdone c).mp hc).elim (hnone c) fun hc => h0 hc.2
    · refine .inr (.inl ⟨?_, hnil, b, (hdone b).mpr (.inl hb), fun c hc => ?_⟩)
      · show s.task - 1 ≤ 0
        omega
      · exact ((hdone c).mp hc).elim (huniq c) fun hc => absurd hc.2 (by omega)
    · refine .inr (.inr ⟨?_, hlen, fun c hc => ?_⟩)
      · show s.task - 1 ≤ 0
        omega
      · exact ((hdone c).mp hc).elim (hnone c) fun hc => absurd hc.2 (by omega)
  · show s.ended i = true ∧ ((s.set a x).src (.core i)).saw.eof = true
    rw [hcore i]
    have htask : s.task - 1 ≤ 0 := ht
    by_cases h1 : s.task = 1
    · exact h.last_dec htodo herr h1 i hi
    · exact h.all (by omega) herr i hi

/-- `lima_sched_pipe_task_done`. -/
theorem Ok.done (h : s.Ok) (htodo : (s.src a).todo = [.done]) {x : PpIrq}
    (hx : x = { s.src a with todo := [] }) :
    Ok { s.set a x with dones := s.dones ++ [s.error] } := by
  have hused := h.used_of_todo (by simp [htodo] : (s.src a).todo ≠ [])
  have hself : (s.set a x).src a = x := Function.update_self ..
  have hother : ∀ b ≠ a, (s.set a x).src b = s.src b := fun b hb => Function.update_of_ne hb ..
  have hdone : ∀ b, .done ∈ ((s.set a x).src b).todo → .done ∈ (s.src b).todo ∧ b ≠ a := by
    intro b hb
    by_cases hba : b = a
    · subst hba
      rw [hself, hx] at hb
      cases hb
    · rw [hother b hba] at hb
      exact ⟨hb, hba⟩
  have hmine : .done ∈ (s.src a).todo := by simp [htodo]
  have hsaw : ∀ b, ((s.set a x).src b).saw = (s.src b).saw ∧
      ((s.set a x).src b).raw = (s.src b).raw := by
    intro b
    by_cases hba : b = a
    · subst hba
      rw [hself, hx]
      exact ⟨rfl, rfl⟩
    · rw [hother b hba]
      exact ⟨rfl, rfl⟩
  refine ⟨h.pos, h.started_le, h.task, fun b => ?_, fun b hb => ?_, h.running, fun i => ?_, ?_,
    fun ht herr i hi => ?_, fun hf => ?_⟩
  · by_cases hb : b = a
    · subst hb
      show SrcOk _ _ ((s.set b x).src b) _
      rw [hself, hx]
      exact (h.src b).done htodo
    · show SrcOk _ _ ((s.set a x).src b) _
      rw [hother b hb]
      exact h.src b
  · have hba : b ≠ a := by
      rintro rfl
      exact absurd hused (not_lt.mpr hb)
    show ((s.set a x).src b).raw = _ ∧ ((s.set a x).src b).todo = _ ∧ ((s.set a x).src b).saw = _
    rw [hother b hba]
    exact h.unused b hb
  · show ((s.set a x).src (.mmu i)).raw.eof = false ∧ ((s.set a x).src (.mmu i)).saw.eof = false
    rw [(hsaw _).1, (hsaw _).2]
    exact h.mmu i
  · rcases h.calls with ⟨-, -, hnone⟩ | ⟨ht, hnil, b, -, huniq⟩ | ⟨-, -, hnone⟩
    · exact absurd hmine (hnone a)
    · refine .inr (.inr ⟨ht, by simp [hnil], fun c hc => ?_⟩)
      obtain ⟨hc, hca⟩ := hdone c hc
      exact hca ((huniq c hc).trans (huniq a hmine).symm)
    · exact absurd hmine (hnone a)
  · show s.ended i = true ∧ ((s.set a x).src (.core i)).saw.eof = true
    rw [(hsaw _).1]
    exact h.all ht herr i hi
  · have hf' : false ∈ s.dones ++ [s.error] := hf
    rcases List.mem_append.mp hf' with hf' | hf'
    · exact h.success hf'
    · exact (List.mem_singleton.mp hf').symm

/-- A handler goes on. -/
theorem Ok.handle (h : s.Ok) (a : PpSource) : (s.handle a).Ok := by
  have hsrc := h.src a
  have hmmu : ∀ i, a = .mmu i → (s.src a).raw.eof = false ∧ (s.src a).saw.eof = false := by
    rintro i rfl
    exact h.mmu i
  unfold PpRun.handle
  cases htodo : (s.src a).todo with
  | nil =>
      simp only [htodo]
      by_cases hany : (s.src a).status.any = true
      · rw [if_pos hany]
        obtain ⟨hmask, -, -⟩ := hsrc.invoked htodo hany
        have hstatus : (s.src a).status = (s.src a).raw := if_pos hmask
        have hused : a.idx < s.started := by
          by_contra hle
          rw [hstatus, (h.unused a (not_lt.mp hle)).1] at hany
          cases hany
        refine h.update (hsrc.invoke htodo hany a fun i hi => (hmmu i hi).1) hused (.inl rfl)
          h.success ?_ (fun hs => ?_) fun i hi => ?_
        · rw [htodo]
          simp [a.done_notMem_handler]
        · simp [IrqBits.join, hs]
        · refine ⟨(hmmu i hi).1, ?_⟩
          rw [hstatus, IrqBits.join, (hmmu i hi).1, (hmmu i hi).2]
          rfl
      · rw [if_neg hany]
        exact h
  | cons act k =>
      have hused := h.used_of_todo (by simp [htodo] : (s.src a).todo ≠ [])
      simp only [htodo]
      cases act with
      | flag =>
          refine h.update (hsrc.flag htodo) hused (.inr rfl)
            (fun hf => absurd hf (h.no_flag (by rw [htodo]; exact List.mem_cons_self ..))) ?_
            (fun hs => hs) hmmu
          simp [htodo]
      | mask =>
          refine h.update (hsrc.mask htodo) hused (.inl rfl) h.success ?_ (fun hs => hs) hmmu
          simp [htodo]
      | clear state =>
          refine h.update (hsrc.clear htodo) hused (.inl rfl) h.success ?_ (fun hs => hs)
            fun i hi => ⟨?_, (hmmu i hi).2⟩
          · simp [htodo]
          · simp [IrqBits.clear, (hmmu i hi).1]
      | dec =>
          obtain rfl := hsrc.dec_tail htodo
          exact h.dec htodo rfl
      | done =>
          obtain rfl := hsrc.done_tail htodo
          exact h.done htodo rfl

/-- The core ends its frame. -/
theorem Ok.frameEnd (h : s.Ok) {i : ℕ} (hi : i < s.started) (hend : s.ended i = false)
    (hcore : (s.src (.core i)).Quiet) (hmmu : (s.src (.mmu i)).Quiet) :
    Ok { s.set (.core i) { s.src (.core i) with
        raw := { (s.src (.core i)).raw with eof := true } } with
      ended := Function.update s.ended i true } := by
  have hsaw : ∀ b, ((s.set (.core i) { s.src (.core i) with
      raw := { (s.src (.core i)).raw with eof := true } }).src b).saw = (s.src b).saw ∧
      ((s.set (.core i) { s.src (.core i) with
        raw := { (s.src (.core i)).raw with eof := true } }).src b).todo = (s.src b).todo := by
    intro b
    by_cases hb : b = .core i
    · subst hb
      simp [PpRun.set]
    · simp [PpRun.set, Function.update_of_ne hb]
  refine ⟨h.pos, h.started_le, h.task, fun b => ?_, fun b hb => ?_, fun j hj => ?_, fun j => ?_,
    ?_, fun ht herr j hj => ?_, h.success⟩
  · by_cases hb : b = .core i
    · subst hb
      have hsrc := h.src (.core i)
      rw [show s.ended (PpSource.core i).idx = false from hend] at hsrc
      simpa [PpRun.set, PpSource.idx] using hsrc.frameEnd hcore true
    · by_cases hidx : b.idx = i
      · -- the MMU of the core
        have hb' : b = .mmu i := by
          cases b with
          | core j => exact absurd (congrArg PpSource.core hidx) hb
          | mmu j => exact congrArg PpSource.mmu hidx
        subst hb'
        have hsrc := h.src (.mmu i)
        rw [show s.ended (PpSource.mmu i).idx = false from hend] at hsrc
        have hkeep : (s.src (.mmu i)).raw = { (s.src (.mmu i)).raw with eof := false } := by
          rw [← (h.mmu i).1]
        have hend' := hsrc.frameEnd hmmu false
        rw [← hkeep] at hend'
        simpa [PpRun.set, PpSource.idx] using hend'
      · simpa [PpRun.set, Function.update_of_ne hb, Function.update_of_ne hidx] using h.src b
  · have hbi : b ≠ .core i := by
      rintro rfl
      exact absurd hi (not_lt.mpr hb)
    simpa [PpRun.set, Function.update_of_ne hbi] using h.unused b hb
  · have hji : j ≠ i := by
      rintro rfl
      exact absurd hi (not_lt.mpr hj)
    exact (Function.update_of_ne hji _ _).trans (h.running j hj)
  · simpa [PpRun.set] using h.mmu j
  · unfold Calls
    simp only [fun b => (hsaw b).2]
    exact h.calls
  · obtain ⟨hej, heof⟩ := h.all ht herr j hj
    refine ⟨?_, ?_⟩
    · show Function.update s.ended i true j = true
      by_cases hji : j = i
      · rw [hji, Function.update_self]
      · rw [Function.update_of_ne hji]
        exact hej
    · exact (congrArg IrqBits.eof (hsaw (.core j)).1).trans heof

/-- **Step lemma.** -/
theorem Ok.step {e : PpEvent} (h : s.Ok) (hstep : ppStep s e = some s') : s'.Ok := by
  cases e with
  | start =>
      simp only [ppStep, Option.ite_none_right_eq_some, Option.some.injEq] at hstep
      obtain ⟨hlt, rfl⟩ := hstep
      refine ⟨h.pos, hlt, h.task, h.src, fun a ha => ?_, fun i hi => ?_, h.mmu, h.calls, h.all,
        h.success⟩
      · have ha' : s.started + 1 ≤ a.idx := ha
        exact h.unused a (by omega)
      · have hi' : s.started + 1 ≤ i := hi
        exact h.running i (by omega)
  | frameEnd i =>
      simp only [ppStep, Option.ite_none_right_eq_some, Option.some.injEq] at hstep
      obtain ⟨⟨hi, hend, hcore, hmmu⟩, rfl⟩ := hstep
      exact h.frameEnd hi hend hcore hmmu
  | raise a =>
      simp only [ppStep, Option.ite_none_right_eq_some, Option.some.injEq] at hstep
      obtain ⟨⟨ha, hend⟩, rfl⟩ := hstep
      have hsrc := h.src a
      rw [hend] at hsrc
      refine h.update (hend ▸ hsrc.raise) ha (.inl rfl) h.success Iff.rfl (fun hs => hs)
        fun i hi => ?_
      subst hi
      exact h.mmu i
  | handler a =>
      obtain rfl := Option.some.inj hstep
      exact h.handle a

end Steps

/-! ## The guarantee -/

/-- The counter stays within an `int`: no source is counted twice. -/
theorem Ok.task_bounds {s : PpRun} (h : s.Ok) : -(s.numPp : ℤ) ≤ s.task ∧ s.task ≤ s.numPp := by
  have hsub : s.counted ⊆ (Finset.range s.numPp).image .core ∪
      (Finset.range s.numPp).image .mmu := by
    intro a ha
    have hlt := lt_of_lt_of_le (h.used_of_saw ((h.src a).seen ha)) h.started_le
    cases a with
    | core i =>
        exact Finset.mem_union_left _ (Finset.mem_image_of_mem _ (Finset.mem_range.mpr hlt))
    | mmu i =>
        exact Finset.mem_union_right _ (Finset.mem_image_of_mem _ (Finset.mem_range.mpr hlt))
  have hcard : s.counted.card ≤ s.numPp + s.numPp :=
    (Finset.card_le_card hsub).trans <| (Finset.card_union_le _ _).trans <|
      add_le_add (Finset.card_image_le.trans (Finset.card_range _).le)
        (Finset.card_image_le.trans (Finset.card_range _).le)
  have ht := h.task
  omega

/-- When every core has reported and all handlers have returned, enough has been counted. -/
theorem Ok.task_of_reported {s : PpRun} (h : s.Ok) (hrep : ∀ i < s.numPp, s.Reported i)
    (hidle : ∀ a, (s.src a).todo = []) : s.task ≤ 0 := by
  have hsettled : ∀ a, (s.src a).saw.any = true → a ∈ s.counted := fun a ha =>
    (h.src a).settled (by simp [hidle a]) ha
  have hsub : Finset.range s.numPp ⊆ s.counted.image PpSource.idx := by
    intro i hi
    rcases hrep i (Finset.mem_range.mp hi) with hcore | hmmu
    · exact Finset.mem_image.mpr ⟨.core i, hsettled _ hcore, rfl⟩
    · exact Finset.mem_image.mpr ⟨.mmu i, hsettled _ hmmu, rfl⟩
  have hcard : s.numPp ≤ s.counted.card :=
    calc s.numPp = (Finset.range s.numPp).card := (Finset.card_range _).symm
      _ ≤ (s.counted.image PpSource.idx).card := Finset.card_le_card hsub
      _ ≤ s.counted.card := Finset.card_image_le
  have ht := h.task
  omega

/-- After a success no error is ever reported. -/
theorem Ok.no_error {s : PpRun} (h : s.Ok) (hf : false ∈ s.dones) (a : PpSource) :
    (s.src a).saw.error = false := by
  by_contra hne
  rw [Bool.not_eq_false] at hne
  rcases (h.src a).flagged hne with herr | hflag
  · rw [h.success hf] at herr
    cases herr
  · exact h.no_flag hflag hf

theorem Ok.countedOnce {s : PpRun} (h : s.Ok) : s.CountedOnce := by
  have hnoerr : false ∈ s.dones → ∀ i, ¬ s.SawError i := by
    rintro hf i (hcore | hmmu)
    · rw [h.no_error hf] at hcore
      cases hcore
    · rw [h.no_error hf] at hmmu
      cases hmmu
  refine ⟨?_, fun hrep hidle => ?_, fun hf => ⟨fun i hi => ?_, hnoerr hf⟩, fun i herr e he => ?_⟩
  · rcases h.calls with ⟨-, hnil, -⟩ | ⟨-, hnil, -⟩ | ⟨-, hlen, -⟩
    · simp [hnil]
    · simp [hnil]
    · exact hlen.le
  · have ht := h.task_of_reported hrep hidle
    rcases h.calls with ⟨hpos, -, -⟩ | ⟨-, -, a, ha, -⟩ | ⟨-, hlen, -⟩
    · omega
    · simp [hidle a] at ha
    · exact hlen
  · exact (h.all (h.task_of_dones (List.ne_nil_of_mem hf)) (h.success hf) i hi).2
  · cases e with
    | true => rfl
    | false => exact absurd herr (hnoerr he i)

end PpRun

/-- **A PP task is reported exactly once**, whatever the order and the interleaving of its
cores' handlers, and as a success only if every core has ended its frame without error. -/
theorem pp_counted_once {s : PpRun} (hs : ppLts.Reachable s) : s.CountedOnce := by
  have h : s.Ok := hs.invariant (fun _ => .init) fun _ _ _ _ hi hstep => hi.step hstep
  exact h.countedOnce

/-- Two cores: one ends its frame before the other is started, the other faults. -/
def faultRun : List PpEvent :=
  [.start, .frameEnd 0] ++ List.replicate 3 (.handler (.core 0)) ++ [.start, .raise (.mmu 1)] ++
    List.replicate 6 (.handler (.mmu 1))

def twoCores : PpRun where
  numPp := 2
  started := 0
  task := 2
  error := false
  ended := fun _ => false
  src := fun _ => ⟨.none, true, [], .none⟩
  counted := ∅
  dones := []

theorem pp_counted_once_fault : ∃ s, Lts.exec ppStep twoCores faultRun = some s ∧
    s.dones = [true] ∧ s.CountedOnce := by
  have hrun : (Lts.exec ppStep twoCores faultRun).map PpRun.dones = some [true] := by
    decide +kernel
  obtain ⟨s, hs, hdones⟩ := Option.map_eq_some_iff.mp hrun
  have h0 : ppLts.Reachable twoCores :=
    .init ⟨by decide, rfl, rfl, rfl, fun _ => rfl, fun _ => ⟨rfl, rfl, rfl⟩, rfl, rfl⟩
  exact ⟨s, hs, hdones, pp_counted_once (h0.exec (fun _ _ _ h => h) hs)⟩

end Lima
