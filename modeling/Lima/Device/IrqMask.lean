import Lima.Lib.Lts
import Lima.Sched.Jobs

/-!
# The interrupt mask of a started core

`task_fini` starts a soft reset of a core and masks its interrupts; the next
`task_run` waits for the reset and unmasks them, or gives up and starts the core
all the same. `task_error` masks, resets hard and unmasks, or gives up. Here a core
is its `INT_MASK` register and its `async_reset` flag, and the hardware answers
each wait.
-/

namespace Lima

/-! ## Interrupt sources -/

def limaGpIrqVsEndCmdLst : ℕ := 1 <<< 0
def limaGpIrqPlbuEndCmdLst : ℕ := 1 <<< 1
def limaGpIrqPlbuOutOfMem : ℕ := 1 <<< 2

/-- Bits 2, 6, 9 to 11, 13, 14 and 20 to 22. -/
def limaGpIrqMaskError : ℕ := 0x706E44
def limaGpIrqMaskUsed : ℕ :=
  limaGpIrqVsEndCmdLst ||| limaGpIrqPlbuEndCmdLst ||| limaGpIrqMaskError

def limaPpIrqEndOfFrame : ℕ := 1 <<< 0

/-- Bits 3, 4 and 8 to 11. -/
def limaPpIrqMaskError : ℕ := 0xF18
def limaPpIrqMaskUsed : ℕ := limaPpIrqEndOfFrame ||| limaPpIrqMaskError

/-! ## One core -/

/-- A GP or PP core. `atStart` is not stored: what `INT_MASK` held when the last
start command was written. -/
structure Core where
  intMask : ℕ
  asyncReset : Bool
  atStart : Option ℕ
deriving DecidableEq, Repr

namespace Core

/-- A soft reset is started unless one is pending. -/
def softResetAsync (c : Core) : Core :=
  if c.asyncReset then c
  else { c with
    intMask := 0
    asyncReset := true }

/-- Masked, reset, and unmasked if the core responds in time. -/
def hardReset (used : ℕ) (resetOk : Bool) (c : Core) : Core :=
  if resetOk then { c with intMask := used } else { c with intMask := 0 }

/-- The start command. -/
def start (c : Core) : Core := { c with atStart := some c.intMask }

def limaGpSoftResetAsync : Core → Core := softResetAsync

/-- `lima_gp_soft_reset_async_wait`, whose poll ends in time or not. -/
def limaGpSoftResetAsyncWait (resetOk : Bool) (c : Core) : Core :=
  if !c.asyncReset then c
  else if !resetOk then c
  else { c with
    intMask := limaGpIrqMaskUsed
    asyncReset := false }

def limaGpHardReset : Bool → Core → Core := hardReset limaGpIrqMaskUsed

def limaGpHwInit (resetOk : Bool) (c : Core) : Core :=
  limaGpSoftResetAsyncWait resetOk (limaGpSoftResetAsync { c with asyncReset := false })

/-- The part of `lima_gp_task_run` from the wait on, which goes on after a timeout. -/
def limaGpTaskRun (resetOk : Bool) (c : Core) : Core :=
  (limaGpSoftResetAsyncWait resetOk c).start

def limaPpSoftResetAsync : Core → Core := softResetAsync

/-- `lima_pp_soft_reset_async_wait_one`. -/
def limaPpSoftResetAsyncWaitOne (resetOk : Bool) (c : Core) : Core :=
  if !resetOk then c else { c with intMask := limaPpIrqMaskUsed }

/-- `lima_pp_soft_reset_async_wait` on one core: the flag goes also on a timeout. -/
def limaPpSoftResetAsyncWait (resetOk : Bool) (c : Core) : Core :=
  if !c.asyncReset then c
  else { limaPpSoftResetAsyncWaitOne resetOk c with asyncReset := false }

def limaPpHardReset : Bool → Core → Core := hardReset limaPpIrqMaskUsed

def limaPpHwInit (resetOk : Bool) (c : Core) : Core :=
  limaPpSoftResetAsyncWait resetOk (limaPpSoftResetAsync { c with asyncReset := false })

/-- One turn of the loop of `lima_pp_task_run`. -/
def limaPpStart (resetOk : Bool) (c : Core) : Core :=
  (limaPpSoftResetAsyncWait resetOk c).start

end Core

/-! ## The loops over the PP cores -/

/-- A loop over the first `n` cores. -/
def forCores (f : ℕ → Core → Core) : ℕ → (ℕ → Core) → ℕ → Core
  | 0, cs => cs
  | n + 1, cs => Function.update (forCores f n cs) n (f n (forCores f n cs n))

theorem forCores_apply (f : ℕ → Core → Core) (cs : ℕ → Core) (n i : ℕ) :
    forCores f n cs i = if i < n then f i (cs i) else cs i := by
  induction n with
  | zero => rfl
  | succ n ih =>
      rw [forCores]
      by_cases hi : i = n
      · subst hi
        rw [Function.update_self, ih, if_neg (lt_irrefl i), if_pos (Nat.lt_succ_self i)]
      · rw [Function.update_of_ne hi, ih]
        by_cases hlt : i < n
        · rw [if_pos hlt, if_pos (by omega)]
        · rw [if_neg hlt, if_neg (by omega)]

/-- `lima_pp_task_run` on `num_pp` cores. -/
def limaPpTaskRunCores (numPp : ℕ) (resetOk : ℕ → Bool) : (ℕ → Core) → ℕ → Core :=
  forCores (fun i => Core.limaPpStart (resetOk i)) numPp

/-- `lima_pp_task_fini`. -/
def limaPpTaskFini (numProcessor : ℕ) : (ℕ → Core) → ℕ → Core :=
  forCores (fun _ => Core.limaPpSoftResetAsync) numProcessor

/-- `lima_pp_task_error`. -/
def limaPpTaskError (numProcessor : ℕ) (resetOk : ℕ → Bool) : (ℕ → Core) → ℕ → Core :=
  forCores (fun i => Core.limaPpHardReset (resetOk i)) numProcessor

/-! ## The transition system -/

/-- What a pipe is doing. A core that has masked itself on an error waits for
`task_error` or, on the GP, for `task_recover`. -/
inductive PipePhase where
  | idle | running | faulted
deriving DecidableEq, Repr

structure Cores where
  gp : Core
  gpPhase : PipePhase
  numProcessor : ℕ
  pp : ℕ → Core
  ppPhase : PipePhase

inductive CoreEvent where
  | gpRun (resetOk : Bool)
  | gpIrqError
  | gpRecover
  | gpFini
  | gpError (resetOk : Bool)
  | ppRun (numPp : ℕ) (resetOk : ℕ → Bool)
  | ppIrqError (i : ℕ)
  | ppFini
  | ppError (resetOk : ℕ → Bool)

/-- The next event. `task_error` runs from a timeout, which can come at any time. -/
def coresStep (s : Cores) : CoreEvent → Option Cores
  | .gpRun resetOk =>
      if s.gpPhase = .idle then
        some { s with
          gp := s.gp.limaGpTaskRun resetOk
          gpPhase := .running }
      else none
  | .gpIrqError =>
      if s.gpPhase = .running then
        some { s with
          gp := { s.gp with intMask := 0 }
          gpPhase := .faulted }
      else none
  | .gpRecover =>
      if s.gpPhase = .faulted then
        some { s with
          gp := { s.gp with intMask := limaGpIrqMaskUsed }
          gpPhase := .running }
      else none
  | .gpFini =>
      if s.gpPhase = .running then
        some { s with
          gp := s.gp.limaGpSoftResetAsync
          gpPhase := .idle }
      else none
  | .gpError resetOk =>
      some { s with
        gp := s.gp.limaGpHardReset resetOk
        gpPhase := .idle }
  | .ppRun numPp resetOk =>
      if s.ppPhase = .idle ∧ 0 < numPp ∧ numPp ≤ s.numProcessor then
        some { s with
          pp := limaPpTaskRunCores numPp resetOk s.pp
          ppPhase := .running }
      else none
  | .ppIrqError i =>
      if s.ppPhase ≠ .idle ∧ i < s.numProcessor then
        some { s with
          pp := Function.update s.pp i { s.pp i with intMask := 0 }
          ppPhase := .faulted }
      else none
  | .ppFini =>
      if s.ppPhase = .running then
        some { s with
          pp := limaPpTaskFini s.numProcessor s.pp
          ppPhase := .idle }
      else none
  | .ppError resetOk =>
      some { s with
        pp := limaPpTaskError s.numProcessor resetOk s.pp
        ppPhase := .idle }

/-- Runs of a device whose cores have been initialised. -/
def coresLts : Lts Cores CoreEvent where
  init s := s.gpPhase = .idle ∧ s.ppPhase = .idle ∧
    (∃ c : Core, c.atStart = none ∧ s.gp = c.limaGpHwInit true) ∧
    ∀ i, ∃ c : Core, c.atStart = none ∧ s.pp i = c.limaPpHwInit true
  step s e s' := coresStep s e = some s'

/-- **Every core was started with its interrupts unmasked.** -/
def Cores.Armed (s : Cores) : Prop :=
  (∀ m, s.gp.atStart = some m → m = limaGpIrqMaskUsed) ∧
    ∀ i m, (s.pp i).atStart = some m → m = limaPpIrqMaskUsed

/-- A wait for the pending reset of a masked core ends in time, and so does a hard
reset of a core that has no reset pending. -/
def ResetsEnd (s : Cores) : CoreEvent → Prop
  | .gpRun resetOk =>
      s.gp.asyncReset = true → s.gp.intMask ≠ limaGpIrqMaskUsed → resetOk = true
  | .gpError resetOk => s.gp.asyncReset = false → resetOk = true
  | .ppRun numPp resetOk => ∀ i < numPp,
      (s.pp i).asyncReset = true → (s.pp i).intMask ≠ limaPpIrqMaskUsed → resetOk i = true
  | .ppError resetOk => ∀ i < s.numProcessor,
      (s.pp i).asyncReset = false → resetOk i = true
  | _ => True

/-! ## One core keeps its promise -/

/-- Unmasked, or waiting for a reset after which it will be. -/
def Core.Ready (used : ℕ) (c : Core) : Prop := c.intMask = used ∨ c.asyncReset = true

/-- Started with its interrupts unmasked, if at all. -/
def Core.Armed (used : ℕ) (c : Core) : Prop := ∀ m, c.atStart = some m → m = used

namespace Core

variable {used : ℕ} {c : Core} {resetOk : Bool}

theorem softResetAsync_ready : (softResetAsync c).Ready used := by
  unfold softResetAsync
  split
  · exact .inr ‹_›
  · exact .inr rfl

@[simp] theorem softResetAsync_atStart : (softResetAsync c).atStart = c.atStart := by
  unfold softResetAsync
  split <;> rfl

theorem hardReset_ready (h : c.asyncReset = false → resetOk = true) :
    (hardReset used resetOk c).Ready used := by
  unfold hardReset
  by_cases hok : resetOk = true
  · rw [if_pos hok]
    exact .inl rfl
  · rw [if_neg hok]
    refine .inr ?_
    show c.asyncReset = true
    by_contra hc
    exact hok (h (by simpa using hc))

@[simp] theorem hardReset_atStart : (hardReset used resetOk c).atStart = c.atStart := by
  unfold hardReset
  split <;> rfl

/-- The wait of the GP leaves `INT_MASK` as it was, or unmasks it. -/
theorem limaGpSoftResetAsyncWait_intMask :
    (limaGpSoftResetAsyncWait resetOk c).intMask =
      if c.asyncReset = true ∧ resetOk = true then limaGpIrqMaskUsed else c.intMask := by
  unfold limaGpSoftResetAsyncWait
  cases c.asyncReset <;> cases resetOk <;> rfl

theorem limaPpSoftResetAsyncWait_intMask :
    (limaPpSoftResetAsyncWait resetOk c).intMask =
      if c.asyncReset = true ∧ resetOk = true then limaPpIrqMaskUsed else c.intMask := by
  unfold limaPpSoftResetAsyncWait limaPpSoftResetAsyncWaitOne
  cases c.asyncReset <;> cases resetOk <;> rfl

/-- A wait that unmasks unless its poll times out starts a ready core unmasked. -/
theorem Ready.waited {mask : ℕ} (h : c.Ready used)
    (hwait : mask = if c.asyncReset = true ∧ resetOk = true then used else c.intMask)
    (hok : c.asyncReset = true → c.intMask ≠ used → resetOk = true) : mask = used := by
  rw [hwait]
  split
  · rfl
  · rename_i hnot
    by_contra hmask
    rcases h with hused | hasync
    · exact hmask hused
    · exact hnot ⟨hasync, hok hasync hmask⟩

/-- A started core whose mask is `used` is ready and armed. -/
theorem start_armed (h : c.intMask = used) : c.start.Ready used ∧ c.start.Armed used :=
  ⟨.inl h, fun _ hm => (Option.some.inj hm).symm.trans h⟩

theorem limaGpTaskRun_armed (h : c.Ready limaGpIrqMaskUsed)
    (hok : c.asyncReset = true → c.intMask ≠ limaGpIrqMaskUsed → resetOk = true) :
    (limaGpTaskRun resetOk c).Ready limaGpIrqMaskUsed ∧
      (limaGpTaskRun resetOk c).Armed limaGpIrqMaskUsed :=
  start_armed (h.waited limaGpSoftResetAsyncWait_intMask hok)

theorem limaPpStart_armed (h : c.Ready limaPpIrqMaskUsed)
    (hok : c.asyncReset = true → c.intMask ≠ limaPpIrqMaskUsed → resetOk = true) :
    (limaPpStart resetOk c).Ready limaPpIrqMaskUsed ∧
      (limaPpStart resetOk c).Armed limaPpIrqMaskUsed :=
  start_armed (h.waited limaPpSoftResetAsyncWait_intMask hok)

end Core

/-! ## All cores -/

/-- A pipe that has not faulted has only ready cores. -/
structure Cores.Ok (s : Cores) : Prop where
  gpReady : s.gpPhase ≠ .faulted → s.gp.Ready limaGpIrqMaskUsed
  gpArmed : s.gp.Armed limaGpIrqMaskUsed
  ppReady : s.ppPhase ≠ .faulted → ∀ i < s.numProcessor, (s.pp i).Ready limaPpIrqMaskUsed
  ppArmed : ∀ i, (s.pp i).Armed limaPpIrqMaskUsed

theorem Cores.Ok.init {s : Cores} (h : coresLts.init s) : s.Ok := by
  obtain ⟨-, -, ⟨c, hc, hgp⟩, hpp⟩ := h
  refine ⟨fun _ => ?_, ?_, fun _ i _ => ?_, fun i => ?_⟩
  · rw [hgp]
    exact .inl rfl
  · rw [hgp]
    intro m hm
    have hnone : (c.limaGpHwInit true).atStart = c.atStart := rfl
    rw [hnone, hc] at hm
    cases hm
  · obtain ⟨c, -, hi⟩ := hpp i
    rw [hi]
    exact .inl rfl
  · obtain ⟨c, hc, hi⟩ := hpp i
    rw [hi]
    intro m hm
    have hnone : (c.limaPpHwInit true).atStart = c.atStart := rfl
    rw [hnone, hc] at hm
    cases hm

/-- The PP cores after a loop that leaves each of its cores ready and armed. -/
theorem Cores.Ok.forCores {s : Cores} (h : s.Ok) {f : ℕ → Core → Core} {n : ℕ}
    {phase : PipePhase} (hf : ∀ i < n, (f i (s.pp i)).Ready limaPpIrqMaskUsed ∧
      (f i (s.pp i)).Armed limaPpIrqMaskUsed)
    (hrest : ∀ i, n ≤ i → i < s.numProcessor → (s.pp i).Ready limaPpIrqMaskUsed) :
    Cores.Ok { s with
      pp := Lima.forCores f n s.pp
      ppPhase := phase } := by
  refine ⟨h.gpReady, h.gpArmed, fun _ i hi => ?_, fun i => ?_⟩
  · show (Lima.forCores f n s.pp i).Ready _
    rw [forCores_apply]
    split
    · exact (hf i ‹_›).1
    · exact hrest i (by omega) hi
  · show (Lima.forCores f n s.pp i).Armed _
    rw [forCores_apply]
    split
    · exact (hf i ‹_›).2
    · exact h.ppArmed i

/-- **Step lemma.** -/
theorem Cores.Ok.step {s s' : Cores} {e : CoreEvent} (h : s.Ok) (hends : ResetsEnd s e)
    (hstep : coresStep s e = some s') : s'.Ok := by
  cases e with
  | gpRun resetOk =>
      simp only [coresStep, Option.ite_none_right_eq_some, Option.some.injEq] at hstep
      obtain ⟨hidle, rfl⟩ := hstep
      obtain ⟨hready, harmed⟩ := Core.limaGpTaskRun_armed
        (h.gpReady (by rw [hidle]; decide)) hends
      exact ⟨fun _ => hready, harmed, h.ppReady, h.ppArmed⟩
  | gpIrqError =>
      simp only [coresStep, Option.ite_none_right_eq_some, Option.some.injEq] at hstep
      obtain ⟨-, rfl⟩ := hstep
      exact ⟨fun hne => absurd rfl hne, h.gpArmed, h.ppReady, h.ppArmed⟩
  | gpRecover =>
      simp only [coresStep, Option.ite_none_right_eq_some, Option.some.injEq] at hstep
      obtain ⟨-, rfl⟩ := hstep
      exact ⟨fun _ => .inl rfl, h.gpArmed, h.ppReady, h.ppArmed⟩
  | gpFini =>
      simp only [coresStep, Option.ite_none_right_eq_some, Option.some.injEq] at hstep
      obtain ⟨-, rfl⟩ := hstep
      refine ⟨fun _ => Core.softResetAsync_ready, fun m hm => h.gpArmed m ?_, h.ppReady,
        h.ppArmed⟩
      exact Core.softResetAsync_atStart.symm.trans hm
  | gpError resetOk =>
      obtain rfl := Option.some.inj hstep
      refine ⟨fun _ => Core.hardReset_ready hends, fun m hm => h.gpArmed m ?_, h.ppReady,
        h.ppArmed⟩
      exact Core.hardReset_atStart.symm.trans hm
  | ppRun numPp resetOk =>
      simp only [coresStep, Option.ite_none_right_eq_some, Option.some.injEq] at hstep
      obtain ⟨⟨hidle, -, hle⟩, rfl⟩ := hstep
      have hready := h.ppReady (by rw [hidle]; decide)
      exact h.forCores
        (fun i hi => Core.limaPpStart_armed (hready i (by omega)) (hends i hi))
        fun i _ hi => hready i hi
  | ppIrqError i =>
      simp only [coresStep, Option.ite_none_right_eq_some, Option.some.injEq] at hstep
      obtain ⟨-, rfl⟩ := hstep
      refine ⟨h.gpReady, h.gpArmed, fun hne => absurd rfl hne, fun j => ?_⟩
      by_cases hj : j = i
      · subst hj
        simpa [Core.Armed] using h.ppArmed j
      · simpa [Function.update_of_ne hj] using h.ppArmed j
  | ppFini =>
      simp only [coresStep, Option.ite_none_right_eq_some, Option.some.injEq] at hstep
      obtain ⟨-, rfl⟩ := hstep
      refine h.forCores (fun i _ => ⟨Core.softResetAsync_ready, fun m hm => ?_⟩)
        fun i hle hi => absurd hi (by omega)
      exact h.ppArmed i m (Core.softResetAsync_atStart.symm.trans hm)
  | ppError resetOk =>
      obtain rfl := Option.some.inj hstep
      refine h.forCores (fun i hi => ⟨Core.hardReset_ready (hends i hi), fun m hm => ?_⟩)
        fun i hle hi => absurd hi (by omega)
      exact h.ppArmed i m (Core.hardReset_atStart.symm.trans hm)

/-- **A core is started with its interrupts unmasked as long as the resets end.** -/
theorem started_cores_armed {s : Cores} (hs : coresLts.Via ResetsEnd s) : s.Armed := by
  have h : s.Ok := hs.invariant (fun _ => .init) fun _ _ _ _ hi hends hstep =>
    hi.step hends hstep
  exact ⟨h.gpArmed, h.ppArmed⟩

/-! ## Two tasks in a row -/

/-- A Mali-400 MP2 after probe. -/
def probedCores : Cores where
  gp := Core.limaGpHwInit true ⟨0, false, none⟩
  gpPhase := .idle
  numProcessor := 2
  pp := fun _ => Core.limaPpHwInit true ⟨0, false, none⟩
  ppPhase := .idle

theorem probedCores_init : coresLts.init probedCores :=
  ⟨rfl, rfl, ⟨_, rfl, rfl⟩, fun _ => ⟨_, rfl, rfl⟩⟩

theorem started_cores_armed_twice : ∃ s,
    Lts.exec coresStep probedCores
      [.ppRun 1 fun _ => true, .gpRun true, .gpFini, .gpRun true] = some s ∧
    s.gp.atStart = some limaGpIrqMaskUsed ∧ s.Armed := by
  refine ⟨_, rfl, rfl, started_cores_armed ?_⟩
  have h0 : coresLts.Via ResetsEnd probedCores := .init probedCores_init
  have hpp : ResetsEnd probedCores (.ppRun 1 fun _ => true) := fun _ _ _ _ => rfl
  have hgp : ∀ s, ResetsEnd s (.gpRun true) := fun _ _ _ => rfl
  have hfini : ∀ s, ResetsEnd s .gpFini := fun _ => trivial
  exact (((h0.step hpp rfl).step (hgp _) rfl).step (hfini _) rfl).step (hgp _) rfl

/-- The reset after the first task takes too long, and the second starts masked. -/
theorem started_core_masked : ∃ s, coresLts.Reachable s ∧ ¬ s.Armed := by
  obtain ⟨s, hs, hstart⟩ : ∃ s,
      Lts.exec coresStep probedCores [.gpRun true, .gpFini, .gpRun false] = some s ∧
        s.gp.atStart = some 0 := ⟨_, rfl, rfl⟩
  have h0 : coresLts.Reachable probedCores := .init probedCores_init
  refine ⟨s, h0.exec (fun _ _ _ h => h) hs, fun harmed => ?_⟩
  exact absurd (harmed.1 0 hstart) (by decide)

/-! ## The GP of the scheduler's model -/

/-- The register and the flag behind a pipe of the scheduler. -/
def Pipe.gpCore (x : Pipe) : Core where
  intMask := if x.intMask then limaGpIrqMaskUsed else 0
  asyncReset := x.asyncReset
  atStart := none

/-- The scheduler's model handles them as the core does. -/
theorem gpCore_softResetAsync (x : Pipe) :
    (limaGpSoftResetAsync x).gpCore = x.gpCore.limaGpSoftResetAsync := by
  unfold limaGpSoftResetAsync Core.limaGpSoftResetAsync Core.softResetAsync
  cases h : x.asyncReset <;> simp [Pipe.gpCore, h]

theorem gpCore_softResetAsyncWait (resetOk : Bool) (x : Pipe) :
    (limaGpSoftResetAsyncWait resetOk x).gpCore =
      x.gpCore.limaGpSoftResetAsyncWait resetOk := by
  unfold limaGpSoftResetAsyncWait Core.limaGpSoftResetAsyncWait
  cases h : x.asyncReset <;> cases resetOk <;> simp [Pipe.gpCore, h]

theorem gpCore_hardReset (resetOk : Bool) (x : Pipe) :
    (limaGpHardReset resetOk x).gpCore = x.gpCore.limaGpHardReset resetOk := by
  unfold limaGpHardReset Core.limaGpHardReset Core.hardReset
  cases resetOk <;> simp [Pipe.gpCore]

end Lima
