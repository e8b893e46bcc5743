import Lima.Device.IrqMask

/-!
# The flag of a pending soft reset

`async_reset` says that a soft reset has been started and its completion not yet waited
for. `task_fini` starts one on every core and sets the flag; `task_run` waits for the
cores it uses and clears theirs. `task_error` resets all cores hard, which calls off a
pending soft reset, and leaves the flags alone. On a Mali-450 the flag is that of the
broadcast IP, through which the driver writes to the cores the broadcast unit reaches.
-/

namespace Lima

/-! ## The cores of a device -/

/-- The GP or a PP core. -/
inductive CoreId where
  | gp
  | pp (i : ℕ)
deriving DecidableEq, Repr

/-- `bcast` is the flag of `pipe->bcast_processor`, where there is one; `up` says that the
device is not suspended. -/
structure ResetDev where
  up : Bool
  gp : Core
  numProcessor : ℕ
  pp : ℕ → Core
  bcast : Option Bool

inductive ResetEvent where
  | gpRun (resetOk : Bool)
  | gpFini
  | gpError (resetOk : Bool)
  | ppRun (numPp : ℕ) (resetOk : ℕ → Bool)
  | ppFini
  | ppError (resetOk : ℕ → Bool)
  | suspend
  /-- The IPs between the PP cores and the broadcast IP may fail, and what follows it. -/
  | resume (gpOk : Bool) (ppOk : ℕ → Bool) (midOk endOk : Bool)

/-- Initialise the first `n` PP cores up to the first that fails. -/
def resumePps (ppOk : ℕ → Bool) : ℕ → (ℕ → Core) → (ℕ → Core) × Bool
  | 0, cs => (cs, true)
  | n + 1, cs =>
      match resumePps ppOk n cs with
      | (cs, false) => (cs, false)
      | (cs, true) => (Function.update cs n ((cs n).limaPpHwInit (ppOk n)), ppOk n)

namespace ResetDev

/-- A write to every core the broadcast unit reaches. -/
def broadcast (reach : ℕ → Bool) (f : Core → Core) (cs : ℕ → Core) (i : ℕ) : Core :=
  if reach i then f (cs i) else cs i

/-- `lima_pp_task_run`, from the waits on. -/
def ppTaskRun (reach : ℕ → Bool) (s : ResetDev) (numPp : ℕ) (resetOk : ℕ → Bool) :
    ResetDev :=
  match s.bcast with
  | none => { s with pp := limaPpTaskRunCores numPp resetOk s.pp }
  | some pending =>
      let cs := if pending then
          forCores (fun i => Core.limaPpSoftResetAsyncWaitOne (resetOk i)) numPp s.pp
        else s.pp
      { s with
        pp := broadcast reach Core.start cs
        bcast := some false }

/-- `lima_pp_task_fini`. -/
def ppTaskFini (reach : ℕ → Bool) (s : ResetDev) : ResetDev :=
  match s.bcast with
  | none => { s with pp := limaPpTaskFini s.numProcessor s.pp }
  | some true => s
  | some false =>
      { s with
        pp := broadcast reach (fun c => { c with intMask := 0 }) s.pp
        bcast := some true }

/-- `lima_device_resume`, as far as the GP, the PP cores and the broadcast IP go. -/
def resume (s : ResetDev) (gpOk : Bool) (ppOk : ℕ → Bool) (midOk endOk : Bool) : ResetDev :=
  let s := { s with gp := s.gp.limaGpHwInit gpOk }
  if !gpOk then s
  else
    let r := resumePps ppOk s.numProcessor s.pp
    let s := { s with pp := r.1 }
    if !r.2 || !midOk then s
    else { s with
      bcast := s.bcast.map fun _ => false
      up := endOk }

end ResetDev

/-- The next event, in any order while the device is up. -/
def resetStep (reach : ℕ → Bool) (s : ResetDev) : ResetEvent → Option ResetDev
  | .gpRun resetOk =>
      if s.up then some { s with gp := s.gp.limaGpTaskRun resetOk } else none
  | .gpFini => if s.up then some { s with gp := s.gp.limaGpSoftResetAsync } else none
  | .gpError resetOk =>
      if s.up then some { s with gp := s.gp.limaGpHardReset resetOk } else none
  | .ppRun numPp resetOk =>
      if s.up ∧ 0 < numPp ∧ numPp ≤ s.numProcessor then
        some (s.ppTaskRun reach numPp resetOk)
      else none
  | .ppFini => if s.up then some (s.ppTaskFini reach) else none
  | .ppError resetOk =>
      if s.up then some { s with pp := limaPpTaskError s.numProcessor resetOk s.pp }
      else none
  | .suspend => if s.up then some { s with up := false } else none
  | .resume gpOk ppOk midOk endOk =>
      if s.up then none else some (s.resume gpOk ppOk midOk endOk)

/-- Runs of a device that has been probed. -/
def resetLts (reach : ℕ → Bool) : Lts ResetDev ResetEvent where
  init s := s.up = true ∧ (∃ c : Core, s.gp = c.limaGpHwInit true) ∧
    (∀ i, ∃ c : Core, s.pp i = c.limaPpHwInit true) ∧ s.bcast ≠ some true
  step s e s' := resetStep reach s e = some s'

/-! ## The hardware's side -/

namespace ResetDev

/-- The core has an `async_reset` of its own. -/
def asyncReset (s : ResetDev) : CoreId → Bool
  | .gp => s.gp.asyncReset
  | .pp i => (s.pp i).asyncReset

/-- The flag that decides about a reset of PP core `i`. -/
def ppPending (s : ResetDev) (i : ℕ) : Bool := s.bcast.getD (s.pp i).asyncReset

/-- A wait of the event polls the core for the end of a soft reset. In a resume only cores
are polled whose reset has just been started. -/
def polls (s : ResetDev) : ResetEvent → CoreId → Bool
  | .gpRun _, .gp => s.gp.asyncReset
  | .ppRun numPp _, .pp i => decide (i < numPp) && s.ppPending i
  | _, _ => false

/-- PP core `i` is one that `task_fini` has to reset. -/
def finiReaches (reach : ℕ → Bool) (s : ResetDev) (i : ℕ) : Bool :=
  decide (i < s.numProcessor) && (s.bcast.isNone || reach i)

/-- The event would reset the core and does not, because of the flag. -/
def skips (reach : ℕ → Bool) (s : ResetDev) : ResetEvent → CoreId → Bool
  | .gpFini, .gp => s.gp.asyncReset
  | .ppFini, .pp i => s.finiReaches reach i && s.ppPending i
  | _, _ => false

/-- A resume gets as far as core `i`. -/
def resumes (s : ResetDev) (gpOk : Bool) (ppOk : ℕ → Bool) : CoreId → Bool
  | .gp => true
  | .pp i => gpOk && decide (i < s.numProcessor ∧ ∀ j < i, ppOk j = true)

/-- The event writes `SOFT_RESET` to the core. -/
def issues (reach : ℕ → Bool) (s : ResetDev) : ResetEvent → CoreId → Bool
  | .gpFini, .gp => !s.gp.asyncReset
  | .ppFini, .pp i => s.finiReaches reach i && !s.ppPending i
  | .resume gpOk ppOk _ _, c => s.resumes gpOk ppOk c
  | _, _ => false

/-- A wait of the event sees the core's reset end. -/
def consumes (s : ResetDev) : ResetEvent → CoreId → Bool
  | .gpRun resetOk, .gp => s.gp.asyncReset && resetOk
  | .ppRun numPp resetOk, .pp i => s.polls (.ppRun numPp resetOk) (.pp i) && resetOk i
  | .resume gpOk _ _ _, .gp => gpOk
  | .resume gpOk ppOk _ _, .pp i => s.resumes gpOk ppOk (.pp i) && ppOk i
  | _, _ => false

/-- The event resets the core hard. -/
def hardResets (s : ResetDev) : ResetEvent → CoreId → Bool
  | .gpError _, .gp => true
  | .ppError _, .pp i => decide (i < s.numProcessor)
  | _, _ => false

end ResetDev

/-- The cores to which a soft reset has been issued since their last hard reset whose end
no wait has seen. -/
def outstandingAfter (reach : ℕ → Bool) (h : CoreId → Bool) (s : ResetDev) (e : ResetEvent)
    (c : CoreId) : Bool :=
  (h c || s.issues reach e c) && !s.consumes e c && !s.hardResets e c

/-- The runs with that record. -/
def trackedLts (reach : ℕ → Bool) : Lts (ResetDev × (CoreId → Bool)) ResetEvent :=
  (resetLts reach).record (fun _ => false) (outstandingAfter reach)

/-! ## What is promised -/

/-- The core exists. -/
def ResetDev.Has (s : ResetDev) : CoreId → Prop
  | .gp => True
  | .pp i => i < s.numProcessor

/-- **The flags tell of outstanding resets only**: that of a core, and that of the broadcast
IP of a device that is up, for the cores it reaches. -/
structure Shadows (reach : ℕ → Bool) (s : ResetDev) (h : CoreId → Bool) : Prop where
  core : ∀ c, s.Has c → s.asyncReset c = true → h c = true
  bcast : s.up = true → s.bcast = some true → ∀ i < s.numProcessor, reach i = true →
    h (.pp i) = true

/-- The event waits for outstanding resets only, and leaves out no other. -/
structure WaitsRight (reach : ℕ → Bool) (s : ResetDev) (h : CoreId → Bool) (e : ResetEvent) :
    Prop where
  polls : ∀ c, s.polls e c = true → h c = true
  skips : ∀ c, s.skips reach e c = true → h c = true

/-- The condition: cores are reset hard only while no flag tells of a soft reset of theirs,
and a broadcast task uses cores that the reset after the last one has reached. -/
def HardResetsClean (reach : ℕ → Bool) (s : ResetDev) : ResetEvent → Prop
  | .gpError _ => s.gp.asyncReset = false
  | .ppError _ => ∀ i < s.numProcessor, (s.pp i).asyncReset = false ∧
      (s.bcast = some true → reach i = false)
  | .ppRun numPp _ => s.bcast = some true → ∀ i < numPp, reach i = true
  | _ => True

/-! ## What each function does to a flag -/

namespace Core

variable (c : Core) (resetOk : Bool)

@[simp] theorem limaGpSoftResetAsync_asyncReset : c.limaGpSoftResetAsync.asyncReset = true := by
  unfold limaGpSoftResetAsync softResetAsync
  split
  · assumption
  · rfl

@[simp] theorem limaGpTaskRun_asyncReset :
    (c.limaGpTaskRun resetOk).asyncReset = (c.asyncReset && !resetOk) := by
  unfold limaGpTaskRun limaGpSoftResetAsyncWait start
  cases h : c.asyncReset <;> cases resetOk <;> simp [h]

@[simp] theorem limaPpStart_asyncReset : (c.limaPpStart resetOk).asyncReset = false := by
  unfold limaPpStart limaPpSoftResetAsyncWait start
  cases h : c.asyncReset <;> simp [h]

@[simp] theorem limaPpSoftResetAsyncWaitOne_asyncReset :
    (c.limaPpSoftResetAsyncWaitOne resetOk).asyncReset = c.asyncReset := by
  unfold limaPpSoftResetAsyncWaitOne
  cases resetOk <;> rfl

@[simp] theorem limaGpHardReset_asyncReset :
    (limaGpHardReset resetOk c).asyncReset = c.asyncReset := by
  unfold limaGpHardReset hardReset
  split <;> rfl

@[simp] theorem limaPpHardReset_asyncReset :
    (limaPpHardReset resetOk c).asyncReset = c.asyncReset := by
  unfold limaPpHardReset hardReset
  split <;> rfl

@[simp] theorem limaGpHwInit_asyncReset : (c.limaGpHwInit resetOk).asyncReset = !resetOk := by
  unfold limaGpHwInit limaGpSoftResetAsync softResetAsync limaGpSoftResetAsyncWait
  cases resetOk <;> rfl

@[simp] theorem limaPpHwInit_asyncReset : (c.limaPpHwInit resetOk).asyncReset = false := by
  unfold limaPpHwInit limaPpSoftResetAsync softResetAsync limaPpSoftResetAsyncWait
  cases resetOk <;> rfl

end Core

/-- The PP cores after a resume: a core is initialised if all before it have been. -/
theorem resumePps_spec (ppOk : ℕ → Bool) (cs : ℕ → Core) : ∀ n,
    (∀ i, (resumePps ppOk n cs).1 i =
      if i < n ∧ ∀ j < i, ppOk j = true then (cs i).limaPpHwInit (ppOk i) else cs i) ∧
    ((resumePps ppOk n cs).2 = true ↔ ∀ j < n, ppOk j = true)
  | 0 => ⟨fun i => (if_neg (by omega)).symm, by simp [resumePps]⟩
  | n + 1 => by
      obtain ⟨hcs, hall⟩ := resumePps_spec ppOk cs n
      rw [resumePps]
      rcases hr : resumePps ppOk n cs with ⟨cs', ok⟩
      rw [hr] at hcs hall
      cases ok with
      | false =>
          have hnot : ¬ ∀ j < n, ppOk j = true := fun h => by cases hall.mpr h
          dsimp only at hcs ⊢
          refine ⟨fun i => ?_, ⟨fun h => absurd h Bool.false_ne_true, fun h => ?_⟩⟩
          · rw [hcs i]
            refine if_congr ⟨fun h => ⟨by omega, h.2⟩, fun h => ⟨?_, h.2⟩⟩ rfl rfl
            by_contra hge
            exact hnot fun j hj => h.2 j (by omega)
          · exact absurd (fun j hj => h j (by omega)) hnot
      | true =>
          have hall := hall.mp rfl
          dsimp only at hcs ⊢
          refine ⟨fun i => ?_, ⟨fun h j hj => ?_, fun h => h n (Nat.lt_succ_self n)⟩⟩
          · by_cases hi : i = n
            · subst hi
              rw [Function.update_self, if_pos ⟨Nat.lt_succ_self i, hall⟩, hcs i,
                if_neg (fun h => lt_irrefl i h.1)]
            · rw [Function.update_of_ne hi, hcs i]
              exact if_congr ⟨fun h => ⟨by omega, h.2⟩, fun h => ⟨by omega, h.2⟩⟩ rfl rfl
          · rcases Nat.lt_succ_iff_lt_or_eq.mp hj with hlt | rfl
            · exact hall j hlt
            · exact h

/-! ## The invariant -/

/-- Besides: where there is a broadcast IP, the cores' own flags are clear, and only cores
it reaches have resets outstanding. -/
structure ResetInv (reach : ℕ → Bool) (s : ResetDev) (h : CoreId → Bool) : Prop
    extends Shadows reach s h where
  own : s.bcast.isSome = true → ∀ i < s.numProcessor, (s.pp i).asyncReset = false
  unreached : s.up = true → s.bcast.isSome = true → ∀ i < s.numProcessor, reach i = false →
    h (.pp i) = false

section Steps

variable {reach : ℕ → Bool} {s s' : ResetDev} {h : CoreId → Bool}

theorem ResetInv.init (hinit : (resetLts reach).init s) :
    ResetInv reach s fun _ => false := by
  obtain ⟨-, ⟨c, hgp⟩, hpp, hbcast⟩ := hinit
  have hflag : ∀ i, (s.pp i).asyncReset = false := fun i => by
    obtain ⟨c, hi⟩ := hpp i
    rw [hi]
    exact c.limaPpHwInit_asyncReset true
  refine ⟨⟨fun c _ hc => ?_, fun _ hb => absurd hb hbcast⟩, fun _ i _ => hflag i,
    fun _ _ _ _ _ => rfl⟩
  cases c with
  | gp =>
      change s.gp.asyncReset = true at hc
      rw [hgp, Core.limaGpHwInit_asyncReset] at hc
      cases hc
  | pp i =>
      change (s.pp i).asyncReset = true at hc
      rw [hflag i] at hc
      cases hc

/-- A step of the GP. -/
theorem ResetInv.ofGp (hi : ResetInv reach s h) {g : Core} {h' : CoreId → Bool}
    (hgp : g.asyncReset = true → h' .gp = true) (hpp : ∀ i, h' (.pp i) = h (.pp i)) :
    ResetInv reach { s with gp := g } h' := by
  refine ⟨⟨fun c hc hflag => ?_, fun hup hb i hlt hr => ?_⟩, hi.own, fun hup hb i hlt hr => ?_⟩
  · cases c with
    | gp => exact hgp hflag
    | pp i => exact (hpp i).trans (hi.core (.pp i) hc hflag)
  · exact (hpp i).trans (hi.bcast hup hb i hlt hr)
  · exact (hpp i).trans (hi.unreached hup hb i hlt hr)

/-- A step of PP cores with flags of their own. -/
theorem ResetInv.ofCores (hi : ResetInv reach s h) (hnone : s.bcast = none)
    {cs : ℕ → Core} {h' : CoreId → Bool} (hgp : h' .gp = h .gp)
    (hpp : ∀ i < s.numProcessor, (cs i).asyncReset = true → h' (.pp i) = true) :
    ResetInv reach { s with pp := cs } h' := by
  refine ⟨⟨fun c hc hflag => ?_, fun _ hb => ?_⟩, fun hb => ?_, fun _ hb => ?_⟩
  · cases c with
    | gp => exact hgp.trans (hi.core .gp trivial hflag)
    | pp i => exact hpp i hc hflag
  · rw [show s.bcast = none from hnone] at hb
    cases hb
  · rw [show s.bcast = none from hnone] at hb
    cases hb
  · rw [show s.bcast = none from hnone] at hb
    cases hb

/-- A step through the broadcast IP. -/
theorem ResetInv.ofBcast (hi : ResetInv reach s h) {b : Bool} (hsome : s.bcast = some b)
    {b' : Bool} {cs : ℕ → Core} {h' : CoreId → Bool} (hgp : h' .gp = h .gp)
    (hcs : ∀ i, (cs i).asyncReset = (s.pp i).asyncReset)
    (hset : b' = true → s.up = true → ∀ i < s.numProcessor, reach i = true →
      h' (.pp i) = true)
    (hun : ∀ i < s.numProcessor, reach i = false → h (.pp i) = false → h' (.pp i) = false) :
    ResetInv reach { s with
      pp := cs
      bcast := some b' } h' := by
  have hisSome : s.bcast.isSome = true := by rw [hsome]; rfl
  have hown : ∀ i < s.numProcessor, (cs i).asyncReset = false := fun i hlt =>
    (hcs i).trans (hi.own hisSome i hlt)
  refine ⟨⟨fun c hc hflag => ?_, fun hup hb => hset (Option.some.inj hb) hup⟩,
    fun _ => hown, fun hup _ i hlt hr => hun i hlt hr (hi.unreached hup hisSome i hlt hr)⟩
  cases c with
  | gp => exact hgp.trans (hi.core .gp trivial hflag)
  | pp i =>
      change (cs i).asyncReset = true at hflag
      rw [hown i hc] at hflag
      cases hflag

/-! ### What the record becomes -/

theorem outstandingAfter_untouched {e : ResetEvent} {c : CoreId}
    (hissues : s.issues reach e c = false) (hconsumes : s.consumes e c = false)
    (hhard : s.hardResets e c = false) : outstandingAfter reach h s e c = h c := by
  simp [outstandingAfter, hissues, hconsumes, hhard]

@[simp] theorem outstandingAfter_gpRun (resetOk : Bool) :
    outstandingAfter reach h s (.gpRun resetOk) .gp =
      (h .gp && !(s.gp.asyncReset && resetOk)) := by
  simp [outstandingAfter, ResetDev.issues, ResetDev.consumes, ResetDev.hardResets]

@[simp] theorem outstandingAfter_gpFini :
    outstandingAfter reach h s .gpFini .gp = (h .gp || !s.gp.asyncReset) := by
  simp [outstandingAfter, ResetDev.issues, ResetDev.consumes, ResetDev.hardResets]

@[simp] theorem outstandingAfter_ppRun (numPp : ℕ) (resetOk : ℕ → Bool) (i : ℕ) :
    outstandingAfter reach h s (.ppRun numPp resetOk) (.pp i) =
      (h (.pp i) && !(decide (i < numPp) && s.ppPending i && resetOk i)) := by
  simp [outstandingAfter, ResetDev.issues, ResetDev.consumes, ResetDev.hardResets,
    ResetDev.polls]

@[simp] theorem outstandingAfter_ppFini (i : ℕ) :
    outstandingAfter reach h s .ppFini (.pp i) =
      (h (.pp i) || s.finiReaches reach i && !s.ppPending i) := by
  simp [outstandingAfter, ResetDev.issues, ResetDev.consumes, ResetDev.hardResets]

@[simp] theorem outstandingAfter_ppError (resetOk : ℕ → Bool) (i : ℕ) :
    outstandingAfter reach h s (.ppError resetOk) (.pp i) =
      (h (.pp i) && !decide (i < s.numProcessor)) := by
  simp [outstandingAfter, ResetDev.issues, ResetDev.consumes, ResetDev.hardResets]

/-! ### The steps of the PP -/

theorem ResetInv.ppRun (hi : ResetInv reach s h) {numPp : ℕ} (resetOk : ℕ → Bool) :
    ResetInv reach (s.ppTaskRun reach numPp resetOk)
      (outstandingAfter reach h s (.ppRun numPp resetOk)) := by
  have hgp : outstandingAfter reach h s (.ppRun numPp resetOk) .gp = h .gp :=
    outstandingAfter_untouched rfl rfl rfl
  rcases Option.eq_none_or_eq_some s.bcast with hb | ⟨pending, hb⟩
  · have hrun : s.ppTaskRun reach numPp resetOk =
        { s with pp := limaPpTaskRunCores numPp resetOk s.pp } := by
      simp only [ResetDev.ppTaskRun, hb]
    rw [hrun]
    refine hi.ofCores hb hgp fun i hlt hflag => ?_
    rw [limaPpTaskRunCores, forCores_apply] at hflag
    split at hflag
    · -- the wait has cleared the flag
      rw [Core.limaPpStart_asyncReset] at hflag
      cases hflag
    · rename_i hge
      simp [hge, hi.core (.pp i) hlt hflag]
  · simp only [ResetDev.ppTaskRun, hb]
    refine hi.ofBcast hb hgp (fun i => ?_) (fun hset => by cases hset) fun i hlt hr hout => ?_
    · unfold ResetDev.broadcast
      cases pending <;> cases reach i <;> simp [Core.start, forCores_apply] <;> split <;> simp
    · simp [hout]

theorem ResetInv.ppFini (hi : ResetInv reach s h) :
    ResetInv reach (s.ppTaskFini reach) (outstandingAfter reach h s .ppFini) := by
  have hgp : outstandingAfter reach h s .ppFini .gp = h .gp :=
    outstandingAfter_untouched rfl rfl rfl
  rcases Option.eq_none_or_eq_some s.bcast with hb | ⟨pending, hb⟩
  · have hfini : s.ppTaskFini reach = { s with pp := limaPpTaskFini s.numProcessor s.pp } := by
      simp only [ResetDev.ppTaskFini, hb]
    rw [hfini]
    refine hi.ofCores hb hgp fun i hlt _ => ?_
    cases hflag : (s.pp i).asyncReset with
    | true => simp [hi.core (.pp i) hlt hflag]
    | false => simp [ResetDev.finiReaches, ResetDev.ppPending, hb, hlt, hflag]
  · have hout : ∀ i < s.numProcessor, reach i = false → h (.pp i) = false →
        outstandingAfter reach h s .ppFini (.pp i) = false := fun i _ hr hout => by
      simp [ResetDev.finiReaches, hb, hr, hout]
    cases pending with
    | true =>
        have hfini : s.ppTaskFini reach = { s with
            pp := s.pp
            bcast := some true } := by
          simp only [ResetDev.ppTaskFini, hb]
          rw [← hb]
        rw [hfini]
        exact hi.ofBcast hb hgp (fun _ => rfl)
          (fun _ hup i hlt hr => by simp [hi.bcast hup hb i hlt hr]) hout
    | false =>
        simp only [ResetDev.ppTaskFini, hb]
        refine hi.ofBcast hb hgp (fun i => ?_) (fun _ _ i hlt hr => ?_) hout
        · unfold ResetDev.broadcast
          split <;> rfl
        · simp [ResetDev.finiReaches, ResetDev.ppPending, hb, hlt, hr]

theorem ResetInv.ppError (hi : ResetInv reach s h) (resetOk : ℕ → Bool)
    (hclean : HardResetsClean reach s (.ppError resetOk)) :
    ResetInv reach { s with pp := limaPpTaskError s.numProcessor resetOk s.pp }
      (outstandingAfter reach h s (.ppError resetOk)) := by
  have hflag : ∀ i, (limaPpTaskError s.numProcessor resetOk s.pp i).asyncReset =
      (s.pp i).asyncReset := fun i => by
    rw [limaPpTaskError, forCores_apply]
    split
    · exact Core.limaPpHardReset_asyncReset _ _
    · rfl
  refine ⟨⟨fun c hc hset => ?_, fun _ hb i hlt hr => ?_⟩, fun hb i hlt => ?_,
    fun hup hb i hlt hr => ?_⟩
  · cases c with
    | gp => exact (outstandingAfter_untouched rfl rfl rfl).trans (hi.core .gp trivial hset)
    | pp i =>
        have hset : (s.pp i).asyncReset = true := (hflag i).symm.trans hset
        rw [(hclean i hc).1] at hset
        cases hset
  · rw [(hclean i hlt).2 hb] at hr
    cases hr
  · exact (hflag i).trans (hi.own hb i hlt)
  · simp [hlt]

/-! ### A resume -/

theorem ResetDev.resume_spec (hdown : s.up = false) (gpOk : Bool) (ppOk : ℕ → Bool)
    (midOk endOk : Bool) :
    (s.resume gpOk ppOk midOk endOk).gp = s.gp.limaGpHwInit gpOk ∧
    (s.resume gpOk ppOk midOk endOk).numProcessor = s.numProcessor ∧
    (∀ i, (s.resume gpOk ppOk midOk endOk).pp i =
      if gpOk = true ∧ i < s.numProcessor ∧ ∀ j < i, ppOk j = true then
        (s.pp i).limaPpHwInit (ppOk i) else s.pp i) ∧
    (s.resume gpOk ppOk midOk endOk).bcast.isSome = s.bcast.isSome ∧
    ((s.resume gpOk ppOk midOk endOk).up = true →
      gpOk = true ∧ (∀ j < s.numProcessor, ppOk j = true) ∧
        (s.resume gpOk ppOk midOk endOk).bcast ≠ some true) := by
  obtain ⟨hpps, hall⟩ := resumePps_spec ppOk s.pp s.numProcessor
  unfold ResetDev.resume
  cases gpOk with
  | false => exact ⟨rfl, rfl, fun i => by simp, rfl, fun hup => by simp [hdown] at hup⟩
  | true =>
      have hpp : ∀ i, (resumePps ppOk s.numProcessor s.pp).1 i =
          if true = true ∧ i < s.numProcessor ∧ ∀ j < i, ppOk j = true then
            (s.pp i).limaPpHwInit (ppOk i) else s.pp i := fun i => by
        rw [hpps i]
        exact if_congr ⟨fun h => ⟨rfl, h⟩, fun h => h.2⟩ rfl rfl
      dsimp only
      rw [if_neg (by simp)]
      split
      · exact ⟨rfl, rfl, hpp, rfl, fun hup => by simp [hdown] at hup⟩
      · rename_i hok
        simp only [Bool.or_eq_true, Bool.not_eq_true', not_or, Bool.not_eq_false] at hok
        refine ⟨rfl, rfl, hpp, by simp, fun _ => ⟨rfl, hall.mp hok.1, ?_⟩⟩
        cases s.bcast <;> simp

theorem ResetInv.resume (hi : ResetInv reach s h) (hdown : s.up = false) (gpOk : Bool)
    (ppOk : ℕ → Bool) (midOk endOk : Bool) :
    ResetInv reach (s.resume gpOk ppOk midOk endOk)
      (outstandingAfter reach h s (.resume gpOk ppOk midOk endOk)) := by
  obtain ⟨hgp, hn, hpp, hsome, hup⟩ := ResetDev.resume_spec hdown gpOk ppOk midOk endOk
  have hnew : ∀ i, outstandingAfter reach h s (.resume gpOk ppOk midOk endOk) (.pp i) =
      ((h (.pp i) || s.resumes gpOk ppOk (.pp i)) &&
        !(s.resumes gpOk ppOk (.pp i) && ppOk i)) := fun i => by
    simp [outstandingAfter, ResetDev.issues, ResetDev.consumes, ResetDev.hardResets]
  refine ⟨⟨fun c hc hset => ?_, fun hon hb => absurd hb (hup hon).2.2⟩, fun hb i hlt => ?_,
    fun hon hb i hlt hr => ?_⟩
  · cases c with
    | gp =>
        change (ResetDev.gp _).asyncReset = true at hset
        rw [hgp, Core.limaGpHwInit_asyncReset] at hset
        simp [outstandingAfter, ResetDev.issues, ResetDev.consumes, ResetDev.hardResets,
          ResetDev.resumes, hset]
    | pp i =>
        change (ResetDev.pp _ i).asyncReset = true at hset
        rw [hpp i] at hset
        split at hset
        · rw [Core.limaPpHwInit_asyncReset] at hset
          cases hset
        · rename_i hnot
          have hres : s.resumes gpOk ppOk (.pp i) = false := by
            simpa [ResetDev.resumes] using hnot
          have hlt : i < s.numProcessor := by
            rw [← hn]
            exact hc
          rw [hnew, hres, hi.core (.pp i) hlt hset]
          rfl
  · rw [hpp i]
    split
    · exact Core.limaPpHwInit_asyncReset _ _
    · exact hi.own (hsome ▸ hb) i (hn ▸ hlt)
  · obtain ⟨rfl, hall, -⟩ := hup hon
    have hlt' : i < s.numProcessor := hn ▸ hlt
    have hres : s.resumes true ppOk (.pp i) = true := by
      simpa [ResetDev.resumes, hlt'] using fun j hj => hall j (hj.trans hlt')
    rw [hnew, hres, hall i hlt']
    simp

/-- **Step lemma.** -/
theorem ResetInv.step (hi : ResetInv reach s h) {e : ResetEvent}
    (hclean : HardResetsClean reach s e) (hstep : resetStep reach s e = some s') :
    ResetInv reach s' (outstandingAfter reach h s e) := by
  cases e with
  | gpRun resetOk =>
      simp only [resetStep, Option.ite_none_right_eq_some, Option.some.injEq] at hstep
      obtain ⟨-, rfl⟩ := hstep
      refine hi.ofGp (fun hflag => ?_) fun _ => outstandingAfter_untouched rfl rfl rfl
      rw [Core.limaGpTaskRun_asyncReset, Bool.and_eq_true] at hflag
      have hout := hi.core .gp trivial hflag.1
      have hok : resetOk = false := by simpa using hflag.2
      simp [hout, hok]
  | gpFini =>
      simp only [resetStep, Option.ite_none_right_eq_some, Option.some.injEq] at hstep
      obtain ⟨-, rfl⟩ := hstep
      refine hi.ofGp (fun _ => ?_) fun _ => outstandingAfter_untouched rfl rfl rfl
      rw [outstandingAfter_gpFini]
      cases hflag : s.gp.asyncReset with
      | true => simp [hi.core .gp trivial hflag]
      | false => simp
  | gpError resetOk =>
      simp only [resetStep, Option.ite_none_right_eq_some, Option.some.injEq] at hstep
      obtain ⟨-, rfl⟩ := hstep
      refine hi.ofGp (fun hflag => ?_) fun _ => outstandingAfter_untouched rfl rfl rfl
      rw [Core.limaGpHardReset_asyncReset] at hflag
      rw [show s.gp.asyncReset = false from hclean] at hflag
      cases hflag
  | suspend =>
      simp only [resetStep, Option.ite_none_right_eq_some, Option.some.injEq] at hstep
      obtain ⟨-, rfl⟩ := hstep
      have hsame : outstandingAfter reach h s .suspend = h := by
        funext c
        cases c <;> exact outstandingAfter_untouched rfl rfl rfl
      rw [hsame]
      exact ⟨⟨hi.core, fun hup => by cases hup⟩, hi.own, fun hup => by cases hup⟩
  | ppError resetOk =>
      simp only [resetStep, Option.ite_none_right_eq_some, Option.some.injEq] at hstep
      obtain ⟨-, rfl⟩ := hstep
      exact hi.ppError resetOk hclean
  | ppRun numPp resetOk =>
      simp only [resetStep, Option.ite_none_right_eq_some, Option.some.injEq] at hstep
      obtain ⟨-, rfl⟩ := hstep
      exact hi.ppRun resetOk
  | ppFini =>
      simp only [resetStep, Option.ite_none_right_eq_some, Option.some.injEq] at hstep
      obtain ⟨-, rfl⟩ := hstep
      exact hi.ppFini
  | resume gpOk ppOk midOk endOk =>
      simp only [resetStep, Option.ite_none_left_eq_some, Option.some.injEq] at hstep
      obtain ⟨hdown, rfl⟩ := hstep
      exact hi.resume (by simpa using hdown) gpOk ppOk midOk endOk

/-- Under the condition every wait and every reset left out is right. -/
theorem ResetInv.waitsRight (hi : ResetInv reach s h) {e : ResetEvent}
    (hclean : HardResetsClean reach s e) (hstep : resetStep reach s e = some s') :
    WaitsRight reach s h e := by
  constructor
  · intro c hc
    cases e with
    | gpRun resetOk =>
        cases c with
        | gp => exact hi.core .gp trivial hc
        | pp i => cases hc
    | ppRun numPp resetOk =>
        simp only [resetStep, Option.ite_none_right_eq_some, Option.some.injEq] at hstep
        obtain ⟨⟨hup, -, hle⟩, -⟩ := hstep
        cases c with
        | gp => cases hc
        | pp i =>
            simp only [ResetDev.polls, Bool.and_eq_true, decide_eq_true_eq] at hc
            obtain ⟨hlt, hpend⟩ := hc
            rcases Option.eq_none_or_eq_some s.bcast with hb | ⟨pending, hb⟩
            · rw [ResetDev.ppPending, hb] at hpend
              exact hi.core (.pp i) (hlt.trans_le hle) hpend
            · rw [ResetDev.ppPending, hb] at hpend
              obtain rfl : pending = true := hpend
              exact hi.bcast hup hb i (hlt.trans_le hle) (hclean hb i hlt)
    | gpFini | gpError _ | ppFini | ppError _ | suspend | resume _ _ _ _ => cases c <;> cases hc
  · intro c hc
    cases e with
    | gpFini =>
        cases c with
        | gp => exact hi.core .gp trivial hc
        | pp i => cases hc
    | ppFini =>
        simp only [resetStep, Option.ite_none_right_eq_some, Option.some.injEq] at hstep
        obtain ⟨hup, -⟩ := hstep
        cases c with
        | gp => cases hc
        | pp i =>
            simp only [ResetDev.skips, ResetDev.finiReaches, Bool.and_eq_true, Bool.or_eq_true,
              decide_eq_true_eq] at hc
            obtain ⟨⟨hlt, hreach⟩, hpend⟩ := hc
            rcases Option.eq_none_or_eq_some s.bcast with hb | ⟨pending, hb⟩
            · rw [ResetDev.ppPending, hb] at hpend
              exact hi.core (.pp i) hlt hpend
            · rw [ResetDev.ppPending, hb] at hpend
              obtain rfl : pending = true := hpend
              rw [hb] at hreach
              exact hi.bcast hup hb i hlt (hreach.resolve_left (by simp))
    | gpRun _ | gpError _ | ppRun _ _ | ppError _ | suspend | resume _ _ _ _ =>
        cases c <;> cases hc

/-- A step that keeps the promise meets the condition. -/
theorem ResetInv.clean_of_right (hi : ResetInv reach s h) {e : ResetEvent}
    (hstep : resetStep reach s e = some s')
    (hshadows : Shadows reach s' (outstandingAfter reach h s e))
    (hright : WaitsRight reach s h e) : HardResetsClean reach s e := by
  cases e with
  | gpError resetOk =>
      simp only [resetStep, Option.ite_none_right_eq_some, Option.some.injEq] at hstep
      obtain ⟨-, rfl⟩ := hstep
      by_contra hflag
      have hset : s.gp.asyncReset = true := by simpa [HardResetsClean] using hflag
      have hout := hshadows.core .gp trivial
        ((Core.limaGpHardReset_asyncReset s.gp resetOk).trans hset)
      simp [outstandingAfter, ResetDev.hardResets] at hout
  | ppError resetOk =>
      simp only [resetStep, Option.ite_none_right_eq_some, Option.some.injEq] at hstep
      obtain ⟨hup, rfl⟩ := hstep
      intro i hlt
      refine ⟨?_, fun hb => ?_⟩
      · by_contra hflag
        have hset : (s.pp i).asyncReset = true := by simpa using hflag
        have hflag' : (limaPpTaskError s.numProcessor resetOk s.pp i).asyncReset = true := by
          rw [limaPpTaskError, forCores_apply, if_pos hlt, Core.limaPpHardReset_asyncReset, hset]
        have hout := hshadows.core (.pp i) hlt hflag'
        simp [hlt] at hout
      · by_contra hr
        have hout := hshadows.bcast hup hb i hlt (by simpa using hr)
        simp [hlt] at hout
  | ppRun numPp resetOk =>
      simp only [resetStep, Option.ite_none_right_eq_some, Option.some.injEq] at hstep
      obtain ⟨⟨hup, -, hle⟩, -⟩ := hstep
      intro hb i hlt
      by_contra hr
      have hout := hright.polls (.pp i) (by simp [ResetDev.polls, ResetDev.ppPending, hlt, hb])
      rw [hi.unreached hup (by rw [hb]; rfl) i (hlt.trans_le hle) (by simpa using hr)] at hout
      cases hout
  | gpRun _ | gpFini | ppFini | suspend | resume _ _ _ _ => trivial

end Steps

/-- **Run lemma.** -/
theorem ResetInv.of_via {reach : ℕ → Bool} {x : ResetDev × (CoreId → Bool)}
    (hx : (trackedLts reach).Via (fun x e => HardResetsClean reach x.1 e) x) :
    ResetInv reach x.1 x.2 := by
  refine hx.invariant (I := fun x => ResetInv reach x.1 x.2) ?_ ?_
  · rintro ⟨s, h⟩ ⟨hinit, rfl⟩
    exact .init hinit
  · rintro ⟨s, h⟩ e ⟨s', h'⟩ - hi hclean ⟨hstep, rfl⟩
    exact hi.step hclean hstep

/-- **Main result.** In every run whose steps meet the condition, flags tell of outstanding
resets only; a further step keeps that, waits for outstanding resets only and leaves out no
other reset, if and only if it meets the condition too. -/
theorem async_reset_shadows {reach : ℕ → Bool} {x : ResetDev × (CoreId → Bool)}
    (hx : (trackedLts reach).Via (fun x e => HardResetsClean reach x.1 e) x) :
    Shadows reach x.1 x.2 ∧ ∀ e x', (trackedLts reach).step x e x' →
      (Shadows reach x'.1 x'.2 ∧ WaitsRight reach x.1 x.2 e ↔ HardResetsClean reach x.1 e) := by
  have hi := ResetInv.of_via hx
  refine ⟨hi.toShadows, fun e x' ⟨hstep, hx'⟩ => ?_⟩
  rw [hx']
  exact ⟨fun ⟨hshadows, hright⟩ => hi.clean_of_right hstep hshadows hright, fun hclean =>
    ⟨(hi.step hclean hstep).toShadows, hi.waitsRight hclean hstep⟩⟩

/-- A task that uses all cores leaves no flag set, and may fail. -/
theorem hardResetsClean_of_full {reach : ℕ → Bool} {s s' : ResetDev} {resetOk : ℕ → Bool}
    (hnone : s.bcast = none)
    (hstep : resetStep reach s (.ppRun s.numProcessor resetOk) = some s')
    (resetOk' : ℕ → Bool) : HardResetsClean reach s' (.ppError resetOk') := by
  simp only [resetStep, Option.ite_none_right_eq_some, Option.some.injEq] at hstep
  obtain ⟨-, rfl⟩ := hstep
  simp only [ResetDev.ppTaskRun, hnone]
  intro i hlt
  refine ⟨?_, fun hb => by cases hb⟩
  change (limaPpTaskRunCores s.numProcessor resetOk s.pp i).asyncReset = false
  rw [limaPpTaskRunCores, forCores_apply, if_pos hlt, Core.limaPpStart_asyncReset]

/-! ## Two tasks of different widths -/

/-- A Mali-400 MP2 after probe. -/
def probedDev : ResetDev := ⟨true, probedCores.gp, 2, probedCores.pp, none⟩

theorem probedDev_init (reach : ℕ → Bool) : (resetLts reach).init probedDev :=
  ⟨rfl, ⟨_, rfl⟩, fun _ => ⟨_, rfl⟩, by decide⟩

/-- The state after an event, with its record. -/
def trackedNext (x : ResetDev × (CoreId → Bool)) (e : ResetEvent) :
    ResetDev × (CoreId → Bool) :=
  ((resetStep (fun _ => true) x.1 e).getD x.1, outstandingAfter (fun _ => true) x.2 x.1 e)

theorem trackedNext_step {x : ResetDev × (CoreId → Bool)} {e : ResetEvent}
    (h : (resetStep (fun _ => true) x.1 e).isSome = true) :
    (trackedLts fun _ => true).step x e (trackedNext x e) :=
  Lts.record_step_getD (fun _ _ _ h => h) h

/-- A task on both cores, and the next one on the first `n`. -/
def twoTasks (n : ℕ) : ResetDev × (CoreId → Bool) :=
  [.ppRun 2 fun _ => true, .ppFini, .ppRun n fun _ => true].foldl trackedNext
    (probedDev, fun _ => false)

theorem twoTasks_via {n : ℕ} (hpos : 0 < n) (hle : n ≤ 2) :
    (trackedLts fun _ => true).Via (fun x e => HardResetsClean (fun _ => true) x.1 e)
      (twoTasks n) := by
  have hrun : ∀ x : ResetDev × (CoreId → Bool), x.1.bcast = none → ∀ k,
      HardResetsClean (fun _ => true) x.1 (.ppRun k fun _ => true) := fun x hx k hb => by
    rw [hx] at hb
    cases hb
  have hinit : (trackedLts fun _ => true).Via (fun x e => HardResetsClean (fun _ => true) x.1 e)
      (probedDev, fun _ => false) := .init ⟨probedDev_init _, rfl⟩
  have hfirst := hinit.step (hrun _ rfl 2) (trackedNext_step rfl)
  have hended := hfirst.step (a := ResetEvent.ppFini) trivial (trackedNext_step rfl)
  refine hended.step (hrun _ rfl n) (trackedNext_step ?_)
  rw [resetStep, if_pos ⟨rfl, hpos, hle⟩]
  rfl

/-- If the second task uses both cores too, it may fail. -/
theorem async_reset_shadows_full :
    Shadows (fun _ => true) (trackedNext (twoTasks 2) (.ppError fun _ => true)).1
      (trackedNext (twoTasks 2) (.ppError fun _ => true)).2 := by
  have hclean : HardResetsClean (fun _ => true) (twoTasks 2).1 (.ppError fun _ => true) := by
    intro i hi
    refine ⟨?_, fun hb => by cases hb⟩
    match i, hi with
    | 0, _ => rfl
    | 1, _ => rfl
  exact ((async_reset_shadows (twoTasks_via (by decide) le_rfl)).2 (.ppError fun _ => true) _
    (trackedNext_step rfl)).mpr hclean |>.1

/-- If it uses one core and fails, the other one's flag tells of a reset that has been called
off, and the next task on both cores waits for it. -/
theorem async_reset_stale : ∃ x : ResetDev × (CoreId → Bool),
    (trackedLts fun _ => true).Reachable x ∧ x.1.asyncReset (.pp 1) = true ∧
    x.2 (.pp 1) = false ∧ x.1.polls (.ppRun 2 fun _ => false) (.pp 1) = true ∧
    ¬ Shadows (fun _ => true) x.1 x.2 := by
  have hx : (trackedLts fun _ => true).Reachable
      (trackedNext (twoTasks 1) (.ppError fun _ => true)) :=
    (twoTasks_via (by decide) (by decide)).reachable.step (trackedNext_step rfl)
  refine ⟨_, hx, rfl, rfl, rfl, fun h => ?_⟩
  exact Bool.false_ne_true (h.core (.pp 1) (show 1 < 2 by decide) rfl)

end Lima
